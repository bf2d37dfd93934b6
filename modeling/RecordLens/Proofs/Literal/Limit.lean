import RecordLens.Proofs.Literal.Brackets
import RecordLens.Proofs.Literal.Recognition
import RecordLens.Text.Unicode

/-! The limit of nesting. A token changes the number of open brackets by its weight, whatever the
limit is. Hence readers with different limits go the same way until a bracket opens that the lower
limit refuses, and this is the first bracket that is nested deeper. -/

namespace RecordLens

namespace Lexeme

theorem weight_of_opens {l : Lexeme} (h : l.opens = true) : l.weight = 1 := by
  rw [weight, if_pos h]

theorem weight_nonpos {l : Lexeme} (h : l.opens = false) : l.weight ≤ 0 := by
  cases l <;> simp_all [weight, opens, closes]

theorem opens_eq_false_of_weight {l : Lexeme} (h : l.weight = 0) : l.opens = false := by
  cases l <;> simp_all [weight, opens, closes]

end Lexeme

/-- The opening brackets, each with its nesting: one more than the number of brackets that are open
in front of it. -/
def Token.openings (depth : Int) : List Token → List (Token × Int)
  | [] => []
  | t :: rest =>
    if t.lexeme.opens then (t, depth + 1) :: openings (depth + 1) rest
    else openings (depth + t.lexeme.weight) rest

theorem Token.openings_of_opens {depth : Int} {t : Token} {rest : List Token}
    (h : t.lexeme.opens = true) :
    openings depth (t :: rest) = (t, depth + 1) :: openings (depth + t.lexeme.weight) rest := by
  rw [openings, if_pos h, Lexeme.weight_of_opens h]

theorem Token.openings_of_not_opens {depth : Int} {t : Token} {rest : List Token}
    (h : t.lexeme.opens = false) :
    openings depth (t :: rest) = openings (depth + t.lexeme.weight) rest := by
  rw [openings, if_neg (by simp [h])]

theorem Token.mem_openings_iff {depth n : Int} {tokens : List Token} {t : Token} :
    (t, n) ∈ openings depth tokens ↔ ∃ before after, tokens = before ++ t :: after ∧
      t.lexeme.opens = true ∧ n = depth + Literal.level (before.map lexeme) + 1 := by
  induction tokens generalizing depth with
  | nil => simp [openings]
  | cons s rest ih =>
    have hsplit : (∃ before after, s :: rest = before ++ t :: after ∧ t.lexeme.opens = true ∧
          n = depth + Literal.level (before.map lexeme) + 1) ↔
        (s = t ∧ t.lexeme.opens = true ∧ n = depth + 1) ∨
          (t, n) ∈ openings (depth + s.lexeme.weight) rest := by
      rw [ih]
      constructor
      · rintro ⟨_ | ⟨_, before⟩, after, htokens, hopens, hn⟩
        · exact .inl ⟨(List.cons.inj htokens).1, hopens, by simpa using hn⟩
        · obtain ⟨rfl, hrest⟩ := List.cons.inj htokens
          refine .inr ⟨before, after, hrest, hopens, ?_⟩
          rw [hn, List.map_cons, Literal.level_cons]
          omega
      · rintro (⟨rfl, hopens, hn⟩ | ⟨before, after, rfl, hopens, hn⟩)
        · exact ⟨[], rest, rfl, hopens, by simpa using hn⟩
        · refine ⟨s :: before, after, rfl, hopens, ?_⟩
          rw [hn, List.map_cons, Literal.level_cons]
          omega
    rw [hsplit]
    cases hs : s.lexeme.opens with
    | true =>
      rw [openings_of_opens hs, List.mem_cons, Prod.mk.injEq]
      refine or_congr_left ⟨?_, ?_⟩
      · rintro ⟨rfl, hn⟩
        exact ⟨rfl, hs, hn⟩
      · rintro ⟨rfl, -, hn⟩
        exact ⟨rfl, hn⟩
    | false =>
      rw [openings_of_not_opens hs]
      refine ⟨.inr, fun h => h.resolve_left ?_⟩
      rintro ⟨rfl, hopens, -⟩
      rw [hs] at hopens
      cases hopens

/-- The tokens that a grammar takes by itself are no brackets. -/
structure Grammar.Unbracketed {α π : Type} (g : Grammar α π) : Prop where
  separator : g.separator.weight = 0
  start {t found} (h : g.start t = .ok found) : t.lexeme.weight = 0
  extend_whole {p t x} (h : g.extend p t = .ok (.whole x)) : t.lexeme.weight = 0
  extend_part {p t q} (h : g.extend p t = .ok (.part q)) : t.lexeme.weight = 0
  extend_bracket {p t} (h : g.extend p t = .ok .bracket) : t.lexeme.opens = true

namespace Reader

variable {α β π : Type}

/-- The number of open brackets: those of the frames, and the brace inside of which a name is
read. -/
def depth (r : Reader α π) : Nat :=
  match r.control with
  | .item | .part _ | .whole _ => r.frames.length
  | .firstName _ | .nextName _ _ | .separator _ _ _ _ => r.frames.length + 1

theorem length_le_depth (r : Reader α π) : r.frames.length ≤ r.depth := by
  unfold depth
  split <;> omega

/-- With the token, `m` open brackets become `n`, and if it opens one, the limit has room. -/
structure Moves (limit : Nat) (t : Token) (m n : Nat) : Prop where
  depth_eq : (n : Int) = m + t.lexeme.weight
  room : t.lexeme.opens = true → m < limit

namespace Moves

variable {limit m n : Nat} {t : Token}

theorem plain (hdepth : n = m) (hweight : t.lexeme.weight = 0) : Moves limit t m n where
  depth_eq := by omega
  room hopens := by
    rw [Lexeme.opens_eq_false_of_weight hweight] at hopens
    cases hopens

theorem closing (hdepth : n + 1 = m) (hcloses : t.lexeme.closes = true) : Moves limit t m n := by
  have hopens : t.lexeme.opens = false := by
    cases hl : t.lexeme <;> simp_all [Lexeme.opens, Lexeme.closes]
  refine ⟨?_, fun h => by rw [hopens] at h; cases h⟩
  rw [Lexeme.weight, hopens, if_neg Bool.false_ne_true, if_pos hcloses]
  omega

theorem le (h : Moves limit t m n) (hm : m ≤ limit) : n ≤ limit := by
  have hdepth := h.depth_eq
  cases hopens : t.lexeme.opens with
  | true =>
    have hroom := h.room hopens
    rw [Lexeme.weight_of_opens hopens] at hdepth
    omega
  | false =>
    have hweight := Lexeme.weight_nonpos hopens
    omega

end Moves

section

variable {g : Grammar α π} {limit : Nat} {accept : α → Except SyntaxError β}
  {frames : List (Frame α π)} {b : Bracket π} {t : Token} {r r' : Reader α π}

theorem moves_opened {owner : Option π} (hopens : t.lexeme.opens = true)
    (h : opened limit frames owner t = .ok r) : Moves limit t frames.length r.depth := by
  have hopened : r.depth = frames.length + 1 ∧ frames.length < limit := by
    unfold opened at h
    by_cases hlt : frames.length < limit
    · rw [if_pos hlt] at h
      split at h
      · exact Except.ok.inj h ▸ ⟨rfl, hlt⟩
      · exact Except.ok.inj h ▸ ⟨rfl, hlt⟩
    · simp [hlt] at h
  exact ⟨by rw [hopened.1, Lexeme.weight_of_opens hopens]; rfl, fun _ => hopened.2⟩

theorem depth_closed (x : α) : (closed g frames b x).depth = frames.length := by
  unfold closed
  split <;> rfl

theorem moves_closeBrace {fields : List (FieldExpr α)} (hclose : t.lexeme = .closeBrace)
    (h : closeBrace g frames b fields t = .ok r) :
    Moves limit t (frames.length + 1) r.depth := by
  unfold closeBrace at h
  dsimp only at h
  split at h
  · cases h
  · obtain rfl := Except.ok.inj h
    exact .closing (by rw [depth_closed]) (hclose ▸ rfl)

theorem moves_closeParen (hclose : t.lexeme = .closeParen) (xs : List α) :
    Moves limit t (frames.length + 1) (closeParen g frames b xs t).depth := by
  refine .closing ?_ (hclose ▸ rfl)
  unfold closeParen
  split
  · rw [depth_closed]
  · rw [depth_closed]

theorem moves_named {done : List (FieldExpr α)} (h : named frames b done t = .ok r) :
    Moves limit t (frames.length + 1) r.depth := by
  obtain ⟨name, hname, rfl⟩ := named_eq_ok_iff.1 h
  exact .plain rfl hname.weight_eq

theorem moves_follow {x : α} (h : follow g accept frames x t = .ok (.next r)) :
    Moves limit t frames.length r.depth := by
  cases frames with
  | nil =>
    simp only [follow] at h
    split at h
    · cases h
    · split at h <;> cases h
  | cons frame frames =>
    cases frame with
    | field b done name nameSpan =>
      simp only [follow] at h
      split at h
      · next hcomma =>
        obtain rfl := Outcome.next.inj (Except.ok.inj h)
        exact .plain rfl (hcomma ▸ rfl)
      · next hclose =>
        obtain ⟨r', hr, h⟩ := exists_of_map_eq_ok h
        obtain rfl := Outcome.next.inj h
        exact moves_closeBrace hclose hr
      · cases h
    | element b done =>
      simp only [follow] at h
      split at h
      · next hcomma =>
        obtain rfl := Outcome.next.inj (Except.ok.inj h)
        exact .plain rfl (hcomma ▸ rfl)
      · next hclose =>
        obtain rfl := Outcome.next.inj (Except.ok.inj h)
        exact moves_closeParen hclose _
      · cases h

theorem moves_begun (hg : g.Unbracketed) (h : begun g frames t = .ok r) :
    Moves limit t frames.length r.depth := by
  unfold begun at h
  split at h
  · cases h
  · next hstart => exact Except.ok.inj h ▸ .plain rfl (hg.start hstart)
  · next hstart => exact Except.ok.inj h ▸ .plain rfl (hg.start hstart)

/-- A token that is read adds its weight to the depth. One that opens a bracket is read only where
the limit has room. -/
theorem moves_step (hg : g.Unbracketed) (h : r.step g limit accept t = .ok (.next r')) :
    Moves limit t r.depth r'.depth := by
  obtain ⟨frames, control⟩ := r
  cases control with
  | item =>
    simp only [step] at h
    split at h
    · next hopens =>
      obtain ⟨r', hr, h⟩ := exists_of_map_eq_ok h
      obtain rfl := Outcome.next.inj h
      exact moves_opened hopens hr
    · obtain ⟨r', hr, h⟩ := exists_of_map_eq_ok h
      obtain rfl := Outcome.next.inj h
      exact moves_begun hg hr
  | part p =>
    simp only [step] at h
    split at h
    · cases h
    · next hextend =>
      obtain rfl := Outcome.next.inj (Except.ok.inj h)
      exact .plain rfl (hg.extend_whole hextend)
    · next hextend =>
      obtain rfl := Outcome.next.inj (Except.ok.inj h)
      exact .plain rfl (hg.extend_part hextend)
    · next hextend =>
      obtain ⟨r', hr, h⟩ := exists_of_map_eq_ok h
      obtain rfl := Outcome.next.inj h
      exact moves_opened (hg.extend_bracket hextend) hr
    · exact moves_follow h
  | whole x => exact moves_follow h
  | firstName b =>
    simp only [step] at h
    split at h
    · next hclose =>
      obtain ⟨r', hr, h⟩ := exists_of_map_eq_ok h
      obtain rfl := Outcome.next.inj h
      exact moves_closeBrace hclose hr
    · obtain ⟨r', hr, h⟩ := exists_of_map_eq_ok h
      obtain rfl := Outcome.next.inj h
      exact moves_named hr
  | nextName b done =>
    obtain ⟨r', hr, h⟩ := exists_of_map_eq_ok h
    obtain rfl := Outcome.next.inj h
    exact moves_named hr
  | separator b done name nameSpan =>
    simp only [step] at h
    split at h
    · next hseparator =>
      obtain rfl := Outcome.next.inj (Except.ok.inj h)
      exact .plain rfl (hseparator ▸ hg.separator)
    · cases h

end

section

variable {g : Grammar α π} {limit d d' : Nat}

theorem opened_eq_or_refused (hle : d ≤ d') (frames : List (Frame α π)) (owner : Option π)
    (t : Token) :
    opened d frames owner t = opened d' frames owner t ∨ d ≤ frames.length ∧
      opened d frames owner t = .error ⟨t.span, .nesting d, "a deeper literal"⟩ := by
  by_cases hlt : frames.length < d
  · left
    rw [opened, opened, if_pos hlt, if_pos (Nat.lt_of_lt_of_le hlt hle)]
  · right
    exact ⟨Nat.le_of_not_lt hlt, by rw [opened, if_neg hlt]⟩

/-- One token has the same effect under both limits, unless it opens a bracket for which the lower
one has no room. -/
theorem step_eq_or_refused (hg : g.Unbracketed) (hle : d ≤ d') (accept : α → Except SyntaxError β)
    (r : Reader α π) (t : Token) :
    r.step g d accept t = r.step g d' accept t ∨
      t.lexeme.opens = true ∧ d ≤ r.frames.length ∧
        r.step g d accept t = .error ⟨t.span, .nesting d, "a deeper literal"⟩ := by
  obtain ⟨frames, control⟩ := r
  cases control with
  | item =>
    simp only [step]
    split
    · next hopens =>
      rcases opened_eq_or_refused hle frames none t with heq | ⟨hd, herror⟩
      · exact .inl (by rw [heq])
      · exact .inr ⟨hopens, hd, by rw [herror]; rfl⟩
    · exact .inl rfl
  | part p =>
    simp only [step]
    split
    · exact .inl rfl
    · exact .inl rfl
    · exact .inl rfl
    · next hextend =>
      rcases opened_eq_or_refused hle frames (some p) t with heq | ⟨hd, herror⟩
      · exact .inl (by rw [heq])
      · exact .inr ⟨hg.extend_bracket hextend, hd, by rw [herror]; rfl⟩
    · exact .inl rfl
  | whole x => exact .inl rfl
  | firstName b => exact .inl rfl
  | nextName b done => exact .inl rfl
  | separator b done name nameSpan => exact .inl rfl

variable {accept : α → Except SyntaxError β} {frames : List (Frame α π)} {t : Token}
  {r : Reader α π} {tokens : List Token}

theorem run_eq_or_refused (hg : g.Unbracketed) (hle : d ≤ d') (hr : r.depth ≤ d) :
    r.run g d accept tokens = r.run g d' accept tokens ∨
      ∃ t : Token,
        (Token.openings r.depth tokens).find? (fun o => o.2 = (d : Int) + 1) =
          some (t, (d : Int) + 1) ∧
        r.run g d accept tokens = .error ⟨t.span, .nesting d, "a deeper literal"⟩ := by
  induction tokens generalizing r with
  | nil => exact .inl rfl
  | cons t rest ih =>
    rcases step_eq_or_refused hg hle accept r t with heq | ⟨hopens, hd, herror⟩
    · rw [run, run, ← heq]
      cases hstep : r.step g d accept t with
      | error e => exact .inl rfl
      | ok o =>
        cases o with
        | done result => exact .inl rfl
        | next r' =>
          have hmoves := moves_step hg hstep
          refine (ih (hmoves.le hr)).imp_right ?_
          rintro ⟨s, hs, hrun⟩
          refine ⟨s, ?_, hrun⟩
          rw [hmoves.depth_eq] at hs
          cases hopens : t.lexeme.opens with
          | true =>
            have hlt := hmoves.room hopens
            rw [Token.openings_of_opens hopens, List.find?_cons_of_neg, hs]
            simp only [decide_eq_true_eq]
            omega
          | false => rw [Token.openings_of_not_opens hopens, hs]
    · have hdepth : r.depth = d := Nat.le_antisymm hr (Nat.le_trans hd r.length_le_depth)
      refine .inr ⟨t, ?_, by rw [run, herror]⟩
      rw [Token.openings_of_opens hopens, hdepth, List.find?_cons_of_pos]
      simp

theorem lexeme_of_follow_done {x : α} {result : β}
    (h : follow g accept frames x t = .ok (.done result)) : t.lexeme = .endOfInput := by
  cases frames with
  | nil =>
    simp only [follow] at h
    split at h
    · cases h
    · split at h
      · assumption
      · cases h
  | cons frame frames =>
    cases frame with
    | field b done name nameSpan =>
      simp only [follow] at h
      split at h
      · cases h
      · obtain ⟨_, -, h⟩ := exists_of_map_eq_ok h
        cases h
      · cases h
    | element b done =>
      simp only [follow] at h
      split at h <;> cases h

theorem lexeme_of_step_done {result : β} (h : r.step g limit accept t = .ok (.done result)) :
    t.lexeme = .endOfInput := by
  have hnext {x : Except SyntaxError (Reader α π)}
      (h : x.map Outcome.next = .ok (.done result)) : t.lexeme = .endOfInput := by
    obtain ⟨_, -, h⟩ := exists_of_map_eq_ok h
    cases h
  obtain ⟨frames, control⟩ := r
  cases control with
  | item =>
    simp only [step] at h
    split at h
    · exact hnext h
    · exact hnext h
  | part p =>
    simp only [step] at h
    split at h
    · cases h
    · cases h
    · cases h
    · exact hnext h
    · exact lexeme_of_follow_done h
  | whole x => exact lexeme_of_follow_done h
  | firstName b =>
    simp only [step] at h
    split at h
    · exact hnext h
    · exact hnext h
  | nextName b done => exact hnext h
  | separator b done name nameSpan =>
    simp only [step] at h
    split at h <;> cases h

/-- Where a run succeeds, no bracket is nested deeper than the limit. -/
theorem openings_le_of_run (hg : g.Unbracketed) {ls : List Lexeme}
    (hls : tokens.map Token.lexeme = ls ++ [.endOfInput]) (hend : .endOfInput ∉ ls)
    (hr : r.depth ≤ limit) {result : β} (h : r.run g limit accept tokens = .ok result) :
    ∀ o ∈ Token.openings r.depth tokens, o.2 ≤ (limit : Int) := by
  induction tokens generalizing r ls with
  | nil => simp [Token.openings]
  | cons t rest ih =>
    rw [run] at h
    cases hstep : r.step g limit accept t with
    | error e => simp [hstep] at h
    | ok o =>
      rw [hstep] at h
      cases o with
      | done x =>
        have hlast := lexeme_of_step_done hstep
        have hrest : rest = [] := by
          cases ls with
          | nil => simpa using (List.cons.inj hls).2
          | cons l ls =>
            obtain rfl := (List.cons.inj hls).1
            exact absurd List.mem_cons_self (hlast ▸ hend)
        rw [hrest, Token.openings_of_not_opens (hlast ▸ rfl)]
        simp [Token.openings]
      | next r' =>
        have hmoves := moves_step hg hstep
        cases ls with
        | nil =>
          obtain ⟨hlast, hrest⟩ := List.cons.inj hls
          obtain rfl : rest = [] := List.map_eq_nil_iff.1 hrest
          cases h
        | cons l ls =>
          have hinner := ih (List.cons.inj hls).2 (fun hmem => hend (List.mem_cons_of_mem l hmem))
            (hmoves.le hr) h
          rw [hmoves.depth_eq] at hinner
          cases hopens : t.lexeme.opens with
          | true =>
            rw [Token.openings_of_opens hopens, List.forall_mem_cons]
            have hlt := hmoves.room hopens
            exact ⟨by dsimp only; omega, hinner⟩
          | false =>
            rw [Token.openings_of_not_opens hopens]
            exact hinner

end

end Reader

theorem TypeExpr.unbracketed : typeGrammar.Unbracketed where
  separator := rfl
  start {t found} h := by
    unfold typeGrammar at h
    dsimp only at h
    split at h
    · next hname => exact hname ▸ rfl
    · cases h
  extend_whole {p t x} h := by
    unfold typeGrammar at h
    dsimp only at h
    split at h
    · cases h
    · split at h <;> cases h
  extend_part {p t q} h := by
    unfold typeGrammar at h
    dsimp only at h
    split at h
    · next hname => exact hname ▸ rfl
    · split at h <;> cases h
  extend_bracket := TypeExpr.derives.bracket_opens

theorem Expr.unbracketed : valueGrammar.Unbracketed where
  separator := rfl
  start {t found} h := by
    rcases start_eq_ok h with ⟨s, hs, -⟩ | ⟨hminus, -⟩
    · simpa using hs.balanced.level_eq
    · exact hminus ▸ rfl
  extend_whole {p t x} h := by
    obtain ⟨s, hs, -⟩ := extend_eq_ok h
    simpa [Lexeme.weight, Lexeme.opens, Lexeme.closes] using hs.balanced.level_eq
  extend_part {p t q} h := by
    obtain ⟨s, -, he⟩ := extend_eq_ok h
    cases he
  extend_bracket := Expr.derives.bracket_opens

/-- The limit does nothing but to refuse the first bracket that is nested deeper: under a greater
limit the text has the same result, places and errors included, and whether a text that is accepted
at all is accepted under a limit is a matter of its brackets. -/
structure Literal.OnlyLimits [Alphabet] {α : Type} (text : String)
    (read : Nat → Except SyntaxError α) : Prop where
  eq_or_refused {d d' : Nat} (hle : d ≤ d') : read d = read d' ∨
    ∃ tokens t e, Token.scan text = .ok tokens ∧
      (Token.openings 0 tokens).find? (fun o => o.2 = (d : Int) + 1) = some (t, (d : Int) + 1) ∧
      read d = .error e ∧ e.span = t.span ∧
      e.expected.text = "at most " ++ toString d ++ " levels of nesting"
  accepted_iff {m : Nat} {a : α} (h : read m = .ok a) : ∃ tokens, Token.scan text = .ok tokens ∧
    ∀ d : Nat, (∃ b, read d = .ok b) ↔ ∀ o ∈ Token.openings 0 tokens, o.2 ≤ d

theorem Grammar.Unbracketed.onlyLimits_read [Alphabet] {α β π : Type} {g : Grammar α π}
    (hg : g.Unbracketed) (accept : α → Except SyntaxError β) (text : String) :
    Literal.OnlyLimits text fun limit => g.read limit accept text := by
  have hread {tokens : List Token} (hscan : Token.scan text = .ok tokens) (limit : Nat) :
      g.read limit accept text = Reader.initial.run g limit accept tokens := by
    rw [read, hscan]
  have hempty (d : Nat) : (Reader.initial : Reader α π).depth ≤ d := Nat.zero_le d
  constructor
  · intro d d' hle
    cases hscan : Token.scan text with
    | error e => exact .inl (by rw [read, read, hscan])
    | ok tokens =>
      rw [hread hscan, hread hscan]
      refine (Reader.run_eq_or_refused hg hle (hempty d)).imp_right ?_
      rintro ⟨t, ht, herror⟩
      exact ⟨tokens, t, _, rfl, ht, herror, rfl, rfl⟩
  · intro m a h
    cases hscan : Token.scan text with
    | error e => simp [read, hscan] at h
    | ok tokens =>
      obtain ⟨ls, hls, hend⟩ := Token.ends_of_scanFrom hscan
      refine ⟨tokens, rfl, fun d => ?_⟩
      simp only [hread hscan] at h ⊢
      constructor
      · rintro ⟨b, hb⟩
        exact Reader.openings_le_of_run hg hls hend (hempty d) hb
      · intro hd
        rcases Nat.le_total m d with hle | hle
        · -- the lower limit accepts, so it has refused nothing
          rcases Reader.run_eq_or_refused hg hle (hempty m) with heq | ⟨t, -, herror⟩
          · exact ⟨a, heq ▸ h⟩
          · rw [h] at herror
            cases herror
        · rcases Reader.run_eq_or_refused hg hle (hempty d) with heq | ⟨t, ht, -⟩
          · exact ⟨a, heq.trans h⟩
          · have hroom := hd _ (List.mem_of_find?_eq_some ht)
            dsimp only at hroom
            omega

/-- The limit has no other effect on any text, whether a type or a value is read from it, any one
or a record. -/
theorem Literal.onlyLimits [Alphabet] (text : String) :
    OnlyLimits text (fun limit => TypeExpr.read limit text) ∧
    OnlyLimits text (fun limit => TypeExpr.readRecord limit text) ∧
    OnlyLimits text (fun limit => Expr.read limit text) ∧
    OnlyLimits text (fun limit => Expr.readRecord limit text) :=
  ⟨TypeExpr.unbracketed.onlyLimits_read .ok text,
    TypeExpr.unbracketed.onlyLimits_read TypeExpr.asRecord text,
    Expr.unbracketed.onlyLimits_read .ok text, Expr.unbracketed.onlyLimits_read Expr.asRecord text⟩

theorem read_three_deep :
    (Expr.read 3 "(1, \x7ba = (2)\x7d)").isOk = true ∧
      (Token.scan "(1, \x7ba = (2)\x7d)").map (Token.openings 0) =
        .ok [(⟨.openParen, ⟨⟨1, 1, 0⟩, 1⟩⟩, 1), (⟨.openBrace, ⟨⟨1, 5, 4⟩, 1⟩⟩, 2),
          (⟨.openParen, ⟨⟨1, 10, 9⟩, 1⟩⟩, 3)] :=
  ⟨by decide +kernel, by decide +kernel⟩

/-- Of three brackets in one another the innermost is refused under a limit of two. -/
theorem Literal.onlyLimits_three_deep :
    (∃ e, Expr.read 4 "(1, \x7ba = (2)\x7d)" = .ok e) ∧
    ∃ e, Expr.read 2 "(1, \x7ba = (2)\x7d)" = .error e ∧ e.span = ⟨⟨1, 10, 9⟩, 1⟩ ∧
      e.expected.text = "at most " ++ toString 2 ++ " levels of nesting" := by
  have hlimits := (onlyLimits "(1, \x7ba = (2)\x7d)").2.2.1
  obtain ⟨hok, hopenings⟩ := read_three_deep
  cases hread : Expr.read 3 "(1, \x7ba = (2)\x7d)" with
  | error e =>
    rw [hread] at hok
    cases hok
  | ok a =>
    obtain ⟨tokens, hscan, haccepted⟩ := hlimits.accepted_iff hread
    rw [hscan, Except.map, Except.ok.injEq] at hopenings
    refine ⟨(haccepted 4).2 (by rw [hopenings]; decide), ?_⟩
    rcases hlimits.eq_or_refused (Nat.le_succ 2) with
      heq | ⟨_, t, e, hscan', hfind, he, hspan, htext⟩
    · have hall := (haccepted 2).1 ⟨a, heq.trans hread⟩
      rw [hopenings] at hall
      exact absurd hall (by decide)
    · obtain rfl := Except.ok.inj (hscan.symm.trans hscan')
      rw [hopenings] at hfind
      obtain ⟨ht, -⟩ := Prod.mk.inj (Option.some.inj hfind)
      exact ⟨e, he, by rw [hspan, ← ht], htext⟩

end RecordLens
