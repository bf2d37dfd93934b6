import RecordLens.Proofs.Literal.Derivation

/-! What is read was written. Between two tokens the lexemes read so far are those of the open
frames, each with the clauses or items that wait in it, and behind them those of the machine's
control. A token adds its lexeme to them, and at the end they derive the item that is read. -/

namespace RecordLens.Reader

open Literal (Phrase Clause commas commas_concat inBraces inParens)

variable {α β π : Type}

/-- The steps of a grammar agree with derivations: `written` of items within a number of brackets,
`ongoing` of items that have begun and `bracketed` of items in brackets. -/
structure Derives (g : Grammar α π) (unplaced : α → α) (written : Nat → List Lexeme → α → Prop)
    (ongoing : Nat → List Lexeme → π → Prop) (bracketed : Nat → List Lexeme → α → Prop) :
    Prop where
  start_item {n t x} (h : g.start t = .ok (.inl x)) : written n [t.lexeme] (unplaced x)
  start_part {n t p} (h : g.start t = .ok (.inr p)) : ongoing n [t.lexeme] p
  extend_whole {n ls p t x} (hp : ongoing n ls p) (h : g.extend p t = .ok (.whole x)) :
    written n (ls ++ [t.lexeme]) (unplaced x)
  extend_part {n ls p t q} (hp : ongoing n ls p) (h : g.extend p t = .ok (.part q)) :
    ongoing n (ls ++ [t.lexeme]) q
  extend_ended {n ls p t x} (hp : ongoing n ls p) (h : g.extend p t = .ok (.ended x)) :
    written n ls (unplaced x)
  bracket_opens {p t} (h : g.extend p t = .ok .bracket) : t.lexeme.opens = true
  join {n ls more p t x} (hp : ongoing n ls p) (h : g.extend p t = .ok .bracket)
    (hx : bracketed n more (unplaced x)) : ongoing n (ls ++ more) (g.join p x)
  unbracketed {n ls x} (hx : bracketed n ls x) : written n ls x
  enclosed {n ls x} (h : Literal.Bracketed g.separator g.record (written n) ls x) :
    bracketed (n + 1) ls x
  unplaced_record (fields : List (FieldExpr α)) (span : Span) :
    unplaced (g.record ⟨fields, span⟩) =
      g.record ⟨fields.map (FieldExpr.unplaced unplaced), default⟩

section

variable (g : Grammar α π) (limit : Nat) (unplaced : α → α)
  (written : Nat → List Lexeme → α → Prop) (ongoing : Nat → List Lexeme → π → Prop)

/-- At that depth the bracket has room, and `before` are the lexemes of its item in front of it. -/
def Bracket.Behind (depth : Nat) (b : Bracket π) (before : List Lexeme) : Prop :=
  depth < limit ∧
    match b.owner with
    | none => before = []
    | some p => ongoing (limit - depth) before p ∧ ∃ t, g.extend p t = .ok .bracket

/-- The fields that are done in an open brace are these clauses. -/
def Collected (depth : Nat) (done : List (FieldExpr α)) (clauses : List (Clause α)) : Prop :=
  done.map (FieldExpr.unplaced unplaced) = clauses.map Clause.field ∧
    ∀ c ∈ clauses, c.name.WrittenAs c.sign ∧ written (limit - (depth + 1)) c.lexemes c.item

def Gathered (depth : Nat) (done : List α) (phrases : List (Phrase α)) : Prop :=
  done.map unplaced = phrases.map Phrase.item ∧
    ∀ p ∈ phrases, written (limit - (depth + 1)) p.lexemes p.item

def openClauses (clauses : List (Clause α)) : List Lexeme :=
  .openBrace :: (clauses.map (Clause.row g.separator)).flatMap (· ++ [Lexeme.comma])

def openPhrases (phrases : List (Phrase α)) : List Lexeme :=
  .openParen :: (phrases.map Phrase.lexemes).flatMap (· ++ [Lexeme.comma])

/-- The lexemes up to the item that is read inside the frames. -/
inductive InFrames : List (Frame α π) → List Lexeme → Prop
  | nil : InFrames [] []
  | field {frames : List (Frame α π)} {b : Bracket π} {done : List (FieldExpr α)}
      {name : FieldName} {nameSpan : Span} {outer before : List Lexeme}
      {clauses : List (Clause α)} {sign : Lexeme} (hf : InFrames frames outer)
      (hb : Bracket.Behind g limit ongoing frames.length b before)
      (hdone : Collected limit unplaced written frames.length done clauses)
      (hname : name.WrittenAs sign) :
      InFrames (.field b done name nameSpan :: frames)
        (outer ++ (before ++ (openClauses g clauses ++ [sign, g.separator])))
  | element {frames : List (Frame α π)} {b : Bracket π} {done : List α}
      {outer before : List Lexeme} {phrases : List (Phrase α)} (hf : InFrames frames outer)
      (hb : Bracket.Behind g limit ongoing frames.length b before)
      (hdone : Gathered limit unplaced written frames.length done phrases) :
      InFrames (.element b done :: frames) (outer ++ (before ++ openPhrases phrases))

inductive InControl (depth : Nat) : Control α π → List Lexeme → Prop
  | item : InControl depth .item []
  | part {p : π} {ls : List Lexeme} (h : ongoing (limit - depth) ls p) :
      InControl depth (.part p) ls
  | whole {x : α} {ls : List Lexeme} (h : written (limit - depth) ls (unplaced x)) :
      InControl depth (.whole x) ls
  | firstName {b : Bracket π} {before : List Lexeme}
      (hb : Bracket.Behind g limit ongoing depth b before) :
      InControl depth (.firstName b) (before ++ openClauses (α := α) g [])
  | nextName {b : Bracket π} {done : List (FieldExpr α)} {before : List Lexeme}
      {clauses : List (Clause α)} (hb : Bracket.Behind g limit ongoing depth b before)
      (hdone : Collected limit unplaced written depth done clauses) :
      InControl depth (.nextName b done) (before ++ openClauses g clauses)
  | separator {b : Bracket π} {done : List (FieldExpr α)} {name : FieldName} {nameSpan : Span}
      {before : List Lexeme} {clauses : List (Clause α)} {sign : Lexeme}
      (hb : Bracket.Behind g limit ongoing depth b before)
      (hdone : Collected limit unplaced written depth done clauses)
      (hname : name.WrittenAs sign) :
      InControl depth (.separator b done name nameSpan)
        (before ++ (openClauses g clauses ++ [sign]))

def HasRead (r : Reader α π) (ls : List Lexeme) : Prop :=
  ∃ outer inner, ls = outer ++ inner ∧ InFrames g limit unplaced written ongoing r.frames outer ∧
    InControl g limit unplaced written ongoing r.frames.length r.control inner

/-- What a token leads to, `ls` and the token being read: a state that has read them, or at the
end of input the result for what `ls` derive. -/
def Reached (accept : α → Except SyntaxError β) (ls : List Lexeme) (t : Token) :
    Outcome α β π → Prop
  | .next r => HasRead g limit unplaced written ongoing r (ls ++ [t.lexeme])
  | .done result =>
    t.lexeme = .endOfInput ∧ ∃ x, written limit ls (unplaced x) ∧ accept x = .ok result

end

variable {g : Grammar α π} {limit : Nat} {accept : α → Except SyntaxError β} {unplaced : α → α}
  {written : Nat → List Lexeme → α → Prop} {ongoing : Nat → List Lexeme → π → Prop}
  {bracketed : Nat → List Lexeme → α → Prop}

theorem collected_nil (depth : Nat) : Collected limit unplaced written depth [] [] :=
  ⟨rfl, by simp⟩

theorem Collected.names_eq {depth : Nat} {done : List (FieldExpr α)} {clauses : List (Clause α)}
    (h : Collected limit unplaced written depth done clauses) :
    done.map FieldExpr.name = clauses.map Clause.name := by
  have hnames := congrArg (List.map FieldExpr.name) h.1
  rw [FieldExpr.map_name_unplaced, List.map_map] at hnames
  exact hnames

theorem Collected.concat {depth : Nat} {done : List (FieldExpr α)} {clauses : List (Clause α)}
    (h : Collected limit unplaced written depth done clauses) {name : FieldName}
    {nameSpan : Span} {sign : Lexeme} (hname : name.WrittenAs sign) {x : α} {ls : List Lexeme}
    (hx : written (limit - (depth + 1)) ls (unplaced x)) :
    Collected limit unplaced written depth (done ++ [⟨name, nameSpan, x⟩])
      (clauses ++ [⟨⟨ls, unplaced x⟩, sign, name⟩]) := by
  refine ⟨by simp [h.1, FieldExpr.unplaced, Clause.field], fun c hc => ?_⟩
  rcases List.mem_append.1 hc with hc | hc
  · exact h.2 c hc
  · obtain rfl := List.mem_singleton.1 hc
    exact ⟨hname, hx⟩

theorem Gathered.concat {depth : Nat} {done : List α} {phrases : List (Phrase α)}
    (h : Gathered limit unplaced written depth done phrases) {x : α} {ls : List Lexeme}
    (hx : written (limit - (depth + 1)) ls (unplaced x)) :
    Gathered limit unplaced written depth (done ++ [x]) (phrases ++ [⟨ls, unplaced x⟩]) := by
  refine ⟨by simp [h.1], fun p hp => ?_⟩
  rcases List.mem_append.1 hp with hp | hp
  · exact h.2 p hp
  · obtain rfl := List.mem_singleton.1 hp
    exact hx

section Steps

variable {frames : List (Frame α π)} {b : Bracket π} {outer before : List Lexeme}

theorem hasRead_initial : HasRead g limit unplaced written ongoing (initial : Reader α π) [] :=
  ⟨[], [], rfl, .nil, .item⟩

theorem hasRead_opened {owner : Option π} {t : Token} {r : Reader α π}
    (hopens : t.lexeme.opens = true)
    (hf : InFrames g limit unplaced written ongoing frames outer)
    (hb : ∀ span, frames.length < limit →
      Bracket.Behind g limit ongoing frames.length ⟨span, owner⟩ before)
    (h : opened limit frames owner t = .ok r) :
    HasRead g limit unplaced written ongoing r (outer ++ before ++ [t.lexeme]) := by
  unfold opened at h
  by_cases hlt : frames.length < limit
  · have hbehind := hb t.span hlt
    rw [if_pos hlt] at h
    by_cases hbrace : t.lexeme = .openBrace
    · rw [if_pos hbrace, Except.ok.injEq] at h
      subst h
      refine ⟨outer, before ++ openClauses (α := α) g [], ?_, hf, .firstName hbehind⟩
      simp [openClauses, hbrace]
    · rw [if_neg hbrace, Except.ok.injEq] at h
      subst h
      have hparen : t.lexeme = .openParen := by
        cases hl : t.lexeme <;> simp_all [Lexeme.opens]
      have hnone : Gathered limit unplaced written frames.length [] [] := ⟨rfl, by simp⟩
      refine ⟨outer ++ (before ++ openPhrases (α := α) []), [], ?_, .element hf hbehind hnone,
        .item⟩
      simp [openPhrases, hparen]
  · simp [hlt] at h

theorem hasRead_named {done : List (FieldExpr α)} {clauses : List (Clause α)} {t : Token}
    {r : Reader α π} (hf : InFrames g limit unplaced written ongoing frames outer)
    (hb : Bracket.Behind g limit ongoing frames.length b before)
    (hdone : Collected limit unplaced written frames.length done clauses)
    (h : named frames b done t = .ok r) :
    HasRead g limit unplaced written ongoing r
      (outer ++ (before ++ openClauses g clauses) ++ [t.lexeme]) := by
  obtain ⟨name, hname, rfl⟩ := named_eq_ok_iff.1 h
  exact ⟨outer, _, by simp, hf, .separator hb hdone hname⟩

variable (hd : Derives g unplaced written ongoing bracketed)

include hd

theorem hasRead_closed {x : α} {ls : List Lexeme}
    (hf : InFrames g limit unplaced written ongoing frames outer)
    (hb : Bracket.Behind g limit ongoing frames.length b before)
    (hx : Literal.Bracketed g.separator g.record (written (limit - (frames.length + 1))) ls
      (unplaced x)) :
    HasRead g limit unplaced written ongoing (closed g frames b x) (outer ++ (before ++ ls)) := by
  obtain ⟨hlt, howner⟩ := hb
  have hroom : limit - frames.length = limit - (frames.length + 1) + 1 := by omega
  have hbracketed : bracketed (limit - frames.length) ls (unplaced x) :=
    hroom ▸ hd.enclosed hx
  unfold closed
  cases hb : b.owner with
  | none =>
    simp only [hb] at howner
    subst howner
    exact ⟨outer, ls, by simp, hf, .whole (hd.unbracketed hbracketed)⟩
  | some p =>
    simp only [hb] at howner
    obtain ⟨hp, t, ht⟩ := howner
    exact ⟨outer, before ++ ls, rfl, hf, .part (hd.join hp ht hbracketed)⟩

theorem hasRead_closeBrace {done : List (FieldExpr α)} {clauses : List (Clause α)} {t : Token}
    {r : Reader α π} (hf : InFrames g limit unplaced written ongoing frames outer)
    (hb : Bracket.Behind g limit ongoing frames.length b before)
    (hdone : Collected limit unplaced written frames.length done clauses)
    (h : closeBrace g frames b done t = .ok r) :
    HasRead g limit unplaced written ongoing r
      (outer ++ (before ++ inBraces (commas (clauses.map (Clause.row g.separator))))) := by
  unfold closeBrace at h
  simp only at h
  split at h
  · simp at h
  · next hnames =>
    obtain rfl := Except.ok.inj h
    refine hasRead_closed hd hf hb ?_
    rw [hd.unplaced_record, hdone.1]
    refine .braces clauses (fun c hc => (hdone.2 c hc).1) ?_ fun c hc => (hdone.2 c hc).2
    rw [← hdone.names_eq]
    exact FieldExpr.checkNames_eq_ok_iff_admissible.1 hnames

theorem hasRead_closeParen {done : List α} {phrases : List (Phrase α)} (t : Token)
    (hf : InFrames g limit unplaced written ongoing frames outer)
    (hb : Bracket.Behind g limit ongoing frames.length b before)
    (hdone : Gathered limit unplaced written frames.length done phrases) (hne : phrases ≠ []) :
    HasRead g limit unplaced written ongoing (closeParen g frames b done t)
      (outer ++ (before ++ inParens (commas (phrases.map Phrase.lexemes)))) := by
  have hlength : done.length = phrases.length := by simpa using congrArg List.length hdone.1
  rcases phrases with _ | ⟨p, _ | ⟨q, phrases⟩⟩
  · contradiction
  · obtain ⟨x, rfl⟩ := List.length_eq_one_iff.1 hlength
    obtain ⟨hitem, hp⟩ := hdone
    have hx : unplaced x = p.item := by simpa using hitem
    refine hasRead_closed hd hf hb (hx ▸ ?_)
    simpa [commas] using Literal.Bracketed.parentheses (hp p List.mem_cons_self)
  · rcases done with _ | ⟨x, _ | ⟨y, done⟩⟩
    · simp at hlength
    · simp at hlength
    · refine hasRead_closed hd hf hb ?_
      rw [hd.unplaced_record, FieldExpr.map_unplaced_positions, hdone.1]
      exact .tuple (p :: q :: phrases) (by simp) hdone.2

theorem reached_follow {x : α} {ls : List Lexeme} {t : Token} {o : Outcome α β π}
    (hf : InFrames g limit unplaced written ongoing frames outer)
    (hx : written (limit - frames.length) ls (unplaced x))
    (h : follow g accept frames x t = .ok o) :
    Reached g limit unplaced written ongoing accept (outer ++ ls) t o := by
  cases hf with
  | nil =>
    simp only [follow] at h
    split at h
    · simp at h
    · next result haccept =>
      by_cases hend : t.lexeme = .endOfInput
      · rw [if_pos hend, Except.ok.injEq] at h
        exact h ▸ ⟨hend, x, hx, haccept⟩
      · simp [hend] at h
  | @field frames b done name nameSpan outer before clauses sign hf hb hdone hname =>
    let last : Clause α := ⟨⟨ls, unplaced x⟩, sign, name⟩
    have hmore : Collected limit unplaced written frames.length (done ++ [⟨name, nameSpan, x⟩])
        (clauses ++ [last]) := hdone.concat hname hx
    simp only [follow] at h
    split at h
    · next hcomma =>
      obtain rfl := Except.ok.inj h
      refine ⟨outer, before ++ openClauses g (clauses ++ [last]), ?_, hf, .nextName hb hmore⟩
      simp [openClauses, Clause.row, last, hcomma]
    · next hclose =>
      obtain ⟨r, hc, rfl⟩ := exists_of_map_eq_ok h
      have hread := hasRead_closeBrace hd hf hb hmore hc
      rw [List.map_append, List.map_singleton, commas_concat] at hread
      simpa [Reached, openClauses, inBraces, Clause.row, last, hclose] using hread
    · simp at h
  | @element frames b done outer before phrases hf hb hdone =>
    have hmore := hdone.concat hx
    simp only [follow] at h
    split at h
    · next hcomma =>
      obtain rfl := Except.ok.inj h
      refine ⟨outer ++ (before ++ openPhrases (phrases ++ [⟨ls, unplaced x⟩])), [], ?_,
        .element hf hb hmore, .item⟩
      simp [openPhrases, hcomma]
    · next hclose =>
      obtain rfl := Except.ok.inj h
      have hread := hasRead_closeParen hd t hf hb hmore (by simp)
      rw [List.map_append, List.map_singleton, commas_concat] at hread
      simpa [Reached, openPhrases, inParens, hclose] using hread
    · simp at h

theorem hasRead_begun {t : Token} {r : Reader α π}
    (hf : InFrames g limit unplaced written ongoing frames outer)
    (h : begun g frames t = .ok r) :
    HasRead g limit unplaced written ongoing r (outer ++ [t.lexeme]) := by
  unfold begun at h
  split at h
  · simp at h
  · next x hx =>
    obtain rfl := Except.ok.inj h
    exact ⟨outer, _, rfl, hf, .whole (hd.start_item hx)⟩
  · next p hp =>
    obtain rfl := Except.ok.inj h
    exact ⟨outer, _, rfl, hf, .part (hd.start_part hp)⟩

/-- One token adds its lexeme to those that have been read. -/
theorem reached_step {r : Reader α π} {ls : List Lexeme} {t : Token} {o : Outcome α β π}
    (hr : HasRead g limit unplaced written ongoing r ls) (h : r.step g limit accept t = .ok o) :
    Reached g limit unplaced written ongoing accept ls t o := by
  have hmap {e : Except SyntaxError (Reader α π)}
      (he : ∀ r', e = .ok r' → HasRead g limit unplaced written ongoing r' (ls ++ [t.lexeme]))
      (h : e.map .next = .ok o) : Reached g limit unplaced written ongoing accept ls t o := by
    obtain ⟨r', hr', rfl⟩ := exists_of_map_eq_ok h
    exact he r' hr'
  obtain ⟨frames, control⟩ := r
  obtain ⟨outer, inner, rfl, hf, hc⟩ := hr
  cases hc with
  | item =>
    simp only [step] at h
    split at h
    · next hopens =>
      refine hmap (fun r' hr' => ?_) h
      have hbehind : ∀ span, frames.length < limit →
          Bracket.Behind g limit ongoing frames.length ⟨span, none⟩ [] := fun _ hlt => ⟨hlt, rfl⟩
      simpa using hasRead_opened hopens hf hbehind hr'
    · refine hmap (fun r' hr' => ?_) h
      simpa using hasRead_begun hd hf hr'
  | part hp =>
    simp only [step] at h
    split at h
    · simp at h
    · next x hx =>
      obtain rfl := Except.ok.inj h
      exact ⟨outer, _, by simp, hf, .whole (hd.extend_whole hp hx)⟩
    · next q hq =>
      obtain rfl := Except.ok.inj h
      exact ⟨outer, _, by simp, hf, .part (hd.extend_part hp hq)⟩
    · next hbracket =>
      have hopens := hd.bracket_opens hbracket
      refine hmap (fun r' hr' => hasRead_opened hopens hf (fun span hlt => ?_) hr') h
      exact ⟨hlt, hp, t, hbracket⟩
    · next x hx => exact reached_follow hd hf (hd.extend_ended hp hx) h
  | whole hx => exact reached_follow hd hf hx h
  | @firstName b before hb =>
    simp only [step] at h
    split at h
    · next hclose =>
      refine hmap (fun r' hr' => ?_) h
      have hread := hasRead_closeBrace hd hf hb (collected_nil frames.length) hr'
      simpa [openClauses, inBraces, hclose] using hread
    · exact hmap (fun r' => hasRead_named hf hb (collected_nil frames.length)) h
  | nextName hb hdone => exact hmap (fun r' => hasRead_named hf hb hdone) h
  | @separator b done name nameSpan before clauses sign hb hdone hname =>
    simp only [step] at h
    split at h
    · next hseparator =>
      obtain rfl := Except.ok.inj h
      refine ⟨_, [], ?_, .field hf hb hdone hname, .item⟩
      simp [hseparator]
    · simp at h

/-- A run that succeeds has read an item up to the first end of input. -/
theorem written_of_run {r : Reader α π} {ls : List Lexeme} {tokens : List Token} {result : β}
    (hr : HasRead g limit unplaced written ongoing r ls)
    (h : r.run g limit accept tokens = .ok result) :
    ∃ more rest x, tokens.map Token.lexeme = more ++ .endOfInput :: rest ∧
      written limit (ls ++ more) (unplaced x) ∧ accept x = .ok result := by
  induction tokens generalizing r ls with
  | nil => simp [run] at h
  | cons t tokens ih =>
    rw [run] at h
    cases hs : r.step g limit accept t with
    | error e => simp [hs] at h
    | ok o =>
      have ho := reached_step hd hr hs
      cases o with
      | next r' =>
        have hrun : r'.run g limit accept tokens = .ok result := by simpa [hs] using h
        obtain ⟨more, rest, x, htokens, hx, haccept⟩ := ih ho hrun
        exact ⟨t.lexeme :: more, rest, x, by simp [htokens], by simpa using hx, haccept⟩
      | done result' =>
        obtain rfl : result' = result := by simpa [hs] using h
        obtain ⟨hend, x, hx, haccept⟩ := ho
        exact ⟨[], tokens.map Token.lexeme, x, by simp [hend], by simpa using hx, haccept⟩

theorem written_of_read [Alphabet] {text : String} {result : β}
    (h : g.read limit accept text = .ok result) :
    ∃ ls x, Token.Lexes text ls ∧ written limit ls (unplaced x) ∧ accept x = .ok result := by
  unfold Grammar.read at h
  cases hs : Token.scan text with
  | error e => simp [hs] at h
  | ok tokens =>
    rw [hs] at h
    obtain ⟨ls, rest, x, htokens, hx, haccept⟩ := written_of_run hd hasRead_initial h
    obtain ⟨ms, hms, hend⟩ := Token.ends_of_scanFrom hs
    obtain ⟨rfl, -, -⟩ :=
      (List.append_cons_inj_of_notMem hend List.not_mem_nil).1 (hms.symm.trans htokens)
    exact ⟨ms, x, ⟨tokens, hs, hms⟩, hx, haccept⟩

end Steps

end RecordLens.Reader
