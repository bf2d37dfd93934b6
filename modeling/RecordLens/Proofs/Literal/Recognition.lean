import RecordLens.Proofs.Literal.Completeness
import RecordLens.Proofs.Literal.Soundness
import RecordLens.Proofs.Ty.Reading
import RecordLens.Proofs.Value.Reading

/-! The readers accept what is written, and nothing else: a text is read as a type or value if and
only if its lexemes derive it with brackets nested no deeper than the limit. -/

namespace RecordLens

open Literal (Phrase)

namespace Reader

variable {α β π : Type} {g : Grammar α π} {limit : Nat} {accept : α → Except SyntaxError β}

/-- The same outcome, with the item that is read put to `accept`. -/
inductive Accepted (accept : α → Except SyntaxError β) : Outcome α α π → Outcome α β π → Prop
  | next (r : Reader α π) : Accepted accept (.next r) (.next r)
  | done {x : α} {result : β} (h : accept x = .ok result) :
      Accepted accept (.done x) (.done result)

theorem map_next_eq_ok_iff {e : Except SyntaxError (Reader α π)} {o : Outcome α β π} :
    e.map .next = .ok o ↔ ∃ o', e.map .next = .ok o' ∧ Accepted accept o' o := by
  cases e with
  | error e => simp [Except.map]
  | ok r =>
    constructor
    · intro h
      obtain rfl := Except.ok.inj h
      exact ⟨.next r, rfl, .next r⟩
    · rintro ⟨o', h, haccepted⟩
      obtain rfl := Except.ok.inj h
      cases haccepted
      rfl

theorem follow_eq_ok_iff {frames : List (Frame α π)} {x : α} {t : Token} {o : Outcome α β π} :
    follow g accept frames x t = .ok o ↔
      ∃ o', follow g .ok frames x t = .ok o' ∧ Accepted accept o' o := by
  match frames with
  | [] =>
    simp only [follow]
    constructor
    · intro h
      split at h
      · simp at h
      · next result haccept =>
        split at h
        · next hend =>
          obtain rfl := Except.ok.inj h
          exact ⟨.done x, if_pos hend, .done haccept⟩
        · simp at h
    · rintro ⟨o', h, haccepted⟩
      split at h
      · next hend =>
        obtain rfl := Except.ok.inj h
        cases haccepted with
        | done haccept => simp [haccept, hend]
      · simp at h
  | .field b done name nameSpan :: frames =>
    simp only [follow]
    split
    · exact map_next_eq_ok_iff (e := .ok _)
    · exact map_next_eq_ok_iff
    · simp
  | .element b done :: frames =>
    simp only [follow]
    split
    · exact map_next_eq_ok_iff (e := .ok _)
    · exact map_next_eq_ok_iff (e := .ok _)
    · simp

theorem step_eq_ok_iff {r : Reader α π} {t : Token} {o : Outcome α β π} :
    r.step g limit accept t = .ok o ↔
      ∃ o', r.step g limit .ok t = .ok o' ∧ Accepted accept o' o := by
  obtain ⟨frames, control⟩ := r
  cases control with
  | item =>
    simp only [step]
    split <;> exact map_next_eq_ok_iff
  | part p =>
    simp only [step]
    split
    · simp
    · exact map_next_eq_ok_iff (e := .ok _)
    · exact map_next_eq_ok_iff (e := .ok _)
    · exact map_next_eq_ok_iff
    · exact follow_eq_ok_iff
  | whole x => exact follow_eq_ok_iff
  | firstName b =>
    simp only [step]
    split <;> exact map_next_eq_ok_iff
  | nextName b done => exact map_next_eq_ok_iff
  | separator b done name nameSpan =>
    simp only [step]
    split
    · exact map_next_eq_ok_iff (e := .ok _)
    · simp

theorem run_eq_ok_iff {r : Reader α π} {tokens : List Token} {result : β} :
    r.run g limit accept tokens = .ok result ↔
      ∃ x, r.run g limit .ok tokens = .ok x ∧ accept x = .ok result := by
  induction tokens generalizing r with
  | nil => simp [run]
  | cons t tokens ih =>
    constructor
    · intro h
      rw [run] at h
      cases hs : r.step g limit accept t with
      | error e => simp [hs] at h
      | ok o =>
        obtain ⟨o', hs', haccepted⟩ := step_eq_ok_iff.1 hs
        simp only [run, hs']
        cases haccepted with
        | next r' => exact ih.1 (by simpa [hs] using h)
        | @done x result' haccept =>
          obtain rfl : result' = result := by simpa [hs] using h
          exact ⟨x, rfl, haccept⟩
    · rintro ⟨x, h, haccept⟩
      rw [run] at h
      cases hs : r.step g limit .ok t with
      | error e => simp [hs] at h
      | ok o =>
        rw [run]
        cases o with
        | next r' =>
          rw [step_eq_ok_iff.2 ⟨.next r', hs, .next r'⟩]
          exact ih.2 ⟨x, by simpa [hs] using h, haccept⟩
        | done y =>
          obtain rfl : y = x := by simpa [hs] using h
          rw [step_eq_ok_iff.2 ⟨.done y, hs, .done haccept⟩]

variable [Alphabet]

theorem read_eq_ok_iff {text : String} {result : β} :
    g.read limit accept text = .ok result ↔
      ∃ x, g.read limit .ok text = .ok x ∧ accept x = .ok result := by
  unfold Grammar.read
  cases Token.scan text with
  | error e => simp
  | ok tokens => exact run_eq_ok_iff

/-- A text is read as an item, up to places, if and only if its lexemes derive the item. -/
theorem read_eq_ok_iff_written {unplaced : α → α} {written bracketed : Nat → List Lexeme → α → Prop}
    {ongoing : Nat → List Lexeme → π → Prop} (hd : Derives g unplaced written ongoing bracketed)
    (hr : ∀ ls x, written limit ls x → Recognizes g limit .ok unplaced limit ls x)
    {text : String} {x : α} :
    (g.read limit .ok text).map unplaced = .ok x ↔
      ∃ ls, Token.Lexes text ls ∧ written limit ls x := by
  constructor
  · intro h
    obtain ⟨y, hread, rfl⟩ := exists_of_map_eq_ok h
    obtain ⟨ls, z, htext, hz, hy⟩ := written_of_read hd hread
    obtain rfl := Except.ok.inj hy
    exact ⟨ls, htext, hz⟩
  · rintro ⟨ls, htext, hx⟩
    exact (hr ls x hx).read (Nat.le_refl limit) htext

theorem laid_of_read {unplaced : α → α} {written bracketed : Nat → List Lexeme → α → Prop}
    {ongoing : Nat → List Lexeme → π → Prop} {laid : List Token → α → Prop}
    (hd : Derives g unplaced written ongoing bracketed)
    (hl : ∀ ls x, written limit ls x → Lays g limit .ok unplaced laid limit ls x)
    {text : String} {x : α} (h : g.read limit .ok text = .ok x) :
    ∃ words stop, Token.scan text = .ok (words ++ [stop]) ∧ laid words x := by
  obtain ⟨ls, y, ⟨tokens, hscan, htokens⟩, hy, -⟩ := written_of_read hd h
  obtain ⟨words, ends, rfl, hwords, hends⟩ := List.map_eq_append_iff.1 htokens
  obtain ⟨stop, rfl, hstop⟩ := List.map_eq_singleton_iff.1 hends
  obtain ⟨item, hrun, -, hlaid⟩ := (hl ls _ hy).run (Nat.le_refl limit) hwords hstop
  rw [Grammar.read, hscan] at h
  obtain rfl := Except.ok.inj (hrun.symm.trans h)
  exact ⟨words, stop, hscan, hlaid⟩

end Reader

namespace TypeExpr

def WrittenSoFar (n : Nat) (ls : List Lexeme) (a : Application) : Prop :=
  ∃ args : List (Phrase TypeExpr), ls = .identifier a.name :: args.flatMap Phrase.lexemes ∧
    a.args.map unplaced = args.map Phrase.item ∧
    ∀ p ∈ args, Argument (Bracketed n) p.lexemes p.item

theorem WrittenSoFar.push {n : Nat} {ls more : List Lexeme} {a : Application} {arg : TypeExpr}
    (h : WrittenSoFar n ls a) (harg : Argument (Bracketed n) more arg.unplaced) :
    WrittenSoFar n (ls ++ more) (a.push arg) := by
  obtain ⟨args, rfl, hitems, hargs⟩ := h
  refine ⟨args ++ [⟨more, arg.unplaced⟩], by simp [Application.push],
    by simp [Application.push, hitems], fun p hp => ?_⟩
  rcases List.mem_append.1 hp with hp | hp
  · exact hargs p hp
  · obtain rfl := List.mem_singleton.1 hp
    exact harg

theorem WrittenSoFar.written {n : Nat} {ls : List Lexeme} {a : Application}
    (h : WrittenSoFar n ls a) : Written n ls a.typeExpr.unplaced := by
  obtain ⟨args, rfl, hitems, hargs⟩ := h
  rw [Application.typeExpr, unplaced_named, hitems]
  exact .named a.name args hargs

theorem derives :
    Reader.Derives typeGrammar unplaced Written WrittenSoFar Bracketed where
  start_item {n t x} h := by
    simp only [typeGrammar] at h
    split at h <;> simp at h
  start_part {n t p} h := by
    simp only [typeGrammar] at h
    split at h
    · next name hname =>
      obtain rfl := Sum.inr.inj (Except.ok.inj h)
      exact ⟨[], by simp [hname], rfl, by simp⟩
    · simp at h
  extend_whole {n ls p t x} hp h := by
    simp only [typeGrammar] at h
    split at h
    · simp at h
    · split at h <;> simp at h
  extend_part {n ls p t q} hp h := by
    simp only [typeGrammar] at h
    split at h
    · next name hname =>
      obtain rfl := Extension.part.inj (Except.ok.inj h)
      rw [hname]
      exact hp.push (by simpa using .name name)
    · split at h <;> simp at h
  extend_ended {n ls p t x} hp h := by
    simp only [typeGrammar] at h
    split at h
    · simp at h
    · split at h
      · simp at h
      · obtain rfl := Extension.ended.inj (Except.ok.inj h)
        exact hp.written
  bracket_opens {p t} h := by
    simp only [typeGrammar] at h
    split at h
    · simp at h
    · split at h
      · assumption
      · simp at h
  join hp _ hx := hp.push (.bracketed hx)
  unbracketed hx := .bracketed hx
  enclosed h := h
  unplaced_record := unplaced_record

open Reader

variable {limit : Nat} {accept : TypeExpr → Except SyntaxError TypeExpr} {n : Nat}

/-- Names with their arguments and brackets are laid out as `laid` says, within any number of
brackets. -/
structure LaidOut (laid : Nat → List Token → TypeExpr → Prop) : Prop where
  named {n : Nat} {first : Token} {rows : List (List Token)} {a : Application}
    (hname : first.lexeme = .identifier a.name) (hspan : a.span = first.span)
    (hargs : List.Forall₂ (laid n) rows a.args)
    (h : Written n ((first :: rows.flatten).map Token.lexeme) a.typeExpr.unplaced) :
    laid n (first :: rows.flatten) a.typeExpr
  bracketed {n : Nat} {tokens : List Token} {e : TypeExpr}
    (h : Bracketed (n + 1) (tokens.map Token.lexeme) e.unplaced)
    (hencased : Encased typeGrammar (laid n) tokens e) : laid (n + 1) tokens e

section

variable {laid : Nat → List Token → TypeExpr → Prop} (hl : LaidOut laid)

include hl

theorem Argument.advances {ls : List Lexeme} {e : TypeExpr} (h : Argument (Bracketed n) ls e)
    (hbracketed : ∀ ls e, Bracketed n ls e →
      LaysBracketed typeGrammar limit accept unplaced (laid n) n ls e)
    {frames : List (Frame TypeExpr Application)} (a : Application)
    (hroom : frames.length + n ≤ limit) :
    Advances typeGrammar limit accept ⟨frames, .part a⟩ ls fun tokens r =>
      ∃ arg : TypeExpr, r = ⟨frames, .part (a.push arg)⟩ ∧ arg.unplaced = e ∧
        laid n tokens arg := by
  cases h with
  | name s =>
    refine .cons fun span => ⟨_, rfl, .nil ⟨.named s [] span, rfl, by simp, ?_⟩⟩
    let t : Token := ⟨.identifier s, span⟩
    let bare : Application := ⟨s, span, []⟩
    have hname : t.lexeme = .identifier bare.name := rfl
    have hwritten : Written n [.identifier s] (.named s [] default) := .named s [] nofun
    refine hl.named hname rfl .nil ?_
    simpa [Application.typeExpr, bare] using hwritten
  | bracketed h =>
    refine (hbracketed _ _ h _ frames (some a) (Ty.opens_part frames a) hroom).imp ?_
    rintro tokens r - ⟨b, arg, hb, rfl, harg⟩
    exact ⟨arg, by simp [closed, hb, typeGrammar], harg⟩

theorem advances_arguments {args : List (Phrase TypeExpr)}
    (h : ∀ p ∈ args, Argument (Bracketed n) p.lexemes p.item)
    (hbracketed : ∀ ls e, Bracketed n ls e →
      LaysBracketed typeGrammar limit accept unplaced (laid n) n ls e)
    {frames : List (Frame TypeExpr Application)} (a : Application)
    (hroom : frames.length + n ≤ limit) :
    Advances typeGrammar limit accept ⟨frames, .part a⟩ (args.flatMap Phrase.lexemes)
      fun tokens r =>
      ∃ rows more, r = ⟨frames, .part { a with args := a.args ++ more }⟩ ∧
        more.map unplaced = args.map Phrase.item ∧ tokens = rows.flatten ∧
        List.Forall₂ (laid n) rows more := by
  induction args generalizing a with
  | nil => exact .nil ⟨[], [], by simp, rfl, rfl, .nil⟩
  | cons p ps ih =>
    rw [List.flatMap_cons]
    refine ((h p List.mem_cons_self).advances hl hbracketed a hroom).append ?_
    rintro row r ⟨arg, rfl, harg, hlaid⟩
    refine (ih (fun q hq => h q (List.mem_cons_of_mem p hq)) (a.push arg)).imp ?_
    rintro back r - ⟨rows, more, rfl, hmore, rfl, hrows⟩
    exact ⟨row :: rows, arg :: more, by simp [Application.push], by simp [harg, hmore], by simp,
      .cons hlaid hrows⟩

theorem lays_of_written
    (hbracketed : ∀ ls e, Bracketed n ls e →
      LaysBracketed typeGrammar limit accept unplaced (laid n) n ls e)
    {ls : List Lexeme} {e : TypeExpr} (h : Written n ls e) :
    Lays typeGrammar limit accept unplaced (laid n) n ls e := by
  have hwritten := h
  cases h with
  | named s args h =>
    intro frames hroom tokens htokens
    have hadvances : Advances typeGrammar limit accept ⟨frames, .item⟩
        (.identifier s :: args.flatMap Phrase.lexemes) fun tokens r =>
          ∃ span rows more, tokens = ⟨.identifier s, span⟩ :: rows.flatten ∧
            r = ⟨frames, .part ⟨s, span, more⟩⟩ ∧ more.map unplaced = args.map Phrase.item ∧
            List.Forall₂ (laid n) rows more := by
      refine .cons fun span => ⟨⟨frames, .part ⟨s, span, []⟩⟩, rfl, ?_⟩
      refine (advances_arguments hl h hbracketed ⟨s, span, []⟩ hroom).imp ?_
      rintro back r - ⟨rows, more, rfl, hmore, rfl, hrows⟩
      exact ⟨span, rows, more, rfl, rfl, hmore, hrows⟩
    obtain ⟨r, hrun, span, rows, more, rfl, rfl, hmore, hrows⟩ := hadvances tokens htokens
    let a : Application := ⟨s, span, more⟩
    have hitem : a.typeExpr.unplaced = .named s (args.map Phrase.item) default := by
      simp [a, Application.typeExpr, hmore]
    refine ⟨_, hrun, a.typeExpr, Ty.ready_part frames a, hitem, ?_⟩
    exact hl.named (a := a) rfl rfl hrows (by rw [htokens, hitem]; exact hwritten)
  | bracketed h => exact (hbracketed _ _ h).lays

theorem laysBracketed (n : Nat) : ∀ ls e, Bracketed n ls e →
    LaysBracketed typeGrammar limit accept unplaced (laid n) n ls e := by
  induction n with
  | zero => exact fun _ _ h => h.elim
  | succ n ih =>
    intro ls e h
    have hencased : LaysBracketed typeGrammar limit accept unplaced
        (Encased typeGrammar (laid n)) (n + 1) ls e :=
      laysBracketed_of_bracketed unplaced_record (fun _ _ => lays_of_written hl ih) h
    refine hencased.imp fun tokens item htokens hitem hencased => hl.bracketed ?_ hencased
    rwa [htokens, hitem]

end

theorem recognizes_of_written
    (hbracketed : ∀ ls e, Bracketed n ls e →
      RecognizesBracketed typeGrammar limit accept unplaced n ls e)
    {ls : List Lexeme} {e : TypeExpr} (h : Written n ls e) :
    Recognizes typeGrammar limit accept unplaced n ls e := by
  have hl : LaidOut fun _ _ _ => True := ⟨fun _ _ _ _ => trivial, fun _ _ => trivial⟩
  rw [recognizes_iff_lays]
  exact lays_of_written hl (fun ls e h => recognizesBracketed_iff_lays.1 (hbracketed ls e h)) h

theorem recognizesBracketed (n : Nat) : ∀ ls e, Bracketed n ls e →
    RecognizesBracketed typeGrammar limit accept unplaced n ls e := by
  have hl : LaidOut fun _ _ _ => True := ⟨fun _ _ _ _ => trivial, fun _ _ => trivial⟩
  exact fun ls e h => recognizesBracketed_iff_lays.2 (laysBracketed hl n ls e h)

/-- The lexemes are one type at most, however deep its brackets may nest. -/
theorem Written.unique {m : Nat} {ls : List Lexeme} {d e : TypeExpr} (hd : Written m ls d)
    (he : Written n ls e) : d = e :=
  (recognizes_of_written (recognizesBracketed m) hd).unique (Nat.le_max_left m n)
    (recognizes_of_written (recognizesBracketed n) he) (Nat.le_max_right m n)

end TypeExpr

namespace Expr

theorem ofDigits_eq_ok_iff {negative : Bool} {digits : String} {span : Span} {e : Expr} :
    ofDigits negative digits span = .ok e ↔ ∃ i : Int64, e = .scalar (.int i) span ∧ i.toInt =
      if negative then -(digitsValue digits.toList : Int) else digitsValue digits.toList := by
  unfold ofDigits
  simp only
  generalize (if negative = true then -(digitsValue digits.toList : Int)
    else digitsValue digits.toList) = k
  constructor
  · intro h
    split at h
    · next hk => exact ⟨Int64.ofInt k, (Except.ok.inj h).symm, Int64.toInt_ofInt_of_le hk.1 hk.2⟩
    · simp at h
  · rintro ⟨i, rfl, rfl⟩
    rw [if_pos ⟨i.le_toInt, i.toInt_lt⟩, Int64.ofInt_toInt]

theorem start_eq_ok {t : Token} {found : Expr ⊕ Span} (h : valueGrammar.start t = .ok found) :
    (∃ s, Scalar.Written [t.lexeme] s ∧ found = .inl (.scalar s t.span)) ∨
      t.lexeme = .minus ∧ found = .inr t.span := by
  have hscalar {s : Scalar} (hs : s.Written [t.lexeme])
      (h : .inl (.scalar s t.span) = found) :
      (∃ s, Scalar.Written [t.lexeme] s ∧ found = .inl (.scalar s t.span)) ∨
        t.lexeme = .minus ∧ found = .inr t.span :=
    .inl ⟨s, hs, h.symm⟩
  unfold valueGrammar at h
  dsimp only at h
  split at h
  · next digits hdigits =>
    cases hi : ofDigits false digits t.span with
    | error e =>
      rw [hi] at h
      exact absurd h nofun
    | ok e =>
      obtain ⟨i, rfl, hvalue⟩ := ofDigits_eq_ok_iff.1 hi
      have hs : Scalar.Written [t.lexeme] (.int i) := hdigits ▸ .integer (by simpa using hvalue)
      rw [hi] at h
      exact hscalar hs (Except.ok.inj h)
  · next x hx => exact hscalar (hx ▸ .float x) (Except.ok.inj h)
  · next s hs => exact hscalar (hs ▸ .string s) (Except.ok.inj h)
  · next c hc => exact hscalar (hc ▸ .character c) (Except.ok.inj h)
  · next htrue => exact hscalar (htrue ▸ .true) (Except.ok.inj h)
  · next hfalse => exact hscalar (hfalse ▸ .false) (Except.ok.inj h)
  · next hminus => exact .inr ⟨hminus, (Except.ok.inj h).symm⟩
  all_goals simp at h

theorem extend_eq_ok {minus : Span} {t : Token} {found : Extension Expr Span}
    (h : valueGrammar.extend minus t = .ok found) :
    ∃ s, Scalar.Written [.minus, t.lexeme] s ∧
      found = .whole (.scalar s (minus.through t.span)) := by
  unfold valueGrammar at h
  dsimp only at h
  split at h
  · next digits hdigits =>
    cases hi : ofDigits true digits (minus.through t.span) with
    | error e =>
      rw [hi] at h
      exact absurd h nofun
    | ok e =>
      obtain ⟨i, rfl, hvalue⟩ := ofDigits_eq_ok_iff.1 hi
      refine ⟨.int i, hdigits ▸ .negativeInteger (by simpa using hvalue), ?_⟩
      rw [hi] at h
      exact (Except.ok.inj h).symm
  · next x hx => exact ⟨_, hx ▸ .negativeFloat x, (Except.ok.inj h).symm⟩
  · simp at h

theorem derives :
    Reader.Derives valueGrammar unplaced Written (fun _ ls _ => ls = [.minus]) Bracketed where
  start_item {n t x} h := by
    rcases start_eq_ok h with ⟨s, hs, he⟩ | ⟨-, he⟩
    · obtain rfl := Sum.inl.inj he
      rw [unplaced_scalar]
      exact .scalar hs
    · exact absurd he nofun
  start_part {n t p} h := by
    rcases start_eq_ok h with ⟨s, -, he⟩ | ⟨hminus, -⟩
    · exact absurd he nofun
    · rw [hminus]
  extend_whole {n ls p t x} hp h := by
    obtain ⟨s, hs, he⟩ := extend_eq_ok h
    obtain rfl := Extension.whole.inj he
    rw [hp, unplaced_scalar]
    exact .scalar hs
  extend_part {n ls p t q} hp h := by
    obtain ⟨s, -, he⟩ := extend_eq_ok h
    exact absurd he nofun
  extend_ended {n ls p t x} hp h := by
    obtain ⟨s, -, he⟩ := extend_eq_ok h
    exact absurd he nofun
  bracket_opens {p t} h := by
    obtain ⟨s, -, he⟩ := extend_eq_ok h
    exact absurd he nofun
  join {n ls more p t x} _ h _ := by
    obtain ⟨s, -, he⟩ := extend_eq_ok h
    exact absurd he nofun
  unbracketed hx := .bracketed hx
  enclosed h := h
  unplaced_record := unplaced_record

open Reader

variable {limit : Nat} {accept : Expr → Except SyntaxError Expr} {n : Nat}

structure LaidOut (laid : Nat → List Token → Expr → Prop) : Prop where
  scalar {n : Nat} {tokens : List Token} {s : Scalar} {span : Span}
    (h : s.Written (tokens.map Token.lexeme)) (hspan : Token.Bound tokens span) :
    laid n tokens (.scalar s span)
  bracketed {n : Nat} {tokens : List Token} {e : Expr}
    (h : Bracketed (n + 1) (tokens.map Token.lexeme) e.unplaced)
    (hencased : Encased valueGrammar (laid n) tokens e) : laid (n + 1) tokens e

theorem advances_single {l : Lexeme} {s : Scalar} (hopens : l.opens = false)
    (hstart : ∀ span, valueGrammar.start ⟨l, span⟩ = .ok (.inl (.scalar s span)))
    (frames : List (Frame Expr Span)) :
    Advances valueGrammar limit accept ⟨frames, .item⟩ [l] fun tokens r =>
      ∃ span, r = ⟨frames, .whole (.scalar s span)⟩ ∧ Token.Bound tokens span := by
  refine .cons fun span => ⟨_, ?_, .nil ⟨span, rfl, Token.bound_single _⟩⟩
  simp [step, begun, hopens, hstart, Except.map]

theorem advances_negative {l : Lexeme} {s : Scalar}
    (hextend : ∀ minus span,
      valueGrammar.extend minus ⟨l, span⟩ = .ok (.whole (.scalar s (minus.through span))))
    (frames : List (Frame Expr Span)) :
    Advances valueGrammar limit accept ⟨frames, .item⟩ [.minus, l] fun tokens r =>
      ∃ span, r = ⟨frames, .whole (.scalar s span)⟩ ∧ Token.Bound tokens span := by
  refine .cons fun minus => ⟨⟨frames, .part minus⟩, rfl, .cons fun span => ?_⟩
  refine ⟨⟨frames, .whole (.scalar s (minus.through span))⟩, ?_, .nil ⟨_, rfl, ?_⟩⟩
  · simp [step, hextend]
  · exact Token.bound_concat ⟨.minus, minus⟩ [] ⟨l, span⟩

theorem advances_scalar {ls : List Lexeme} {s : Scalar} (h : s.Written ls)
    (frames : List (Frame Expr Span)) :
    Advances valueGrammar limit accept ⟨frames, .item⟩ ls fun tokens r =>
      ∃ span, r = ⟨frames, .whole (.scalar s span)⟩ ∧ Token.Bound tokens span := by
  cases h with
  | @integer digits i h =>
    refine advances_single rfl (fun span => ?_) frames
    rw [Scalar.start_integer, ofDigits_eq_ok_iff.2 ⟨i, rfl, by simpa using h⟩]
    rfl
  | @negativeInteger digits i h =>
    refine advances_negative (fun minus span => ?_) frames
    rw [Scalar.extend_integer, ofDigits_eq_ok_iff.2 ⟨i, rfl, by simpa using h⟩]
    rfl
  | float x => exact advances_single rfl (fun _ => rfl) frames
  | negativeFloat x => exact advances_negative (fun _ _ => rfl) frames
  | string s => exact advances_single rfl (fun _ => rfl) frames
  | character c => exact advances_single rfl (fun _ => rfl) frames
  | true => exact advances_single rfl (fun _ => rfl) frames
  | false => exact advances_single rfl (fun _ => rfl) frames

section

variable {laid : Nat → List Token → Expr → Prop} (hl : LaidOut laid)

include hl

theorem lays_of_written
    (hbracketed : ∀ ls e, Bracketed n ls e →
      LaysBracketed valueGrammar limit accept unplaced (laid n) n ls e)
    {ls : List Lexeme} {e : Expr} (h : Written n ls e) :
    Lays valueGrammar limit accept unplaced (laid n) n ls e := by
  cases h with
  | @scalar s h =>
    intro frames _
    refine (advances_scalar h frames).imp ?_
    rintro tokens r rfl ⟨span, rfl, hspan⟩
    exact ⟨.scalar s span, ready_whole frames _, unplaced_scalar s span, hl.scalar h hspan⟩
  | bracketed h => exact (hbracketed _ _ h).lays

theorem laysBracketed (n : Nat) : ∀ ls e, Bracketed n ls e →
    LaysBracketed valueGrammar limit accept unplaced (laid n) n ls e := by
  induction n with
  | zero => exact fun _ _ h => h.elim
  | succ n ih =>
    intro ls e h
    have hencased : LaysBracketed valueGrammar limit accept unplaced
        (Encased valueGrammar (laid n)) (n + 1) ls e :=
      laysBracketed_of_bracketed unplaced_record (fun _ _ => lays_of_written hl ih) h
    refine hencased.imp fun tokens item htokens hitem hencased => hl.bracketed ?_ hencased
    rwa [htokens, hitem]

end

theorem recognizes_of_written
    (hbracketed : ∀ ls e, Bracketed n ls e →
      RecognizesBracketed valueGrammar limit accept unplaced n ls e)
    {ls : List Lexeme} {e : Expr} (h : Written n ls e) :
    Recognizes valueGrammar limit accept unplaced n ls e := by
  have hl : LaidOut fun _ _ _ => True := ⟨fun _ _ => trivial, fun _ _ => trivial⟩
  rw [recognizes_iff_lays]
  exact lays_of_written hl (fun ls e h => recognizesBracketed_iff_lays.1 (hbracketed ls e h)) h

theorem recognizesBracketed (n : Nat) : ∀ ls e, Bracketed n ls e →
    RecognizesBracketed valueGrammar limit accept unplaced n ls e := by
  have hl : LaidOut fun _ _ _ => True := ⟨fun _ _ => trivial, fun _ _ => trivial⟩
  exact fun ls e h => recognizesBracketed_iff_lays.2 (laysBracketed hl n ls e h)

theorem Written.unique {m : Nat} {ls : List Lexeme} {d e : Expr} (hd : Written m ls d)
    (he : Written n ls e) : d = e :=
  (recognizes_of_written (recognizesBracketed m) hd).unique (Nat.le_max_left m n)
    (recognizes_of_written (recognizesBracketed n) he) (Nat.le_max_right m n)

end Expr

variable [Alphabet]

theorem TypeExpr.readRecord_eq_ok_iff {limit : Nat} {text : String} {r : RecordExpr TypeExpr} :
    readRecord limit text = .ok r ↔ read limit text = .ok (.record r) := by
  have hrecord (e : TypeExpr) : e.asRecord = .ok r ↔ e = .record r := by
    cases e <;> simp [asRecord]
  rw [readRecord, Reader.read_eq_ok_iff]
  simp [hrecord, read]

theorem Expr.readRecord_eq_ok_iff {limit : Nat} {text : String} {r : RecordExpr Expr} :
    readRecord limit text = .ok r ↔ read limit text = .ok (.record r) := by
  have hrecord (e : Expr) : e.asRecord = .ok r ↔ e = .record r := by cases e <;> simp [asRecord]
  rw [readRecord, Reader.read_eq_ok_iff]
  simp [hrecord, read]

/-- A text is read as a type, up to places, if and only if its lexemes derive it. -/
theorem TypeExpr.map_unplaced_read_iff {limit : Nat} {text : String} {e : TypeExpr} :
    (TypeExpr.read limit text).map unplaced = .ok e ↔
      ∃ ls, Token.Lexes text ls ∧ TypeExpr.Written limit ls e :=
  Reader.read_eq_ok_iff_written derives fun _ _ =>
    recognizes_of_written (recognizesBracketed limit)

theorem Expr.map_unplaced_read_iff {limit : Nat} {text : String} {e : Expr} :
    (Expr.read limit text).map unplaced = .ok e ↔
      ∃ ls, Token.Lexes text ls ∧ Expr.Written limit ls e :=
  Reader.read_eq_ok_iff_written derives fun _ _ =>
    recognizes_of_written (recognizesBracketed limit)

/-- A text is read as a type or a value, up to places, if and only if its lexemes derive it with
brackets nested no deeper than the limit; they derive no other. The readers of records accept the
texts that are read as one. -/
theorem Literal.accepts_exactly_written (limit : Nat) (text : String) :
    ((∀ e, (TypeExpr.read limit text).map TypeExpr.unplaced = .ok e ↔
        ∃ ls, Token.Lexes text ls ∧ TypeExpr.Written limit ls e) ∧
      (∀ m n ls d e, TypeExpr.Written m ls d → TypeExpr.Written n ls e → d = e) ∧
      ∀ r, TypeExpr.readRecord limit text = .ok r ↔ TypeExpr.read limit text = .ok (.record r)) ∧
    ((∀ e, (Expr.read limit text).map Expr.unplaced = .ok e ↔
        ∃ ls, Token.Lexes text ls ∧ Expr.Written limit ls e) ∧
      (∀ m n ls d e, Expr.Written m ls d → Expr.Written n ls e → d = e) ∧
      ∀ r, Expr.readRecord limit text = .ok r ↔ Expr.read limit text = .ok (.record r)) :=
  ⟨⟨fun _ => TypeExpr.map_unplaced_read_iff, fun _ _ _ _ _ hd he => hd.unique he,
      fun _ => TypeExpr.readRecord_eq_ok_iff⟩,
    fun _ => Expr.map_unplaced_read_iff, fun _ _ _ _ _ hd he => hd.unique he,
      fun _ => Expr.readRecord_eq_ok_iff⟩

end RecordLens
