import RecordLens.Proofs.Session.Bound
import RecordLens.Proofs.Session.Splitting
import RecordLens.Proofs.Value.Nesting
import RecordLens.Proofs.Value.Refusal

/-! Typing back what a session has printed. A value that is bound has been read, so that its records
nest no deeper than the brackets of a literal may; printed behind `let` and the name that it is
bound to, it is read as itself, and binding it leaves the session as it was. Only where a float of
it is infinite is the printed literal malformed. -/

namespace RecordLens

open Text (Solid)

theorem Bindings.put_get? {α : Type} {name : String} {x : α} {b : Bindings α}
    (h : b.get? name = some x) : b.put name x = b := by
  induction b with
  | nil => cases h
  | cons entry rest ih =>
    obtain ⟨key, y⟩ := entry
    by_cases hk : key = name
    · subst hk
      obtain rfl : y = x := by simpa [get?] using h
      simp [put]
    · have hrest : get? name rest = some x := by simpa [get?, hk] using h
      simp [put, hk, ih hrest]

theorem RecordValue.solid_text (r : RecordValue) : Solid r.text.toList := by
  have hsolid (opening closing : Char) (ho : Text.isBlank opening = false)
      (hc : Text.isBlank closing = false) (cs : List Char) :
      Solid (opening :: (cs ++ [closing])) :=
    ⟨⟨opening, rfl, ho⟩, closing, by simp [List.getLast?_cons, List.getLast?_append], hc⟩
  rw [text, value, Value.text]
  split
  · simpa using hsolid '(' ')' (by decide) (by decide) _
  · simpa using hsolid '{' '}' (by decide) (by decide) _

namespace Session

variable {s : Session}

/-- Bound values nest no deeper than brackets may in what is read. -/
def Shallow (s : Session) : Prop :=
  ∀ name value, s.values.get? name = some value → value.value.nesting ≤ usualNesting

section

variable [Alphabet]

/-- What `let` binds is denoted by a literal that has been read, and what `set` binds nests as deep
as what it replaces, since it is of the same type. -/
theorem Reachable.shallow (h : s.Reachable) : s.Shallow := by
  refine h.forall_bound (P := fun _ value => value.value.nesting ≤ usualNesting) ?_ ?_
  · rintro _ _ _ value - ⟨l, expected, g, g', hread, hvalue⟩
    exact Expr.nesting_le_of_readRecord hread hvalue
  · intro _ old new hold hnew htype hle
    have hnesting := Value.nesting_eq_of_typeOf_eq hnew hold (congrArg RecordType.ty htype)
    exact hnesting ▸ hle

theorem Reachable.valid (h : s.Reachable) : s.registry.Valid := by
  induction h with
  | empty => exact Registry.valid_empty _
  | run _ input ih => exact (effect_run _ input).grows.valid ih

section

variable {name literal : String} {l : RecordExpr Expr} {expected : Option RecordType}

theorem outcome_bindTo {value : RecordValue} {g : Registry}
    (hread : Expr.readRecord usualNesting literal = .ok l)
    (h : (Expr.elaborateRecord l expected).outcome s.registry = (.ok value, g)) :
    (bindTo name expected literal).outcome s =
      (.ok (name ++ " = " ++ value.text), ⟨g, s.types, s.values.put name value⟩) := by
  rw [bindTo, hread, within_ok_bind, Command.outcome_bind,
    outcome_elaborating_ok.2 ⟨g, h, rfl⟩]
  rfl

theorem outcome_bindTo_malformed {e : SyntaxError}
    (hread : Expr.readRecord usualNesting literal = .error e) :
    (bindTo name expected literal).outcome s =
      (.error (.failed (.malformed e) .literal literal), s) := by
  rw [bindTo, hread]
  rfl

theorem splitOnce?_name {c : Char} (hname : Text.IsIdentifier name)
    (hc : Text.isSubsequent c = false) : Text.splitOnce? (· = c) name = none := by
  refine Text.splitOnce?_eq_none.2 fun d hd => decide_eq_false ?_
  rintro rfl
  simp [hname.forall_isSubsequent d hd] at hc

/-- A name, an equals sign and a literal behind `let` are taken apart again. -/
theorem run_let_name (hname : Text.IsIdentifier name) (hl : Solid literal.toList) :
    run ("let " ++ name ++ " = " ++ literal) = bindTo name none literal := by
  have hne : Text.trim name ≠ "" := by
    rw [hname.solid.trim_eq_self]
    exact hname.isWord.1
  have hequals : '=' ∉ name.toList := fun h =>
    Bool.eq_false_iff.1 (Text.isSubsequent_of_ascii (by decide)) (hname.forall_isSubsequent '=' h)
  have hsplit := splitBinding_trim hne hequals literal
  rw [hname.solid.trim_eq_self, hl.trim_eq_self] at hsplit
  have hinput : "let " ++ name ++ " = " ++ literal = "let " ++ (name ++ " = " ++ literal) := by
    simp only [String.append_assoc]
  rw [hinput, run_let, bindValue_eq, hsplit, Command.ofExcept_ok_bind,
    splitOnce?_name hname (Text.isSubsequent_of_ascii (by decide))]

end

variable {name : String} {value : RecordValue}

/-- In every session that inputs lead to, a bound value is read from what is shown for it. To bind
it again under its name succeeds with the same answer and leaves the session as it is, if all its
floats are finite; otherwise the literal is malformed, and the session stays as it is too. -/
theorem Reachable.retyped (h : s.Reachable) (hname : Text.IsIdentifier name)
    (hvalue : s.values.get? name = some value) :
    (value.value.Finite →
      (Session.run ("let " ++ name ++ " = " ++ value.text)).outcome s =
        (.ok (name ++ " = " ++ value.text), s)) ∧
    (¬value.value.Finite →
      ∃ e, (Session.run ("let " ++ name ++ " = " ++ value.text)).outcome s =
        (.error (.failed (.malformed e) .literal value.text), s)) := by
  have hs := h.sound
  have hheld := hs.values name value hvalue
  have hnames : ∀ r ∈ value.value.handles, FieldName.Orderly r.names := fun r hr =>
    hs.orderly r.fields (List.mem_of_getElem? (Registry.holds_iff.1 (hheld r hr)).2)
  obtain ⟨hread, hmalformed⟩ := RecordValue.readRecord_text h.valid (hs.wellTyped name value hvalue)
    hheld hnames (h.shallow name value hvalue)
  rw [run_let_name hname value.solid_text]
  constructor
  · intro hfinite
    obtain ⟨l, hl, helaborated⟩ := hread hfinite
    rw [outcome_bindTo hl helaborated, Bindings.put_get? hvalue]
  · intro hnot
    obtain ⟨e, he⟩ := hmalformed hnot
    exact ⟨e, outcome_bindTo_malformed he⟩

end

def lengthType : RecordType := ⟨.registry 0, 0, [⟨.label "m", .primitive .double⟩]⟩

def pairType : RecordType :=
  ⟨.registry 0, 1, [⟨.position 1, .primitive .int⟩, ⟨.position 2, .primitive .double⟩]⟩

/-- A length that was typed with an exponent beyond all doubles. -/
def endless : RecordValue := ⟨lengthType, [.scalar (.float (.infinite false))]⟩

def pair : RecordValue := ⟨pairType, [.scalar (.int 1), .scalar (.float (.zero true))]⟩

def measured : Session :=
  ⟨⟨.registry 0, [lengthType.fields, pairType.fields]⟩, [], [("x", endless), ("y", pair)]⟩

theorem reachable_measured : measured.Reachable := by
  let first : Session := ⟨⟨.registry 0, [lengthType.fields]⟩, [], [("x", endless)]⟩
  have hx : ((Session.run "let x = \x7bm = 1e400\x7d").outcome empty).2 = first := by decide +kernel
  have hy : ((Session.run "let y = (1, -0.0)").outcome first).2 = measured := by decide +kernel
  exact hy ▸ .run (hx ▸ .run .empty _) _

theorem finite_pair : pair.value.Finite := by
  have hzero : (Scalar.float (.zero true)).Readable := by
    rintro x hx
    obtain rfl := Scalar.float.inj hx
    trivial
  exact .record (by simpa [pair] using ⟨.scalar nofun, .scalar hzero⟩)

theorem not_finite_endless : ¬endless.value.Finite := by
  intro h
  cases h with
  | record h =>
    cases h _ List.mem_cons_self with
    | scalar hs => exact hs _ rfl

/-- The pair is typed back, negative zero included, and the endless length is not. -/
theorem Reachable.retyped_measured :
    measured.Reachable ∧ measured.values.get? "y" = some pair ∧ pair.value.Finite ∧
      (Session.run "let y = (1, -0.0)").outcome measured = (.ok "y = (1, -0.0)", measured) ∧
      measured.values.get? "x" = some endless ∧ ¬endless.value.Finite ∧
      ∃ e, (Session.run "let x = \x7bm = inf\x7d").outcome measured =
        (.error (.failed (.malformed e) .literal "\x7bm = inf\x7d"), measured) := by
  have hpair : measured.values.get? "y" = some pair := by decide +kernel
  have hendless : measured.values.get? "x" = some endless := by decide +kernel
  have htext : pair.text = "(1, -0.0)" := by decide +kernel
  have htext' : endless.text = "\x7bm = inf\x7d" := by decide +kernel
  have hy := (reachable_measured.retyped (by decide +kernel) hpair).1 finite_pair
  have hx := (reachable_measured.retyped (by decide +kernel) hendless).2 not_finite_endless
  rw [htext] at hy
  rw [htext'] at hx
  exact ⟨reachable_measured, hpair, finite_pair, hy, hendless, not_finite_endless, hx⟩

/-- So what is shown for a bound value is not always a literal. -/
theorem endless_not_retyped :
    measured.Reachable ∧ Text.IsIdentifier "x" ∧ measured.values.get? "x" = some endless ∧
      ∀ out s', (Session.run ("let " ++ "x" ++ " = " ++ endless.text)).outcome measured ≠
        (.ok out, s') := by
  have hendless : measured.values.get? "x" = some endless := by decide +kernel
  have hinput : "let " ++ "x" ++ " = " ++ endless.text = "let x = \x7bm = inf\x7d" := by
    decide +kernel
  let e : SyntaxError := ⟨⟨⟨1, 6, 5⟩, 3⟩, .value, "identifier `inf`"⟩
  have hrun : (Session.run "let x = \x7bm = inf\x7d").outcome measured =
      (.error (.failed (.malformed e) .literal "\x7bm = inf\x7d"), measured) := by decide +kernel
  refine ⟨reachable_measured, by decide +kernel, hendless, fun out s' h => ?_⟩
  rw [hinput, hrun] at h
  cases h

end Session

end RecordLens
