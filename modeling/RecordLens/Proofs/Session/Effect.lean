import RecordLens.Proofs.Elaboration.Checked
import RecordLens.Proofs.Elaboration.Names
import RecordLens.Proofs.Lens.Values
import RecordLens.Proofs.Value.Typing
import RecordLens.Session

/-! What commands do to a session. Each step of a command is described by how it ends, and from the
steps all effects that an input can have are listed once. -/

namespace RecordLens

namespace Command

variable {α β : Type}

/-- What the step leads to. -/
def outcome (x : Command α) (s : Session) : Except CommandError α × Session := x.run s

theorem outcome_bind (x : Command α) (f : α → Command β) (s : Session) :
    (x >>= f).outcome s = match x.outcome s with
      | (.ok a, s') => (f a).outcome s'
      | (.error e, s') => (.error e, s') := by
  have hrun : (x >>= f).outcome s =
      (ExceptT.bindCont f (x.outcome s).1 : StateM Session _) (x.outcome s).2 := rfl
  rw [hrun]
  cases x.outcome s with
  | mk result s' => cases result <;> rfl

theorem outcome_bind_ok {x : Command α} {f : α → Command β} {b : β} {s s' : Session} :
    (x >>= f).outcome s = (.ok b, s') ↔
      ∃ a middle, x.outcome s = (.ok a, middle) ∧ (f a).outcome middle = (.ok b, s') := by
  rw [outcome_bind]
  cases x.outcome s with
  | mk result middle => cases result <;> simp

theorem outcome_bind_error {x : Command α} (f : α → Command β) {e : CommandError} {s s' : Session}
    (h : x.outcome s = (.error e, s')) : (x >>= f).outcome s = (.error e, s') := by
  rw [outcome_bind, h]

theorem ofExcept_ok_bind (a : α) (f : α → Command β) :
    (.ofExcept (.ok a) >>= f : Command β) = f a := rfl

theorem outcome_elaborating {ε : Type} (source : String) (toError : ε → Error)
    (x : Elaboration ε α) (s : Session) :
    (Session.elaborating source toError x).outcome s =
      ((x.outcome s.registry).1.mapError fun e => .failed (toError e) .literal source,
        { s with registry := (x.outcome s.registry).2 }) := rfl

/-- From the session the step ends with a result and a session as `ok` says, or fails and leaves a
session as `failed` says. -/
structure Ends (s : Session) (x : Command α) (ok : α → Session → Prop)
    (failed : CommandError → Session → Prop) : Prop where
  of_ok : ∀ a s', x.outcome s = (.ok a, s') → ok a s'
  of_error : ∀ e s', x.outcome s = (.error e, s') → failed e s'

variable {s : Session} {ok Q : α → Session → Prop} {failed : CommandError → Session → Prop}

namespace Ends

theorem intro_ok {x : Command α} {a : α} {s' : Session} (h : x.outcome s = (.ok a, s'))
    (hok : ok a s') : Ends s x ok failed := by
  refine ⟨fun b s'' hb => ?_, fun e s'' he => ?_⟩
  · obtain ⟨hresult, rfl⟩ := Prod.mk.inj (h.symm.trans hb)
    exact Except.ok.inj hresult ▸ hok
  · exact absurd (Prod.mk.inj (h.symm.trans he)).1 nofun

theorem intro_error {x : Command α} {e : CommandError} {s' : Session}
    (h : x.outcome s = (.error e, s')) (hfailed : failed e s') : Ends s x ok failed := by
  refine ⟨fun b s'' hb => ?_, fun e' s'' he => ?_⟩
  · exact absurd (Prod.mk.inj (h.symm.trans hb)).1 nofun
  · obtain ⟨hresult, rfl⟩ := Prod.mk.inj (h.symm.trans he)
    exact Except.error.inj hresult ▸ hfailed

theorem pure {a : α} (h : ok a s) : Ends s (Pure.pure a) ok failed := .intro_ok rfl h

theorem throw {e : CommandError} (h : failed e s) :
    Ends s (MonadExcept.throw e : Command α) ok failed := .intro_error rfl h

theorem update_bind {f : Session → Session} {x : Unit → Command α}
    (h : Ends (f s) (x ()) ok failed) : Ends s (modify f >>= x) ok failed :=
  ⟨h.of_ok, h.of_error⟩

theorem elaborating {ε : Type} {source : String} {toError : ε → Error} {x : Elaboration ε α}
    (h : ∀ a g, x.outcome s.registry = (.ok a, g) → ok a { s with registry := g })
    (he : ∀ e g, x.outcome s.registry = (.error e, g) →
      failed (.failed (toError e) .literal source) { s with registry := g }) :
    Ends s (Session.elaborating source toError x) ok failed := by
  have hrun := outcome_elaborating source toError x s
  cases hx : x.outcome s.registry with
  | mk result g =>
    rw [hx] at hrun
    cases result with
    | ok a => exact .intro_ok hrun (h a g hx)
    | error e => exact .intro_error hrun (he e g hx)

theorem bind {x : Command α} {f : α → Command β} {ok : β → Session → Prop}
    (hx : Ends s x Q failed) (hf : ∀ a s', Q a s' → Ends s' (f a) ok failed) :
    Ends s (x >>= f) ok failed := by
  have hrun := outcome_bind x f s
  cases h : x.outcome s with
  | mk result s' =>
    rw [h] at hrun
    cases result with
    | ok a =>
      have hmore := hf a s' (hx.of_ok a s' h)
      exact ⟨fun b s'' hb => hmore.of_ok b s'' (hrun.symm.trans hb),
        fun e s'' he => hmore.of_error e s'' (hrun.symm.trans he)⟩
    | error e => exact .intro_error hrun (hx.of_error e s' h)

theorem bind_ofExcept {x : Except CommandError α} {f : α → Command β} {ok : β → Session → Prop}
    (h : ∀ a, x = .ok a → Ends s (f a) ok failed) (he : ∀ e, x = .error e → failed e s) :
    Ends s (.ofExcept x >>= f) ok failed := by
  cases x with
  | ok a => exact h a rfl
  | error e => exact .intro_error rfl (he e rfl)

theorem bind_within {ε : Type} {part : CommandPart} {source : String} {toError : ε → Error}
    {x : Except ε α} {f : α → Command β} {ok : β → Session → Prop}
    (h : ∀ a, x = .ok a → Ends s (f a) ok failed)
    (he : ∀ e, x = .error e → failed (.failed (toError e) part source) s) :
    Ends s (Session.within part source toError x >>= f) ok failed := by
  cases x with
  | ok a => exact h a rfl
  | error e => exact .intro_error rfl (he e rfl)

theorem get_bind {f : Session → Command β} {ok : β → Session → Prop}
    (h : Ends s (f s) ok failed) : Ends s (MonadState.get >>= f) ok failed :=
  ⟨h.of_ok, h.of_error⟩

theorem imp {x : Command α} {ok' : α → Session → Prop} {failed' : CommandError → Session → Prop}
    (h : Ends s x ok failed) (hok : ∀ a s', ok a s' → ok' a s')
    (hfailed : ∀ e s', failed e s' → failed' e s') : Ends s x ok' failed' :=
  ⟨fun a s' ha => hok a s' (h.of_ok a s' ha), fun e s' he => hfailed e s' (h.of_error e s' he)⟩

theorem leaves {x : Command α} {P : Session → Prop} (h : Ends s x (fun _ => P) fun _ => P) :
    P (x.outcome s).2 := by
  cases hx : x.outcome s with
  | mk result s' =>
    cases result with
    | ok a => exact h.of_ok a s' hx
    | error e => exact h.of_error e s' hx

end Ends

end Command

section

variable [Alphabet]

namespace Registry

/-- The later registry holds the entries of the earlier one at their places, and what came in has
orderly names. -/
structure Enriched (g g' : Registry) : Prop where
  grows : g.Grows g'
  orderly : ∀ fields ∈ g'.entries, fields ∈ g.entries ∨ FieldName.Orderly (fields.map Field.name)

theorem Enriched.refl (g : Registry) : g.Enriched g := ⟨.refl, fun _ h => .inl h⟩

theorem Enriched.trans {g g' g'' : Registry} (h : g.Enriched g') (k : g'.Enriched g'') :
    g.Enriched g'' := by
  refine ⟨h.grows.trans k.grows, fun fields hfields => ?_⟩
  rcases k.orderly fields hfields with hmem | hnames
  · exact h.orderly fields hmem
  · exact .inr hnames

end Registry

/-- What a step interns enriches the registry, if it has orderly names. -/
theorem Elaboration.Enters.enriched {ε α : Type} {x : Elaboration ε α}
    (hx : x.Enters FieldName.Orderly) {P : RecordType → Prop} {Q : Registry → α → Prop}
    {g g' : Registry} {result : Except ε α} (hq : x.Ensures P g Q)
    (h : x.outcome g = (result, g')) : g.Enriched g' := by
  have hgrows := hq.1.grows
  have horderly := hx g
  rw [h] at hgrows horderly
  exact ⟨hgrows, horderly⟩

end

/-- The errors that commands report to their users: not that a field which a lens shows cannot be
read, nor that a record is one no longer. -/
def CommandError.Ordinary : CommandError → Prop
  | .misuse (.noRecord _) => False
  | .failed (.mismatch _) .path _ => False
  | _ => True

namespace Session

open Command (Ends)

variable {s : Session}

def Declared (s : Session) (r : RecordType) : Prop :=
  ∃ name type, s.types.get? name = some type ∧ r ∈ type.ty.handles

section

variable [Alphabet]

def Enriched (s s' : Session) : Prop :=
  s.registry.Enriched s'.registry ∧ s'.types = s.types ∧ s'.values = s.values

theorem Enriched.refl (s : Session) : s.Enriched s := ⟨.refl _, rfl, rfl⟩

theorem Enriched.trans {s s' s'' : Session} (h : s.Enriched s') (k : s'.Enriched s'') :
    s.Enriched s'' :=
  ⟨h.1.trans k.1, k.2.1.trans h.2.1, k.2.2.trans h.2.2⟩

theorem ends_recordType (text : String) :
    Ends s (recordType text)
      (fun type s' => s.Enriched s' ∧ s'.registry.Over s.Declared type.ty.handles)
      (fun e s' => s.Enriched s' ∧ e.Ordinary) := by
  rw [recordType]
  refine .get_bind ?_
  cases hdeclared : s.types.get? text with
  | some type =>
    exact .pure ⟨.refl s, fun r hr => .inr ⟨text, type, hdeclared, hr⟩⟩
  | none =>
    refine .bind_within (fun literal hread => ?_) fun _ _ => ⟨.refl s, trivial⟩
    have hensures := TypeExpr.ensures_elaborateRecord (P := s.Declared) literal s.registry
    have henters := TypeExpr.enters_elaborateRecord hread
    refine .elaborating (fun type g h => ⟨?_, hensures.2 type g h⟩) fun e g h => ?_
    · exact ⟨henters.enriched hensures h, rfl, rfl⟩
    · exact ⟨⟨henters.enriched hensures h, rfl, rfl⟩, trivial⟩

/-- What `let` does once it knows the name and the expected type. -/
def bindTo (name : String) (expected : Option RecordType) (literal : String) : Command String := do
  let expr ← within .literal literal .malformed (Expr.readRecord usualNesting literal)
  let value ← elaborating literal ValueError.toError (Expr.elaborateRecord expr expected)
  modify fun s => { s with values := s.values.put name value }
  return name ++ " = " ++ value.text

theorem bindValue_eq (rest : String) :
    bindValue rest = (do
      let p ← .ofExcept (splitBinding rest)
      match Text.splitOnce? (· = ':') p.1 with
      | none => bindTo p.1 none p.2
      | some (name, type) =>
        let type ← recordType (Text.trim type)
        bindTo (Text.trim name) (some type) p.2) := rfl

/-- What `get` and `set` are about: a bound value and the lens of a path into it. -/
structure View where
  name : String
  path : String
  value : RecordValue
  lens : Lens
  deriving DecidableEq

def view (text : String) : Command View := do
  let (name, path) := splitWord text
  let value ← value name
  let lens ← lens value (Text.trim path)
  return ⟨name, path, value, lens⟩

structure Replacement extends View where
  literal : String
  leaf : Value
  deriving DecidableEq

def replacement (rest : String) : Command Replacement := do
  let (head, literal) ← .ofExcept (splitBinding rest)
  let v ← view head
  let expr ← within .literal literal .malformed (Expr.read usualNesting literal)
  let leaf ← elaborating literal ValueError.toError (expr.elaborate (some v.lens.target) [])
  return ⟨v, literal, leaf⟩

theorem getField_eq (rest : String) :
    getField rest = do
      let v ← view rest
      let field ← within .path v.path .mismatch (v.lens.get v.value.value)
      return field.text ++ " :: " ++ v.lens.target.text := by
  simp only [getField, view, bind_assoc, pure_bind]

theorem setField_eq (rest : String) :
    setField rest = do
      let r ← replacement rest
      let updated ← within .literal r.literal .mismatch (r.lens.set r.value.value r.leaf)
      match updated.record? with
      | none => throw (.misuse (.noRecord r.name))
      | some updated =>
        modify fun s => { s with values := s.values.put r.name updated }
        return r.name ++ " = " ++ updated.text := by
  symm
  simp only [replacement, view, bind_assoc, pure_bind]
  rfl

end

/-- The value is bound to the name, and the lens is that of a path into it. -/
structure View.In (v : View) (s : Session) : Prop where
  bound : s.values.get? v.name = some v.value
  derived : ∃ p, Lens.derive v.value.type.ty p = .ok v.lens

structure Replacement.In (r : Replacement) (s : Session) : Prop extends r.toView.In s where
  wellTyped : r.leaf.WellTyped
  typeOf_leaf : r.leaf.typeOf = r.lens.target
  leaf_over : s.registry.Over (· ∈ r.lens.target.handles) r.leaf.handles

theorem eq_noBinding_of_splitBinding {text : String} {e : CommandError}
    (h : splitBinding text = .error e) : e = .misuse .noBinding := by
  unfold splitBinding at h
  split at h
  · exact (Except.error.inj h).symm
  · split at h
    · exact (Except.error.inj h).symm
    · cases h

theorem splitBinding_ordinary {text : String} {e : CommandError}
    (h : splitBinding text = .error e) : e.Ordinary := by
  rw [eq_noBinding_of_splitBinding h]
  trivial

theorem ends_value (name : String) :
    Ends s (value name) (fun r s' => s = s' ∧ s.values.get? name = some r)
      (fun e s' => s = s' ∧ e.Ordinary) := by
  rw [value]
  refine .get_bind ?_
  cases hbound : s.values.get? name with
  | none => exact .throw ⟨rfl, trivial⟩
  | some r => exact .pure ⟨rfl, rfl⟩

variable [Alphabet]

theorem ends_view (text : String) :
    Ends s (view text) (fun v s' => s = s' ∧ v.In s) (fun e s' => s = s' ∧ e.Ordinary) := by
  refine .bind (ends_value (splitWord text).1) ?_
  rintro value _ ⟨rfl, hbound⟩
  refine .bind (Q := fun l s' => s = s' ∧ ∃ p, Lens.derive value.type.ty p = .ok l) ?_ ?_
  · refine .bind_within (fun p _ => ?_) fun _ _ => ⟨rfl, trivial⟩
    cases hl : Lens.derive value.type.ty p with
    | error e => exact .intro_error rfl ⟨rfl, trivial⟩
    | ok l => exact .intro_ok rfl ⟨rfl, p, hl⟩
  · rintro l _ ⟨rfl, hl⟩
    exact .pure ⟨rfl, hbound, hl⟩

theorem ends_replacement (rest : String) :
    Ends s (replacement rest) (fun r s' => s = s' ∧ r.In s) (fun e s' => s = s' ∧ e.Ordinary) := by
  refine .bind_ofExcept (fun p _ => ?_) fun e he => ⟨rfl, splitBinding_ordinary he⟩
  refine .bind (ends_view p.1) ?_
  rintro v _ ⟨rfl, hv⟩
  refine .bind_within (fun expr _ => ?_) fun _ _ => ⟨rfl, trivial⟩
  have hconstant := expr.checks_elaborate v.lens.target []
  refine .bind (Q := fun leaf s' => s = s' ∧
    (expr.elaborate (some v.lens.target) []).outcome s.registry = (.ok leaf, s.registry)) ?_ ?_
  · refine .elaborating (fun leaf g h => ?_) fun e g h => ?_
    · obtain rfl := (hconstant.eq_ofExcept h).2
      exact ⟨rfl, h⟩
    · obtain rfl := (hconstant.eq_ofExcept h).2
      cases e <;> exact ⟨rfl, trivial⟩
  · rintro leaf _ ⟨rfl, hleaf⟩
    obtain ⟨hwell, htype⟩ := expr.typed_elaborate hleaf
    have hensures := expr.ensures_elaborate (P := (· ∈ v.lens.target.handles)) s.registry
      (some v.lens.target) [] fun ty hty => Option.some.inj hty ▸ Registry.over_of_given fun _ => id
    exact .pure ⟨rfl, hv, hwell, htype _ rfl, hensures.2 leaf s.registry hleaf⟩

def binders : List String := ["type", "let", "set"]

/-- What an input with that command can do: its answer or its error, and the session behind it. -/
inductive Effect (s : Session) (command : String) :
    Except CommandError String → Session → Prop
  | refused (e : CommandError) (he : e.Ordinary) : Effect s command (.error e) s
  /-- The command fails when a literal has been entered in part or as a whole. -/
  | abandoned (hc : command = "type" ∨ command = "let") (e : CommandError) (he : e.Ordinary)
      {s' : Session} (hs : s.Enriched s') : Effect s command (.error e) s'
  /-- The lens of a view does not read the value. -/
  | unread (v : View) (hv : v.In s) (m : TypeMismatch)
      (hget : v.lens.get v.value.value = .error m) (e : CommandError) :
      Effect s command (.error e) s
  /-- The lens of a view does not put the leaf into a record. -/
  | unset (r : Replacement) (hr : r.In s)
      (hset : ∀ updated : RecordValue, r.lens.set r.value.value r.leaf ≠ .ok updated.value)
      (e : CommandError) : Effect s command (.error e) s
  | answered (hc : command ∉ binders) (out : String) : Effect s command (.ok out) s
  | declared (hc : command = "type") (name : String) (type : RecordType) {s' : Session}
      (hs : s.Enriched s') (htype : s'.registry.Over s.Declared type.ty.handles) :
      Effect s command (.ok (name ++ " :: " ++ type.text))
        { s' with types := s'.types.put name type }
  | bound (hc : command = "let") (name : String) (value : RecordValue) {s' : Session}
      (hs : s.Enriched s') (hwell : value.value.WellTyped)
      (hvalue : s'.registry.Over s.Declared value.value.handles) :
      Effect s command (.ok (name ++ " = " ++ value.text))
        { s' with values := s'.values.put name value }
  | replaced (hc : command = "set") (r : Replacement) (hr : r.In s) (updated : RecordValue)
      (hset : r.lens.set r.value.value r.leaf = .ok updated.value) :
      Effect s command (.ok (r.name ++ " = " ++ updated.text))
        { s with values := s.values.put r.name updated }

/-- The step ends with an effect that the command can have. -/
def Acts (s : Session) (command : String) (x : Command String) : Prop :=
  Ends s x (fun out s' => s.Effect command (.ok out) s')
    (fun e s' => s.Effect command (.error e) s')

theorem acts_declareType (rest : String) : s.Acts "type" (declareType rest) := by
  refine .bind_ofExcept (fun p _ => ?_) fun e he => .refused e (splitBinding_ordinary he)
  refine .bind ((ends_recordType p.2).imp (fun _ _ h => h) fun e s' h =>
    .abandoned (.inl rfl) e h.2 h.1) ?_
  rintro type s' ⟨hs, htype⟩
  exact .update_bind (.pure (.declared rfl p.1 type hs htype))

theorem ends_bindTo {s' : Session} (hs : s.Enriched s') (name literal : String)
    {expected : Option RecordType}
    (hexpected : ∀ type, expected = some type → s'.registry.Over s.Declared type.ty.handles) :
    Ends s' (bindTo name expected literal) (fun out s'' => s.Effect "let" (.ok out) s'')
      (fun e s'' => s.Effect "let" (.error e) s'') := by
  refine .bind_within (fun expr hread => ?_) fun _ _ => .abandoned (.inr rfl) _ (by trivial) hs
  have hensures := Expr.ensures_elaborateRecord expr hexpected
  have henters := Expr.enters_elaborateRecord hread expected
  have henriched {result : Except ValueError RecordValue} {g : Registry}
      (h : (Expr.elaborateRecord expr expected).outcome s'.registry = (result, g)) :
      s.Enriched { s' with registry := g } :=
    hs.trans ⟨henters.enriched hensures h, rfl, rfl⟩
  refine .bind (Q := fun value s'' => s.Enriched s'' ∧ value.value.WellTyped ∧
    s''.registry.Over s.Declared value.value.handles) ?_ ?_
  · refine .elaborating (fun value g h => ?_) fun e g h => ?_
    · exact ⟨henriched h, (Expr.typed_elaborateRecord h).1, hensures.2 value g h⟩
    · cases e <;> exact .abandoned (.inr rfl) _ (by trivial) (henriched h)
  · rintro value s'' ⟨hs'', hwell, hvalue⟩
    exact .update_bind (.pure (.bound rfl name value hs'' hwell hvalue))

theorem acts_bindValue (rest : String) : s.Acts "let" (bindValue rest) := by
  rw [bindValue_eq]
  refine .bind_ofExcept (fun p _ => ?_) fun e he => .refused e (splitBinding_ordinary he)
  split
  · exact ends_bindTo (.refl s) _ _ nofun
  · next name type _ =>
    refine .bind ((ends_recordType (Text.trim type)).imp (fun _ _ h => h) fun e s' h =>
      .abandoned (.inr rfl) e h.2 h.1) ?_
    rintro type s' ⟨hs, htype⟩
    exact ends_bindTo hs _ _ fun _ h => Option.some.inj h ▸ htype

theorem acts_getField (rest : String) : s.Acts "get" (getField rest) := by
  rw [getField_eq]
  refine .bind ((ends_view rest).imp (fun _ _ h => h) ?_) ?_
  · rintro e _ ⟨rfl, he⟩
    exact .refused e he
  · rintro v _ ⟨rfl, hv⟩
    exact .bind_within (fun field _ => .pure (.answered (by decide) _)) fun m hget =>
      .unread v hv m hget _

theorem acts_setField (rest : String) : s.Acts "set" (setField rest) := by
  rw [setField_eq]
  refine .bind ((ends_replacement rest).imp (fun _ _ h => h) ?_) ?_
  · rintro e _ ⟨rfl, he⟩
    exact .refused e he
  · rintro r _ ⟨rfl, hr⟩
    refine .bind_within (fun w hset => ?_) fun m hset => .unset r hr (by simp [hset]) _
    cases w with
    | scalar a => exact .throw (.unset r hr (fun updated h => by rw [hset] at h; cases h) _)
    | record type values =>
      let updated : RecordValue := ⟨type, values⟩
      exact .update_bind (.pure (.replaced rfl r hr updated hset))

theorem acts_showValue (name : String) : s.Acts "show" (showValue name) := by
  refine .bind ((ends_value name).imp (fun _ _ h => h) ?_) ?_
  · rintro e _ ⟨rfl, he⟩
    exact .refused e he
  · rintro r _ ⟨rfl, -⟩
    exact .pure (.answered (by decide) _)

/-- Every input has one of the effects of its command. -/
theorem acts_run (input : String) : s.Acts (splitWord input).1 (run input) := by
  unfold run
  generalize splitWord input = words
  obtain ⟨command, rest⟩ := words
  dsimp only
  split
  · exact Ends.pure (.answered (by decide) _)
  · exact Ends.pure (.answered (by decide) _)
  · exact Ends.get_bind (.pure (.answered (by decide) _))
  · exact acts_declareType _
  · exact acts_bindValue _
  · exact acts_getField _
  · exact acts_setField _
  · exact acts_showValue _
  · exact Ends.throw (.refused _ (by trivial))

theorem effect_run (s : Session) (input : String) :
    s.Effect (splitWord input).1 ((run input).outcome s).1 ((run input).outcome s).2 := by
  cases h : (run input).outcome s with
  | mk result s' =>
    cases result with
    | ok out => exact (acts_run input).of_ok out s' h
    | error e => exact (acts_run input).of_error e s' h

end Session

end RecordLens
