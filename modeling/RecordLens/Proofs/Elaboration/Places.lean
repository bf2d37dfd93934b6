import RecordLens.Proofs.Literal.Places
import RecordLens.Proofs.Registry.Operations

/-! Where the errors of elaboration stand. A literal whose places are those of a source is refused
for a name that is written twice, both places of which are reported, or for a value that does not
fit, and the place of that is reported, however deep it stands. -/

namespace RecordLens

variable {source : List Char}

structure DuplicateField.Placed (source : List Char) (d : DuplicateField) : Prop where
  first : ∃ span, d.first = some span ∧ span.Marks source d.name.text.toList
  second : ∃ span, d.second = some span ∧ span.Marks source d.name.text.toList

def TypeMismatch.Placed (source : List Char) (m : TypeMismatch) : Prop :=
  ∃ span, m.span = some span ∧ span.In source

def ValueError.Placed (source : List Char) : ValueError → Prop
  | .duplicate d => d.Placed source
  | .mismatch m => m.Placed source

theorem TypeMismatch.placed_between {span : Span} (h : span.In source) (expected found : Ty)
    (path : Path) : (between expected found path (some span)).Placed source := by
  refine ⟨span, ?_, h⟩
  unfold between
  split <;> rfl

namespace FieldExpr

variable {α β : Type}

theorem NamesPlaced.map {fields : List (FieldExpr α)} (h : NamesPlaced source fields) (f : α → β) :
    NamesPlaced source (fields.map fun x => ⟨x.name, x.nameSpan, f x.item⟩) := by
  refine h.imp (fun h => ?_) fun h => ⟨?_, ?_⟩
  · simpa using h
  · simpa [Function.comp_def] using h.1
  · simpa using h.2

theorem NamesPlaced.placed_of_canonicalize {fields : List (FieldExpr α)} {clash : DuplicateField}
    (hnames : NamesPlaced source fields) (h : canonicalize fields = .error clash) :
    clash.Placed source := by
  obtain ⟨front, f, back, rfl, -, hname, hsecond, e, he, hsame, hfirst⟩ :=
    exists_of_canonicalize_error h
  rcases hnames with hmarks | ⟨hnodup, -⟩
  · have hmarksFirst := hmarks e (List.mem_append_left _ he)
    have hmarksSecond := hmarks f List.mem_append_cons_self
    rw [hsame] at hmarksFirst
    rw [← hname] at hmarksFirst hmarksSecond
    exact ⟨⟨_, hfirst, hmarksFirst⟩, ⟨_, hsecond, hmarksSecond⟩⟩
  · rw [List.map_append, List.map_cons, List.nodup_append] at hnodup
    exact absurd hsame (hnodup.2.2 _ (List.mem_map_of_mem he) _ List.mem_cons_self)

end FieldExpr

namespace Elaboration

variable {ε α β : Type} {C : ε → Prop}

def Fails (C : ε → Prop) (x : Elaboration ε α) : Prop :=
  ∀ (g : Registry) e g', x.outcome g = (.error e, g') → C e

theorem Fails.ofExcept {x : Except ε α} (h : ∀ e, x = .error e → C e) : Fails C (.ofExcept x) :=
  fun _ e _ he => h e (Prod.mk.inj he).1

theorem Fails.pure (a : α) : Fails C (Pure.pure a : Elaboration ε α) := .ofExcept nofun

theorem Fails.lift (x : Interning α) : Fails C (liftM x : Elaboration ε α) :=
  fun _ _ _ h => absurd (Prod.mk.inj h).1 nofun

theorem Fails.bind {x : Elaboration ε α} {f : α → Elaboration ε β} (hx : x.Fails C)
    (hf : ∀ a, (f a).Fails C) : (x >>= f).Fails C := by
  intro g e g' h
  rw [outcome_bind] at h
  cases hfirst : x.outcome g with
  | mk result g₁ =>
    rw [hfirst] at h
    cases result with
    | ok a => exact hf a g₁ e g' h
    | error e' =>
      obtain ⟨he, rfl⟩ := Prod.mk.inj h
      exact Except.error.inj he ▸ hx g e' g₁ hfirst

theorem Fails.bind_ofExcept {x : Except ε α} {f : α → Elaboration ε β}
    (hx : ∀ e, x = .error e → C e) (hf : ∀ a, x = .ok a → (f a).Fails C) :
    (.ofExcept x >>= f : Elaboration ε β).Fails C := by
  cases x with
  | ok a => exact hf a rfl
  | error e => exact fun _ e' _ h => Except.error.inj (Prod.mk.inj h).1 ▸ hx e rfl

theorem Fails.mapM {f : α → Elaboration ε β} {xs : List α} (h : ∀ x ∈ xs, (f x).Fails C) :
    Fails C (xs.mapM f) := by
  induction xs with
  | nil => exact .pure []
  | cons x rest ih =>
    obtain ⟨hx, hrest⟩ := List.forall_mem_cons.1 h
    rw [List.mapM_cons]
    exact .bind hx fun y => .bind (ih hrest) fun ys => .pure _

theorem Fails.traverse {f : FieldName → α → Elaboration ε β} {x : Field α}
    (h : (f x.name x.value).Fails C) : (x.traverse f).Fails C :=
  .bind h fun _ => .pure _

end Elaboration

open Elaboration (Fails)

namespace TypeExpr

theorem fails_recordType {fields : List (FieldExpr (Elaboration DuplicateField Ty))}
    (hnames : FieldExpr.NamesPlaced source fields)
    (h : ∀ f ∈ fields, f.item.Fails (DuplicateField.Placed source)) :
    (recordType fields).Fails (DuplicateField.Placed source) := by
  refine .bind_ofExcept (fun clash => hnames.placed_of_canonicalize) fun xs hc => ?_
  have hall : ∀ x ∈ xs, (x.traverse fun _ elaborate => elaborate).Fails
      (DuplicateField.Placed source) := by
    intro x hx
    obtain ⟨f, hf, rfl⟩ := FieldExpr.exists_of_mem_canonicalize hc hx
    exact .traverse (h f hf)
  exact .bind (.mapM hall) fun ys => .lift _

theorem Placed.fails {e : TypeExpr} (h : e.Placed source) :
    e.elaborate.Fails (DuplicateField.Placed source) := by
  induction h with
  | named _ _ ih =>
    rw [elaborate, elaborateArgs_eq_mapM]
    exact .bind (.mapM ih) fun _ => .pure _
  | record _ hnames _ ih =>
    rw [elaborate, elaborateFields_eq_map]
    refine .bind (fails_recordType (hnames.map elaborate) ?_) fun _ => .pure _
    simpa using ih

theorem Placed.fails_elaborateRecord {r : RecordExpr TypeExpr}
    (h : (TypeExpr.record r).Placed source) :
    (elaborateRecord r).Fails (DuplicateField.Placed source) := by
  cases h with
  | record _ hnames hitems =>
    rw [elaborateRecord, elaborateFields_eq_map]
    refine fails_recordType (hnames.map elaborate) ?_
    simpa using fun f hf => (hitems f hf).fails

end TypeExpr

namespace Expr

def Elaborator.Fails (source : List Char) (elaborate : Elaborator) : Prop :=
  ∀ expected path, (elaborate expected path).Fails (ValueError.Placed source)

theorem fails_inferred {fields : List (Field Elaborator)}
    (h : ∀ f ∈ fields, f.value.Fails source) (path : Path) :
    (inferred fields path).Fails (ValueError.Placed source) :=
  .bind (.mapM fun f hf => .traverse (h f hf none _)) fun _ => .lift _

theorem fails_checkedValues {fields : List (Field Elaborator)}
    (h : ∀ f ∈ fields, f.value.Fails source) (path : Path) (types : List (Field Ty)) :
    (checkedValues path fields types).Fails (ValueError.Placed source) := by
  induction fields generalizing types with
  | nil => exact .pure []
  | cons f rest ih =>
    obtain ⟨hf, hrest⟩ := List.forall_mem_cons.1 h
    cases types with
    | nil => exact .pure []
    | cons declared types =>
      exact .bind (hf _ _) fun v => .bind (ih hrest types) fun vs => .pure _

theorem fails_mismatched {fields : List (Field Elaborator)} {span : Span}
    (h : ∀ f ∈ fields, f.value.Fails source) (hspan : span.In source) (ty : Ty) (path : Path) :
    (Elaboration.ofExcept (mismatched ty fields span path)).Fails (ValueError.Placed source) := by
  refine .ofExcept fun e he => ?_
  unfold mismatched at he
  cases hinferred : (inferred fields path).run (.empty .scratch) with
  | mk result g =>
    rw [hinferred] at he
    cases result with
    | error e' => exact Except.error.inj he ▸ fails_inferred h path _ e' g hinferred
    | ok found =>
      exact Except.error.inj he ▸ TypeMismatch.placed_between hspan _ _ _

theorem fails_recordValue {fields : List (FieldExpr Elaborator)} {span : Span}
    (hnames : FieldExpr.NamesPlaced source fields) (h : ∀ f ∈ fields, f.item.Fails source)
    (hspan : span.In source) (expected : Option Ty) (path : Path) :
    (recordValue fields span expected path).Fails (ValueError.Placed source) := by
  cases hc : FieldExpr.canonicalize fields with
  | error clash =>
    rw [recordValue_of_clash hc]
    exact .ofExcept fun e he => Except.error.inj he ▸ hnames.placed_of_canonicalize hc
  | ok ys =>
    have hall : ∀ y ∈ ys, y.value.Fails source := by
      intro y hy
      obtain ⟨f, hf, rfl⟩ := FieldExpr.exists_of_mem_canonicalize hc hy
      exact h f hf
    rw [recordValue_of_canonicalize hc]
    cases expected with
    | none => exact fails_inferred hall path
    | some ty =>
      dsimp only
      split
      · exact fails_mismatched hall hspan ty path
      · split
        · exact .bind (fails_checkedValues hall path _) fun _ => .pure _
        · exact fails_mismatched hall hspan ty path

theorem Placed.fails {e : Expr} (h : e.Placed source) : Elaborator.Fails source e.elaborate := by
  induction h with
  | @scalar value span hspan =>
    refine fun expected path => .ofExcept fun e he => ?_
    unfold Scalar.elaborate at he
    split at he
    · cases he
    · split at he
      · cases he
      · exact Except.error.inj he ▸ TypeMismatch.placed_between hspan _ _ _
  | record hspan hnames _ ih =>
    intro expected path
    rw [elaborate, elaborateFields_eq_map]
    refine .bind (fails_recordValue (hnames.map elaborate) ?_ hspan expected path) fun _ => .pure _
    simpa using ih

theorem Placed.fails_elaborateRecord {r : RecordExpr Expr} (h : (Expr.record r).Placed source)
    (expected : Option RecordType) :
    (elaborateRecord r expected).Fails (ValueError.Placed source) := by
  cases h with
  | record hspan hnames hitems =>
    rw [elaborateRecord, elaborateFields_eq_map]
    refine fails_recordValue (hnames.map elaborate) ?_ hspan _ []
    simpa using fun f hf => (hitems f hf).fails

end Expr

end RecordLens
