import RecordLens.Proofs.Elaboration.Checked
import RecordLens.Proofs.Value.WellTyped

/-! The values that are built are well-typed. The type of a record is either made from its values
or was there before, and then each value has been checked against its field. -/

namespace RecordLens

namespace Value

theorem fit_iff_forall₂ {types : List (Field Ty)} {values : List Value} :
    Fit types values ↔
      List.Forall₂ (fun f v => f.value.accepts v = true ∧ v.WellTyped) types values := by
  induction types generalizing values with
  | nil => rw [fit_nil, List.forall₂_nil_left_iff]
  | cons f types ih =>
    cases values with
    | nil => simp
    | cons v values => rw [fit_cons_cons, List.forall₂_cons, ih, and_assoc]

theorem fit_map_typeOf {fields : List (Field Value)} (h : ∀ f ∈ fields, f.value.WellTyped) :
    Fit (fields.map (Field.map typeOf)) (fields.map Field.value) := by
  rw [fit_iff_forall₂, List.forall₂_map_left_iff, List.forall₂_map_right_iff, List.forall₂_same]
  exact fun f hf => ⟨Ty.accepts_iff.2 rfl, h f hf⟩

end Value

namespace Elaboration

theorem forall_of_mapM {ε α β : Type} {f : α → Elaboration ε β} {p : β → Prop} {xs : List α}
    {ys : List β} {g g' : Registry}
    (hf : ∀ x ∈ xs, ∀ g y g', (f x).outcome g = (.ok y, g') → p y)
    (h : (xs.mapM f).outcome g = (.ok ys, g')) : ∀ y ∈ ys, p y := by
  induction xs generalizing ys g with
  | nil =>
    obtain ⟨rfl, -⟩ : ys = [] ∧ g' = g := by simpa [eq_comm] using h
    simp
  | cons x xs ih =>
    obtain ⟨y, rest, g₁, hy, hrest, rfl⟩ := outcome_mapM_cons.1 h
    have hrest' : ∀ y ∈ rest, p y := ih (fun z hz => hf z (List.mem_cons_of_mem x hz)) hrest
    exact List.forall_mem_cons.2 ⟨hf x List.mem_cons_self g y g₁ hy, hrest'⟩

end Elaboration

namespace RecordValue

theorem outcome_ofCanonical (fields : List (Field Value)) (g : Registry) :
    ((ofCanonical fields).outcome g).1.type.fields = fields.map (Field.map Value.typeOf) ∧
      ((ofCanonical fields).outcome g).1.values = fields.map Field.value :=
  ⟨Registry.fields_intern _ g, rfl⟩

theorem wellTyped_ofCanonical {fields : List (Field Value)}
    (h : ∀ f ∈ fields, f.value.WellTyped) (g : Registry) :
    ((ofCanonical fields).outcome g).1.value.WellTyped := by
  obtain ⟨htypes, hvalues⟩ := outcome_ofCanonical fields g
  rw [value, Value.wellTyped_record, htypes, hvalues]
  exact Value.fit_map_typeOf h

theorem wellTyped_ofFields {fields : List (Field Value)} (h : ∀ f ∈ fields, f.value.WellTyped)
    {r : RecordValue} {g g' : Registry} (hr : (ofFields fields).outcome g = (.ok r, g')) :
    r.value.WellTyped := by
  obtain ⟨ys, g₁, hys, hp⟩ := Elaboration.outcome_bind_ok.1 hr
  obtain ⟨-, rfl⟩ := Field.canonicalizePlain_ok_iff.1 (Elaboration.outcome_ofExcept_ok.1 hys).1
  obtain ⟨rfl, -⟩ : ((ofCanonical (Field.sorted fields)).outcome g₁).1 = r ∧ _ := by simpa using hp
  exact wellTyped_ofCanonical (fun f hf => h f (Field.mem_sorted.1 hf)) g₁

end RecordValue

/-- Of the fields with one name the first gives both the type and the value. -/
theorem Host.outcome_structValue (fields : List (Field (Ty × Value))) (g : Registry) :
    ∃ r : RecordValue, ((structValue fields).outcome g).1 = r.value ∧
      r.type.fields = (Field.ofFields fields).map (Field.map Prod.fst) ∧
      r.values = (Field.ofFields fields).map fun f => f.value.2 := by
  let types := fields.map (Field.map Prod.fst)
  refine ⟨⟨((Registry.structType types).outcome g).1, _⟩, rfl, ?_, ?_⟩
  · rw [← Field.ofFields_map]
    exact Registry.fields_intern _ g
  · rw [Field.ofFields_map, List.map_map]
    rfl

theorem Host.wellTyped_structValue {fields : List (Field (Ty × Value))}
    (h : ∀ f ∈ fields, f.value.1.accepts f.value.2 = true ∧ f.value.2.WellTyped) (g : Registry) :
    ((structValue fields).outcome g).1.WellTyped := by
  obtain ⟨r, hr, htypes, hvalues⟩ := outcome_structValue fields g
  rw [hr, RecordValue.value, Value.wellTyped_record, htypes, hvalues, Value.fit_iff_forall₂,
    List.forall₂_map_right_iff, List.forall₂_map_left_iff, List.forall₂_same]
  exact fun f hf => h f (Field.mem_of_mem_ofFields hf)

theorem Ty.plainName?_eq_some {ty : Ty} {p : Primitive} :
    ty.plainName? = some p.name ↔ ty = .primitive p := by
  constructor
  · intro h
    cases ty with
    | record owner id fields => simp [plainName?] at h
    | named name args =>
      cases args with
      | cons a args => simp [plainName?] at h
      | nil =>
        obtain rfl := Option.some.inj h
        rfl
  · rintro rfl
    rfl

theorem Ty.primitive_injective {p q : Primitive} (h : Ty.primitive p = .primitive q) : p = q :=
  Primitive.name_injective (Ty.named.inj h).1

/-- A scalar is itself at its own type. An integer that a double is equal to is that double at the
type of doubles. -/
theorem Scalar.at?_eq_some {s : Scalar} {ty : Ty} {v : Value} :
    s.at? ty = some v ↔ (ty = .primitive s.primitive ∧ v = .scalar s) ∨
      ∃ i : Int64, s = .int i ∧ ty = .primitive .double ∧ i.toInt.natAbs ≤ exactDoubles ∧
        v = .scalar (.float (.ofInt i.toInt)) := by
  unfold at?
  split
  · next ha =>
    obtain rfl : .primitive s.primitive = ty := Ty.accepts_iff.1 ha
    constructor
    · intro h
      exact .inl ⟨rfl, (Option.some.inj h).symm⟩
    · rintro (⟨-, rfl⟩ | ⟨i, rfl, hty, -⟩)
      · rfl
      · exact absurd (Ty.primitive_injective hty) nofun
  · next ha =>
    have hne : ty ≠ .primitive s.primitive := fun he => ha (Ty.accepts_iff.2 he.symm)
    cases s with
    | int i =>
      simp only [Ty.plainName?_eq_some, hne, false_and, false_or, Scalar.int.injEq]
      constructor
      · intro h
        split at h
        · next hi => exact ⟨i, rfl, hi.1, hi.2, (Option.some.inj h).symm⟩
        · cases h
      · rintro ⟨_, rfl, hty, hle, rfl⟩
        rw [if_pos ⟨hty, hle⟩]
    | _ => simp [hne]

theorem Scalar.typeOf_of_at? {s : Scalar} {ty : Ty} {v : Value} (h : s.at? ty = some v) :
    v.WellTyped ∧ v.typeOf = ty := by
  rcases at?_eq_some.1 h with ⟨rfl, rfl⟩ | ⟨i, -, rfl, -, rfl⟩
  · exact ⟨trivial, rfl⟩
  · exact ⟨trivial, rfl⟩

namespace Expr

open Elaboration

/-- What the elaborator finds is well-typed, and of the expected type if there is one. -/
def Elaborator.Typed (elaborate : Elaborator) : Prop :=
  ∀ ⦃expected path g v g'⦄, (elaborate expected path).outcome g = (.ok v, g') →
    v.WellTyped ∧ ∀ ty, expected = some ty → v.typeOf = ty

theorem wellTyped_of_inferred {ys : List (Field Elaborator)} {path : Path} {r : RecordValue}
    {g g' : Registry} (hys : ∀ y ∈ ys, y.value.Typed)
    (h : (inferred ys path).outcome g = (.ok r, g')) : r.value.WellTyped := by
  obtain ⟨values, g₁, hvalues, hr⟩ := outcome_bind_ok.1 h
  have hwell : ∀ v ∈ values, v.value.WellTyped := forall_of_mapM
    (fun y hy _ _ _ hv => (hys y hy (outcome_traverse.1 hv).2).1) hvalues
  obtain ⟨rfl, -⟩ : ((RecordValue.ofCanonical values).outcome g₁).1 = r ∧ _ := by simpa using hr
  exact RecordValue.wellTyped_ofCanonical hwell g₁

theorem fit_of_checkedValues {ys : List (Field Elaborator)} {types : List (Field Ty)}
    {path : Path} {values : List Value} {g g' : Registry} (hys : ∀ y ∈ ys, y.value.Typed)
    (hn : types.map Field.name = ys.map Field.name)
    (h : (checkedValues path ys types).outcome g = (.ok values, g')) :
    Value.Fit types values := by
  induction ys generalizing types values g with
  | nil =>
    obtain rfl : types = [] := by simpa using hn
    obtain ⟨rfl, -⟩ : [] = values ∧ g = g' := by simpa [checkedValues] using h
    exact (Value.fit_nil []).2 rfl
  | cons y ys ih =>
    cases types with
    | nil => simp at hn
    | cons declared types =>
      obtain ⟨v, g₁, hv, hrest⟩ := outcome_bind_ok.1 h
      obtain ⟨vs, g₂, hvs, hp⟩ := outcome_bind_ok.1 hrest
      obtain ⟨rfl, rfl⟩ : v :: vs = values ∧ g₂ = g' := by simpa using hp
      obtain ⟨hwell, htype⟩ := hys y List.mem_cons_self hv
      have hfit : Value.Fit types vs :=
        ih (fun z hz => hys z (List.mem_cons_of_mem y hz)) (List.cons.inj hn).2 hvs
      exact ⟨Ty.accepts_iff.2 (htype _ rfl), hwell, hfit⟩

theorem typed_recordValue {fields : List (FieldExpr Elaborator)} {span : Span}
    {expected : Option Ty} {path : Path} {r : RecordValue} {g g' : Registry}
    (hfields : ∀ f ∈ fields, f.item.Typed)
    (h : (recordValue fields span expected path).outcome g = (.ok r, g')) :
    r.value.WellTyped ∧ ∀ ty, expected = some ty → r.type.ty = ty := by
  cases hc : FieldExpr.canonicalize fields with
  | error clash =>
    rw [recordValue_of_clash hc] at h
    simp [outcome] at h
  | ok ys =>
    have hys : ∀ y ∈ ys, y.value.Typed := by
      intro y hy
      obtain ⟨f, hf, rfl⟩ := FieldExpr.exists_of_mem_canonicalize hc hy
      exact hfields f hf
    cases expected with
    | none =>
      rw [recordValue_of_canonicalize hc] at h
      exact ⟨wellTyped_of_inferred hys h, fun ty hty => by cases hty⟩
    | some ty =>
      obtain ⟨rfl, hn, hvalues⟩ := (outcome_recordValue_ok_iff hc).1 h
      exact ⟨fit_of_checkedValues hys hn hvalues, fun ty hty => Option.some.inj hty⟩

theorem typed_elaborate (e : Expr) : Elaborator.Typed e.elaborate := by
  induction e using Expr.induction with
  | scalar s span =>
    intro expected path g v g' h
    obtain ⟨hs, -⟩ := outcome_ofExcept_ok.1 h
    cases expected with
    | none =>
      obtain rfl : .scalar s = v := Except.ok.inj hs
      exact ⟨trivial, nofun⟩
    | some ty =>
      rw [Scalar.elaborate] at hs
      split at hs
      · next hat =>
        obtain rfl := Except.ok.inj hs
        obtain ⟨hwell, htype⟩ := Scalar.typeOf_of_at? hat
        exact ⟨hwell, fun ty' hty => htype.trans (Option.some.inj hty)⟩
      · cases hs
  | record fields span ih =>
    intro expected path g v g' h
    rw [elaborate, elaborateFields_eq_map] at h
    obtain ⟨r, g₁, hr, hp⟩ := outcome_bind_ok.1 h
    obtain ⟨rfl, -⟩ : r.value = v ∧ g₁ = g' := by simpa using hp
    refine typed_recordValue (fun f hf => ?_) hr
    obtain ⟨x, hx, rfl⟩ := List.mem_map.1 hf
    exact ih x hx

theorem typed_elaborateRecord {l : RecordExpr Expr} {expected : Option RecordType}
    {r : RecordValue} {g g' : Registry}
    (h : (elaborateRecord l expected).outcome g = (.ok r, g')) :
    r.value.WellTyped ∧ ∀ type, expected = some type → r.type = type := by
  rw [elaborateRecord, elaborateFields_eq_map] at h
  obtain ⟨hwell, htype⟩ := typed_recordValue (fun f hf => by
    obtain ⟨x, -, rfl⟩ := List.mem_map.1 hf
    exact typed_elaborate x.item) h
  refine ⟨hwell, fun type hexpected => RecordType.ty_injective (htype type.ty ?_)⟩
  rw [hexpected, Option.map_some]

end Expr

end RecordLens
