import RecordLens.Proofs.Ty.Shape
import RecordLens.Proofs.Value.WellTyped

/-! Literals that denote a value. Where the record types of a value are entries of the registry, a
literal whose fields denote the stored values denotes the record, with or without its type being
expected, and the registry stays as it is. -/

namespace RecordLens

namespace Value

inductive Within (g : Registry) : Value → Prop
  | scalar (s : Scalar) : Within g (.scalar s)
  | record {type : RecordType} {values : List Value} (hr : g.Holds type)
      (h : ∀ v ∈ values, Within g v) : Within g (.record type values)

theorem Within.holds {g : Registry} {type : RecordType} {values : List Value}
    (h : (Value.record type values).Within g) : g.Holds type := by
  cases h with
  | record hr _ => exact hr

theorem Within.of_mem {g : Registry} {type : RecordType} {values : List Value} {v : Value}
    (h : (Value.record type values).Within g) (hv : v ∈ values) : v.Within g := by
  cases h with
  | record _ h => exact h v hv

theorem Fit.fields {types : List (Field Ty)} {values : List Value} (h : Fit types values) :
    ((types.map Field.name).zipWith Field.mk values).map Field.value = values ∧
      ((types.map Field.name).zipWith Field.mk values).map (Field.map typeOf) = types := by
  induction types generalizing values with
  | nil => simp [(fit_nil values).1 h]
  | cons f types ih =>
    cases values with
    | nil => exact absurd h (fit_cons_nil f types)
    | cons v values =>
      obtain ⟨hv, -, hrest⟩ := h
      obtain ⟨hvalues, htypes⟩ := ih hrest
      have ht : v.typeOf = f.value := Ty.accepts_iff.1 hv
      simp [hvalues, htypes, Field.map, ht]

end Value

namespace RecordValue

variable {r : RecordValue}

theorem map_value_fields (h : r.value.WellTyped) : r.fields.map Field.value = r.values :=
  (Value.Fit.fields h).1

theorem map_typeOf_fields (h : r.value.WellTyped) :
    r.fields.map (Field.map Value.typeOf) = r.type.fields := (Value.Fit.fields h).2

theorem names_fields (h : r.value.WellTyped) : r.fields.map Field.name = r.type.names := by
  have hn := congrArg (List.map Field.name) (map_typeOf_fields h)
  simpa [RecordType.names, Function.comp_def] using hn

theorem ofCanonical_fields {g : Registry} (hv : g.Valid) (hr : g.Holds r.type)
    (h : r.value.WellTyped) : (ofCanonical r.fields).outcome g = (r, g) := by
  have hintern : (Registry.intern (r.fields.map (Field.map Value.typeOf))).outcome g =
      (r.type, g) := by
    rw [map_typeOf_fields h]
    exact Registry.intern_of_holds hv hr
  have hrun : (ofCanonical r.fields).outcome g =
      (⟨((Registry.intern (r.fields.map (Field.map Value.typeOf))).outcome g).1,
        r.fields.map Field.value⟩,
        ((Registry.intern (r.fields.map (Field.map Value.typeOf))).outcome g).2) := rfl
  rw [hrun, hintern, map_value_fields h]

end RecordValue

namespace Expr

open Elaboration

/-- The value is found, whether or not its type is expected, and nothing is entered for it. -/
def Elaborator.Finds (elaborate : Elaborator) (g : Registry) (v : Value) : Prop :=
  ∀ path, (elaborate none path).outcome g = (.ok v, g) ∧
    (elaborate (some v.typeOf) path).outcome g = (.ok v, g)

/-- The expression denotes the value. -/
def Denotes (e : Expr) (g : Registry) (v : Value) : Prop := Elaborator.Finds e.elaborate g v

theorem denotes_scalar (s : Scalar) (span : Span) (g : Registry) :
    (scalar s span).Denotes g (.scalar s) := by
  intro path
  have hat : s.at? (Value.scalar s).typeOf = some (.scalar s) := by
    unfold Scalar.at?
    rw [if_pos (Ty.accepts_iff.2 rfl)]
  refine ⟨rfl, ?_⟩
  rw [elaborate, Scalar.elaborate, hat]
  rfl

theorem outcome_inferred {g : Registry} (hv : g.Valid) {r : RecordValue} (hr : g.Holds r.type)
    (hw : r.value.WellTyped) {fields : List (Field Elaborator)} (path : Path)
    (h : List.Forall₂ (fun f y => y.name = f.name ∧ y.value.Finds g f.value) r.fields fields) :
    (inferred fields path).outcome g = (.ok r, g) := by
  have hvalues : (fields.mapM (Field.traverse fun name (elaborate : Elaborator) =>
      elaborate none (path ++ [name]))).outcome g = (.ok r.fields, g) := by
    refine mapM_of_forall₂ (h.flip.imp fun y f hyf => ?_)
    exact outcome_traverse.2 ⟨hyf.1.symm, (hyf.2 _).1⟩
  have hrecord := RecordValue.ofCanonical_fields hv hr hw
  exact outcome_bind_ok.2 ⟨r.fields, g, hvalues, by rw [outcome_lift, hrecord]⟩

theorem outcome_checkedValues {g : Registry} {types : List (Field Ty)}
    {values : List (Field Value)} {fields : List (Field Elaborator)} (path : Path)
    (ht : values.map (Field.map Value.typeOf) = types)
    (h : List.Forall₂ (fun f y => y.name = f.name ∧ y.value.Finds g f.value) values fields) :
    (checkedValues path fields types).outcome g = (.ok (values.map Field.value), g) := by
  subst ht
  induction h with
  | nil => rfl
  | @cons f y values fields hy _ ih =>
    have hfirst := (hy.2 (path ++ [y.name])).2
    exact outcome_bind_ok.2 ⟨f.value, g, hfirst, outcome_bind_ok.2 ⟨_, g, ih, rfl⟩⟩

section

variable {fields : List (FieldExpr Elaborator)} {ys : List (Field Elaborator)} {g g' : Registry}
  (hc : FieldExpr.canonicalize fields = .ok ys) (span : Span) (path : Path)
include hc

theorem outcome_recordValue_none {r : RecordValue}
    (h : (inferred ys path).outcome g = (.ok r, g')) :
    (recordValue fields span none path).outcome g = (.ok r, g') := by
  rw [recordValue, hc]
  exact outcome_bind_ok.2 ⟨ys, g, rfl, h⟩

theorem outcome_recordValue_some {r : RecordType} (hn : r.names = ys.map Field.name)
    {values : List Value} (h : (checkedValues path ys r.fields).outcome g = (.ok values, g')) :
    (recordValue fields span (some r.ty) path).outcome g = (.ok ⟨r, values⟩, g') := by
  rw [recordValue, hc]
  refine outcome_bind_ok.2 ⟨ys, g, rfl, ?_⟩
  simp only [Ty.recordType?_ty, if_pos hn]
  exact outcome_bind_ok.2 ⟨values, g', h, rfl⟩

end

/-- Fields that in canonical order denote the stored values make a literal that denotes the
record. -/
theorem denotes_of_sorted {g : Registry} (hv : g.Valid) {r : RecordValue} (hr : g.Holds r.type)
    (hw : r.value.WellTyped) {fields : List (FieldExpr Expr)} (span : Span)
    (h : List.Forall₂ (fun f x => x.name = f.name ∧ x.value.Denotes g f.value) r.fields
      (Field.sorted (fields.map FieldExpr.field))) :
    (record ⟨fields, span⟩).Denotes g r.value := by
  let ys := (Field.sorted (fields.map FieldExpr.field)).map (Field.map elaborate)
  have hys : List.Forall₂ (fun f y => y.name = f.name ∧ y.value.Finds g f.value) r.fields ys :=
    List.forall₂_map_right_iff.2 h
  have hnames : ys.map Field.name = r.type.names := by
    rw [← RecordValue.names_fields hw]
    exact Field.names_eq_of_forall₂ hys And.left
  have hn : (fields.map FieldExpr.name).Nodup := by
    rw [← (FieldExpr.names_sorted_perm fields).nodup_iff]
    have hnodup := (hv.ascending_of_holds hr).nodup_names
    rw [← RecordType.names, ← hnames] at hnodup
    simpa [ys, Function.comp_def] using hnodup
  have hc : FieldExpr.canonicalize (elaborateFields fields) = .ok ys := by
    rw [elaborateFields_eq_map, FieldExpr.canonicalize_map elaborate hn]
  intro path
  have hinferred := outcome_inferred hv hr hw path hys
  have hchecked := outcome_checkedValues path (RecordValue.map_typeOf_fields hw) hys
  rw [RecordValue.map_value_fields hw] at hchecked
  constructor
  · rw [elaborate]
    exact outcome_bind_ok.2 ⟨r, g, outcome_recordValue_none hc span path hinferred, rfl⟩
  · show (Expr.elaborate _ (some r.type.ty) path).outcome g = _
    rw [elaborate]
    have hvalue := outcome_recordValue_some hc span path hnames.symm hchecked
    exact outcome_bind_ok.2 ⟨r, g, hvalue, rfl⟩

theorem denotes_record {g : Registry} (hv : g.Valid) {r : RecordValue} (hr : g.Holds r.type)
    (hw : r.value.WellTyped) {fields : List (FieldExpr Expr)} (span : Span)
    (h : List.Forall₂ (fun f x => x.name = f.name ∧ x.item.Denotes g f.value) r.fields fields) :
    (record ⟨fields, span⟩).Denotes g r.value := by
  have hfields : List.Forall₂ (fun f x => x.name = f.name ∧ x.value.Denotes g f.value) r.fields
      (fields.map FieldExpr.field) := List.forall₂_map_right_iff.2 h
  have hnames : (fields.map FieldExpr.field).map Field.name = r.type.names := by
    rw [← RecordValue.names_fields hw]
    exact Field.names_eq_of_forall₂ hfields And.left
  have hasc : Field.Ascending (fields.map FieldExpr.field) :=
    (hv.ascending_of_holds hr).of_names_eq hnames
  exact denotes_of_sorted hv hr hw span (hasc.sorted_eq.symm ▸ hfields)

end Expr

end RecordLens
