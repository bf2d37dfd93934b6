import RecordLens.Proofs.Field.Lookup
import RecordLens.Proofs.Value.Typing

/-! Records at any depth of a value. A record is made complete, with one value for each field of its
type, and is searched by the names in its type. -/

namespace RecordLens

namespace Value

mutual

/-- The records in the value, itself included if it is one. -/
def records : Value → List RecordValue
  | .scalar _ => []
  | .record type values => ⟨type, values⟩ :: allRecords values

def allRecords : List Value → List RecordValue
  | [] => []
  | v :: rest => records v ++ allRecords rest

end

@[simp] theorem records_scalar (s : Scalar) : (scalar s).records = [] := rfl

@[simp] theorem records_record (type : RecordType) (values : List Value) :
    (record type values).records = ⟨type, values⟩ :: values.flatMap records := by
  have h : allRecords values = values.flatMap records := by
    induction values with
    | nil => rfl
    | cons v rest ih => rw [allRecords, List.flatMap_cons, ih]
  rw [records, h]

theorem wellTyped_of_mem_records {v : Value} {r : RecordValue} (h : v.WellTyped)
    (hr : r ∈ v.records) : r.value.WellTyped ∧ r.type ∈ v.handles := by
  induction v using Value.induction with
  | scalar s => simp at hr
  | record type values ih =>
    rw [records_record] at hr
    rw [handles_record]
    rcases List.mem_cons.1 hr with rfl | hr
    · exact ⟨h, by simp [Ty.handles_ty]⟩
    · obtain ⟨v, hv, hrv⟩ := List.mem_flatMap.1 hr
      obtain ⟨hwell, htype⟩ := ih v hv (Fit.wellTyped_of_mem h hv) hrv
      exact ⟨hwell, List.mem_append_right _ (List.mem_flatMap_of_mem hv htype)⟩

end Value

namespace RecordValue

/-- There is a value for each field of the type. -/
def Complete (r : RecordValue) : Prop := r.values.length = r.type.fields.length

instance (r : RecordValue) : Decidable r.Complete := inferInstanceAs (Decidable (_ = _))

/-- What a name finds is stored where the field of the name stands. -/
theorem get?_eq_some_iff {r : RecordValue} (h : Field.Ascending r.type.fields)
    {name : FieldName} {w : Value} :
    r.get? name = some w ↔
      ∃ (i : Nat) (f : Field Ty), r.type.fields[i]? = some f ∧ f.name = name ∧
        r.values[i]? = some w := by
  rw [get?, RecordType.index?, Option.bind_eq_some_iff]
  constructor
  · rintro ⟨i, hi, hw⟩
    obtain ⟨f, hf, hname⟩ := (Field.index?_eq_some_iff h).1 hi
    exact ⟨i, f, hf, hname, hw⟩
  · rintro ⟨i, f, hf, hname, hw⟩
    exact ⟨i, (Field.index?_eq_some_iff h).2 ⟨f, hf, hname⟩, hw⟩

theorem mem_fields_of_get? {r : RecordValue} (h : Field.Ascending r.type.fields)
    {name : FieldName} {w : Value} (hw : r.get? name = some w) : ⟨name, w⟩ ∈ r.fields := by
  obtain ⟨i, f, hf, rfl, hvalue⟩ := (get?_eq_some_iff h).1 hw
  apply List.mem_of_getElem? (i := i)
  rw [fields, List.getElem?_zipWith_eq_some]
  exact ⟨f.name, w, by rw [RecordType.names, List.getElem?_map, hf]; rfl, hvalue, rfl⟩

theorem get?_of_mem {α : Type} {p : α → Ty} {q : α → Value} {ys : List (Field α)} {r : RecordValue}
    (ha : Field.Ascending ys) (htypes : r.type.fields = ys.map (Field.map p))
    (hvalues : r.values = ys.map fun y => q y.value) {y : Field α} (hy : y ∈ ys) :
    r.get? y.name = some (q y.value) := by
  obtain ⟨i, hi⟩ := List.mem_iff_getElem?.1 hy
  have hasc : Field.Ascending r.type.fields := htypes ▸ ha.map p
  refine (get?_eq_some_iff hasc).2 ⟨i, y.map p, ?_, rfl, ?_⟩
  · rw [htypes, List.getElem?_map, hi]
    rfl
  · rw [hvalues, List.getElem?_map, hi]
    rfl

theorem get?_eq_none_iff {r : RecordValue} (h : Field.Ascending r.type.fields) (hc : r.Complete)
    {name : FieldName} : r.get? name = none ↔ name ∉ r.type.names := by
  rw [RecordType.names, ← Field.index?_eq_none_iff h, get?, Option.bind_eq_none_iff]
  constructor
  · intro hnone
    refine Option.eq_none_iff_forall_ne_some.2 fun i hi => ?_
    obtain ⟨f, hf, -⟩ := (Field.index?_eq_some_iff h).1 hi
    have hlt : i < r.values.length := hc ▸ (List.getElem?_eq_some_iff.1 hf).1
    have hget := hnone i hi
    rw [List.getElem?_eq_getElem hlt] at hget
    cases hget
  · intro hnone i hi
    rw [RecordType.index?, hnone] at hi
    cases hi

theorem complete_of_wellTyped {r : RecordValue} (h : r.value.WellTyped) : r.Complete :=
  Value.Fit.length_eq h

theorem complete_ofCanonical (fields : List (Field Value)) (g : Registry) :
    ((ofCanonical fields).outcome g).1.Complete := by
  obtain ⟨htypes, hvalues⟩ := outcome_ofCanonical fields g
  rw [Complete, htypes, hvalues, List.length_map, List.length_map]

end RecordValue

theorem Host.complete_structValue (fields : List (Field (Ty × Value))) (g : Registry) :
    ∃ r : RecordValue, ((Host.structValue fields).outcome g).1 = r.value ∧ r.Complete := by
  obtain ⟨r, hr, htypes, hvalues⟩ := outcome_structValue fields g
  exact ⟨r, hr, by rw [RecordValue.Complete, htypes, hvalues, List.length_map, List.length_map]⟩

namespace Expr

open Elaboration

theorem length_checkedValues {ys : List (Field Elaborator)} {types : List (Field Ty)} {path : Path}
    {values : List Value} {g g' : Registry} (hlength : types.length = ys.length)
    (h : (checkedValues path ys types).outcome g = (.ok values, g')) :
    values.length = types.length := by
  induction ys generalizing types values g with
  | nil =>
    obtain rfl : types = [] := List.length_eq_zero_iff.1 hlength
    obtain ⟨rfl, -⟩ : [] = values ∧ g = g' := by simpa [checkedValues] using h
    rfl
  | cons y ys ih =>
    cases types with
    | nil => cases hlength
    | cons declared types =>
      obtain ⟨v, g₁, -, hrest⟩ := outcome_bind_ok.1 h
      obtain ⟨vs, g₂, hvs, hp⟩ := outcome_bind_ok.1 hrest
      obtain ⟨rfl, rfl⟩ : v :: vs = values ∧ g₂ = g' := by simpa using hp
      rw [List.length_cons, ih (Nat.succ.inj hlength) hvs, List.length_cons]

/-- Whatever elaborates the fields, the record that comes out is complete. -/
theorem complete_recordValue {fields : List (FieldExpr Elaborator)} {span : Span}
    {expected : Option Ty} {path : Path} {r : RecordValue} {g g' : Registry}
    (h : (recordValue fields span expected path).outcome g = (.ok r, g')) : r.Complete := by
  cases hc : FieldExpr.canonicalize fields with
  | error clash =>
    rw [recordValue_of_clash hc] at h
    simp [outcome] at h
  | ok ys =>
    cases expected with
    | none =>
      rw [recordValue_of_canonicalize hc] at h
      obtain ⟨values, g₁, -, hr⟩ := outcome_bind_ok.1 h
      obtain ⟨rfl, -⟩ : ((RecordValue.ofCanonical values).outcome g₁).1 = r ∧ _ := by
        simpa using hr
      exact RecordValue.complete_ofCanonical values g₁
    | some ty =>
      obtain ⟨-, hn, hvalues⟩ := (outcome_recordValue_ok_iff hc).1 h
      have hlength : r.type.fields.length = ys.length := by
        simpa [RecordType.names] using congrArg List.length hn
      exact length_checkedValues hlength hvalues

end Expr

end RecordLens
