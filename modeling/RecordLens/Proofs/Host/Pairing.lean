import RecordLens.Proofs.Field.Repeats
import RecordLens.Proofs.Value.Typing

/-! Records of structures. The types and the values of the fields are put in canonical order apart
from each other, and both keep the first field of each name. So each value stands where its type
does, and the type is the one that the types alone make. -/

namespace RecordLens

namespace Host

/-- The record has one field for each name, in canonical order, with the type and the value of the
first field of that name: what a stable sort by name gives of the fields, where of neighbours with
one name all but the first are dropped. -/
structure Stores (fields : List (Field (Ty × Value))) (r : RecordValue) : Prop where
  ascending : Field.Ascending r.type.fields
  names : ∀ n, n ∈ r.type.fields.map Field.name ↔ n ∈ fields.map Field.name
  length_eq : r.values.length = r.type.fields.length
  first : ∀ i < r.type.fields.length, ∃ f, Field.first? f.name fields = some f ∧
    r.type.fields[i]? = some (f.map Prod.fst) ∧ r.values[i]? = some f.value.2
  sorted : r.type.fields = (Field.dropRepeats (Field.sorted fields)).map (Field.map Prod.fst) ∧
    r.values = (Field.dropRepeats (Field.sorted fields)).map fun f => f.value.2

theorem stores_ofFields {fields : List (Field (Ty × Value))} {r : RecordValue}
    (htypes : r.type.fields = (Field.ofFields fields).map (Field.map Prod.fst))
    (hvalues : r.values = (Field.ofFields fields).map fun f => f.value.2) : Stores fields r := by
  have hasc : Field.Ascending (Field.ofFields fields) := Field.ascending_ofFields fields
  constructor
  · rw [htypes]
    exact hasc.map Prod.fst
  · intro n
    rw [htypes, Field.names_map, Field.mem_names_ofFields]
  · rw [htypes, hvalues, List.length_map, List.length_map]
  · intro i hi
    rw [htypes, List.length_map] at hi
    let f := (Field.ofFields fields)[i]
    have hf : (Field.ofFields fields)[i]? = some f := List.getElem?_eq_getElem hi
    refine ⟨f, ?_, ?_, ?_⟩
    · rw [← Field.first?_ofFields, hasc.first?_eq_some_iff]
      exact List.mem_of_getElem? hf
    · rw [htypes, List.getElem?_map, hf, Option.map_some]
    · rw [hvalues, List.getElem?_map, hf, Option.map_some]
  · rw [htypes, hvalues, Field.ofFields_eq_dropRepeats_sorted]
    exact ⟨rfl, rfl⟩

/-- Whatever fields are given and in whatever order, the record stores the first field of each name.
Its type is the record type of the names and types, which a registry that has built the record
gives again, as it builds the record again. -/
theorem structValue_stores (fields : List (Field (Ty × Value))) (g : Registry) :
    ∃ (r : RecordValue) (g₁ : Registry), Stores fields r ∧
      (structValue fields).outcome g = (r.value, g₁) ∧
      (Registry.structType (fields.map (Field.map Prod.fst))).outcome g = (r.type, g₁) ∧
      ∀ g', g₁.Grows g' →
        (structValue fields).outcome g' = (r.value, g') ∧
        (Registry.structType (fields.map (Field.map Prod.fst))).outcome g' = (r.type, g') := by
  let types := fields.map (Field.map Prod.fst)
  obtain ⟨r, hr, htypes, hvalues⟩ := outcome_structValue fields g
  have htype : ((Registry.structType types).outcome g).1 = r.type := (Value.record.inj hr).1
  have hvalue := (Value.record.inj hr).2
  refine ⟨r, ((Registry.structType types).outcome g).2, stores_ofFields htypes hvalues,
    Prod.ext hr rfl, Prod.ext htype rfl, fun g' hg => ?_⟩
  have hagain : (Registry.structType types).outcome g' = (r.type, g') := by
    rw [Registry.structType_again hg, ← htype]
  refine ⟨?_, hagain⟩
  simp only [structValue, Interning.outcome_bind, Interning.outcome_pure, hagain, hvalue,
    RecordValue.value, types]

def repeating : List (Field (Ty × Value)) :=
  [⟨.label "b", .primitive .int, .scalar (.int 1)⟩,
    ⟨.position 2, .primitive .bool, .scalar (.bool true)⟩,
    ⟨.label "b", .primitive .char, .scalar (.char 'x')⟩,
    ⟨.label "a", .primitive .bool, .scalar (.char 'y')⟩,
    ⟨.position 2, .primitive .int, .scalar (.int 2)⟩]

/-- The record is built and its type is asked for where other types have come after it. -/
theorem structValue_stores_repeating :
    ∃ (r : RecordValue) (g : Registry),
      r.type.fields = [⟨.position 2, .primitive .bool⟩, ⟨.label "a", .primitive .bool⟩,
        ⟨.label "b", .primitive .int⟩] ∧
      r.values = [.scalar (.bool true), .scalar (.char 'y'), .scalar (.int 1)] ∧ g.size = 2 ∧
      (structValue repeating).outcome g = (r.value, g) ∧
      (Registry.structType (repeating.map (Field.map Prod.fst))).outcome g = (r.type, g) := by
  obtain ⟨r, g₁, -, hvalue, -, hagain⟩ :=
    structValue_stores repeating (.empty (.registry 0))
  obtain ⟨htype, hvalues⟩ := Value.record.inj (congrArg Prod.fst hvalue)
  have hg₁ : g₁ = ((structValue repeating).outcome (.empty (.registry 0))).2 :=
    (congrArg Prod.snd hvalue).symm
  let g := ((Registry.structType []).outcome g₁).2
  have hgrows : g₁.Grows g := .intern .refl (Field.ascending_ofFields [])
  obtain ⟨hvalueAgain, htypeAgain⟩ := hagain g hgrows
  refine ⟨r, g, ?_, ?_, ?_, hvalueAgain, htypeAgain⟩
  · rw [← htype]
    decide
  · rw [← hvalues]
    rfl
  · subst hg₁
    decide

end Host

end RecordLens
