import RecordLens.Field.Canonical

/-! Looking up fields by name. In a canonical list the search finds the one field of the name, and
it finds nothing only where there is none. -/

namespace RecordLens.Field

variable {α : Type}

theorem Ascending.name_lt_iff {fields : List (Field α)} (h : Ascending fields) {i j : Nat}
    {f g : Field α} (hi : fields[i]? = some f) (hj : fields[j]? = some g) :
    f.name < g.name ↔ i < j := by
  have hlt {i j : Nat} {f g : Field α} (hi : fields[i]? = some f) (hj : fields[j]? = some g)
      (hij : i < j) : f.name < g.name := by
    obtain ⟨hilt, rfl⟩ := List.getElem?_eq_some_iff.1 hi
    obtain ⟨hjlt, rfl⟩ := List.getElem?_eq_some_iff.1 hj
    exact List.pairwise_iff_getElem.1 h i j hilt hjlt hij
  refine ⟨fun hname => ?_, hlt hi hj⟩
  rcases Nat.lt_trichotomy i j with hij | rfl | hji
  · exact hij
  · obtain rfl := Option.some.inj (hi.symm.trans hj)
    exact absurd hname (FieldName.lt_irrefl _)
  · exact absurd hname (FieldName.lt_asymm (hlt hj hi hji))

/-- The search ends at the field of the name if it begins with fields of which that is one. -/
theorem narrow_eq {fields : List (Field α)} (h : Ascending fields) {i : Nat} {f : Field α}
    (hi : fields[i]? = some f) {base size : Nat} (hbase : base ≤ i) (hsize : i < base + size)
    (hlength : base + size ≤ fields.length) : narrow f.name fields base size = i := by
  -- of the fields that are left `f` is always one
  fun_induction narrow f.name fields base size with
  | case1 base size hone => omega
  | case2 base size hmany half middle hlater ih =>
    have hmiddle : middle < fields.length := by omega
    have hlt : i < middle := by
      rw [List.getElem?_eq_getElem hmiddle, Option.any_some, decide_eq_true_eq] at hlater
      exact (h.name_lt_iff hi (List.getElem?_eq_getElem hmiddle)).1 hlater
    exact ih hbase (by omega) (by omega)
  | case3 base size hmany half middle hlater ih =>
    have hmiddle : middle < fields.length := by omega
    have hle : middle ≤ i := by
      rw [List.getElem?_eq_getElem hmiddle, Option.any_some, decide_eq_true_eq,
        h.name_lt_iff hi (List.getElem?_eq_getElem hmiddle)] at hlater
      exact Nat.le_of_not_lt hlater
    exact ih hle (by omega) (by omega)

/-- What the search finds has the name, in whatever order the fields stand. -/
theorem exists_of_index? {name : FieldName} {fields : List (Field α)} {i : Nat}
    (h : index? name fields = some i) : ∃ f, fields[i]? = some f ∧ f.name = name := by
  rw [index?] at h
  split at h
  · next hany =>
    obtain rfl := Option.some.inj h
    obtain ⟨f, hf, hname⟩ := (Option.any_eq_true _ _).1 hany
    exact ⟨f, hf, of_decide_eq_true hname⟩
  · cases h

theorem index?_eq_some_iff {fields : List (Field α)} (h : Ascending fields) {name : FieldName}
    {i : Nat} : index? name fields = some i ↔ ∃ f, fields[i]? = some f ∧ f.name = name := by
  refine ⟨exists_of_index?, ?_⟩
  rintro ⟨f, hi, rfl⟩
  have hlt : i < 0 + fields.length := by
    rw [Nat.zero_add]
    exact (List.getElem?_eq_some_iff.1 hi).1
  have hend : narrow f.name fields 0 fields.length = i :=
    narrow_eq h hi (Nat.zero_le i) hlt (by omega)
  rw [index?, hend, hi]
  simp

theorem index?_eq_none_iff {fields : List (Field α)} (h : Ascending fields) {name : FieldName} :
    index? name fields = none ↔ name ∉ fields.map Field.name := by
  rw [Option.eq_none_iff_forall_ne_some, List.mem_map]
  constructor
  · rintro hnone ⟨f, hf, hname⟩
    obtain ⟨i, hi⟩ := List.mem_iff_getElem?.1 hf
    exact hnone i ((index?_eq_some_iff h).2 ⟨f, hi, hname⟩)
  · intro hnot i hi
    obtain ⟨f, hf, hname⟩ := (index?_eq_some_iff h).1 hi
    exact hnot ⟨f, List.mem_of_getElem? hf, hname⟩

/-- In a canonical list the payload of a name is that of the one field of the name. -/
theorem find?_eq_some_iff {fields : List (Field α)} (h : Ascending fields) {name : FieldName}
    {a : α} : find? name fields = some a ↔ ⟨name, a⟩ ∈ fields := by
  rw [find?, Option.bind_eq_some_iff]
  constructor
  · rintro ⟨i, hindex, hvalue⟩
    obtain ⟨f, hf, rfl⟩ := exists_of_index? hindex
    obtain rfl : f.value = a := by simpa [hf] using hvalue
    exact List.mem_of_getElem? hf
  · intro hmem
    obtain ⟨i, hi⟩ := List.mem_iff_getElem?.1 hmem
    exact ⟨i, (index?_eq_some_iff h).2 ⟨_, hi, rfl⟩, by rw [hi]; rfl⟩

end RecordLens.Field
