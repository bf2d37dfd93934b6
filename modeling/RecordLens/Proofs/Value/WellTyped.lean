import RecordLens.Value

/-! Well-typed values. A record is well-typed if it stores one value per canonical field of its
type, in the same order, each of exactly the declared type and well-typed itself. -/

namespace RecordLens

namespace Value

mutual

def WellTyped : Value → Prop
  | .scalar _ => True
  | .record r values => Fit r.fields values

/-- The values are those of the fields, one for one. -/
def Fit : List (Field Ty) → List Value → Prop
  | [], [] => True
  | f :: fields, v :: values => f.value.accepts v = true ∧ WellTyped v ∧ Fit fields values
  | _, _ => False

end

mutual

def decWellTyped : (v : Value) → Decidable v.WellTyped
  | .scalar _ => .isTrue trivial
  | .record r values => decFit r.fields values

def decFit : (fields : List (Field Ty)) → (values : List Value) → Decidable (Fit fields values)
  | [], [] => .isTrue trivial
  | f :: fields, v :: values =>
    have := decWellTyped v
    have := decFit fields values
    inferInstanceAs (Decidable (f.value.accepts v = true ∧ WellTyped v ∧ Fit fields values))
  | [], _ :: _ => .isFalse id
  | _ :: _, [] => .isFalse id

end

instance (v : Value) : Decidable v.WellTyped := decWellTyped v

instance (fields : List (Field Ty)) (values : List Value) : Decidable (Fit fields values) :=
  decFit fields values

@[simp] theorem wellTyped_scalar (s : Scalar) : (Value.scalar s).WellTyped := trivial

@[simp] theorem wellTyped_record (r : RecordType) (values : List Value) :
    (Value.record r values).WellTyped ↔ Fit r.fields values := Iff.rfl

@[simp] theorem fit_nil (values : List Value) : Fit [] values ↔ values = [] := by
  cases values <;> simp [Fit]

@[simp] theorem fit_cons_nil (f : Field Ty) (fields : List (Field Ty)) : ¬Fit (f :: fields) [] :=
  id

@[simp] theorem fit_cons_cons (f : Field Ty) (fields : List (Field Ty)) (v : Value)
    (values : List Value) :
    Fit (f :: fields) (v :: values) ↔
      f.value.accepts v = true ∧ v.WellTyped ∧ Fit fields values := Iff.rfl

theorem Fit.length_eq {fields : List (Field Ty)} {values : List Value} (h : Fit fields values) :
    values.length = fields.length := by
  induction fields generalizing values with
  | nil => simp [(fit_nil _).1 h]
  | cons f fields ih =>
    cases values with
    | nil => exact absurd h (fit_cons_nil f fields)
    | cons v values => simp [ih h.2.2]

theorem Fit.exists_getElem? {fields : List (Field Ty)} {values : List Value} {i : Nat}
    {f : Field Ty} (h : Fit fields values) (hf : fields[i]? = some f) :
    ∃ v, values[i]? = some v ∧ f.value.accepts v = true ∧ v.WellTyped := by
  induction fields generalizing values i with
  | nil => simp at hf
  | cons g fields ih =>
    cases values with
    | nil => exact absurd h (fit_cons_nil g fields)
    | cons v values =>
      obtain ⟨hv, hw, hrest⟩ := h
      cases i with
      | zero =>
        obtain rfl : g = f := by simpa using hf
        exact ⟨v, rfl, hv, hw⟩
      | succ i => simpa using ih hrest (by simpa using hf)

theorem Fit.exists_of_mem {types : List (Field Ty)} {values : List Value}
    (h : Fit types values) {v : Value} (hv : v ∈ values) :
    ∃ f ∈ types, f.value.accepts v = true ∧ v.WellTyped := by
  obtain ⟨i, hi⟩ := List.mem_iff_getElem?.1 hv
  obtain ⟨hlt, -⟩ := List.getElem?_eq_some_iff.1 hi
  rw [h.length_eq] at hlt
  obtain ⟨w, hw, ha, hwell⟩ := h.exists_getElem? (List.getElem?_eq_getElem hlt)
  obtain rfl : v = w := Option.some.inj (hi.symm.trans hw)
  exact ⟨types[i], List.getElem_mem hlt, ha, hwell⟩

theorem Fit.wellTyped_of_mem {types : List (Field Ty)} {values : List Value}
    (h : Fit types values) {v : Value} (hv : v ∈ values) : v.WellTyped := by
  obtain ⟨_, -, -, hwell⟩ := h.exists_of_mem hv
  exact hwell

theorem Fit.set {fields : List (Field Ty)} {values : List Value} {i : Nat} {f : Field Ty}
    {w : Value} (h : Fit fields values) (hf : fields[i]? = some f)
    (ha : f.value.accepts w = true) (hw : w.WellTyped) : Fit fields (values.set i w) := by
  induction fields generalizing values i with
  | nil => simp at hf
  | cons g fields ih =>
    cases values with
    | nil => exact absurd h (fit_cons_nil g fields)
    | cons v values =>
      obtain ⟨hv, hwv, hrest⟩ := h
      cases i with
      | zero =>
        obtain rfl : g = f := by simpa using hf
        exact ⟨ha, hw, hrest⟩
      | succ i => exact ⟨hv, hwv, ih hrest (by simpa using hf)⟩

theorem eq_record_of_accepts {r : RecordType} {v : Value} (h : r.ty.accepts v = true) :
    ∃ values, v = .record r values := by
  have ht : v.typeOf = r.ty := Ty.accepts_iff.1 h
  cases v with
  | scalar s => simp [typeOf, Ty.primitive, RecordType.ty] at ht
  | record r' values => exact ⟨values, by rw [RecordType.ty_injective ht]⟩

@[simp] theorem accepts_record (r : RecordType) (values : List Value) :
    r.ty.accepts (.record r values) = true := Ty.accepts_iff.2 rfl

end Value

theorem RecordValue.value_injective {a b : RecordValue} (h : a.value = b.value) : a = b :=
  Option.some.inj (congrArg Value.record? h)

end RecordLens
