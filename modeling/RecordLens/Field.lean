import RecordLens.Text.Join

/-! Names of record fields, fields, and paths through nested records. -/

namespace RecordLens

/-- The name of a field: a position counted from one in a tuple, a label elsewhere. -/
inductive FieldName where
  | position (n : Nat)
  | label (s : String)
  deriving DecidableEq, Repr, Inhabited

namespace FieldName

def text : FieldName → String
  | .position n => toString n
  | .label s => s

def isPosition : FieldName → Bool
  | .position _ => true
  | .label _ => false

/-- Positions come before labels, positions in numeric order, labels by code points. -/
def precedes : FieldName → FieldName → Bool
  | .position m, .position n => decide (m < n)
  | .position _, .label _ => true
  | .label _, .position _ => false
  | .label s, .label t => decide (s < t)

instance : LT FieldName := ⟨fun a b => a.precedes b = true⟩

instance (a b : FieldName) : Decidable (a < b) := inferInstanceAs (Decidable (_ = _))

theorem lt_def {a b : FieldName} : a < b ↔ a.precedes b = true := Iff.rfl

theorem lt_irrefl (a : FieldName) : ¬a < a := by
  cases a <;> simp [lt_def, precedes]

theorem lt_trans {a b c : FieldName} (hab : a < b) (hbc : b < c) : a < c := by
  rw [lt_def] at *
  cases a <;> cases b <;> cases c <;> simp only [precedes, decide_eq_true_eq] at * <;>
    first | contradiction | rfl | exact Nat.lt_trans hab hbc | exact String.lt_trans hab hbc

theorem lt_asymm {a b : FieldName} (hab : a < b) : ¬b < a :=
  fun hba => lt_irrefl a (lt_trans hab hba)

theorem ne_of_lt {a b : FieldName} (h : a < b) : a ≠ b :=
  fun he => lt_irrefl b (he ▸ h)

theorem lt_of_not_lt_of_ne {a b : FieldName} (h : ¬a < b) (hne : a ≠ b) : b < a := by
  cases a with
  | position m =>
    cases b with
    | position n =>
      simp only [lt_def, precedes, decide_eq_true_eq, ne_eq, position.injEq] at *
      omega
    | label t => simp [lt_def, precedes] at h
  | label s =>
    cases b with
    | position n => rfl
    | label t =>
      simp only [lt_def, precedes, decide_eq_true_eq, ne_eq, label.injEq] at *
      rcases Std.lt_trichotomy s t with hlt | he | hgt
      · exact absurd hlt h
      · exact absurd he hne
      · exact hgt

end FieldName

structure Field (α : Type) where
  name : FieldName
  value : α
  deriving DecidableEq, Repr

namespace Field

variable {α β : Type}

def map (f : α → β) (x : Field α) : Field β := ⟨x.name, f x.value⟩

@[simp] theorem map_name (f : α → β) (x : Field α) : (x.map f).name = x.name := rfl
@[simp] theorem map_value (f : α → β) (x : Field α) : (x.map f).value = f x.value := rfl

/-- Replaces the payload by a step that may fail or keep a state. -/
def traverse {m : Type → Type} [Monad m] (f : FieldName → α → m β) (x : Field α) : m (Field β) := do
  return ⟨x.name, ← f x.name x.value⟩

/-- Elements as the fields of a tuple, from position `first` on. -/
def positions (first : Nat) : List α → List (Field α)
  | [] => []
  | x :: xs => ⟨.position first, x⟩ :: positions (first + 1) xs

/-- Halves the `size` fields from `base` on, going by the name in the middle, until one is left, and
gives its place. -/
@[semireducible]
def narrow (name : FieldName) (fields : List (Field α)) (base size : Nat) : Nat :=
  if size ≤ 1 then base
  else
    let half := size / 2
    let middle := base + half
    if fields[middle]?.any fun f => name < f.name then narrow name fields base (size - half)
    else narrow name fields middle (size - half)
termination_by size

/-- Where the field of a name stands in a list in ascending order of names. -/
def index? (name : FieldName) (fields : List (Field α)) : Option Nat :=
  let i := narrow name fields 0 fields.length
  if fields[i]?.any fun f => f.name = name then some i else none

def find? (name : FieldName) (fields : List (Field α)) : Option α :=
  (index? name fields).bind fun i => fields[i]?.map value

end Field

abbrev Path := List FieldName

def Path.text (p : Path) : String := Text.joined "." (p.map FieldName.text)

end RecordLens
