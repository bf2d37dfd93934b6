import RecordLens.Field
import RecordLens.Scalar

/-! Types. A record type is the handle of a registry entry: it carries the entry's field list and
the mark that tells the entry from all others, so equal record types are handles of one entry, and
entries of two registries have different handles even if their fields agree. -/

namespace RecordLens

/-- The registry that an entry belongs to: one of those in use, or one made for a single message. -/
inductive Owner where
  | registry (number : Nat)
  | scratch
  deriving DecidableEq, Repr

/-- A type: a name, perhaps applied to arguments, or a record type. -/
inductive Ty where
  | named (name : String) (args : List Ty)
  | record (owner : Owner) (id : Nat) (fields : List (Field Ty))

namespace Ty

mutual

def decEq : (a b : Ty) → Decidable (a = b)
  | .named n as, .named m bs =>
    if hn : n = m then
      match decEqArgs as bs with
      | .isTrue h => .isTrue (by rw [hn, h])
      | .isFalse h => .isFalse fun he => h (named.inj he).2
    else .isFalse fun he => hn (named.inj he).1
  | .record o i fs, .record p j gs =>
    if hi : o = p ∧ i = j then
      match decEqFields fs gs with
      | .isTrue h => .isTrue (by rw [hi.1, hi.2, h])
      | .isFalse h => .isFalse fun he => h (record.inj he).2.2
    else .isFalse fun he => hi ⟨(record.inj he).1, (record.inj he).2.1⟩
  | .named .., .record .. => .isFalse nofun
  | .record .., .named .. => .isFalse nofun

def decEqArgs : (as bs : List Ty) → Decidable (as = bs)
  | [], [] => .isTrue rfl
  | a :: as, b :: bs =>
    match decEq a b with
    | .isFalse h => .isFalse fun he => h (List.cons.inj he).1
    | .isTrue h =>
      match decEqArgs as bs with
      | .isTrue hs => .isTrue (by rw [h, hs])
      | .isFalse hs => .isFalse fun he => hs (List.cons.inj he).2
  | [], _ :: _ => .isFalse nofun
  | _ :: _, [] => .isFalse nofun

def decEqFields : (fs gs : List (Field Ty)) → Decidable (fs = gs)
  | [], [] => .isTrue rfl
  | ⟨n, a⟩ :: fs, ⟨m, b⟩ :: gs =>
    if hn : n = m then
      match decEq a b with
      | .isFalse h => .isFalse fun he => h (Field.mk.inj (List.cons.inj he).1).2
      | .isTrue h =>
        match decEqFields fs gs with
        | .isTrue hs => .isTrue (by rw [hn, h, hs])
        | .isFalse hs => .isFalse fun he => hs (List.cons.inj he).2
    else .isFalse fun he => hn (Field.mk.inj (List.cons.inj he).1).1
  | [], _ :: _ => .isFalse nofun
  | _ :: _, [] => .isFalse nofun

end

instance : DecidableEq Ty := decEq

end Ty

/-- The handle of a registry entry. Its fields are in canonical order. -/
structure RecordType where
  owner : Owner
  id : Nat
  fields : List (Field Ty)
  deriving DecidableEq

namespace RecordType

def ty (r : RecordType) : Ty := .record r.owner r.id r.fields

def names (r : RecordType) : List FieldName := r.fields.map Field.name

def index? (r : RecordType) (name : FieldName) : Option Nat := Field.index? name r.fields

def field? (r : RecordType) (name : FieldName) : Option Ty := Field.find? name r.fields

/-- A tuple has fields, all of them named by position. -/
def isTuple (r : RecordType) : Bool := !r.fields.isEmpty && r.names.all FieldName.isPosition

theorem ty_injective {r s : RecordType} (h : r.ty = s.ty) : r = s := by
  obtain ⟨o, i, fs⟩ := r
  obtain ⟨p, j, gs⟩ := s
  obtain ⟨rfl, rfl, rfl⟩ := Ty.record.inj h
  rfl

end RecordType

namespace Ty

def primitive (p : Primitive) : Ty := .named p.name []

/-- The name of a type that has no arguments. -/
def plainName? : Ty → Option String
  | .named name [] => some name
  | _ => none

def recordType? : Ty → Option RecordType
  | .named _ _ => none
  | .record owner id fields => some ⟨owner, id, fields⟩

@[simp] theorem recordType?_ty (r : RecordType) : r.ty.recordType? = some r := rfl

theorem eq_ty_of_recordType? {t : Ty} {r : RecordType} (h : t.recordType? = some r) :
    t = r.ty := by
  cases t with
  | named name args => simp [recordType?] at h
  | record owner id fields =>
    obtain rfl := Option.some.inj h
    rfl

@[simp] theorem plainName?_primitive (p : Primitive) :
    (primitive p).plainName? = some p.name := rfl

end Ty

end RecordLens
