import RecordLens.Proofs.Field.Canonical
import RecordLens.Proofs.Induction
import RecordLens.Proofs.Registry.Operations

/-! Shapes: what is left of a type when handles are forgotten, and of a type expression when places
and the order of fields are. In one registry a shape belongs to one type. -/

namespace RecordLens

/-- A type without handles and places. -/
inductive Shape where
  | named (name : String) (args : List Shape)
  | record (fields : List (Field Shape))

namespace Ty

mutual

def shape : Ty → Shape
  | .named name args => .named name (argShapes args)
  | .record _ _ fields => .record (fieldShapes fields)

def argShapes : List Ty → List Shape
  | [] => []
  | arg :: rest => shape arg :: argShapes rest

def fieldShapes : List (Field Ty) → List (Field Shape)
  | [] => []
  | ⟨name, ty⟩ :: rest => ⟨name, shape ty⟩ :: fieldShapes rest

end

@[simp] theorem shape_named (name : String) (args : List Ty) :
    (named name args).shape = .named name (args.map shape) := by
  have h : argShapes args = args.map shape := by
    induction args with
    | nil => rfl
    | cons arg rest ih => rw [argShapes, List.map_cons, ih]
  rw [shape, h]

@[simp] theorem shape_record (owner : Owner) (id : Nat) (fields : List (Field Ty)) :
    (record owner id fields).shape = .record (fields.map (Field.map shape)) := by
  have h : fieldShapes fields = fields.map (Field.map shape) := by
    induction fields with
    | nil => rfl
    | cons f rest ih => rw [fieldShapes, List.map_cons, ih]; rfl
  rw [shape, h]

end Ty

namespace TypeExpr

mutual

/-- The shape that is written. Fields are put in the order of their names, at every depth. -/
def shape : TypeExpr → Shape
  | .named name args _ => .named name (argShapes args)
  | .record ⟨fields, _⟩ => .record (Field.sorted (fieldShapes fields))

def argShapes : List TypeExpr → List Shape
  | [] => []
  | arg :: rest => shape arg :: argShapes rest

def fieldShapes : List (FieldExpr TypeExpr) → List (Field Shape)
  | [] => []
  | ⟨name, _, item⟩ :: rest => ⟨name, shape item⟩ :: fieldShapes rest

end

@[simp] theorem shape_named (name : String) (args : List TypeExpr) (span : Span) :
    (named name args span).shape = .named name (args.map shape) := by
  have h : argShapes args = args.map shape := by
    induction args with
    | nil => rfl
    | cons arg rest ih => rw [argShapes, List.map_cons, ih]
  rw [shape, h]

@[simp] theorem shape_record (fields : List (FieldExpr TypeExpr)) (span : Span) :
    (record ⟨fields, span⟩).shape =
      .record ((Field.sorted (fields.map FieldExpr.field)).map (Field.map shape)) := by
  have h : fieldShapes fields = (fields.map FieldExpr.field).map (Field.map shape) := by
    induction fields with
    | nil => rfl
    | cons f rest ih => rw [fieldShapes, List.map_cons, List.map_cons, ih]; rfl
  rw [shape, h, Field.sorted_map]

end TypeExpr

/-- Every record type in the type is an entry of the registry. -/
inductive Ty.Within (g : Registry) : Ty → Prop
  | named {name : String} {args : List Ty} (h : ∀ a ∈ args, Within g a) :
      Within g (.named name args)
  | record {owner : Owner} {id : Nat} {fields : List (Field Ty)}
      (hr : g.Holds ⟨owner, id, fields⟩) (h : ∀ f ∈ fields, Within g f.value) :
      Within g (.record owner id fields)

namespace Ty

theorem Within.grows {g g' : Registry} {t : Ty} (hg : g.Grows g') (h : t.Within g) :
    t.Within g' := by
  induction h with
  | named _ ih => exact .named ih
  | record hr _ ih => exact .record (hg.holds hr) ih

theorem Within.of_mem_args {g : Registry} {name : String} {args : List Ty} {a : Ty}
    (h : (Ty.named name args).Within g) (ha : a ∈ args) : a.Within g := by
  cases h with
  | named h => exact h a ha

theorem Within.holds {g : Registry} {r : RecordType} (h : r.ty.Within g) : g.Holds r := by
  cases h with
  | record hr _ => exact hr

theorem Within.of_mem_fields {g : Registry} {r : RecordType} {f : Field Ty}
    (h : r.ty.Within g) (hf : f ∈ r.fields) : f.value.Within g := by
  cases h with
  | record _ h => exact h f hf

theorem forall₂_of_map_eq {α β γ : Type} {p : α → γ} {q : β → γ} {related : α → β → Prop}
    {xs : List α} {ys : List β} (h : xs.map p = ys.map q)
    (hf : ∀ x ∈ xs, ∀ y ∈ ys, p x = q y → related x y) : List.Forall₂ related xs ys := by
  induction xs generalizing ys with
  | nil =>
    obtain rfl : ys = [] := by simpa [eq_comm] using h
    exact .nil
  | cons x xs ih =>
    cases ys with
    | nil => simp at h
    | cons y ys =>
      obtain ⟨hxy, hrest⟩ := List.cons.inj h
      have hx : related x y := hf x List.mem_cons_self y List.mem_cons_self hxy
      have hxs : List.Forall₂ related xs ys := ih hrest fun a ha b hb =>
        hf a (List.mem_cons_of_mem x ha) b (List.mem_cons_of_mem y hb)
      exact .cons hx hxs

theorem eq_of_map_eq {α β : Type} {f : α → β} {xs ys : List α} (h : xs.map f = ys.map f)
    (hf : ∀ x ∈ xs, ∀ y ∈ ys, f x = f y → x = y) : xs = ys := by
  have hall := forall₂_of_map_eq h hf
  rwa [List.forall₂_eq_eq_eq] at hall

/-- Types of one registry with the same shape are the same. -/
theorem eq_of_shape_eq {g : Registry} (hv : g.Valid) {t u : Ty} (ht : t.Within g)
    (hu : u.Within g) (h : t.shape = u.shape) : t = u := by
  induction t using Ty.induction generalizing u with
  | named name args ih =>
    cases u with
    | record owner id fields => simp at h
    | named name' args' =>
      obtain ⟨rfl, hargs⟩ : name = name' ∧ args.map shape = args'.map shape := by simpa using h
      have he : args = args' := eq_of_map_eq hargs fun a ha b hb =>
        ih a ha (ht.of_mem_args ha) (hu.of_mem_args hb)
      rw [he]
  | record owner id fields ih =>
    cases u with
    | named name args => simp at h
    | record owner' id' fields' =>
      have hfields : fields.map (Field.map shape) = fields'.map (Field.map shape) := by
        simpa using h
      have he : fields = fields' := by
        refine eq_of_map_eq hfields fun f hf f' hf' hs => ?_
        obtain ⟨hname, hshape⟩ := Field.mk.inj hs
        have hvalue : f.value = f'.value := ih f hf
          (Within.of_mem_fields (r := ⟨owner, id, fields⟩) ht hf)
          (Within.of_mem_fields (r := ⟨owner', id', fields'⟩) hu hf') hshape
        cases f
        cases f'
        simp only at hname hvalue
        rw [hname, hvalue]
      exact congrArg RecordType.ty (hv.eq_of_fields_eq (Within.holds (r := ⟨owner, id, fields⟩) ht)
        (Within.holds (r := ⟨owner', id', fields'⟩) hu) he)

end Ty

end RecordLens
