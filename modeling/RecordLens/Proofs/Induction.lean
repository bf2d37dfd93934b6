import RecordLens.Elaboration
import RecordLens.Host

/-! Induction over the trees of the library. Their children stand in lists and fields, and what is
to be shown of a tree may be assumed of every child. -/

namespace RecordLens

@[elab_as_elim]
theorem TypeExpr.induction {motive : TypeExpr → Prop}
    (named : ∀ name args span, (∀ a ∈ args, motive a) → motive (.named name args span))
    (record : ∀ fields span, (∀ f ∈ fields, motive f.item) → motive (.record ⟨fields, span⟩))
    (e : TypeExpr) : motive e :=
  match e with
  | .named name args span => named name args span fun a _ => induction named record a
  | .record ⟨fields, span⟩ => record fields span fun f _ => induction named record f.item
termination_by sizeOf e
decreasing_by
  · have := List.sizeOf_lt_of_mem ‹a ∈ args›
    simp
    omega
  · have := List.sizeOf_lt_of_mem ‹f ∈ fields›
    obtain ⟨_, _, item⟩ := f
    simp at *
    omega

@[elab_as_elim]
theorem Expr.induction {motive : Expr → Prop}
    (scalar : ∀ s span, motive (.scalar s span))
    (record : ∀ fields span, (∀ f ∈ fields, motive f.item) → motive (.record ⟨fields, span⟩))
    (e : Expr) : motive e :=
  match e with
  | .scalar s span => scalar s span
  | .record ⟨fields, span⟩ => record fields span fun f _ => induction scalar record f.item
termination_by sizeOf e
decreasing_by
  have := List.sizeOf_lt_of_mem ‹f ∈ fields›
  obtain ⟨_, _, item⟩ := f
  simp at *
  omega

@[elab_as_elim]
theorem Ty.induction {motive : Ty → Prop}
    (named : ∀ name args, (∀ a ∈ args, motive a) → motive (.named name args))
    (record : ∀ owner id fields, (∀ f ∈ fields, motive f.value) →
      motive (.record owner id fields))
    (t : Ty) : motive t :=
  match t with
  | .named name args => named name args fun a _ => induction named record a
  | .record owner id fields => record owner id fields fun f _ => induction named record f.value
termination_by sizeOf t
decreasing_by
  · have := List.sizeOf_lt_of_mem ‹a ∈ args›
    simp
    omega
  · have := List.sizeOf_lt_of_mem ‹f ∈ fields›
    obtain ⟨_, value⟩ := f
    simp at *
    omega

@[elab_as_elim]
theorem Value.induction {motive : Value → Prop}
    (scalar : ∀ s, motive (.scalar s))
    (record : ∀ type values, (∀ v ∈ values, motive v) → motive (.record type values))
    (v : Value) : motive v :=
  match v with
  | .scalar s => scalar s
  | .record type values => record type values fun v _ => induction scalar record v
termination_by sizeOf v
decreasing_by
  have := List.sizeOf_lt_of_mem ‹v ∈ values›
  simp
  omega

@[elab_as_elim]
theorem Host.induction {motive : Host → Prop}
    (primitive : ∀ p, motive (.primitive p))
    (struct : ∀ fields, (∀ f ∈ fields, motive f.value) → motive (.struct fields))
    (h : Host) : motive h :=
  match h with
  | .primitive p => primitive p
  | .struct fields => struct fields fun f _ => induction primitive struct f.value
termination_by sizeOf h
decreasing_by
  have := List.sizeOf_lt_of_mem ‹f ∈ fields›
  obtain ⟨_, value⟩ := f
  simp at *
  omega

end RecordLens
