import RecordLens.Proofs.Registry.Operations

/-! Elaboration against an expected type. It looks at no registry and enters nothing: its result is
the same everywhere, whether the literal is accepted or refused. -/

namespace RecordLens

namespace Elaboration

variable {ε α β : Type}

/-- The result is the same in every registry, and the registry stays as it is. -/
def Constant (x : Elaboration ε α) : Prop := ∃ result, x = .ofExcept result

theorem Constant.pure (a : α) : Constant (Pure.pure a : Elaboration ε α) := ⟨.ok a, rfl⟩

theorem Constant.ofExcept (result : Except ε α) : Constant (.ofExcept result) := ⟨result, rfl⟩

theorem Constant.bind {x : Elaboration ε α} {f : α → Elaboration ε β} (hx : x.Constant)
    (hf : ∀ a, x = .ofExcept (.ok a) → (f a).Constant) : (x >>= f).Constant := by
  obtain ⟨result, rfl⟩ := hx
  cases result with
  | error e => exact ⟨.error e, rfl⟩
  | ok a => exact hf a rfl

theorem Constant.eq_ofExcept {x : Elaboration ε α} (hx : x.Constant) {g g' : Registry}
    {result : Except ε α} (h : x.outcome g = (result, g')) : x = .ofExcept result ∧ g' = g := by
  obtain ⟨r, rfl⟩ := hx
  obtain ⟨rfl, rfl⟩ := Prod.mk.inj h
  exact ⟨rfl, rfl⟩

end Elaboration

namespace Expr

open Elaboration

theorem outcome_recordValue_ok_iff {fields : List (FieldExpr Elaborator)}
    {ys : List (Field Elaborator)} (hc : FieldExpr.canonicalize fields = .ok ys) {span : Span}
    {ty : Ty} {path : Path} {r : RecordValue} {g g' : Registry} :
    (recordValue fields span (some ty) path).outcome g = (.ok r, g') ↔
      ty = r.type.ty ∧ r.type.names = ys.map Field.name ∧
        (checkedValues path ys r.type.fields).outcome g = (.ok r.values, g') := by
  have hrefused (h : (Elaboration.ofExcept (mismatched ty ys span path)).outcome g = (.ok r, g')) :
      False := mismatched_ne_ok ty ys span path r (outcome_ofExcept_ok.1 h).1
  rw [recordValue_of_canonicalize hc]
  constructor
  · intro h
    dsimp only at h
    split at h
    · exact (hrefused h).elim
    · next type htype =>
      split at h
      · next hn =>
        obtain ⟨values, g₁, hvalues, hp⟩ := outcome_bind_ok.1 h
        obtain ⟨rfl, rfl⟩ : (⟨type, values⟩ : RecordValue) = r ∧ g₁ = g' := by simpa using hp
        exact ⟨Ty.eq_ty_of_recordType? htype, hn, hvalues⟩
      · exact (hrefused h).elim
  · rintro ⟨rfl, hn, hvalues⟩
    simp only [Ty.recordType?_ty, if_pos hn]
    exact outcome_bind_ok.2 ⟨r.values, g', hvalues, rfl⟩

def Elaborator.Checks (elaborate : Elaborator) : Prop :=
  ∀ ty path, (elaborate (some ty) path).Constant

theorem constant_checkedValues {fields : List (Field Elaborator)}
    (h : ∀ f ∈ fields, f.value.Checks) (path : Path) (types : List (Field Ty)) :
    (checkedValues path fields types).Constant := by
  induction fields generalizing types with
  | nil => exact .pure []
  | cons f rest ih =>
    cases types with
    | nil => exact .pure []
    | cons declared types =>
      refine .bind (h f List.mem_cons_self _ _) fun v _ => .bind (ih ?_ types) fun vs _ => .pure _
      exact fun x hx => h x (List.mem_cons_of_mem f hx)

theorem constant_recordValue {fields : List (FieldExpr Elaborator)}
    (h : ∀ f ∈ fields, f.item.Checks) (span : Span) (ty : Ty) (path : Path) :
    (recordValue fields span (some ty) path).Constant := by
  cases hc : FieldExpr.canonicalize fields with
  | error clash =>
    rw [recordValue_of_clash hc]
    exact .ofExcept _
  | ok ys =>
    have hall : ∀ y ∈ ys, y.value.Checks := by
      intro y hy
      obtain ⟨f, hf, rfl⟩ := FieldExpr.exists_of_mem_canonicalize hc hy
      exact h f hf
    rw [recordValue_of_canonicalize hc]
    dsimp only
    split
    · exact .ofExcept _
    · split
      · exact .bind (constant_checkedValues hall path _) fun _ _ => .pure _
      · exact .ofExcept _

/-- No expression is checked by way of a registry. -/
theorem checks_elaborate (e : Expr) : Elaborator.Checks e.elaborate := by
  induction e using Expr.induction with
  | scalar s span => exact fun ty path => .ofExcept _
  | record fields span ih =>
    intro ty path
    rw [elaborate, elaborateFields_eq_map]
    refine .bind (constant_recordValue (fun f hf => ?_) span ty path) fun _ _ => .pure _
    obtain ⟨x, hx, rfl⟩ := List.mem_map.1 hf
    exact ih x hx

/-- With a type expected, an expression and a record literal have each one result in all registries,
whichever registry the type belongs to, and leave every registry as it was, whether the result is a
value or an error. -/
theorem checked_leaves_registry (e : Expr) (ty : Ty) (l : RecordExpr Expr) (r : RecordType) :
    (∃ result, ∀ g : Registry, (e.elaborate (some ty) []).outcome g = (result, g)) ∧
      ∃ result, ∀ g : Registry, (elaborateRecord l (some r)).outcome g = (result, g) := by
  have hrecord : (elaborateRecord l (some r)).Constant := by
    rw [elaborateRecord, elaborateFields_eq_map]
    refine constant_recordValue (fun f hf => ?_) l.span r.ty []
    obtain ⟨x, -, rfl⟩ := List.mem_map.1 hf
    exact checks_elaborate x.item
  obtain ⟨result, he⟩ := checks_elaborate e ty []
  obtain ⟨result', hl⟩ := hrecord
  exact ⟨⟨result, fun g => by rw [he]; rfl⟩, result', fun g => by rw [hl]; rfl⟩

end Expr

end RecordLens
