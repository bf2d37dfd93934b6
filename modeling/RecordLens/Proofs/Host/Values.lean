import RecordLens.Proofs.Value.Typing

/-! Host data as values. The type of the data is entered before its value is built and is asked for
again on the way, and a registry that has it gives it again. So the value is of the type of its
host, and making it enters no more than asking for the type does. -/

namespace RecordLens

namespace Host

theorem grows_ty (host : Host) (g : Registry) : g.Grows (host.ty.outcome g).2 :=
  (host.ensures_ty (P := fun _ => False) g).1.grows

theorem grows_fieldTypes (fields : List (Field Host)) (g : Registry) :
    g.Grows ((fieldTypes fields).outcome g).2 :=
  (ensures_fieldTypes (P := fun _ => False) fun f _ => f.value.ensures_ty).1.grows

theorem fieldTypes_again {fields : List (Field Host)}
    (h : ∀ f ∈ fields, ∀ {g g' : Registry}, (f.value.ty.outcome g).2.Grows g' →
      f.value.ty.outcome g' = ((f.value.ty.outcome g).1, g')) {g g' : Registry}
    (hg : ((fieldTypes fields).outcome g).2.Grows g') :
    (fieldTypes fields).outcome g' = (((fieldTypes fields).outcome g).1, g') := by
  induction fields generalizing g with
  | nil => rfl
  | cons f rest ih =>
    obtain ⟨name, host⟩ := f
    have hrest : ((fieldTypes rest).outcome (host.ty.outcome g).2).2.Grows g' := hg
    have htype : host.ty.outcome g' = ((host.ty.outcome g).1, g') :=
      h _ List.mem_cons_self ((grows_fieldTypes rest _).trans hrest)
    have htypes := ih (fun x hx => h x (List.mem_cons_of_mem _ hx)) hrest
    simp only [fieldTypes, Interning.outcome_bind, Interning.outcome_pure, htype, htypes]

theorem ty_again (host : Host) {g g' : Registry} (hg : (host.ty.outcome g).2.Grows g') :
    host.ty.outcome g' = ((host.ty.outcome g).1, g') := by
  induction host using Host.induction generalizing g g' with
  | primitive p => rfl
  | struct fields ih =>
    have hg' : ((Registry.structType ((fieldTypes fields).outcome g).1).outcome
        ((fieldTypes fields).outcome g).2).2.Grows g' := hg
    have hgrows : ((fieldTypes fields).outcome g).2.Grows g' :=
      Registry.Grows.trans (.intern .refl (Field.ascending_ofFields _)) hg'
    have htypes : (fieldTypes fields).outcome g' = (((fieldTypes fields).outcome g).1, g') :=
      fieldTypes_again (fun f hf _ _ hg => ih f hf hg) hgrows
    have hagain := Registry.structType_again hg'
    simp only [ty, Interning.outcome_bind, Interning.outcome_pure, htypes, hagain]

/-- In every registry the value of the data is well-typed and of the type of its host, and the
registry behind it is the one that asking for the type leads to. -/
def Typed (host : Host) (x : host.Data) : Prop :=
  ∀ g : Registry, g.Valid → ((host.toValue x).outcome g).1.WellTyped ∧
    ((host.toValue x).outcome g).1.typeOf = (host.ty.outcome g).1 ∧
    ((host.toValue x).outcome g).2 = (host.ty.outcome g).2

theorem typed_fieldValues {fields : List (Field Host)} (h : ∀ f ∈ fields, ∀ x, f.value.Typed x)
    (data : FieldsData fields) {g : Registry} (hv : g.Valid) :
    (∀ f ∈ ((fieldValues fields data).outcome g).1,
        f.value.1.accepts f.value.2 = true ∧ f.value.2.WellTyped) ∧
      ((fieldValues fields data).outcome g).1.map (Field.map Prod.fst) =
        ((fieldTypes fields).outcome g).1 ∧
      ((fieldValues fields data).outcome g).2 = ((fieldTypes fields).outcome g).2 := by
  induction fields generalizing g with
  | nil => exact ⟨nofun, rfl, rfl⟩
  | cons f rest ih =>
    obtain ⟨name, host⟩ := f
    obtain ⟨x, data⟩ := data
    have hv₁ : (host.ty.outcome g).2.Valid := (grows_ty host g).valid hv
    obtain ⟨hwell, htype, hreg⟩ := h _ List.mem_cons_self x _ hv₁
    dsimp only at hwell htype hreg
    rw [ty_again host .refl] at htype hreg
    obtain ⟨hrest, htypes, hregs⟩ := ih (fun y hy => h y (List.mem_cons_of_mem _ hy)) data hv₁
    simp only [fieldValues, fieldTypes, Interning.outcome_bind, Interning.outcome_pure, hreg,
      List.forall_mem_cons, List.map_cons]
    exact ⟨⟨⟨Ty.accepts_iff.2 htype, hwell⟩, hrest⟩, by rw [htypes]; rfl, hregs⟩

theorem typed (host : Host) (x : host.Data) : host.Typed x := by
  induction host using Host.induction with
  | primitive p => cases p <;> exact fun g _ => ⟨trivial, rfl, rfl⟩
  | struct fields ih =>
    intro g hv
    obtain ⟨hfields, htypes, hreg⟩ := typed_fieldValues ih x hv
    rw [toValue, ty, Interning.outcome_bind]
    refine ⟨wellTyped_structValue hfields _, ?_⟩
    simp only [structValue, Interning.outcome_bind, Interning.outcome_pure, Value.typeOf, htypes,
      hreg, and_self]

end Host

end RecordLens
