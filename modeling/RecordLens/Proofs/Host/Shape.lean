import RecordLens.Proofs.Elaboration.Duplicates
import RecordLens.Proofs.Host.Conversion
import RecordLens.Proofs.Ty.Identity

/-! The shape of host data. The type of the data has it in every registry, so the type is the one
that an expression of the shape denotes, and whichever of the two is asked for second finds what
the first has entered. -/

namespace RecordLens

namespace Host

mutual

def shape : Host → Shape
  | .primitive p => .named p.name []
  | .struct fields => .record (Field.ofFields (fieldShapes fields))

def fieldShapes : List (Field Host) → List (Field Shape)
  | [] => []
  | ⟨name, host⟩ :: rest => ⟨name, shape host⟩ :: fieldShapes rest

end

@[simp] theorem shape_struct (fields : List (Field Host)) :
    (struct fields).shape = .record (Field.ofFields (fields.map (Field.map shape))) := by
  have h : fieldShapes fields = fields.map (Field.map shape) := by
    induction fields with
    | nil => rfl
    | cons f rest ih => rw [fieldShapes, List.map_cons, ih]; rfl
  rw [shape, h]

/-- The type of the data is within the registry that gives it and has the shape of the data. -/
def Shaped (host : Host) : Prop :=
  ∀ g : Registry, (host.ty.outcome g).1.Within (host.ty.outcome g).2 ∧
    (host.ty.outcome g).1.shape = host.shape

theorem shaped_fieldTypes {fields : List (Field Host)} (h : ∀ f ∈ fields, f.value.Shaped)
    (g : Registry) :
    (∀ f ∈ ((fieldTypes fields).outcome g).1, f.value.Within ((fieldTypes fields).outcome g).2) ∧
      ((fieldTypes fields).outcome g).1.map (Field.map Ty.shape) =
        fields.map (Field.map shape) := by
  induction fields generalizing g with
  | nil => exact ⟨nofun, rfl⟩
  | cons f rest ih =>
    obtain ⟨name, host⟩ := f
    obtain ⟨hw, hs⟩ := h _ List.mem_cons_self g
    obtain ⟨hws, hss⟩ := ih (fun x hx => h x (List.mem_cons_of_mem _ hx)) (host.ty.outcome g).2
    simp only [fieldTypes, Interning.outcome_bind, Interning.outcome_pure, List.forall_mem_cons,
      List.map_cons, hss]
    exact ⟨⟨hw.grows (grows_fieldTypes rest _), hws⟩, by rw [Field.map, hs]; rfl⟩

theorem shaped (host : Host) : host.Shaped := by
  induction host using Host.induction with
  | primitive p => exact fun g => ⟨.named nofun, by simp [ty, Ty.primitive, shape]⟩
  | struct fields ih =>
    intro g
    obtain ⟨hw, hs⟩ := shaped_fieldTypes ih g
    let types := ((fieldTypes fields).outcome g).1
    let g₁ := ((fieldTypes fields).outcome g).2
    have hholds := Registry.holds_intern (Field.ofFields types) g₁
    have hfields := Registry.fields_intern (Field.ofFields types) g₁
    have hg : g₁.Grows ((Registry.intern (Field.ofFields types)).outcome g₁).2 :=
      .intern .refl (Field.ascending_ofFields types)
    rw [ty, Interning.outcome_bind, Interning.outcome_bind, Interning.outcome_pure]
    constructor
    · refine .record hholds fun f hf => (hw f (Field.mem_of_mem_ofFields ?_)).grows hg
      exact hfields ▸ hf
    · rw [RecordType.ty, Ty.shape_record, shape_struct, Registry.structType, hfields,
        ← Field.ofFields_map, hs]

theorem exists_enteredFields {g : Registry} {fields : List (Field Host)}
    (h : ∀ f ∈ fields, ∃ t, f.value.Entered t g) : ∃ types, EnteredFields fields types g := by
  induction fields with
  | nil => exact ⟨[], rfl⟩
  | cons f rest ih =>
    obtain ⟨⟨t, ht⟩, hrest⟩ := List.forall_mem_cons.1 h
    obtain ⟨types, htypes⟩ := ih hrest
    refine ⟨⟨f.name, t⟩ :: types, ?_⟩
    rw [Entered] at ht
    rw [EnteredFields] at htypes ⊢
    simp only [fieldTypes, Interning.outcome_bind, Interning.outcome_pure, ht, htypes]

theorem fst_ty_of_shape_eq {host : Host} {g : Registry} (hv : g.Valid) {t : Ty} (ht : t.Within g)
    (hs : t.shape = host.shape) : (host.ty.outcome g).1 = t := by
  have hg : g.Grows (host.ty.outcome g).2 := grows_ty host g
  obtain ⟨hw, hshape⟩ := host.shaped g
  exact Ty.eq_of_shape_eq (hg.valid hv) hw (ht.grows hg) (hshape.trans hs.symm)

theorem Derived.entered_of_shape_eq {host : Host} (h : host.Derived) {g : Registry} (hv : g.Valid)
    {t : Ty} (ht : t.Within g) (hs : t.shape = host.shape) : host.Entered t g := by
  induction h generalizing t with
  | primitive p => exact Prod.ext (fst_ty_of_shape_eq hv ht hs) rfl
  | @struct fields hn _ ih =>
    let types := ((fieldTypes fields).outcome g).1
    let r := ((Registry.structType types).outcome ((fieldTypes fields).outcome g).2).1
    obtain rfl : r.ty = t := fst_ty_of_shape_eq hv ht hs
    have hr : r.fields = Field.ofFields types := Registry.fields_intern _ _
    have hshapes : types.map (Field.map Ty.shape) = fields.map (Field.map shape) :=
      (shaped_fieldTypes (fun f _ => f.value.shaped) g).2
    have hnames : (types.map Field.name).Nodup := Field.names_eq_of_map_eq hshapes ▸ hn
    have hfields : ∀ f ∈ fields, ∃ t, f.value.Entered t g := by
      intro f hf
      have hshape : f.map shape ∈ types.map (Field.map Ty.shape) :=
        hshapes ▸ List.mem_map_of_mem hf
      obtain ⟨y, hy, he⟩ := List.mem_map.1 hshape
      have hmem : y ∈ r.fields := hr ▸ (Field.ofFields_perm hnames).mem_iff.2 hy
      exact ⟨y.value, ih f hf (ht.of_mem_fields hmem) (Field.mk.inj he).2⟩
    obtain ⟨types', htypes⟩ := exists_enteredFields hfields
    obtain rfl : types = types' := congrArg Prod.fst htypes
    have hintern := Registry.intern_of_holds hv ht.holds
    rw [EnteredFields] at htypes
    rw [hr] at hintern
    simp only [Entered, ty, Interning.outcome_bind, Interning.outcome_pure, htypes,
      Registry.structType, hintern]

/-- Host data and an expression have one type, whichever is asked for first and whatever is entered
between: the first enters it, and for the second nothing is entered. -/
structure Agrees (host : Host) (e : TypeExpr) (g : Registry) : Prop where
  host_first : ∀ g', (host.ty.outcome g).2.Grows g' →
    e.elaborate.outcome g' = (.ok (host.ty.outcome g).1, g')
  text_first : ∃ t g₁, e.elaborate.outcome g = (.ok t, g₁) ∧
    ∀ g', g₁.Grows g' → host.ty.outcome g' = (t, g')

theorem elaborate_of_shape_eq {host : Host} {e : TypeExpr} (h : e.shape = host.shape)
    {g g' : Registry} (hv : g.Valid) (hg : (host.ty.outcome g).2.Grows g') :
    e.elaborate.outcome g' = (.ok (host.ty.outcome g).1, g') := by
  obtain ⟨hw, hs⟩ := host.shaped g
  have hv' : g'.Valid := hg.valid ((grows_ty host g).valid hv)
  exact TypeExpr.outcome_elaborate_of_shape_eq hv' (hw.grows hg) (h.trans hs.symm)

theorem Derived.agrees_of_shape_eq {host : Host} (hd : host.Derived) {e : TypeExpr}
    (h : e.shape = host.shape) {g : Registry} (hv : g.Valid) : host.Agrees e g := by
  refine ⟨fun g' => elaborate_of_shape_eq h hv, ?_⟩
  -- whether an expression is refused does not depend on the registry, and behind the type of the
  -- data it is not
  have hnone : e.elaborate.error? g = none := by
    rw [e.raises_elaborate g, ← e.raises_elaborate (host.ty.outcome g).2, Elaboration.error?,
      elaborate_of_shape_eq h hv .refl]
  rw [Elaboration.error?] at hnone
  cases ho : e.elaborate.outcome g with
  | mk result g₁ =>
    cases result with
    | error d => simp [ho] at hnone
    | ok t =>
      refine ⟨t, g₁, rfl, fun g' hg => ?_⟩
      obtain ⟨hw, hs⟩ := TypeExpr.within_and_shape_of_elaborate ho
      have hg₁ : g.Grows g₁ := (TypeExpr.extends_elaborate e).grows ho
      exact hd.entered_of_shape_eq (hg.valid (hg₁.valid hv)) (hw.grows hg) (hs.trans h)

/-- Within one registry the shape tells which type the data has. -/
theorem ty_eq_iff_shape_eq {a b : Host} {g g' : Registry} (hv : g.Valid)
    (hg : (a.ty.outcome g).2.Grows g') :
    (a.ty.outcome g).1 = (b.ty.outcome g').1 ↔ a.shape = b.shape := by
  obtain ⟨hw, hs⟩ := a.shaped g
  constructor
  · intro h
    rw [← hs, h]
    exact (b.shaped g').2
  · intro h
    have hv' : g'.Valid := hg.valid ((grows_ty a g).valid hv)
    exact (fst_ty_of_shape_eq hv' (hw.grows hg) (hs.trans h)).symm

end Host

end RecordLens
