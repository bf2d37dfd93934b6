import RecordLens.Proofs.Ty.Shape

/-! Structural identity of types. What a type expression is elaborated to has the shape that is
written, and within one registry the shape tells which type it is: expressions denote the same type
if and only if they differ in places and in the order of fields alone. -/

namespace RecordLens

namespace TypeExpr

open Elaboration

/-- A record type is elaborated if the names are distinct and every field is, in the order of the
names, and then the fields are interned. -/
theorem outcome_recordType {fields : List (FieldExpr TypeExpr)} {r : RecordType}
    {g g' : Registry} :
    (recordType (elaborateFields fields)).outcome g = (.ok r, g') ↔
      (fields.map FieldExpr.name).Nodup ∧ ∃ ys g₁,
        ((Field.sorted (fields.map FieldExpr.field)).mapM
          (Field.traverse fun _ => elaborate)).outcome g = (.ok ys, g₁) ∧
        (Registry.intern ys).outcome g₁ = (r, g') := by
  have hnames : (elaborateFields fields).map FieldExpr.name = fields.map FieldExpr.name := by
    simp [elaborateFields_eq_map]
  have hfields : (elaborateFields fields).map FieldExpr.field =
      (fields.map FieldExpr.field).map (Field.map elaborate) := by
    simp [elaborateFields_eq_map, Function.comp_def, FieldExpr.field, Field.map]
  have hmapM (xs : List (Field TypeExpr)) :
      (xs.map (Field.map elaborate)).mapM (Field.traverse fun _ x => x) =
        xs.mapM (Field.traverse fun _ => elaborate) := List.mapM_map
  rw [recordType, outcome_bind_ok]
  constructor
  · rintro ⟨xs, g₀, hx, hrest⟩
    obtain ⟨hc, rfl⟩ := outcome_ofExcept_ok.1 hx
    obtain ⟨hnodup, rfl⟩ := FieldExpr.canonicalize_ok_iff.1 hc
    rw [hfields, Field.sorted_map, hmapM] at hrest
    obtain ⟨ys, g₁, hys, hr⟩ := outcome_bind_ok.1 hrest
    obtain ⟨hr1, hr2⟩ := Prod.mk.inj hr
    exact ⟨hnames ▸ hnodup, ys, g₁, hys, Prod.ext (Except.ok.inj hr1) hr2⟩
  · rintro ⟨hnodup, ys, g₁, hys, hr⟩
    have hc := FieldExpr.canonicalize_ok_iff.2 ⟨hnames ▸ hnodup, rfl⟩
    refine ⟨_, g, outcome_ofExcept_ok.2 ⟨hc, rfl⟩, ?_⟩
    rw [hfields, Field.sorted_map, hmapM]
    exact outcome_bind_ok.2 ⟨ys, g₁, hys, by rw [outcome_lift, hr]⟩

/-- What an expression is elaborated to is within the registry and has the shape that is written. -/
theorem within_and_shape_of_elaborate {e : TypeExpr} {t : Ty} {g g' : Registry}
    (h : e.elaborate.outcome g = (.ok t, g')) : t.Within g' ∧ t.shape = e.shape := by
  induction e using TypeExpr.induction generalizing t g g' with
  | named name args span ih =>
    rw [elaborate, elaborateArgs_eq_mapM, outcome_bind_ok] at h
    obtain ⟨ts, g₁, hts, hp⟩ := h
    obtain ⟨rfl, rfl⟩ : .named name ts = t ∧ g₁ = g' := by simpa using hp
    obtain ⟨hw, hs⟩ := map_of_mapM (I := Ty.Within) Ty.Within.grows
      (fun a _ => extends_elaborate a) (fun a ha _ _ _ h => ih a ha h) hts
    exact ⟨.named hw, by rw [Ty.shape_named, shape_named, hs]⟩
  | record fields span ih =>
    rw [elaborate, outcome_bind_ok] at h
    obtain ⟨r, g₂, hr, hp⟩ := h
    obtain ⟨rfl, rfl⟩ : r.ty = t ∧ g₂ = g' := by simpa using hp
    obtain ⟨hnodup, ys, g₁, hys, hi⟩ := outcome_recordType.1 hr
    have hstep : ∀ x ∈ Field.sorted (fields.map FieldExpr.field), ∀ g (y : Field Ty) g',
        (x.traverse fun _ => elaborate).outcome g = (.ok y, g') →
          y.value.Within g' ∧ y.map Ty.shape = x.map shape := by
      intro x hx g y g' hy
      obtain ⟨f, hf, rfl⟩ : ∃ f ∈ fields, f.field = x := by simpa using hx
      obtain ⟨hname, hv⟩ := outcome_traverse.1 hy
      obtain ⟨hw, hs⟩ := ih f hf hv
      exact ⟨hw, by rw [Field.map, Field.map, hname, hs]; rfl⟩
    obtain ⟨hw, hs⟩ := map_of_mapM (I := fun g (y : Field Ty) => y.value.Within g)
      Ty.Within.grows (fun x _ => .traverse (extends_elaborate x.value)) hstep hys
    have ha : Field.Ascending (Field.sorted (fields.map FieldExpr.field)) :=
      Field.ascending_sorted ((FieldExpr.names_field fields).symm ▸ hnodup)
    -- the inner types hold in `g₁`, and entering `ys` only adds to it
    have hg : g₁.Grows ((Registry.intern ys).outcome g₁).2 :=
      .intern .refl (ha.of_names_eq (names_of_mapM_traverse hys))
    have hholds := Registry.holds_intern ys g₁
    have hfields : r.fields = ys := by
      rw [← Registry.fields_intern ys g₁, hi]
    rw [hi] at hg hholds
    constructor
    · exact .record hholds fun f hf => (hw f (hfields ▸ hf)).grows hg
    · rw [RecordType.ty, Ty.shape_record, shape_record, hfields, hs]

/-- An expression that has the shape of a type in the registry denotes that type, and nothing is
entered for it. -/
theorem outcome_elaborate_of_shape_eq {g : Registry} (hv : g.Valid) {e : TypeExpr} {t : Ty}
    (ht : t.Within g) (h : e.shape = t.shape) : e.elaborate.outcome g = (.ok t, g) := by
  induction e using TypeExpr.induction generalizing t with
  | named name args span ih =>
    cases t with
    | record owner id fields => simp at h
    | named name' ts =>
      obtain ⟨rfl, hargs⟩ : name = name' ∧ args.map shape = ts.map Ty.shape := by simpa using h
      have hts : (args.mapM elaborate).outcome g = (.ok ts, g) :=
        mapM_of_forall₂ (Ty.forall₂_of_map_eq hargs fun a ha t ht' hs =>
          ih a ha (ht.of_mem_args ht') hs)
      rw [elaborate, elaborateArgs_eq_mapM]
      exact outcome_bind_ok.2 ⟨ts, g, hts, rfl⟩
  | record fields span ih =>
    cases t with
    | named name args => simp at h
    | record owner id ys =>
      let r : RecordType := ⟨owner, id, ys⟩
      have hr : g.Holds r := Ty.Within.holds ht
      have hshapes : (Field.sorted (fields.map FieldExpr.field)).map (Field.map shape) =
          ys.map (Field.map Ty.shape) := by simpa using h
      have hnames : (Field.sorted (fields.map FieldExpr.field)).map Field.name =
          ys.map Field.name := Field.names_eq_of_map_eq hshapes
      have hnodup : (fields.map FieldExpr.name).Nodup := by
        rw [← (FieldExpr.names_sorted_perm fields).nodup_iff, hnames]
        exact (hv.ascending_of_holds hr).nodup_names
      have hys : ((Field.sorted (fields.map FieldExpr.field)).mapM
          (Field.traverse fun _ => elaborate)).outcome g = (.ok ys, g) := by
        refine mapM_of_forall₂ (Ty.forall₂_of_map_eq hshapes fun x hx y hy hs => ?_)
        obtain ⟨f, hf, rfl⟩ : ∃ f ∈ fields, f.field = x := by simpa using hx
        obtain ⟨hname, hshape⟩ := Field.mk.inj hs
        have hw : y.value.Within g := Ty.Within.of_mem_fields (r := r) ht hy
        exact outcome_traverse.2 ⟨hname.symm, ih f hf hw hshape⟩
      have hrec : (recordType (elaborateFields fields)).outcome g = (.ok r, g) :=
        outcome_recordType.2 ⟨hnodup, ys, g, hys, Registry.intern_of_holds hv hr⟩
      rw [elaborate]
      exact outcome_bind_ok.2 ⟨r, g, hrec, rfl⟩

/-- From the first registry to the second the expression has been elaborated to the type, be it as
a type or, where it is one, as a record type literal. -/
inductive Denotes : TypeExpr → Registry → Ty → Registry → Prop
  | type {e : TypeExpr} {g g' : Registry} {t : Ty} (h : e.elaborate.outcome g = (.ok t, g')) :
      Denotes e g t g'
  | recordType {r : RecordExpr TypeExpr} {g g' : Registry} {rt : RecordType}
      (h : (elaborateRecord r).outcome g = (.ok rt, g')) : Denotes (.record r) g rt.ty g'

theorem Denotes.outcome {e : TypeExpr} {t : Ty} {g g' : Registry} (h : e.Denotes g t g') :
    e.elaborate.outcome g = (.ok t, g') := by
  cases h with
  | type h => exact h
  | @recordType r _ _ rt h =>
    rw [elaborate]
    exact outcome_bind_ok.2 ⟨rt, g', h, rfl⟩

open Registry (Operation) in
/-- Two expressions elaborated at two points of a run denote the same type if and only if they have
the same shape, whatever is done with the registry before and between. -/
theorem eq_iff_shape_eq_of_run (owner : Owner) (before between : List Operation)
    {a b : TypeExpr} {t u : Ty} {g g' : Registry}
    (ha : a.Denotes (Operation.runAll before (.empty owner)) t g)
    (hb : b.Denotes (Operation.runAll between g) u g') : t = u ↔ a.shape = b.shape := by
  obtain ⟨htw, hts⟩ := within_and_shape_of_elaborate ha.outcome
  obtain ⟨huw, hus⟩ := within_and_shape_of_elaborate hb.outcome
  have hafter : g.Grows g' := (Operation.grows_runAll between g).trans
    ((extends_elaborate b).grows hb.outcome)
  have hg : (Registry.empty owner).Grows g := (Operation.grows_runAll before _).trans
    ((extends_elaborate a).grows ha.outcome)
  have hv : g'.Valid := (hg.trans hafter).valid (Registry.valid_empty owner)
  rw [← hts, ← hus]
  exact ⟨fun h => by rw [h], Ty.eq_of_shape_eq hv (htw.grows hafter) huw⟩

def written (fields : List (FieldName × TypeExpr)) : TypeExpr :=
  .record ⟨fields.map fun f => ⟨f.1, default, f.2⟩, default⟩

def pointExpr : TypeExpr :=
  written [(.label "x", .named "Int" [] default), (.label "y", .named "Bool" [] default)]

def pointExprTurned : TypeExpr :=
  written [(.label "y", .named "Bool" [] default), (.label "x", .named "Int" [] default)]

def placeExpr : TypeExpr :=
  written [(.label "at", .named "Maybe" [pointExpr] default),
    (.label "id", .named "Int" [] default)]

def placeExprTurned : TypeExpr :=
  written [(.label "id", .named "Int" [] default),
    (.label "at", .named "Maybe" [pointExprTurned] default)]

def pointType : RecordType :=
  ⟨.registry 0, 1, [⟨.label "x", .primitive .int⟩, ⟨.label "y", .primitive .bool⟩]⟩

def placeType : RecordType :=
  ⟨.registry 0, 2, [⟨.label "at", .named "Maybe" [pointType.ty]⟩, ⟨.label "id", .primitive .int⟩]⟩

/-- A one-field tuple type, the type of points and that of places. -/
def placeRegistry : Registry :=
  ⟨.registry 0, [[⟨.position 1, .primitive .int⟩], pointType.fields, placeType.fields]⟩

def pairRegistry : Registry :=
  { placeRegistry with entries := placeRegistry.entries ++
      [[⟨.position 1, pointType.ty⟩, ⟨.position 2, .primitive .string⟩]] }

open Registry (Operation) in
/-- Fields written in another order, of a record and of one inside an argument, denote the same
type, though one type is entered before and another between. -/
theorem eq_iff_shape_eq_of_run_place :
    placeExpr.Denotes (Operation.runAll [.tupleType [.primitive .int]] (.empty (.registry 0)))
        placeType.ty placeRegistry ∧
      placeExprTurned.Denotes
        (Operation.runAll [.tupleType [pointType.ty, .primitive .string]] placeRegistry)
        placeType.ty pairRegistry ∧
      placeExpr.shape = placeExprTurned.shape :=
  ⟨.type rfl, .type rfl,
    (eq_iff_shape_eq_of_run (.registry 0) [.tupleType [.primitive .int]]
      [.tupleType [pointType.ty, .primitive .string]] (a := placeExpr) (b := placeExprTurned)
      (t := placeType.ty) (u := placeType.ty) (g := placeRegistry)
      (.type rfl) (.type rfl)).1 rfl⟩

end TypeExpr

end RecordLens
