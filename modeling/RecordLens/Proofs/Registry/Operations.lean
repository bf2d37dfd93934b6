import RecordLens.Proofs.Induction
import RecordLens.Proofs.Registry.Provenance

/-! The operations that work on a registry. Whatever they do, and whether or not they fail, they
intern canonical lists made of the record types that are supplied to them or were entered before. -/

namespace RecordLens

variable {P : RecordType → Prop} {g : Registry}

open Registry

namespace Elaboration

theorem outcome_ofExcept_ok {ε α : Type} {x : Except ε α} {a : α} {g g' : Registry} :
    (Elaboration.ofExcept x).outcome g = (.ok a, g') ↔ x = .ok a ∧ g = g' := by
  rw [outcome, run_ofExcept]
  simp

end Elaboration

namespace FieldExpr

variable {α : Type}

def field (f : FieldExpr α) : Field α := ⟨f.name, f.item⟩

theorem names_field (fields : List (FieldExpr α)) :
    (fields.map field).map Field.name = fields.map name := by
  simp [Function.comp_def, field]

theorem names_sorted_perm (fields : List (FieldExpr α)) :
    ((Field.sorted (fields.map field)).map Field.name).Perm (fields.map name) := by
  rw [← names_field]
  exact (Field.sorted_perm (fields.map field)).map Field.name

theorem canonicalize_ok_iff {fields : List (FieldExpr α)} {ys : List (Field α)} :
    canonicalize fields = .ok ys ↔
      (fields.map name).Nodup ∧ ys = Field.sorted (fields.map field) := by
  have hf : (fields.map fun f => ((⟨f.name, f.item⟩ : Field α), some f.nameSpan)).map Prod.fst =
      fields.map field := by simp [Function.comp_def, field]
  rw [canonicalize, Field.canonicalize_ok_iff, hf, names_field]

theorem canonicalize_map {β : Type} (f : α → β) {fields : List (FieldExpr α)}
    (hn : (fields.map name).Nodup) :
    canonicalize (fields.map fun x => ⟨x.name, x.nameSpan, f x.item⟩) =
      .ok ((Field.sorted (fields.map field)).map (Field.map f)) := by
  have hfields : (fields.map fun x => (⟨x.name, x.nameSpan, f x.item⟩ : FieldExpr β)).map field =
      (fields.map field).map (Field.map f) := by
    simp [Function.comp_def, field, Field.map]
  refine canonicalize_ok_iff.2 ⟨?_, by rw [hfields, Field.sorted_map]⟩
  simpa [Function.comp_def] using hn

theorem canonicalize_ascending {fields : List (FieldExpr α)} {ys : List (Field α)}
    (h : canonicalize fields = .ok ys) : Field.Ascending ys := Field.canonicalize_ascending h

theorem exists_of_canonicalize_error {fields : List (FieldExpr α)} {clash : DuplicateField}
    (h : canonicalize fields = .error clash) :
    ∃ front f back, fields = front ++ f :: back ∧ (front.map name).Nodup ∧ clash.name = f.name ∧
      clash.second = some f.nameSpan ∧
      ∃ e ∈ front, e.name = f.name ∧ clash.first = some e.nameSpan := by
  unfold canonicalize Field.canonicalize at h
  split at h
  · next d hd =>
    obtain rfl := Except.error.inj h
    obtain ⟨before, x, span, after, hfields, hbefore, hname, hsecond, hfirst⟩ :=
      Field.exists_of_clash?_eq_some hd
    obtain ⟨front, rest, rfl, rfl, hrest⟩ := List.map_eq_append_iff.1 hfields
    obtain ⟨f, back, rfl, hf, rfl⟩ := List.map_eq_cons_iff.1 hrest
    obtain ⟨rfl, rfl⟩ := Prod.mk.inj hf
    have hnodup := (Field.clash?_eq_none_iff.1 hbefore).1
    rw [List.map_map] at hnodup
    obtain ⟨y, hy, hsame, hplace⟩ := hfirst.resolve_left List.not_mem_nil
    obtain ⟨e, he, rfl⟩ := List.mem_map.1 hy
    exact ⟨front, f, back, rfl, hnodup, hname, hsecond, e, he, hsame, hplace.symm⟩
  · cases h

theorem exists_of_mem_canonicalize {fields : List (FieldExpr α)} {ys : List (Field α)}
    {y : Field α} (h : canonicalize fields = .ok ys) (hy : y ∈ ys) :
    ∃ f ∈ fields, f.field = y := by
  obtain ⟨-, rfl⟩ := canonicalize_ok_iff.1 h
  simpa using hy

end FieldExpr

namespace Registry

theorem ensures_internFields {fields : List (Field Ty)}
    (h : ∀ f ∈ fields, g.Over P f.value.handles) :
    (internFields fields).Ensures P g fun g' r => g'.Over P r.ty.handles := by
  refine .bind_ofExcept fun ys hys => .lift ?_
  obtain ⟨hn, rfl⟩ := Field.canonicalizePlain_ok_iff.1 hys
  exact .intern (Field.ascending_sorted hn) fun y hy => h y (Field.mem_sorted.1 hy)

theorem ensures_structType {fields : List (Field Ty)}
    (h : ∀ f ∈ fields, g.Over P f.value.handles) :
    (structType fields).Ensures P g fun g' r => g'.Over P r.ty.handles :=
  .intern (Field.ascending_ofFields fields) fun f hf => h f (Field.mem_of_mem_ofFields hf)

theorem ensures_tuple {elements : List Ty} (h : ∀ t ∈ elements, g.Over P t.handles) :
    (tuple elements).Ensures P g fun g' r => g'.Over P r.ty.handles :=
  ensures_structType fun f hf => h f.value (Field.value_mem_of_mem_positions hf)

end Registry

namespace RecordValue

theorem ensures_ofCanonical {fields : List (Field Value)} (ha : Field.Ascending fields)
    (h : ∀ f ∈ fields, g.Over P f.value.handles) :
    (ofCanonical fields).Ensures P g fun g' r => g'.Over P r.value.handles := by
  have htypes : ∀ f ∈ fields.map (Field.map Value.typeOf), g.Over P f.value.handles := by
    intro f hf
    obtain ⟨x, hx, rfl⟩ := List.mem_map.1 hf
    exact (h x hx).subset (Value.handles_typeOf_subset x.value)
  refine .bind (.intern (ha.map _) htypes) fun r g' hg hr => .pure ?_
  rw [value, Value.handles_record, over_append, over_flatMap]
  refine ⟨hr, fun v hv => ?_⟩
  obtain ⟨f, hf, rfl⟩ := List.mem_map.1 hv
  exact (h f hf).grows hg

theorem ensures_ofFields {fields : List (Field Value)}
    (h : ∀ f ∈ fields, g.Over P f.value.handles) :
    (ofFields fields).Ensures P g fun g' r => g'.Over P r.value.handles := by
  refine .bind_ofExcept fun ys hys => .lift ?_
  obtain ⟨hn, rfl⟩ := Field.canonicalizePlain_ok_iff.1 hys
  exact ensures_ofCanonical (Field.ascending_sorted hn) fun y hy => h y (Field.mem_sorted.1 hy)

theorem ensures_tuple {elements : List Value} (h : ∀ v ∈ elements, g.Over P v.handles) :
    (tuple elements).Ensures P g fun g' r => g'.Over P r.value.handles :=
  ensures_ofCanonical (Field.ascending_ofFields _) fun f hf =>
    h f.value (Field.value_mem_of_mem_positions (Field.mem_of_mem_ofFields hf))

end RecordValue

namespace TypeExpr

theorem elaborateArgs_eq_mapM (args : List TypeExpr) :
    elaborateArgs args = args.mapM elaborate := by
  induction args with
  | nil => rfl
  | cons arg rest ih =>
    rw [elaborateArgs, List.mapM_cons, ih]

theorem ensures_recordType {fields : List (FieldExpr (Elaboration DuplicateField Ty))}
    (h : ∀ f ∈ fields, ∀ g, f.item.Ensures P g fun g' t => g'.Over P t.handles) :
    (recordType fields).Ensures P g fun g' r => g'.Over P r.ty.handles := by
  refine .bind_ofExcept fun xs hc => ?_
  have hall : ∀ x ∈ xs, ∀ g', g.Grows g' →
      (x.traverse fun _ elaborate => elaborate).Ensures P g' fun g' y =>
        g'.Over P y.value.handles := by
    intro x hx g' _
    obtain ⟨f, hf, hfx⟩ := FieldExpr.exists_of_mem_canonicalize hc hx
    have hitem : x.value.Ensures P g' fun g' t => g'.Over P t.handles := hfx ▸ h f hf g'
    exact Elaboration.Ensures.traverse (f := fun _ elaborate => elaborate) hitem
  refine .bind (.mapM (fun hg hy => hy.grows hg) hall) fun ys g₂ houtcome _ hys => ?_
  have ha : Field.Ascending ys :=
    (FieldExpr.canonicalize_ascending hc).of_names_eq (Elaboration.names_of_mapM_traverse houtcome)
  exact .lift (.intern ha hys)

theorem ensures_elaborate (e : TypeExpr) (g : Registry) :
    e.elaborate.Ensures P g fun g' t => g'.Over P t.handles := by
  induction e using TypeExpr.induction generalizing g with
  | named name args span ih =>
    rw [elaborate, elaborateArgs_eq_mapM]
    refine .bind (.mapM (fun hg ht => ht.grows hg) fun a ha g' _ => ih a ha g')
      fun ts g' _ _ hts => .pure ?_
    rwa [Ty.handles_named, over_flatMap]
  | record fields span ih =>
    rw [elaborate, elaborateFields_eq_map]
    refine .bind (ensures_recordType fun f hf => ?_) fun r g' _ _ hr => .pure hr
    obtain ⟨x, hx, rfl⟩ := List.mem_map.1 hf
    exact ih x hx

theorem ensures_elaborateRecord (r : RecordExpr TypeExpr) (g : Registry) :
    (elaborateRecord r).Ensures P g fun g' r => g'.Over P r.ty.handles := by
  rw [elaborateRecord, elaborateFields_eq_map]
  refine ensures_recordType fun f hf => ?_
  obtain ⟨x, -, rfl⟩ := List.mem_map.1 hf
  exact ensures_elaborate x.item

theorem extends_elaborate (e : TypeExpr) : e.elaborate.Extends := fun g =>
  (e.ensures_elaborate (P := fun _ => False) g).1.grows

end TypeExpr

theorem Scalar.exists_of_elaborate {s : Scalar} {span : Span} {expected : Option Ty} {path : Path}
    {v : Value} (h : s.elaborate span expected path = .ok v) : ∃ w, v = .scalar w := by
  cases expected with
  | none => exact ⟨s, (Except.ok.inj h).symm⟩
  | some ty =>
    rw [elaborate] at h
    split at h
    · next value hat =>
      obtain rfl := Except.ok.inj h
      unfold at? at hat
      split at hat
      · exact ⟨s, (Option.some.inj hat).symm⟩
      · split at hat
        · split at hat
          · exact ⟨_, (Option.some.inj hat).symm⟩
          · cases hat
        · cases hat
    · cases h

namespace Expr

/-- Fields with a canonical list are inferred in its order, or checked in its order against the
fields of the expected record type. -/
theorem recordValue_of_canonicalize {fields : List (FieldExpr Elaborator)}
    {ys : List (Field Elaborator)} (hc : FieldExpr.canonicalize fields = .ok ys) (span : Span)
    (expected : Option Ty) (path : Path) :
    recordValue fields span expected path =
      match expected with
      | none => inferred ys path
      | some ty =>
        match ty.recordType? with
        | none => .ofExcept (mismatched ty ys span path)
        | some r =>
          if r.names = ys.map Field.name then do return ⟨r, ← checkedValues path ys r.fields⟩
          else .ofExcept (mismatched ty ys span path) := by
  rw [recordValue, hc]
  rfl

theorem recordValue_of_clash {fields : List (FieldExpr Elaborator)} {clash : DuplicateField}
    (hc : FieldExpr.canonicalize fields = .error clash) (span : Span) (expected : Option Ty)
    (path : Path) :
    recordValue fields span expected path = .ofExcept (.error (.duplicate clash)) := by
  rw [recordValue, hc]
  rfl

theorem inferred_map (xs : List (Field Expr)) (path : Path) :
    inferred (xs.map (Field.map elaborate)) path = (do
      let values ← xs.mapM (Field.traverse fun name (e : Expr) => e.elaborate none (path ++ [name]))
      RecordValue.ofCanonical values) := by
  rw [inferred, List.mapM_map]
  rfl

theorem mismatched_ne_ok (ty : Ty) (ys : List (Field Elaborator)) (span : Span) (path : Path)
    (r : RecordValue) : mismatched ty ys span path ≠ .ok r := by
  unfold mismatched
  split <;> nofun

/-- What is elaborated is made of the expected type, if there is one, and of types entered on the
way. -/
def Elaborator.Ensures (P : RecordType → Prop) (elaborate : Elaborator) : Prop :=
  ∀ g expected path, (∀ ty, expected = some ty → g.Over P ty.handles) →
    (elaborate expected path).Ensures P g fun g' v => g'.Over P v.handles

theorem ensures_inferred {fields : List (Field Elaborator)} (ha : Field.Ascending fields)
    (h : ∀ f ∈ fields, f.value.Ensures P) (path : Path) :
    (inferred fields path).Ensures P g fun g' r => g'.Over P r.value.handles := by
  refine .bind (.mapM (fun hg hv => hv.grows hg) fun f hf g' _ =>
    .traverse (h f hf g' none _ nofun)) fun ys g' houtcome _ hys => .lift ?_
  exact RecordValue.ensures_ofCanonical
    (ha.of_names_eq (Elaboration.names_of_mapM_traverse houtcome)) hys

theorem ensures_checkedValues {fields : List (Field Elaborator)}
    (h : ∀ f ∈ fields, f.value.Ensures P) (path : Path) {types : List (Field Ty)}
    (htypes : ∀ f ∈ types, g.Over P f.value.handles) :
    (checkedValues path fields types).Ensures P g fun g' vs => ∀ v ∈ vs, g'.Over P v.handles := by
  induction fields generalizing types g with
  | nil => exact .pure nofun
  | cons f rest ih =>
    cases types with
    | nil => exact .pure nofun
    | cons declared types =>
      obtain ⟨hdeclared, htypes⟩ := List.forall_mem_cons.1 htypes
      refine .bind (h f List.mem_cons_self g _ _ fun ty hty => Option.some.inj hty ▸ hdeclared)
        fun v g₁ _ hg₁ hv => ?_
      refine .bind (ih (fun x hx => h x (List.mem_cons_of_mem f hx)) fun d hd =>
        (htypes d hd).grows hg₁) fun vs g₂ _ hg₂ hvs => .pure ?_
      exact List.forall_mem_cons.2 ⟨hv.grows hg₂, hvs⟩

theorem ensures_recordValue {fields : List (FieldExpr Elaborator)}
    (h : ∀ f ∈ fields, f.item.Ensures P) (span : Span) {expected : Option Ty}
    (hexpected : ∀ ty, expected = some ty → g.Over P ty.handles) (path : Path) :
    (recordValue fields span expected path).Ensures P g fun g' r => g'.Over P r.value.handles := by
  cases hc : FieldExpr.canonicalize fields with
  | error clash =>
    rw [recordValue_of_clash hc]
    exact .ofExcept nofun
  | ok ys =>
    have hall : ∀ y ∈ ys, y.value.Ensures P := by
      intro y hy
      obtain ⟨f, hf, rfl⟩ := FieldExpr.exists_of_mem_canonicalize hc hy
      exact h f hf
    rw [recordValue_of_canonicalize hc]
    cases expected with
    | none => exact ensures_inferred (FieldExpr.canonicalize_ascending hc) hall path
    | some ty =>
      have hrefused : (Elaboration.ofExcept (mismatched ty ys span path)).Ensures P g
          fun g' r => g'.Over P r.value.handles :=
        .ofExcept fun r hr => absurd hr (mismatched_ne_ok ty ys span path r)
      dsimp only
      split
      · exact hrefused
      · next r htype =>
        split
        · have hty := hexpected ty rfl
          rw [Ty.eq_ty_of_recordType? htype] at hty
          have htypes : ∀ f ∈ r.fields, g.Over P f.value.handles := by
            rw [Ty.handles_ty] at hty
            exact over_flatMap.1 (hty.subset (List.subset_cons_self _ _))
          refine .bind (ensures_checkedValues hall path htypes) fun vs g' _ hg hvs => .pure ?_
          rw [RecordValue.value, Value.handles_record, over_append, over_flatMap]
          exact ⟨hty.grows hg, hvs⟩
        · exact hrefused

theorem ensures_elaborate (e : Expr) : Elaborator.Ensures P e.elaborate := by
  induction e using Expr.induction with
  | scalar s span =>
    intro g expected path _
    refine .ofExcept fun v hv => ?_
    obtain ⟨w, rfl⟩ := Scalar.exists_of_elaborate hv
    exact over_nil
  | record fields span ih =>
    intro g expected path hexpected
    rw [elaborate, elaborateFields_eq_map]
    refine .bind (ensures_recordValue (fun f hf => ?_) span hexpected path)
      fun r g' _ _ hr => .pure hr
    obtain ⟨x, hx, rfl⟩ := List.mem_map.1 hf
    exact ih x hx

theorem ensures_elaborateRecord (r : RecordExpr Expr) {expected : Option RecordType}
    (hexpected : ∀ type, expected = some type → g.Over P type.ty.handles) :
    (elaborateRecord r expected).Ensures P g fun g' r => g'.Over P r.value.handles := by
  rw [elaborateRecord, elaborateFields_eq_map]
  refine ensures_recordValue (fun f hf => ?_) _ (fun ty hty => ?_) _
  · obtain ⟨x, -, rfl⟩ := List.mem_map.1 hf
    exact ensures_elaborate x.item
  · obtain ⟨type, htype, rfl⟩ := Option.map_eq_some_iff.1 hty
    exact hexpected type htype

theorem extends_elaborate (e : Expr) (path : Path) : (e.elaborate none path).Extends := fun g =>
  (e.ensures_elaborate (P := fun _ => False) g none path nofun).1.grows

end Expr

namespace Host

theorem ensures_fieldTypes {fields : List (Field Host)}
    (h : ∀ f ∈ fields, ∀ g, (ty f.value).Ensures P g fun g' t => g'.Over P t.handles) :
    (fieldTypes fields).Ensures P g fun g' ts => ∀ f ∈ ts, g'.Over P f.value.handles := by
  induction fields generalizing g with
  | nil => exact .pure nofun
  | cons f rest ih =>
    refine .bind (h f List.mem_cons_self g) fun t g₁ _ ht => ?_
    refine .bind (ih fun x hx => h x (List.mem_cons_of_mem f hx)) fun ts g₂ hg₂ hts => .pure ?_
    exact List.forall_mem_cons.2 ⟨ht.grows hg₂, hts⟩

theorem ensures_ty (host : Host) (g : Registry) :
    host.ty.Ensures P g fun g' t => g'.Over P t.handles := by
  induction host using Host.induction generalizing g with
  | primitive p => exact .pure (by simp [over_nil])
  | struct fields ih =>
    rw [ty]
    refine .bind (ensures_fieldTypes ih) fun ts g' _ hts => ?_
    exact .bind (ensures_structType hts) fun r _ _ hr => .pure hr

theorem ensures_structValue {fields : List (Field (Ty × Value))}
    (h : ∀ f ∈ fields, g.Over P f.value.1.handles ∧ g.Over P f.value.2.handles) :
    (structValue fields).Ensures P g fun g' v => g'.Over P v.handles := by
  have htypes : ∀ f ∈ fields.map (Field.map Prod.fst), g.Over P f.value.handles := by
    intro f hf
    obtain ⟨x, hx, rfl⟩ := List.mem_map.1 hf
    exact (h x hx).1
  refine .bind (ensures_structType htypes) fun r g' hg hr => .pure ?_
  rw [Value.handles_record, over_append, over_flatMap]
  refine ⟨hr, fun v hv => ?_⟩
  rw [Field.ofFields_map] at hv
  simp only [List.map_map, List.mem_map, Function.comp_apply, Field.map_value] at hv
  obtain ⟨x, hx, rfl⟩ := hv
  exact (h x (Field.mem_of_mem_ofFields hx)).2.grows hg

theorem ensures_fieldValues {fields : List (Field Host)}
    (h : ∀ f ∈ fields, ∀ x g, (toValue f.value x).Ensures P g fun g' v => g'.Over P v.handles)
    (data : FieldsData fields) :
    (fieldValues fields data).Ensures P g fun g' xs =>
      ∀ x ∈ xs, g'.Over P x.value.1.handles ∧ g'.Over P x.value.2.handles := by
  induction fields generalizing g with
  | nil => exact .pure nofun
  | cons f rest ih =>
    obtain ⟨x, data⟩ := data
    refine .bind (ensures_ty f.value g) fun t g₁ _ ht => ?_
    refine .bind (h f List.mem_cons_self x g₁) fun v g₂ hg₂ hv => ?_
    refine .bind (ih (fun y hy => h y (List.mem_cons_of_mem f hy)) data)
      fun xs g₃ hg₃ hxs => .pure ?_
    exact List.forall_mem_cons.2 ⟨⟨(ht.grows hg₂).grows hg₃, hv.grows hg₃⟩, hxs⟩

theorem ensures_toValue (host : Host) (data : host.Data) (g : Registry) :
    (host.toValue data).Ensures P g fun g' v => g'.Over P v.handles := by
  induction host using Host.induction generalizing g with
  | primitive p => exact .pure over_nil
  | struct fields ih =>
    rw [toValue]
    exact .bind (ensures_fieldValues ih data) fun xs g' _ hxs => ensures_structValue hxs

variable {α : Type} {Q : Registry → α → Prop}

theorem ensures_refuse (host : Host) (value : Value) :
    (refuse host value : Elaboration TypeMismatch α).Ensures P g Q :=
  .bind (.lift (ensures_ty host g)) fun _ _ _ _ _ => .throw _

theorem ensures_recordOf (host : Host) (value : Value) :
    (recordOf host value).Ensures P g fun _ r => r.value = value := by
  refine .bind (.lift (ensures_ty host g)) fun t g' _ _ _ => ?_
  cases value with
  | scalar s => exact ensures_refuse host _
  | record type values =>
    dsimp only [Value.record?]
    split
    · exact .pure rfl
    · exact ensures_refuse host _

theorem ensures_fieldOf (host : Host) {convert : Value → Elaboration TypeMismatch α}
    (h : ∀ v g, (convert v).Ensures P g fun _ _ => True) (r : RecordValue) (name : FieldName)
    (g : Registry) : (fieldOf host convert r name).Ensures P g fun _ _ => True := by
  rw [fieldOf]
  split
  · exact .bind (.lift (ensures_ty host g)) fun _ _ _ _ _ => .throw _
  · exact .adapt _ (h _ g)

theorem ensures_ofRecord {fields : List (Field Host)}
    (h : ∀ f ∈ fields, ∀ v g, (ofValue f.value v).Ensures P g fun _ _ => True) (r : RecordValue)
    (g : Registry) : (ofRecord fields r).Ensures P g fun _ _ => True := by
  induction fields generalizing g with
  | nil => exact .pure trivial
  | cons f rest ih =>
    refine .bind (ensures_fieldOf f.value (h f List.mem_cons_self) r f.name g) fun x g' _ _ _ => ?_
    exact .bind (ih (fun y hy => h y (List.mem_cons_of_mem f hy)) g') fun _ _ _ _ _ => .pure trivial

theorem ensures_ofValue (host : Host) (value : Value) (g : Registry) :
    (host.ofValue value).Ensures P g fun _ _ => True := by
  induction host using Host.induction generalizing value g with
  | primitive p =>
    rw [ofValue]
    split
    · exact .pure trivial
    · exact ensures_refuse _ value
  | struct fields ih =>
    rw [ofValue]
    exact .bind (ensures_recordOf _ value) fun r g' _ _ _ => ensures_ofRecord ih r g'

end Host

def Elaboration.values {ε α : Type} (f : α → Value) (x : Elaboration ε α) (g : Registry) :
    List Value := (x.outcome g).1.toOption.toList.map f

theorem Elaboration.mem_values {ε α : Type} {f : α → Value} {x : Elaboration ε α} {v : Value} :
    v ∈ x.values f g ↔ ∃ a, x.outcome g = (.ok a, (x.outcome g).2) ∧ f a = v := by
  rw [values]
  cases h : x.outcome g with
  | mk result g' => cases result <;> simp [Except.toOption, eq_comm]

theorem Elaboration.Ensures.values {ε α : Type} {f : α → Value} {x : Elaboration ε α}
    (h : x.Ensures P g fun g' a => g'.Over P (f a).handles) :
    g.GrowsOver P (x.outcome g).2 ∧ ∀ v ∈ x.values f g, (x.outcome g).2.Over P v.handles := by
  refine ⟨h.1, fun v hv => ?_⟩
  obtain ⟨a, ha, rfl⟩ := Elaboration.mem_values.1 hv
  exact h.2 a _ ha

theorem Interning.Ensures.values {α : Type} {f : α → Value} {x : Interning α}
    (h : x.Ensures P g fun g' a => g'.Over P (f a).handles) :
    g.GrowsOver P (x.outcome g).2 ∧
      ∀ v ∈ [f (x.outcome g).1], (x.outcome g).2.Over P v.handles :=
  ⟨h.1, fun _ hv => List.mem_singleton.1 hv ▸ h.2⟩

namespace Registry

/-- What can be done with a registry, apart from looking at its entries. -/
inductive Operation where
  | intern (fields : List (Field Ty)) (ascending : Field.Ascending fields)
  | internFields (fields : List (Field Ty))
  | tupleType (elements : List Ty)
  | structType (fields : List (Field Ty))
  | elaborateType (e : TypeExpr)
  | elaborateRecordType (r : RecordExpr TypeExpr)
  | elaborateValue (e : Expr) (expected : Option Ty)
  | elaborateRecordValue (r : RecordExpr Expr) (expected : Option RecordType)
  | recordOfCanonical (fields : List (Field Value)) (ascending : Field.Ascending fields)
  | recordOfFields (fields : List (Field Value))
  | tupleValue (elements : List Value)
  | structValue (fields : List (Field (Ty × Value)))
  | hostType (host : Host)
  | hostToValue (host : Host) (data : host.Data)
  | hostOfValue (host : Host) (value : Value)
  | hostRecord (host : Host) (value : Value)
  | hostField (host : Host) (r : RecordValue) (name : FieldName)

namespace Operation

/-- The registry behind the operation, whether or not it has failed. -/
def run : Operation → Registry → Registry
  | .intern fields _, g => ((Registry.intern fields).outcome g).2
  | .internFields fields, g => ((Registry.internFields fields).outcome g).2
  | .tupleType elements, g => ((Registry.tuple elements).outcome g).2
  | .structType fields, g => ((Registry.structType fields).outcome g).2
  | .elaborateType e, g => (e.elaborate.outcome g).2
  | .elaborateRecordType r, g => ((TypeExpr.elaborateRecord r).outcome g).2
  | .elaborateValue e expected, g => ((e.elaborate expected []).outcome g).2
  | .elaborateRecordValue r expected, g => ((Expr.elaborateRecord r expected).outcome g).2
  | .recordOfCanonical fields _, g => ((RecordValue.ofCanonical fields).outcome g).2
  | .recordOfFields fields, g => ((RecordValue.ofFields fields).outcome g).2
  | .tupleValue elements, g => ((RecordValue.tuple elements).outcome g).2
  | .structValue fields, g => ((Host.structValue fields).outcome g).2
  | .hostType host, g => (host.ty.outcome g).2
  | .hostToValue host data, g => ((host.toValue data).outcome g).2
  | .hostOfValue host value, g => ((host.ofValue value).outcome g).2
  | .hostRecord host value, g => ((host.recordOf value).outcome g).2
  | .hostField host r name, g => ((host.field r name).outcome g).2

def supplied : Operation → List RecordType
  | .intern fields _ => fields.flatMap fun f => f.value.handles
  | .internFields fields => fields.flatMap fun f => f.value.handles
  | .tupleType elements => elements.flatMap Ty.handles
  | .structType fields => fields.flatMap fun f => f.value.handles
  | .elaborateType _ => []
  | .elaborateRecordType _ => []
  | .elaborateValue _ expected => expected.toList.flatMap Ty.handles
  | .elaborateRecordValue _ expected => expected.toList.flatMap fun r => r.ty.handles
  | .recordOfCanonical fields _ => fields.flatMap fun f => f.value.handles
  | .recordOfFields fields => fields.flatMap fun f => f.value.handles
  | .tupleValue elements => elements.flatMap Value.handles
  | .structValue fields => fields.flatMap fun f => f.value.1.handles ++ f.value.2.handles
  | .hostType _ => []
  | .hostToValue _ _ => []
  | .hostOfValue _ value => value.handles
  | .hostRecord _ value => value.handles
  | .hostField _ r _ => r.value.handles

def returned : Operation → Registry → List Value
  | .elaborateValue e expected, g => (e.elaborate expected []).values id g
  | .elaborateRecordValue r expected, g =>
    (Expr.elaborateRecord r expected).values RecordValue.value g
  | .recordOfCanonical fields _, g => [((RecordValue.ofCanonical fields).outcome g).1.value]
  | .recordOfFields fields, g => (RecordValue.ofFields fields).values RecordValue.value g
  | .tupleValue elements, g => [((RecordValue.tuple elements).outcome g).1.value]
  | .structValue fields, g => [((Host.structValue fields).outcome g).1]
  | .hostToValue host data, g => [((host.toValue data).outcome g).1]
  | .hostRecord host value, g => (host.recordOf value).values RecordValue.value g
  | _, _ => []

/-- Both what an operation interns and what it returns are made of the record types supplied to it
and of those that the registry holds. -/
theorem ensures_run {op : Operation} (h : ∀ r ∈ op.supplied, P r) :
    g.GrowsOver P (op.run g) ∧ ∀ v ∈ op.returned g, (op.run g).Over P v.handles := by
  have hover : g.Over P op.supplied := over_of_given h
  cases op with
  | intern fields ha => exact ⟨(Interning.Ensures.intern ha (over_flatMap.1 hover)).1, nofun⟩
  | internFields fields => exact ⟨(ensures_internFields (over_flatMap.1 hover)).1, nofun⟩
  | tupleType elements => exact ⟨(ensures_tuple (over_flatMap.1 hover)).1, nofun⟩
  | structType fields => exact ⟨(ensures_structType (over_flatMap.1 hover)).1, nofun⟩
  | elaborateType e => exact ⟨(e.ensures_elaborate g).1, nofun⟩
  | elaborateRecordType r => exact ⟨(TypeExpr.ensures_elaborateRecord r g).1, nofun⟩
  | elaborateValue e expected =>
    refine Elaboration.Ensures.values (f := id) (e.ensures_elaborate g expected [] fun ty hty => ?_)
    exact over_flatMap.1 hover ty (Option.mem_toList.2 hty)
  | elaborateRecordValue r expected =>
    refine Elaboration.Ensures.values (Expr.ensures_elaborateRecord r fun type htype => ?_)
    exact over_flatMap.1 hover type (Option.mem_toList.2 htype)
  | recordOfCanonical fields ha =>
    exact Interning.Ensures.values (RecordValue.ensures_ofCanonical ha (over_flatMap.1 hover))
  | recordOfFields fields =>
    exact Elaboration.Ensures.values (RecordValue.ensures_ofFields (over_flatMap.1 hover))
  | tupleValue elements =>
    exact Interning.Ensures.values (RecordValue.ensures_tuple (over_flatMap.1 hover))
  | structValue fields =>
    refine Interning.Ensures.values (f := id) (Host.ensures_structValue fun f hf => ?_)
    exact over_append.1 (over_flatMap.1 hover f hf)
  | hostType host => exact ⟨(host.ensures_ty g).1, nofun⟩
  | hostToValue host data => exact Interning.Ensures.values (f := id) (host.ensures_toValue data g)
  | hostOfValue host value => exact ⟨(host.ensures_ofValue value g).1, nofun⟩
  | hostRecord host value =>
    exact Elaboration.Ensures.values ((host.ensures_recordOf value).imp fun g' r hg hr =>
      hr ▸ hover.grows hg)
  | hostField host r name => exact ⟨(host.ensures_fieldOf host.ensures_ofValue r name g).1, nofun⟩

theorem grows_run (op : Operation) (g : Registry) : g.Grows (op.run g) :=
  (ensures_run (P := fun _ => True) fun _ _ => trivial).1.grows

def runAll (ops : List Operation) (g : Registry) : Registry := ops.foldl (fun g op => op.run g) g

theorem grows_runAll (ops : List Operation) (g : Registry) : g.Grows (runAll ops g) := by
  induction ops generalizing g with
  | nil => exact .refl
  | cons op ops ih => exact (op.grows_run g).trans (ih (op.run g))

end Operation

/-- A registry that a run of operations leads to. -/
def Reachable (g : Registry) : Prop :=
  ∃ owner ops, g = Operation.runAll ops (.empty owner)

theorem Reachable.run {g : Registry} (h : g.Reachable) (op : Operation) : (op.run g).Reachable := by
  obtain ⟨owner, ops, rfl⟩ := h
  exact ⟨owner, ops ++ [op], by rw [Operation.runAll, Operation.runAll, List.foldl_concat]⟩

theorem Reachable.valid {g : Registry} (h : g.Reachable) : g.Valid := by
  obtain ⟨owner, ops, rfl⟩ := h
  exact (Operation.grows_runAll ops _).valid (valid_empty owner)

end Registry

namespace Ty

/-- The record types in the type were given out by registries. -/
def Genuine (t : Ty) : Prop := ∀ r ∈ t.handles, ∃ g : Registry, g.Reachable ∧ g.Holds r

theorem Genuine.ascending {r : RecordType} (h : r.ty.Genuine) : Field.Ascending r.fields := by
  obtain ⟨g, hg, hr⟩ := h r (by simp [handles_ty])
  exact hg.valid.ascending_of_holds hr

theorem Genuine.of_mem_fields {r : RecordType} {f : Field Ty} (h : r.ty.Genuine)
    (hf : f ∈ r.fields) : f.value.Genuine := by
  intro s hs
  refine h s ?_
  rw [handles_ty]
  exact List.mem_cons_of_mem r (List.mem_flatMap_of_mem hf hs)

end Ty

end RecordLens
