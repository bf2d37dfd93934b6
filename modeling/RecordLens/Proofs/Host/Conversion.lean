import Mathlib.Data.List.Nodup
import Mathlib.Data.List.Perm.Subperm
import RecordLens.Proofs.Host.Values
import RecordLens.Proofs.Value.Denotation
import RecordLens.Proofs.Value.Records

/-! Host data and values turn into each other. In a registry that has the type of the data nothing
is entered for a conversion. There the data of a structure and a record are made of each other field
by field: the record keeps the fields in canonical order, and each is found in it by its name. -/

namespace RecordLens

namespace RecordValue

theorem ofFields_eq_fields {r : RecordValue} (ha : Field.Ascending r.type.fields)
    (hw : r.value.WellTyped) {ws : List (Field Value)} (hn : (ws.map Field.name).Nodup)
    (hlength : ws.length = r.type.fields.length)
    (hget : ∀ f ∈ ws, r.get? f.name = some f.value) : Field.ofFields ws = r.fields := by
  have hfields : r.fields.length = ws.length := by
    rw [hlength, ← List.length_map (f := Field.map Value.typeOf), map_typeOf_fields hw]
  have hsubset : ws ⊆ r.fields := fun f hf => mem_fields_of_get? ha (hget f hf)
  have hperm : ws.Perm r.fields :=
    (List.subperm_of_subset (List.Nodup.of_map Field.name hn) hsubset).perm_of_length_le
      (Nat.le_of_eq hfields)
  exact (Field.ascending_ofFields ws).eq_of_perm (ha.of_names_eq (names_fields hw))
    ((Field.ofFields_perm hn).trans hperm)

end RecordValue

namespace Host

open Elaboration (outcome_bind outcome_bind_ok outcome_bind_error_iff outcome_bind_congr
  outcome_lift outcome_adapt)

theorem fieldValues_again {fields : List (Field Host)}
    (h : ∀ f ∈ fields, ∀ (x : f.value.Data) {g g' : Registry}, g.Valid →
      (f.value.ty.outcome g).2.Grows g' →
        (f.value.toValue x).outcome g' = (((f.value.toValue x).outcome g).1, g'))
    (data : FieldsData fields) {g g' : Registry} (hv : g.Valid)
    (hg : ((fieldTypes fields).outcome g).2.Grows g') :
    (fieldValues fields data).outcome g' = (((fieldValues fields data).outcome g).1, g') := by
  induction fields generalizing g with
  | nil => rfl
  | cons f rest ih =>
    obtain ⟨name, host⟩ := f
    obtain ⟨x, data⟩ := data
    have hrest : ((fieldTypes rest).outcome (host.ty.outcome g).2).2.Grows g' := hg
    have hg₁ : (host.ty.outcome g).2.Grows g' := (grows_fieldTypes rest _).trans hrest
    have hv₁ : (host.ty.outcome g).2.Valid := (grows_ty host g).valid hv
    have htype : host.ty.outcome g' = ((host.ty.outcome g).1, g') := ty_again host hg₁
    have htype₁ : host.ty.outcome (host.ty.outcome g).2 = host.ty.outcome g := ty_again host .refl
    have hgrows : (host.ty.outcome (host.ty.outcome g).2).2.Grows g' := by rwa [htype₁]
    have hvalue := h _ List.mem_cons_self x hv₁ hgrows
    have hreg : ((host.toValue x).outcome (host.ty.outcome g).2).2 = (host.ty.outcome g).2 := by
      rw [(host.typed x _ hv₁).2.2, htype₁]
    have hvalues := ih (fun y hy => h y (List.mem_cons_of_mem _ hy)) data hv₁ hrest
    simp only [fieldValues, Interning.outcome_bind, Interning.outcome_pure, htype, hvalue, hreg,
      hvalues]

theorem toValue_again (host : Host) (x : host.Data) {g g' : Registry} (hv : g.Valid)
    (hg : (host.ty.outcome g).2.Grows g') :
    (host.toValue x).outcome g' = (((host.toValue x).outcome g).1, g') := by
  induction host using Host.induction generalizing g g' with
  | primitive p => rfl
  | struct fields ih =>
    have hfields := typed_fieldValues (fun f _ => f.value.typed) x hv
    have hgrows : ((fieldTypes fields).outcome g).2.Grows g' :=
      Registry.Grows.trans (.intern .refl (Field.ascending_ofFields _)) hg
    have hvalues := fieldValues_again (fun f hf y _ _ hv hg => ih f hf y hv hg) x hv hgrows
    have htype : (Registry.structType ((fieldTypes fields).outcome g).1).outcome g' = (_, g') :=
      Registry.structType_again (g := ((fieldTypes fields).outcome g).2) hg
    simp only [toValue, structValue, Interning.outcome_bind, Interning.outcome_pure, hvalues,
      hfields.2.1, hfields.2.2, htype]

/-- The registry has the type of the data, so asking for it enters nothing. -/
def Entered (host : Host) (t : Ty) (g : Registry) : Prop := host.ty.outcome g = (t, g)

def EnteredFields (fields : List (Field Host)) (types : List (Field Ty)) (g : Registry) : Prop :=
  (fieldTypes fields).outcome g = (types, g)

section Entered

variable {g : Registry} {t : Ty}

theorem entered_struct {fields : List (Field Host)} (h : (struct fields).Entered t g) :
    ∃ types r, EnteredFields fields types g ∧
      (Registry.structType types).outcome g = (r, g) ∧ r.fields = Field.ofFields types ∧
      t = r.ty := by
  simp only [Entered, ty, Interning.outcome_bind, Interning.outcome_pure, Prod.mk.injEq] at h
  have hgrows : ((fieldTypes fields).outcome g).2.Grows ((Registry.structType
      ((fieldTypes fields).outcome g).1).outcome ((fieldTypes fields).outcome g).2).2 :=
    .intern .refl (Field.ascending_ofFields _)
  have hg := (grows_fieldTypes fields g).eq_between hgrows h.2
  rw [hg] at h
  exact ⟨_, _, Prod.ext rfl hg, Prod.ext rfl h.2, Registry.fields_intern _ g, h.1.symm⟩

theorem entered_cons {name : FieldName} {host : Host} {rest : List (Field Host)}
    {types : List (Field Ty)} (h : EnteredFields (⟨name, host⟩ :: rest) types g) :
    ∃ t ts, types = ⟨name, t⟩ :: ts ∧ host.Entered t g ∧ EnteredFields rest ts g := by
  simp only [EnteredFields, fieldTypes, Interning.outcome_bind, Interning.outcome_pure,
    Prod.mk.injEq] at h
  have hg := (grows_ty host g).eq_between (grows_fieldTypes rest _) h.2
  rw [hg] at h
  exact ⟨_, _, h.1.symm, Prod.ext rfl hg, Prod.ext rfl h.2⟩

end Entered

section FieldOf

variable {α : Type} {host : Host} {convert : Value → Elaboration TypeMismatch α}
  {r : RecordValue} {name : FieldName} {w : Value} {g g' : Registry}

/-- A field that the record has is converted, and an error inside of it is put under its name. -/
theorem outcome_fieldOf_of_get? (hw : r.get? name = some w) :
    (fieldOf host convert r name).outcome g =
      (((convert w).outcome g).1.mapError fun e => { e with path := name :: e.path },
        ((convert w).outcome g).2) := by
  rw [fieldOf, hw]
  exact outcome_adapt _ _ g

theorem outcome_fieldOf_ok_iff (hw : r.get? name = some w) {a : α} :
    (fieldOf host convert r name).outcome g = (.ok a, g') ↔
      (convert w).outcome g = (.ok a, g') := by
  rw [outcome_fieldOf_of_get? hw]
  rcases (convert w).outcome g with ⟨_ | _, _⟩ <;> simp [Except.mapError]

theorem outcome_fieldOf_error_iff (hw : r.get? name = some w) {e : TypeMismatch} :
    (fieldOf host convert r name).outcome g = (.error e, g') ↔
      ∃ d, (convert w).outcome g = (.error d, g') ∧ e = { d with path := name :: d.path } := by
  rw [outcome_fieldOf_of_get? hw]
  rcases (convert w).outcome g with ⟨_ | _, _⟩ <;> simp [Except.mapError, eq_comm, and_comm]

end FieldOf

/-- The registry makes the value of the data and the data of the value, and enters nothing. -/
def Exchanges (g : Registry) (host : Host) (x : host.Data) (v : Value) : Prop :=
  (host.toValue x).outcome g = (v, g) ∧ (host.ofValue v).outcome g = (.ok x, g)

def ExchangesFields (g : Registry) :
    (fields : List (Field Host)) → FieldsData fields → List (Field Value) → Prop
  | [], _, ws => ws = []
  | ⟨name, host⟩ :: rest, (x, data), w :: ws =>
    w.name = name ∧ Exchanges g host x w.value ∧ ExchangesFields g rest data ws
  | _ :: _, _, [] => False

section Exchange

variable {g : Registry} {t : Ty} {fields : List (Field Host)} {types : List (Field Ty)}
  {data : FieldsData fields} {ws : List (Field Value)}

theorem EnteredFields.names_eq (h : EnteredFields fields types g) :
    types.map Field.name = fields.map Field.name := by
  induction fields generalizing types with
  | nil =>
    obtain rfl : [] = types := congrArg Prod.fst h
    rfl
  | cons f rest ih =>
    obtain ⟨t, ts, rfl, -, hts⟩ := entered_cons h
    rw [List.map_cons, List.map_cons, ih hts]

theorem ExchangesFields.names_eq (h : ExchangesFields g fields data ws) :
    ws.map Field.name = fields.map Field.name := by
  induction fields generalizing ws with
  | nil =>
    obtain rfl : ws = [] := h
    rfl
  | cons f rest ih =>
    cases ws with
    | nil => exact h.elim
    | cons w ws =>
      obtain ⟨hname, -, hrest⟩ := h
      rw [List.map_cons, List.map_cons, hname, ih hrest]

theorem ExchangesFields.exists_fieldValues (h : ExchangesFields g fields data ws)
    (ht : EnteredFields fields types g) :
    ∃ fs, (fieldValues fields data).outcome g = (fs, g) ∧
      fs.map (Field.map Prod.fst) = types ∧ fs.map (Field.map Prod.snd) = ws := by
  induction fields generalizing ws types with
  | nil =>
    obtain rfl : ws = [] := h
    obtain rfl : [] = types := congrArg Prod.fst ht
    exact ⟨[], rfl, rfl, rfl⟩
  | cons f rest ih =>
    obtain ⟨name, host⟩ := f
    obtain ⟨x, data⟩ := data
    obtain ⟨t, ts, rfl, hentered, hts⟩ := entered_cons ht
    cases ws with
    | nil => exact h.elim
    | cons w ws =>
      obtain ⟨hname, ⟨hvalue, -⟩, hrest⟩ := h
      obtain ⟨fs, hfs, htypes, hvalues⟩ := ih hrest hts
      refine ⟨⟨name, t, w.value⟩ :: fs, ?_, ?_, ?_⟩
      · rw [Entered] at hentered
        simp only [fieldValues, Interning.outcome_bind, Interning.outcome_pure, hentered, hvalue,
          hfs]
      · rw [List.map_cons, htypes]
        rfl
      · rw [List.map_cons, hvalues, ← hname]
        rfl

theorem ExchangesFields.outcome_ofRecord (h : ExchangesFields g fields data ws) {r : RecordValue}
    (hget : ∀ w ∈ ws, r.get? w.name = some w.value) :
    (ofRecord fields r).outcome g = (.ok data, g) := by
  induction fields generalizing ws with
  | nil => rfl
  | cons f rest ih =>
    cases ws with
    | nil => exact h.elim
    | cons w ws =>
      obtain ⟨hname, ⟨-, hread⟩, hrest⟩ := h
      obtain ⟨hw, hws⟩ := List.forall_mem_cons.1 hget
      have hfield : (fieldOf f.value f.value.ofValue r f.name).outcome g = (.ok _, g) :=
        (outcome_fieldOf_ok_iff (hname ▸ hw)).2 hread
      exact outcome_bind_ok.2 ⟨_, g, hfield, outcome_bind_ok.2 ⟨_, g, ih hrest hws, rfl⟩⟩

end Exchange

section Entered

variable {g : Registry} {host : Host} {t : Ty}

theorem outcome_refuse {α : Type} (h : host.Entered t g) (v : Value) :
    (host.refuse v : Elaboration TypeMismatch α).outcome g =
      (.error (.between t v.typeOf [] none), g) := by
  rw [Entered] at h
  rw [refuse, outcome_bind, outcome_lift, h]
  rfl

theorem outcome_recordOf_ok (h : host.Entered t g) {r : RecordValue}
    (ha : t.accepts r.value = true) : (host.recordOf r.value).outcome g = (.ok r, g) := by
  rw [Entered] at h
  rw [recordOf, outcome_bind, outcome_lift, h]
  dsimp only [Value.record?_value]
  rw [if_pos ha]
  rfl

theorem outcome_recordOf_error (h : host.Entered t g) {v : Value} (ha : t.accepts v = false) :
    (host.recordOf v).outcome g = (.error (.between t v.typeOf [] none), g) := by
  have hrefuse : (host.refuse v : Elaboration TypeMismatch RecordValue).outcome g = _ :=
    outcome_refuse h v
  rw [Entered] at h
  rw [recordOf, outcome_bind, outcome_lift, h]
  cases v with
  | scalar s => exact hrefuse
  | record type values =>
    dsimp only [Value.record?]
    rw [if_neg (by simp [ha])]
    exact hrefuse

/-- The data of a structure and the record of its fields are made of each other if the data and the
values of each field are. -/
theorem exchanges_struct {fields : List (Field Host)} {data : FieldsData fields}
    {ws : List (Field Value)} (hn : (fields.map Field.name).Nodup)
    (ht : (struct fields).Entered t g) (h : ExchangesFields g fields data ws) :
    ∃ r : RecordType, t = r.ty ∧
      Exchanges g (.struct fields) data (.record r ((Field.ofFields ws).map Field.value)) := by
  obtain ⟨types, r, htypes, hr, hfields, rfl⟩ := entered_struct ht
  obtain ⟨fs, hfs, rfl, rfl⟩ := h.exists_fieldValues htypes
  refine ⟨r, rfl, ?_, ?_⟩
  · simp only [toValue, structValue, Interning.outcome_bind, Interning.outcome_pure, hfs, hr]
  · have hnames : (fs.map Field.name).Nodup := by
      have hws := h.names_eq
      rw [List.map_map] at hws
      exact hws ▸ hn
    let found : RecordValue := ⟨r, (Field.ofFields (fs.map (Field.map Prod.snd))).map Field.value⟩
    have hfound : ((Host.struct fields).recordOf found.value).outcome g = (.ok found, g) :=
      outcome_recordOf_ok ht (Value.accepts_record r _)
    refine outcome_bind_ok.2 ⟨found, g, hfound, h.outcome_ofRecord ?_⟩
    have htypes : found.type.fields = (Field.ofFields fs).map (Field.map Prod.fst) := by
      rw [← Field.ofFields_map]
      exact hfields
    have hvalues : found.values = (Field.ofFields fs).map fun f => f.value.2 := by
      show List.map Field.value _ = _
      rw [Field.ofFields_map, List.map_map]
      rfl
    intro w hw
    obtain ⟨f, hf, rfl⟩ := List.mem_map.1 hw
    exact RecordValue.get?_of_mem (q := Prod.snd) (Field.ascending_ofFields fs) htypes hvalues
      ((Field.ofFields_perm hnames).mem_iff.2 hf)

end Entered

/-- The forms whose conversions are derived: primitive data, and structures of such forms with
fields of distinct names. -/
inductive Derived : Host → Prop
  | primitive (p : Primitive) : Derived (.primitive p)
  | struct {fields : List (Field Host)} (hn : (fields.map Field.name).Nodup)
      (h : ∀ f ∈ fields, Derived f.value) : Derived (.struct fields)

theorem derived_tuple {elements : List Host} (h : ∀ host ∈ elements, host.Derived) :
    (tuple elements).Derived :=
  .struct (Field.nodup_positions 1 elements) fun _ hf => h _ (Field.value_mem_of_mem_positions hf)

theorem accepts_primitive_iff {p : Primitive} {v : Value} :
    (Ty.primitive p).accepts v = true ↔ ∃ x, v = .scalar (p.toScalar x) := by
  rw [Ty.accepts_iff]
  constructor
  · intro h
    cases v with
    | record type values => cases h
    | scalar s =>
      obtain rfl := Ty.primitive_injective h
      cases s <;> exact ⟨_, rfl⟩
  · rintro ⟨x, rfl⟩
    cases p <;> rfl

theorem exchanges_primitive (g : Registry) (p : Primitive) (x : p.Data) :
    Exchanges g (.primitive p) x (.scalar (p.toScalar x)) := by
  cases p <;> exact ⟨rfl, rfl⟩

section Derived

variable {g : Registry} {t : Ty} {host : Host} {fields : List (Field Host)}
  {types : List (Field Ty)}

theorem exists_exchangesFields
    (h : ∀ f ∈ fields, ∀ {t}, f.value.Entered t g → ∀ x, ∃ v, Exchanges g f.value x v)
    (ht : EnteredFields fields types g) (data : FieldsData fields) :
    ∃ ws, ExchangesFields g fields data ws := by
  induction fields generalizing types with
  | nil => exact ⟨[], rfl⟩
  | cons f rest ih =>
    obtain ⟨name, host⟩ := f
    obtain ⟨x, data⟩ := data
    obtain ⟨t, ts, -, hentered, hts⟩ := entered_cons ht
    obtain ⟨v, hv⟩ := h _ List.mem_cons_self hentered x
    obtain ⟨ws, hws⟩ := ih (fun y hy => h y (List.mem_cons_of_mem _ hy)) hts data
    exact ⟨⟨name, v⟩ :: ws, rfl, hv, hws⟩

/-- All data of a derived form is made into a value and back. -/
theorem Derived.exists_exchanges (h : host.Derived) (ht : host.Entered t g) (x : host.Data) :
    ∃ v, Exchanges g host x v := by
  induction h generalizing t with
  | primitive p => exact ⟨_, exchanges_primitive g p x⟩
  | struct hn _ ih =>
    obtain ⟨types, -, htypes, -⟩ := entered_struct ht
    obtain ⟨ws, hws⟩ := exists_exchangesFields (fun f hf _ ht y => ih f hf ht y) htypes x
    obtain ⟨r, -, hr⟩ := exchanges_struct hn ht hws
    exact ⟨_, hr⟩

theorem exists_exchangesFields_of_get? {r : RecordValue}
    (h : ∀ f ∈ fields, ∀ {t}, f.value.Entered t g → ∀ {v : Value}, v.WellTyped →
      t.accepts v = true → ∃ x, Exchanges g f.value x v)
    (ht : EnteredFields fields types g)
    (hr : ∀ d ∈ types, ∃ w, r.get? d.name = some w ∧ d.value.accepts w = true ∧ w.WellTyped) :
    ∃ data ws, ExchangesFields g fields data ws ∧ ∀ w ∈ ws, r.get? w.name = some w.value := by
  induction fields generalizing types with
  | nil => exact ⟨(), [], rfl, nofun⟩
  | cons f rest ih =>
    obtain ⟨name, host⟩ := f
    obtain ⟨t, ts, rfl, hentered, hts⟩ := entered_cons ht
    obtain ⟨⟨w, hget, haccepts, hwell⟩, hrest⟩ := List.forall_mem_cons.1 hr
    obtain ⟨x, hx⟩ := h _ List.mem_cons_self hentered hwell haccepts
    obtain ⟨data, ws, hws, hall⟩ := ih (fun y hy => h y (List.mem_cons_of_mem _ hy)) hts hrest
    exact ⟨(x, data), ⟨name, w⟩ :: ws, ⟨rfl, hx, hws⟩, List.forall_mem_cons.2 ⟨hget, hall⟩⟩

/-- Every well-typed value that the type of a derived form accepts is made of data. -/
theorem Derived.exists_exchanges_of_accepts (h : host.Derived) (ht : host.Entered t g) {v : Value}
    (hw : v.WellTyped) (ha : t.accepts v = true) : ∃ x, Exchanges g host x v := by
  induction h generalizing t v with
  | primitive p =>
    obtain rfl : Ty.primitive p = t := congrArg Prod.fst ht
    obtain ⟨x, rfl⟩ := accepts_primitive_iff.1 ha
    exact ⟨x, exchanges_primitive g p x⟩
  | @struct fields hn _ ih =>
    obtain ⟨types, r, htypes, -, hfields, rfl⟩ := entered_struct ht
    obtain ⟨values, rfl⟩ := Value.eq_record_of_accepts ha
    have hasc : Field.Ascending r.fields := hfields ▸ Field.ascending_ofFields types
    have hnames : (types.map Field.name).Nodup := htypes.names_eq ▸ hn
    have hfound : ∀ d ∈ types, ∃ w, RecordValue.get? ⟨r, values⟩ d.name = some w ∧
        d.value.accepts w = true ∧ w.WellTyped := by
      intro d hd
      have hmem : d ∈ r.fields := hfields ▸ (Field.ofFields_perm hnames).mem_iff.2 hd
      obtain ⟨i, hi⟩ := List.mem_iff_getElem?.1 hmem
      obtain ⟨w, hvalue, haccepts, hwell⟩ := Value.Fit.exists_getElem? hw hi
      exact ⟨w, (RecordValue.get?_eq_some_iff hasc).2 ⟨i, d, hi, rfl, hvalue⟩, haccepts, hwell⟩
    obtain ⟨data, ws, hws, hget⟩ := exists_exchangesFields_of_get?
      (fun f hf _ ht _ hw ha => ih f hf ht hw ha) htypes hfound
    obtain ⟨r', hr', hexchanges⟩ := exchanges_struct hn ht hws
    obtain rfl := RecordType.ty_injective hr'
    have hlength : ws.length = r.fields.length := by
      rw [hfields, (Field.ofFields_perm hnames).length_eq, ← List.length_map Field.name,
        hws.names_eq, ← htypes.names_eq, List.length_map]
    let stored : RecordValue := ⟨r, values⟩
    have hwell : stored.value.WellTyped := hw
    have hstored : Field.ofFields ws = stored.fields :=
      RecordValue.ofFields_eq_fields hasc hwell (hws.names_eq ▸ hn) hlength hget
    have hvalues : stored.fields.map Field.value = values := RecordValue.map_value_fields hwell
    rw [hstored, hvalues] at hexchanges
    exact ⟨data, hexchanges⟩

theorem ofValue?_eq_none {p : Primitive} {v : Value} (ha : (Ty.primitive p).accepts v = false) :
    p.ofValue? v = none := by
  cases v with
  | record type values => rfl
  | scalar s =>
    by_cases hs : s.primitive = p
    · have htype : (Value.scalar s).typeOf = .primitive p := congrArg Ty.primitive hs
      exact absurd ((Ty.accepts_iff.2 htype).symm.trans ha) nofun
    · cases p <;> cases s <;> first | rfl | exact absurd rfl hs

theorem Derived.outcome_ofValue_error (h : host.Derived) (ht : host.Entered t g) {v : Value}
    (ha : t.accepts v = false) :
    (host.ofValue v).outcome g = (.error (.between t v.typeOf [] none), g) := by
  cases h with
  | primitive p =>
    obtain rfl : Ty.primitive p = t := congrArg Prod.fst ht
    rw [ofValue, ofValue?_eq_none ha]
    exact outcome_refuse ht v
  | struct =>
    rw [ofValue]
    exact outcome_bind_error_iff.2 (.inl (outcome_recordOf_error ht ha))

end Derived

section Keeps

variable {g : Registry} {t : Ty}

theorem keeps_bind {ε α β : Type} {x : Elaboration ε α} {f : α → Elaboration ε β}
    (hx : (x.outcome g).2 = g) (hf : ∀ a, ((f a).outcome g).2 = g) :
    ((x >>= f).outcome g).2 = g := by
  rw [outcome_bind]
  cases h : x.outcome g with
  | mk result g' =>
    rw [h] at hx
    obtain rfl : g' = g := hx
    cases result with
    | error e => rfl
    | ok a => exact hf a

theorem keeps_fieldOf {α : Type} {host : Host} {convert : Value → Elaboration TypeMismatch α}
    (ht : host.Entered t g) (h : ∀ v, ((convert v).outcome g).2 = g) (r : RecordValue)
    (name : FieldName) : ((fieldOf host convert r name).outcome g).2 = g := by
  rw [fieldOf]
  split
  · exact keeps_bind (congrArg Prod.snd ht) fun _ => rfl
  · exact h _

theorem keeps_ofRecord {fields : List (Field Host)} {types : List (Field Ty)}
    (h : ∀ f ∈ fields, ∀ {t}, f.value.Entered t g → ∀ v, ((f.value.ofValue v).outcome g).2 = g)
    (ht : EnteredFields fields types g) (r : RecordValue) :
    ((ofRecord fields r).outcome g).2 = g := by
  induction fields generalizing types with
  | nil => rfl
  | cons f rest ih =>
    obtain ⟨name, host⟩ := f
    obtain ⟨t, ts, -, hentered, hts⟩ := entered_cons ht
    have hfirst := keeps_fieldOf hentered (h _ List.mem_cons_self hentered) r name
    have hrest := ih (fun y hy => h y (List.mem_cons_of_mem _ hy)) hts
    exact keeps_bind hfirst fun _ => keeps_bind hrest fun _ => rfl

/-- Reading enters nothing where the type has been entered, whatever the value and whether or not
it is read. -/
theorem keeps_ofValue (host : Host) (ht : host.Entered t g) (v : Value) :
    ((host.ofValue v).outcome g).2 = g := by
  induction host using Host.induction generalizing t v with
  | primitive p =>
    rw [ofValue]
    split
    · rfl
    · exact congrArg Prod.snd (outcome_refuse ht v)
  | struct fields ih =>
    obtain ⟨types, r, htypes, -, -, rfl⟩ := entered_struct ht
    refine keeps_bind ?_ fun r => keeps_ofRecord (fun f hf _ ht => ih f hf ht) htypes r
    by_cases ha : r.ty.accepts v = true
    · obtain ⟨values, rfl⟩ := Value.eq_record_of_accepts ha
      let found : RecordValue := ⟨r, values⟩
      have hfound : ((struct fields).recordOf found.value).outcome g = (.ok found, g) :=
        outcome_recordOf_ok ht ha
      exact congrArg Prod.snd hfound
    · exact congrArg Prod.snd (outcome_recordOf_error ht (by simpa using ha))

theorem ofValue_first (host : Host) (v : Value) :
    (host.ofValue v).outcome g = (host.ofValue v).outcome (host.ty.outcome g).2 := by
  cases host with
  | primitive p => rfl
  | struct fields =>
    have hagain := ty_again (struct fields) (g := g) .refl
    have hrecord : ((struct fields).recordOf v).outcome g =
        ((struct fields).recordOf v).outcome ((struct fields).ty.outcome g).2 := by
      rw [recordOf, outcome_bind, outcome_bind, outcome_lift, outcome_lift, hagain]
    rw [ofValue]
    exact outcome_bind_congr hrecord

end Keeps

/-- What holds where the type has been entered. Data is made into a well-typed value of the type
and read back. A well-typed value is read if and only if the type accepts it, and is then made
again. And nothing is entered. -/
structure Exact (host : Host) (t : Ty) (g : Registry) : Prop where
  ty : host.ty.outcome g = (t, g)
  toValue : ∀ x, ∃ v, (host.toValue x).outcome g = (v, g) ∧ v.WellTyped ∧ v.typeOf = t ∧
    (host.ofValue v).outcome g = (.ok x, g)
  ofValue : ∀ v, v.WellTyped →
    ((∃ x, ((host.ofValue v).outcome g).1 = .ok x) ↔ t.accepts v = true) ∧
      ∀ x, ((host.ofValue v).outcome g).1 = .ok x → (host.toValue x).outcome g = (v, g)
  keeps : ∀ v, ((host.ofValue v).outcome g).2 = g

theorem Derived.exact_of_entered {host : Host} (h : host.Derived) {t : Ty} {g : Registry}
    (hg : g.Valid) (ht : host.Entered t g) : host.Exact t g where
  ty := ht
  toValue x := by
    obtain ⟨v, hto, hof⟩ := h.exists_exchanges ht x
    obtain ⟨hwell, htype, -⟩ := host.typed x g hg
    rw [hto] at hwell htype
    exact ⟨v, hto, hwell, htype.trans (congrArg Prod.fst ht), hof⟩
  ofValue v hw := by
    by_cases ha : t.accepts v = true
    · obtain ⟨x, hto, hof⟩ := h.exists_exchanges_of_accepts ht hw ha
      refine ⟨⟨fun _ => ha, fun _ => ⟨x, congrArg Prod.fst hof⟩⟩, fun y hy => ?_⟩
      obtain rfl := Except.ok.inj ((congrArg Prod.fst hof).symm.trans hy)
      exact hto
    · have herror := h.outcome_ofValue_error ht (v := v) (by simpa using ha)
      rw [herror]
      exact ⟨⟨nofun, fun ha' => absurd ha' ha⟩, nofun⟩
  keeps := keeps_ofValue host ht

/-- Conversions are exact inverses. It does not matter whether the type has been asked for before.
Once it has been, it is the same in all that the registry becomes, so is the value of the data, and
no conversion enters anything. -/
theorem Derived.exact_inverses {host : Host} (h : host.Derived) {g : Registry} (hg : g.Reachable) :
    (∀ x, (host.toValue x).outcome g = (host.toValue x).outcome (host.ty.outcome g).2) ∧
    (∀ v, (host.ofValue v).outcome g = (host.ofValue v).outcome (host.ty.outcome g).2) ∧
    ∀ g', (host.ty.outcome g).2.Grows g' → host.Exact (host.ty.outcome g).1 g' ∧
      ∀ x, ((host.toValue x).outcome g').1 = ((host.toValue x).outcome g).1 := by
  have hv := hg.valid
  refine ⟨fun x => ?_, host.ofValue_first, fun g' hgrows => ⟨?_, fun x => ?_⟩⟩
  · rw [toValue_again host x hv .refl]
    exact Prod.ext rfl (host.typed x g hv).2.2
  · have hv' : g'.Valid := hgrows.valid ((grows_ty host g).valid hv)
    exact h.exact_of_entered hv' (ty_again host hgrows)
  · rw [toValue_again host x hv hgrows]

def date : Host :=
  .struct [⟨.label "year", .primitive .int⟩, ⟨.label "month", .primitive .int⟩,
    ⟨.label "day", .primitive .int⟩]

def markedDate : Host := tuple [date, .primitive .char]

def ninthMarked : markedDate.Data := (((1934 : Int64), (3 : Int64), (9 : Int64), ()), 'x', ())

/-- The values of the date are stored from day to year, and read from year to day. -/
theorem exact_inverses_markedDate :
    markedDate.Derived ∧ (Registry.empty (.registry 0)).Reachable ∧
      ∃ r s, (markedDate.toValue ninthMarked).outcome (.empty (.registry 0)) =
          (.record r [.record s [.scalar (.int 9), .scalar (.int 3), .scalar (.int 1934)],
            .scalar (.char 'x')], (markedDate.ty.outcome (.empty (.registry 0))).2) ∧
        (markedDate.ofValue (.record r [.record s [.scalar (.int 9), .scalar (.int 3),
          .scalar (.int 1934)], .scalar (.char 'x')])).outcome
            (markedDate.ty.outcome (.empty (.registry 0))).2 =
          (.ok ninthMarked, (markedDate.ty.outcome (.empty (.registry 0))).2) := by
  have hdate : date.Derived := by
    refine .struct (by decide) fun f hf => ?_
    simp only [List.mem_cons, List.not_mem_nil, or_false] at hf
    rcases hf with rfl | rfl | rfl <;> exact .primitive .int
  have hmarked : markedDate.Derived := derived_tuple (by simpa using ⟨hdate, .primitive .char⟩)
  have hempty : (Registry.empty (.registry 0)).Reachable := ⟨.registry 0, [], rfl⟩
  obtain ⟨hfirst, -, hexact⟩ := hmarked.exact_inverses hempty
  obtain ⟨v, hto, -, -, hof⟩ := (hexact _ .refl).1.toValue ninthMarked
  have hvalue : ∃ r s, v = .record r [.record s [.scalar (.int 9), .scalar (.int 3),
      .scalar (.int 1934)], .scalar (.char 'x')] := by
    have hto₁ : ((markedDate.toValue ninthMarked).outcome (.empty (.registry 0))).1 = v := by
      rw [hfirst, hto]
    rw [← hto₁]
    exact ⟨_, _, rfl⟩
  obtain ⟨r, s, rfl⟩ := hvalue
  exact ⟨hmarked, hempty, r, s, (hfirst ninthMarked).trans hto, hof⟩

end Host

end RecordLens
