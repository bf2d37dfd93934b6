import RecordLens.Proofs.Elaboration.Mismatch
import RecordLens.Proofs.Field.Repeats
import RecordLens.Proofs.Host.Conversion

/-! Values that are no data. A conversion checks the type of each record before it enters the
fields, so a value that is refused is refused at a part of it, to which the path of the error leads
through the data and the value alike. What is not refused holds the same scalars as the data. -/

namespace RecordLens

theorem Value.at?_cons (v : Value) (name : FieldName) (path : Path) :
    v.at? (name :: path) = v.record?.bind fun r => (r.get? name).bind fun w => w.at? path := rfl

theorem RecordValue.at?_cons (r : RecordValue) (name : FieldName) (path : Path) :
    r.value.at? (name :: path) = (r.get? name).bind fun w => w.at? path := rfl

theorem TypeMismatch.between_found (expected found : Ty) (path : Path) (span : Option Span) :
    (between expected found path span).found = found := by
  unfold between
  split <;> rfl

namespace Host

open Elaboration (outcome_bind outcome_bind_ok outcome_bind_error_iff
  outcome_bind_pure_error_iff)

def field? (name : FieldName) : Host → Option Host
  | .struct fields => (Field.first? name fields).map Field.value
  | _ => none

/-- The form of the data at the end of a path. -/
def at? (host : Host) : Path → Option Host
  | [] => some host
  | name :: path => do
    let child ← host.field? name
    child.at? path

mutual

def scalarAt? : (host : Host) → host.Data → Path → Option Scalar
  | .primitive p, x, path => if path = [] then some (p.toScalar x) else none
  | .struct _, _, [] => none
  | .struct fields, data, name :: path => fieldScalarAt? fields data name path

def fieldScalarAt? : (fields : List (Field Host)) → FieldsData fields → FieldName → Path →
    Option Scalar
  | [], _, _, _ => none
  | ⟨n, host⟩ :: rest, (x, data), name, path =>
    if n = name then scalarAt? host x path else fieldScalarAt? rest data name path

end

theorem at?_struct {fields : List (Field Host)} {f : Field Host}
    (hf : Field.first? f.name fields = some f) (path : Path) :
    (struct fields).at? (f.name :: path) = f.value.at? path := by
  simp [at?, field?, hf]

theorem exists_fieldScalarAt? {fields : List (Field Host)} (data : FieldsData fields)
    {name : FieldName} {f : Field Host} (hf : Field.first? name fields = some f) (path : Path) :
    ∃ x, fieldScalarAt? fields data name path = f.value.scalarAt? x path := by
  induction fields with
  | nil => cases hf
  | cons g rest ih =>
    obtain ⟨x, data⟩ := data
    rw [Field.first?_cons] at hf
    rw [fieldScalarAt?]
    by_cases hn : g.name = name
    · rw [if_pos hn] at hf ⊢
      obtain rfl := Option.some.inj hf
      exact ⟨x, rfl⟩
    · rw [if_neg hn] at hf ⊢
      exact ih data hf

theorem exists_scalarAt? {host : Host} (x : host.Data) {path : Path} {p : Primitive}
    (h : host.at? path = some (.primitive p)) :
    ∃ y, host.scalarAt? x path = some (p.toScalar y) := by
  induction path generalizing host with
  | nil =>
    obtain rfl : host = .primitive p := Option.some.inj h
    exact ⟨x, by simp [scalarAt?]⟩
  | cons name path ih =>
    cases host with
    | primitive q => cases h
    | struct fields =>
      obtain ⟨child, hchild, hpath⟩ := Option.bind_eq_some_iff.1 h
      obtain ⟨f, hf, rfl⟩ := Option.map_eq_some_iff.1 hchild
      obtain ⟨y, hy⟩ := exists_fieldScalarAt? x hf path
      obtain ⟨z, hz⟩ := ih y hpath
      exact ⟨z, by rw [scalarAt?, hy, hz]⟩

section Entered

variable {g : Registry} {fields : List (Field Host)} {types : List (Field Ty)}

theorem EnteredFields.exists_of_mem (h : EnteredFields fields types g) {f : Field Host}
    (hf : f ∈ fields) : ∃ t, f.value.Entered t g := by
  induction fields generalizing types with
  | nil => exact absurd hf List.not_mem_nil
  | cons x rest ih =>
    obtain ⟨t, ts, -, hentered, hts⟩ := entered_cons h
    rcases List.mem_cons.1 hf with rfl | hf
    · exact ⟨t, hentered⟩
    · exact ih hts hf

end Entered

/-- The value is refused with the error: because the type of the data does not accept it, or because
a field of it is, and then the path begins with the name of the field. -/
inductive Refuses (g : Registry) : Host → Value → TypeMismatch → Prop
  | here {host : Host} {t : Ty} {v : Value} (ht : host.Entered t g) (ha : t.accepts v = false) :
      Refuses g host v (.between t v.typeOf [] none)
  | field {fields : List (Field Host)} {t : Ty} {r : RecordValue} {f : Field Host} {w : Value}
      {e : TypeMismatch} (ht : (struct fields).Entered t g) (ha : t.accepts r.value = true)
      (hf : Field.first? f.name fields = some f) (hw : r.get? f.name = some w)
      (h : Refuses g f.value w e) :
      Refuses g (.struct fields) r.value { e with path := f.name :: e.path }

/-- Of the part of the data and the part of the value to which its path leads, the error tells the
types, of which the one does not accept the other. On the way there each part of the value is
accepted by the type of the part of the data. -/
structure NamesCulprit (g : Registry) (host : Host) (v : Value) (e : TypeMismatch) : Prop where
  culprit : ∃ part w, host.at? e.path = some part ∧ v.at? e.path = some w ∧
    part.ty.outcome g = (e.expected, g) ∧ e.found = w.typeOf ∧ e.expected.accepts w = false
  above : ∀ front back, e.path = front ++ back → back ≠ [] → ∃ part w t,
    host.at? front = some part ∧ v.at? front = some w ∧ part.ty.outcome g = (t, g) ∧
      t.accepts w = true

theorem Refuses.namesCulprit {g : Registry} {host : Host} {v : Value} {e : TypeMismatch}
    (h : Refuses g host v e) : NamesCulprit g host v e := by
  induction h with
  | @here host t v ht ha =>
    obtain ⟨hexpected, hpath, -⟩ := TypeMismatch.between_place t v.typeOf [] none
    constructor
    · rw [hexpected, hpath]
      exact ⟨host, v, rfl, rfl, ht, TypeMismatch.between_found t v.typeOf [] none, ha⟩
    · intro front back hfront hback
      rw [hpath] at hfront
      exact absurd (List.append_eq_nil_iff.1 hfront.symm).2 hback
  | @field fields t r f w e ht ha hf hw _ ih =>
    obtain ⟨part, u, hpart, hu, hculprit⟩ := ih.culprit
    constructor
    · refine ⟨part, u, ?_, ?_, hculprit⟩
      · rw [at?_struct hf, hpart]
      · rw [RecordValue.at?_cons, hw, Option.bind_some, hu]
    · intro front back hfront hback
      cases front with
      | nil => exact ⟨struct fields, r.value, t, rfl, rfl, ht, ha⟩
      | cons name front =>
        obtain ⟨rfl, hrest⟩ := List.cons.inj hfront
        obtain ⟨part, u, s, hpart, hu, hs⟩ := ih.above front back hrest hback
        refine ⟨part, u, s, ?_, ?_, hs⟩
        · rw [at?_struct hf, hpart]
        · rw [RecordValue.at?_cons, hw, Option.bind_some, hu]

section Fields

variable {g g' : Registry} {fields : List (Field Host)} {types : List (Field Ty)} {r : RecordValue}

theorem eq_of_fieldOf {host : Host} {t : Ty} (ht : host.Entered t g) {name : FieldName}
    {x : host.Data} (h : (fieldOf host host.ofValue r name).outcome g = (.ok x, g')) : g' = g := by
  have hkeeps := keeps_fieldOf ht (keeps_ofValue host ht) r name
  rwa [h] at hkeeps

theorem exists_of_ofRecord_error (ht : EnteredFields fields types g)
    (hget : ∀ f ∈ fields, ∃ w, r.get? f.name = some w) {e : TypeMismatch}
    (h : (ofRecord fields r).outcome g = (.error e, g')) :
    ∃ f ∈ fields, ∃ w d, r.get? f.name = some w ∧
      (f.value.ofValue w).outcome g = (.error d, g') ∧ e = { d with path := f.name :: d.path } := by
  induction fields generalizing types with
  | nil => cases h
  | cons f rest ih =>
    obtain ⟨t, ts, -, hentered, hts⟩ := entered_cons ht
    obtain ⟨⟨w, hw⟩, hrest⟩ := List.forall_mem_cons.1 hget
    rw [ofRecord] at h
    rcases outcome_bind_error_iff.1 h with hfield | ⟨x, g₁, hfield, hmore⟩
    · obtain ⟨d, hd, he⟩ := (outcome_fieldOf_error_iff hw).1 hfield
      exact ⟨f, List.mem_cons_self, w, d, hw, hd, he⟩
    · obtain rfl := eq_of_fieldOf hentered hfield
      obtain ⟨y, hy, hfound⟩ := ih hts hrest (outcome_bind_pure_error_iff.1 hmore)
      exact ⟨y, List.mem_cons_of_mem f hy, hfound⟩

theorem fieldScalarAt?_of_ofRecord (ht : EnteredFields fields types g)
    (hget : ∀ f ∈ fields, ∃ w, r.get? f.name = some w)
    (hfields : ∀ f ∈ fields, ∀ w x, r.get? f.name = some w →
      (f.value.ofValue w).outcome g = (.ok x, g) →
        ∀ path s, f.value.scalarAt? x path = some s ↔ w.at? path = some (.scalar s))
    {data : FieldsData fields} (h : (ofRecord fields r).outcome g = (.ok data, g'))
    (name : FieldName) (path : Path) (s : Scalar) :
    fieldScalarAt? fields data name path = some s ↔
      name ∈ fields.map Field.name ∧ r.value.at? (name :: path) = some (.scalar s) := by
  induction fields generalizing types with
  | nil => simp [fieldScalarAt?]
  | cons f rest ih =>
    obtain ⟨t, ts, -, hentered, hts⟩ := entered_cons ht
    obtain ⟨⟨w, hw⟩, hrest⟩ := List.forall_mem_cons.1 hget
    obtain ⟨hfirst, hmore⟩ := List.forall_mem_cons.1 hfields
    obtain ⟨x, data⟩ := data
    rw [ofRecord] at h
    obtain ⟨y, g₁, hfield, hr⟩ := outcome_bind_ok.1 h
    obtain rfl := eq_of_fieldOf hentered hfield
    obtain ⟨ys, g₂, hys, hp⟩ := outcome_bind_ok.1 hr
    obtain ⟨hdata, rfl⟩ := Prod.mk.inj hp
    obtain ⟨rfl, rfl⟩ := Prod.mk.inj (Except.ok.inj hdata)
    rw [fieldScalarAt?, List.map_cons, List.mem_cons]
    by_cases hn : f.name = name
    · subst hn
      rw [if_pos rfl, RecordValue.at?_cons, hw, Option.bind_some,
        hfirst w y hw ((outcome_fieldOf_ok_iff hw).1 hfield)]
      simp
    · rw [if_neg hn, ih hts hrest hmore hys]
      simp [Ne.symm hn]

end Fields

section Derived

variable {g g' : Registry} {host : Host} {t : Ty}

structure HasFields (g : Registry) (fields : List (Field Host)) (r : RecordValue) : Prop where
  entered : ∃ types, EnteredFields fields types g
  names : ∀ name w, r.get? name = some w → name ∈ fields.map Field.name
  get : ∀ f ∈ fields, ∃ w, r.get? f.name = some w

theorem hasFields_of_accepts {fields : List (Field Host)} (ht : (struct fields).Entered t g)
    {r : RecordValue} (hc : r.Complete) (ha : t.accepts r.value = true) : HasFields g fields r := by
  obtain ⟨types, s, htypes, -, hs, rfl⟩ := entered_struct ht
  obtain rfl : r.type = s := RecordType.ty_injective (Ty.accepts_iff.1 ha)
  have hasc : Field.Ascending r.type.fields := hs ▸ Field.ascending_ofFields types
  have hnames (n : FieldName) : n ∈ r.type.names ↔ n ∈ fields.map Field.name := by
    rw [RecordType.names, hs, Field.mem_names_ofFields, htypes.names_eq]
  refine ⟨⟨types, htypes⟩, fun name w hw => ?_, fun f hf => ?_⟩
  · by_contra hname
    rw [(RecordValue.get?_eq_none_iff hasc hc).2 ((hnames name).not.2 hname)] at hw
    cases hw
  · apply Option.ne_none_iff_exists'.1
    rw [Ne, RecordValue.get?_eq_none_iff hasc hc, not_not, hnames]
    exact List.mem_map_of_mem hf

/-- A structure is read field by field of a record that its type accepts. -/
theorem outcome_ofValue_struct {fields : List (Field Host)} (ht : (struct fields).Entered t g)
    {r : RecordValue} (ha : t.accepts r.value = true) :
    ((struct fields).ofValue r.value).outcome g = (ofRecord fields r).outcome g := by
  rw [ofValue]
  refine (outcome_bind _ _ g).trans ?_
  rw [outcome_recordOf_ok ht ha]
  rfl

theorem exists_record_of_accepts {fields : List (Field Host)} (ht : (struct fields).Entered t g)
    {v : Value} (ha : t.accepts v = true) : ∃ r : RecordValue, v = r.value := by
  obtain ⟨-, s, -, -, -, rfl⟩ := entered_struct ht
  obtain ⟨values, rfl⟩ := Value.eq_record_of_accepts ha
  exact ⟨⟨s, values⟩, rfl⟩

theorem complete_of_get? {r : RecordValue} {name : FieldName} {w : Value}
    (hw : r.get? name = some w) (hc : ∀ s ∈ r.value.records, s.Complete) :
    ∀ s ∈ w.records, s.Complete := by
  intro s hs
  obtain ⟨i, -, hi⟩ := Option.bind_eq_some_iff.1 hw
  apply hc
  rw [RecordValue.value, Value.records_record]
  exact List.mem_cons_of_mem _ (List.mem_flatMap_of_mem (List.mem_of_getElem? hi) hs)

theorem Derived.refuses_of_not_accepts (h : host.Derived) (ht : host.Entered t g) {v : Value}
    (ha : ¬t.accepts v = true) {e : TypeMismatch}
    (he : (host.ofValue v).outcome g = (.error e, g')) : Refuses g host v e := by
  have ha' : t.accepts v = false := by simpa using ha
  rw [h.outcome_ofValue_error ht ha'] at he
  obtain rfl := Except.error.inj (Prod.mk.inj he).1
  exact .here ht ha'

theorem Derived.accepts_of_ofValue (h : host.Derived) (ht : host.Entered t g) {v : Value}
    {x : host.Data} (hx : (host.ofValue v).outcome g = (.ok x, g')) : t.accepts v = true := by
  by_contra ha
  rw [h.outcome_ofValue_error ht (by simpa using ha)] at hx
  cases hx

theorem Derived.refuses (h : host.Derived) (ht : host.Entered t g) {v : Value}
    (hc : ∀ r ∈ v.records, r.Complete) {e : TypeMismatch}
    (he : (host.ofValue v).outcome g = (.error e, g')) : Refuses g host v e := by
  induction h generalizing t v e g' with
  | primitive p =>
    refine (Derived.primitive p).refuses_of_not_accepts ht (fun ha => ?_) he
    obtain rfl : Ty.primitive p = t := congrArg Prod.fst ht
    obtain ⟨x, rfl⟩ := accepts_primitive_iff.1 ha
    rw [(exchanges_primitive g p x).2] at he
    cases he
  | @struct fields hn hderived ih =>
    by_cases ha : t.accepts v = true
    · obtain ⟨r, rfl⟩ := exists_record_of_accepts ht ha
      have hr := hasFields_of_accepts ht (hc r (by simp [RecordValue.value])) ha
      obtain ⟨types, htypes⟩ := hr.entered
      rw [outcome_ofValue_struct ht ha] at he
      obtain ⟨f, hf, w, d, hw, hd, rfl⟩ := exists_of_ofRecord_error htypes hr.get he
      obtain ⟨u, hu⟩ := htypes.exists_of_mem hf
      exact .field ht ha (Field.first?_of_nodup hn hf) hw (ih f hf hu (complete_of_get? hw hc) hd)
    · exact (Derived.struct hn hderived).refuses_of_not_accepts ht ha he

theorem Derived.scalarAt?_iff (h : host.Derived) (ht : host.Entered t g) {v : Value}
    (hc : ∀ r ∈ v.records, r.Complete) {x : host.Data}
    (hx : (host.ofValue v).outcome g = (.ok x, g')) (path : Path) (s : Scalar) :
    host.scalarAt? x path = some s ↔ v.at? path = some (.scalar s) := by
  induction h generalizing t v g' path s with
  | primitive p =>
    have ha := (Derived.primitive p).accepts_of_ofValue ht hx
    obtain rfl : Ty.primitive p = t := congrArg Prod.fst ht
    obtain ⟨y, rfl⟩ := accepts_primitive_iff.1 ha
    rw [(exchanges_primitive g p y).2] at hx
    obtain rfl := Except.ok.inj (Prod.mk.inj hx).1
    cases path with
    | nil => simp [scalarAt?, Value.at?]
    | cons name path => simp [scalarAt?, Value.at?_cons, Value.record?]
  | @struct fields hn hderived ih =>
    have ha := (Derived.struct hn hderived).accepts_of_ofValue ht hx
    obtain ⟨r, rfl⟩ := exists_record_of_accepts ht ha
    cases path with
    | nil => simp [scalarAt?, Value.at?, RecordValue.value]
    | cons name path =>
      have hr := hasFields_of_accepts ht (hc r (by simp [RecordValue.value])) ha
      obtain ⟨types, htypes⟩ := hr.entered
      rw [outcome_ofValue_struct ht ha] at hx
      rw [scalarAt?, fieldScalarAt?_of_ofRecord htypes hr.get (fun f hf w y hw hy => ?_) hx]
      · refine and_iff_right_of_imp fun hat => ?_
        rw [RecordValue.at?_cons] at hat
        obtain ⟨w, hw, -⟩ := Option.bind_eq_some_iff.1 hat
        exact hr.names name w hw
      · obtain ⟨u, hu⟩ := htypes.exists_of_mem hf
        exact ih f hf hu (complete_of_get? hw hc) hy

end Derived

/-- Reading a value either fails with an error that names the part of the data and the part of the
value that do not fit, or yields data that hold the scalars of the value, one wherever the form is
primitive. It enters nothing but the type of the data. -/
theorem Derived.refusal_names_culprit {host : Host} (h : host.Derived) (g : Registry) {v : Value}
    (hc : ∀ r ∈ v.records, r.Complete) :
    ((host.ofValue v).outcome g).2 = (host.ty.outcome g).2 ∧
    (∀ e, ((host.ofValue v).outcome g).1 = .error e →
      NamesCulprit (host.ty.outcome g).2 host v e) ∧
    ∀ x, ((host.ofValue v).outcome g).1 = .ok x →
      (∀ path p, host.at? path = some (.primitive p) →
        ∃ y, host.scalarAt? x path = some (p.toScalar y)) ∧
      ∀ path s, host.scalarAt? x path = some s ↔ v.at? path = some (.scalar s) := by
  have ht : host.Entered (host.ty.outcome g).1 (host.ty.outcome g).2 := ty_again host .refl
  rw [host.ofValue_first]
  refine ⟨keeps_ofValue host ht v, fun e he => ?_, fun x hx => ⟨fun _ _ => exists_scalarAt? x, ?_⟩⟩
  · exact (h.refuses ht hc (Prod.ext he rfl)).namesCulprit
  · exact h.scalarAt?_iff ht hc (Prod.ext hx rfl)

def lettered : Host :=
  tuple [.primitive .char, .struct [⟨.label "at", tuple [.primitive .int, .primitive .int]⟩]]

/-- A record of that form, but for one of the two coordinates, which is a string. -/
def misplaced : Interning Value := do
  let point ← structValue [⟨.position 1, .primitive .int, .scalar (.int 3)⟩,
    ⟨.position 2, .primitive .int, .scalar (.string "x")⟩]
  let place ← structValue [⟨.label "at", point.typeOf, point⟩]
  structValue [⟨.position 1, .primitive .char, .scalar (.char 'x')⟩,
    ⟨.position 2, place.typeOf, place⟩]

/-- The path of the error leads through two records that are of the types declared for them. -/
theorem refusal_names_culprit_misplaced :
    lettered.Derived ∧ ∃ v g e, misplaced.outcome (.empty (.registry 0)) = (v, g) ∧
      (∀ r ∈ v.records, r.Complete) ∧ ((lettered.ofValue v).outcome g).1 = .error e ∧
      e.path = [.position 2, .label "at", .position 2] ∧ e.expected = .primitive .int ∧
      e.found = .primitive .string ∧ NamesCulprit (lettered.ty.outcome g).2 lettered v e := by
  have hderived : lettered.Derived := by
    have hint : (Host.primitive .int).Derived := .primitive .int
    have hpoint : (tuple [.primitive .int, .primitive .int]).Derived :=
      derived_tuple (by simpa using hint)
    have hplace : (struct [⟨.label "at", tuple [.primitive .int, .primitive .int]⟩]).Derived :=
      .struct (by decide) (by simpa using hpoint)
    exact derived_tuple (by simpa using ⟨.primitive .char, hplace⟩)
  have hcomplete : ∀ r ∈ (misplaced.outcome (.empty (.registry 0))).1.records, r.Complete := by
    decide
  obtain ⟨-, herror, -⟩ := hderived.refusal_names_culprit
    (misplaced.outcome (.empty (.registry 0))).2 hcomplete
  exact ⟨hderived, _, _, _, rfl, hcomplete, rfl, rfl, rfl, rfl, herror _ rfl⟩

end Host

end RecordLens
