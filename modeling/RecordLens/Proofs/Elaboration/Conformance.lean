import RecordLens.Proofs.Literal.Rearrangement
import RecordLens.Proofs.Number.Integer
import RecordLens.Proofs.Value.Records

/-! What checked elaboration accepts. `Conforms` says which expressions are of a type by the names
and the types of their fields alone. Exactly these are elaborated when the type is expected, and the
value holds what is written at each leaf. -/

namespace RecordLens

/-- The expression is of the type: a scalar is of its own type, an integer of magnitude up to
2 ^ 53 is a double too, and a record is of a record type if it has each of its names once, and
every field is of the type declared for its name. -/
inductive Expr.Conforms : Expr → Ty → Prop
  | scalar (s : Scalar) (span : Span) : Conforms (.scalar s span) (.primitive s.primitive)
  | widened {i : Int64} (span : Span) (h : i.toInt.natAbs ≤ 2 ^ 53) :
      Conforms (.scalar (.int i) span) (.primitive .double)
  | record {fields : List (FieldExpr Expr)} (span : Span) {r : RecordType}
      (distinct : (fields.map FieldExpr.name).Nodup)
      (names : ∀ name, name ∈ fields.map FieldExpr.name ↔ name ∈ r.names)
      (items : ∀ f ∈ fields, ∀ declared ∈ r.fields, declared.name = f.name →
        Conforms f.item declared.value) :
      Conforms (.record ⟨fields, span⟩) r.ty

/-- At the end of the path the expression has the scalar. -/
inductive Expr.Leaf : Expr → Path → Scalar → Prop
  | here (s : Scalar) (span : Span) : Leaf (.scalar s span) [] s
  | field {fields : List (FieldExpr Expr)} {span : Span} {f : FieldExpr Expr} {path : Path}
      {s : Scalar} (hf : f ∈ fields) (h : Leaf f.item path s) :
      Leaf (.record ⟨fields, span⟩) (f.name :: path) s

/-- A scalar of a value stands for a scalar as it is written: it is the same, or the double that is
exactly the integer written. -/
inductive Scalar.StandsFor : Scalar → Scalar → Prop
  | same (s : Scalar) : StandsFor s s
  | widened {i : Int64} {x : Binary64} (h : x.IsInteger i.toInt) : StandsFor (.float x) (.int i)

def Value.at? (v : Value) : Path → Option Value
  | [] => some v
  | name :: path => do
    let r ← v.record?
    let child ← r.get? name
    child.at? path

theorem Scalar.elaborate_ok_iff {s : Scalar} {span : Span} {ty : Ty} {path : Path} {v : Value} :
    s.elaborate span (some ty) path = .ok v ↔ s.at? ty = some v := by
  rw [Scalar.elaborate]
  cases s.at? ty <;> simp

/-- Every leaf of the expression is found in the value at the same path. -/
def Expr.ShownBy (e : Expr) (v : Value) : Prop :=
  ∀ path s, e.Leaf path s → ∃ w : Scalar, v.at? path = some (.scalar w) ∧ w.StandsFor s

namespace Field

variable {α β : Type}

theorem mem_zip_iff {xs : List (Field α)} {ys : List (Field β)}
    (hn : ys.map name = xs.map name) (hd : (xs.map name).Nodup) {x : Field α} {y : Field β} :
    (x, y) ∈ xs.zip ys ↔ x ∈ xs ∧ y ∈ ys ∧ y.name = x.name := by
  induction xs generalizing ys with
  | nil => simp
  | cons a xs ih =>
    cases ys with
    | nil => simp
    | cons b ys =>
      obtain ⟨hab, hrest⟩ : b.name = a.name ∧ ys.map name = xs.map name := List.cons.inj hn
      obtain ⟨ha, hd⟩ : a.name ∉ xs.map name ∧ (xs.map name).Nodup := List.nodup_cons.1 hd
      rw [List.zip_cons_cons, List.mem_cons, ih hrest hd, Prod.mk.injEq, List.mem_cons,
        List.mem_cons]
      constructor
      · rintro (⟨rfl, rfl⟩ | ⟨hx, hy, hname⟩)
        · exact ⟨.inl rfl, .inl rfl, hab⟩
        · exact ⟨.inr hx, .inr hy, hname⟩
      · rintro ⟨rfl | hx, rfl | hy, hname⟩
        · exact .inl ⟨rfl, rfl⟩
        · exact absurd (hname ▸ hrest ▸ List.mem_map_of_mem hy) ha
        · exact absurd (hab ▸ hname ▸ List.mem_map_of_mem hx) ha
        · exact .inr ⟨hx, hy, hname⟩

theorem names_sorted_eq_iff {xs : List (Field α)} {ys : List (Field β)}
    (hx : (xs.map name).Nodup) (hy : Ascending ys) :
    ys.map name = (sorted xs).map name ↔ ∀ n, n ∈ xs.map name ↔ n ∈ ys.map name := by
  have hmem (n : FieldName) : n ∈ (sorted xs).map name ↔ n ∈ xs.map name :=
    ((sorted_perm xs).map name).mem_iff
  constructor
  · intro h n
    rw [h, hmem]
  · intro h
    have hperm : (ys.map name).Perm ((sorted xs).map name) := by
      rw [List.perm_ext_iff_of_nodup hy.nodup_names (ascending_sorted hx).nodup_names]
      exact fun n => (h n).symm.trans (hmem n).symm
    exact List.Perm.eq_of_pairwise (fun _ _ _ _ hab hba => absurd hba (FieldName.lt_asymm hab))
      (ascending_iff_names.1 hy) (ascending_iff_names.1 (ascending_sorted hx)) hperm

end Field

namespace Expr

open Elaboration

theorem canonicalize_elaborateFields {fields : List (FieldExpr Expr)}
    (hn : (fields.map FieldExpr.name).Nodup) :
    FieldExpr.canonicalize (elaborateFields fields) =
      .ok ((Field.sorted (fields.map FieldExpr.field)).map (Field.map elaborate)) := by
  rw [elaborateFields_eq_map, FieldExpr.canonicalize_map elaborate hn]

theorem canonicalize_elaborateFields_cases (fields : List (FieldExpr Expr)) :
    (∃ clash, FieldExpr.canonicalize (elaborateFields fields) = .error clash) ∨
      (fields.map FieldExpr.name).Nodup ∧ FieldExpr.canonicalize (elaborateFields fields) =
        .ok ((Field.sorted (fields.map FieldExpr.field)).map (Field.map elaborate)) := by
  cases hc : FieldExpr.canonicalize (elaborateFields fields) with
  | error clash => exact .inl ⟨clash, rfl⟩
  | ok ys =>
    have hn : (fields.map FieldExpr.name).Nodup := by
      have hys := (FieldExpr.canonicalize_ok_iff.1 hc).1
      rwa [elaborateFields_eq_map, FieldExpr.names_map] at hys
    exact .inr ⟨hn, hc.symm.trans (canonicalize_elaborateFields hn)⟩

theorem outcome_checkedValues_ok_iff {xs : List (Field Expr)} {types : List (Field Ty)}
    (hn : types.map Field.name = xs.map Field.name) {path : Path} {values : List Value}
    {g g' : Registry} :
    (checkedValues path (xs.map (Field.map elaborate)) types).outcome g = (.ok values, g') ↔
      g' = g ∧ List.Forall₂ (fun (p : Field Expr × Field Ty) v =>
        (p.1.value.elaborate (some p.2.value) (path ++ [p.1.name])).outcome g = (.ok v, g))
        (xs.zip types) values := by
  induction xs generalizing types values g with
  | nil =>
    obtain rfl : types = [] := by simpa using hn
    simp [checkedValues, eq_comm, and_comm]
  | cons x xs ih =>
    cases types with
    | nil => simp at hn
    | cons declared types =>
      have hrest : types.map Field.name = xs.map Field.name := (List.cons.inj hn).2
      rw [List.zip_cons_cons, List.map_cons, checkedValues]
      constructor
      · intro h
        obtain ⟨v, g₁, hv, h⟩ := outcome_bind_ok.1 h
        obtain ⟨vs, g₂, hvs, hp⟩ := outcome_bind_ok.1 h
        obtain ⟨rfl, rfl⟩ : v :: vs = values ∧ g₂ = g' := by simpa using hp
        obtain ⟨-, rfl⟩ := (checks_elaborate x.value _ _).eq_ofExcept hv
        obtain ⟨rfl, hall⟩ := (ih hrest).1 hvs
        exact ⟨rfl, .cons hv hall⟩
      · rintro ⟨rfl, h⟩
        cases h with
        | cons hv hall =>
          have hvs := (ih hrest).2 ⟨rfl, hall⟩
          exact outcome_bind_ok.2 ⟨_, _, hv, outcome_bind_ok.2 ⟨_, _, hvs, rfl⟩⟩

/-- The fields of a literal and those of a record type, paired in canonical order. -/
def paired (fields : List (FieldExpr Expr)) (r : RecordType) : List (Field Expr × Field Ty) :=
  (Field.sorted (fields.map FieldExpr.field)).zip r.fields

theorem outcome_record_ok_iff {fields : List (FieldExpr Expr)} {span : Span} {t : Ty} {path : Path}
    {v : Value} {g g' : Registry} :
    ((record ⟨fields, span⟩).elaborate (some t) path).outcome g = (.ok v, g') ↔
      g' = g ∧ (fields.map FieldExpr.name).Nodup ∧ ∃ r : RecordValue, t = r.type.ty ∧ v = r.value ∧
        r.type.names = (Field.sorted (fields.map FieldExpr.field)).map Field.name ∧
        List.Forall₂ (fun (p : Field Expr × Field Ty) v =>
          (p.1.value.elaborate (some p.2.value) (path ++ [p.1.name])).outcome g = (.ok v, g))
          (paired fields r.type) r.values := by
  have hnames (xs : List (Field Expr)) :
      (xs.map (Field.map elaborate)).map Field.name = xs.map Field.name := by
    simp [Function.comp_def]
  rw [elaborate, outcome_bind_ok]
  constructor
  · rintro ⟨r, g₁, hr, hp⟩
    obtain ⟨rfl, rfl⟩ : r.value = v ∧ g₁ = g' := by simpa using hp
    rcases canonicalize_elaborateFields_cases fields with ⟨clash, hc⟩ | ⟨hn, hc⟩
    · rw [recordValue_of_clash hc] at hr
      simp [outcome] at hr
    · obtain ⟨rfl, hrn, hvalues⟩ := (outcome_recordValue_ok_iff hc).1 hr
      rw [hnames] at hrn
      obtain ⟨rfl, hall⟩ := (outcome_checkedValues_ok_iff hrn).1 hvalues
      exact ⟨rfl, hn, r, rfl, rfl, hrn, hall⟩
  · rintro ⟨rfl, hn, r, rfl, rfl, hrn, hall⟩
    exact ⟨r, _, (outcome_recordValue_ok_iff (canonicalize_elaborateFields hn)).2
      ⟨rfl, by rwa [hnames], (outcome_checkedValues_ok_iff hrn).2 ⟨rfl, hall⟩⟩, rfl⟩

theorem mem_paired_iff {fields : List (FieldExpr Expr)} {r : RecordType}
    (hr : r.names = (Field.sorted (fields.map FieldExpr.field)).map Field.name)
    (ha : Field.Ascending r.fields) {x : Field Expr} {declared : Field Ty} :
    (x, declared) ∈ paired fields r ↔
      x ∈ fields.map FieldExpr.field ∧ declared ∈ r.fields ∧ declared.name = x.name := by
  rw [paired, Field.mem_zip_iff hr (hr ▸ ha.nodup_names), Field.mem_sorted]

theorem exists_of_mem_paired {fields : List (FieldExpr Expr)} {r : RecordType}
    {p : Field Expr × Field Ty} (hp : p ∈ paired fields r) :
    ∃ f ∈ fields, f.field = p.1 ∧ p.2 ∈ r.fields := by
  obtain ⟨hx, hd⟩ := List.of_mem_zip (show (p.1, p.2) ∈ _ from hp)
  obtain ⟨f, hf, hfx⟩ := List.mem_map.1 (Field.mem_sorted.1 hx)
  exact ⟨f, hf, hfx, hd⟩

theorem distinct_of_checked {e : Expr} {t : Ty} {path : Path} {v : Value} {g g' : Registry}
    (h : (e.elaborate (some t) path).outcome g = (.ok v, g')) : e.Distinct := by
  induction e using Expr.induction generalizing t path v g' with
  | scalar s span => exact .scalar s span
  | record fields span ih =>
    obtain ⟨-, hn, r, -, -, hr, hall⟩ := outcome_record_ok_iff.1 h
    have hlength : (Field.sorted (fields.map FieldExpr.field)).length ≤ r.type.fields.length := by
      simpa [RecordType.names] using Nat.le_of_eq (congrArg List.length hr).symm
    refine .record hn fun f hf => ?_
    have hmem : f.field ∈ (paired fields r.type).map Prod.fst := by
      rw [paired, List.map_fst_zip hlength]
      exact Field.mem_sorted.2 (List.mem_map_of_mem hf)
    obtain ⟨p, hp, hpf⟩ := List.mem_map.1 hmem
    obtain ⟨i, hi, rfl⟩ := List.getElem_of_mem hp
    have hchecked := hall.get hi (hall.length_eq ▸ hi)
    simp only [List.get_eq_getElem, hpf] at hchecked
    exact ih f hf hchecked

theorem conforms_scalar_iff {s : Scalar} {span : Span} {t : Ty} :
    (scalar s span).Conforms t ↔ ∃ v, s.at? t = some v := by
  constructor
  · intro h
    cases h with
    | scalar => exact ⟨_, Scalar.at?_eq_some.2 (.inl ⟨rfl, rfl⟩)⟩
    | widened _ hi => exact ⟨_, Scalar.at?_eq_some.2 (.inr ⟨_, rfl, rfl, hi, rfl⟩)⟩
  · rintro ⟨v, hv⟩
    rcases Scalar.at?_eq_some.1 hv with ⟨rfl, -⟩ | ⟨i, rfl, rfl, hi, -⟩
    · exact .scalar s span
    · exact .widened span hi

theorem exists_ty_of_conforms {r : RecordExpr Expr} {t : Ty} (h : (record r).Conforms t) :
    ∃ type : RecordType, t = type.ty := by
  cases h with
  | @record _ _ type => exact ⟨type, rfl⟩

theorem conforms_record_iff {fields : List (FieldExpr Expr)} {span : Span} {r : RecordType}
    (ha : Field.Ascending r.fields) :
    (record ⟨fields, span⟩).Conforms r.ty ↔ (fields.map FieldExpr.name).Nodup ∧
      r.names = (Field.sorted (fields.map FieldExpr.field)).map Field.name ∧
      ∀ p ∈ paired fields r, p.1.value.Conforms p.2.value := by
  have hsame (hn : (fields.map FieldExpr.name).Nodup) :
      r.names = (Field.sorted (fields.map FieldExpr.field)).map Field.name ↔
        ∀ name, name ∈ fields.map FieldExpr.name ↔ name ∈ r.names := by
    rw [← FieldExpr.names_field] at hn ⊢
    exact Field.names_sorted_eq_iff hn ha
  constructor
  · intro h
    generalize hty : r.ty = t at h
    cases h with
    | @record _ _ s hn hnames hitems =>
      obtain rfl := RecordType.ty_injective hty
      have hr := (hsame hn).2 hnames
      refine ⟨hn, hr, ?_⟩
      rintro ⟨x, declared⟩ hp
      obtain ⟨hx, hd, hname⟩ := (mem_paired_iff hr ha).1 hp
      obtain ⟨f, hf, rfl⟩ := List.mem_map.1 hx
      exact hitems f hf declared hd hname
  · rintro ⟨hn, hr, hpairs⟩
    refine .record span hn ((hsame hn).1 hr) fun f hf declared hd hname => ?_
    exact hpairs (f.field, declared)
      ((mem_paired_iff hr ha).2 ⟨List.mem_map_of_mem hf, hd, hname⟩)

theorem exists_forall₂_iff {α β : Type} {R : α → β → Prop} {xs : List α} :
    (∃ ys, List.Forall₂ R xs ys) ↔ ∀ x ∈ xs, ∃ y, R x y := by
  constructor
  · rintro ⟨ys, h⟩ x hx
    obtain ⟨i, hi, rfl⟩ := List.getElem_of_mem hx
    have hlt : i < ys.length := h.length_eq ▸ hi
    exact ⟨ys[i], h.get hi hlt⟩
  · intro h
    induction xs with
    | nil => exact ⟨[], .nil⟩
    | cons x xs ih =>
      obtain ⟨y, hy⟩ := h x List.mem_cons_self
      obtain ⟨ys, hys⟩ := ih fun z hz => h z (List.mem_cons_of_mem x hz)
      exact ⟨y :: ys, .cons hy hys⟩

/-- What is expected of an expression is accepted exactly if the expression conforms to it. -/
theorem exists_elaborate_iff {e : Expr} {t : Ty} (ht : t.Genuine) {path : Path} {g : Registry} :
    (∃ v g', (e.elaborate (some t) path).outcome g = (.ok v, g')) ↔ e.Conforms t := by
  induction e using Expr.induction generalizing t path with
  | scalar s span =>
    rw [conforms_scalar_iff]
    constructor
    · rintro ⟨v, g', h⟩
      exact ⟨v, Scalar.elaborate_ok_iff.1 (outcome_ofExcept_ok.1 h).1⟩
    · rintro ⟨v, hv⟩
      exact ⟨v, g, outcome_ofExcept_ok.2 ⟨Scalar.elaborate_ok_iff.2 hv, rfl⟩⟩
  | record fields span ih =>
    have hpair {r : RecordType} (hr : r.ty.Genuine) {p : Field Expr × Field Ty}
        (hp : p ∈ paired fields r) :
        (∃ v, (p.1.value.elaborate (some p.2.value) (path ++ [p.1.name])).outcome g =
          (.ok v, g)) ↔ p.1.value.Conforms p.2.value := by
      obtain ⟨f, hf, hfp, hd⟩ := exists_of_mem_paired hp
      rw [← hfp]
      refine Iff.trans ⟨fun ⟨v, hv⟩ => ⟨v, g, hv⟩, fun ⟨v, g', hv⟩ => ⟨v, ?_⟩⟩
        (ih f hf (hr.of_mem_fields hd))
      obtain ⟨-, rfl⟩ := (checks_elaborate f.item _ _).eq_ofExcept hv
      exact hv
    constructor
    · rintro ⟨v, g', h⟩
      obtain ⟨-, hn, r, rfl, -, hr, hall⟩ := outcome_record_ok_iff.1 h
      refine (conforms_record_iff ht.ascending).2 ⟨hn, hr, fun p hp => ?_⟩
      exact (hpair ht hp).1 (exists_forall₂_iff.1 ⟨_, hall⟩ p hp)
    · intro h
      obtain ⟨r, rfl⟩ := exists_ty_of_conforms h
      obtain ⟨hn, hr, hpairs⟩ := (conforms_record_iff ht.ascending).1 h
      obtain ⟨values, hvalues⟩ := exists_forall₂_iff.2 fun p hp => (hpair ht hp).2 (hpairs p hp)
      exact ⟨_, g, outcome_record_ok_iff.2 ⟨rfl, hn, ⟨r, values⟩, rfl, rfl, hr, hvalues⟩⟩

theorem get?_of_paired {fields : List (FieldExpr Expr)} {r : RecordValue}
    {R : Field Expr × Field Ty → Value → Prop}
    (hr : r.type.names = (Field.sorted (fields.map FieldExpr.field)).map Field.name)
    (ha : Field.Ascending r.type.fields) (hall : List.Forall₂ R (paired fields r.type) r.values)
    {f : FieldExpr Expr} (hf : f ∈ fields) :
    ∃ declared ∈ r.type.fields, ∃ v, r.get? f.name = some v ∧ R (f.field, declared) v := by
  have hname : f.name ∈ r.type.fields.map Field.name := by
    rw [← RecordType.names, hr, (FieldExpr.names_sorted_perm fields).mem_iff]
    exact List.mem_map_of_mem hf
  obtain ⟨declared, hd, hdn⟩ := List.mem_map.1 hname
  have hp : (f.field, declared) ∈ paired fields r.type :=
    (mem_paired_iff hr ha).2 ⟨List.mem_map_of_mem hf, hd, hdn⟩
  obtain ⟨i, hi, hpi⟩ := List.getElem_of_mem hp
  have hiv : i < r.values.length := hall.length_eq ▸ hi
  have hdi : r.type.fields[i]? = some declared := by
    have hzip := List.getElem?_eq_some_iff.2 ⟨hi, hpi⟩
    exact (List.getElem?_zip_eq_some.1 hzip).2
  have hR : R (f.field, declared) r.values[i] := by simpa [hpi] using hall.get hi hiv
  have hget : r.get? f.name = some r.values[i] :=
    (RecordValue.get?_eq_some_iff ha).2 ⟨i, declared, hdi, hdn, List.getElem?_eq_getElem hiv⟩
  exact ⟨declared, hd, r.values[i], hget, hR⟩

/-- The value of an accepted expression holds what is written at its leaves. -/
theorem shownBy_of_elaborate {e : Expr} {t : Ty} (ht : t.Genuine) {path : Path} {v : Value}
    {g g' : Registry} (h : (e.elaborate (some t) path).outcome g = (.ok v, g')) : e.ShownBy v := by
  induction e using Expr.induction generalizing t path v g' with
  | scalar s span =>
    rintro _ _ ⟨⟩
    have hs := Scalar.elaborate_ok_iff.1 (outcome_ofExcept_ok.1 h).1
    rcases Scalar.at?_eq_some.1 hs with ⟨-, rfl⟩ | ⟨i, rfl, -, hi, rfl⟩
    · exact ⟨s, rfl, .same s⟩
    · exact ⟨_, rfl, .widened (Binary64.isInteger_ofInt hi)⟩
  | record fields span ih =>
    obtain ⟨-, -, r, rfl, rfl, hr, hall⟩ := outcome_record_ok_iff.1 h
    rintro _ s (_ | @⟨_, _, f, rest, _, hf, hleaf⟩)
    obtain ⟨declared, hd, w, hw, hfw⟩ := get?_of_paired hr ht.ascending hall hf
    obtain ⟨found, hfound, hstands⟩ := ih f hf (ht.of_mem_fields hd) hfw rest s hleaf
    exact ⟨found, by simpa [Value.at?, hw] using hfound, hstands⟩

theorem outcome_record_iff {l : RecordExpr Expr} {expected : Option RecordType} {v : RecordValue}
    {g g' : Registry} :
    ((record l).elaborate (expected.map RecordType.ty) []).outcome g = (.ok v.value, g') ↔
      (elaborateRecord l expected).outcome g = (.ok v, g') := by
  rw [elaborate, outcome_bind_ok]
  constructor
  · rintro ⟨r, g₁, hr, hp⟩
    obtain ⟨hvalue, rfl⟩ : r.value = v.value ∧ g₁ = g' := by simpa using hp
    exact RecordValue.value_injective hvalue ▸ hr
  · intro h
    exact ⟨v, g', h, rfl⟩

/-- Checking accepts exactly the expressions that conform to the expected type, whichever registry
the type is of and whichever is elaborated in. The value is well-typed, of the expected type, and
shows every leaf of the expression. The same holds of record literals and record types. -/
theorem checked_iff_conforms :
    (∀ (e : Expr) (t : Ty) (g : Registry), t.Genuine →
      ((∃ v g', (e.elaborate (some t) []).outcome g = (.ok v, g')) ↔ e.Conforms t) ∧
      ∀ v g', (e.elaborate (some t) []).outcome g = (.ok v, g') →
        v.typeOf = t ∧ v.WellTyped ∧ e.ShownBy v ∧ g' = g) ∧
    ∀ (l : RecordExpr Expr) (r : RecordType) (g : Registry), r.ty.Genuine →
      ((∃ v g', (elaborateRecord l (some r)).outcome g = (.ok v, g')) ↔
        (record l).Conforms r.ty) ∧
      ∀ v g', (elaborateRecord l (some r)).outcome g = (.ok v, g') →
        v.type = r ∧ v.value.WellTyped ∧ (record l).ShownBy v.value ∧ g' = g := by
  have hresult {e : Expr} {t : Ty} {g : Registry} (ht : t.Genuine) {v : Value} {g' : Registry}
      (h : (e.elaborate (some t) []).outcome g = (.ok v, g')) :
      v.typeOf = t ∧ v.WellTyped ∧ e.ShownBy v ∧ g' = g := by
    obtain ⟨hwell, htype⟩ := typed_elaborate e h
    exact ⟨htype t rfl, hwell, shownBy_of_elaborate ht h,
      ((checks_elaborate e t []).eq_ofExcept h).2⟩
  refine ⟨fun e t g ht => ⟨exists_elaborate_iff ht, fun v g' => hresult ht⟩, fun l r g ht => ?_⟩
  constructor
  · rw [← @exists_elaborate_iff _ _ ht [] g]
    constructor
    · rintro ⟨v, g', h⟩
      exact ⟨v.value, g', outcome_record_iff.2 h⟩
    · rintro ⟨v, g', h⟩
      rw [elaborate] at h
      obtain ⟨v, g₁, hv, -⟩ := outcome_bind_ok.1 h
      exact ⟨v, g₁, hv⟩
  · intro v g' h
    obtain ⟨htype, hrest⟩ := hresult ht (outcome_record_iff.2 h)
    exact ⟨RecordType.ty_injective htype, hrest⟩

def sizeType : RecordType :=
  ⟨.registry 1, 0, [⟨.position 1, .primitive .double⟩, ⟨.position 2, .primitive .string⟩]⟩

def boxType : RecordType :=
  ⟨.registry 1, 1, [⟨.label "name", .primitive .string⟩, ⟨.label "size", sizeType.ty⟩]⟩

def boxExpr : RecordExpr Expr where
  fields :=
    [⟨.label "size", default, .record ⟨[⟨.position 1, default, .scalar (.int (-3)) default⟩,
        ⟨.position 2, default, .scalar (.string "cm") default⟩], default⟩⟩,
      ⟨.label "name", default, .scalar (.string "A4") default⟩]
  span := default

theorem genuine_boxType : boxType.ty.Genuine := by
  intro r hr
  refine ⟨_, ⟨.registry 1, [.tupleType [.primitive .double, .primitive .string],
    .structType boxType.fields], rfl⟩, ?_⟩
  obtain rfl | rfl : r = boxType ∨ r = sizeType := by
    simpa [Ty.handles_ty, boxType, sizeType] using hr
  · decide
  · decide

theorem conforms_boxExpr : (record boxExpr).Conforms boxType.ty := by
  have hsize : (record ⟨[⟨.position 1, default, .scalar (.int (-3)) default⟩,
      ⟨.position 2, default, .scalar (.string "cm") default⟩], default⟩).Conforms sizeType.ty := by
    refine .record default (by decide) (by simp [sizeType, RecordType.names]) ?_
    simpa [sizeType] using ⟨.widened default (by decide), .scalar (.string "cm") default⟩
  refine .record default (by decide) (by simp [boxType, RecordType.names, or_comm]) ?_
  simpa [boxType] using ⟨hsize, .scalar (.string "A4") default⟩

/-- A box literal is accepted at the type of boxes, though no registry of the type is used. -/
theorem checked_iff_conforms_box :
    boxType.ty.Genuine ∧ ∃ v, (elaborateRecord boxExpr (some boxType)).outcome
        (.empty (.registry 0)) = (.ok v, .empty (.registry 0)) ∧
      v.type = boxType ∧ v.value.WellTyped ∧ (record boxExpr).ShownBy v.value := by
  obtain ⟨haccepts, hresult⟩ :=
    checked_iff_conforms.2 boxExpr boxType (.empty (.registry 0)) genuine_boxType
  obtain ⟨v, g', h⟩ := haccepts.2 conforms_boxExpr
  obtain ⟨htype, hwell, hshown, rfl⟩ := hresult v g' h
  exact ⟨genuine_boxType, v, h, htype, hwell, hshown⟩

end Expr

end RecordLens
