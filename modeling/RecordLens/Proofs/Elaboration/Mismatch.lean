import RecordLens.Proofs.Elaboration.Conformance
import RecordLens.Proofs.Elaboration.Duplicates
import RecordLens.Proofs.Lens.Composition

/-! What a mismatch points at. The path of the error leads through the literal and through the
expected type alike, past fields that conform, to a part that does not. Two records that do not fit
are told apart by their names. -/

namespace RecordLens

/-- The path leads from the expression to a part of it, and from the type expected of the one to the
type expected of the other. Every record on the way has the names of its type, each once, and the
fields before the one that is entered conform. -/
inductive Expr.Reaches : Expr → Ty → Path → Expr → Ty → Prop
  | here (e : Expr) (t : Ty) : Reaches e t [] e t
  | field {fields : List (FieldExpr Expr)} {span : Span} {r : RecordType} {f : FieldExpr Expr}
      {declared : Field Ty} {path : Path} {part : Expr} {t : Ty}
      (distinct : (fields.map FieldExpr.name).Nodup)
      (names : ∀ name, name ∈ fields.map FieldExpr.name ↔ name ∈ r.names)
      (earlier : ∀ x ∈ fields, ∀ d ∈ r.fields, d.name = x.name → x.name < f.name →
        x.item.Conforms d.value)
      (hf : f ∈ fields) (hd : declared ∈ r.fields) (same : declared.name = f.name)
      (rest : Reaches f.item declared.value path part t) :
      Reaches (.record ⟨fields, span⟩) r.ty (f.name :: path) part t

namespace TypeMismatch

/-- The error lists, in order, the names that only one of the two records has. -/
structure Compares (m : TypeMismatch) (r : RecordType) (names : List FieldName) : Prop where
  missing_ascends : m.missing.Pairwise (· < ·)
  mem_missing : ∀ name, name ∈ m.missing ↔ name ∈ r.names ∧ name ∉ names
  extra_ascends : m.extra.Pairwise (· < ·)
  mem_extra : ∀ name, name ∈ m.extra ↔ name ∈ names ∧ name ∉ r.names
  differ : m.missing ≠ [] ∨ m.extra ≠ []

structure Describes (m : TypeMismatch) (part : Expr) : Prop where
  span : m.span = some part.span
  unfit : ¬part.Conforms m.expected
  compared : ∀ l r, part = .record l → m.expected = r.ty →
    m.Compares r (l.fields.map FieldExpr.name)

/-- The error describes a part of the expression, to which its path leads. In the type expected of
the expression the path leads to what is expected of the part. -/
structure PointsAt (m : TypeMismatch) (e : Expr) (t : Ty) (part : Expr) : Prop
    extends m.Describes part where
  reached : e.Reaches t m.path part m.expected
  derived : ∃ l, Lens.derivePath t m.path = .ok l ∧ l.target = m.expected

theorem mem_lacking_iff {r s : RecordType} (hs : Field.Ascending s.fields) {name : FieldName} :
    name ∈ lacking r s ↔ name ∈ r.names ∧ name ∉ s.names := by
  rw [lacking, List.mem_filter, Option.isNone_iff_eq_none, RecordType.index?,
    Field.index?_eq_none_iff hs]
  rfl

theorem pairwise_lacking {r : RecordType} (hr : Field.Ascending r.fields) (s : RecordType) :
    (lacking r s).Pairwise (· < ·) := (Field.ascending_iff_names.1 hr).filter _

theorem between_ty (r s : RecordType) (path : Path) (span : Option Span) :
    between r.ty s.ty path span = ⟨r.ty, s.ty, path, lacking r s, lacking s r, span⟩ := by
  simp [between]

theorem between_place (expected found : Ty) (path : Path) (span : Option Span) :
    (between expected found path span).expected = expected ∧
      (between expected found path span).path = path ∧
      (between expected found path span).span = span := by
  unfold between
  split <;> exact ⟨rfl, rfl, rfl⟩

theorem compares_between {r s : RecordType} (hr : Field.Ascending r.fields)
    (hs : Field.Ascending s.fields) (hne : r.names ≠ s.names) (path : Path) (span : Option Span) :
    (between r.ty s.ty path span).Compares r s.names := by
  rw [between_ty]
  refine ⟨pairwise_lacking hr s, fun name => mem_lacking_iff hs, pairwise_lacking hs r,
    fun name => mem_lacking_iff hr, ?_⟩
  by_contra hnone
  obtain ⟨hmissing, hextra⟩ : lacking r s = [] ∧ lacking s r = [] := by simpa using hnone
  have hsame (name : FieldName) : name ∈ s.names ↔ name ∈ r.names := by
    have hr' : name ∈ lacking r s ↔ name ∈ r.names ∧ name ∉ s.names := mem_lacking_iff hs
    have hs' : name ∈ lacking s r ↔ name ∈ s.names ∧ name ∉ r.names := mem_lacking_iff hr
    rw [hmissing] at hr'
    rw [hextra] at hs'
    grind
  have heq := (Field.names_sorted_eq_iff hs.nodup_names hr).2 hsame
  rw [hs.sorted_eq] at heq
  exact hne heq

theorem Compares.congr {m : TypeMismatch} {r : RecordType} {names names' : List FieldName}
    (h : m.Compares r names) (hnames : ∀ name, name ∈ names ↔ name ∈ names') :
    m.Compares r names' where
  missing_ascends := h.missing_ascends
  mem_missing name := by rw [h.mem_missing, hnames]
  extra_ascends := h.extra_ascends
  mem_extra name := by rw [h.mem_extra, hnames]
  differ := h.differ

end TypeMismatch

namespace Expr

open Elaboration

/-- The type that the path of the error leads to can be found without the expression. -/
theorem Reaches.exists_derivePath {e part : Expr} {t u : Ty} {path : Path}
    (h : e.Reaches t path part u) (ht : t.Genuine) :
    ∃ l, Lens.derivePath t path = .ok l ∧ l.target = u := by
  suffices hsteps : ∃ steps, t.resolve path = .ok (steps, u) by
    obtain ⟨steps, hsteps⟩ := hsteps
    exact ⟨⟨t, u, path, steps⟩, Lens.derivePath_eq_ok_iff.2 ⟨rfl, rfl, hsteps⟩, rfl⟩
  induction h with
  | here e t => exact ⟨[], rfl⟩
  | field _ _ _ _ hd same _ ih =>
    obtain ⟨steps, hsteps⟩ := ih (ht.of_mem_fields hd)
    obtain ⟨i, hi⟩ := Ty.exists_child? ht.ascending hd
    exact ⟨i :: steps, Ty.resolve_cons_ok.2 ⟨i, _, steps, same ▸ hi, hsteps, rfl⟩⟩

theorem not_conforms_of_error {e : Expr} {t : Ty} (ht : t.Genuine) {path : Path}
    {error : ValueError} {g g' : Registry}
    (h : (e.elaborate (some t) path).outcome g = (.error error, g')) :
    ¬e.Conforms t := by
  intro hc
  obtain ⟨v, g₁, hv⟩ : ∃ v g₁, (e.elaborate (some t) path).outcome g = (.ok v, g₁) :=
    (exists_elaborate_iff ht).2 hc
  simp [h] at hv

theorem exists_of_checkedValues_error {xs : List (Field Expr)} {types : List (Field Ty)}
    {path : Path} {error : ValueError} {g g' : Registry}
    (h : (checkedValues path (xs.map (Field.map elaborate)) types).outcome g =
      (.error error, g')) :
    ∃ front x declared back, xs.zip types = front ++ (x, declared) :: back ∧
      (∀ p ∈ front, ∃ v, (p.1.value.elaborate (some p.2.value) (path ++ [p.1.name])).outcome g =
        (.ok v, g)) ∧
      (x.value.elaborate (some declared.value) (path ++ [x.name])).outcome g =
        (.error error, g') := by
  induction xs generalizing types with
  | nil => cases h
  | cons x xs ih =>
    cases types with
    | nil => cases h
    | cons declared types =>
      rw [List.map_cons, checkedValues] at h
      rcases outcome_bind_error_iff.1 h with hx | ⟨v, g₁, hv, hrest⟩
      · exact ⟨[], x, declared, xs.zip types, rfl, by simp, hx⟩
      · obtain ⟨-, rfl⟩ := (checks_elaborate x.value _ _).eq_ofExcept hv
        obtain ⟨front, y, expected, back, hzip, hfront, hy⟩ :=
          ih (outcome_bind_pure_error_iff.1 hrest)
        refine ⟨(x, declared) :: front, y, expected, back, ?_, ?_, hy⟩
        · rw [List.zip_cons_cons, hzip, List.cons_append]
        · exact List.forall_mem_cons.2 ⟨⟨v, hv⟩, hfront⟩

theorem names_of_inferred {fields : List (Field Elaborator)} {path : Path} {r : RecordValue}
    {g g' : Registry} (h : (inferred fields path).outcome g = (.ok r, g')) :
    r.type.names = fields.map Field.name := by
  obtain ⟨values, g₁, hvalues, hr⟩ := outcome_bind_ok.1 h
  obtain ⟨rfl, -⟩ : ((RecordValue.ofCanonical values).outcome g₁).1 = r ∧ _ := by simpa using hr
  rw [RecordType.names, (RecordValue.outcome_ofCanonical values g₁).1,
    ← names_of_mapM_traverse hvalues]
  simp [Function.comp_def]

/-- Fields that are refused as a whole have names of their own. A record among them that repeats a
name is reported instead. -/
theorem exists_of_mismatched {xs : List (Field Expr)} {t : Ty} {span : Span} {path : Path}
    {m : TypeMismatch}
    (h : mismatched t (xs.map (Field.map elaborate)) span path = .error (.mismatch m)) :
    ∃ found : RecordType, found.names = xs.map Field.name ∧
      m = .between t found.ty path (some span) := by
  unfold mismatched at h
  generalize hp : (inferred _ path).run (Registry.empty .scratch) = p at h
  obtain ⟨result, g⟩ := p
  cases result with
  | error error =>
    have hraises : (inferred (xs.map (Field.map elaborate)) path).Raises _ :=
      raises_inferred fun x _ => x.value.raises_elaborate
    obtain ⟨d, -, rfl⟩ := Option.map_eq_some_iff.1 (hraises.error_iff.1 ⟨g, hp⟩)
    cases h
  | ok found =>
    obtain rfl := ValueError.mismatch.inj (Except.error.inj h)
    have hnames := names_of_inferred hp
    refine ⟨found.type, ?_, rfl⟩
    simpa [Function.comp_def] using hnames

theorem record_mismatch_cases {fields : List (FieldExpr Expr)} {span : Span} {t : Ty} {path : Path}
    {m : TypeMismatch} {g g' : Registry}
    (h : ((record ⟨fields, span⟩).elaborate (some t) path).outcome g =
      (.error (.mismatch m), g')) :
    ∃ xs : List (Field Expr), FieldExpr.canonicalize fields = .ok xs ∧
      ((∃ found : RecordType, found.names = xs.map Field.name ∧
          m = .between t found.ty path (some span) ∧
          ∀ r : RecordType, t = r.ty → r.names ≠ found.names) ∨
        ∃ r : RecordType, t = r.ty ∧ r.names = xs.map Field.name ∧
          (checkedValues path (xs.map (Field.map elaborate)) r.fields).outcome g =
            (.error (.mismatch m), g')) := by
  rw [elaborate] at h
  have hrecord := outcome_bind_pure_error_iff.1 h
  rcases canonicalize_elaborateFields_cases fields with ⟨clash, hc⟩ | ⟨hn, hc⟩
  · rw [recordValue_of_clash hc] at hrecord
    cases hrecord
  · refine ⟨_, FieldExpr.canonicalize_ok_iff.2 ⟨hn, rfl⟩, ?_⟩
    rw [recordValue_of_canonicalize hc] at hrecord
    have hnames (xs : List (Field Expr)) :
        (xs.map (Field.map elaborate)).map Field.name = xs.map Field.name := by
      simp [Function.comp_def]
    simp only [hnames] at hrecord
    split at hrecord
    · next htype =>
      obtain ⟨found, hfound, rfl⟩ := exists_of_mismatched (Prod.mk.inj hrecord).1
      exact .inl ⟨found, hfound, rfl, fun r hr => by simp [hr] at htype⟩
    · next r htype =>
      obtain rfl := Ty.eq_ty_of_recordType? htype
      split at hrecord
      · next hr => exact .inr ⟨r, rfl, hr, outcome_bind_pure_error_iff.1 hrecord⟩
      · next hr =>
        obtain ⟨found, hfound, rfl⟩ := exists_of_mismatched (Prod.mk.inj hrecord).1
        refine .inl ⟨found, hfound, rfl, fun s hs => ?_⟩
        rwa [hfound, ← RecordType.ty_injective hs]

theorem mem_front_of_lt {xs : List (Field Expr)} {types : List (Field Ty)}
    (ha : Field.Ascending xs) (hn : types.map Field.name = xs.map Field.name)
    {front back : List (Field Expr × Field Ty)} {x : Field Expr} {declared : Field Ty}
    (hzip : xs.zip types = front ++ (x, declared) :: back) {p : Field Expr × Field Ty}
    (hp : p ∈ xs.zip types) (hlt : p.1.name < x.name) : p ∈ front := by
  have hlen : xs.length ≤ types.length := by
    have := congrArg List.length hn
    simp at this
    omega
  have hpairs : (xs.zip types).Pairwise fun p q => p.1.name < q.1.name := by
    rw [← List.pairwise_map (f := Prod.fst) (R := fun x y : Field Expr => x.name < y.name),
      List.map_fst_zip hlen]
    exact ha
  rw [hzip] at hp hpairs
  rcases List.mem_append.1 hp with hfront | hrest
  · exact hfront
  · rcases List.mem_cons.1 hrest with rfl | hback
    · exact absurd hlt (FieldName.lt_irrefl _)
    · have hgt := List.rel_of_pairwise_cons (List.pairwise_append.1 hpairs).2.1 hback
      exact absurd hlt (FieldName.lt_asymm hgt)

theorem exists_reaches_of_mismatch {e : Expr} {t : Ty} (ht : t.Genuine) {path : Path}
    {m : TypeMismatch} {g g' : Registry}
    (h : (e.elaborate (some t) path).outcome g = (.error (.mismatch m), g')) :
    ∃ rest part, m.path = path ++ rest ∧ e.Reaches t rest part m.expected ∧ m.Describes part := by
  induction e using Expr.induction generalizing t path with
  | scalar s span =>
    have hunfit := not_conforms_of_error ht h
    have hm : m = .between t (.primitive s.primitive) path (some span) := by
      have hs : s.elaborate span (some t) path = .error (.mismatch m) := (Prod.mk.inj h).1
      rw [Scalar.elaborate] at hs
      cases hat : s.at? t with
      | some v => simp [hat] at hs
      | none => simpa [hat, eq_comm] using hs
    obtain ⟨hexpected, hpath, hspan⟩ :=
      TypeMismatch.between_place t (.primitive s.primitive) path (some span)
    rw [← hm] at hexpected hpath hspan
    refine ⟨[], .scalar s span, ?_, ?_, ?_⟩
    · rw [hpath, List.append_nil]
    · rw [hexpected]
      exact .here _ t
    · exact ⟨hspan, hexpected ▸ hunfit, fun l r h _ => by cases h⟩
  | record fields span ih =>
    obtain ⟨xs, hxs, hcases⟩ := record_mismatch_cases h
    obtain ⟨hn, rfl⟩ := FieldExpr.canonicalize_ok_iff.1 hxs
    have ha := FieldExpr.canonicalize_ascending hxs
    rcases hcases with ⟨found, hfound, rfl, hne⟩ | ⟨r, rfl, hr, hvalues⟩
    · obtain ⟨hexpected, hpath, hspan⟩ := TypeMismatch.between_place t found.ty path (some span)
      refine ⟨[], .record ⟨fields, span⟩, ?_, ?_, hspan, ?_, ?_⟩
      · rw [hpath, List.append_nil]
      · rw [hexpected]
        exact .here _ t
      · rw [hexpected]
        exact not_conforms_of_error ht h
      · rintro l r ⟨rfl⟩ hty
        obtain rfl : t = r.ty := hexpected.symm.trans hty
        have hmem (name : FieldName) : name ∈ found.names ↔ name ∈ fields.map FieldExpr.name := by
          rw [hfound, (FieldExpr.names_sorted_perm fields).mem_iff]
        exact (TypeMismatch.compares_between ht.ascending (ha.of_names_eq hfound)
          (hne r rfl) path (some span)).congr hmem
    · obtain ⟨front, x, declared, back, hzip, hfront, hx⟩ := exists_of_checkedValues_error hvalues
      have hpaired : (x, declared) ∈ paired fields r := by
        rw [paired, hzip]
        exact List.mem_append_cons_self
      obtain ⟨hxf, hd, same⟩ := (mem_paired_iff hr ht.ascending).1 hpaired
      obtain ⟨f, hf, rfl⟩ := List.mem_map.1 hxf
      obtain ⟨rest, part, hpath, hreaches, hdescribes⟩ := ih f hf (ht.of_mem_fields hd) hx
      refine ⟨f.name :: rest, part, ?_, ?_, hdescribes⟩
      · rw [hpath, List.append_assoc]
        rfl
      · refine .field hn ?_ ?_ hf hd same hreaches
        · intro name
          rw [hr, (FieldExpr.names_sorted_perm fields).mem_iff]
        · intro y hy d hdy hname hlt
          have hyp : (y.field, d) ∈ paired fields r :=
            (mem_paired_iff hr ht.ascending).2 ⟨List.mem_map_of_mem hy, hdy, hname⟩
          obtain ⟨v, hv⟩ := hfront _ (mem_front_of_lt ha hr hzip hyp hlt)
          exact (exists_elaborate_iff (ht.of_mem_fields hdy)).1 ⟨v, _, hv⟩

/-- A mismatch points at a part of the expression that does not conform to what is expected of it,
behind fields that conform, and says what is wrong with it. -/
theorem mismatch_pointsAt {e : Expr} {t : Ty} (ht : t.Genuine) {m : TypeMismatch} {g g' : Registry}
    (h : (e.elaborate (some t) []).outcome g = (.error (.mismatch m), g')) :
    ∃ part, m.PointsAt e t part := by
  obtain ⟨rest, part, hpath, hreaches, hdescribes⟩ := exists_reaches_of_mismatch ht h
  obtain rfl : m.path = rest := hpath
  exact ⟨part, hdescribes, hreaches, hreaches.exists_derivePath ht⟩

def mislabelledBoxExpr : Expr :=
  .record ⟨[⟨.label "size", default, .record ⟨[⟨.position 1, default, .scalar (.int 3) default⟩,
      ⟨.label "unit", default, .scalar (.string "cm") default⟩], default⟩⟩,
    ⟨.label "name", default, .scalar (.string "A4") default⟩], default⟩

/-- The size is blamed, which lacks its second position. The name before it is as expected. -/
theorem mismatch_pointsAt_box :
    boxType.ty.Genuine ∧ ∃ m : TypeMismatch,
      (mislabelledBoxExpr.elaborate (some boxType.ty) []).outcome (.empty (.registry 0)) =
        (.error (.mismatch m), .empty (.registry 0)) ∧
      m.path = [.label "size"] ∧ m.missing = [.position 2] ∧ m.extra = [.label "unit"] ∧
      ∃ part, m.PointsAt mislabelledBoxExpr boxType.ty part := by
  have h : (mislabelledBoxExpr.elaborate (some boxType.ty) []).outcome (.empty (.registry 0)) =
      (.error (.mismatch (.between sizeType.ty (.record .scratch 0
        [⟨.position 1, .primitive .int⟩, ⟨.label "unit", .primitive .string⟩]) [.label "size"]
        (some default))), .empty (.registry 0)) := by
    rfl
  exact ⟨genuine_boxType, _, h, rfl, rfl, rfl, mismatch_pointsAt genuine_boxType h⟩

end Expr

end RecordLens
