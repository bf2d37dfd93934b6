import RecordLens.Proofs.Field.Canonical

/-! Canonical lists in full. Fields whose names are distinct are sorted, in the one order that the
names have as rows of numbers. Of other fields the first name that comes again is reported, with
the places of its first two occurrences. -/

namespace RecordLens

variable {α β : Type}

namespace FieldName

/-- The name as a row of numbers: a position behind a zero, the code points of a label behind a
one. -/
def key : FieldName → List Nat
  | .position n => [0, n]
  | .label s => 1 :: s.toList.map Char.toNat

theorem map_toNat_lt_iff {cs ds : List Char} :
    cs.map Char.toNat < ds.map Char.toNat ↔ cs < ds := by
  induction cs generalizing ds with
  | nil => cases ds <;> simp
  | cons c cs ih =>
    cases ds with
    | nil => simp
    | cons d ds =>
      rw [List.map_cons, List.map_cons, List.cons_lt_cons_iff, List.cons_lt_cons_iff, ih,
        Char.toNat_inj]
      rfl

/-- Names are ordered as their rows of numbers are: the first number in which they differ
decides. -/
theorem lt_iff_key_lt {a b : FieldName} : a < b ↔ a.key < b.key := by
  rw [lt_def]
  cases a with
  | position m => cases b <;> simp [key, precedes, List.cons_lt_cons_iff]
  | label s =>
    cases b with
    | position n => simp [key, precedes, List.cons_lt_cons_iff]
    | label t =>
      rw [precedes, decide_eq_true_eq, String.lt_iff]
      simp [key, map_toNat_lt_iff]

end FieldName

/-- Of all fields whose name has occurred before, `second` is the place of the first one, and
`first` is the place where its name occurs first. -/
inductive DuplicateField.FirstOf : DuplicateField → List (Field α × Option Span) → Prop
  | intro {before between after : List (Field α × Option Span)} {e f : Field α × Option Span}
      (distinct : ((before ++ e :: between).map fun x => x.1.name).Nodup)
      (same : e.1.name = f.1.name) :
      FirstOf ⟨f.1.name, e.2, f.2⟩ (before ++ e :: between ++ f :: after)

namespace Field

theorem clash?_append {seen : List (FieldName × Option Span)}
    {front back : List (Field α × Option Span)} (h : clash? seen front = none) :
    clash? seen (front ++ back) =
      clash? ((front.map fun x => (x.1.name, x.2)).reverse ++ seen) back := by
  induction front generalizing seen with
  | nil => rfl
  | cons x front ih =>
    obtain ⟨f, span⟩ := x
    rw [clash?] at h
    cases hl : seen.lookup f.name with
    | some first => simp [hl] at h
    | none =>
      rw [hl] at h
      simp only [List.cons_append, clash?, hl, ih h, List.map_cons, List.reverse_cons,
        List.append_assoc, List.nil_append]

theorem clash?_map (f : α → β) (seen : List (FieldName × Option Span))
    (fields : List (Field α × Option Span)) :
    clash? seen (fields.map fun x => (x.1.map f, x.2)) = clash? seen fields := by
  induction fields generalizing seen with
  | nil => rfl
  | cons x fields ih => simp only [List.map_cons, clash?, map_name, ih]

theorem clash?_nil_eq_none_iff {fields : List (Field α × Option Span)} :
    clash? [] fields = none ↔ (fields.map fun x => x.1.name).Nodup := by
  rw [clash?_eq_none_iff]
  simp

theorem lookup_eq_place {before between : List (Field α × Option Span)}
    {e : Field α × Option Span}
    (hn : ((before ++ e :: between).map fun x => x.1.name).Nodup) :
    ((before ++ e :: between).map fun x => (x.1.name, x.2)).reverse.lookup e.1.name =
      some e.2 := by
  have hbetween : ∀ x ∈ between, e.1.name ≠ x.1.name := by
    intro x hx he
    rw [List.map_append, List.map_cons] at hn
    have hcons := (List.nodup_append.1 hn).2.1
    exact (List.nodup_cons.1 hcons).1 (he ▸ List.mem_map_of_mem hx)
  apply List.lookup_eq_some_iff.2
  refine ⟨(between.map fun x => (x.1.name, x.2)).reverse,
    (before.map fun x => (x.1.name, x.2)).reverse, ?_, ?_⟩
  · simp
  · intro x hx
    obtain ⟨y, hy, rfl⟩ := List.mem_map.1 (List.mem_reverse.1 hx)
    simpa using hbetween y hy

theorem clash?_eq_some_iff {fields : List (Field α × Option Span)} {clash : DuplicateField} :
    clash? [] fields = some clash ↔ clash.FirstOf fields := by
  constructor
  · intro h
    obtain ⟨front, f, span, after, rfl, hfront, hname, hsecond, hfirst⟩ :=
      exists_of_clash?_eq_some h
    obtain ⟨e, he, hsame, hplace⟩ := hfirst.resolve_left List.not_mem_nil
    obtain ⟨before, between, rfl⟩ := List.append_of_mem he
    obtain ⟨name, first, second⟩ := clash
    obtain ⟨rfl, rfl, rfl⟩ : name = f.name ∧ span = second ∧ e.2 = first :=
      ⟨hname, hsecond.symm, hplace⟩
    exact .intro (f := (f, span)) (clash?_nil_eq_none_iff.1 hfront) hsame
  · rintro @⟨before, between, after, e, f, hn, same⟩
    have hfront : clash? [] (before ++ e :: between) = none := clash?_nil_eq_none_iff.2 hn
    rw [clash?_append hfront, List.append_nil, clash?, ← same, lookup_eq_place hn]

theorem canonicalize_error_iff {fields : List (Field α × Option Span)} {clash : DuplicateField} :
    canonicalize fields = .error clash ↔ clash.FirstOf fields := by
  rw [← clash?_eq_some_iff, canonicalize]
  cases clash? [] fields <;> simp

theorem pairwise_key_iff {fields : List (Field α)} :
    (fields.Pairwise fun f g => f.name.key < g.name.key) ↔ Ascending fields := by
  simp only [← FieldName.lt_iff_key_lt]
  rfl

/-- Fields have a canonical list if and only if their names are distinct. It is their one
rearrangement in which the names ascend: positions, in the order of numbers, and then labels, in the
order of their code points. So it is the same for every rearrangement of the fields. Otherwise the
first field whose name has occurred before is reported. -/
theorem canonicalize_sorts_or_clashes (fields : List (Field α × Option Span)) :
    ((∃ ys, canonicalize fields = .ok ys) ↔ (fields.map fun x => x.1.name).Nodup) ∧
    (∀ ys, canonicalize fields = .ok ys → ∀ zs,
      zs.Perm (fields.map Prod.fst) ∧ (zs.Pairwise fun f g => f.name.key < g.name.key) ↔
        zs = ys) ∧
    (∀ others, others.Perm fields → ∀ ys,
      canonicalize others = .ok ys ↔ canonicalize fields = .ok ys) ∧
    ∀ clash, canonicalize fields = .error clash ↔ clash.FirstOf fields := by
  have hnames (fields : List (Field α × Option Span)) :
      (fields.map Prod.fst).map name = fields.map fun x => x.1.name := List.map_map
  refine ⟨⟨?_, fun hn => ?_⟩, fun ys hys zs => ⟨?_, ?_⟩, fun others hperm ys => ?_,
    fun clash => canonicalize_error_iff⟩
  · rintro ⟨ys, hys⟩
    exact hnames fields ▸ (canonicalize_ok_iff.1 hys).1
  · exact ⟨_, canonicalize_ok_iff.2 ⟨(hnames fields).symm ▸ hn, rfl⟩⟩
  · rintro ⟨hzs, hkeys⟩
    obtain ⟨-, rfl⟩ := canonicalize_ok_iff.1 hys
    exact (pairwise_key_iff.1 hkeys).eq_of_perm (canonicalize_ascending hys)
      (hzs.trans (sorted_perm _).symm)
  · rintro rfl
    obtain ⟨-, hsorted⟩ := canonicalize_ok_iff.1 hys
    exact ⟨hsorted ▸ sorted_perm _, pairwise_key_iff.2 (canonicalize_ascending hys)⟩
  · have hfields : (others.map Prod.fst).Perm (fields.map Prod.fst) := hperm.map Prod.fst
    rw [canonicalize_ok_iff, canonicalize_ok_iff, (hfields.map name).nodup_iff]
    refine and_congr_right fun hn => ?_
    rw [sorted_eq_of_perm hfields ((hfields.map name).nodup_iff.2 hn)]

def shuffled : List (Field Nat × Option Span) :=
  [(⟨.label "b", 0⟩, none), (⟨.position 10, 1⟩, none), (⟨.label "B", 2⟩, none),
    (⟨.position 2, 3⟩, none)]

def repeated : List (Field Nat × Option Span) :=
  [(⟨.label "a", 0⟩, some ⟨⟨1, 1, 0⟩, 1⟩), (⟨.label "b", 1⟩, some ⟨⟨1, 2, 1⟩, 1⟩),
    (⟨.label "b", 2⟩, some ⟨⟨1, 3, 2⟩, 1⟩), (⟨.label "a", 3⟩, some ⟨⟨1, 4, 3⟩, 1⟩)]

/-- The position ten is not in front of two, and the capital letter is in front of the small one. Of
the names that come again the one that comes again first is reported. -/
theorem canonicalize_sorts_or_clashes_letters :
    shuffled.reverse.Perm shuffled ∧
      canonicalize shuffled.reverse =
        .ok [⟨.position 2, 3⟩, ⟨.position 10, 1⟩, ⟨.label "B", 2⟩, ⟨.label "b", 0⟩] ∧
      canonicalize repeated =
        .error ⟨.label "b", some ⟨⟨1, 2, 1⟩, 1⟩, some ⟨⟨1, 3, 2⟩, 1⟩⟩ := by
  obtain ⟨-, -, hsame, -⟩ := canonicalize_sorts_or_clashes shuffled
  obtain ⟨-, -, -, hclash⟩ := canonicalize_sorts_or_clashes repeated
  have hperm : shuffled.reverse.Perm shuffled := List.reverse_perm shuffled
  have hfirst : DuplicateField.FirstOf _
      (repeated.take 1 ++ repeated[1] :: [] ++ repeated[2] :: repeated.drop 3) :=
    .intro (by decide) rfl
  exact ⟨hperm, (hsame _ hperm _).2 (by decide), (hclash _).2 hfirst⟩

end Field

end RecordLens
