import Mathlib.Data.List.Forall2
import RecordLens.Field.Canonical

/-! Canonical lists are sorted lists. Fields have a canonical list if and only if their names are
distinct, and then it is the fields sorted by name: the one arrangement of them that ascends. -/

namespace RecordLens

namespace Field

variable {α β : Type}

/-- The fields in the order of their names. Fields of one name stay in the order given. -/
def sorted (fields : List (Field α)) : List (Field α) :=
  fields.mergeSort fun f g => !decide (g.name < f.name)

theorem sorted_perm (fields : List (Field α)) : (sorted fields).Perm fields :=
  List.mergeSort_perm fields _

@[simp] theorem mem_sorted {f : Field α} {fields : List (Field α)} :
    f ∈ sorted fields ↔ f ∈ fields := (sorted_perm fields).mem_iff

theorem sorted_map (g : α → β) (fields : List (Field α)) :
    sorted (fields.map (Field.map g)) = (sorted fields).map (Field.map g) :=
  (List.map_mergeSort (f := Field.map g) fun _ _ _ _ => rfl).symm

theorem not_lt_trans {a b c : FieldName} (hab : ¬b < a) (hbc : ¬c < b) : ¬c < a := by
  intro hca
  by_cases h : a = b
  · subst h
    exact hbc hca
  · have hlt : a < b := FieldName.lt_of_not_lt_of_ne hab (Ne.symm h)
    exact hbc (FieldName.lt_trans hca hlt)

theorem leName_trans (f g k : Field α) (hfg : (!decide (g.name < f.name)) = true)
    (hgk : (!decide (k.name < g.name)) = true) : (!decide (k.name < f.name)) = true := by
  simp only [Bool.not_eq_true', decide_eq_false_iff_not] at *
  exact not_lt_trans hfg hgk

theorem leName_total (f g : Field α) :
    (!decide (g.name < f.name) || !decide (f.name < g.name)) = true := by
  by_cases h : g.name < f.name
  · simp [h, FieldName.lt_asymm h]
  · simp [h]

theorem pairwise_sorted (fields : List (Field α)) :
    (sorted fields).Pairwise fun f g => ¬g.name < f.name :=
  (List.pairwise_mergeSort leName_trans leName_total fields).imp fun h => by simpa using h

theorem Ascending.nodup_names {fields : List (Field α)} (h : Ascending fields) :
    (fields.map name).Nodup :=
  List.pairwise_map.2 (h.imp FieldName.ne_of_lt)

theorem ascending_sorted {fields : List (Field α)} (h : (fields.map name).Nodup) :
    Ascending (sorted fields) := by
  have hnodup : ((sorted fields).map name).Nodup := ((sorted_perm fields).map name).nodup_iff.2 h
  refine ((pairwise_sorted fields).and (List.pairwise_map.1 hnodup)).imp ?_
  rintro f g ⟨hlt, hne⟩
  exact FieldName.lt_of_not_lt_of_ne hlt (Ne.symm hne)

theorem Ascending.eq_of_perm {xs ys : List (Field α)} (hx : Ascending xs) (hy : Ascending ys)
    (h : xs.Perm ys) : xs = ys :=
  List.Perm.eq_of_pairwise (fun _ _ _ _ hab hba => absurd hba (FieldName.lt_asymm hab)) hx hy h

theorem Ascending.sorted_eq {fields : List (Field α)} (h : Ascending fields) :
    sorted fields = fields :=
  (ascending_sorted h.nodup_names).eq_of_perm h (sorted_perm fields)

/-- Fields with distinct names have one order, in whatever arrangement they are given. -/
theorem sorted_eq_of_perm {xs ys : List (Field α)} (h : xs.Perm ys) (hn : (xs.map name).Nodup) :
    sorted xs = sorted ys := by
  have hy : (ys.map name).Nodup := (h.map name).nodup_iff.1 hn
  have hp : (sorted xs).Perm (sorted ys) :=
    (sorted_perm xs).trans (h.trans (sorted_perm ys).symm)
  exact (ascending_sorted hn).eq_of_perm (ascending_sorted hy) hp

@[simp] theorem names_map (f : α → β) (fields : List (Field α)) :
    (fields.map (Field.map f)).map name = fields.map name := List.map_map

theorem ascending_iff_names {fields : List (Field α)} :
    Ascending fields ↔ (fields.map name).Pairwise (· < ·) := List.pairwise_map.symm

theorem names_eq_of_map_eq {γ : Type} {p : α → γ} {q : β → γ} {xs : List (Field α)}
    {ys : List (Field β)} (h : xs.map (Field.map p) = ys.map (Field.map q)) :
    xs.map name = ys.map name := by
  have hn := congrArg (List.map name) h
  simpa [Function.comp_def] using hn

theorem names_eq_of_forall₂ {R : Field α → Field β → Prop} {xs : List (Field α)}
    {ys : List (Field β)} (h : List.Forall₂ R xs ys) (hR : ∀ {x y}, R x y → y.name = x.name) :
    ys.map name = xs.map name := by
  induction h with
  | nil => rfl
  | cons hxy _ ih => rw [List.map_cons, List.map_cons, hR hxy, ih]

theorem Ascending.of_names_eq {xs : List (Field α)} {ys : List (Field β)} (h : Ascending xs)
    (hn : ys.map name = xs.map name) : Ascending ys := by
  rw [ascending_iff_names, hn]
  exact ascending_iff_names.1 h

theorem Ascending.map (g : α → β) {fields : List (Field α)} (h : Ascending fields) :
    Ascending (fields.map (Field.map g)) := List.pairwise_map.2 h

theorem place_perm {f : Field α} {fields : List (Field α)} (h : f.name ∉ fields.map name) :
    (place f fields).Perm (f :: fields) := by
  induction fields with
  | nil => exact .refl _
  | cons g rest ih =>
    obtain ⟨hne, hrest⟩ : f.name ≠ g.name ∧ f.name ∉ rest.map name := by simpa using h
    rw [place]
    by_cases hlt : f.name < g.name
    · simp [hlt]
    · rw [if_neg hlt, if_neg hne]
      exact ((ih hrest).cons g).trans (.swap f g rest)

theorem ofFields_perm {fields : List (Field α)} (h : (fields.map name).Nodup) :
    (ofFields fields).Perm fields := by
  induction fields with
  | nil => exact .refl _
  | cons f rest ih =>
    obtain ⟨hf, hrest⟩ := List.nodup_cons.1 h
    have hp : (ofFields rest).Perm rest := ih hrest
    have hf' : f.name ∉ (ofFields rest).map name := by rwa [(hp.map name).mem_iff]
    exact (place_perm hf').trans (hp.cons f)

theorem ofFields_eq_sorted {fields : List (Field α)} (h : (fields.map name).Nodup) :
    ofFields fields = sorted fields :=
  (ascending_ofFields fields).eq_of_perm (ascending_sorted h)
    ((ofFields_perm h).trans (sorted_perm fields).symm)

theorem mem_of_mem_ofFields {f : Field α} {fields : List (Field α)} (h : f ∈ ofFields fields) :
    f ∈ fields := by
  induction fields with
  | nil => exact h
  | cons x rest ih =>
    rcases mem_place h with rfl | h
    · exact List.mem_cons_self
    · exact List.mem_cons_of_mem x (ih h)

theorem value_mem_of_mem_positions {f : Field α} {first : Nat} {xs : List α}
    (h : f ∈ positions first xs) : f.value ∈ xs := by
  induction xs generalizing first with
  | nil => exact absurd h List.not_mem_nil
  | cons x xs ih =>
    rcases List.mem_cons.1 h with rfl | h
    · exact List.mem_cons_self
    · exact List.mem_cons_of_mem x (ih h)

theorem exists_of_mem_positions {first : Nat} {xs : List α} {f : Field α}
    (h : f ∈ positions first xs) : ∃ n, first ≤ n ∧ f.name = .position n := by
  induction xs generalizing first with
  | nil => exact absurd h List.not_mem_nil
  | cons x xs ih =>
    cases h with
    | head => exact ⟨first, Nat.le_refl first, rfl⟩
    | tail _ h =>
      obtain ⟨n, hn, hname⟩ := ih h
      exact ⟨n, Nat.le_of_succ_le hn, hname⟩

/-- Positions ascend in numeric order, whatever digits they are written with. -/
theorem ascending_positions (first : Nat) (xs : List α) : Ascending (positions first xs) := by
  induction xs generalizing first with
  | nil => exact List.Pairwise.nil
  | cons x xs ih =>
    refine List.pairwise_cons.2 ⟨fun f hf => ?_, ih (first + 1)⟩
    obtain ⟨n, hn, hname⟩ := exists_of_mem_positions hf
    rw [hname, FieldName.lt_def, FieldName.precedes, decide_eq_true_eq]
    exact hn

theorem nodup_positions (first : Nat) (xs : List α) :
    ((positions first xs).map name).Nodup := (ascending_positions first xs).nodup_names

theorem ofFields_positions (first : Nat) (xs : List α) :
    ofFields (positions first xs) = positions first xs := by
  rw [ofFields_eq_sorted (nodup_positions first xs), (ascending_positions first xs).sorted_eq]

theorem positions_map (f : α → β) (first : Nat) (xs : List α) :
    positions first (xs.map f) = (positions first xs).map (Field.map f) := by
  induction xs generalizing first with
  | nil => rfl
  | cons x xs ih => rw [List.map_cons, positions, positions, ih, List.map_cons, Field.map]

theorem map_value_positions (first : Nat) (xs : List α) : (positions first xs).map value = xs := by
  induction xs generalizing first with
  | nil => rfl
  | cons x xs ih => rw [positions, List.map_cons, ih]

theorem exists_mem_positions_of_mem {x : α} {xs : List α} (h : x ∈ xs) (first : Nat) :
    ∃ f ∈ positions first xs, f.value = x := by
  rw [← map_value_positions first xs] at h
  exact List.mem_map.1 h

theorem map_name_positions (first : Nat) (xs : List α) :
    (positions first xs).map name = (List.range' first xs.length).map .position := by
  induction xs generalizing first with
  | nil => rfl
  | cons x xs ih =>
    rw [positions, List.map_cons, ih, List.length_cons, List.range'_succ, List.map_cons]

theorem forall₂_positions {R : α → β → Prop} {xs : List α} {ys : List β} (h : List.Forall₂ R xs ys)
    (first : Nat) : List.Forall₂ (fun x y => y.name = x.name ∧ R x.value y.value)
      (positions first xs) (positions first ys) := by
  induction h generalizing first with
  | nil => exact .nil
  | cons hxy _ ih => exact .cons ⟨rfl, hxy⟩ (ih (first + 1))

theorem getElem?_positions (first : Nat) (xs : List α) (i : Nat) :
    (positions first xs)[i]? = xs[i]?.map (⟨.position (first + i), ·⟩) := by
  induction xs generalizing first i with
  | nil => rfl
  | cons x xs ih =>
    cases i with
    | zero => rfl
    | succ i =>
      rw [positions, List.getElem?_cons_succ, List.getElem?_cons_succ, ih, Nat.add_right_comm,
        Nat.add_assoc]

theorem lookup_eq_none_iff {seen : List (FieldName × Option Span)} {name : FieldName} :
    seen.lookup name = none ↔ name ∉ seen.map Prod.fst := by
  rw [List.lookup_eq_none_iff]
  constructor
  · intro h hmem
    obtain ⟨p, hp, he⟩ := List.mem_map.1 hmem
    exact bne_iff_ne.1 (h p hp) he.symm
  · intro h p hp
    exact bne_iff_ne.2 fun he => h (he ▸ List.mem_map_of_mem hp)

theorem clash?_eq_none_iff {seen : List (FieldName × Option Span)}
    {fields : List (Field α × Option Span)} :
    clash? seen fields = none ↔
      (fields.map fun x => x.1.name).Nodup ∧ ∀ x ∈ fields, x.1.name ∉ seen.map Prod.fst := by
  induction fields generalizing seen with
  | nil => simp [clash?]
  | cons x rest ih =>
    obtain ⟨f, span⟩ := x
    by_cases hmem : f.name ∈ seen.map Prod.fst
    · have hl : seen.lookup f.name ≠ none := fun h => lookup_eq_none_iff.1 h hmem
      obtain ⟨first, hfirst⟩ := Option.ne_none_iff_exists'.1 hl
      simp only [clash?, hfirst, reduceCtorEq, false_iff, not_and]
      intro _ hall
      exact hall (f, span) List.mem_cons_self hmem
    · simp only [clash?, lookup_eq_none_iff.2 hmem, ih, List.map_cons, List.nodup_cons,
        List.mem_cons, not_or, forall_eq_or_imp]
      constructor
      · rintro ⟨hnodup, hall⟩
        refine ⟨⟨fun hf => ?_, hnodup⟩, hmem, fun y hy => (hall y hy).2⟩
        obtain ⟨y, hy, he⟩ := List.mem_map.1 hf
        exact (hall y hy).1 he
      · rintro ⟨⟨hf, hnodup⟩, -, hall⟩
        exact ⟨hnodup, fun y hy => ⟨fun he => hf (List.mem_map.2 ⟨y, hy, he⟩), hall y hy⟩⟩

theorem exists_of_clash?_eq_some {seen : List (FieldName × Option Span)}
    {fields : List (Field α × Option Span)} {clash : DuplicateField}
    (h : clash? seen fields = some clash) :
    ∃ front f span back, fields = front ++ (f, span) :: back ∧ clash? seen front = none ∧
      clash.name = f.name ∧ clash.second = span ∧
      ((f.name, clash.first) ∈ seen ∨ ∃ x ∈ front, x.1.name = f.name ∧ x.2 = clash.first) := by
  induction fields generalizing seen with
  | nil => simp [clash?] at h
  | cons x rest ih =>
    obtain ⟨g, place⟩ := x
    rw [clash?] at h
    cases hl : seen.lookup g.name with
    | some first =>
      rw [hl] at h
      obtain rfl := Option.some.inj h
      obtain ⟨newer, older, rfl, -⟩ := List.lookup_eq_some_iff.1 hl
      exact ⟨[], g, place, rest, rfl, rfl, rfl, rfl, .inl (List.mem_append_cons_self)⟩
    | none =>
      rw [hl] at h
      obtain ⟨front, f, span, back, rfl, hfront, hname, hsecond, hfirst⟩ := ih h
      refine ⟨(g, place) :: front, f, span, back, rfl, by simp only [clash?, hl, hfront], hname,
        hsecond, ?_⟩
      rcases hfirst with hseen | ⟨x, hx, hname, hfirst⟩
      · rcases List.mem_cons.1 hseen with he | hseen
        · obtain ⟨hname, hfirst⟩ := Prod.mk.inj he
          exact .inr ⟨(g, place), List.mem_cons_self, hname.symm, hfirst.symm⟩
        · exact .inl hseen
      · exact .inr ⟨x, List.mem_cons_of_mem _ hx, hname, hfirst⟩

/-- Fields have a canonical list if their names are distinct: the fields in order. -/
theorem canonicalize_ok_iff {fields : List (Field α × Option Span)} {ys : List (Field α)} :
    canonicalize fields = .ok ys ↔
      ((fields.map Prod.fst).map name).Nodup ∧ ys = sorted (fields.map Prod.fst) := by
  have hnames : (fields.map Prod.fst).map name = fields.map fun x => x.1.name := by simp
  rw [canonicalize, hnames]
  cases hc : clash? [] fields with
  | some clash =>
    have hn : ¬(fields.map fun x => x.1.name).Nodup := by
      intro h
      have hnone : clash? [] fields = none := clash?_eq_none_iff.2 ⟨h, by simp⟩
      simp [hnone] at hc
    simp [hn]
  | none =>
    have hn := (clash?_eq_none_iff.1 hc).1
    simp only [Except.ok.injEq, hn, true_and]
    rw [ofFields_eq_sorted (hnames ▸ hn), eq_comm]

theorem canonicalizePlain_ok_iff {fields ys : List (Field α)} :
    canonicalizePlain fields = .ok ys ↔ (fields.map name).Nodup ∧ ys = sorted fields := by
  simp [canonicalizePlain, canonicalize_ok_iff, Function.comp_def]

theorem canonicalize_ascending {fields : List (Field α × Option Span)} {ys : List (Field α)}
    (h : canonicalize fields = .ok ys) : Ascending ys := by
  obtain ⟨hn, rfl⟩ := canonicalize_ok_iff.1 h
  exact ascending_sorted hn

end Field

end RecordLens
