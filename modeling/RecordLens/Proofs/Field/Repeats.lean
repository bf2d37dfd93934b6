import Mathlib.Data.List.Destutter
import RecordLens.Proofs.Field.Canonical

/-! Canonical lists of fields whose names may come again. The first field of each name is kept, as
it is where the fields are sorted, those of one name in the order given, and then all but the first
of neighbours with one name are dropped. -/

namespace RecordLens.Field

variable {α : Type}

def first? (n : FieldName) (fields : List (Field α)) : Option (Field α) :=
  fields.find? fun f => f.name = n

theorem first?_cons (n : FieldName) (f : Field α) (fields : List (Field α)) :
    first? n (f :: fields) = if f.name = n then some f else first? n fields := by
  by_cases h : f.name = n <;> simp [first?, h]

theorem first?_of_nodup {fields : List (Field α)} (h : (fields.map name).Nodup) {f : Field α}
    (hf : f ∈ fields) : first? f.name fields = some f := by
  induction fields with
  | nil => exact absurd hf List.not_mem_nil
  | cons g rest ih =>
    obtain ⟨hg, hrest⟩ := List.nodup_cons.1 h
    rcases List.mem_cons.1 hf with rfl | hf
    · simp [first?_cons]
    · have hne : g.name ≠ f.name := fun he => hg (he ▸ List.mem_map_of_mem hf)
      rw [first?_cons, if_neg hne, ih hrest hf]

theorem first?_place (n : FieldName) (f : Field α) (fields : List (Field α)) :
    first? n (place f fields) = first? n (f :: fields) := by
  induction fields with
  | nil => rfl
  | cons g rest ih =>
    by_cases hlt : f.name < g.name
    · rw [place, if_pos hlt]
    · by_cases he : f.name = g.name
      · rw [place, if_neg hlt, if_pos he]
        by_cases hn : f.name = n <;> simp [first?_cons, ← he, hn]
      · rw [place, if_neg hlt, if_neg he, first?_cons, ih]
        by_cases hg : g.name = n
        · have hf : f.name ≠ n := fun h => he (h.trans hg.symm)
          simp [first?_cons, hg, hf]
        · simp [first?_cons, hg]

theorem first?_ofFields (n : FieldName) (fields : List (Field α)) :
    first? n (ofFields fields) = first? n fields := by
  induction fields with
  | nil => rfl
  | cons f rest ih =>
    have hf : ofFields (f :: rest) = place f (ofFields rest) := rfl
    rw [hf, first?_place, first?_cons, first?_cons, ih]

theorem isSome_first? {n : FieldName} {fields : List (Field α)} :
    (first? n fields).isSome ↔ n ∈ fields.map name := by
  rw [first?, List.find?_isSome, List.mem_map]
  simp

theorem mem_names_ofFields {n : FieldName} {fields : List (Field α)} :
    n ∈ (ofFields fields).map name ↔ n ∈ fields.map name := by
  rw [← isSome_first?, first?_ofFields, isSome_first?]

theorem Ascending.first?_eq_some_iff {fields : List (Field α)} (h : Ascending fields)
    {f : Field α} : first? f.name fields = some f ↔ f ∈ fields :=
  ⟨List.mem_of_find?_eq_some, first?_of_nodup h.nodup_names⟩

/-- An ascending list is known by the fields that its names find. -/
theorem Ascending.eq_of_first? {xs ys : List (Field α)} (hx : Ascending xs) (hy : Ascending ys)
    (h : ∀ n, first? n xs = first? n ys) : xs = ys := by
  apply hx.eq_of_perm hy
  apply (List.perm_ext_iff_of_nodup (.of_map name hx.nodup_names)
    (.of_map name hy.nodup_names)).2
  intro f
  rw [← hx.first?_eq_some_iff, ← hy.first?_eq_some_iff, h]

theorem filter_sorted (n : FieldName) (fields : List (Field α)) :
    (sorted fields).filter (fun f => f.name = n) = fields.filter fun f => f.name = n := by
  let same : Field α → Bool := fun f => f.name = n
  have hsame : (fields.filter same).Pairwise fun f g => (!decide (g.name < f.name)) = true := by
    apply List.pairwise_of_forall_mem_list
    intro f hf g hg
    have hf : f.name = n := by simpa [same] using (List.mem_filter.1 hf).2
    have hg : g.name = n := by simpa [same] using (List.mem_filter.1 hg).2
    simp [hf, hg, FieldName.lt_irrefl]
  -- no two of them are out of order, so a stable sort takes them over as they are
  have hsub : (fields.filter same).Sublist (sorted fields) :=
    List.sublist_mergeSort leName_trans leName_total hsame List.filter_sublist
  have hboth : (fields.filter same).Sublist ((sorted fields).filter same) := by
    have h := hsub.filter same
    rwa [List.filter_filter, funext fun f => Bool.and_self (same f)] at h
  exact (hboth.eq_of_length ((sorted_perm fields).filter same).length_eq.symm).symm

theorem first?_sorted (n : FieldName) (fields : List (Field α)) :
    first? n (sorted fields) = first? n fields := by
  rw [first?, first?, ← List.head?_filter, ← List.head?_filter, filter_sorted]

def dropRepeats (fields : List (Field α)) : List (Field α) :=
  fields.destutter fun f g => f.name ≠ g.name

theorem first?_destutter' (n : FieldName) (f : Field α) (fields : List (Field α)) :
    first? n (fields.destutter' (fun f g => f.name ≠ g.name) f) = first? n (f :: fields) := by
  induction fields generalizing f with
  | nil => rfl
  | cons g rest ih =>
    rw [List.destutter'_cons]
    by_cases he : f.name = g.name
    · rw [if_neg (not_not.2 he), ih]
      by_cases hn : f.name = n <;> simp [first?_cons, ← he, hn]
    · rw [if_pos he, first?_cons, ih, ← first?_cons]

theorem first?_dropRepeats (n : FieldName) (fields : List (Field α)) :
    first? n (dropRepeats fields) = first? n fields := by
  cases fields with
  | nil => rfl
  | cons f rest => exact first?_destutter' n f rest

theorem ascending_dropRepeats {fields : List (Field α)}
    (h : fields.Pairwise fun f g => ¬g.name < f.name) : Ascending (dropRepeats fields) := by
  have hsub : (dropRepeats fields).Sublist fields := List.destutter_sublist _ fields
  have hchain : (dropRepeats fields).IsChain fun f g => f.name ≠ g.name :=
    List.isChain_destutter _ fields
  have htrans : IsTrans (Field α) fun f g => f.name < g.name := ⟨fun _ _ _ => FieldName.lt_trans⟩
  apply List.isChain_iff_pairwise.1
  apply List.isChain_iff_getElem.2
  intro i hi
  exact FieldName.lt_of_not_lt_of_ne ((h.sublist hsub).isChain.getElem i hi)
    (hchain.getElem i hi).symm

/-- The canonical list is the one that a stable sort by name and dropping repeated neighbours
give. -/
theorem ofFields_eq_dropRepeats_sorted (fields : List (Field α)) :
    ofFields fields = dropRepeats (sorted fields) := by
  apply (ascending_ofFields fields).eq_of_first? (ascending_dropRepeats (pairwise_sorted fields))
  intro n
  rw [first?_ofFields, first?_dropRepeats, first?_sorted]

end RecordLens.Field
