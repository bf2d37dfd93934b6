import RecordLens.Proofs.Text.Identifier

/-! Cutting a text that is put together: at the first character of a class, and at the blanks around
its parts. -/

namespace RecordLens.Text

theorem splitChars?_append {p : Char → Bool} {before : List Char} {c : Char}
    (h : ∀ b ∈ before, p b = false) (hc : p c = true) (after : List Char) :
    splitChars? p (before ++ c :: after) = some (before, after) := by
  induction before with
  | nil => simp [splitChars?, hc]
  | cons b before ih =>
    obtain ⟨hb, h⟩ := List.forall_mem_cons.1 h
    simp [splitChars?, hb, ih h]

/-- There are characters, and neither the first nor the last of them is blank. -/
def Solid (cs : List Char) : Prop :=
  (∃ c, cs.head? = some c ∧ isBlank c = false) ∧ ∃ c, cs.getLast? = some c ∧ isBlank c = false

theorem Solid.ne_nil {cs : List Char} (h : Solid cs) : cs ≠ [] := by
  rintro rfl
  obtain ⟨⟨c, hc, -⟩, -⟩ := h
  cases hc

theorem Solid.append {cs ds : List Char} (hc : Solid cs) (middle : List Char) (hd : Solid ds) :
    Solid (cs ++ (middle ++ ds)) := by
  obtain ⟨⟨c, hhead, hblank⟩, -⟩ := hc
  obtain ⟨-, d, hlast, hblank'⟩ := hd
  exact ⟨⟨c, by simp [hhead], hblank⟩, d, by simp [List.getLast?_append, hlast], hblank'⟩

/-- Trimming takes away exactly the blanks around what is solid. -/
theorem trimChars_eq {front cs back : List Char} (hf : ∀ c ∈ front, isBlank c = true)
    (hcs : Solid cs) (hb : ∀ c ∈ back, isBlank c = true) :
    trimChars (front ++ (cs ++ back)) = cs := by
  obtain ⟨⟨c, hhead, hc⟩, d, hlast, hd⟩ := hcs
  have hfront : (front ++ (cs ++ back)).dropWhile isBlank = cs ++ back := by
    refine (takeWhile_append hf fun e he => ?_).2
    obtain rfl : c = e := by simpa [hhead] using he
    exact hc
  have hback : (back.reverse ++ cs.reverse).dropWhile isBlank = cs.reverse := by
    refine (takeWhile_append (by simpa using hb) fun e he => ?_).2
    obtain rfl : d = e := by simpa [hlast] using he
    exact hd
  rw [trimChars, hfront, List.reverse_append, hback, List.reverse_reverse]

theorem trim_eq {s t : String} (ht : Solid t.toList) (front back : List Char)
    (hf : ∀ c ∈ front, isBlank c = true) (hb : ∀ c ∈ back, isBlank c = true)
    (hs : s.toList = front ++ (t.toList ++ back)) : trim s = t := by
  rw [trim, hs, trimChars_eq hf ht hb, String.ofList_toList]

theorem Solid.trim_eq_self {s : String} (h : Solid s.toList) : trim s = s :=
  trim_eq h [] [] (by simp) (by simp) (by simp)

theorem exists_of_trim (s : String) :
    ∃ front back, (∀ c ∈ front, isBlank c = true) ∧ (∀ c ∈ back, isBlank c = true) ∧
      s.toList = front ++ ((trim s).toList ++ back) := by
  let rest := s.toList.dropWhile isBlank
  refine ⟨s.toList.takeWhile isBlank, (rest.reverse.takeWhile isBlank).reverse,
    List.all_eq_true.1 List.all_takeWhile, ?_, ?_⟩
  · simpa using List.all_eq_true.1 (List.all_takeWhile (p := isBlank) (l := rest.reverse))
  · rw [trim, String.toList_ofList, trimChars, ← List.reverse_append,
      List.takeWhile_append_dropWhile, List.reverse_reverse, List.takeWhile_append_dropWhile]

theorem mem_of_mem_trim {s : String} {c : Char} (h : c ∈ (trim s).toList) : c ∈ s.toList := by
  obtain ⟨front, back, -, -, hs⟩ := exists_of_trim s
  rw [hs]
  exact List.mem_append_right _ (List.mem_append_left _ h)

theorem isBlank_of_trim_eq_empty {s : String} (h : trim s = "") :
    ∀ c ∈ s.toList, isBlank c = true := by
  obtain ⟨front, back, hf, hb, hs⟩ := exists_of_trim s
  rw [hs, h]
  simpa using List.forall_mem_append.2 ⟨hf, hb⟩

theorem eq_false_of_head?_dropWhile {p : Char → Bool} {cs : List Char} {c : Char}
    (h : (cs.dropWhile p).head? = some c) : p c = false := by
  have hnot := List.head?_dropWhile_not p cs
  rw [h] at hnot
  simpa using hnot

theorem solid_trim {s : String} (h : trim s ≠ "") : Solid (trim s).toList := by
  let rest := s.toList.dropWhile isBlank
  let kept := rest.reverse.dropWhile isBlank
  have htrim : (trim s).toList = kept.reverse := by
    rw [trim, String.toList_ofList, trimChars]
  have hne : kept ≠ [] := by
    intro hnil
    rw [hnil] at htrim
    exact h (by simpa using htrim)
  obtain ⟨d, hd⟩ := Option.ne_none_iff_exists'.1 (mt List.head?_eq_none_iff.1 hne)
  obtain ⟨c, hc⟩ := Option.ne_none_iff_exists'.1 (mt List.getLast?_eq_none_iff.1 hne)
  have hfirst : rest.head? = some c := by
    have happend : rest.reverse.takeWhile isBlank ++ kept = rest.reverse :=
      List.takeWhile_append_dropWhile
    rw [← List.getLast?_reverse, ← happend, List.getLast?_append, hc, Option.some_or]
  rw [htrim]
  exact ⟨⟨c, by rw [List.head?_reverse, hc], eq_false_of_head?_dropWhile hfirst⟩,
    d, by rw [List.getLast?_reverse, hd], eq_false_of_head?_dropWhile hd⟩

@[simp] theorem trim_trim (s : String) : trim (trim s) = trim s := by
  by_cases h : trim s = ""
  · rw [h]
    rfl
  · exact (solid_trim h).trim_eq_self

theorem solid_of_trim_eq {s : String} (h : trim s = s) (hne : s ≠ "") : Solid s.toList := by
  rw [← h] at hne ⊢
  exact solid_trim hne

theorem Solid.trim_ne_empty {front : List Char} {c : Char} {rest : String}
    (h : Solid (front ++ c :: rest.toList)) (hc : isBlank c = true) : trim rest ≠ "" := by
  intro hblank
  obtain ⟨-, d, hlast, hd⟩ := h
  have hmem : d ∈ c :: rest.toList := by
    rw [List.getLast?_append, List.getLast?_cons, Option.some_or] at hlast
    exact List.mem_of_getLast? ((List.getLast?_cons).trans hlast)
  rcases List.mem_cons.1 hmem with rfl | hmem
  · exact absurd (hd.symm.trans hc) nofun
  · exact absurd (hd.symm.trans (isBlank_of_trim_eq_empty hblank d hmem)) nofun

theorem trim_blanks_append {s t : String} (front : List Char)
    (hf : ∀ c ∈ front, isBlank c = true) (hs : s.toList = front ++ t.toList) :
    trim s = trim t := by
  have hdrop : s.toList.dropWhile isBlank = t.toList.dropWhile isBlank := by
    rw [hs, List.dropWhile_append_of_pos hf]
  rw [trim, trimChars, hdrop, trim, trimChars]

/-- What is solid stays when a text that it begins is trimmed, and of what follows it there stays a
part from the beginning on, of which as much is left by itself. -/
theorem exists_trim_append {a : String} (ha : Solid a.toList) (b : String) :
    ∃ kept, trim (a ++ b) = a ++ kept ∧ kept.toList <+: b.toList ∧ trim kept = trim b := by
  obtain ⟨front, back, hf, hb, htext⟩ := exists_of_trim b
  by_cases hnil : trim b = ""
  · have hblank := List.forall_mem_append.2 ⟨hf, hb⟩
    refine ⟨"", ?_, by simp, by rw [hnil]; rfl⟩
    exact trim_eq (by simpa using ha) [] (front ++ back) (by simp) hblank (by simp [htext, hnil])
  · have hsolid := solid_trim hnil
    refine ⟨String.ofList front ++ trim b, ?_, ?_, trim_eq hsolid front [] hf (by simp) (by simp)⟩
    · exact trim_eq (by simpa using ha.append front hsolid) [] back (by simp) hb (by simp [htext])
    · exact ⟨back, by simp [htext]⟩

theorem mem_trim_of_between {s t u : String} {c : Char} (hs : trim s ≠ "") (ht : trim t ≠ "")
    (hu : u.toList = s.toList ++ c :: t.toList) : c ∈ (trim u).toList := by
  obtain ⟨front, back, hf, hb, hstext⟩ := exists_of_trim s
  obtain ⟨front', back', hf', hb', httext⟩ := exists_of_trim t
  let wide := back ++ c :: front'
  have htrim : trim u = trim s ++ (String.ofList wide ++ trim t) := by
    refine trim_eq ?_ front back' hf hb' (by simp [hu, hstext, httext, wide])
    simpa using (solid_trim hs).append wide (solid_trim ht)
  simp [htrim, wide]

theorem splitOnce?_eq {p : Char → Bool} {s : String} (before after : String) {c : Char}
    (h : ∀ b ∈ before.toList, p b = false) (hc : p c = true)
    (hs : s.toList = before.toList ++ c :: after.toList) :
    splitOnce? p s = some (before, after) := by
  rw [splitOnce?, hs, splitChars?_append h hc]
  simp

theorem splitOnce?_eq_none {p : Char → Bool} {s : String} :
    splitOnce? p s = none ↔ ∀ c ∈ s.toList, p c = false := by
  rw [splitOnce?, Option.map_eq_none_iff, splitChars?_eq_none]

theorem splitOnce?_eq_some {p : Char → Bool} {s before after : String}
    (h : splitOnce? p s = some (before, after)) :
    (∀ c ∈ before.toList, p c = false) ∧
      ∃ c, p c = true ∧ s.toList = before.toList ++ c :: after.toList := by
  rw [splitOnce?, Option.map_eq_some_iff] at h
  obtain ⟨⟨cs, ds⟩, hsplit, htexts⟩ := h
  obtain ⟨rfl, rfl⟩ := Prod.mk.inj htexts
  obtain ⟨c, hc, hbefore, hs⟩ := splitChars?_eq_some hsplit
  simp only [String.toList_ofList]
  exact ⟨hbefore, c, hc, hs⟩

theorem IsIdentifier.forall_isSubsequent [Alphabet] {s : String} (h : IsIdentifier s) :
    ∀ c ∈ s.toList, isSubsequent c = true := by
  obtain ⟨c, cs, hs, hc, hcs⟩ := identifier?_eq_some h
  rw [hs]
  exact List.forall_mem_cons.2 ⟨by simp [isSubsequent, hc], hcs⟩

theorem isBlank_of_isSubsequent [Alphabet] {c : Char} (h : isSubsequent c = true) :
    isBlank c = false := by
  by_cases hblank : isBlank c = true
  · exact absurd (h.symm.trans (isSubsequent_of_isBlank hblank)) nofun
  · simpa using hblank

theorem solid_of_forall {cs : List Char} (hne : cs ≠ []) (h : ∀ c ∈ cs, isBlank c = false) :
    Solid cs :=
  ⟨⟨cs.head hne, List.head?_eq_some_head hne, h _ (List.head_mem hne)⟩,
    cs.getLast hne, List.getLast?_eq_some_getLast hne, h _ (List.getLast_mem hne)⟩

def IsWord (s : String) : Prop := s ≠ "" ∧ ∀ c ∈ s.toList, isBlank c = false

instance (s : String) : Decidable (IsWord s) :=
  decidable_of_iff (s ≠ "" ∧ s.toList.all (!isBlank ·) = true) (by simp [IsWord])

theorem IsWord.solid {s : String} (h : IsWord s) : Solid s.toList :=
  solid_of_forall (by simpa using h.1) h.2

theorem IsIdentifier.isWord [Alphabet] {s : String} (h : IsIdentifier s) : IsWord s := by
  obtain ⟨c, cs, hs, -⟩ := h.exists_cons
  refine ⟨?_, fun d hd => isBlank_of_isSubsequent (h.forall_isSubsequent d hd)⟩
  rintro rfl
  cases hs

theorem IsIdentifier.solid [Alphabet] {s : String} (h : IsIdentifier s) : Solid s.toList :=
  h.isWord.solid

end RecordLens.Text
