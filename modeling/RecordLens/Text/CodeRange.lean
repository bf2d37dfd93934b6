/-! Classes of characters given as ascending lists of code point ranges. -/

namespace RecordLens.Text

/-- Ranges of code points, ends included, in ascending order. -/
abbrev CodeRanges := List (Nat × Nat)

/-- Membership, which stops at the first range that begins above the character. -/
def CodeRanges.has : CodeRanges → Char → Bool
  | [], _ => false
  | (low, high) :: rest, c =>
    if c.toNat < low then false else if c.toNat ≤ high then true else CodeRanges.has rest c

theorem CodeRanges.exists_of_has {ranges : CodeRanges} {c : Char} (h : ranges.has c = true) :
    ∃ r ∈ ranges, r.1 ≤ c.toNat ∧ c.toNat ≤ r.2 := by
  induction ranges with
  | nil => simp [has] at h
  | cons r rest ih =>
    obtain ⟨low, high⟩ := r
    simp only [has] at h
    split at h
    · simp at h
    · split at h
      · exact ⟨_, List.mem_cons_self, by omega, by assumption⟩
      · obtain ⟨r, hr, hc⟩ := ih h
        exact ⟨r, List.mem_cons_of_mem _ hr, hc⟩

/-- No range of one table meets a range of the other. -/
def CodeRanges.Apart (a b : CodeRanges) : Prop :=
  ∀ r ∈ a, ∀ s ∈ b, r.2 < s.1 ∨ s.2 < r.1

theorem CodeRanges.Apart.has_eq_false {a b : CodeRanges} (h : a.Apart b) {c : Char}
    (ha : a.has c = true) : b.has c = false := by
  by_cases hb : b.has c = true
  · obtain ⟨r, hr, hrc⟩ := exists_of_has ha
    obtain ⟨s, hs, hsc⟩ := exists_of_has hb
    have := h r hr s hs
    omega
  · simpa using hb

end RecordLens.Text
