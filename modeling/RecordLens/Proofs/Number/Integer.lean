import RecordLens.Proofs.Number.Rounding

/-! Integers as doubles. Every integer up to 2 ^ 53 in magnitude is the value of a double, and
rounding the integer finds that double. -/

namespace RecordLens

namespace Binary64

/-- The number is that integer: it has its magnitude, and its sign unless it is zero. -/
inductive IsInteger : Binary64 → Int → Prop
  | intro {negative : Bool} {rank : Nat} {h : rank < infiniteRank} {i : Int}
      (magnitude : units rank = i.natAbs * unitsPerOne) (sign : negative = true ↔ i < 0) :
      IsInteger (.finite negative rank h) i

theorem exists_rank_of_mantissa {m e : Nat} (hlow : binade ≤ m) (hhigh : m < 2 * binade)
    (he : e ≤ 2045) : ∃ rank, rank < infiniteRank ∧ units rank = m * 2 ^ e := by
  have hm : m - binade < binade := by omega
  refine ⟨(e + 1) * binade + (m - binade), ?_, ?_⟩
  · have hmul : (e + 1) * binade ≤ 2046 * binade := Nat.mul_le_mul_right binade (by omega)
    have hrank : infiniteRank = 2046 * binade + binade := by decide
    omega
  · rw [units_add e hm, Nat.add_sub_cancel' hlow]

theorem exists_rank_of_le {n : Nat} (h : n ≤ 2 * binade) :
    ∃ rank, rank < infiniteRank ∧ units rank = n * unitsPerOne := by
  have hbinade : binade = 2 ^ 52 := by decide
  by_cases hzero : n = 0
  · exact ⟨0, by decide, by rw [hzero, Nat.zero_mul, units_of_lt (by decide)]⟩
  by_cases hlast : n = 2 * binade
  · obtain ⟨rank, hlt, hunits⟩ :=
      exists_rank_of_mantissa (e := 1075) (Nat.le_refl binade) (by decide) (by omega)
    refine ⟨rank, hlt, ?_⟩
    rw [hunits, hlast, ← two_mul_unitsPerOne, ← Nat.mul_assoc, Nat.mul_comm binade]
  · -- the mantissa is the integer shifted until its first bit is the 53rd
    have hlog : n.log2 ≤ 52 := by
      have hlt : n.log2 < 53 := (Nat.log2_lt hzero).2 (by omega)
      omega
    obtain ⟨hself, hnext⟩ := (Nat.log2_eq_iff hzero).1 rfl
    have hlow : binade ≤ n * 2 ^ (52 - n.log2) := by
      calc binade
          = 2 ^ n.log2 * 2 ^ (52 - n.log2) := by
            rw [hbinade, ← Nat.pow_add, Nat.add_sub_cancel' hlog]
        _ ≤ n * 2 ^ (52 - n.log2) := Nat.mul_le_mul_right _ hself
    have hhigh : n * 2 ^ (52 - n.log2) < 2 * binade := by
      calc n * 2 ^ (52 - n.log2)
          < 2 ^ (n.log2 + 1) * 2 ^ (52 - n.log2) :=
            Nat.mul_lt_mul_of_pos_right hnext (Nat.two_pow_pos _)
        _ = 2 * binade := by
            rw [hbinade, ← Nat.pow_add, Nat.mul_comm 2, ← Nat.pow_succ]
            congr 1
            omega
    obtain ⟨rank, hlt, hunits⟩ :=
      exists_rank_of_mantissa (e := 1022 + n.log2) hlow hhigh (by omega)
    have hsum : 52 - n.log2 + (1022 + n.log2) = 1074 := by omega
    refine ⟨rank, hlt, ?_⟩
    rw [hunits, Nat.mul_assoc, ← Nat.pow_add, unitsPerOne, ← hsum, Nat.one_shiftLeft]

/-- Integers up to 2 ^ 53 are converted without rounding. -/
theorem isInteger_ofInt {i : Int} (h : i.natAbs ≤ 2 * binade) : (ofInt i).IsInteger i := by
  obtain ⟨rank, hlt, hunits⟩ := exists_rank_of_le h
  have hnearest : nearestRank (i.natAbs * unitsPerOne) 1 = rank := by
    rw [← hunits, nearestRank_units]
  have hnumber : ofInt i = .finite (decide (i < 0)) rank hlt := by
    simp only [ofInt, ofFraction, hnearest, dif_pos hlt]
  rw [hnumber]
  exact ⟨hunits, decide_eq_true_iff⟩

end Binary64

end RecordLens
