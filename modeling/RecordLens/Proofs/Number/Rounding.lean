import Mathlib.Algebra.Group.Nat.Defs
import RecordLens.Number.Decimal

/-! Rounding to double precision. A rank is found back from its magnitude, the nearest rank of a
fraction depends on the value of the fraction alone, and so does the number that a decimal is read
as, however its digits and its exponent share the value. -/

namespace RecordLens

namespace Binary64

theorem units_of_lt {rank : Nat} (h : rank < binade) : units rank = rank := by
  rw [units, if_pos h]

theorem units_add (exponent : Nat) {m : Nat} (hm : m < binade) :
    units ((exponent + 1) * binade + m) = (binade + m) * 2 ^ exponent := by
  have hbinade : 0 < binade := by decide
  have hle : ¬(exponent + 1) * binade + m < binade := by
    rw [Nat.add_one_mul]
    omega
  have hdiv : ((exponent + 1) * binade + m) / binade = exponent + 1 := by
    rw [Nat.add_comm, Nat.add_mul_div_right _ _ hbinade, Nat.div_eq_of_lt hm, Nat.zero_add]
  have hmod : ((exponent + 1) * binade + m) % binade = m := by
    rw [Nat.add_comm, Nat.add_mul_mod_self_right, Nat.mod_eq_of_lt hm]
  rw [units, if_neg hle, hdiv, hmod, Nat.add_sub_cancel, Nat.shiftLeft_eq]

/-- A rank lies in the first binade or at a place in a later one. -/
theorem rank_cases (rank : Nat) :
    rank < binade ∨ ∃ exponent m, m < binade ∧ rank = (exponent + 1) * binade + m := by
  by_cases h : rank < binade
  · exact .inl h
  · have hdiv : 1 ≤ rank / binade := (Nat.one_le_div_iff (by decide)).2 (by omega)
    refine .inr ⟨rank / binade - 1, rank % binade, Nat.mod_lt _ (by decide), ?_⟩
    rw [Nat.sub_add_cancel hdiv, Nat.div_add_mod']

theorem units_lt_succ (rank : Nat) : units rank < units (rank + 1) := by
  have hone : units (0 * binade + binade) = binade := by decide +kernel
  rcases rank_cases rank with h | ⟨exponent, m, hm, rfl⟩
  · rw [units_of_lt h]
    by_cases h' : rank + 1 < binade
    · rw [units_of_lt h']
      omega
    · have he : rank + 1 = 0 * binade + binade := by omega
      rw [he, hone]
      exact h
  · have hpos : 0 < 2 ^ exponent := Nat.two_pow_pos exponent
    rw [units_add exponent hm, Nat.add_assoc]
    by_cases h' : m + 1 < binade
    · rw [units_add exponent h']
      exact Nat.mul_lt_mul_of_pos_right (by omega) hpos
    · have he : (exponent + 1) * binade + (m + 1) = (exponent + 1 + 1) * binade + 0 := by
        rw [Nat.add_one_mul (exponent + 1)]
        omega
      rw [he, units_add (exponent + 1) (by decide), Nat.pow_succ, Nat.mul_comm (2 ^ exponent),
        ← Nat.mul_assoc]
      exact Nat.mul_lt_mul_of_pos_right (by omega) hpos

theorem rankBelow_units (rank : Nat) : rankBelow (units rank) = rank := by
  rcases rank_cases rank with h | ⟨exponent, m, hm, rfl⟩
  · have hlog : (units rank).log2 - 52 = 0 := by
      rw [units_of_lt h]
      by_cases h0 : rank = 0
      · rw [h0]
        decide
      · have : rank.log2 < 52 := (Nat.log2_lt h0).2 h
        omega
    rw [rankBelow, hlog, units_of_lt h, Nat.zero_mul, Nat.zero_add, Nat.shiftRight_zero]
  · have hpos : 0 < 2 ^ exponent := Nat.two_pow_pos exponent
    have hlog : ((binade + m) * 2 ^ exponent).log2 = exponent + 52 := by
      have hne : (binade + m) * 2 ^ exponent ≠ 0 :=
        Nat.ne_of_gt (Nat.mul_pos (Nat.add_pos_left (by decide) m) hpos)
      have hlow : 2 ^ (exponent + 52) = binade * 2 ^ exponent := by
        rw [Nat.pow_add, Nat.mul_comm]
        rfl
      have hhigh : 2 ^ (exponent + 52 + 1) = (2 * binade) * 2 ^ exponent := by
        rw [Nat.pow_succ, hlow, Nat.mul_comm _ 2, ← Nat.mul_assoc]
      rw [Nat.log2_eq_iff hne, hlow, hhigh]
      exact ⟨Nat.mul_le_mul_right _ (Nat.le_add_right _ _),
        Nat.mul_lt_mul_of_pos_right (by omega) hpos⟩
    rw [units_add exponent hm, rankBelow, hlog, Nat.add_sub_cancel, Nat.shiftRight_eq_div_pow,
      Nat.mul_div_cancel _ hpos, Nat.add_one_mul]
    omega

theorem two_mul_unitsPerOne : 2 * unitsPerOne = 2 ^ 1075 := by decide +kernel

theorem nearestRank_mul (num den : Nat) {k : Nat} (hk : 0 < k) :
    nearestRank (num * k) (den * k) = nearestRank num den := by
  have hdiv : num * k / (den * k) = num / den := Nat.mul_div_mul_right num den hk
  simp only [nearestRank, hdiv]
  generalize units (rankBelow (num / den)) + units (rankBelow (num / den) + 1) = s
  have hnum : 2 * (num * k) = 2 * num * k := (Nat.mul_assoc 2 num k).symm
  have hden : den * k * s = den * s * k := Nat.mul_right_comm den k s
  rw [hnum, hden]
  simp only [Nat.mul_lt_mul_right hk]

theorem nearestRank_eq {num den num' den' : Nat} (hden : 0 < den) (hden' : 0 < den')
    (h : num * den' = num' * den) : nearestRank num den = nearestRank num' den' := by
  rw [← nearestRank_mul num den hden', h, Nat.mul_comm den den', nearestRank_mul num' den' hden]

theorem nearestRank_units (rank : Nat) : nearestRank (units rank) 1 = rank := by
  have hlt := units_lt_succ rank
  have hmiddle : 2 * units rank < 1 * (units rank + units (rank + 1)) := by omega
  rw [nearestRank, Nat.div_one]
  simp only [rankBelow_units, if_pos hmiddle]

theorem nearestRank_eq_zero {num den : Nat} (h : 2 * num < den) : nearestRank num den = 0 := by
  have hdiv : num / den = 0 := Nat.div_eq_of_lt (by omega)
  have hlow : rankBelow 0 = 0 := by decide
  have hunits : units 0 + units (0 + 1) = 1 := by decide
  simp only [nearestRank, hdiv, hlow, hunits, Nat.mul_one, if_pos h]

theorem infiniteRank_le_rankBelow {u : Nat} (h : 2 ^ 2098 ≤ u) : infiniteRank ≤ rankBelow u := by
  have hne : u ≠ 0 := by
    rintro rfl
    have hpos (n : Nat) : ¬2 ^ n ≤ 0 := Nat.not_le.2 (Nat.two_pow_pos n)
    exact hpos 2098 h
  have hle_log (n : Nat) : 2 ^ n ≤ u → n ≤ u.log2 := (Nat.le_log2 hne).2
  have hlog : 2098 ≤ u.log2 := hle_log 2098 h
  have hle : 52 ≤ u.log2 := Nat.le_trans (by decide) hlog
  obtain ⟨scale, hscale⟩ : ∃ scale, u.log2 = scale + 52 := Nat.exists_eq_add_of_le' hle
  have hshift : binade ≤ u >>> scale := by
    rw [Nat.shiftRight_eq_div_pow, Nat.le_div_iff_mul_le (Nat.two_pow_pos scale)]
    have hu := Nat.log2_self_le hne
    rw [hscale, Nat.pow_add, Nat.mul_comm] at hu
    exact hu
  have hmul : 2046 * binade ≤ scale * binade := Nat.mul_le_mul_right binade (by omega)
  have hrank : infiniteRank = 2046 * binade + binade := by decide
  rw [rankBelow, hscale, Nat.add_sub_cancel, hrank]
  exact Nat.add_le_add hmul hshift

theorem infiniteRank_le_nearestRank {num den : Nat} (h : 2 ^ 2098 ≤ num / den) :
    infiniteRank ≤ nearestRank num den := by
  have hlow := infiniteRank_le_rankBelow h
  simp only [nearestRank]
  split
  · exact hlow
  · split
    · omega
    · omega

end Binary64

namespace Decimal

def numerator (d : Decimal) : Nat := d.digits * 10 ^ d.exponent.toNat

def denominator (d : Decimal) : Nat := 10 ^ (-d.exponent).toNat

theorem denominator_pos (d : Decimal) : 0 < d.denominator := Nat.pow_pos (by decide)

open Binary64 (unitsPerOne nearestRank infiniteRank ofFraction)

theorem ofFraction_eq_zero {negative : Bool} {num den : Nat} (h : 2 * num < den) :
    ofFraction negative num den = .zero negative := by
  have hrank := Binary64.nearestRank_eq_zero h
  simp only [ofFraction, hrank]
  rfl

theorem ofFraction_eq_infinite {negative : Bool} {num den : Nat} (h : 2 ^ 2098 ≤ num / den) :
    ofFraction negative num den = .infinite negative := by
  have hrank := Binary64.infiniteRank_le_nearestRank h
  simp only [ofFraction]
  rw [dif_neg (by omega)]

theorem ofFraction_congr {negative : Bool} {num den num' den' : Nat}
    (h : nearestRank num den = nearestRank num' den') :
    ofFraction negative num den = ofFraction negative num' den' := by
  simp only [ofFraction, h]

theorem two_pow_le_ten_pow {n : Nat} (h : 309 ≤ n) : 2 ^ 2098 ≤ 10 ^ n * unitsPerOne := by
  have hpow (m : Nat) (hm : m ≤ n) : 10 ^ m ≤ 10 ^ n := Nat.pow_le_pow_right (by decide) hm
  have hmul := Nat.mul_le_mul_right unitsPerOne (hpow 309 h)
  refine Nat.le_trans (m := 10 ^ 309 * unitsPerOne) ?_ hmul
  decide +kernel

theorem two_pow_lt_ten_pow {n : Nat} (h : 324 ≤ n) : 2 ^ 1075 < 10 ^ n := by
  refine Nat.lt_of_lt_of_le (m := 10 ^ 324) ?_ (Nat.pow_le_pow_right (by decide) h)
  decide +kernel

/-- From 10 ^ 309 on everything is infinite. -/
theorem ofFraction_of_large {d : Decimal} (negative : Bool) (hdigits : d.digits ≠ 0)
    (h : 309 ≤ d.exponent) :
    ofFraction negative (d.numerator * unitsPerOne) d.denominator = .infinite negative := by
  have hden : d.denominator = 1 := by
    have he : (-d.exponent).toNat = 0 := by omega
    rw [denominator, he, Nat.pow_zero]
  apply ofFraction_eq_infinite
  rw [hden, Nat.div_one]
  calc 2 ^ 2098
      ≤ 10 ^ d.exponent.toNat * unitsPerOne := two_pow_le_ten_pow (by omega)
    _ ≤ d.numerator * unitsPerOne :=
        Nat.mul_le_mul_right _ (Nat.le_mul_of_pos_left _ (Nat.pos_of_ne_zero hdigits))

theorem ofFraction_of_small {d : Decimal} (negative : Bool)
    (h : d.exponent + d.digits.log2 + 1 ≤ -324) :
    ofFraction negative (d.numerator * unitsPerOne) d.denominator = .zero negative := by
  have hnum : d.numerator = d.digits := by
    have he : d.exponent.toNat = 0 := by omega
    rw [numerator, he, Nat.pow_zero, Nat.mul_one]
  obtain ⟨k, hk, hk'⟩ : ∃ k, 324 ≤ k ∧ (-d.exponent).toNat = k + (d.digits.log2 + 1) :=
    ⟨(-d.exponent).toNat - (d.digits.log2 + 1), by omega, by omega⟩
  have hdigits : d.digits < 10 ^ (d.digits.log2 + 1) :=
    Nat.lt_of_lt_of_le Nat.lt_log2_self (Nat.pow_le_pow_left (by decide) _)
  apply ofFraction_eq_zero
  calc 2 * (d.numerator * unitsPerOne)
      = 2 ^ 1075 * d.digits := by
        rw [hnum, Nat.mul_comm d.digits, ← Nat.mul_assoc, Binary64.two_mul_unitsPerOne]
    _ < 10 ^ k * 10 ^ (d.digits.log2 + 1) := Nat.mul_lt_mul'' (two_pow_lt_ten_pow hk) hdigits
    _ = d.denominator := by rw [denominator, hk', Nat.pow_add 10 k]

/-- A decimal is read as its value rounded: the powers that are not formed would make no
difference. -/
theorem toBinary64_eq_ofFraction (d : Decimal) (negative : Bool) :
    d.toBinary64 negative =
      ofFraction negative (d.numerator * unitsPerOne) d.denominator := by
  rw [toBinary64]
  by_cases hdigits : d.digits = 0
  · rw [if_pos hdigits, numerator, hdigits, Nat.zero_mul, Nat.zero_mul,
      ofFraction_eq_zero d.denominator_pos]
  rw [if_neg hdigits]
  -- the two cases that the reader decides without forming the power
  by_cases hlarge : 309 ≤ d.exponent
  · rw [if_pos hlarge, ofFraction_of_large negative hdigits hlarge]
  rw [if_neg hlarge]
  by_cases hsmall : d.exponent + d.digits.log2 + 1 ≤ -324
  · rw [if_pos hsmall, ofFraction_of_small negative hsmall]
  rw [if_neg hsmall]
  by_cases hsign : 0 ≤ d.exponent
  · have he : (-d.exponent).toNat = 0 := by omega
    rw [if_pos hsign, numerator, denominator, he, Nat.pow_zero]
    rfl
  · have he : d.exponent.toNat = 0 := by omega
    rw [if_neg hsign, numerator, denominator, he, Nat.pow_zero, Nat.mul_one]
    rfl

theorem toBinary64_shift (digits k : Nat) (exponent : Int) (negative : Bool) :
    (⟨digits * 10 ^ k, exponent⟩ : Decimal).toBinary64 negative =
      (⟨digits, exponent + k⟩ : Decimal).toBinary64 negative := by
  rw [toBinary64_eq_ofFraction, toBinary64_eq_ofFraction]
  have hpow : 10 ^ k * 10 ^ exponent.toNat * 10 ^ (-(exponent + k)).toNat =
      10 ^ (exponent + k).toNat * 10 ^ (-exponent).toNat := by
    rw [← Nat.pow_add, ← Nat.pow_add, ← Nat.pow_add]
    congr 1
    omega
  refine ofFraction_congr (Binary64.nearestRank_eq (denominator_pos _) (denominator_pos _) ?_)
  simp only [numerator, denominator]
  calc digits * 10 ^ k * 10 ^ exponent.toNat * unitsPerOne * 10 ^ (-(exponent + k)).toNat
      = digits * unitsPerOne *
          (10 ^ k * 10 ^ exponent.toNat * 10 ^ (-(exponent + k)).toNat) := by ac_rfl
    _ = digits * unitsPerOne * (10 ^ (exponent + k).toNat * 10 ^ (-exponent).toNat) := by rw [hpow]
    _ = digits * 10 ^ (exponent + k).toNat * unitsPerOne * 10 ^ (-exponent).toNat := by ac_rfl

end Decimal

end RecordLens
