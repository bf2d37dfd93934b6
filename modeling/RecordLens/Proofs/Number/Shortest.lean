import RecordLens.Number.Shortest
import RecordLens.Proofs.Number.Digits
import RecordLens.Proofs.Number.Rounding

/-! The shortest decimal of a number reads back as the number, and stripping the zeros behind its
digits, which the printed form does, changes no value. -/

namespace RecordLens

namespace Decimal

open Binary64 (units unitsPerOne infiniteRank ofFraction)

theorem ofFraction_eq_finite {negative sign : Bool} {num den rank : Nat} {h : rank < infiniteRank}
    (hf : ofFraction negative num den = .finite sign rank h) : sign = negative := by
  simp only [ofFraction] at hf
  split at hf
  · simp at hf
    exact hf.1.symm
  · simp at hf

theorem finite_of_readsBack {x : Binary64} {rank : Nat} (h : (match x with
      | .finite _ r _ => decide (r = rank)
      | _ => false) = true) : ∃ sign hr, x = .finite sign rank hr := by
  cases x with
  | nan => simp at h
  | infinite negative => simp at h
  | finite sign r hr =>
    obtain rfl := of_decide_eq_true h
    exact ⟨sign, hr, rfl⟩

theorem toBinary64_eq_finite {d : Decimal} {rank : Nat} (hr : rank < infiniteRank)
    (h : ∃ sign hr, d.toBinary64 false = .finite sign rank hr) :
    d.toBinary64 false = .finite false rank hr := by
  obtain ⟨sign, _, he⟩ := h
  have hs : sign = false := ofFraction_eq_finite ((toBinary64_eq_ofFraction d false).symm.trans he)
  rw [he, hs]

/-- A neighbour is chosen among decimals that read back. -/
theorem toBinary64_neighbour {rank : Nat} (hr : rank < infiniteRank) {exponent : Int} {d : Decimal}
    (h : neighbour? rank exponent = some d) : d.toBinary64 false = .finite false rank hr := by
  simp only [neighbour?] at h
  split at h
  · next hbelow habove =>
    split at h
    · rw [← Option.some.inj h]
      exact toBinary64_eq_finite hr (finite_of_readsBack hbelow)
    · rw [← Option.some.inj h]
      exact toBinary64_eq_finite hr (finite_of_readsBack habove)
  · next hbelow _ =>
    rw [← Option.some.inj h]
    exact toBinary64_eq_finite hr (finite_of_readsBack hbelow)
  · next _ habove =>
    rw [← Option.some.inj h]
    exact toBinary64_eq_finite hr (finite_of_readsBack habove)
  · simp at h

/-- All digits of a number are exact. -/
theorem toBinary64_exact {rank : Nat} (hr : rank < infiniteRank) :
    (⟨units rank * Nat.pow 5 1074, -1074⟩ : Decimal).toBinary64 false = .finite false rank hr := by
  rw [toBinary64_eq_ofFraction]
  have hden : (⟨units rank * Nat.pow 5 1074, -1074⟩ : Decimal).denominator =
      1 * (Nat.pow 5 1074 * unitsPerOne) := by
    simp only [denominator]
    decide +kernel
  have hnum : (⟨units rank * Nat.pow 5 1074, -1074⟩ : Decimal).numerator * unitsPerOne =
      units rank * (Nat.pow 5 1074 * unitsPerOne) := by
    have he : (-1074 : Int).toNat = 0 := rfl
    simp only [numerator]
    rw [he, Nat.pow_zero, Nat.mul_one, Nat.mul_assoc]
  have hpos : 0 < Nat.pow 5 1074 * unitsPerOne := by decide +kernel
  have hrank := Binary64.nearestRank_mul (units rank) 1 hpos
  rw [Binary64.nearestRank_units] at hrank
  rw [hden, hnum]
  simp only [ofFraction, hrank, dif_pos hr]

theorem toBinary64_shortest {rank : Nat} (hr : rank < infiniteRank) :
    (shortest rank).toBinary64 false = .finite false rank hr := by
  rw [shortest]
  generalize leadingExponent (units rank) = top
  cases h : (List.range 17).findSome? fun (n : Nat) => neighbour? rank (top - n) with
  | some d =>
    obtain ⟨n, -, hn⟩ := List.exists_of_findSome?_eq_some h
    rw [Option.getD_some]
    exact toBinary64_neighbour hr hn
  | none =>
    rw [Option.getD_none]
    exact toBinary64_exact hr

theorem digits_shortest_ne_zero {rank : Nat} (hr : rank < infiniteRank) (hpos : 0 < rank) :
    (shortest rank).digits ≠ 0 := by
  intro hdigits
  have hs := toBinary64_shortest hr
  rw [toBinary64, if_pos hdigits, Binary64.zero] at hs
  obtain ⟨-, rfl⟩ := Binary64.finite.inj hs
  exact absurd hpos (by decide)

def significant (n : Nat) : List Char :=
  ((Nat.toDigits 10 n).reverse.dropWhile (· = '0')).reverse

theorem toDigits_eq_significant (n : Nat) :
    ∃ k, Nat.toDigits 10 n = significant n ++ List.replicate k '0' := by
  let zeros := (Nat.toDigits 10 n).reverse.takeWhile (· = '0')
  have hzeros : zeros = List.replicate zeros.length '0' := by
    refine List.eq_replicate_of_mem fun c hc => ?_
    simpa using List.all_eq_true.1 List.all_takeWhile c hc
  have hsplit : (Nat.toDigits 10 n).reverse =
      zeros ++ (Nat.toDigits 10 n).reverse.dropWhile (· = '0') :=
    List.takeWhile_append_dropWhile.symm
  refine ⟨zeros.length, ?_⟩
  rw [← List.reverse_reverse (Nat.toDigits 10 n), hsplit, List.reverse_append, hzeros,
    List.reverse_replicate, List.length_replicate]
  rfl

theorem isDigits_significant {n : Nat} (hn : n ≠ 0) : IsDigits (significant n) := by
  obtain ⟨k, hk⟩ := toDigits_eq_significant n
  constructor
  · intro hnil
    have hvalue := digitsValue_toDigits n
    rw [hk, hnil, List.nil_append, digitsValue_replicate_zero] at hvalue
    exact hn hvalue.symm
  · intro c hc
    exact isDigit_of_mem_toDigits (hk ▸ List.mem_append_left _ hc)

theorem toBinary64_significant (d : Decimal) :
    d.toBinary64 false = (⟨digitsValue (significant d.digits),
      d.exponent + (Nat.toDigits 10 d.digits).length - (significant d.digits).length⟩ :
        Decimal).toBinary64 false := by
  obtain ⟨k, hk⟩ := toDigits_eq_significant d.digits
  have hdigits : d.digits = digitsValue (significant d.digits) * 10 ^ k := by
    have hvalue := digitsValue_toDigits d.digits
    rw [hk, digitsValue_append, digitsValue_replicate_zero, List.length_replicate, Nat.add_zero,
      Nat.mul_comm] at hvalue
    exact hvalue.symm
  have hexponent : d.exponent + ((Nat.toDigits 10 d.digits).length : Int) -
      (significant d.digits).length = d.exponent + k := by
    rw [hk, List.length_append, List.length_replicate]
    omega
  have hshift := toBinary64_shift (digitsValue (significant d.digits)) k d.exponent false
  rw [← hdigits] at hshift
  rw [hexponent, ← hshift]

end Decimal

end RecordLens
