import Mathlib.Algebra.Group.Nat.Defs
import Mathlib.Data.List.Induction
import RecordLens.Number.Decimal
import RecordLens.Proofs.Text.Identifier

/-! Decimal digits: printing a number and taking the value of the digits are inverse, and no
positive number is printed with a leading zero. -/

namespace RecordLens

theorem digitsValue_eq_ofDigitChars (ds : List Char) : digitsValue ds = Nat.ofDigitChars 10 ds 0 :=
  Nat.ofDigitChars_eq_foldl.symm

theorem digitsValue_append (ds es : List Char) :
    digitsValue (ds ++ es) = 10 ^ es.length * digitsValue ds + digitsValue es := by
  rw [digitsValue_eq_ofDigitChars, Nat.ofDigitChars_append, Nat.ofDigitChars_eq_ofDigitChars_zero,
    ← digitsValue_eq_ofDigitChars, ← digitsValue_eq_ofDigitChars]

theorem digitsValue_replicate_zero (n : Nat) : digitsValue (List.replicate n '0') = 0 := by
  rw [digitsValue_eq_ofDigitChars, Nat.ofDigitChars_replicate_zero, Nat.mul_zero]

@[simp] theorem digitsValue_toDigits (n : Nat) : digitsValue (Nat.toDigits 10 n) = n := by
  rw [digitsValue_eq_ofDigitChars, Nat.ofDigitChars_ten_toDigits]

/-- Decimal digits, at least one. -/
def IsDigits (cs : List Char) : Prop := cs ≠ [] ∧ ∀ c ∈ cs, c.isDigit = true

theorem isDigit_of_mem_toDigits {n : Nat} {c : Char} (h : c ∈ Nat.toDigits 10 n) :
    c.isDigit = true :=
  Nat.isDigit_of_mem_toDigits (by decide) (by decide) h

theorem isDigits_toDigits (n : Nat) : IsDigits (Nat.toDigits 10 n) :=
  ⟨Nat.toDigits_ne_nil, fun _ => isDigit_of_mem_toDigits⟩

theorem toList_toString_nat (n : Nat) : (toString n).toList = Nat.toDigits 10 n := Nat.toList_repr

theorem toList_toString_int (i : Int) : (toString i).toList =
    if 0 ≤ i then Nat.toDigits 10 i.natAbs else '-' :: Nat.toDigits 10 i.natAbs := by
  rw [Int.toString_eq_repr, Int.repr_eq_if]
  by_cases h : 0 ≤ i
  · have hn : i.toNat = i.natAbs := by omega
    rw [if_pos h, if_pos h, Nat.toList_repr, hn]
  · have hn : (-i).toNat = i.natAbs := by omega
    rw [if_neg h, if_neg h, String.toList_append, Nat.toList_repr, hn]
    rfl

theorem head?_toDigits_ne_zero {n : Nat} (hn : 0 < n) :
    (Nat.toDigits 10 n).head? ≠ some '0' := by
  induction n using Nat.strongRecOn with
  | ind n ih =>
    by_cases h : n < 10
    · rw [Nat.toDigits_of_lt_base h]
      have hd : ∀ d < 10, 0 < d → d.digitChar ≠ '0' := by decide
      simpa using hd n h hn
    · have hne : Nat.toDigits 10 (n / 10) ≠ [] := Nat.toDigits_ne_nil
      have hhead := ih (n / 10) (by omega) (by omega)
      rw [Nat.toDigits_of_base_le (by decide) (by omega), List.head?_append]
      rw [List.head?_eq_some_head hne] at hhead ⊢
      exact hhead

theorem digitChar_of_isDigit {d : Char} (h : d.isDigit = true) :
    d.toNat - 48 < 10 ∧ (d.toNat - 48).digitChar = d := by
  obtain ⟨hlow, hhigh⟩ := Text.toNat_of_isDigit h
  have hd : Char.ofNat d.toNat = d := Char.ofNat_toNat d
  have hall : ∀ n < 58, 48 ≤ n → (n - 48).digitChar = Char.ofNat n := by decide
  exact ⟨by omega, (hall d.toNat (by omega) hlow).trans hd⟩

theorem toDigits_digitsValue {ds : List Char} (h : IsDigits ds) (hzero : ds.head? ≠ some '0') :
    Nat.toDigits 10 (digitsValue ds) = ds := by
  induction ds using List.reverseRecOn with
  | nil => exact absurd rfl h.1
  | append_singleton es d ih =>
    obtain ⟨hlt, hd⟩ := digitChar_of_isDigit (h.2 d (by simp))
    rw [digitsValue_concat]
    by_cases hes : es = []
    · subst hes
      rw [show digitsValue [] = 0 from rfl, Nat.mul_zero, Nat.zero_add,
        Nat.toDigits_of_lt_base hlt, hd]
      rfl
    · have hhead : es.head? ≠ some '0' := by
        obtain ⟨c, tail, rfl⟩ := List.exists_cons_of_ne_nil hes
        exact hzero
      have hprevious := ih ⟨hes, fun c hc => h.2 c (List.mem_append_left _ hc)⟩ hhead
      have hpos : 0 < digitsValue es := by
        refine Nat.pos_of_ne_zero fun hvalue => hhead ?_
        rw [← hprevious, hvalue]
        rfl
      rw [Nat.toDigits_of_base_le (by decide) (by omega)]
      have hdiv : (10 * digitsValue es + (d.toNat - 48)) / 10 = digitsValue es := by omega
      have hmod : (10 * digitsValue es + (d.toNat - 48)) % 10 = d.toNat - 48 := by omega
      rw [hdiv, hmod, hprevious, hd]

end RecordLens
