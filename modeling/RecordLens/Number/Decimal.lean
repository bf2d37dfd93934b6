import RecordLens.Number.Binary64

/-! Reading decimal notation: digits, a power of ten, and the double precision number nearest to
what they mean. -/

namespace RecordLens

/-- The value of a row of digits. -/
def digitsValue (ds : List Char) : Nat := ds.foldl (fun n d => 10 * n + (d.toNat - 48)) 0

theorem digitsValue_concat (ds : List Char) (d : Char) :
    digitsValue (ds ++ [d]) = 10 * digitsValue ds + (d.toNat - 48) := by
  simp [digitsValue]

/-- The number `digits * 10 ^ exponent`. -/
structure Decimal where
  digits : Nat
  exponent : Int
  deriving DecidableEq, Repr

namespace Decimal

def ofText (whole fraction : List Char) (exponent : Int) : Decimal :=
  ⟨digitsValue (whole ++ fraction), exponent - fraction.length⟩

/-- The nearest double precision number. A number of at least 10 ^ 309 is infinite and one of at
most 10 ^ -324 is zero, without forming the power. -/
def toBinary64 (d : Decimal) (negative : Bool) : Binary64 :=
  if d.digits = 0 then .zero negative
  else if 309 ≤ d.exponent then .infinite negative
  else if d.exponent + d.digits.log2 + 1 ≤ -324 then .zero negative
  else if 0 ≤ d.exponent then
    .ofFraction negative (d.digits * Nat.pow 10 d.exponent.toNat * Binary64.unitsPerOne) 1
  else
    .ofFraction negative (d.digits * Binary64.unitsPerOne) (Nat.pow 10 (-d.exponent).toNat)

end Decimal

end RecordLens
