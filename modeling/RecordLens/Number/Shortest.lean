import RecordLens.Number.Decimal

/-! Printing double precision numbers with the fewest digits that read back, and of those the
nearest. Numbers from 10 ^ -4 up to 10 ^ 16 are written positionally, all others with an
exponent. -/

namespace RecordLens

namespace Decimal

def digitCount (n : Nat) : Nat := (Nat.toDigits 10 n).length

/-- Exponent of the leading digit of `u` units. -/
def leadingExponent (u : Nat) : Int := 
  digitCount (u * Nat.pow 10 324 / Binary64.unitsPerOne) - 325

/-- `u` units as a quotient by `10 ^ exponent`. -/
def scaled (u : Nat) (exponent : Int) : Nat × Nat :=
  if 0 ≤ exponent then (u, Binary64.unitsPerOne * Nat.pow 10 exponent.toNat)
  else (u * Nat.pow 10 (-exponent).toNat, Binary64.unitsPerOne)

/-- A decimal whose digits count steps of `10 ^ exponent` and that reads back as the rank: the
lower or the upper neighbour of the number among such decimals, the nearer if both read back, and
the upper one if they are equally near. -/
def neighbour? (rank : Nat) (exponent : Int) : Option Decimal :=
  let (num, den) := scaled (Binary64.units rank) exponent
  let low := num / den
  let below : Decimal := ⟨low, exponent⟩
  let above : Decimal := ⟨low + 1, exponent⟩
  let readsBack (d : Decimal) : Bool :=
    match d.toBinary64 false with
    | .finite _ r _ => r = rank
    | _ => false
  match readsBack below, readsBack above with
  | true, true => if 2 * num < den * (2 * low + 1) then some below else some above
  | true, false => some below
  | false, true => some above
  | false, false => none

/-- The shortest decimal that reads back as the rank. Should seventeen digits not suffice, all
digits of the number are taken. -/
def shortest (rank : Nat) : Decimal :=
  let u := Binary64.units rank
  let top := leadingExponent u
  ((List.range 17).findSome? fun (n : Nat) => neighbour? rank (top - n)).getD
    ⟨u * Nat.pow 5 1074, -1074⟩

def isPositional (exponent : Int) : Bool := -4 ≤ exponent && exponent < 16

/-- Digits with a point behind as many of them as `exponent` says, and with a digit at least on
either side of it. -/
def positional (digits : List Char) (exponent : Int) : List Char :=
  if exponent < 0 then
    '0' :: '.' :: List.replicate (-exponent - 1).toNat '0' ++ digits
  else
    let places := exponent.toNat + 1
    let whole := digits.take places ++ List.replicate (places - digits.length) '0'
    let fraction := digits.drop places
    whole ++ '.' :: (if fraction.isEmpty then ['0'] else fraction)

def scientific (digits : List Char) (exponent : Int) : List Char :=
  let mantissa :=
    match digits with
    | first :: second :: rest => first :: '.' :: second :: rest
    | _ => digits
  mantissa ++ 'e' :: (toString exponent).toList

def layout (d : Decimal) : List Char :=
  let all := Nat.toDigits 10 d.digits
  let exponent := d.exponent + (all.length : Int) - 1
  let digits := (all.reverse.dropWhile (· = '0')).reverse
  if isPositional exponent then positional digits exponent else scientific digits exponent

end Decimal

namespace Binary64

def magnitudeText (rank : Nat) : List Char :=
  if rank = 0 then ['0', '.', '0'] else (Decimal.shortest rank).layout

def text : Binary64 → String
  | .nan => "NaN"
  | .infinite negative => if negative then "-inf" else "inf"
  | .finite negative rank _ =>
    String.ofList (if negative then '-' :: magnitudeText rank else magnitudeText rank)

end Binary64

end RecordLens
