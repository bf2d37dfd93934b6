/-! Double precision numbers, held exactly. The finite magnitudes are ranked in ascending order, so
that zero has rank 0 and the next number up has the next rank. Rounding a fraction means finding
the rank whose magnitude is nearest. -/

namespace RecordLens

namespace Binary64

/-- How many ranks share a binary exponent, 2 ^ 52. -/
def binade : Nat := 0x10000000000000

/-- How many finite magnitudes there are: the rank that infinity would have. -/
def infiniteRank : Nat := 2047 * binade

/-- The magnitude of a rank, counted in the least positive number, 2 ^ -1074. -/
def units (rank : Nat) : Nat :=
  if rank < binade then rank else (binade + rank % binade) <<< (rank / binade - 1)

/-- How many units make one. -/
def unitsPerOne : Nat := 1 <<< 1074

/-- The greatest rank whose magnitude is at most `u` units. -/
def rankBelow (u : Nat) : Nat :=
  let scale := u.log2 - 52
  scale * binade + u >>> scale

/-- The rank nearest to `num / den` units. Halfway between two ranks the even one is taken. -/
def nearestRank (num den : Nat) : Nat :=
  let low := rankBelow (num / den)
  let middle := den * (units low + units (low + 1))
  if 2 * num < middle then low else if middle < 2 * num then low + 1 else low + low % 2

end Binary64

/-- A double precision number. All the not-a-number patterns are one. -/
inductive Binary64 where
  | nan
  | infinite (negative : Bool)
  | finite (negative : Bool) (rank : Nat) (rank_lt : rank < Binary64.infiniteRank)
  deriving DecidableEq

namespace Binary64

def zero (negative : Bool) : Binary64 := .finite negative 0 (by decide)

/-- The number nearest to `num / den` units, infinite beyond the greatest finite one. -/
def ofFraction (negative : Bool) (num den : Nat) : Binary64 :=
  let rank := nearestRank num den
  if h : rank < infiniteRank then .finite negative rank h else .infinite negative

def ofInt (i : Int) : Binary64 := ofFraction (decide (i < 0)) (i.natAbs * unitsPerOne) 1

def negate : Binary64 → Binary64
  | .nan => .nan
  | .infinite s => .infinite (!s)
  | .finite s r h => .finite (!s) r h

/-- Equality of numbers: the two zeros are equal, and so is not-a-number to itself. -/
def same : Binary64 → Binary64 → Bool
  | .finite s r _, .finite t q _ => r == q && (r == 0 || s == t)
  | x, y => x == y

@[simp] theorem negate_negate (x : Binary64) : x.negate.negate = x := by
  cases x <;> simp [negate]

theorem same_refl (x : Binary64) : x.same x = true := by
  cases x <;> simp [same]

end Binary64

end RecordLens
