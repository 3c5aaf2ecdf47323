import BitRecords.Decimal

/-!
# The shortest decimal that reads back as a binary number

The reals that round to a binary number `m * 2 ^ q` form an interval: half a
unit above it, and half a unit below, or a quarter where the unit changes. The
shortest decimal is the point of that interval on the coarsest power-of-ten
grid that has one. If a grid has a point in the interval then one of the two
neighbours of the number on the grid is such a point, so two candidates per
grid are enough. Of two hits the nearer wins, and an exact tie goes up.

All arithmetic is exact, on natural numbers.
-/

namespace BitRecords

/-- The number `center * 2 ^ exponent` with the ends of the interval of reals
that round to it, all in the same unit. The ends belong to the interval when
`closed` holds. -/
structure RoundingInterval where
  low : Nat
  center : Nat
  high : Nat
  exponent : Int
  closed : Bool
deriving DecidableEq

namespace RoundingInterval

/-- The interval of `m * 2 ^ q`. The unit is cut in four so that both halves
are whole; `narrow` says that the unit below is half the unit above. -/
def ofBinary (m : Nat) (q : Int) (narrow : Bool) : RoundingInterval where
  low := 4 * m - (if narrow then 1 else 2)
  center := 4 * m
  high := 4 * m + 2
  exponent := q - 2
  closed := m % 2 == 0

/-- The factor from the interval's unit to the common unit of the interval and
the grid of step `10 ^ t`. -/
def scale (r : RoundingInterval) (t : Int) : Nat :=
  (1 <<< r.exponent.toNat) * Nat.pow 10 (-t).toNat

/-- The step `10 ^ t` of the grid in the common unit. -/
def gridStep (r : RoundingInterval) (t : Int) : Nat :=
  Nat.pow 10 t.toNat * (1 <<< (-r.exponent).toNat)

/-- Whether `c * 10 ^ t` lies in the interval. -/
def contains (r : RoundingInterval) (c : Nat) (t : Int) : Bool :=
  let point := c * r.gridStep t
  let low := r.low * r.scale t
  let high := r.high * r.scale t
  if r.closed then low ≤ point && point ≤ high else low < point && point < high

/-- The point of the grid of step `10 ^ t` that lies in the interval: the
nearer of the two neighbours of the number, the upper one on a tie. -/
def onGrid? (r : RoundingInterval) (t : Int) : Option Nat :=
  let below := r.center * r.scale t / r.gridStep t
  match r.contains below t, r.contains (below + 1) t with
  | false, false => none
  | true, false => some below
  | false, true => some (below + 1)
  | true, true =>
    if 2 * (r.center * r.scale t) < (2 * below + 1) * r.gridStep t then some below
    else some (below + 1)

/-- A power of ten above the interval: 0.30103 is just above the decimal
logarithm of two. -/
def topExponent (r : RoundingInterval) : Int :=
  ((Nat.log2 r.high : Int) + 1 + r.exponent) * 30103 / 100000 + 1

/-- The first hit on the grids of step `10 ^ t`, `10 ^ (t - 1)` and so on. -/
def search (r : RoundingInterval) : Nat → Int → Decimal
  | 0, t => ⟨r.center * r.scale t / r.gridStep t, t⟩
  | fuel + 1, t =>
    match r.onGrid? t with
    | some c => ⟨c, t⟩
    | none => r.search fuel (t - 1)

/-- The shortest decimal of the interval. Seventeen significant digits are
enough for a binary number of 53 bits, and the first grid is at most two steps
above the leading digit. -/
def shortest (r : RoundingInterval) : Decimal :=
  r.search 24 r.topExponent

end RoundingInterval

end BitRecords
