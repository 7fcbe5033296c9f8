/-!
# Doubles as exact numbers

A finite double is `m * 2^q`. The decimals that are read back as that double
form an interval around it, which reaches half-way to each neighbour.

* `Binary.ofBits`: the exact value of a bit pattern.
* `Binary.readsBack`: a decimal lies in the interval of a double.
-/

namespace Stagecraft.Decimal

/-- The exact magnitude of a finite double, `m * 2^q`. -/
structure Binary where
  m : Nat
  q : Int
  /-- The gap to the neighbour below is half of the gap to the one above. -/
  narrow : Bool
deriving Repr, DecidableEq

/-- A decimal, `digits * 10^exp`. -/
structure Scientific where
  digits : Nat
  exp : Int
deriving Repr, DecidableEq

namespace Binary

/-- The magnitude of a finite bit pattern; the sign bit is left out. -/
def ofBits (bits : UInt64) : Binary :=
  let e := ((bits >>> 52) &&& 0x7FF).toNat
  let f := (bits &&& 0xFFFFFFFFFFFFF).toNat
  if e = 0 then ⟨f, -1074, false⟩ else ⟨Nat.pow 2 52 + f, (e : Int) - 1075, f == 0 && e > 1⟩

/-- The order of `digits * 10^exp` and `n * 2^j`. -/
def order (d : Scientific) (n : Nat) (j : Int) : Ordering :=
  compare (d.digits * Nat.pow 10 d.exp.toNat * Nat.pow 2 (-j).toNat)
    (n * Nat.pow 2 j.toNat * Nat.pow 10 (-d.exp).toNat)

/-- `d` lies half-way to a neighbour of `x` at most; half-way counts for an even `m`. -/
def readsBack (x : Binary) (d : Scientific) : Bool :=
  -- the ends in quarters of a unit of `m`, since the lower gap may be half of one
  let low := order d (if x.narrow then 4 * x.m - 1 else 4 * x.m - 2) (x.q - 2)
  let high := order d (4 * x.m + 2) (x.q - 2)
  let ends := x.m % 2 == 0
  (low == .gt || (ends && low == .eq)) && (high == .lt || (ends && high == .eq))

/-- The number of whole steps of `10^g` in `x`. -/
def stepsOf (x : Binary) (g : Int) : Nat :=
  (x.m * Nat.pow 2 x.q.toNat * Nat.pow 10 (-g).toNat) / (Nat.pow 2 (-x.q).toNat * Nat.pow 10 g.toNat)

/-- The least `k` with `x < 10^k`, for a positive `x`. The binary logarithm gives
it up to two. -/
def scale (x : Binary) : Int :=
  -- the decimal logarithm of two, to five places
  let k := ((x.m.log2 : Int) + x.q) * 30103 / 100000
  let fits (k : Int) : Bool := order ⟨1, k⟩ x.m x.q == .gt
  if fits (k - 1) then k - 1 else if fits k then k else if fits (k + 1) then k + 1 else k + 2

end Binary

end Stagecraft.Decimal
