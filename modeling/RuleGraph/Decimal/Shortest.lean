/-! # Shortest decimals

A double is written with the fewest decimal digits that read back as the same
double.  It is `m * 2 ^ q` for whole numbers `m` and `q`, and the reals that
round to it form an interval around it.  On the grid of the multiples of
`10 ^ k` only the two neighbours of the value have to be tried: the first grid
with a point in the interval gives the fewest digits.  All of it is exact
arithmetic on natural numbers. -/

namespace RuleGraph.Decimal

/-- What the bits of a double stand for. -/
inductive Double where
  | nan
  | infinite (negative : Bool)
  /-- The number `significand * 2 ^ exponent`, or its opposite. -/
  | finite (negative : Bool) (significand : Nat) (exponent : Int)
deriving DecidableEq, Repr

/-- The least exponent of a double, also that of all subnormal ones. -/
def leastExponent : Int := -1074

/-- Read the sign bit, the eleven exponent bits and the fraction of a double. -/
def Double.ofFloat (x : Float) : Double :=
  let bits : Nat := x.toBits.toNat
  let negative := bits / Nat.pow 2 63 == 1
  let biased : Nat := bits / Nat.pow 2 52 % Nat.pow 2 11
  let fraction : Nat := bits % Nat.pow 2 52
  if biased = Nat.pow 2 11 - 1 then
    if fraction = 0 then .infinite negative else .nan
  else if biased = 0 then
    .finite negative fraction leastExponent
  else
    .finite negative (Nat.pow 2 52 + fraction) (leastExponent + (biased - 1 : Nat))

/-- A decimal number `digits * 10 ^ exponent`. -/
structure Scaled where
  digits : Nat
  exponent : Int
deriving DecidableEq, Repr

/-- Number of decimal digits of a natural number. -/
def width (n : Nat) : Nat := (Nat.toDigits 10 n).length

/-- The place of the first digit of `m * 2 ^ q`: the largest `e` with `10 ^ e ≤ m * 2 ^ q`. -/
def leadingPlace (m : Nat) (q : Int) : Int :=
  let num := m * Nat.pow 2 q.toNat
  let den := Nat.pow 2 (-q).toNat
  let e : Int := (width num : Int) - width den
  if den * Nat.pow 10 e.toNat ≤ num * Nat.pow 10 (-e).toNat then e else e - 1

/-- The point nearest to `m * 2 ^ q` on the grid of `10 ^ k`, among those that round to it.

In quarters of `2 ^ q`, the interval reaches from `4 * m - 2` (or `4 * m - 1`, where the doubles
below lie closer) to `4 * m + 2`; its ends belong to it if `m` is even.  Of two points at the same
distance the upper one is taken. -/
def gridPoint? (m : Nat) (q k : Int) : Option Nat :=
  let num := Nat.pow 2 (q - 2).toNat * Nat.pow 10 (-k).toNat
  let den := Nat.pow 2 (2 - q).toNat * Nat.pow 10 k.toNat
  let low := 4 * m - if m = Nat.pow 2 52 ∧ leastExponent < q then 1 else 2
  let high := 4 * m + 2
  let inside (d : Nat) : Bool :=
    if m % 2 = 0 then low * num ≤ d * den && d * den ≤ high * num
    else low * num < d * den && d * den < high * num
  let below := 4 * m * num / den
  let upper := den ≤ 2 * (4 * m * num - below * den)
  match inside below, inside (below + 1) with
  | true, true => some (if upper then below + 1 else below)
  | true, false => some below
  | false, true => some (below + 1)
  | false, false => none

/-- Drop the zeros at the end of the digits. -/
def Scaled.strip (s : Scaled) : Scaled :=
  if s.digits ≠ 0 ∧ s.digits % 10 = 0 then
    Scaled.strip ⟨s.digits / 10, s.exponent + 1⟩
  else s
termination_by s.digits
decreasing_by omega

/-- The decimal with the fewest digits that rounds to `m * 2 ^ q`; seventeen always suffice. -/
def shortest (m : Nat) (q : Int) : Scaled :=
  let place := leadingPlace m q
  let found := (List.range 17).findSome? fun (n : Nat) =>
    let k := place - (n : Int)
    (gridPoint? m q k).map fun d => Scaled.strip ⟨d, k⟩
  found.getD ⟨0, 0⟩

end RuleGraph.Decimal
