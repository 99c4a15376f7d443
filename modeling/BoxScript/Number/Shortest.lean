import BoxScript.Number.Binary

/-!
# The fewest digits that read back

Every decimal near enough to a double is read as that double. `Range` describes these decimals by
exact natural numbers, and `Range.shortest` picks the one with the fewest digits, and of those the
one nearest to the double.
-/

namespace BoxScript.Number

/-- The number `digits * 10 ^ exponent`. -/
structure Decimal where
  digits : Nat
  exponent : Int
  deriving DecidableEq, Repr, Inhabited

/-- The numbers that are read as one positive double: those between `low / unit` and
`high / unit`, with the ends if `closed`. The double itself is `value / unit`. -/
structure Range where
  low : Nat
  value : Nat
  high : Nat
  unit : Nat
  closed : Bool
  deriving DecidableEq, Repr, Inhabited

namespace Range

/-- The range of the double `mantissa * 2 ^ exponent`. It reaches half way to both neighbours; the
neighbour below a power of two is nearer than the one above. -/
def ofParts (mantissa : Nat) (exponent : Int) : Range :=
  let up := Nat.pow 2 exponent.toNat
  let below := if mantissa = Nat.pow 2 52 ∧ exponent > -1074 then 1 else 2
  { low := (4 * mantissa - below) * up
    value := 4 * mantissa * up
    high := (4 * mantissa + 2) * up
    unit := 4 * Nat.pow 2 (-exponent).toNat
    closed := mantissa % 2 == 0 }

/-- Whether a decimal is read as the double. -/
def contains (r : Range) (d : Decimal) : Bool :=
  let n := d.digits * Nat.pow 10 d.exponent.toNat * r.unit
  let scale := Nat.pow 10 (-d.exponent).toNat
  if r.closed then r.low * scale ≤ n && n ≤ r.high * scale
  else r.low * scale < n && n < r.high * scale

/-- How many decimal digits a natural number has. -/
def digitCount (n : Nat) : Nat :=
  (Nat.toDigits 10 n).length

/-- The number `p` such that the double lies between `10 ^ (p - 1)`, which it may be, and
`10 ^ p`, which it is not. -/
def magnitude (r : Range) : Int :=
  if r.unit ≤ r.value then digitCount (r.value / r.unit)
  else
    let shift := digitCount r.unit - digitCount r.value
    if r.unit ≤ r.value * Nat.pow 10 shift then 1 - (shift : Int) else -(shift : Int)

/-- A decimal on the grid `10 ^ exponent` that is read as the double, if one of the two grid
points next to it is. The nearer one is taken if both are, and the even one if both are equally
near. -/
def onGrid? (r : Range) (exponent : Int) : Option Decimal :=
  let n := r.value * Nat.pow 10 (-exponent).toNat
  let step := r.unit * Nat.pow 10 exponent.toNat
  let down : Decimal := ⟨n / step, exponent⟩
  let up : Decimal := ⟨n / step + 1, exponent⟩
  match r.contains down, r.contains up with
  | true, true =>
    let rest := 2 * (n % step)
    if rest < step ∨ (rest = step ∧ down.digits % 2 = 0) then some down else some up
  | true, false => some down
  | false, true => some up
  | false, false => none

/-- The decimal with the fewest digits that is read as the double. Seventeen digits are always
enough. -/
def shortest (r : Range) : Decimal :=
  let p := r.magnitude
  let found := (List.range 17).findSome? fun i => r.onGrid? (p - (i + 1 : Nat))
  found.getD ⟨r.value * Nat.pow 10 17 / r.unit, -17⟩

end Range

end BoxScript.Number
