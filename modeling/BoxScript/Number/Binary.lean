/-!
# What a number is made of

The numbers of the language are double precision floating point numbers. `parts` takes one apart
into sign, mantissa and a power of two, and rounding to whole numbers and the remainder of a
division are computed on these parts, where nothing is lost.
-/

namespace BoxScript.Number

/-- A number taken apart. -/
inductive Parts where
  | nan
  | infinite (negative : Bool)
  /-- The number `mantissa * 2 ^ exponent`, or its opposite. -/
  | finite (negative : Bool) (mantissa : Nat) (exponent : Int)
  deriving DecidableEq, Repr, Inhabited

/-- Takes a number apart. -/
def parts (x : Float) : Parts :=
  let bits := x.toBits.toNat
  let negative := bits / Nat.pow 2 63 == 1
  let exponent : Nat := bits / Nat.pow 2 52 % Nat.pow 2 11
  let fraction : Nat := bits % Nat.pow 2 52
  if exponent = Nat.pow 2 11 - 1 then
    if fraction = 0 then .infinite negative else .nan
  else if exponent = 0 then .finite negative fraction (-1074)
  else .finite negative (Nat.pow 2 52 + fraction) (exponent - 1075)

/-- The number `mantissa * 2 ^ exponent`, rounded to the nearest double where it is not one. -/
def scaled (mantissa : Nat) (exponent : Int) : Float :=
  match exponent with
  | .ofNat e => Float.ofNat (mantissa * Nat.pow 2 e)
  | .negSucc e => Float.ofScientific (mantissa * Nat.pow 5 (e + 1)) true (e + 1)

/-- The opposite number, or the number itself. -/
def signed (negative : Bool) (x : Float) : Float :=
  if negative then -x else x

/-! ## Whole numbers -/

/-- The greatest whole number that is not above a finite number. -/
def floor? (x : Float) : Option Int :=
  match parts x with
  | .finite negative m (.ofNat e) =>
    let n : Int := (m * Nat.pow 2 e : Nat)
    some (if negative then -n else n)
  | .finite negative m (.negSucc e) =>
    let n : Int := m
    some ((if negative then -n else n).fdiv (Nat.pow 2 (e + 1)))
  | _ => none

/-- The least whole number that is not below a finite number. -/
def ceil? (x : Float) : Option Int :=
  (floor? (-x)).map (- ·)

/-- The whole number that a number is equal to, if there is one. -/
def whole? (x : Float) : Option Int :=
  match floor? x, ceil? x with
  | some n, some m => if n = m then some n else none
  | _, _ => none

/-- Whether a number is finite and has no fraction. -/
def isWhole (x : Float) : Bool :=
  (whole? x).isSome

/-- Rounds down to a whole number; NaN and the infinities stay as they are. -/
def floor (x : Float) : Float :=
  ((floor? x).map Float.ofInt).getD x

/-- Rounds up to a whole number; NaN and the infinities stay as they are. -/
def ceil (x : Float) : Float :=
  ((ceil? x).map Float.ofInt).getD x

/-! ## Remainder -/

/-- What is left of the dividend `x` after as many whole divisors `y` as fit are taken away. The
result has the sign of the dividend; it is NaN if the divisor is zero or the dividend
infinite. -/
def remainder (x y : Float) : Float :=
  match parts x, parts y with
  | .finite negative m e, .finite _ n f =>
    if n = 0 then 0.0 / 0.0
    else
      let low := min e f
      let rest := m * Nat.pow 2 (e - low).toNat % (n * Nat.pow 2 (f - low).toNat)
      signed negative (scaled rest low)
  | .finite _ _ _, .infinite _ => x
  | _, _ => 0.0 / 0.0

/-- The square root; a negative number has none, so the result is NaN. -/
def squareRoot (x : Float) : Float :=
  if x ≥ 0.0 then x.sqrt else 0.0 / 0.0

end BoxScript.Number
