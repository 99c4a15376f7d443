import BoxScript.Number.Shortest

/-!
# Numbers as text

The language writes a whole number with all its digits and nothing else, and any other number as
the shortest decimal that reads back: positional where the first digit stands less than four
places behind the point and less than seventeen in front of it, and with an exponent elsewhere.
-/

namespace BoxScript.Number

/-- The digits of a decimal without the zeros at the end, and how many of them stand in front of
the point; a negative count is a count of zeros behind the point. -/
def Decimal.layout (d : Decimal) : List Char × Int :=
  let digits := Nat.toDigits 10 d.digits
  ((digits.reverse.dropWhile (· == '0')).reverse, digits.length + d.exponent)

/-- The digits with a point behind the first `p` of them. -/
def positional (digits : List Char) (p : Int) : List Char :=
  if p ≤ 0 then '0' :: '.' :: List.replicate (-p).toNat '0' ++ digits
  else if digits.length ≤ p.toNat then
    digits ++ List.replicate (p.toNat - digits.length) '0' ++ ['.', '0']
  else digits.take p.toNat ++ '.' :: digits.drop p.toNat

/-- The digits with a point behind the first one and an exponent of at least two digits. -/
def scientific (digits : List Char) (p : Int) : List Char :=
  let e := p - 1
  let exponent := Nat.toDigits 10 e.natAbs
  let fraction := if digits.length ≤ 1 then [] else '.' :: digits.drop 1
  digits.take 1 ++ fraction ++ ['e', if e < 0 then '-' else '+'] ++
    List.replicate (2 - exponent.length) '0' ++ exponent

/-- The text of a finite decimal. -/
def Decimal.text (d : Decimal) : String :=
  let (digits, p) := d.layout
  String.ofList (if -4 < p ∧ p ≤ 16 then positional digits p else scientific digits p)

/-- A number written as a decimal, whether it is whole or not. -/
def decimalText (x : Float) : String :=
  match parts x with
  | .nan => "nan"
  | .infinite negative => if negative then "-inf" else "inf"
  | .finite negative m e =>
    let digits := if m = 0 then "0.0" else (Range.ofParts m e).shortest.text
    if negative then "-" ++ digits else digits

/-- The text of a whole number. -/
def wholeText (n : Int) : String :=
  let digits := String.ofList (Nat.toDigits 10 n.natAbs)
  if n < 0 then "-" ++ digits else digits

/-- The text of a number in the language. -/
def text (x : Float) : String :=
  match whole? x with
  | some n => wholeText n
  | none => decimalText x

/-- The number that a number token stands for: digits, and maybe a point with digits behind it. -/
def ofDigits (cs : List Char) : Float :=
  let value := fun (n : Nat) (c : Char) => 10 * n + (c.toNat - '0'.toNat)
  let whole := cs.takeWhile (· != '.')
  let fraction := cs.drop (whole.length + 1)
  Float.ofScientific ((whole ++ fraction).foldl value 0) true fraction.length

end BoxScript.Number
