/-
Module: FlatDae.Decimal.Reading
Purpose: Reading a double from decimal text, correctly rounded. `Decimal.read?` accepts an optional
  sign, then `inf`, `infinity` or `nan` in any case, or digits with an optional point and exponent,
  with at least one digit on one side of the point.
Main exports: Decimal.valueOf, Decimal.read?
-/
import FlatDae.Decimal.Binary64

namespace FlatDae.Decimal

/-- The natural number written by decimal digits, most significant first. -/
def natOfDigits (digits : List Char) : Nat :=
  digits.foldl (fun n c => 10 * n + (c.toNat - '0'.toNat)) 0

/-- The double nearest to `± digits · 10 ^ exponent`. Exponents so large or small that the answer is
    an infinity or a zero whatever the digits are settled without computing the power. -/
def valueOf (negative : Bool) (digits : Nat) (exponent : Int) : Float :=
  let places : Int := (toString digits).length + exponent
  if digits == 0 || places < -400 then Binary64.nearest negative 0 1
  else if 400 < places then Binary64.nearest negative (Nat.pow 10 400) 1
  else if 0 ≤ exponent then Binary64.nearest negative (digits * Nat.pow 10 exponent.toNat) 1
  else Binary64.nearest negative digits (Nat.pow 10 (-exponent).toNat)

/-- A leading sign and what follows it. -/
def takeSign : List Char → Bool × List Char
  | '-' :: rest => (true, rest)
  | '+' :: rest => (false, rest)
  | text => (false, text)

/-- A whole exponent part, or nothing at all, which stands for exponent zero. -/
def exponentOf? : List Char → Option Int
  | [] => some 0
  | c :: rest =>
    if c == 'e' || c == 'E' then
      let (negative, digits) := takeSign rest
      if digits.isEmpty || !digits.all Char.isDigit then none
      else
        let magnitude : Int := natOfDigits digits
        some (if negative then -magnitude else magnitude)
    else none

/-- Digits, an optional point with further digits, and an optional exponent. -/
def readUnsigned? (negative : Bool) (text : List Char) : Option Float :=
  let whole := text.takeWhile Char.isDigit
  let afterWhole := text.dropWhile Char.isDigit
  let (fraction, rest) :=
    match afterWhole with
    | '.' :: afterPoint => (afterPoint.takeWhile Char.isDigit, afterPoint.dropWhile Char.isDigit)
    | _ => ([], afterWhole)
  if whole.isEmpty && fraction.isEmpty then none
  else
    (exponentOf? rest).map fun exponent =>
      valueOf negative (natOfDigits (whole ++ fraction)) (exponent - fraction.length)

/-- Reads a double from the whole of `text`. -/
def read? (text : String) : Option Float :=
  let (negative, magnitude) := takeSign text.toList
  match (String.ofList magnitude).toLower with
  | "inf" | "infinity" =>
    some (Float.ofBits (UInt64.ofNat
      ((if negative then Binary64.signBit else 0) + Binary64.infinityBits)))
  | "nan" => some (0.0 / 0.0)
  | _ => readUnsigned? negative magnitude

end FlatDae.Decimal
