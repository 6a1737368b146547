/-
Module: FlatDae.Decimal.Binary64
Purpose: Doubles as exact numbers. `Binary64.ofFloat` takes a double apart into sign, significand
  and power of two, so that everything said about its decimal text is said about natural numbers;
  `Binary64.nearestBits` goes the other way and rounds an exact quotient to the nearest double, ties
  to the even significand.
Main exports: Binary64, Binary64.ofFloat, Binary64.roundHalfEven, Binary64.nearestBits,
  Binary64.nearest
-/

namespace FlatDae

/-- What a double stands for: no number, an infinity, or `± significand · 2 ^ exponent`. -/
inductive Binary64 where
  | nan
  | infinite (negative : Bool)
  | finite (negative : Bool) (significand : Nat) (exponent : Int)
deriving DecidableEq, Repr

namespace Binary64

/-- The smallest normal significand; subnormal doubles have smaller ones. -/
def hiddenBit : Nat := Nat.pow 2 52

/-- What the sign of a negative double adds to its bit pattern. -/
def signBit : Nat := Nat.pow 2 63

/-- The exponent of the subnormal doubles, the finest grid there is. -/
def minExponent : Int := -1074

/-- The bit pattern of positive infinity, one past that of the greatest finite double. -/
def infinityBits : Nat := 0x7FF * hiddenBit

/-- Reads the three fields of a double's bit pattern. A zero exponent field marks a subnormal
    number, which has no hidden bit; an exponent field of ones marks the infinities and the
    non-numbers. -/
def ofFloat (x : Float) : Binary64 :=
  let bits : Nat := x.toBits.toNat
  let negative := signBit ≤ bits
  let field : Nat := bits / hiddenBit % 0x800
  let fraction : Nat := bits % hiddenBit
  if field == 0x7FF then
    if fraction == 0 then .infinite negative else .nan
  else if field == 0 then .finite negative fraction minExponent
  else .finite negative (hiddenBit + fraction) (minExponent + field - 1)

/-- The natural number nearest to `num / den`, of two equally near ones the even one. -/
def roundHalfEven (num den : Nat) : Nat :=
  let quotient := num / den
  let twice := 2 * (num % den)
  if twice < den then quotient
  else if den < twice then quotient + 1
  else if quotient % 2 == 0 then quotient
  else quotient + 1

/-- `num / den · 2 ^ (-e)` as a fraction of natural numbers. -/
def scaleDown (num den : Nat) (e : Int) : Nat × Nat :=
  if e < 0 then (num * Nat.pow 2 (-e).toNat, den) else (num, den * Nat.pow 2 e.toNat)

/-- The exponent `e` with `2 ^ e ≤ num / den < 2 ^ (e + 1)`, for positive `num` and `den`. The bit
    lengths determine it up to one. -/
def binaryExponent (num den : Nat) : Int :=
  let guess : Int := (num.log2 : Int) - den.log2
  let (n, d) := scaleDown num den guess
  if d ≤ n then guess else guess - 1

/-- The bit pattern of the double nearest to the positive quotient `num / den`. The significand gets
    53 bits, fewer where the grid of subnormal numbers is the finer one that exists. Adding the
    significand to the shifted exponent carries into the exponent field exactly when rounding
    reached the next power of two, and runs into the pattern of infinity exactly on overflow. -/
def nearestBits (num den : Nat) : Nat :=
  let e := max (binaryExponent num den - 52) minExponent
  let (n, d) := scaleDown num den e
  min ((e - minExponent).toNat * hiddenBit + roundHalfEven n d) infinityBits

/-- The double nearest to `± num / den`, with the sign kept on a zero. -/
def nearest (negative : Bool) (num den : Nat) : Float :=
  let magnitude := if num == 0 then 0 else nearestBits num den
  Float.ofBits (UInt64.ofNat ((if negative then signBit else 0) + magnitude))

end Binary64

end FlatDae
