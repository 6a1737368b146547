/-
Module: FlatDae.Proofs.NumberText
Purpose: No two doubles are written alike. The digits of a double stand for a number of its interval, the
  reals that round to it: the search over coarser and coarser grids either meets the interval or comes down
  to a grid on which the double lies. The intervals of different doubles have no number in common, since
  two neighbours meet in one point at most, which only the one with the even significand owns.
Main exports: Binary64.ofFloat_injective, Decimal.shortest_holds, Binary64.Canonical.eq_of_holds,
  Decimal.mantissaValue_positional, Binary64.IsWord, Decimal.text_isWord, Decimal.text_injective
-/
import FlatDae.Proofs.NumberReading
import Mathlib.Algebra.Order.Field.Power
import Mathlib.Data.Rat.Cast.Order
import Mathlib.Tactic.NormNum
import Mathlib.Tactic.Ring

namespace FlatDae

open Float.Model (UnpackedFloat)

/-! ### The fields of a double -/

namespace Binary64

/-- What the three fields of a bit pattern stand for. -/
def ofFields (negative : Bool) (field fraction : Nat) : Binary64 :=
  if field == 0x7FF then
    if fraction == 0 then .infinite negative else .nan
  else if field == 0 then .finite negative fraction minExponent
  else .finite negative (hiddenBit + fraction) (minExponent + field - 1)

theorem ofFloat_eq_ofFields (x : Float) :
    ofFloat x = ofFields (decide (signBit ≤ x.toBits.toNat)) (x.toBits.toNat / hiddenBit % 0x800)
      (x.toBits.toNat % hiddenBit) := rfl

/-- Only an exponent field of ones over a fraction that is not zero stands for no number. -/
theorem ofFields_eq_nan {s : Bool} {p v : Nat} (h : ofFields s p v = .nan) : p = 0x7FF ∧ v ≠ 0 := by
  simp only [ofFields, beq_iff_eq] at h
  split at h
  next hfield =>
    split at h
    next => cases h
    next hfraction => exact ⟨hfield, hfraction⟩
  next => split at h <;> cases h

/-- The fields can be told from what they stand for, if that is a number. -/
theorem ofFields_inj {s t : Bool} {p q v w : Nat} (hv : v < hiddenBit) (hw : w < hiddenBit)
    (h : ofFields s p v = ofFields t q w) (hnan : ofFields s p v ≠ .nan) : s = t ∧ p = q ∧ v = w := by
  simp only [ofFields, beq_iff_eq] at h hnan
  split at h <;> split at h <;> split at h <;> (try split at h) <;> grind

/-- What is no number has one pattern of bits. -/
theorem toBits_of_nan {x : Float} (hx : ofFloat x = .nan) :
    x.toBits.toBitVec = UnpackedFloat.packedNaN .binary64 := by
  rw [ofFloat_eq_ofFields] at hx
  rcases ofFields_eq_nan hx with ⟨hfield, hfraction⟩
  have hbits : x.toModel.toBits = x.toBits := rfl
  simp only [hiddenBit, Nat.pow_eq] at hfield hfraction
  apply x.toModel.valid.eq_packedNaN
  · apply BitVec.eq_of_toNat_eq
    simpa [UnpackedFloat.unpackExponent, Nat.shiftRight_eq_div_pow, hbits] using hfield
  · intro hzero
    apply hfraction
    simpa [UnpackedFloat.unpackMantissa, hbits] using congrArg BitVec.toNat hzero

/-- Different doubles stand for different things. -/
theorem ofFloat_injective : Function.Injective ofFloat := by
  intro x y h
  suffices hbits : x.toBits = y.toBits by
    rcases x with ⟨⟨_⟩⟩
    rcases y with ⟨⟨_⟩⟩
    cases hbits
    rfl
  by_cases hnan : ofFloat x = .nan
  · exact UInt64.toBitVec_inj.1 ((toBits_of_nan hnan).trans (toBits_of_nan (h.symm.trans hnan)).symm)
  · have hlt (z : Float) : z.toBits.toNat % hiddenBit < hiddenBit := Nat.mod_lt _ (by decide)
    rw [ofFloat_eq_ofFields] at h hnan
    rcases ofFields_inj (hlt x) (hlt y) (h.trans (ofFloat_eq_ofFields y)) hnan with
      ⟨hsign, hfield, hfraction⟩
    rw [decide_eq_decide] at hsign
    simp only [signBit, hiddenBit, Nat.pow_eq] at hsign hfield hfraction
    have hx64 := x.toBits.toNat_lt
    have hy64 := y.toBits.toNat_lt
    apply UInt64.toNat_inj.1
    omega

end Binary64

/-! ### The interval of a double -/

namespace Decimal

/-- The number that a decimal stands for. -/
def value (d : Decimal) : ℚ := d.digits * 10 ^ d.exponent

/-- A power times what is missing to a natural exponent. -/
theorem zpow_mul_pow_toNat {a : ℚ} (ha : a ≠ 0) (k : Int) : a ^ k * a ^ (-k).toNat = a ^ k.toNat := by
  rw [← zpow_natCast, ← zpow_natCast, ← zpow_add₀ ha]
  congr 1
  omega

theorem factors_pos (k e : Int) : 0 < (factors k e).1 ∧ 0 < (factors k e).2 := by
  simp [factors]

/-- The factors have the ratio of the grid to the unit of an interval. -/
theorem factors_ratio (k e : Int) : (10 : ℚ) ^ k = (factors k e).1 / (factors k e).2 * 2 ^ e := by
  have hunit : ((factors k e).2 : ℚ) ≠ 0 := Nat.cast_ne_zero.2 (factors_pos k e).2.ne'
  have hten := zpow_mul_pow_toNat (a := 10) (by norm_num) k
  have htwo := zpow_mul_pow_toNat (a := 2) (by norm_num) e
  rw [div_mul_eq_mul_div, eq_div_iff hunit]
  simp only [factors, Nat.pow_eq, Nat.cast_mul, Nat.cast_pow, Nat.cast_ofNat]
  rw [← hten, ← htwo]
  ring

namespace Interval

/-- The number lies in the interval. -/
structure Holds (i : Interval) (v : ℚ) : Prop where
  low_le : i.low * 2 ^ i.exponent ≤ v
  le_high : v ≤ i.high * 2 ^ i.exponent
  inside : i.closed = false → i.low * 2 ^ i.exponent < v ∧ v < i.high * 2 ^ i.exponent

variable {i : Interval} {c x : Nat} {k : Int}

/-- A point of a grid compares with a multiple of the unit as the multiples by the factors do. -/
theorem le_point_iff {e : Int} : (x : ℚ) * 2 ^ e ≤ Decimal.value ⟨c, k⟩ ↔
    x * (factors k e).2 ≤ c * (factors k e).1 := by
  have hunit : (0 : ℚ) < (factors k e).2 := Nat.cast_pos.2 (factors_pos k e).2
  rw [Decimal.value, factors_ratio k e, ← mul_assoc, mul_le_mul_iff_left₀ (zpow_pos (by norm_num) e),
    mul_div_assoc', le_div_iff₀ hunit]
  norm_cast

theorem point_le_iff {e : Int} : Decimal.value ⟨c, k⟩ ≤ (x : ℚ) * 2 ^ e ↔
    c * (factors k e).1 ≤ x * (factors k e).2 := by
  have hunit : (0 : ℚ) < (factors k e).2 := Nat.cast_pos.2 (factors_pos k e).2
  rw [Decimal.value, factors_ratio k e, ← mul_assoc, mul_le_mul_iff_left₀ (zpow_pos (by norm_num) e),
    mul_div_assoc', div_le_iff₀ hunit]
  norm_cast

/-- What is found to lie in the interval does. -/
theorem holds_of_contains (h : i.contains c k) : i.Holds (Decimal.value ⟨c, k⟩) := by
  simp only [contains] at h
  split at h
  next hclosed =>
    rw [Bool.and_eq_true, decide_eq_true_eq, decide_eq_true_eq] at h
    refine ⟨le_point_iff.2 h.1, point_le_iff.2 h.2, fun hopen => ?_⟩
    rw [hopen] at hclosed
    cases hclosed
  next =>
    rw [Bool.and_eq_true, decide_eq_true_eq, decide_eq_true_eq] at h
    have hlow := lt_of_not_ge (mt point_le_iff.1 (Nat.not_le.2 h.1))
    have hhigh := lt_of_not_ge (mt le_point_iff.1 (Nat.not_le.2 h.2))
    exact ⟨hlow.le, hhigh.le, fun _ => ⟨hlow, hhigh⟩⟩

theorem holds_of_nearestOnGrid? (h : i.nearestOnGrid? k = some c) : i.Holds (Decimal.value ⟨c, k⟩) := by
  simp only [nearestOnGrid?] at h
  split at h
  next => cases h
  next hbelow _ => cases h; exact holds_of_contains hbelow
  next _ habove => cases h; exact holds_of_contains habove
  next hbelow habove =>
    split at h
    · cases h; exact holds_of_contains hbelow
    · cases h; exact holds_of_contains habove

/-- The search ends in the interval, if the value lies on the last grid. -/
theorem coarsest_holds (hvalue : i.Holds (i.value * 2 ^ i.exponent)) {steps : Nat}
    (hgrid : (factors (k - steps) i.exponent).1 ∣ i.value * (factors (k - steps) i.exponent).2) :
    i.Holds (i.coarsest k steps).value := by
  induction steps generalizing k with
  | zero =>
      have heq : i.value * 2 ^ i.exponent = (i.coarsest k 0).value := by
        rw [Int.natCast_zero, Int.sub_zero] at hgrid
        apply le_antisymm
        · exact le_point_iff.2 (Nat.div_mul_cancel hgrid).ge
        · exact point_le_iff.2 (Nat.div_mul_cancel hgrid).le
      rwa [← heq]
  | succ steps ih =>
      rw [coarsest]
      split
      next c hc => exact holds_of_nearestOnGrid? hc
      next =>
        apply ih
        rwa [show k - 1 - (steps : Int) = k - (steps + 1 : Nat) by omega]

/-- Where the search ends every number of the interval's exponent is a point of the grid. -/
theorem factors_dvd (significand : Nat) {exponent : Int} (hk : k ≤ min exponent 0) :
    (factors k (ofFinite significand exponent).exponent).1 ∣
      (ofFinite significand exponent).value * (factors k (ofFinite significand exponent).exponent).2 := by
  simp only [factors, ofFinite, Nat.pow_eq]
  have hzero : k.toNat = 0 := by omega
  have hpow : 2 ^ (-(exponent - 2)).toNat ∣ 4 * 10 ^ (-k).toNat := by
    calc 2 ^ (-(exponent - 2)).toNat ∣ 2 ^ (2 + (-k).toNat) := Nat.pow_dvd_pow 2 (by omega)
      _ ∣ 4 * 10 ^ (-k).toNat := by
        rw [Nat.pow_add]
        exact Nat.mul_dvd_mul_left _ (pow_dvd_pow_of_dvd (by decide) _)
  rw [hzero, Nat.pow_zero, Nat.one_mul]
  calc 2 ^ (-(exponent - 2)).toNat ∣ 4 * 10 ^ (-k).toNat := hpow
    _ ∣ 4 * 10 ^ (-k).toNat * (significand * 2 ^ (exponent - 2).toNat) := Nat.dvd_mul_right _ _
    _ = _ := by ring

theorem le_low (significand : Nat) (exponent : Int) :
    4 * significand - 2 ≤ (ofFinite significand exponent).low := by
  simp only [ofFinite]
  split <;> omega

/-- Below a power of two the doubles are denser. -/
theorem le_low_hiddenBit {exponent : Int} (h : Binary64.minExponent < exponent) :
    4 * Binary64.hiddenBit - 1 ≤ (ofFinite Binary64.hiddenBit exponent).low := by
  simp [ofFinite, h]

theorem closed_ofFinite (significand : Nat) (exponent : Int) :
    (ofFinite significand exponent).closed = false ↔ significand % 2 = 1 := by
  simp [ofFinite]

theorem value_holds (significand : Nat) (exponent : Int) :
    (ofFinite significand exponent).Holds
      ((ofFinite significand exponent).value * 2 ^ (ofFinite significand exponent).exponent) := by
  have hpos : (0 : ℚ) < 2 ^ (ofFinite significand exponent).exponent := zpow_pos (by norm_num) _
  have hlow : (ofFinite significand exponent).low ≤ (ofFinite significand exponent).value :=
    Nat.sub_le _ _
  have hhigh : (ofFinite significand exponent).value < (ofFinite significand exponent).high :=
    Nat.lt_add_of_pos_right (by decide)
  constructor
  · gcongr
  · gcongr
  · intro hopen
    have hodd := (closed_ofFinite significand exponent).1 hopen
    have hlt : (ofFinite significand exponent).low < (ofFinite significand exponent).value :=
      Nat.sub_lt (by omega) (by split <;> decide)
    constructor <;> gcongr

/-- Two intervals around one number overlap, and are not just end to end if an end is missing. -/
theorem Holds.overlap {i j : Interval} {v : ℚ} (hi : i.Holds v) (hj : j.Holds v) {n : Nat}
    (hn : i.exponent + n ≤ j.exponent) :
    j.low * 2 ^ n ≤ i.high ∧ (i.closed = false ∨ j.closed = false → j.low * 2 ^ n < i.high) := by
  have hpos : (0 : ℚ) < 2 ^ i.exponent := zpow_pos (by norm_num) _
  have hscale : (j.low * 2 ^ n : ℚ) * 2 ^ i.exponent ≤ j.low * 2 ^ j.exponent := by
    rw [mul_assoc, ← zpow_natCast, ← zpow_add₀ (by norm_num), add_comm]
    gcongr
    norm_num
  constructor
  · have hle := (hscale.trans hj.low_le).trans hi.le_high
    rw [mul_le_mul_iff_left₀ hpos] at hle
    exact_mod_cast hle
  · intro hopen
    have hlt : (j.low * 2 ^ n : ℚ) * 2 ^ i.exponent < i.high * 2 ^ i.exponent := by
      rcases hopen with hopen | hopen
      · exact (hscale.trans hj.low_le).trans_lt (hi.inside hopen).2
      · exact (hscale.trans_lt (hj.inside hopen).1).trans_le hi.le_high
    rw [mul_lt_mul_iff_left₀ hpos] at hlt
    exact_mod_cast hlt

end Interval

/-- The digits of a double stand for a number of its interval. -/
theorem shortest_holds (significand : Nat) (exponent : Int) :
    (Interval.ofFinite significand exponent).Holds (shortest significand exponent).value := by
  apply Interval.coarsest_holds (Interval.value_holds significand exponent)
  apply Interval.factors_dvd
  -- wherever the search starts, it goes down to `min exponent 0`
  omega

end Decimal

namespace Binary64

/-- A significand and an exponent as a double has them: 53 bits, no more of them unused than the finest
    grid asks for. -/
structure Canonical (significand : Nat) (exponent : Int) : Prop where
  lt : significand < 2 * hiddenBit
  le : minExponent ≤ exponent
  normal : minExponent < exponent → hiddenBit ≤ significand

theorem canonical_of_ofFloat {x : Float} {negative : Bool} {significand : Nat} {exponent : Int}
    (h : ofFloat x = .finite negative significand exponent) : Canonical significand exponent := by
  have hlt : x.toBits.toNat % hiddenBit < hiddenBit := Nat.mod_lt _ (by decide)
  simp only [ofFloat] at h
  split at h
  · split at h <;> cases h
  · split at h
    · cases h
      exact ⟨by omega, le_refl _, fun h => absurd h (lt_irrefl _)⟩
    next hfield =>
      cases h
      rw [beq_iff_eq] at hfield
      exact ⟨by omega, by omega, fun _ => Nat.le_add_right _ _⟩

/-- No number rounds to two doubles. -/
theorem Canonical.eq_of_holds {m m' : Nat} {e e' : Int} (hm : Canonical m e) (hm' : Canonical m' e')
    {v : ℚ} (hv : (Decimal.Interval.ofFinite m e).Holds v)
    (hv' : (Decimal.Interval.ofFinite m' e').Holds v) : m = m' ∧ e = e' := by
  wlog hle : e ≤ e' generalizing m m' e e'
  · have h := this hm' hm hv' hv (by omega)
    exact ⟨h.1.symm, h.2.symm⟩
  have hlow := Decimal.Interval.le_low m e
  have hlow' := Decimal.Interval.le_low m' e'
  have hhigh : (Decimal.Interval.ofFinite m e).high = 4 * m + 2 := rfl
  have hhigh' : (Decimal.Interval.ofFinite m' e').high = 4 * m' + 2 := rfl
  rcases hle.eq_or_lt with rfl | hexp
  · -- on one grid the two are neighbours at the nearest, and one of them is odd
    have h := hv.overlap hv' (Int.add_zero _).le
    have h' := hv'.overlap hv (Int.add_zero _).le
    rw [Decimal.Interval.closed_ofFinite, Decimal.Interval.closed_ofFinite, Nat.pow_zero, Nat.mul_one]
      at h h'
    omega
  · -- the greatest number of the finer grid and the least of the coarser one are the nearest, and odd
    -- and even
    have h := hv.overlap hv' (show e - 2 + (1 : Nat) ≤ e' - 2 by omega)
    rw [Decimal.Interval.closed_ofFinite, Decimal.Interval.closed_ofFinite, Nat.pow_one] at h
    have hmin : minExponent < e' := hm.le.trans_lt hexp
    have hlt := hm.lt
    have hnormal := hm'.normal hmin
    rcases hnormal.eq_or_lt with rfl | hnormal
    · have hdense := Decimal.Interval.le_low_hiddenBit hmin
      simp only [hiddenBit, Nat.pow_eq] at *
      omega
    · simp only [hiddenBit, Nat.pow_eq] at *
      omega

end Binary64

/-! ### The text of a double -/

namespace Decimal

/-- The number that a mantissa stands for. -/
def mantissaValue (m : List Char) : ℚ :=
  natOfDigits (m.filter (· != '.')) / 10 ^ (m.dropWhile (· != '.')).tail.length

theorem natOfDigits_zeros_append (n : Nat) (digits : List Char) :
    natOfDigits (List.replicate n '0' ++ digits) = natOfDigits digits := by
  change Nat.ofDigitChars 10 _ 0 = Nat.ofDigitChars 10 _ 0
  rw [Nat.ofDigitChars_append, Nat.ofDigitChars_replicate_zero, Nat.mul_zero]

theorem natOfDigits_append_zeros (n : Nat) (digits : List Char) :
    natOfDigits (digits ++ List.replicate n '0') = natOfDigits digits * 10 ^ n := by
  change Nat.ofDigitChars 10 _ 0 = Nat.ofDigitChars 10 _ 0 * _
  rw [Nat.ofDigitChars_append, Nat.ofDigitChars_replicate_zero, Nat.mul_comm]

theorem mantissaValue_zero : mantissaValue "0".toList = 0 := by
  change ((0 : Nat) : ℚ) / 10 ^ 0 = 0
  norm_num

/-- The text of a decimal stands for the same number. -/
theorem mantissaValue_positional (d : Decimal) : mantissaValue d.positional.toList = d.value := by
  have hpoint {cs : List Char} (hcs : ∀ c ∈ cs, c.isDigit) : ∀ c ∈ cs, (c != '.') = true := by
    intro c hc
    rw [bne_iff_ne]
    rintro rfl
    exact absurd (hcs _ hc) (by decide)
  rcases Int.lt_or_le d.exponent 0 with h | h
  · rcases positional_point h with ⟨n, whole, fraction, htext, -, hlength, hdigits⟩
    have hall : ∀ c ∈ whole ++ fraction, (c != '.') = true := by
      apply hpoint
      intro c hc
      rw [hdigits] at hc
      exact (List.mem_append.1 hc).elim isDigit_of_mem_replicate isDigit_of_mem_toString
    have hfilter : (whole ++ '.' :: fraction).filter (· != '.') = whole ++ fraction := by
      rw [List.filter_append, List.filter_cons, if_neg (by decide), ← List.filter_append,
        List.filter_eq_self.2 hall]
    have hbehind : (whole ++ '.' :: fraction).dropWhile (· != '.') = '.' :: fraction :=
      Source.dropWhile_run (fun c hc => hall c (List.mem_append_left _ hc)) (Source.stops_cons.2 rfl)
    have hexponent : d.exponent = -((-d.exponent).toNat : Int) := by omega
    rw [htext, mantissaValue, hfilter, hbehind, List.tail_cons, hlength, hdigits, natOfDigits_zeros_append,
      natOfDigits_toString, value]
    conv_rhs => rw [hexponent, zpow_neg, zpow_natCast]
    rfl
  · have hall : ∀ c ∈ d.positional.toList, (c != '.') = true := by
      apply hpoint
      intro c hc
      rw [positional_whole h] at hc
      exact (List.mem_append.1 hc).elim isDigit_of_mem_toString isDigit_of_mem_replicate
    have hexponent : (d.exponent.toNat : Int) = d.exponent := Int.toNat_of_nonneg h
    rw [mantissaValue, List.filter_eq_self.2 hall, List.dropWhile_eq_nil_iff.2 hall, positional_whole h,
      natOfDigits_append_zeros, natOfDigits_toString, value]
    conv_rhs => rw [← hexponent, zpow_natCast]
    simp
end Decimal

namespace Binary64

/-- Whether a minus is written. -/
def isNegative : Binary64 → Bool
  | .nan => false
  | .infinite negative => negative
  | .finite negative _ _ => negative

/-- The word that a double is written with behind its sign. -/
inductive IsWord : Binary64 → List Char → Prop where
  | nan : IsWord .nan "NaN".toList
  | infinite (negative : Bool) : IsWord (.infinite negative) "inf".toList
  | finite (negative : Bool) {significand : Nat} {exponent : Int} {m : List Char}
      (hmantissa : Source.IsMantissa m) (hcanonical : Canonical significand exponent)
      (hvalue : (Decimal.Interval.ofFinite significand exponent).Holds (Decimal.mantissaValue m)) :
      IsWord (.finite negative significand exponent) m

variable {x y : Binary64} {w : List Char}

/-- A word that is not a number's digits is one of two names. -/
theorem IsWord.cases_word (h : x.IsWord w) :
    w = "NaN".toList ∨ w = "inf".toList ∨ Source.IsMantissa w := by
  cases h with
  | nan => exact Or.inl rfl
  | infinite => exact Or.inr (Or.inl rfl)
  | finite _ hmantissa => exact Or.inr (Or.inr hmantissa)

/-- A word is one run of the characters of names and numbers. -/
theorem IsWord.atomChars (h : x.IsWord w) : ∀ c ∈ w, Source.isAtomChar c := by
  rcases h.cases_word with rfl | rfl | hmantissa
  · exact List.all_eq_true.1 rfl
  · exact List.all_eq_true.1 rfl
  · exact hmantissa.atomChars

theorem IsWord.ne_nil (h : x.IsWord w) : w ≠ [] := by
  rcases h.cases_word with rfl | rfl | hmantissa
  · exact List.cons_ne_nil _ _
  · exact List.cons_ne_nil _ _
  · rcases hmantissa.exists_cons with ⟨c, cs, rfl, -⟩
    exact List.cons_ne_nil c cs

theorem not_isMantissa_of_head {c : Char} {cs : List Char} (hc : c.isDigit = false) :
    ¬ Source.IsMantissa (c :: cs) := by
  intro h
  rcases h.exists_cons with ⟨d, ds, heq, hd⟩
  cases heq
  rw [hc] at hd
  cases hd

/-- A double is known from its word and its sign. -/
theorem IsWord.eq (hx : x.IsWord w) (hy : y.IsWord w) (hsign : x.isNegative = y.isNegative) : x = y := by
  cases hx with
  | nan =>
      generalize hw : "NaN".toList = w at hy
      cases hy with
      | nan => rfl
      | infinite => exact absurd hw (by decide)
      | finite _ hmantissa => exact absurd (hw ▸ hmantissa) (not_isMantissa_of_head rfl)
  | infinite =>
      generalize hw : "inf".toList = w at hy
      cases hy with
      | nan => exact absurd hw (by decide)
      | infinite => exact congrArg _ hsign
      | finite _ hmantissa => exact absurd (hw ▸ hmantissa) (not_isMantissa_of_head rfl)
  | finite _ hmantissa hcanonical hvalue =>
      cases hy with
      | nan => exact absurd hmantissa (not_isMantissa_of_head rfl)
      | infinite => exact absurd hmantissa (not_isMantissa_of_head rfl)
      | finite _ _ hcanonical' hvalue' =>
          rcases hcanonical.eq_of_holds hcanonical' hvalue hvalue' with ⟨rfl, rfl⟩
          cases hsign
          rfl

end Binary64

namespace Decimal

/-- A sign in front of what is written, if there is one. -/
def signed (negative : Bool) (w : List Char) : List Char := if negative then '-' :: w else w

/-- A sign is no part of a word. -/
theorem signed_inj {n n' : Bool} {w w' : List Char} (hw : ∀ c ∈ w, Source.isAtomChar c)
    (hw' : ∀ c ∈ w', Source.isAtomChar c) (h : signed n w = signed n' w') : n = n' ∧ w = w' := by
  have hminus {v : List Char} (hv : ∀ c ∈ v, Source.isAtomChar c) (cs : List Char) : v ≠ '-' :: cs := by
    rintro rfl
    exact absurd (hv '-' List.mem_cons_self) (by decide)
  cases n <;> cases n' <;> simp only [signed, Bool.false_eq_true, if_true, if_false] at h
  · exact ⟨rfl, h⟩
  · exact absurd h (hminus hw _)
  · exact absurd h.symm (hminus hw' _)
  · exact ⟨rfl, List.tail_eq_of_cons_eq h⟩

/-- A double is written as its word behind its sign. -/
theorem text_isWord (x : Float) :
    ∃ w, (Binary64.ofFloat x).IsWord w ∧ (text x).toList = signed (Binary64.ofFloat x).isNegative w := by
  unfold text
  cases hx : Binary64.ofFloat x with
  | nan => exact ⟨_, .nan, rfl⟩
  | infinite negative =>
      refine ⟨_, .infinite negative, ?_⟩
      cases negative <;> rfl
  | finite negative significand exponent =>
      have hcanonical := Binary64.canonical_of_ofFloat hx
      refine ⟨(if significand == 0 then "0" else (shortest significand exponent).positional).toList,
        .finite negative ?_ hcanonical ?_, ?_⟩
      · split
        · exact .whole (List.all_eq_true.1 rfl) (List.cons_ne_nil _ _)
        · exact positional_isMantissa _
      · split
        next hzero =>
          rw [beq_iff_eq] at hzero
          have hholds := Interval.value_holds significand exponent
          have hvalue : (Interval.ofFinite significand exponent).value = 0 := by rw [hzero]; rfl
          rw [hvalue, Nat.cast_zero, zero_mul] at hholds
          rwa [mantissaValue_zero]
        next =>
          rw [mantissaValue_positional]
          exact shortest_holds significand exponent
      · cases negative <;> simp [Binary64.isNegative, signed]

/-- No two doubles are written alike. -/
theorem text_injective : Function.Injective text := by
  intro x y h
  rcases text_isWord x with ⟨w, hw, hx⟩
  rcases text_isWord y with ⟨w', hw', hy⟩
  rw [h, hy] at hx
  rcases signed_inj hw'.atomChars hw.atomChars hx with ⟨hsign, rfl⟩
  exact Binary64.ofFloat_injective (hw.eq hw' hsign.symm)

end Decimal

end FlatDae
