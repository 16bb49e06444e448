import PageSync.Proofs.Binary64.Sums

/-! # The sign of products

The sign of a product or a quotient is that of its factors, taken together, also
if it is rounded to zero or too large for the format. Zeros count as numbers of
either sign, and so does what is no number.
-/

namespace PageSync.Binary64

open Float.Model (Format UnpackedFloat)
open Float.Model.UnpackedFloat

/-- No number of the other sign. -/
def HasSign (s : Sign) : UnpackedFloat → Prop
  | .notANumber => True
  | .zero _ => True
  | .infinity t => t = s
  | .finite t _ _ _ => t = s

theorem isNaN_neg (a : UnpackedFloat) : a.neg.isNaN = a.isNaN := by
  cases a <;> rfl

namespace HasSign

variable {a b : UnpackedFloat} {s t : Sign}

theorem neg (h : HasSign s a) : HasSign (-s) a.neg := by
  cases a with
  | notANumber => trivial
  | zero t => trivial
  | infinity t => exact congrArg Neg.neg h
  | finite t m e hm => exact congrArg Neg.neg h

theorem isNonnegative (h : HasSign .positive a) (ha : a.isNaN = false) : IsNonnegative a := by
  cases a with
  | notANumber => contradiction
  | _ => exact h

theorem reading (h : HasSign s a) : HasSign s (reading a) := by
  cases a with
  | notANumber => trivial
  | zero t =>
      rw [reading_zero]
      trivial
  | infinity t => rwa [reading_infinity]
  | finite t m e hm =>
      obtain rfl : t = s := h
      rcases reading_finite t m e hm with ⟨hread, -⟩ | hfinite
      · rw [hread]
        rfl
      · generalize Binary64.reading (.finite t m e hm) = u at hfinite
        cases u with
        | zero t' => trivial
        | finite t' n f hn => exact hfinite.1
        | _ => contradiction

theorem roundWithAccuracy (spec : Format) (s : Sign) (m : ℕ) (e : ℤ) (accuracy : Accuracy) :
    HasSign s (roundWithAccuracy spec s m e accuracy) := by
  simp only [UnpackedFloat.roundWithAccuracy]
  split
  next => trivial
  next => rfl

theorem mul (spec : Format) (ha : HasSign s a) (hb : HasSign t b) :
    HasSign (s * t) (mul spec a b) := by
  cases a with
  | notANumber => trivial
  | zero s' => cases b <;> trivial
  | infinity s' =>
      obtain rfl : s' = s := ha
      cases b with
      | infinity t' => exact congrArg (s' * ·) hb
      | finite t' n f hn => exact congrArg (s' * ·) hb
      | _ => trivial
  | finite s' m e hm =>
      obtain rfl : s' = s := ha
      cases b with
      | infinity t' => exact congrArg (s' * ·) hb
      | finite t' n f hn =>
          obtain rfl : t' = t := hb
          exact roundWithAccuracy spec _ _ _ _
      | _ => trivial

/-- A quotient by a number other than zero. -/
theorem div (spec : Format) (ha : HasSign s a) {n : ℕ} {f : ℤ} {hn : 0 < n} :
    HasSign (s / t) (div spec a (.finite t n f hn)) := by
  cases a with
  | notANumber => trivial
  | zero s' => trivial
  | infinity s' => exact congrArg (· / t) ha
  | finite s' m e hm =>
      obtain rfl : s' = s := ha
      exact roundWithAccuracy spec _ _ _ _

end HasSign

theorem IsNonnegative.hasSign {a : UnpackedFloat} (h : IsNonnegative a) : HasSign .positive a := by
  cases a with
  | notANumber => contradiction
  | zero t => trivial
  | _ => exact h

theorem hasSign_ofScientific (spec : Format) (n : ℕ) (e : ℤ) :
    HasSign .positive (UnpackedFloat.ofScientific spec n e) := by
  have hfinite (m : ℕ) (e : ℤ) (hm : 0 < m) : HasSign .positive (.finite .positive m e hm) := rfl
  rw [UnpackedFloat.ofScientific]
  split
  next => trivial
  next =>
    split
    next => rfl
    next =>
      split
      next => trivial
      next =>
        split
        next => exact (hfinite _ _ _).mul spec (hfinite _ _ _)
        next => exact (hfinite _ _ _).div spec

section Stored

variable {a b : Float} {s t : Sign} {k : ℤ}

theorem hasSign_mul (ha : HasSign s a.toModel.unpack) (hb : HasSign t b.toModel.unpack) :
    HasSign (s * t) (a * b).toModel.unpack :=
  (ha.mul .binary64 hb).reading

theorem hasSign_div (ha : HasSign s a.toModel.unpack) {n : ℕ} {f : ℤ} {hn : 0 < n}
    (hb : b.toModel.unpack = .finite t n f hn) : HasSign (s / t) (a / b).toModel.unpack := by
  change HasSign (s / t) (reading (UnpackedFloat.div _ _ _))
  rw [hb]
  exact (ha.div .binary64).reading

theorem hasSign_ofNat (n : ℕ) : HasSign .positive (Float.ofNat n).toModel.unpack := by
  change HasSign .positive (Float.ofScientific n false 0).toModel.unpack
  rw [Float.ofScientific]
  split
  next =>
    have hword : HasSign .positive n.toUInt64.toFloat.toModel.unpack :=
      (isNonnegative_normalize .binary64 (Int.natCast_nonneg _) 0 .positive).reading.hasSign
    have hone : HasSign .positive Float.exactlyRepresentablePowersOfTen[0].toModel.unpack := rfl
    exact hasSign_mul hword hone
  next =>
    exact (hasSign_ofScientific .binary64 n _).reading

theorem hasSign_ofInt_of_nonneg {n : ℤ} (h : 0 ≤ n) :
    HasSign .positive (Float.ofInt n).toModel.unpack := by
  cases n with
  | ofNat n => exact hasSign_ofNat n
  | negSucc n => exact absurd h (Int.not_le.mpr (Int.negSucc_lt_zero n))

theorem hasSign_ofInt_of_nonpos {n : ℤ} (h : n ≤ 0) :
    HasSign .negative (Float.ofInt n).toModel.unpack := by
  cases n with
  | ofNat n =>
      obtain rfl : n = 0 := Int.ofNat_eq_zero.mp (le_antisymm h (Int.natCast_nonneg n))
      trivial
  | negSucc n => exact (hasSign_ofNat (n + 1)).neg.reading

theorem zero_le_of_hasSign (ha : Bounded k a) (h : HasSign .positive a.toModel.unpack) :
    0 ≤ a := by
  have hnumber := isNaN_of_isFinite ha.isFinite
  exact le_iff.mpr ⟨rfl, hnumber, rankOf_zero_le (h.isNonnegative hnumber) .positive⟩

theorem le_zero_of_hasSign (ha : Bounded k a) (h : HasSign .negative a.toModel.unpack) :
    a ≤ 0 := by
  have hnumber := isNaN_of_isFinite ha.isFinite
  have hneg : a.toModel.unpack.neg.isNaN = false := (isNaN_neg _).trans hnumber
  refine le_iff.mpr ⟨hnumber, rfl, rankOf_neg_le_neg_iff.mp ?_⟩
  exact rankOf_zero_le (h.neg.isNonnegative hneg) .negative

end Stored

end PageSync.Binary64
