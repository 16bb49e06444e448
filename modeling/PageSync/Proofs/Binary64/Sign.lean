import PageSync.Proofs.Binary64.Order
import PageSync.Proofs.Binary64.Packing

/-! # Differences and sums without a sign

If one number is less than another, the difference is a number that is not
below zero, also if one of them is infinite or the difference is too small or too
large for the format. Sums of such numbers are of the same sort.
-/

namespace PageSync.Binary64

open Float.Model (Format UnpackedFloat)
open Float.Model.UnpackedFloat

/-- A number, finite or not, that is not below zero. -/
def IsNonnegative : UnpackedFloat → Prop
  | .notANumber => False
  | .infinity s => s = .positive
  | .zero _ => True
  | .finite s _ _ _ => s = .positive

/-- Mantissas have 53 bits, unless the exponent is the least. -/
def IsCanonical : UnpackedFloat → Prop
  | .finite _ m e _ => m < 2 ^ 53 ∧ -1074 ≤ e ∧ (2 ^ 52 ≤ m ∨ e = -1074)
  | _ => True

variable {a b : UnpackedFloat} {s : Sign} {m n : ℕ} {e f : ℤ}

theorem isCanonical_unpack (bits : BitVec 64) : IsCanonical (unpack .binary64 bits) := by
  have hbias : ((Format.binary64.exponentBias : ℕ) : ℤ) = 1023 := rfl
  simp only [unpack]
  split
  next =>
    split
    next => trivial
    next => trivial
  next =>
    split
    next hzero =>
      split
      next => trivial
      next =>
        have hmantissa := (@unpackMantissa .binary64 bits).isLt
        refine ⟨Nat.lt_trans hmantissa (by decide), ?_, Or.inr ?_⟩
        · rw [hbias, hzero]
          decide
        · rw [hbias, hzero]
          decide
    next hnonzero =>
      have hpos : 0 < (@unpackExponent .binary64 bits).toNat := by
        rw [Nat.pos_iff_ne_zero]
        exact fun hzero => hnonzero (BitVec.eq_of_toNat_eq hzero)
      refine ⟨BitVec.isLt _, ?_, Or.inl ?_⟩
      · rw [hbias]
        omega
      · rw [BitVec.toNat_append, ← Nat.shiftLeft_add_eq_or_of_lt (BitVec.isLt _)]
        simp [Nat.shiftLeft_eq]

theorem IsNonnegative.isNaN (h : IsNonnegative a) : a.isNaN = false := by
  cases a with
  | notANumber => contradiction
  | _ => rfl

theorem IsNonnegative.reading (h : IsNonnegative a) : IsNonnegative (reading a) := by
  cases a with
  | notANumber => contradiction
  | infinity s => rwa [reading_infinity]
  | zero s => rwa [reading_zero]
  | finite s m e hm =>
      obtain rfl : s = .positive := h
      rcases reading_finite .positive m e hm with ⟨hread, -⟩ | hfinite
      · rw [hread]
        rfl
      · generalize Binary64.reading (.finite .positive m e hm) = u at hfinite
        cases u with
        | zero t => trivial
        | finite t n f hn => exact hfinite.1
        | _ => contradiction

theorem isNonnegative_roundWithAccuracy (spec : Format) (m : ℕ) (e : ℤ) (accuracy : Accuracy) :
    IsNonnegative (roundWithAccuracy spec .positive m e accuracy) := by
  simp only [roundWithAccuracy]
  split
  next => trivial
  next => rfl

theorem isNonnegative_normalize (spec : Format) {mantissa : ℤ} (hmantissa : 0 ≤ mantissa)
    (e : ℤ) (s : Sign) : IsNonnegative (UnpackedFloat.normalize spec mantissa e s) := by
  simp only [UnpackedFloat.normalize]
  split
  next hlt => exact absurd (Int.compare_eq_lt.mp hlt) (by omega)
  next => trivial
  next => exact isNonnegative_roundWithAccuracy spec _ _ _

theorem isNonnegative_add (spec : Format) (ha : IsNonnegative a) (hb : IsNonnegative b) :
    IsNonnegative (add spec a b) := by
  cases a with
  | notANumber => contradiction
  | infinity s =>
      obtain rfl : s = .positive := ha
      cases b with
      | notANumber => contradiction
      | infinity t =>
          obtain rfl : t = .positive := hb
          rfl
      | _ => rfl
  | zero s =>
      cases b with
      | notANumber => contradiction
      | zero t => cases s <;> cases t <;> trivial
      | _ => exact hb
  | finite s m e hm =>
      cases b with
      | notANumber => contradiction
      | infinity t => exact hb
      | zero t => exact ha
      | finite t n f hn =>
          obtain rfl : s = .positive := ha
          obtain rfl : t = .positive := hb
          exact isNonnegative_normalize spec (Int.add_nonneg (Int.natCast_nonneg _)
            (Int.natCast_nonneg _)) _ _

/-- Mantissas that are brought to one exponent are in the order of the numbers. -/
theorem decreaseExponent_le {hm : 0 < m} (ha : IsCanonical (.finite s m e hm)) (hn : n < 2 ^ 53)
    (hf : -1074 ≤ f) (hlt : f < e ∨ f = e ∧ n < m) :
    (decreaseExponent n f (min e f)).1 ≤ (decreaseExponent m e (min e f)).1 := by
  simp only [decreaseExponent, Nat.shiftLeft_eq]
  rcases hlt with hlt | ⟨rfl, hlt⟩
  · -- the greater number is not of the least exponent, so all its bits are used
    have hleast : 2 ^ 52 ≤ m := ha.2.2.resolve_right (by omega)
    have hshift : 2 ^ 1 ≤ 2 ^ (e - min e f).toNat :=
      Nat.pow_le_pow_right (by decide) (by omega)
    have hnone : (f - min e f).toNat = 0 := by omega
    rw [hnone, Nat.pow_zero, Nat.mul_one]
    calc n ≤ 2 ^ 52 * 2 ^ 1 := by omega
      _ ≤ m * 2 ^ (e - min e f).toNat := Nat.mul_le_mul hleast hshift
  · exact Nat.mul_le_mul_right _ (Nat.le_of_lt hlt)

theorem not_lt_rankOf_negative_infinity : ¬ rankOf a < rankOf (.infinity .negative) := by
  cases a with
  | zero t => simp [rankOf, toLex_lt_iff]
  | notANumber => simp [rankOf, toLex_lt_iff]
  | infinity t => cases t <;> simp [rankOf, toLex_lt_iff]
  | finite t n f hn => cases t <;> simp [rankOf, toLex_lt_iff]

theorem not_rankOf_positive_infinity_lt : ¬ rankOf (.infinity .positive) < rankOf a := by
  cases a with
  | zero t => simp [rankOf, toLex_lt_iff]
  | notANumber => simp [rankOf, toLex_lt_iff]
  | infinity t => cases t <;> simp [rankOf, toLex_lt_iff]
  | finite t n f hn => cases t <;> simp [rankOf, toLex_lt_iff]

theorem isNonnegative_sub_finite {t : Sign} {hm : 0 < m} {hn : 0 < n}
    (hcanonical : IsCanonical (.finite s m e hm)) (hcanonical' : IsCanonical (.finite t n f hn))
    (hlt : rankOf (.finite t n f hn) < rankOf (.finite s m e hm)) :
    IsNonnegative (sub .binary64 (.finite s m e hm) (.finite t n f hn)) := by
  refine isNonnegative_normalize .binary64 (Int.sub_nonneg_of_le ?_) _ _
  -- mantissas of one sign are compared, and those of two signs need not be
  cases s with
  | negative =>
      cases t with
      | negative =>
          rw [rankOf, rankOf, toLex_lt_iff] at hlt
          have hle := decreaseExponent_le hcanonical' hcanonical.1 hcanonical.2.1 (by omega)
          rw [min_comm] at hle
          exact Int.neg_le_neg (Int.ofNat_le.mpr hle)
      | positive => simp [rankOf, toLex_lt_iff] at hlt
  | positive =>
      cases t with
      | negative =>
          exact Int.le_trans (Int.neg_nonpos_of_nonneg (Int.natCast_nonneg _))
            (Int.natCast_nonneg _)
      | positive =>
          rw [rankOf, rankOf, toLex_lt_iff] at hlt
          have hle := decreaseExponent_le hcanonical hcanonical'.1 hcanonical'.2.1 (by omega)
          exact Int.ofNat_le.mpr hle

/-- The difference to a smaller number is not below zero. -/
theorem isNonnegative_sub (hcanonical : IsCanonical a) (hcanonical' : IsCanonical b)
    (ha : a.isNaN = false) (hb : b.isNaN = false) (hlt : rankOf b < rankOf a) :
    IsNonnegative (sub .binary64 a b) := by
  cases a with
  | notANumber => contradiction
  | infinity s =>
      cases s with
      | negative => exact absurd hlt not_lt_rankOf_negative_infinity
      | positive =>
          cases b with
          | notANumber => contradiction
          | infinity t =>
              cases t with
              | negative => rfl
              | positive => exact absurd hlt (lt_irrefl _)
          | _ => rfl
  | zero s =>
      cases b with
      | notANumber => contradiction
      | zero t => exact absurd hlt (lt_irrefl _)
      | infinity t =>
          cases t with
          | negative => rfl
          | positive => exact absurd hlt not_rankOf_positive_infinity_lt
      | finite t n f hn =>
          cases t with
          | negative => rfl
          | positive => simp [rankOf, toLex_lt_iff] at hlt
  | finite s m e hm =>
      cases b with
      | notANumber => contradiction
      | infinity t =>
          cases t with
          | negative => rfl
          | positive => exact absurd hlt not_rankOf_positive_infinity_lt
      | zero t =>
          cases s with
          | negative => simp [rankOf, toLex_lt_iff] at hlt
          | positive => rfl
      | finite t n f hn => exact isNonnegative_sub_finite hcanonical hcanonical' hlt

section Stored

variable {a b : Float}

theorem isNonnegative_sub_of_lt (h : b < a) : IsNonnegative (a - b).toModel.unpack := by
  obtain ⟨hb, ha, hlt⟩ := lt_iff.mp h
  exact (isNonnegative_sub (isCanonical_unpack _) (isCanonical_unpack _) ha hb hlt).reading

theorem IsNonnegative.add (ha : IsNonnegative a.toModel.unpack)
    (hb : IsNonnegative b.toModel.unpack) : IsNonnegative (a + b).toModel.unpack :=
  (isNonnegative_add .binary64 ha hb).reading

end Stored

end PageSync.Binary64
