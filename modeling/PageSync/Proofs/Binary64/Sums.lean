import PageSync.Proofs.Binary64.Rounding

/-! # Sums and the order

The sum of two numbers is their exact sum, rounded. As rounding keeps the order,
to add a number that is not below zero does not make a number less, and to add
one that is not above zero does not make it greater. Differences are sums with
the sign of one side turned around.
-/

namespace PageSync.Binary64

open Float.Model (Format UnpackedFloat)
open Float.Model.UnpackedFloat

variable {a b : UnpackedFloat} {m n : ℕ} {mantissa e : ℤ}

/-! ## Signs -/

theorem exists_rankOf (a : UnpackedFloat) : ∃ x y z : ℤ,
    rankOf a = toLex (x, toLex (y, z)) ∧ rankOf a.neg = toLex (-x, toLex (-y, -z)) := by
  cases a with
  | notANumber => exact ⟨0, 0, 0, rfl, rfl⟩
  | zero s => exact ⟨0, 0, 0, rfl, rfl⟩
  | infinity s =>
      cases s with
      | negative => exact ⟨-2, 0, 0, rfl, rfl⟩
      | positive => exact ⟨2, 0, 0, rfl, rfl⟩
  | finite s m e hm =>
      cases s with
      | negative =>
          refine ⟨-1, -e, -m, rfl, ?_⟩
          rw [Int.neg_neg e, Int.neg_neg (m : ℤ)]
          rfl
      | positive => exact ⟨1, e, m, rfl, rfl⟩

theorem rankOf_neg_le_neg_iff : rankOf a.neg ≤ rankOf b.neg ↔ rankOf b ≤ rankOf a := by
  obtain ⟨x, y, z, ha, hneg⟩ := exists_rankOf a
  obtain ⟨x', y', z', hb, hneg'⟩ := exists_rankOf b
  rw [ha, hb, hneg, hneg', toLex_le_iff, toLex_le_iff]
  omega

theorem neg_round (spec : Format) (s : Sign) (m : ℕ) (e : ℤ) :
    (UnpackedFloat.round spec s m e).neg = UnpackedFloat.round spec (-s) m e := by
  simp only [UnpackedFloat.round, roundWithAccuracy]
  split <;> rfl

theorem normalize_of_neg (spec : Format) (h : mantissa < 0) (e : ℤ) (s : Sign) :
    UnpackedFloat.normalize spec mantissa e s =
      UnpackedFloat.round spec .negative (-mantissa).toNat e := by
  simp only [UnpackedFloat.normalize, Int.compare_eq_lt.mpr h]

theorem normalize_zero (spec : Format) (e : ℤ) (s : Sign) :
    UnpackedFloat.normalize spec 0 e s = .zero s := rfl

theorem normalize_of_pos (spec : Format) (h : 0 < mantissa) (e : ℤ) (s : Sign) :
    UnpackedFloat.normalize spec mantissa e s =
      UnpackedFloat.round spec .positive mantissa.toNat e := by
  simp only [UnpackedFloat.normalize, Int.compare_eq_gt.mpr h]

theorem neg_normalize (spec : Format) (mantissa e : ℤ) (s : Sign) :
    (UnpackedFloat.normalize spec mantissa e s).neg =
      UnpackedFloat.normalize spec (-mantissa) e (-s) := by
  rcases lt_trichotomy mantissa 0 with hneg | rfl | hpos
  · rw [normalize_of_neg spec hneg, normalize_of_pos spec (Int.neg_pos_of_neg hneg), neg_round]
    rfl
  · rfl
  · rw [normalize_of_pos spec hpos, normalize_of_neg spec (Int.neg_neg_of_pos hpos), neg_round,
      neg_neg]
    rfl

/-! ## Values -/

/-- The exact value of a finite number. -/
def value : UnpackedFloat → ℚ
  | .finite .negative m e _ => -magnitude m e
  | .finite .positive m e _ => magnitude m e
  | _ => 0

theorem value_neg (a : UnpackedFloat) : value a.neg = -value a := by
  cases a with
  | finite s m e hm =>
      cases s with
      | negative => exact (neg_neg _).symm
      | positive => rfl
  | _ => exact neg_zero.symm

theorem magnitude_pos (hm : 0 < m) (e : ℤ) : 0 < magnitude m e :=
  mul_pos (by exact_mod_cast hm) (zpow_pos two_pos e)

theorem IsCanonical.neg (h : IsCanonical a) : IsCanonical a.neg := by
  cases a with
  | finite s m e hm => exact h
  | _ => trivial

theorem isFinite_neg (a : UnpackedFloat) : a.neg.isFinite = a.isFinite := by
  cases a <;> rfl

theorem isCanonical_normalize (mantissa e : ℤ) (s : Sign) :
    IsCanonical (UnpackedFloat.normalize .binary64 mantissa e s) := by
  rcases lt_trichotomy mantissa 0 with hneg | rfl | hpos
  · rw [normalize_of_neg _ hneg]
    exact isCanonical_round _ (by omega) e
  · trivial
  · rw [normalize_of_pos _ hpos]
    exact isCanonical_round _ (by omega) e

theorem rankOf_zero_le (h : IsNonnegative a) (s : Sign) : rankOf (.zero s) ≤ rankOf a := by
  cases a with
  | notANumber => contradiction
  | zero t => exact le_refl _
  | infinity t =>
      obtain rfl : t = .positive := h
      exact (toLex_le_iff ..).mpr (Or.inl (by decide))
  | finite t m e hm =>
      obtain rfl : t = .positive := h
      exact (toLex_le_iff ..).mpr (Or.inl (by decide))

/-- A finite number is at least zero exactly if its value is. -/
theorem zero_le_rankOf_iff (ha : a.isFinite = true) (s : Sign) :
    rankOf (.zero s) ≤ rankOf a ↔ 0 ≤ value a := by
  cases a with
  | notANumber => contradiction
  | infinity t => contradiction
  | zero t => exact iff_of_true (le_refl _) (le_refl 0)
  | finite t m e hm =>
      cases t with
      | negative =>
          refine iff_of_false (by simp [rankOf, toLex_le_iff]) ?_
          exact not_le.mpr (neg_neg_of_pos (magnitude_pos hm e))
      | positive =>
          have hpositive : IsNonnegative (.finite .positive m e hm) := rfl
          exact iff_of_true (rankOf_zero_le hpositive s) (magnitude_pos hm e).le

theorem rankOf_le_zero_iff (ha : a.isFinite = true) (s : Sign) :
    rankOf a ≤ rankOf (.zero s) ↔ value a ≤ 0 := by
  rw [← rankOf_neg_le_neg_iff, ← neg_nonneg, ← value_neg]
  exact zero_le_rankOf_iff ((isFinite_neg a).trans ha) (-s)

theorem eq_finite_of_value_pos (h : 0 < value a) :
    ∃ (n : ℕ) (f : ℤ) (hn : 0 < n), a = .finite .positive n f hn := by
  cases a with
  | finite t n f hn =>
      cases t with
      | negative => exact absurd h (not_lt.mpr (neg_nonpos.mpr (magnitude_pos hn f).le))
      | positive => exact ⟨n, f, hn, rfl⟩
  | _ => exact absurd h (lt_irrefl _)

/-- A number below an exact value is not above what the value is rounded to. -/
theorem le_rankOf_normalize (hcanonical : IsCanonical a) (ha : a.isFinite = true)
    (hle : value a ≤ mantissa * 2 ^ e) (s : Sign) :
    rankOf a ≤ rankOf (UnpackedFloat.normalize .binary64 mantissa e s) := by
  rcases lt_trichotomy mantissa 0 with hneg | rfl | hpos
  · obtain ⟨m, hm, rfl⟩ : ∃ m : ℕ, 0 < m ∧ mantissa = -m := ⟨mantissa.natAbs, by omega, by omega⟩
    rw [Int.cast_neg, Int.cast_natCast, neg_mul] at hle
    have hle' : magnitude m e ≤ value a.neg := by
      rw [value_neg, magnitude]
      exact le_neg.mpr hle
    obtain ⟨n, f, hn, heq⟩ := eq_finite_of_value_pos ((magnitude_pos hm e).trans_le hle')
    rw [normalize_of_neg _ hneg, Int.neg_neg, Int.toNat_natCast, ← rankOf_neg_le_neg_iff, neg_round,
      heq]
    rw [heq] at hle'
    exact rankOf_round_le hm (heq ▸ hcanonical.neg) hle'
  · rw [normalize_zero]
    exact (rankOf_le_zero_iff ha s).mpr (by simpa using hle)
  · obtain ⟨m, hm, rfl⟩ : ∃ m : ℕ, 0 < m ∧ mantissa = m := ⟨mantissa.natAbs, by omega, by omega⟩
    rw [Int.cast_natCast] at hle
    rw [normalize_of_pos _ hpos, Int.toNat_natCast]
    rcases le_or_gt (value a) 0 with hvalue | hvalue
    · have hround : IsNonnegative (UnpackedFloat.round .binary64 .positive m e) :=
        isNonnegative_roundWithAccuracy _ _ _ _
      exact ((rankOf_le_zero_iff ha .positive).mpr hvalue).trans (rankOf_zero_le hround .positive)
    · obtain ⟨n, f, hn, rfl⟩ := eq_finite_of_value_pos hvalue
      exact le_rankOf_round hm hcanonical hle

theorem rankOf_normalize_le (hcanonical : IsCanonical a) (ha : a.isFinite = true)
    (hle : mantissa * 2 ^ e ≤ value a) (s : Sign) :
    rankOf (UnpackedFloat.normalize .binary64 mantissa e s) ≤ rankOf a := by
  rw [← rankOf_neg_le_neg_iff, neg_normalize]
  refine le_rankOf_normalize hcanonical.neg ((isFinite_neg a).trans ha) ?_ _
  rw [value_neg, Int.cast_neg, neg_mul]
  exact neg_le_neg hle

/-! ## Sums -/

theorem magnitude_decreaseExponent (m : ℕ) {e least : ℤ} (hle : least ≤ e) :
    magnitude (decreaseExponent m e least).1 least = magnitude m e := by
  have hshift := magnitude_shiftLeft m e (e - least).toNat
  rwa [show e - (e - least).toNat = least by omega] at hshift

theorem cast_apply_mul (s : Sign) (m : ℕ) (e : ℤ) {hm : 0 < n} {f : ℤ}
    (hmagnitude : magnitude m e = magnitude n f) :
    ((s.apply m : ℤ) : ℚ) * 2 ^ e = value (.finite s n f hm) := by
  cases s with
  | negative =>
      change ((-(m : ℤ) : ℤ) : ℚ) * 2 ^ e = -magnitude n f
      rw [Int.cast_neg, Int.cast_natCast, neg_mul, ← hmagnitude, magnitude]
  | positive =>
      change ((m : ℤ) : ℚ) * 2 ^ e = magnitude n f
      rw [Int.cast_natCast, ← hmagnitude, magnitude]

/-- Rounding changes no number of the format. -/
theorem exists_rankOf_normalize_eq (hcanonical : IsCanonical a) (ha : a.isFinite = true)
    (s : Sign) : ∃ mantissa e : ℤ, mantissa * 2 ^ e = value a ∧
      rankOf (UnpackedFloat.normalize .binary64 mantissa e s) = rankOf a := by
  have hrank {mantissa e : ℤ} (heq : mantissa * 2 ^ e = value a) :
      rankOf (UnpackedFloat.normalize .binary64 mantissa e s) = rankOf a :=
    le_antisymm (rankOf_normalize_le hcanonical ha heq.le s)
      (le_rankOf_normalize hcanonical ha heq.ge s)
  cases a with
  | notANumber => contradiction
  | infinity t => contradiction
  | zero t =>
      have heq : ((0 : ℤ) : ℚ) * 2 ^ (0 : ℤ) = value (.zero t) := by simp [value]
      exact ⟨0, 0, heq, hrank heq⟩
  | finite t n f hn =>
      have heq : ((t.apply n : ℤ) : ℚ) * 2 ^ f = value (.finite t n f hn) :=
        cast_apply_mul t n f rfl
      exact ⟨t.apply n, f, heq, hrank heq⟩

/-- The sum of two finite numbers is their exact sum, rounded. -/
theorem exists_rankOf_add (ha : IsCanonical a) (hfinite : a.isFinite = true)
    (hb : IsCanonical b) (hfinite' : b.isFinite = true) :
    ∃ mantissa e : ℤ, mantissa * 2 ^ e = value a + value b ∧
      rankOf (add .binary64 a b) =
        rankOf (UnpackedFloat.normalize .binary64 mantissa e .positive) := by
  cases b with
  | notANumber => contradiction
  | infinity t => contradiction
  | zero t =>
      obtain ⟨mantissa, e, hvalue, hrank⟩ := exists_rankOf_normalize_eq ha hfinite .positive
      have hsame : rankOf (add .binary64 a (.zero t)) = rankOf a := by
        cases a with
        | notANumber => contradiction
        | zero s => cases s <;> cases t <;> rfl
        | _ => rfl
      exact ⟨mantissa, e, hvalue.trans (add_zero _).symm, hsame.trans hrank.symm⟩
  | finite t n f hn =>
      cases a with
      | notANumber => contradiction
      | infinity s => contradiction
      | zero s =>
          obtain ⟨mantissa, e, hvalue, hrank⟩ := exists_rankOf_normalize_eq hb hfinite' .positive
          exact ⟨mantissa, e, hvalue.trans (zero_add _).symm, hrank.symm⟩
      | finite s m e hm =>
          refine ⟨s.apply (decreaseExponent m e (min e f)).1 +
            t.apply (decreaseExponent n f (min e f)).1, min e f, ?_, rfl⟩
          rw [Int.cast_add, add_mul,
            cast_apply_mul s _ _ (magnitude_decreaseExponent m (min_le_left e f)),
            cast_apply_mul t _ _ (magnitude_decreaseExponent n (min_le_right e f))]

theorem isCanonical_add (ha : IsCanonical a) (hb : IsCanonical b) :
    IsCanonical (add .binary64 a b) := by
  cases a with
  | notANumber => trivial
  | infinity s =>
      cases b with
      | infinity t => cases s <;> cases t <;> trivial
      | _ => trivial
  | zero s =>
      cases b with
      | zero t => cases s <;> cases t <;> trivial
      | finite t n f hn => exact hb
      | _ => trivial
  | finite s m e hm =>
      cases b with
      | zero t => exact ha
      | finite t n f hn => exact isCanonical_normalize _ _ _
      | _ => trivial

theorem rankOf_le_add (ha : IsCanonical a) (hfinite : a.isFinite = true) (hb : IsCanonical b)
    (hfinite' : b.isFinite = true) (hvalue : 0 ≤ value b) :
    rankOf a ≤ rankOf (add .binary64 a b) := by
  obtain ⟨mantissa, e, hsum, hrank⟩ := exists_rankOf_add ha hfinite hb hfinite'
  rw [hrank]
  refine le_rankOf_normalize ha hfinite ?_ _
  rw [hsum]
  exact le_add_of_nonneg_right hvalue

theorem rankOf_add_le (ha : IsCanonical a) (hfinite : a.isFinite = true) (hb : IsCanonical b)
    (hfinite' : b.isFinite = true) (hvalue : value b ≤ 0) :
    rankOf (add .binary64 a b) ≤ rankOf a := by
  obtain ⟨mantissa, e, hsum, hrank⟩ := exists_rankOf_add ha hfinite hb hfinite'
  rw [hrank]
  refine rankOf_normalize_le ha hfinite ?_ _
  rw [hsum]
  exact add_le_of_nonpos_right hvalue

/-! ## Sums of stored numbers -/

section Stored

variable {a b : Float} {k : ℤ}

theorem zero_le_iff (ha : a.isFinite = true) : 0 ≤ a ↔ 0 ≤ value a.toModel.unpack := by
  rw [le_iff, ← zero_le_rankOf_iff ha .positive]
  exact ⟨fun h => h.2.2, fun h => ⟨rfl, isNaN_of_isFinite ha, h⟩⟩

theorem le_zero_iff (ha : a.isFinite = true) : a ≤ 0 ↔ value a.toModel.unpack ≤ 0 := by
  rw [le_iff, ← rankOf_le_zero_iff ha .positive]
  exact ⟨fun h => h.2.2, fun h => ⟨isNaN_of_isFinite ha, rfl, h⟩⟩

/-- Two numbers that are far enough from the end of the format to have a finite sum. -/
structure Summable (k : ℤ) (a b : Float) : Prop where
  left : Bounded k a
  right : Bounded k b
  least : -1021 ≤ k
  greatest : k + 2 ≤ 1024

namespace Summable

theorem rank_add (h : Summable k a b) :
    rank (a + b) = rankOf (add .binary64 a.toModel.unpack b.toModel.unpack) :=
  congrArg rankOf (reading_eq_self
    (isCanonical_add (isCanonical_unpack _) (isCanonical_unpack _))
      (isWithin_add h.left h.right h.least) h.greatest)

theorem rank_sub (h : Summable k a b) :
    rank (a - b) = rankOf (add .binary64 a.toModel.unpack b.toModel.unpack.neg) := by
  change rankOf (reading (sub _ _ _)) = _
  rw [sub_eq_add_neg]
  exact congrArg rankOf (reading_eq_self
    (isCanonical_add (isCanonical_unpack _) (isCanonical_unpack _).neg)
      (isWithin_add h.left (isWithin_neg h.right) h.least) h.greatest)

theorem isNaN_left (h : Summable k a b) : a.isNaN = false := isNaN_of_isFinite h.left.isFinite

theorem isNaN_add (h : Summable k a b) : (a + b).isNaN = false :=
  isNaN_add_of_isFinite h.isNaN_left h.right.isFinite

theorem isNaN_sub (h : Summable k a b) : (a - b).isNaN = false :=
  isNaN_sub_of_isFinite h.isNaN_left h.right.isFinite

theorem le_add (h : Summable k a b) (hb : 0 ≤ b) : a ≤ a + b := by
  refine le_iff.mpr ⟨h.isNaN_left, h.isNaN_add, ?_⟩
  rw [h.rank_add]
  exact rankOf_le_add (isCanonical_unpack _) h.left.isFinite (isCanonical_unpack _)
    h.right.isFinite ((zero_le_iff h.right.isFinite).mp hb)

theorem add_le (h : Summable k a b) (hb : b ≤ 0) : a + b ≤ a := by
  refine le_iff.mpr ⟨h.isNaN_add, h.isNaN_left, ?_⟩
  rw [h.rank_add]
  exact rankOf_add_le (isCanonical_unpack _) h.left.isFinite (isCanonical_unpack _)
    h.right.isFinite ((le_zero_iff h.right.isFinite).mp hb)

theorem sub_le (h : Summable k a b) (hb : 0 ≤ b) : a - b ≤ a := by
  refine le_iff.mpr ⟨h.isNaN_sub, h.isNaN_left, ?_⟩
  rw [h.rank_sub]
  refine rankOf_add_le (isCanonical_unpack _) h.left.isFinite (isCanonical_unpack _).neg
    ((isFinite_neg _).trans h.right.isFinite) ?_
  rw [value_neg]
  exact neg_nonpos.mpr ((zero_le_iff h.right.isFinite).mp hb)

theorem le_sub (h : Summable k a b) (hb : b ≤ 0) : a ≤ a - b := by
  refine le_iff.mpr ⟨h.isNaN_left, h.isNaN_sub, ?_⟩
  rw [h.rank_sub]
  refine rankOf_le_add (isCanonical_unpack _) h.left.isFinite (isCanonical_unpack _).neg
    ((isFinite_neg _).trans h.right.isFinite) ?_
  rw [value_neg]
  exact neg_nonneg.mpr ((le_zero_iff h.right.isFinite).mp hb)

end Summable

end Stored

/-! ## Differences of equal numbers -/

theorem rankOf_sub_zero_left (s t : Sign) (b : UnpackedFloat) :
    rankOf (reading (sub .binary64 (.zero s) b)) =
      rankOf (reading (sub .binary64 (.zero t) b)) := by
  cases b with
  | zero u => cases s <;> cases t <;> cases u <;> rfl
  | _ => rfl

theorem rankOf_sub_zero_right (a : UnpackedFloat) (s t : Sign) :
    rankOf (reading (sub .binary64 a (.zero s))) =
      rankOf (reading (sub .binary64 a (.zero t))) := by
  cases a with
  | zero u => cases s <;> cases t <;> cases u <;> rfl
  | _ => rfl

/-- Equal numbers have equal differences: which of the zeros they are makes none. -/
theorem rank_sub_congr {a b c d : Float} (hac : (a == c) = true) (hbd : (b == d) = true) :
    rank (a - b) = rank (c - d) := by
  obtain ⟨ha, hc, hrank⟩ := beq_iff.mp hac
  obtain ⟨hb, hd, hrank'⟩ := beq_iff.mp hbd
  change rankOf (reading (sub _ _ _)) = rankOf (reading (sub _ _ _))
  have hleft (u : UnpackedFloat) : rankOf (reading (sub .binary64 a.toModel.unpack u)) =
      rankOf (reading (sub .binary64 c.toModel.unpack u)) := by
    rcases eq_or_zero_of_rankOf_eq ha hc hrank with h | ⟨s, t, h, h'⟩
    · rw [h]
    · rw [h, h', rankOf_sub_zero_left s t]
  have hright (u : UnpackedFloat) : rankOf (reading (sub .binary64 u b.toModel.unpack)) =
      rankOf (reading (sub .binary64 u d.toModel.unpack)) := by
    rcases eq_or_zero_of_rankOf_eq hb hd hrank' with h | ⟨s, t, h, h'⟩
    · rw [h]
    · rw [h, h', rankOf_sub_zero_right u s t]
  exact (hleft _).trans (hright _)

end PageSync.Binary64
