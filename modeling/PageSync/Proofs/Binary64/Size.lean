import PageSync.Proofs.Binary64.Packing

/-! # How large results are

A number below a power of two has a finite product, sum or quotient as long as
the powers stay within the range of the format. Bounds are rough: they leave
room for rounding, which may take a result up to the next power.
-/

namespace PageSync.Binary64

open Float.Model (Format UnpackedFloat totalExponent)
open Float.Model.UnpackedFloat

/-- A finite number whose magnitude is below the given power of two. -/
def IsWithin (k : ℤ) (u : UnpackedFloat) : Prop := ∃ s, IsFiniteOf s (k - 53) u

variable {a b : UnpackedFloat} {s : Sign} {k l : ℤ} {m n : ℕ} {e f : ℤ}

theorem IsWithin.mono (h : IsWithin k a) (hle : k ≤ l) : IsWithin l a := by
  obtain ⟨s, hs⟩ := h
  exact ⟨s, hs.mono (Int.sub_le_sub_right hle 53)⟩

theorem isWithin_zero (s : Sign) (k : ℤ) : IsWithin k (.zero s) := ⟨s, rfl⟩

/-- Numbers within the range of the format stay finite when they are stored. -/
theorem IsWithin.reading (h : IsWithin k a) (hleast : -1021 ≤ k) (hgreatest : k ≤ 1024) :
    IsWithin k (reading a) := by
  obtain ⟨s, hs⟩ := h
  cases a with
  | zero t =>
      rw [reading_zero]
      exact isWithin_zero t k
  | finite t m e hm =>
      have he : e ≤ k - 53 := hs.2.2
      rcases reading_finite t m e hm with ⟨-, hlarge⟩ | hfinite
      · omega
      · exact ⟨t, hfinite.mono (by omega)⟩
  | _ => contradiction

theorem mantissa_ofMantissaAndAccuracy (m : ℕ) (accuracy : Accuracy) :
    (ExtendedMantissa.ofMantissaAndAccuracy m accuracy).mantissa = m := by
  rcases accuracy with _ | _ | _ | _ <;> rfl

theorem mantissa_shiftRight (x : ExtendedMantissa) (n : ℕ) :
    (x >>> n).mantissa = x.mantissa / 2 ^ n := by
  change (Nat.repeat ExtendedMantissa.shiftRightOne n x).mantissa = _
  induction n with
  | zero => rw [Nat.repeat, Nat.pow_zero, Nat.div_one]
  | succ n ih =>
      rw [Nat.repeat, ExtendedMantissa.shiftRightOne, ih, Nat.div_div_eq_div_mul, Nat.pow_succ]

theorem roundedMantissa_le (x : ExtendedMantissa) : x.roundedMantissa ≤ x.mantissa + 1 := by
  rw [ExtendedMantissa.roundedMantissa]
  rcases x.accuracy with _ | _ | _ | _ <;> simp only [Accuracy.roundToNearestEven] <;> omega

theorem totalExponent_le (hm : m < 2 ^ (n + 1)) : totalExponent m e ≤ n + 1 + e := by
  have hlog : m.log2 < n + 1 := by
    rcases Nat.eq_zero_or_pos m with rfl | hpos
    · exact Nat.succ_pos n
    · exact (Nat.log2_lt (Nat.ne_of_gt hpos)).mpr hm
  rw [totalExponent]
  omega

/-- A shift to the target exponent leaves 53 bits. -/
theorem shiftToTargetExponent_le (m : ℕ) (e : ℤ) (accuracy : Accuracy) :
    (shiftToTargetExponent .binary64 m e accuracy).1.mantissa < 2 ^ 53 ∧
      (shiftToTargetExponent .binary64 m e accuracy).2 ≤
        max e (max (totalExponent m e - 53) (-1074)) ∧
      -1074 ≤ (shiftToTargetExponent .binary64 m e accuracy).2 := by
  have htarget : Format.binary64.targetExponent (totalExponent m e) =
      max (totalExponent m e - 53) (-1074) := rfl
  simp only [shiftToTargetExponent, shiftToExponent, htarget, mantissa_shiftRight,
    mantissa_ofMantissaAndAccuracy]
  refine ⟨?_, by omega, by omega⟩
  rw [Nat.div_lt_iff_lt_mul (Nat.two_pow_pos _), ← Nat.pow_add]
  refine Nat.lt_of_lt_of_le Nat.lt_log2_self (Nat.pow_le_pow_right (by decide) ?_)
  rw [totalExponent]
  omega

/-- Rounding adds at most one bit. -/
theorem isWithin_roundWithAccuracy (s : Sign) (accuracy : Accuracy) (he : e + 53 ≤ k)
    (htotal : totalExponent m e ≤ k) (hleast : -1021 ≤ k) :
    IsWithin (k + 1) (roundWithAccuracy .binary64 s m e accuracy) := by
  obtain ⟨hmantissa, hexponent, hlow⟩ := shiftToTargetExponent_le m e accuracy
  simp only [roundWithAccuracy]
  -- 53 bits may round up to 54, and a second shift brings them back to 53
  generalize shiftToTargetExponent .binary64 m e accuracy = shifted at *
  obtain ⟨hfinal, hfinalExponent, -⟩ :=
    shiftToTargetExponent_le shifted.1.roundedMantissa shifted.2 .exact
  have hrounded : shifted.1.roundedMantissa < 2 ^ 54 := by
    have hle := roundedMantissa_le shifted.1
    omega
  have hroundedTotal := @totalExponent_le _ 53 shifted.2 hrounded
  split
  next => exact isWithin_zero s _
  next => exact ⟨s, rfl, hfinal, by omega⟩

theorem isWithin_round (s : Sign) (htotal : totalExponent m e ≤ k) (hleast : -1021 ≤ k) :
    IsWithin (k + 1) (UnpackedFloat.round .binary64 s m e) := by
  have htarget : Format.binary64.targetExponent (totalExponent m e) =
      max (totalExponent m e - 53) (-1074) := rfl
  simp only [UnpackedFloat.round, decreaseExponent, htarget]
  generalize hshift : (e - max (totalExponent m e - 53) (-1074)).toNat = shift
  have hshifted : m <<< shift < 2 ^ (m.log2 + shift + 1) := by
    rw [Nat.shiftLeft_eq, Nat.add_right_comm, Nat.pow_add]
    exact Nat.mul_lt_mul_of_pos_right Nat.lt_log2_self (Nat.two_pow_pos shift)
  have hshiftedTotal := totalExponent_le (e := e - shift) hshifted
  rw [totalExponent] at htotal hshift
  exact isWithin_roundWithAccuracy s .exact (by omega) (by omega) hleast

theorem isWithin_normalize {mantissa : ℤ} (hm : mantissa.natAbs < 2 ^ (n + 1))
    (hn : n + 1 + e ≤ k) (hleast : -1021 ≤ k) (s : Sign) :
    IsWithin (k + 1) (UnpackedFloat.normalize .binary64 mantissa e s) := by
  simp only [UnpackedFloat.normalize]
  split
  next hlt =>
    have habs : (-mantissa).toNat < 2 ^ (n + 1) := by
      omega
    exact isWithin_round .negative (Int.le_trans (totalExponent_le habs) hn) hleast
  next => exact isWithin_zero s _
  next =>
    have habs : mantissa.toNat < 2 ^ (n + 1) := by
      omega
    exact isWithin_round .positive (Int.le_trans (totalExponent_le habs) hn) hleast

theorem isWithin_mul (ha : IsWithin k a) (hb : IsWithin l b) (hleast : -1021 ≤ k + l) :
    IsWithin (k + l + 1) (mul .binary64 a b) := by
  obtain ⟨s, hs⟩ := ha
  obtain ⟨t, ht⟩ := hb
  cases a with
  | zero s' =>
      cases b with
      | zero t' => exact isWithin_zero _ _
      | finite t' n f hn => exact isWithin_zero _ _
      | _ => contradiction
  | finite s' m e hm =>
      cases b with
      | zero t' => exact isWithin_zero _ _
      | finite t' n f hn =>
          have hmantissa : m * n < 2 ^ 53 * 2 ^ 53 := Nat.mul_lt_mul'' hs.2.1 ht.2.1
          rw [show 2 ^ 53 * 2 ^ 53 = 2 ^ (105 + 1) from rfl] at hmantissa
          have htotal := @totalExponent_le _ _ (e + f) hmantissa
          have he : e ≤ k - 53 := hs.2.2
          have hf : f ≤ l - 53 := ht.2.2
          exact isWithin_roundWithAccuracy _ _ (by omega) (by omega) hleast
      | _ => contradiction
  | _ => contradiction

/-- A mantissa that is brought to a lower exponent stays below the same power. -/
theorem decreaseExponent_lt (least : ℤ) (hm : m < 2 ^ 53) (he : e ≤ k - 53) :
    (decreaseExponent m e least).1 < 2 ^ (53 + (k - 53 - least).toNat) := by
  rw [decreaseExponent, Nat.shiftLeft_eq, Nat.pow_add]
  refine Nat.mul_lt_mul_of_lt_of_le hm ?_ (Nat.two_pow_pos _)
  exact Nat.pow_le_pow_right (by decide) (by omega)

/-- Sums of two mantissas that are brought to one exponent, whatever their signs. -/
theorem isWithin_normalize_aligned (hm : m < 2 ^ 53) (hn : n < 2 ^ 53) (he : e ≤ k - 53)
    (hf : f ≤ k - 53) (hleast : -1021 ≤ k) (s : Sign) {mantissa : ℤ}
    (habs : mantissa.natAbs ≤
      (decreaseExponent m e (min e f)).1 + (decreaseExponent n f (min e f)).1) :
    IsWithin (k + 2) (UnpackedFloat.normalize .binary64 mantissa (min e f) s) := by
  have hm' := decreaseExponent_lt (min e f) hm he
  have hn' := decreaseExponent_lt (min e f) hn hf
  have hsum : mantissa.natAbs < 2 ^ (53 + (k - 53 - min e f).toNat + 1) := by
    rw [Nat.pow_succ]
    omega
  have htop : ((53 + (k - 53 - min e f).toNat : ℕ) : ℤ) + 1 + min e f ≤ k + 1 := by
    omega
  have hwithin := isWithin_normalize hsum htop (by omega) s
  rwa [Int.add_assoc] at hwithin

theorem natAbs_apply (s : Sign) (n : ℕ) : (s.apply n).natAbs = n := by
  cases s with
  | negative => exact (Int.natAbs_neg n).trans (Int.natAbs_natCast n)
  | positive => exact Int.natAbs_natCast n

theorem IsWithin.withSign {hm : 0 < m} (h : IsWithin k (.finite s m e hm)) (t : Sign) :
    IsWithin k (.finite t m e hm) := by
  obtain ⟨_, hs⟩ := h
  exact ⟨t, rfl, hs.2⟩

theorem isWithin_add (ha : IsWithin k a) (hb : IsWithin k b) (hleast : -1021 ≤ k) :
    IsWithin (k + 2) (add .binary64 a b) := by
  have hle : k ≤ k + 2 := by omega
  obtain ⟨s, hs⟩ := id ha
  obtain ⟨t, ht⟩ := id hb
  cases a with
  | zero s' =>
      cases b with
      | zero t' => cases s' <;> cases t' <;> exact isWithin_zero _ _
      | finite t' n f hn => exact hb.mono hle
      | _ => contradiction
  | finite s' m e hm =>
      cases b with
      | zero t' => exact ha.mono hle
      | finite t' n f hn =>
          refine isWithin_normalize_aligned hs.2.1 ht.2.1 hs.2.2 ht.2.2 hleast _ ?_
          refine Nat.le_trans (Int.natAbs_add_le _ _) ?_
          rw [natAbs_apply, natAbs_apply]
          exact Nat.le_refl _
      | _ => contradiction
  | _ => contradiction

theorem isWithin_neg (ha : IsWithin k a) : IsWithin k a.neg := by
  obtain ⟨s, hs⟩ := id ha
  cases a with
  | zero s' => exact isWithin_zero _ _
  | finite s' m e hm => exact ha.withSign _
  | _ => contradiction

/-- A number that is divided by one of at least the given exponent. -/
theorem isWithin_div (ha : IsWithin k a) (hn : 0 < n) (hf : -l ≤ f) (t : Sign)
    (hleast : -1021 ≤ k + l) :
    IsWithin (k + l + 1) (div .binary64 a (.finite t n f hn)) := by
  obtain ⟨s, hs⟩ := ha
  cases a with
  | zero s' => exact isWithin_zero _ _
  | finite s' m e hm =>
      have he : e ≤ k - 53 := hs.2.2
      have hm' : m < 2 ^ 53 := hs.2.1
      simp only [div, divCore]
      generalize hlow : min (e - f)
        (Format.binary64.targetExponent (totalExponent m e - totalExponent n f)) = low
      have hquotient : m <<< (e - f - low).toNat / n < 2 ^ (52 + (e - f - low).toNat + 1) := by
        refine Nat.lt_of_le_of_lt (Nat.div_le_self _ _) ?_
        rw [Nat.shiftLeft_eq, Nat.add_right_comm, Nat.pow_add]
        exact Nat.mul_lt_mul_of_pos_right hm' (Nat.two_pow_pos _)
      have htotal := @totalExponent_le _ _ low hquotient
      exact isWithin_roundWithAccuracy _ _ (by omega) (by omega) hleast
  | _ => contradiction

/-! ## Results that are numbers -/

theorem isNaN_roundWithAccuracy (spec : Format) (s : Sign) (m : ℕ) (e : ℤ) (accuracy : Accuracy) :
    (roundWithAccuracy spec s m e accuracy).isNaN = false := by
  simp only [roundWithAccuracy]
  split
  next => rfl
  next => rfl

theorem isNaN_normalize (spec : Format) (mantissa e : ℤ) (s : Sign) :
    (UnpackedFloat.normalize spec mantissa e s).isNaN = false := by
  simp only [UnpackedFloat.normalize]
  split
  next => exact isNaN_roundWithAccuracy spec _ _ _ _
  next => rfl
  next => exact isNaN_roundWithAccuracy spec _ _ _ _

theorem isNaN_add (spec : Format) (ha : a.isNaN = false) (hb : b.isFinite = true) :
    (add spec a b).isNaN = false := by
  cases b with
  | notANumber => contradiction
  | infinity t => contradiction
  | zero t =>
      cases a with
      | notANumber => contradiction
      | zero s => cases s <;> cases t <;> rfl
      | _ => rfl
  | finite t n f hn =>
      cases a with
      | notANumber => contradiction
      | finite s m e hm => exact isNaN_normalize spec _ _ _
      | _ => rfl

theorem apply_neg (s : Sign) (n : ℤ) : (-s).apply n = -s.apply n := by
  cases s with
  | negative => exact (Int.neg_neg n).symm
  | positive => rfl

theorem sub_eq_add_neg (spec : Format) (a b : UnpackedFloat) : sub spec a b = add spec a b.neg := by
  cases a with
  | notANumber => rfl
  | finite s m e hm =>
      cases b with
      | finite t n f hn => simp only [sub, add, UnpackedFloat.neg, apply_neg, Int.sub_eq_add_neg]
      | _ => rfl
  | zero s =>
      cases b with
      | zero t => rfl
      | _ => rfl
  | infinity s =>
      cases b with
      | infinity t => rfl
      | _ => rfl

theorem isNaN_sub (spec : Format) (ha : a.isNaN = false) (hb : b.isFinite = true) :
    (sub spec a b).isNaN = false := by
  have hneg : b.neg.isFinite = true := by
    cases b with
    | zero t => rfl
    | finite t n f hn => rfl
    | _ => contradiction
  rw [sub_eq_add_neg]
  exact isNaN_add spec ha hneg

/-! ## Stored numbers -/

theorem isNaN_add_of_isFinite {a b : Float} (ha : a.isNaN = false) (hb : b.isFinite = true) :
    (a + b).isNaN = false :=
  isNaN_reading (isNaN_add .binary64 ha hb)

theorem isNaN_sub_of_isFinite {a b : Float} (ha : a.isNaN = false) (hb : b.isFinite = true) :
    (a - b).isNaN = false :=
  isNaN_reading (isNaN_sub .binary64 ha hb)

theorem isNaN_of_isFinite {a : Float} (ha : a.isFinite = true) : a.isNaN = false := by
  change a.toModel.unpack.isFinite = true at ha
  change a.toModel.unpack.isNaN = false
  generalize a.toModel.unpack = u at ha
  cases u with
  | notANumber => contradiction
  | _ => rfl

/-- A finite number whose magnitude is below the given power of two. -/
def Bounded (k : ℤ) (a : Float) : Prop := IsWithin k a.toModel.unpack

namespace Bounded

variable {a b : Float} {k l : ℤ}

theorem of_unpack {s : Sign} {m : ℕ} {e : ℤ} {hm : 0 < m}
    (h : a.toModel.unpack = .finite s m e hm) (hmantissa : m < 2 ^ 53) (he : e ≤ k - 53) :
    Bounded k a := by
  rw [Bounded, h]
  exact ⟨s, rfl, hmantissa, he⟩

theorem isFinite (h : Bounded k a) : a.isFinite = true := by
  obtain ⟨s, hs⟩ := h
  change a.toModel.unpack.isFinite = true
  generalize a.toModel.unpack = u at hs
  cases u with
  | zero t => rfl
  | finite t m e hm => rfl
  | _ => contradiction

theorem mul (ha : Bounded k a) (hb : Bounded l b) (hleast : -1021 ≤ k + l)
    (hgreatest : k + l + 1 ≤ 1024) : Bounded (k + l + 1) (a * b) :=
  (isWithin_mul ha hb hleast).reading (by omega) hgreatest

theorem add (ha : Bounded k a) (hb : Bounded k b) (hleast : -1021 ≤ k)
    (hgreatest : k + 2 ≤ 1024) : Bounded (k + 2) (a + b) :=
  (isWithin_add ha hb hleast).reading (by omega) hgreatest

theorem sub (ha : Bounded k a) (hb : Bounded k b) (hleast : -1021 ≤ k)
    (hgreatest : k + 2 ≤ 1024) : Bounded (k + 2) (a - b) := by
  change IsWithin _ (Binary64.reading (UnpackedFloat.sub _ _ _))
  rw [sub_eq_add_neg]
  exact (isWithin_add ha (isWithin_neg hb) hleast).reading (by omega) hgreatest

theorem neg (ha : Bounded k a) (hleast : -1021 ≤ k) (hgreatest : k ≤ 1024) :
    Bounded k (-a) :=
  (isWithin_neg ha).reading hleast hgreatest

theorem div (ha : Bounded k a) {s : Sign} {m : ℕ} {e : ℤ} {hm : 0 < m}
    (hb : b.toModel.unpack = .finite s m e hm) (hl : -l ≤ e) (hleast : -1021 ≤ k + l)
    (hgreatest : k + l + 1 ≤ 1024) : Bounded (k + l + 1) (a / b) := by
  have hwithin := (isWithin_div ha hm hl s hleast).reading (by omega) hgreatest
  rwa [← hb] at hwithin

end Bounded

/-- Whole numbers of 64 bits, also if they have more bits than a mantissa. -/
theorem isWithin_ofScientific {n : ℕ} (hn : n < 2 ^ 64) :
    IsWithin 65 (UnpackedFloat.ofScientific .binary64 n 0) := by
  rw [UnpackedFloat.ofScientific]
  split
  next => exact isWithin_zero _ _
  next =>
    have hbits : (2 : ℤ) ^ Format.binary64.exponentBits = 2048 := rfl
    have hmantissaBits : Format.binary64.mantissaBits = 53 := rfl
    rw [if_neg (by decide), if_neg (by omega), if_pos (by decide)]
    simp only [mul, hmantissaBits]
    have hm : n <<< 53 * 10 ^ Int.toNat 0 < 2 ^ (116 + 1) := by
      rw [Nat.shiftLeft_eq, Int.toNat_zero]
      omega
    have htotal := @totalExponent_le _ _ (-(53 : ℕ) + 0) hm
    exact isWithin_roundWithAccuracy (k := 64) _ _ (by decide) (by omega) (by decide)

theorem unpack_ofBits_one : (Float.ofBits 0x3FF0000000000000).toModel.unpack =
    .finite .positive (2 ^ 52) (-52) (by decide) := by
  rfl

theorem bounded_ofNat {n : ℕ} (hn : n < 2 ^ 64) : Bounded 67 (Float.ofNat n) := by
  change Bounded 67 (Float.ofScientific n false 0)
  rw [Float.ofScientific]
  split
  next =>
    have hword : (n.toUInt64.toNat : ℤ).natAbs < 2 ^ (63 + 1) := n.toUInt64.toNat_lt
    have hleft : Bounded 65 n.toUInt64.toFloat :=
      (isWithin_normalize (k := 64) (e := 0) hword (by decide) (by decide) .positive).reading
        (by decide) (by decide)
    have hpower : 0 < Float.exactlyRepresentablePowersOfTen.size := by decide
    have hone : Bounded 1 Float.exactlyRepresentablePowersOfTen[0] :=
      .of_unpack unpack_ofBits_one (by decide) (by decide)
    exact hleft.mul hone (by decide) (by decide)
  next =>
    have hwithin := (isWithin_ofScientific hn).reading (by decide) (by decide)
    exact IsWithin.mono hwithin (by decide)

theorem bounded_ofInt {n : ℤ} (hn : n.natAbs < 2 ^ 64) : Bounded 67 (Float.ofInt n) := by
  cases n with
  | ofNat n => exact bounded_ofNat hn
  | negSucc n => exact (bounded_ofNat hn).neg (by decide) (by decide)

end PageSync.Binary64
