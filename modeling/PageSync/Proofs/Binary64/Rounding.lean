import PageSync.Proofs.Binary64.Sign
import PageSync.Proofs.Binary64.Size

/-! # Rounding keeps the order

An exact result has as many bits as it needs, and all but the first 53 are
rounded off, or those below the least exponent. The rounded number differs from
the exact one by less than one unit of its last bit. So it does not pass any
number of the format: whatever is at most the exact result is at most the rounded
one, and whatever is at least the exact result is at least the rounded one.
-/

namespace PageSync.Binary64

open Float.Model (Format UnpackedFloat totalExponent)
open Float.Model.UnpackedFloat

variable {s : Sign} {m n shift : ℕ} {e f : ℤ}

/-! ## Rounded mantissas -/

/-- The mantissa without its last bits, rounded. -/
def roundOff (m shift : ℕ) : ℕ :=
  (ExtendedMantissa.ofMantissaAndAccuracy m .exact >>> shift).roundedMantissa

/-- Nothing is lost by a shift over zero bits. -/
theorem accuracy_shiftRight_of_dvd (h : 2 ^ shift ∣ m) :
    (ExtendedMantissa.ofMantissaAndAccuracy m .exact >>> shift).accuracy = .exact := by
  suffices hbits : (ExtendedMantissa.ofMantissaAndAccuracy m .exact >>> shift).roundBit = false ∧
      (ExtendedMantissa.ofMantissaAndAccuracy m .exact >>> shift).stickyBit = false by
    generalize ExtendedMantissa.ofMantissaAndAccuracy m .exact >>> shift = x at hbits
    obtain ⟨mantissa, _, _⟩ := x
    obtain ⟨rfl, rfl⟩ := hbits
    rfl
  induction shift with
  | zero => exact ⟨rfl, rfl⟩
  | succ shift ih =>
      obtain ⟨hround, hsticky⟩ := ih ((Nat.pow_dvd_pow 2 (Nat.le_succ shift)).trans h)
      have heven : 2 ∣ m / 2 ^ shift := by
        rw [Nat.pow_succ] at h
        exact Nat.dvd_div_of_mul_dvd h
      have hstep : ExtendedMantissa.ofMantissaAndAccuracy m .exact >>> (shift + 1) =
        (ExtendedMantissa.ofMantissaAndAccuracy m .exact >>> shift).shiftRightOne := rfl
      simp only [hstep, ExtendedMantissa.shiftRightOne, hround, hsticky, mantissa_shiftRight,
        mantissa_ofMantissaAndAccuracy, Nat.mod_eq_zero_of_dvd heven]
      exact ⟨rfl, rfl⟩

theorem le_roundedMantissa (x : ExtendedMantissa) : x.mantissa ≤ x.roundedMantissa := by
  rw [ExtendedMantissa.roundedMantissa]
  rcases x.accuracy with _ | _ | _ | _ <;> simp only [Accuracy.roundToNearestEven] <;> omega

theorem mantissa_exact_shiftRight (m shift : ℕ) :
    (ExtendedMantissa.ofMantissaAndAccuracy m .exact >>> shift).mantissa = m / 2 ^ shift := by
  rw [mantissa_shiftRight, mantissa_ofMantissaAndAccuracy]

theorem lt_roundOff (m shift : ℕ) : m < (roundOff m shift + 1) * 2 ^ shift := by
  have hle := le_roundedMantissa (ExtendedMantissa.ofMantissaAndAccuracy m .exact >>> shift)
  rw [mantissa_exact_shiftRight] at hle
  exact Nat.lt_mul_of_div_lt (Nat.lt_succ_of_le hle) (Nat.two_pow_pos shift)

theorem roundOff_lt (m shift : ℕ) : roundOff m shift * 2 ^ shift < m + 2 ^ shift := by
  by_cases hdvd : 2 ^ shift ∣ m
  · have hexact : roundOff m shift = m / 2 ^ shift := by
      rw [roundOff, ExtendedMantissa.roundedMantissa, accuracy_shiftRight_of_dvd hdvd,
        mantissa_exact_shiftRight]
      rfl
    rw [hexact, Nat.div_mul_cancel hdvd]
    exact Nat.lt_add_of_pos_right (Nat.two_pow_pos shift)
  · have hlt : m / 2 ^ shift * 2 ^ shift < m :=
      Nat.lt_of_le_of_ne (Nat.div_mul_le_self m _) fun heq => hdvd ⟨_, by rw [mul_comm, heq]⟩
    have hle := roundedMantissa_le (ExtendedMantissa.ofMantissaAndAccuracy m .exact >>> shift)
    rw [mantissa_exact_shiftRight] at hle
    calc roundOff m shift * 2 ^ shift ≤ (m / 2 ^ shift + 1) * 2 ^ shift :=
          Nat.mul_le_mul_right _ hle
      _ = m / 2 ^ shift * 2 ^ shift + 2 ^ shift := Nat.succ_mul _ _
      _ < m + 2 ^ shift := Nat.add_lt_add_right hlt _

/-! ## Rounded numbers -/

/-- The exponent of the last bit that is kept of a number. -/
def lastExponent (m : ℕ) (e : ℤ) : ℤ := max (totalExponent m e - 53) (-1074)

theorem lastExponent_shiftLeft (hm : 0 < m) (e : ℤ) (shift : ℕ) :
    lastExponent (m <<< shift) (e - shift) = lastExponent m e := by
  have hlog : (m <<< shift).log2 = m.log2 + shift := by
    rw [Nat.shiftLeft_eq,
      Nat.log2_eq_iff (Nat.ne_of_gt (Nat.mul_pos hm (Nat.two_pow_pos shift))), Nat.pow_add,
      Nat.add_right_comm, Nat.pow_add]
    exact ⟨Nat.mul_le_mul_right _ (Nat.log2_self_le (Nat.ne_of_gt hm)),
      Nat.mul_lt_mul_of_pos_right Nat.lt_log2_self (Nat.two_pow_pos shift)⟩
  rw [lastExponent, lastExponent, totalExponent, totalExponent, hlog]
  omega

theorem shiftToTargetExponent_exact (m : ℕ) (e : ℤ) :
    shiftToTargetExponent .binary64 m e .exact =
      (ExtendedMantissa.ofMantissaAndAccuracy m .exact >>> (lastExponent m e - e).toNat,
        e + (lastExponent m e - e).toNat) := rfl

/-- A mantissa of 53 bits stays where it is. -/
theorem shiftToTargetExponent_of_lt {r : ℕ} {t : ℤ} (hr : r < 2 ^ 53) (ht : -1074 ≤ t) :
    shiftToTargetExponent .binary64 r t .exact =
      (ExtendedMantissa.ofMantissaAndAccuracy r .exact, t) := by
  have htotal := @totalExponent_le r 52 t hr
  have hshift : (lastExponent r t - t).toNat = 0 := by
    rw [lastExponent]
    omega
  rw [shiftToTargetExponent_exact, hshift, Int.natCast_zero, Int.add_zero]
  rfl

/-- A carry out of 53 bits takes one bit off. -/
theorem shiftToTargetExponent_two_pow {t : ℤ} (ht : -1074 ≤ t) :
    shiftToTargetExponent .binary64 (2 ^ 53) t .exact =
      (ExtendedMantissa.ofMantissaAndAccuracy (2 ^ 53) .exact >>> 1, t + 1) := by
  have hshift : (lastExponent (2 ^ 53) t - t).toNat = 1 := by
    rw [lastExponent, totalExponent, Nat.log2_two_pow]
    omega
  rw [shiftToTargetExponent_exact, hshift, Int.natCast_one]

/-- A number whose last kept bits are rounded. A carry out of them adds to the exponent. -/
inductive Keeps (s : Sign) (r : ℕ) (t : ℤ) : UnpackedFloat → Prop
  | nothing (hr : r = 0) : Keeps s r t (.zero s)
  | bits (hr : 0 < r) (hlt : r < 2 ^ 53) : Keeps s r t (.finite s r t hr)
  | carry (hr : r = 2 ^ 53) : Keeps s r t (.finite s (2 ^ 52) (t + 1) (by decide))

theorem keeps_roundWithAccuracy (s : Sign) (h : e ≤ lastExponent m e) :
    Keeps s (roundOff m (lastExponent m e - e).toNat) (lastExponent m e)
      (roundWithAccuracy .binary64 s m e .exact) := by
  have hlt := (shiftToTargetExponent_le m e .exact).1
  have hle := roundedMantissa_le (shiftToTargetExponent .binary64 m e .exact).1
  have hround : (shiftToTargetExponent .binary64 m e .exact).1.roundedMantissa =
      roundOff m (lastExponent m e - e).toNat := rfl
  have hexponent : (shiftToTargetExponent .binary64 m e .exact).2 = lastExponent m e := by
    rw [shiftToTargetExponent_exact]
    omega
  have hleast : -1074 ≤ lastExponent m e := le_max_right _ _
  rw [← hround, ← hexponent]
  rw [← hexponent] at hleast
  simp only [roundWithAccuracy]
  generalize shiftToTargetExponent .binary64 m e .exact = shifted at hlt hle hleast ⊢
  obtain ⟨x, t⟩ := shifted
  simp only at hlt hle hleast ⊢
  -- 53 bits may round up to 54, and a second shift brings them back to 53
  generalize x.roundedMantissa = r at hle ⊢
  rcases Nat.lt_or_eq_of_le (show r ≤ 2 ^ 53 by omega) with hr | rfl
  · simp only [shiftToTargetExponent_of_lt hr hleast]
    split
    next hzero => exact .nothing hzero
    next hpos => exact .bits (Nat.pos_of_ne_zero hpos) hr
  · simp only [shiftToTargetExponent_two_pow hleast]
    exact .carry rfl

/-- The exact size of a number. -/
def magnitude (m : ℕ) (e : ℤ) : ℚ := m * 2 ^ e

theorem magnitude_shiftLeft (m : ℕ) (e : ℤ) (shift : ℕ) :
    magnitude (m <<< shift) (e - shift) = magnitude m e := by
  rw [magnitude, magnitude, Nat.shiftLeft_eq, zpow_sub₀ two_ne_zero, zpow_natCast]
  push_cast
  field_simp

theorem magnitude_lt_zpow (hm : m < 2 ^ n) (e : ℤ) : magnitude m e < 2 ^ (n + e) := by
  rw [magnitude, zpow_add₀ two_ne_zero, zpow_natCast]
  exact mul_lt_mul_of_pos_right (by exact_mod_cast hm) (zpow_pos two_pos e)

theorem zpow_le_magnitude (hm : 2 ^ n ≤ m) (e : ℤ) : 2 ^ (n + e) ≤ magnitude m e := by
  rw [magnitude, zpow_add₀ two_ne_zero, zpow_natCast]
  exact mul_le_mul_of_nonneg_right (by exact_mod_cast hm) (zpow_nonneg two_pos.le e)

/-- A number and its kept bits, which differ by less than one unit of the last of them. -/
structure Rounds (m : ℕ) (e : ℤ) (r : ℕ) : Prop where
  lt : (r : ℚ) * 2 ^ lastExponent m e < magnitude m e + 2 ^ lastExponent m e
  gt : magnitude m e < (r + 1) * 2 ^ lastExponent m e

theorem Rounds.of_shiftLeft {r : ℕ} (hm : 0 < m) (h : Rounds (m <<< shift) (e - shift) r) :
    Rounds m e r := by
  obtain ⟨hlt, hgt⟩ := h
  rw [magnitude_shiftLeft, lastExponent_shiftLeft hm] at hlt hgt
  exact ⟨hlt, hgt⟩

theorem rounds_roundOff (h : e ≤ lastExponent m e) :
    Rounds m e (roundOff m (lastExponent m e - e).toNat) := by
  generalize hshift : (lastExponent m e - e).toNat = shift
  have hpower : (2 : ℚ) ^ lastExponent m e = 2 ^ shift * 2 ^ e := by
    rw [← zpow_natCast, ← zpow_add₀ two_ne_zero]
    congr 1
    omega
  have hunit : (0 : ℚ) < 2 ^ e := zpow_pos two_pos e
  have hlt : (roundOff m shift : ℚ) * 2 ^ shift < m + 2 ^ shift := by
    exact_mod_cast roundOff_lt m shift
  have hgt : (m : ℚ) < (roundOff m shift + 1) * 2 ^ shift := by
    exact_mod_cast lt_roundOff m shift
  replace hlt := mul_lt_mul_of_pos_right hlt hunit
  replace hgt := mul_lt_mul_of_pos_right hgt hunit
  constructor
  · rw [hpower, magnitude]
    linarith
  · rw [hpower, magnitude]
    linarith

theorem exists_rounds (s : Sign) (hm : 0 < m) (e : ℤ) :
    ∃ r, Rounds m e r ∧ Keeps s r (lastExponent m e) (UnpackedFloat.round .binary64 s m e) := by
  obtain ⟨k, hk⟩ : ∃ k, k = (e - lastExponent m e).toNat := ⟨_, rfl⟩
  have hlast := lastExponent_shiftLeft hm e k
  have hround : UnpackedFloat.round .binary64 s m e =
      roundWithAccuracy .binary64 s (m <<< k) (e - k) .exact := by
    rw [hk]
    rfl
  have hle : e - k ≤ lastExponent (m <<< k) (e - k) := by omega
  have hkeeps := keeps_roundWithAccuracy s hle
  rw [hlast, ← hround] at hkeeps
  exact ⟨_, Rounds.of_shiftLeft hm (hlast ▸ rounds_roundOff hle), hkeeps⟩

namespace Rounds

variable {r : ℕ}

theorem le_of_le (h : Rounds m e r) (hle : magnitude m e ≤ magnitude n (lastExponent m e)) :
    r ≤ n := by
  have hlt : (r : ℚ) * 2 ^ lastExponent m e < (n + 1) * 2 ^ lastExponent m e :=
    calc (r : ℚ) * 2 ^ lastExponent m e < magnitude m e + 2 ^ lastExponent m e := h.lt
      _ ≤ magnitude n (lastExponent m e) + 2 ^ lastExponent m e := by linarith
      _ = (n + 1) * 2 ^ lastExponent m e := by rw [magnitude, add_mul, one_mul]
  apply Nat.le_of_lt_succ
  exact_mod_cast lt_of_mul_lt_mul_right hlt (zpow_nonneg two_pos.le _)

theorem ge_of_ge (h : Rounds m e r) (hle : magnitude n (lastExponent m e) ≤ magnitude m e) :
    n ≤ r := by
  have hlt : (n : ℚ) * 2 ^ lastExponent m e < (r + 1) * 2 ^ lastExponent m e :=
    lt_of_le_of_lt hle h.gt
  apply Nat.le_of_lt_succ
  exact_mod_cast lt_of_mul_lt_mul_right hlt (zpow_nonneg two_pos.le _)

/-- 53 bits are kept unless the least exponent forbids it. -/
theorem le_or_eq (h : Rounds m e r) (hm : 0 < m) :
    2 ^ 52 ≤ r ∨ lastExponent m e = -1074 := by
  by_cases hlast : lastExponent m e = -1074
  · exact Or.inr hlast
  · left
    have htotal : lastExponent m e = m.log2 + e - 52 := by
      rw [lastExponent, totalExponent] at hlast ⊢
      omega
    have hle := zpow_le_magnitude (Nat.log2_self_le (Nat.ne_of_gt hm)) e
    have hpower : magnitude (2 ^ 52) (lastExponent m e) = 2 ^ (m.log2 + e) := by
      rw [magnitude, Nat.cast_pow, Nat.cast_ofNat, ← zpow_natCast, ← zpow_add₀ two_ne_zero, htotal]
      congr 1
      omega
    exact h.ge_of_ge (hpower ▸ hle)

end Rounds

theorem isCanonical_round (s : Sign) (hm : 0 < m) (e : ℤ) :
    IsCanonical (UnpackedFloat.round .binary64 s m e) := by
  obtain ⟨r, hrounds, hkeeps⟩ := exists_rounds s hm e
  have hleast : -1074 ≤ lastExponent m e := le_max_right _ _
  generalize UnpackedFloat.round .binary64 s m e = u at hkeeps ⊢
  cases hkeeps with
  | nothing hr => trivial
  | bits hr hlt => exact ⟨hlt, hleast, hrounds.le_or_eq hm⟩
  | carry hr => exact ⟨by decide, by omega, Or.inl (Nat.le_refl _)⟩

/-! ## The order of rounded numbers -/

variable {hn : 0 < n}

theorem rankOf_round_le (hm : 0 < m) (hcanonical : IsCanonical (.finite .positive n f hn))
    (hle : magnitude m e ≤ magnitude n f) :
    rankOf (UnpackedFloat.round .binary64 .positive m e) ≤ rankOf (.finite .positive n f hn) := by
  obtain ⟨hlt, hleast, hleading⟩ := hcanonical
  obtain ⟨r, hrounds, hkeeps⟩ := exists_rounds .positive hm e
  have hlast : lastExponent m e ≤ f := by
    have hpower : (2 : ℚ) ^ (m.log2 + e) < 2 ^ (53 + f) :=
      calc (2 : ℚ) ^ (m.log2 + e) ≤ magnitude m e :=
            zpow_le_magnitude (Nat.log2_self_le (Nat.ne_of_gt hm)) e
        _ ≤ magnitude n f := hle
        _ < 2 ^ (53 + f) := magnitude_lt_zpow hlt f
    rw [zpow_lt_zpow_iff_right₀ one_lt_two] at hpower
    rw [lastExponent, totalExponent]
    omega
  generalize UnpackedFloat.round .binary64 .positive m e = u at hkeeps ⊢
  have hfirst : -1074 ≤ lastExponent m e := le_max_right _ _
  have hr : lastExponent m e = f → r ≤ n := fun heq => hrounds.le_of_le (heq ▸ hle)
  cases hkeeps with
  | nothing => exact (toLex_le_iff ..).mpr (Or.inl (by decide))
  | bits => exact (toLex_le_iff ..).mpr (by omega)
  -- above the least exponent a carry leads to the least mantissa of the next one
  | carry => exact (toLex_le_iff ..).mpr (by omega)

theorem le_rankOf_round (hm : 0 < m) (hcanonical : IsCanonical (.finite .positive n f hn))
    (hle : magnitude n f ≤ magnitude m e) :
    rankOf (.finite .positive n f hn) ≤ rankOf (UnpackedFloat.round .binary64 .positive m e) := by
  obtain ⟨hlt, hleast, hleading⟩ := hcanonical
  obtain ⟨r, hrounds, hkeeps⟩ := exists_rounds .positive hm e
  have hlast : f ≤ lastExponent m e := by
    rcases hleading with hleading | rfl
    · have hpower : (2 : ℚ) ^ (52 + f) < 2 ^ ((m.log2 + 1 : ℕ) + e) :=
        calc (2 : ℚ) ^ (52 + f) ≤ magnitude n f := zpow_le_magnitude hleading f
          _ ≤ magnitude m e := hle
          _ < 2 ^ ((m.log2 + 1 : ℕ) + e) := magnitude_lt_zpow Nat.lt_log2_self e
      rw [zpow_lt_zpow_iff_right₀ one_lt_two] at hpower
      rw [lastExponent, totalExponent]
      omega
    · exact le_max_right _ _
  generalize UnpackedFloat.round .binary64 .positive m e = u at hkeeps ⊢
  have hr : lastExponent m e = f → n ≤ r := fun heq => hrounds.ge_of_ge (heq ▸ hle)
  have hkept := hrounds.le_or_eq hm
  cases hkeeps with
  -- a number whose bits are all lost lies below the least exponent
  | nothing => omega
  | bits => exact (toLex_le_iff ..).mpr (by omega)
  | carry => exact (toLex_le_iff ..).mpr (by omega)

/-! ## Stored numbers -/

/-- A mantissa of 53 bits is stored without the first one. -/
theorem unpack_packComponents_of_le {hm : 0 < m} (hle : 2 ^ 52 ≤ m) (hlt : m < 2 ^ 53) (s : Sign)
    {exponent : BitVec 11} (hgreatest : exponent ≠ -1#11) (hleast : exponent ≠ 0#11) :
    unpack .binary64 (packComponents .binary64 s exponent (BitVec.ofNat 52 m)) =
      .finite s m (exponent.toNat - 1075) hm := by
  have hmantissa : (1#1 ++ BitVec.ofNat 52 m).toNat = m := by
    rw [BitVec.toNat_append, ← Nat.shiftLeft_add_eq_or_of_lt (BitVec.isLt _), BitVec.toNat_ofNat]
    change 2 ^ 52 + m % 2 ^ 52 = m
    omega
  simp only [unpack, unpackMantissa_packComponents, unpackExponent_packComponents,
    unpackSign_packComponents, Sign.ofBitVec_toBitVec, if_neg hgreatest, if_neg hleast]
  congr 1

/-- A mantissa of fewer bits is stored with the least exponent. -/
theorem unpack_packComponents_of_lt {hm : 0 < m} (hlt : m < 2 ^ 52) (s : Sign) :
    unpack .binary64 (packComponents .binary64 s 0#11 (BitVec.ofNat 52 m)) =
      .finite s m (-1074) hm := by
  have hmantissa : (BitVec.ofNat 52 m).toNat = m := by
    rw [BitVec.toNat_ofNat, Nat.mod_eq_of_lt hlt]
  have hne : BitVec.ofNat 52 m ≠ 0#52 := by
    intro heq
    rw [heq] at hmantissa
    exact Nat.ne_of_lt hm hmantissa
  have hgreatest : (0#11 : BitVec 11) ≠ -1#11 := by decide
  simp only [unpack, unpackMantissa_packComponents, unpackExponent_packComponents,
    unpackSign_packComponents, Sign.ofBitVec_toBitVec, if_neg hgreatest, if_true]
  rw [dif_neg hne]
  congr 1

theorem reading_finite_of_isCanonical {hm : 0 < m} (hcanonical : IsCanonical (.finite s m e hm))
    (he : e ≤ 971) : reading (.finite s m e hm) = .finite s m e hm := by
  obtain ⟨hlt, hleast, hleading⟩ := hcanonical
  have hbiased : (e + (Format.binary64.exponentBias : ℤ) +
      (Format.binary64.mantissaBitsWithoutImplicit : ℤ)).toNat = (e + 1075).toNat := by
    change (e + 1023 + 52).toNat = (e + 1075).toNat
    omega
  have hbits : (2 : ℕ) ^ Format.binary64.exponentBits = 2048 := rfl
  have hmantissaBits : Format.binary64.mantissaBits = 53 := rfl
  have hsmall : ¬ 2048 ≤ (e + 1075).toNat + 1 := by omega
  change unpack .binary64 (pack .binary64 _) = _
  simp only [pack, hbiased, hbits, hmantissaBits, if_neg hsmall]
  rcases Nat.lt_or_ge m (2 ^ 52) with hfew | hfull
  · have hlog : ¬ m.log2 + 1 = 53 := by
      have hlog2 := (Nat.log2_lt (Nat.ne_of_gt hm)).mpr hfew
      omega
    obtain rfl : e = -1074 := by omega
    rw [if_neg hlog]
    exact unpack_packComponents_of_lt hfew s
  · have hlog : m.log2 + 1 = 53 := by
      rw [Nat.succ.injEq, Nat.log2_eq_iff (Nat.ne_of_gt hm)]
      exact ⟨hfull, hlt⟩
    have hexponent : (BitVec.ofNat 11 (e + 1075).toNat).toNat = (e + 1075).toNat := by
      rw [BitVec.toNat_ofNat, Nat.mod_eq_of_lt (by omega)]
    have hgreatest : BitVec.ofNat 11 (e + 1075).toNat ≠ -1#11 := by
      rw [BitVec.toNat_ne, hexponent]
      change _ ≠ 2047
      omega
    have hpositive : BitVec.ofNat 11 (e + 1075).toNat ≠ 0#11 := by
      rw [BitVec.toNat_ne, hexponent]
      change _ ≠ 0
      omega
    have hback : ((BitVec.ofNat 11 (e + 1075).toNat).toNat : ℤ) - 1075 = e := by omega
    rw [if_pos hlog]
    have hstored := @unpack_packComponents_of_le m hm hfull hlt s _ hgreatest hpositive
    rwa [hback] at hstored

/-- A number of the format is stored as it is. -/
theorem reading_eq_self {a : UnpackedFloat} (hcanonical : IsCanonical a) {k : ℤ}
    (hwithin : IsWithin k a) (hk : k ≤ 1024) : reading a = a := by
  obtain ⟨s, hs⟩ := hwithin
  cases a with
  | zero t => exact reading_zero t
  | finite t m e hm =>
      obtain ⟨-, -, he⟩ := hs
      exact reading_finite_of_isCanonical hcanonical (by omega)
  | _ => contradiction

end PageSync.Binary64
