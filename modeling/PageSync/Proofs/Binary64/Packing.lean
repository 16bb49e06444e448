import Mathlib

/-! # Numbers in 64 bits

A number is computed from its sign, mantissa and exponent and then stored in 64
bits. What is read back has the same sign. It is infinite only if the exponent
is too large to be stored, and not a number only if that was stored.
-/

namespace PageSync.Binary64

open Float.Model (Format UnpackedFloat)
open Float.Model.UnpackedFloat

/-- A finite number with a sign, a mantissa of 53 bits and a bounded exponent. -/
def IsFiniteOf (s : Sign) (top : ℤ) : UnpackedFloat → Prop
  | .zero t => t = s
  | .finite t m e _ => t = s ∧ m < 2 ^ 53 ∧ e ≤ top
  | _ => False

theorem IsFiniteOf.mono {s : Sign} {top greater : ℤ} {u : UnpackedFloat} (h : IsFiniteOf s top u)
    (hle : top ≤ greater) : IsFiniteOf s greater u := by
  cases u with
  | zero t => exact h
  | finite t m e hm => exact ⟨h.1, h.2.1, Int.le_trans h.2.2 hle⟩
  | _ => contradiction

/-- What the bits of a number stand for. -/
def reading (u : UnpackedFloat) : UnpackedFloat := (Float.Model.pack u).unpack

/-- Bits whose exponent is not the greatest stand for a finite number with their sign. -/
theorem isFiniteOf_packComponents (s : Sign) {exponent : BitVec 11} (mantissa : BitVec 52)
    (hexponent : exponent ≠ -1#11) :
    IsFiniteOf s (max ((exponent.toNat : ℤ) - 1075) (-1074))
      (unpack .binary64 (packComponents .binary64 s exponent mantissa)) := by
  have hbias : ((Format.binary64.exponentBias : ℕ) : ℤ) = 1023 := rfl
  simp only [unpack, unpackMantissa_packComponents, unpackExponent_packComponents,
    unpackSign_packComponents, Sign.ofBitVec_toBitVec, if_neg hexponent]
  split
  next hzero =>
    split
    next => rfl
    next =>
      refine ⟨rfl, Nat.lt_trans mantissa.isLt (by decide), ?_⟩
      rw [hbias, hzero]
      decide
  next hnonzero =>
    refine ⟨rfl, (1#1 ++ mantissa).isLt, ?_⟩
    rw [hbias]
    omega

theorem reading_infinity (s : Sign) : reading (.infinity s) = .infinity s := by
  cases s <;> rfl

theorem reading_zero (s : Sign) : reading (.zero s) = .zero s := by
  cases s <;> rfl

/-- A finite number is stored with its sign. It becomes infinite if its exponent is too large. -/
theorem reading_finite (s : Sign) (m : ℕ) (e : ℤ) (hm : 0 < m) :
    (reading (.finite s m e hm) = .infinity s ∧ 972 ≤ e) ∨
      IsFiniteOf s (max e (-1074)) (reading (.finite s m e hm)) := by
  have hbias : (e + (Format.binary64.exponentBias : ℤ) +
      (Format.binary64.mantissaBitsWithoutImplicit : ℤ)).toNat = (e + 1075).toNat := by
    change (e + 1023 + 52).toNat = (e + 1075).toNat
    omega
  have hbits : (2 : ℕ) ^ Format.binary64.exponentBits = 2048 := rfl
  change unpack .binary64 (pack .binary64 _) = _ ∧ _ ∨
    IsFiniteOf s _ (unpack .binary64 (pack .binary64 _))
  simp only [pack, hbias, hbits]
  split
  next hlarge => exact Or.inl ⟨reading_infinity s, by omega⟩
  next hsmall =>
    right
    split
    next =>
      have hexponent : (BitVec.ofNat 11 (e + 1075).toNat).toNat = (e + 1075).toNat := by
        rw [BitVec.toNat_ofNat, Nat.mod_eq_of_lt (by omega)]
      have hne : BitVec.ofNat 11 (e + 1075).toNat ≠ -1#11 := by
        intro heq
        rw [heq] at hexponent
        change 2047 = _ at hexponent
        omega
      have hfinite := isFiniteOf_packComponents s (BitVec.ofNat 52 m) hne
      rw [hexponent] at hfinite
      have htop : max (((e + 1075).toNat : ℤ) - 1075) (-1074) = max e (-1074) := by omega
      exact htop ▸ hfinite
    next =>
      have hfinite := isFiniteOf_packComponents s (BitVec.ofNat 52 m) (show 0#11 ≠ -1#11 by decide)
      exact hfinite.mono (Int.le_trans (by decide) (le_max_right e (-1074)))

theorem isNaN_reading {u : UnpackedFloat} (h : u.isNaN = false) : (reading u).isNaN = false := by
  cases u with
  | notANumber => contradiction
  | infinity s => rw [reading_infinity, h]
  | zero s => rw [reading_zero, h]
  | finite s m e hm =>
      rcases reading_finite s m e hm with ⟨hread, -⟩ | hfinite
      · rw [hread]
        rfl
      · generalize reading (.finite s m e hm) = v at hfinite
        cases v with
        | notANumber => contradiction
        | _ => rfl

end PageSync.Binary64
