import Mathlib.Tactic.IntervalCases
import PageSync.Gzip.Crc32

/-! # The checksum bit by bit

The checksum takes in a byte at a time, with what eight steps of the division
make of each byte looked up in a table. Steps are linear, so the eight steps of
a remainder are those of its low byte and of what is above it, which only moves
down. The table is therefore no more than a faster way to divide.
-/

namespace PageSync.Gzip.Crc32

/-- Takes one more byte into the remainder, one bit after the other. -/
def addBits (remainder : UInt32) (b : UInt8) : UInt32 :=
  Nat.repeat shift 8 (remainder ^^^ b.toUInt32)

theorem mod_two_eq (a : UInt32) : a % 2 = 0 ∨ a % 2 = 1 := by grind

theorem xor_mod_two (a b : UInt32) : (a ^^^ b) % 2 = (a % 2) ^^^ (b % 2) := by
  apply UInt32.toNat_inj.mp
  simp only [UInt32.toNat_mod, UInt32.toNat_xor]
  exact Nat.xor_mod_two_pow (n := 1)

theorem shift_of_even {a : UInt32} (ha : a % 2 = 0) : shift a = a >>> 1 := by
  rw [shift, ha, if_neg (by decide)]

theorem shift_of_odd {a : UInt32} (ha : a % 2 = 1) : shift a = divisor ^^^ (a >>> 1) := by
  rw [shift, if_pos ha]

/-- A step is linear: the divisor comes in if it does for one of the terms alone. -/
theorem shift_xor (a b : UInt32) : shift (a ^^^ b) = shift a ^^^ shift b := by
  have hsum := xor_mod_two a b
  rcases mod_two_eq a with ha | ha <;> rcases mod_two_eq b with hb | hb <;> rw [ha, hb] at hsum
  · rw [shift_of_even hsum, shift_of_even ha, shift_of_even hb, UInt32.shiftRight_xor]
  · rw [shift_of_odd hsum, shift_of_even ha, shift_of_odd hb, UInt32.shiftRight_xor]
    ac_rfl
  · rw [shift_of_odd hsum, shift_of_odd ha, shift_of_even hb, UInt32.shiftRight_xor,
      UInt32.xor_assoc]
  · rw [shift_of_even hsum, shift_of_odd ha, shift_of_odd hb, UInt32.shiftRight_xor,
      UInt32.xor_comm divisor, UInt32.xor_assoc, ← UInt32.xor_assoc divisor, UInt32.xor_self,
      UInt32.zero_xor]

theorem repeat_shift_xor (n : Nat) (a b : UInt32) :
    Nat.repeat shift n (a ^^^ b) = Nat.repeat shift n a ^^^ Nat.repeat shift n b := by
  induction n with
  | zero => rfl
  | succ n ih => rw [Nat.repeat, ih, shift_xor, Nat.repeat, Nat.repeat]

/-- A remainder whose low byte is 0 only moves down. -/
theorem toNat_repeat_shift {a : UInt32} (ha : a.toNat % 256 = 0) {n : Nat} (hn : n ≤ 8) :
    (Nat.repeat shift n a).toNat = a.toNat / 2 ^ n := by
  induction n with
  | zero => rw [Nat.repeat, Nat.pow_zero, Nat.div_one]
  | succ n ih =>
      have hlow := ih (Nat.le_of_succ_le hn)
      have hbit : a.toNat / 2 ^ n % 2 = 0 := by
        have hlt : n < 8 := hn
        interval_cases n <;> omega
      have heven : Nat.repeat shift n a % 2 = 0 := by
        apply UInt32.toNat_inj.mp
        rw [UInt32.toNat_mod, hlow]
        exact hbit
      rw [Nat.repeat, shift_of_even heven, UInt32.toNat_shiftRight, hlow, Nat.pow_succ,
        ← Nat.div_div_eq_div_mul]
      rfl

theorem repeat_shift_eight (a : UInt32) :
    Nat.repeat shift 8 a = Nat.repeat shift 8 (a % 256) ^^^ (a >>> 8) := by
  have hsplit : a = (a % 256) ^^^ (a ^^^ (a % 256)) := by
    rw [UInt32.xor_comm a, ← UInt32.xor_assoc, UInt32.xor_self, UInt32.zero_xor]
  have hlow : (a ^^^ (a % 256)).toNat % 256 = 0 := by
    rw [UInt32.toNat_xor, UInt32.toNat_mod]
    refine (Nat.xor_mod_two_pow (n := 8)).trans ?_
    rw [UInt32.toNat_ofNat]
    simp
  have hhigh : Nat.repeat shift 8 (a ^^^ (a % 256)) = a >>> 8 := by
    apply UInt32.toNat_inj.mp
    have hbelow : (a.toNat % 256) >>> 8 = 0 := by
      rw [Nat.shiftRight_eq_div_pow]
      exact Nat.div_eq_of_lt (Nat.mod_lt _ (by decide))
    rw [toNat_repeat_shift hlow (Nat.le_refl 8), UInt32.toNat_xor, UInt32.toNat_mod,
      UInt32.toNat_shiftRight, ← Nat.shiftRight_eq_div_pow, Nat.shiftRight_xor_distrib]
    calc
      a.toNat >>> 8 ^^^ (a.toNat % 256) >>> 8 = a.toNat >>> 8 ^^^ 0 := by rw [hbelow]
      _ = a.toNat >>> 8 := Nat.xor_zero _
  conv_lhs => rw [hsplit]
  rw [repeat_shift_xor, hhigh]

theorem getD_table {n : Nat} (hn : n < 256) :
    table.getD n 0 = Nat.repeat shift 8 (UInt32.ofNat n) := by
  simp [table, Array.getD, hn]

/-- Looking a byte up in the table takes in its bits. -/
theorem add_eq_addBits (remainder : UInt32) (b : UInt8) :
    add remainder b = addBits remainder b := by
  have hindex : ((remainder ^^^ b.toUInt32) % 256).toNat < 256 := by
    rw [UInt32.toNat_mod]
    exact Nat.mod_lt _ (by decide)
  have hbyte : b.toUInt32 >>> 8 = 0 := by
    apply UInt32.toNat_inj.mp
    have hlt := b.toNat_lt
    rw [UInt32.toNat_shiftRight, UInt8.toNat_toUInt32]
    exact (Nat.shiftRight_eq_div_pow b.toNat 8).trans (Nat.div_eq_of_lt hlt)
  rw [add, getD_table hindex, UInt32.ofNat_toNat, addBits, repeat_shift_eight (_ ^^^ _),
    UInt32.shiftRight_xor, hbyte, UInt32.xor_zero]

/-- The checksum is what the division leaves, bit by bit. -/
theorem checksum_eq (bytes : List UInt8) :
    checksum bytes = ~~~(bytes.foldl addBits 0xFFFFFFFF) := by
  have hadd : add = addBits := by
    funext remainder b
    exact add_eq_addBits remainder b
  rw [checksum, hadd]

end PageSync.Gzip.Crc32
