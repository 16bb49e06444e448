import Mathlib.Data.List.Basic
import PageSync.Text.Field

/-! # Written integers

The written form of an integer has no leading zeros and no plus sign. Reading
takes other forms too, but it reads this one back for every magnitude up to
the limit, and no byte of it ends a field or a line.
-/

namespace PageSync.Text.Decimal

/-- The decimal digits of a number, the most significant one first. -/
def digits (n : Nat) : List UInt8 :=
  (Nat.toDigits 10 n).map fun c => c.toNat.toUInt8

/-- The written form of an integer. -/
def render (n : Int) : List UInt8 :=
  if n < 0 then 45 :: digits n.natAbs else digits n.natAbs

theorem toUInt8_digitChar {d : Nat} (hd : d < 10) :
    (Nat.digitChar d).toNat.toUInt8 = (48 + d).toUInt8 := by
  have hall : ∀ d < 10, (Nat.digitChar d).toNat.toUInt8 = (48 + d).toUInt8 := by decide
  exact hall d hd

theorem digits_of_lt {n : Nat} (hn : n < 10) : digits n = [(48 + n).toUInt8] := by
  rw [digits, Nat.toDigits_of_lt_base hn, List.map_singleton, toUInt8_digitChar hn]

theorem digits_of_le {n : Nat} (hn : 10 ≤ n) :
    digits n = digits (n / 10) ++ [(48 + n % 10).toUInt8] := by
  have hlast : n % 10 < 10 := Nat.mod_lt n (by decide)
  rw [digits, Nat.toDigits_of_base_le (by decide) hn, List.map_append, List.map_singleton,
    toUInt8_digitChar hlast]
  rfl

theorem digits_ne_nil (n : Nat) : digits n ≠ [] := by
  intro hnil
  have hpos : 0 < (Nat.toDigits 10 n).length := Nat.length_toDigits_pos
  rw [List.map_eq_nil_iff.mp hnil] at hpos
  exact Nat.lt_irrefl 0 hpos

theorem isDigit_toUInt8 {d : Nat} (hd : d < 10) : isDigit (48 + d).toUInt8 = true := by
  have hall : ∀ d < 10, isDigit (48 + d).toUInt8 = true := by decide
  exact hall d hd

theorem toNat_toUInt8 {d : Nat} (hd : d < 10) : (48 + d).toUInt8.toNat - 48 = d := by
  have hall : ∀ d < 10, (48 + d).toUInt8.toNat - 48 = d := by decide
  exact hall d hd

theorem isBlank_of_isDigit {b : UInt8} (hdigit : isDigit b = true) : isBlank b = false := by
  simp only [isDigit, Bool.and_eq_true, decide_eq_true_eq] at hdigit
  simp only [isBlank, Bool.or_eq_false_iff, beq_eq_false_iff_ne]
  grind

theorem isDigit_of_mem_digits {n : Nat} {b : UInt8} (hb : b ∈ digits n) : isDigit b = true := by
  induction n using Nat.strongRecOn with
  | ind n ih =>
      by_cases hn : n < 10
      · rw [digits_of_lt hn, List.mem_singleton] at hb
        rw [hb]
        exact isDigit_toUInt8 hn
      · rw [digits_of_le (by omega), List.mem_append, List.mem_singleton] at hb
        rcases hb with hb | rfl
        · exact ih (n / 10) (by omega) hb
        · exact isDigit_toUInt8 (Nat.mod_lt n (by decide))

/-! ## Reading back -/

theorem appendDigit?_toUInt8 (value : Nat) {d : Nat} (hd : d < 10)
    (hlimit : value * 10 + d ≤ limit) :
    appendDigit? value (48 + d).toUInt8 = some (value * 10 + d) := by
  rw [appendDigit?, toNat_toUInt8 hd]
  exact if_pos ⟨isDigit_toUInt8 hd, hlimit⟩

/-- Every prefix of the digits has a smaller value, so the limit is not passed on the way. -/
theorem foldlM_appendDigit?_digits {n : Nat} (hn : n ≤ limit) :
    (digits n).foldlM appendDigit? 0 = some n := by
  induction n using Nat.strongRecOn with
  | ind n ih =>
      by_cases hlt : n < 10
      · have hstep := appendDigit?_toUInt8 0 hlt (by omega)
        rw [digits_of_lt hlt, List.foldlM_cons, hstep]
        simp
      · have hprefix := ih (n / 10) (by omega) (by omega)
        have hstep := appendDigit?_toUInt8 (n / 10) (Nat.mod_lt n (by decide))
          (by omega)
        rw [digits_of_le (by omega), List.foldlM_append, hprefix]
        simp only [Option.bind_eq_bind, Option.bind_some, List.foldlM_cons, hstep,
          List.foldlM_nil, Option.pure_def, Option.some.injEq]
        omega

theorem magnitude?_digits {n : Nat} (hn : n ≤ limit) : magnitude? (digits n) = some n := by
  have hempty : (digits n).isEmpty = false := by simpa using digits_ne_nil n
  rw [magnitude?, hempty, foldlM_appendDigit?_digits hn]
  rfl

theorem mem_render {n : Int} {b : UInt8} (hb : b ∈ render n) : b = 45 ∨ isDigit b = true := by
  unfold render at hb
  split at hb
  · rcases List.mem_cons.mp hb with rfl | hb
    · exact Or.inl rfl
    · exact Or.inr (isDigit_of_mem_digits hb)
  · exact Or.inr (isDigit_of_mem_digits hb)

theorem trim_render (n : Int) : trim isBlank (render n) = render n := by
  have hplain : ∀ b ∈ render n, isBlank b = false := by
    intro b hb
    rcases mem_render hb with rfl | hdigit
    · rfl
    · exact isBlank_of_isDigit hdigit
  exact trim_eq_self_of_ends (fun b hb => hplain b (List.mem_of_mem_head? hb))
    (fun b hb => hplain b (List.mem_of_mem_getLast? hb))

/-- A written integer is read back. -/
theorem parse?_render {n : Int} (hn : n.natAbs ≤ limit) : parse? (render n) = some n := by
  rw [parse?, trim_render]
  by_cases hneg : n < 0
  · have hvalue : -(n.natAbs : Int) = n := by omega
    rw [render, if_pos hneg]
    simp only [magnitude?_digits hn]
    exact congrArg some hvalue
  · have hvalue : (n.natAbs : Int) = n := by omega
    rw [render, if_neg hneg]
    -- The first byte is a digit, so the text is not taken for one with a sign.
    split
    next rest heq =>
      have hdigit := isDigit_of_mem_digits (n := n.natAbs) (b := 45) (by simp [heq])
      exact absurd hdigit (by decide)
    next rest heq =>
      have hdigit := isDigit_of_mem_digits (n := n.natAbs) (b := 43) (by simp [heq])
      exact absurd hdigit (by decide)
    next =>
      rw [magnitude?_digits hn]
      exact congrArg some hvalue

theorem natAbs_toNat_le_limit (word : UInt32) : (word.toNat : Int).natAbs ≤ limit := by
  have hword := word.toNat_lt
  simp only [Int.natAbs_natCast, limit]
  omega

@[simp]
theorem word?_toNat (word : UInt32) : word? (word.toNat : Int) = some word := by
  have hword := word.toNat_lt_size
  rw [word?, if_pos ⟨by omega, by omega⟩, Int.toNat_natCast, UInt32.ofNat_toNat]

/-- The written form of a 32-bit word is read back. -/
theorem parse?_render_word (word : UInt32) :
    parse? (render word.toNat) = some (word.toNat : Int) :=
  parse?_render (natAbs_toNat_le_limit word)

end PageSync.Text.Decimal
