import Mathlib.Data.Nat.Digits.Lemmas
import PageSync.Proofs.Text.Trim
import PageSync.Proofs.Written.Decimal
import PageSync.Scale

/-! # Which texts write integers

A text writes an integer if it is a run of digits with at most one sign in front
and any blanks around it. Its value is that of the digits, however many of them
are zeros at the front. Exactly these texts are read, as long as the magnitude
is not above the limit, which is the same for both signs. So the one integer of
64 bits that cannot be read is the least.
-/

namespace PageSync.Text.Decimal

/-- The value of decimal digits, the most significant one first. -/
def value (digits : List UInt8) : ℕ := Nat.ofDigits 10 (digits.reverse.map fun b => b.toNat - 48)

/-- Digits and nothing else, and at least one of them. The first ones may be zeros. -/
structure IsNumeral (text : List UInt8) : Prop where
  ne_nil : text ≠ []
  isDigit : ∀ b ∈ text, isDigit b = true

/-- A numeral with at most one sign in front of it writes an integer. -/
inductive Signed : List UInt8 → ℤ → Prop
  | bare {numeral : List UInt8} (h : IsNumeral numeral) : Signed numeral (value numeral)
  | plus {numeral : List UInt8} (h : IsNumeral numeral) : Signed (43 :: numeral) (value numeral)
  | minus {numeral : List UInt8} (h : IsNumeral numeral) :
      Signed (45 :: numeral) (-(value numeral : ℤ))

/-- A text that writes an integer, with any blanks around it. -/
inductive Writes : List UInt8 → ℤ → Prop
  | blanks {front body back : List UInt8} {n : ℤ} (hfront : ∀ b ∈ front, isBlank b = true)
      (hbody : Signed body n) (hback : ∀ b ∈ back, isBlank b = true) :
      Writes (front ++ body ++ back) n

variable {numeral text body : List UInt8} {n : ℤ} {m start : ℕ}

/-! ## Numerals -/

theorem value_cons (b : UInt8) (numeral : List UInt8) :
    value (b :: numeral) = (b.toNat - 48) * 10 ^ numeral.length + value numeral := by
  rw [value, List.reverse_cons, List.map_append, Nat.ofDigits_append, List.length_map,
    List.length_reverse, List.map_singleton, Nat.ofDigits_singleton, value]
  ring

theorem value_append_singleton (numeral : List UInt8) (b : UInt8) :
    value (numeral ++ [b]) = value numeral * 10 + (b.toNat - 48) := by
  rw [value, List.reverse_append, List.reverse_singleton, List.singleton_append, List.map_cons,
    Nat.ofDigits_cons, value]
  ring

/-- More digits never make a value smaller, so the limit is not passed on the way unless it is
passed in the end. -/
theorem foldlM_appendDigit?_eq_some_iff (hstart : start ≤ limit) :
    numeral.foldlM appendDigit? start = some m ↔
      (∀ b ∈ numeral, isDigit b = true) ∧ m = start * 10 ^ numeral.length + value numeral ∧
        m ≤ limit := by
  induction numeral generalizing start with
  | nil =>
      have hvalue : start * 10 ^ ([] : List UInt8).length + value [] = start := by simp [value]
      rw [List.foldlM_nil, Option.pure_def, Option.some.injEq, hvalue]
      constructor
      · rintro rfl
        exact ⟨by simp, rfl, hstart⟩
      · exact fun h => h.2.1.symm
  | cons b numeral ih =>
      have hvalue : (start * 10 + (b.toNat - 48)) * 10 ^ numeral.length + value numeral =
          start * 10 ^ (b :: numeral).length + value (b :: numeral) := by
        rw [value_cons, List.length_cons]
        ring
      rw [List.foldlM_cons, Option.bind_eq_bind, Option.bind_eq_some_iff, List.forall_mem_cons]
      constructor
      · rintro ⟨next, hnext, hrest⟩
        simp only [appendDigit?, Option.ite_none_right_eq_some, Option.some.injEq] at hnext
        obtain ⟨⟨hdigit, hle⟩, rfl⟩ := hnext
        obtain ⟨hdigits, hm, hlimit⟩ := (ih hle).mp hrest
        exact ⟨⟨hdigit, hdigits⟩, hm.trans hvalue, hlimit⟩
      · rintro ⟨⟨hdigit, hdigits⟩, hm, hlimit⟩
        have hle : start * 10 + (b.toNat - 48) ≤ limit := by
          refine le_trans ?_ hlimit
          rw [hm, ← hvalue]
          exact Nat.le_add_right_of_le (Nat.le_mul_of_pos_right _ (by positivity))
        exact ⟨_, if_pos ⟨hdigit, hle⟩, (ih hle).mpr ⟨hdigits, hm.trans hvalue.symm, hlimit⟩⟩

theorem magnitude?_eq_some_iff :
    magnitude? numeral = some m ↔ IsNumeral numeral ∧ m = value numeral ∧ m ≤ limit := by
  rw [magnitude?]
  split
  next hempty =>
    refine iff_of_false (by simp) fun h => ?_
    exact h.1.ne_nil (List.isEmpty_iff.mp hempty)
  next hempty =>
    rw [foldlM_appendDigit?_eq_some_iff (Nat.zero_le limit), Nat.zero_mul, Nat.zero_add]
    constructor
    · rintro ⟨hdigits, hm⟩
      exact ⟨⟨by simpa using hempty, hdigits⟩, hm⟩
    · rintro ⟨hnumeral, hm⟩
      exact ⟨hnumeral.isDigit, hm⟩

theorem map_magnitude?_eq_some_iff (sign : ℤ → ℤ) :
    ((do let m ← magnitude? numeral; pure (m : ℤ)) : Option ℤ).map sign = some n ↔
      IsNumeral numeral ∧ sign (value numeral) = n ∧ value numeral ≤ limit := by
  simp only [Option.map_eq_some_iff, Option.bind_eq_bind, Option.bind_eq_some_iff,
    Option.pure_def, Option.some.injEq, magnitude?_eq_some_iff]
  constructor
  · rintro ⟨_, ⟨_, ⟨h, rfl, hlimit⟩, rfl⟩, rfl⟩
    exact ⟨h, rfl, hlimit⟩
  · rintro ⟨h, rfl, hlimit⟩
    exact ⟨_, ⟨_, ⟨h, rfl, hlimit⟩, rfl⟩, rfl⟩

theorem IsNumeral.ne_of_cons {b : UInt8} {rest : List UInt8} (h : IsNumeral (b :: rest)) :
    b ≠ 43 ∧ b ≠ 45 := by
  have hdigit := h.isDigit b List.mem_cons_self
  constructor
  · rintro rfl
    contradiction
  · rintro rfl
    contradiction

theorem value_digits (m : ℕ) : value (digits m) = m := by
  induction m using Nat.strongRecOn with
  | ind m ih =>
      by_cases hm : m < 10
      · rw [digits_of_lt hm, value_cons, toNat_toUInt8 hm]
        simp [value]
      · rw [digits_of_le (by omega), value_append_singleton, ih (m / 10) (by omega),
          toNat_toUInt8 (Nat.mod_lt m (by decide))]
        omega

theorem isNumeral_digits (m : ℕ) : IsNumeral (digits m) :=
  ⟨digits_ne_nil m, fun _ hb => isDigit_of_mem_digits hb⟩

/-! ## Signs and blanks -/

theorem Signed.isBlank (h : Signed body n) : ∀ b ∈ body, isBlank b = false := by
  have hnumeral {numeral : List UInt8} (h : IsNumeral numeral) :
      ∀ b ∈ numeral, Decimal.isBlank b = false :=
    fun b hb => isBlank_of_isDigit (h.isDigit b hb)
  cases h with
  | bare h => exact hnumeral h
  | plus h => exact List.forall_mem_cons.mpr ⟨rfl, hnumeral h⟩
  | minus h => exact List.forall_mem_cons.mpr ⟨rfl, hnumeral h⟩

theorem Signed.ne_nil (h : Signed body n) : body ≠ [] := by
  cases h with
  | bare h => exact h.ne_nil
  | plus h => exact List.cons_ne_nil _ _
  | minus h => exact List.cons_ne_nil _ _

/-- What writes an integer is what is left of it without blanks. -/
theorem writes_iff : Writes text n ↔ Signed (trim isBlank text) n := by
  constructor
  · rintro ⟨hfront, hbody, hback⟩
    have hplain := hbody.isBlank
    rwa [trim_append_append hfront hback hbody.ne_nil
      (fun b hb => hplain b (List.mem_of_mem_head? hb))
      (fun b hb => hplain b (List.mem_of_mem_getLast? hb))]
  · intro h
    obtain ⟨front, back, htext, hfront, hback⟩ := exists_eq_append_trim isBlank text
    rw [htext]
    exact .blanks hfront h hback

/-- The written form of an integer writes it. -/
theorem writes_render (n : ℤ) : Writes (render n) n := by
  have hvalue := value_digits n.natAbs
  have hnumeral := isNumeral_digits n.natAbs
  have hsigned : Signed (render n) n := by
    rw [render]
    split
    next hneg =>
      have hminus := Signed.minus hnumeral
      rwa [hvalue, show -(n.natAbs : ℤ) = n by omega] at hminus
    next hneg =>
      have hbare := Signed.bare hnumeral
      rwa [hvalue, show (n.natAbs : ℤ) = n by omega] at hbare
  rwa [writes_iff, trim_render]

/-! ## Reading -/

/-- An integer is read from what writes it unless its magnitude is above the limit. -/
theorem parse?_eq_some_iff : parse? text = some n ↔ Writes text n ∧ n.natAbs ≤ limit := by
  rw [writes_iff, parse?]
  generalize trim isBlank text = body
  -- the signs are no digits, so a text with a sign in front is not a numeral as well
  split
  next rest =>
    rw [map_magnitude?_eq_some_iff]
    constructor
    · rintro ⟨h, rfl, hlimit⟩
      exact ⟨.minus h, by omega⟩
    · rintro ⟨hsigned, hlimit⟩
      cases hsigned with
      | bare h => exact absurd rfl h.ne_of_cons.2
      | minus h => exact ⟨h, rfl, by omega⟩
  next rest =>
    rw [map_magnitude?_eq_some_iff]
    constructor
    · rintro ⟨h, rfl, hlimit⟩
      exact ⟨.plus h, by omega⟩
    · rintro ⟨hsigned, hlimit⟩
      cases hsigned with
      | bare h => exact absurd rfl h.ne_of_cons.1
      | plus h => exact ⟨h, rfl, by omega⟩
  next hminus hplus =>
    rw [map_magnitude?_eq_some_iff]
    constructor
    · rintro ⟨h, rfl, hlimit⟩
      exact ⟨.bare h, by omega⟩
    · rintro ⟨hsigned, hlimit⟩
      cases hsigned with
      | bare h => exact ⟨h, rfl, by omega⟩
      | plus h => exact absurd rfl (hplus _)
      | minus h => exact absurd rfl (hminus _)

theorem natAbs_le_limit_iff : n.natAbs ≤ limit ↔ least64 < n ∧ n ≤ greatest64 := by
  unfold limit least64 greatest64
  omega

theorem natAbs_le_limit_of_parse? (h : parse? text = some n) : n.natAbs ≤ limit :=
  (parse?_eq_some_iff.mp h).2

/-- A text is read as an integer exactly if it writes one of 64 bits that is not the least. Nothing
is read from a text that writes no integer, or the least one, or one with more bits, and so the
written forms of all integers of 64 bits but the least are read back. -/
theorem parse?_eq_some_iff_writes (text : List UInt8) (n : ℤ) :
    (parse? text = some n ↔ Writes text n ∧ least64 < n ∧ n ≤ greatest64) ∧
      (parse? text = none ↔ ∀ m, Writes text m → m ≤ least64 ∨ greatest64 < m) ∧
      (parse? (render n) = some n ↔ least64 < n ∧ n ≤ greatest64) := by
  have hread (text : List UInt8) (n : ℤ) :
      parse? text = some n ↔ Writes text n ∧ least64 < n ∧ n ≤ greatest64 := by
    rw [parse?_eq_some_iff, natAbs_le_limit_iff]
  refine ⟨hread text n, ?_, (hread (render n) n).trans (and_iff_right (writes_render n))⟩
  rw [Option.eq_none_iff_forall_ne_some]
  refine forall_congr' fun m => ?_
  rw [ne_eq, hread, not_and, not_and_or, not_lt, not_le]

example : parse? " -0012\t".toUTF8.data.toList = some (-12) ∧
    parse? (render (least64 + 1)) = some (least64 + 1) ∧
    parse? (render (greatest64 + 1)) = none := by
  decide +kernel

/-- The least integer of 64 bits is not read back. -/
theorem not_forall_parse?_eq_some_iff :
    ¬ ∀ (text : List UInt8) (n : ℤ),
      parse? text = some n ↔ Writes text n ∧ least64 ≤ n ∧ n ≤ greatest64 := by
  intro h
  have hread := (h (render least64) least64).mpr ⟨writes_render least64, le_rfl, by decide⟩
  have hlimit := natAbs_le_limit_of_parse? hread
  exact absurd hlimit (by decide)

end PageSync.Text.Decimal
