import Mathlib

/-! # The order of the numbers

Numbers of the binary64 format are compared by their signs, exponents and
mantissas, and both zeros are one. So `<` and `==` are those of a linear order,
as long as what is compared are numbers. Where one side is not a number, every
comparison is false.
-/

namespace PageSync.Binary64

open Float.Model (UnpackedFloat)

theorem compare_neg (a b : ℤ) : compare (-a) (-b) = (compare a b).swap := by
  rw [← cmp_eq_compare, ← cmp_eq_compare, cmp_swap]
  exact StrictAnti.cmp_map_eq (fun _ _ hlt => Int.neg_lt_neg hlt) a b

theorem compare_natCast (m n : ℕ) : compare (m : ℤ) (n : ℤ) = compare m n := by
  rw [← cmp_eq_compare, ← cmp_eq_compare]
  exact StrictMono.cmp_map_eq (fun _ _ hlt => Int.ofNat_lt.mpr hlt) m n

/-- The place of a number among all: its sign, whether it is infinite, and how large it is. -/
def rankOf : UnpackedFloat → ℤ ×ₗ ℤ ×ₗ ℤ
  | .infinity .negative => toLex (-2, toLex (0, 0))
  | .finite .negative mantissa exponent _ => toLex (-1, toLex (-exponent, -mantissa))
  | .zero _ => toLex (0, toLex (0, 0))
  | .finite .positive mantissa exponent _ => toLex (1, toLex (exponent, mantissa))
  | .infinity .positive => toLex (2, toLex (0, 0))
  | .notANumber => toLex (0, toLex (0, 0))

def rank (a : Float) : ℤ ×ₗ ℤ ×ₗ ℤ := rankOf a.toModel.unpack

theorem compare_toLex (a b c d e f : ℤ) :
    compare (toLex (a, toLex (b, c))) (toLex (d, toLex (e, f))) =
      (compare a d).then ((compare b e).then (compare c f)) := rfl

theorem toLex_lt_iff (a b c d e f : ℤ) :
    toLex (a, toLex (b, c)) < toLex (d, toLex (e, f)) ↔
      a < d ∨ a = d ∧ (b < e ∨ b = e ∧ c < f) := by
  rw [Prod.Lex.toLex_lt_toLex, Prod.Lex.toLex_lt_toLex]

theorem toLex_le_iff (a b c d e f : ℤ) :
    toLex (a, toLex (b, c)) ≤ toLex (d, toLex (e, f)) ↔
      a < d ∨ a = d ∧ (b < e ∨ b = e ∧ c ≤ f) := by
  rw [Prod.Lex.toLex_le_toLex, Prod.Lex.toLex_le_toLex]

section Unpacked

variable {a b : UnpackedFloat}

theorem compare_eq_some (ha : a.isNaN = false) (hb : b.isNaN = false) :
    a.compare b = some (compare (rankOf a) (rankOf b)) := by
  cases a with
  | notANumber => contradiction
  | infinity s =>
      cases b with
      | notANumber => contradiction
      | infinity t => cases s <;> cases t <;> rfl
      | zero t => cases s <;> rfl
      | finite t n f hn => cases s <;> cases t <;> rfl
  | zero s =>
      cases b with
      | notANumber => contradiction
      | infinity t => cases t <;> rfl
      | zero t => rfl
      | finite t n f hn => cases t <;> rfl
  | finite s m e hm =>
      cases b with
      | notANumber => contradiction
      | infinity t => cases s <;> cases t <;> rfl
      | zero t => cases s <;> rfl
      | finite t n f hn =>
          cases s with
          | negative =>
              cases t with
              | negative =>
                  rw [rankOf, rankOf, compare_toLex, compare_neg e f, compare_neg m n,
                    compare_natCast, ← Ordering.swap_then]
                  rfl
              | positive => rfl
          | positive =>
              cases t with
              | negative => rfl
              | positive =>
                  rw [rankOf, rankOf, compare_toLex, compare_natCast]
                  rfl

theorem compare_eq_none (h : a.isNaN = true ∨ b.isNaN = true) : a.compare b = none := by
  rcases h with ha | hb
  · cases a with
    | notANumber => rfl
    | _ => contradiction
  · cases b with
    | notANumber => cases a <;> rfl
    | _ => contradiction

theorem compare_eq_some_iff {o : Ordering} : a.compare b = some o ↔
    a.isNaN = false ∧ b.isNaN = false ∧ compare (rankOf a) (rankOf b) = o := by
  by_cases hnan : a.isNaN = true ∨ b.isNaN = true
  · rw [compare_eq_none hnan]
    refine iff_of_false (by simp) ?_
    rintro ⟨ha, hb, -⟩
    simp [ha, hb] at hnan
  · rw [not_or, Bool.not_eq_true, Bool.not_eq_true] at hnan
    rw [compare_eq_some hnan.1 hnan.2, Option.some.injEq]
    exact ⟨fun ho => ⟨hnan.1, hnan.2, ho⟩, fun h => h.2.2⟩

/-- Numbers in the same place are the same number, or they are both zeros. -/
theorem eq_or_zero_of_rankOf_eq (ha : a.isNaN = false) (hb : b.isNaN = false)
    (h : rankOf a = rankOf b) : a = b ∨ ∃ s t, a = .zero s ∧ b = .zero t := by
  cases a with
  | notANumber => contradiction
  | infinity s =>
      cases b with
      | notANumber => contradiction
      | infinity t => cases s <;> cases t <;> simp [rankOf] at h ⊢
      | zero t => cases s <;> simp [rankOf] at h
      | finite t n f hn => cases s <;> cases t <;> simp [rankOf] at h
  | zero s =>
      cases b with
      | notANumber => contradiction
      | infinity t => cases t <;> simp [rankOf] at h
      | zero t => exact Or.inr ⟨s, t, rfl, rfl⟩
      | finite t n f hn => cases t <;> simp [rankOf] at h
  | finite s m e hm =>
      cases b with
      | notANumber => contradiction
      | infinity t => cases s <;> cases t <;> simp [rankOf] at h
      | zero t => cases s <;> simp [rankOf] at h
      | finite t n f hn => cases s <;> cases t <;> simp_all [rankOf]

end Unpacked

variable {a b c : Float}

theorem lt_iff : a < b ↔ a.isNaN = false ∧ b.isNaN = false ∧ rank a < rank b := by
  have hmodel : a < b ↔ a.toModel.unpack.compare b.toModel.unpack = some .lt := by
    change decide ((a.toModel.unpack.compare b.toModel.unpack == some .lt) = true) = true ↔ _
    rw [decide_eq_true_iff, beq_iff_eq]
  rw [hmodel, compare_eq_some_iff, compare_lt_iff_lt]
  rfl

theorem le_iff : a ≤ b ↔ a.isNaN = false ∧ b.isNaN = false ∧ rank a ≤ rank b := by
  have hmodel : a ≤ b ↔
      ∃ o, a.toModel.unpack.compare b.toModel.unpack = some o ∧ o.isLE = true := by
    change decide ((a.toModel.unpack.compare b.toModel.unpack).any Ordering.isLE = true) = true ↔ _
    rw [decide_eq_true_iff, Option.any_eq_true]
  rw [hmodel]
  constructor
  · rintro ⟨o, ho, hle⟩
    obtain ⟨ha, hb, rfl⟩ := compare_eq_some_iff.mp ho
    exact ⟨ha, hb, compare_le_iff_le.mp (Ordering.isLE_iff_ne_gt.mp hle)⟩
  · rintro ⟨ha, hb, hle⟩
    exact ⟨_, compare_eq_some_iff.mpr ⟨ha, hb, rfl⟩,
      Ordering.isLE_iff_ne_gt.mpr (compare_le_iff_le.mpr hle)⟩

theorem beq_iff : (a == b) = true ↔ a.isNaN = false ∧ b.isNaN = false ∧ rank a = rank b := by
  have hmodel : (a == b) = true ↔ a.toModel.unpack.compare b.toModel.unpack = some .eq := by
    change (a.toModel.unpack.compare b.toModel.unpack == some .eq) = true ↔ _
    rw [beq_iff_eq]
  rw [hmodel, compare_eq_some_iff, compare_eq_iff_eq]
  rfl

theorem lt_iff_rank (ha : a.isNaN = false) (hb : b.isNaN = false) : a < b ↔ rank a < rank b := by
  rw [lt_iff]
  exact ⟨fun h => h.2.2, fun h => ⟨ha, hb, h⟩⟩

theorem le_iff_rank (ha : a.isNaN = false) (hb : b.isNaN = false) : a ≤ b ↔ rank a ≤ rank b := by
  rw [le_iff]
  exact ⟨fun h => h.2.2, fun h => ⟨ha, hb, h⟩⟩

theorem beq_iff_rank (ha : a.isNaN = false) (hb : b.isNaN = false) :
    (a == b) = true ↔ rank a = rank b := by
  rw [beq_iff]
  exact ⟨fun h => h.2.2, fun h => ⟨ha, hb, h⟩⟩

theorem le_self (ha : a.isNaN = false) : a ≤ a := le_iff.mpr ⟨ha, ha, le_rfl⟩

protected theorem le_of_lt (h : a < b) : a ≤ b := by
  rw [lt_iff] at h
  exact le_iff.mpr ⟨h.1, h.2.1, h.2.2.le⟩

protected theorem le_of_not_lt (ha : a.isNaN = false) (hb : b.isNaN = false) (h : ¬ a < b) :
    b ≤ a := by
  rw [lt_iff_rank ha hb, not_lt] at h
  exact (le_iff_rank hb ha).mpr h

theorem le_trans_of_le (hab : a ≤ b) (hbc : b ≤ c) : a ≤ c := by
  rw [le_iff] at hab hbc ⊢
  exact ⟨hab.1, hbc.2.1, hab.2.2.trans hbc.2.2⟩

theorem beq_of_le_of_le (hab : a ≤ b) (hba : b ≤ a) : (a == b) = true := by
  rw [le_iff] at hab hba
  exact beq_iff.mpr ⟨hab.1, hba.1, le_antisymm hab.2.2 hba.2.2⟩

theorem isNaN_left_of_lt (h : a < b) : a.isNaN = false := (lt_iff.mp h).1

/-- A number is less if the other one is neither equal nor less. -/
theorem lt_iff_not_beq_and_not_lt (ha : a.isNaN = false) (hb : b.isNaN = false) :
    b < a ↔ (a == b) = false ∧ ¬ a < b := by
  rw [← Bool.not_eq_true, beq_iff_rank ha hb, lt_iff_rank ha hb, lt_iff_rank hb ha]
  constructor
  · exact fun hlt => ⟨ne_of_gt hlt, lt_asymm hlt⟩
  · exact fun ⟨hne, hge⟩ => lt_of_le_of_ne (not_lt.mp hge) (Ne.symm hne)

/-! ## One comparison after the other -/

/-- The first of two numbers is less, or they are equal and what is left decides. -/
def Precedes (a b : Float) (rest : Prop) : Prop := a < b ∨ (a == b) = true ∧ rest

theorem precedes_of_rank {a b : Float} {rest : Prop} (ha : a.isNaN = false) (hb : b.isNaN = false)
    (h : rank a < rank b ∨ rank a = rank b ∧ rest) : Precedes a b rest :=
  h.imp (lt_iff_rank ha hb).mpr (And.imp_left (beq_iff_rank ha hb).mpr)

theorem precedes_of_not_lt {a b : Float} (ha : a.isNaN = false) (hb : b.isNaN = false)
    (h : ¬ b < a) : Precedes a b True := by
  rw [lt_iff_rank hb ha, not_lt] at h
  exact precedes_of_rank ha hb ((lt_or_eq_of_le h).imp_right fun heq => ⟨heq, trivial⟩)

/-- Of two numbers that precede each other the rest decides twice. -/
theorem Precedes.and_rest {a b : Float} {rest other : Prop} (h : Precedes a b rest)
    (h' : Precedes b a other) : rest ∧ other := by
  simp only [Precedes, lt_iff, beq_iff] at h h'
  rcases h with ⟨-, -, hlt⟩ | ⟨⟨-, -, heq⟩, hrest⟩
  · rcases h' with ⟨-, -, hgt⟩ | ⟨⟨-, -, heq⟩, -⟩
    · exact absurd hgt (lt_asymm hlt)
    · exact absurd heq (ne_of_gt hlt)
  · rcases h' with ⟨-, -, hgt⟩ | ⟨-, hother⟩
    · exact absurd heq (ne_of_gt hgt)
    · exact ⟨hrest, hother⟩

end PageSync.Binary64
