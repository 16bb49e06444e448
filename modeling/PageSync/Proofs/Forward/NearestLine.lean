import Mathlib.Data.Nat.Dist
import PageSync.Forward.NearestLine

/-! # Probing for a line with records

Probing goes through the distances one after the other. At each distance the
line further down comes first, and lines that do not exist are left out, so a
probe ends at the least distance at which some line has records.
-/

namespace PageSync.Index

/-- The nodes recorded at a distance from a line, those further down before those further up. -/
def recordedNear? (index : Index) (input : UInt32) (line distance : Nat) :
    Option (UInt32 × List NodeRef) :=
  (index.recordedAt? input (line + distance)).or
    (if distance < line then index.recordedAt? input (line - distance) else none)

variable {index : Index} {input line other maxOffset : UInt32} {n distance offset remaining : Nat}
  {refs : List NodeRef} {found : UInt32 × List NodeRef}

theorem recordedAt?_eq_some_iff : index.recordedAt? input n = some (other, refs) ↔
    other.toNat = n ∧ 0 < other ∧ index.friends input other = refs ∧ refs ≠ [] := by
  rw [recordedAt?, UInt32.lt_iff_toNat_lt, UInt32.toNat_zero]
  constructor
  · intro hfound
    split_ifs at hfound with hn
    rw [Option.ite_none_left_eq_some] at hfound
    obtain ⟨hempty, hfound⟩ := hfound
    obtain ⟨rfl, rfl⟩ := Prod.mk.inj (Option.some.inj hfound)
    have htoNat : (UInt32.ofNat n).toNat = n := UInt32.toNat_ofNat_of_lt' hn.2
    exact ⟨htoNat, by rw [htoNat]; exact hn.1, rfl, by simpa using hempty⟩
  · rintro ⟨rfl, hpos, rfl, hne⟩
    rw [if_pos ⟨hpos, other.toNat_lt⟩]
    simp [hne]

theorem recordedAt?_eq_none_iff : index.recordedAt? input n = none ↔
    ∀ other : UInt32, other.toNat = n → 0 < other → index.friends input other = [] := by
  rw [Option.eq_none_iff_forall_ne_some]
  constructor
  · intro hnone other hother hpos
    by_contra hne
    exact hnone (other, _) (recordedAt?_eq_some_iff.mpr ⟨hother, hpos, rfl, hne⟩)
  · rintro hnil ⟨other, refs⟩ hfound
    obtain ⟨hother, hpos, hrefs, hne⟩ := recordedAt?_eq_some_iff.mp hfound
    exact hne (hrefs ▸ hnil other hother hpos)

theorem probe?_succ (index : Index) (input : UInt32) (n offset remaining : Nat) :
    index.probe? input n offset (remaining + 1) =
      (index.recordedNear? input n offset).or (index.probe? input n (offset + 1) remaining) := by
  rw [probe?, recordedNear?]
  cases index.recordedAt? input (n + offset) with
  | some found => rfl
  | none =>
      rw [Option.none_or]
      cases if offset < n then index.recordedAt? input (n - offset) else none with
      | some found => rfl
      | none => rfl

/-- A probe finds what is recorded at the first of its distances at which anything is. -/
theorem probe?_eq_some_iff : index.probe? input n offset remaining = some found ↔
    ∃ distance, offset ≤ distance ∧ distance < offset + remaining ∧
      index.recordedNear? input n distance = some found ∧
      ∀ nearer, offset ≤ nearer → nearer < distance →
        index.recordedNear? input n nearer = none := by
  induction remaining generalizing offset with
  | zero =>
      constructor
      · intro hfound
        contradiction
      · rintro ⟨distance, hle, hlt, -⟩
        omega
  | succ remaining ih =>
      rw [probe?_succ, Option.or_eq_some_iff, ih]
      constructor
      · rintro (hhere | ⟨hnone, distance, hle, hlt, hfound, hnearer⟩)
        · exact ⟨offset, Nat.le_refl _, by omega, hhere, fun nearer _ _ => by omega⟩
        · refine ⟨distance, by omega, by omega, hfound, ?_⟩
          intro nearer hge hlt
          rcases Nat.eq_or_lt_of_le hge with rfl | hgt
          · exact hnone
          · exact hnearer nearer hgt hlt
      · rintro ⟨distance, hle, hlt, hfound, hnearer⟩
        rcases Nat.eq_or_lt_of_le hle with rfl | hgt
        · exact Or.inl hfound
        · exact Or.inr ⟨hnearer offset (Nat.le_refl _) hgt, distance, hgt, by omega, hfound,
            fun nearer hge => hnearer nearer (by omega)⟩

theorem probe?_eq_none_iff : index.probe? input n offset remaining = none ↔
    ∀ distance, offset ≤ distance → distance < offset + remaining →
      index.recordedNear? input n distance = none := by
  induction remaining generalizing offset with
  | zero =>
      constructor
      · intro _ distance hle hlt
        omega
      · intro _
        rfl
  | succ remaining ih =>
      rw [probe?_succ, Option.or_eq_none_iff, ih]
      constructor
      · rintro ⟨hhere, hnone⟩ distance hle hlt
        rcases Nat.eq_or_lt_of_le hle with rfl | hgt
        · exact hhere
        · exact hnone distance hgt (by omega)
      · intro hnone
        exact ⟨hnone offset (Nat.le_refl _) (by omega),
          fun distance hle hlt => hnone distance (by omega) (by omega)⟩

/-- The line itself is the line at distance 0. -/
theorem nearestLine?_eq_probe? (index : Index) (input line maxOffset : UInt32) :
    index.nearestLine? input line maxOffset =
      index.probe? input line.toNat 0 (maxOffset.toNat + 1) := by
  rw [nearestLine?, probe?_succ, recordedNear?, Nat.add_zero, Nat.sub_zero]
  cases hhere : index.recordedAt? input line.toNat with
  | some found => rfl
  | none => simp

theorem recordedNear?_eq_none_iff : index.recordedNear? input line.toNat distance = none ↔
    ∀ other : UInt32, 0 < other → Nat.dist other.toNat line.toNat = distance →
      index.friends input other = [] := by
  rw [recordedNear?, Option.or_eq_none_iff, recordedAt?_eq_none_iff]
  constructor
  · rintro ⟨hbelow, habove⟩ other hpos hdistance
    rw [Nat.dist] at hdistance
    rw [UInt32.lt_iff_toNat_lt, UInt32.toNat_zero] at hpos
    rcases Nat.le_total line.toNat other.toNat with hle | hle
    · exact hbelow other (by omega) hpos
    · rw [if_pos (by omega), recordedAt?_eq_none_iff] at habove
      exact habove other (by omega) hpos
  · intro hnil
    refine ⟨fun other hother hpos => hnil other hpos (by rw [Nat.dist]; omega), ?_⟩
    split_ifs with hlt
    · rw [recordedAt?_eq_none_iff]
      exact fun other hother hpos => hnil other hpos (by rw [Nat.dist]; omega)
    · rfl

theorem dist_of_recordedNear?
    (h : index.recordedNear? input line.toNat distance = some (other, refs)) :
    Nat.dist other.toNat line.toNat = distance ∧ 0 < other ∧
      index.friends input other = refs ∧ refs ≠ [] := by
  rw [recordedNear?, Option.or_eq_some_iff] at h
  rcases h with hbelow | ⟨-, habove⟩
  · obtain ⟨hother, hline⟩ := recordedAt?_eq_some_iff.mp hbelow
    exact ⟨by rw [Nat.dist]; omega, hline⟩
  · rw [Option.ite_none_right_eq_some] at habove
    obtain ⟨hlt, habove⟩ := habove
    obtain ⟨hother, hline⟩ := recordedAt?_eq_some_iff.mp habove
    exact ⟨by rw [Nat.dist]; omega, hline⟩

/-- A line is found as soon as one within the offset has records. -/
theorem nearestLine?_eq_none_iff : index.nearestLine? input line maxOffset = none ↔
    ∀ other : UInt32, 0 < other → Nat.dist other.toNat line.toNat ≤ maxOffset.toNat →
      index.friends input other = [] := by
  rw [nearestLine?_eq_probe?, probe?_eq_none_iff]
  simp only [recordedNear?_eq_none_iff]
  constructor
  · intro hnil other hpos hdistance
    exact hnil _ (Nat.zero_le _) (by omega) other hpos rfl
  · rintro hnil distance - hlt other hpos rfl
    exact hnil other hpos (by omega)

theorem dist_of_nearestLine? (h : index.nearestLine? input line maxOffset = some (other, refs)) :
    Nat.dist other.toNat line.toNat ≤ maxOffset.toNat ∧ 0 < other ∧
      index.friends input other = refs ∧ refs ≠ [] := by
  rw [nearestLine?_eq_probe?, probe?_eq_some_iff] at h
  obtain ⟨distance, -, hlt, hfound, -⟩ := h
  obtain ⟨hdistance, hline⟩ := dist_of_recordedNear? hfound
  exact ⟨by omega, hline⟩

end PageSync.Index
