import PageSync.Proofs.Forward.Search

/-! # The nearest line with records

Probing ends at the least distance at which a line has records. Of two lines at
that distance it takes the one further down. Near the ends of the range of line
numbers there are lines on one side only, and line 0 is never among them.
-/

namespace PageSync.Index

/-- Some node names the line of the input. Line 0 stands for no line. -/
def IsRecorded (index : Index) (input line : UInt32) : Prop :=
  0 < line ∧ ∃ node ∈ index.nodes, node.input = input ∧ node.line = line

/-- No recorded line of the input is nearer, and none that is as near is further down. -/
structure IsNearest (index : Index) (input line found : UInt32) : Prop where
  isRecorded : index.IsRecorded input found
  least : ∀ other, index.IsRecorded input other →
    Nat.dist found.toNat line.toNat ≤ Nat.dist other.toNat line.toNat
  last : ∀ other, index.IsRecorded input other →
    Nat.dist other.toNat line.toNat = Nat.dist found.toNat line.toNat → other ≤ found

theorem IsNearest.unique {index : Index} {input line found other : UInt32}
    (hfound : index.IsNearest input line found) (hother : index.IsNearest input line other) :
    found = other := by
  have hdistance : Nat.dist found.toNat line.toNat = Nat.dist other.toNat line.toNat :=
    Nat.le_antisymm (hfound.least other hother.isRecorded) (hother.least found hfound.isRecorded)
  exact UInt32.le_antisymm (hother.last found hfound.isRecorded hdistance)
    (hfound.last other hother.isRecorded hdistance.symm)

/-- Of the lines with records at a distance, the one further down is found. -/
theorem le_of_recordedNear? {index : Index} {input line other another : UInt32} {distance : Nat}
    {refs : List NodeRef} (h : index.recordedNear? input line.toNat distance = some (other, refs))
    (hpos : 0 < another) (hdistance : Nat.dist another.toNat line.toNat = distance)
    (hrefs : index.friends input another ≠ []) : another ≤ other := by
  rw [Nat.dist] at hdistance
  rw [UInt32.le_iff_toNat_le]
  rw [recordedNear?, Option.or_eq_some_iff] at h
  rcases h with hbelow | ⟨hnone, habove⟩
  · obtain ⟨hother, -⟩ := recordedAt?_eq_some_iff.mp hbelow
    omega
  · rw [Option.ite_none_right_eq_some] at habove
    obtain ⟨hlt, habove⟩ := habove
    obtain ⟨hother, -⟩ := recordedAt?_eq_some_iff.mp habove
    have hne : another.toNat ≠ line.toNat + distance :=
      fun heq => hrefs (recordedAt?_eq_none_iff.mp hnone another heq hpos)
    omega

section Built

variable {root : Option String} {events : List Event} {input line maxOffset found : UInt32}
  {refs : List NodeRef}

theorem isRecorded_iff : (Draft.ofEvents root events).index.IsRecorded input line ↔
    0 < line ∧ (Draft.ofEvents root events).index.friends input line ≠ [] :=
  and_congr_right fun hline => (friends_ne_nil_iff hline).symm

theorem nearestLine?_eq_none_iff_isRecorded :
    (Draft.ofEvents root events).index.nearestLine? input line maxOffset = none ↔
      ∀ other, (Draft.ofEvents root events).index.IsRecorded input other →
        maxOffset.toNat < Nat.dist other.toNat line.toNat := by
  rw [nearestLine?_eq_none_iff]
  constructor
  · intro hnil other hother
    obtain ⟨hpos, hrefs⟩ := isRecorded_iff.mp hother
    by_contra hle
    exact hrefs (hnil other hpos (Nat.le_of_not_lt hle))
  · intro hfar other hpos hdistance
    by_contra hrefs
    have hlt := hfar other (isRecorded_iff.mpr ⟨hpos, hrefs⟩)
    omega

theorem isNearest_of_nearestLine?
    (h : (Draft.ofEvents root events).index.nearestLine? input line maxOffset =
      some (found, refs)) :
    (Draft.ofEvents root events).index.IsNearest input line found := by
  rw [nearestLine?_eq_probe?, probe?_eq_some_iff] at h
  obtain ⟨distance, -, -, hfound, hnearer⟩ := h
  obtain ⟨rfl, hpos, hrefs, hne⟩ := dist_of_recordedNear? hfound
  refine ⟨isRecorded_iff.mpr ⟨hpos, hrefs ▸ hne⟩, ?_, ?_⟩
  · intro other hother
    obtain ⟨hother, hrecorded⟩ := isRecorded_iff.mp hother
    by_contra hlt
    -- the probe has come by every nearer distance
    have hnone := hnearer _ (Nat.zero_le _) (Nat.lt_of_not_le hlt)
    exact hrecorded (recordedNear?_eq_none_iff.mp hnone other hother rfl)
  · intro other hother hdistance
    obtain ⟨hother, hrecorded⟩ := isRecorded_iff.mp hother
    exact le_of_recordedNear? hfound hother hdistance hrecorded

end Built

/-- Probing finds no line exactly if none within the offset is recorded. Otherwise it finds the
nearest recorded line with all its nodes, and of two that are as near the one further down. -/
theorem nearestLine?_ofEvents (root : Option String) (events : List Event)
    (input line maxOffset : UInt32) :
    let index := (Draft.ofEvents root events).index
    (index.nearestLine? input line maxOffset = none ↔
      ∀ other, index.IsRecorded input other →
        maxOffset.toNat < Nat.dist other.toNat line.toNat) ∧
    ∀ found refs, index.nearestLine? input line maxOffset = some (found, refs) ↔
      index.IsNearest input line found ∧
        Nat.dist found.toNat line.toNat ≤ maxOffset.toNat ∧
        refs = index.friends input found ∧ refs ≠ [] := by
  intro index
  refine ⟨nearestLine?_eq_none_iff_isRecorded, fun found refs => ⟨?_, ?_⟩⟩
  · intro hfound
    obtain ⟨hdistance, -, hrefs, hne⟩ := dist_of_nearestLine? hfound
    exact ⟨isNearest_of_nearestLine? hfound, hdistance, hrefs.symm, hne⟩
  · rintro ⟨hnearest, hdistance, rfl, -⟩
    cases hresult : index.nearestLine? input line maxOffset with
    | none =>
        have hlt := nearestLine?_eq_none_iff_isRecorded.mp hresult found hnearest.isRecorded
        omega
    | some result =>
        obtain ⟨other, refs⟩ := result
        obtain rfl := hnearest.unique (isNearest_of_nearestLine? hresult)
        obtain ⟨-, -, rfl, -⟩ := dist_of_nearestLine? hresult
        rfl

example :
    let index := (Draft.ofEvents none [.pageStart 1, .record ⟨.glue, 1, 3, none, 0, 0, none⟩,
      .record ⟨.glue, 1, 7, none, 0, 0, none⟩,
      .record ⟨.glue, 1, 0xFFFFFFFD, none, 0, 0, none⟩]).index
    index.nearestLine? 1 5 2 = some (7, [⟨1, 1⟩]) ∧ index.nearestLine? 1 0 3 = some (3, [⟨1, 0⟩]) ∧
      index.nearestLine? 1 0xFFFFFFFF 2 = some (0xFFFFFFFD, [⟨1, 2⟩]) := by
  decide

end PageSync.Index
