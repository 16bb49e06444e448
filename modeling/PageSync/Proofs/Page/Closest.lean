import Mathlib.Data.List.Induction
import Mathlib.Order.Lattice
import PageSync.Page.Closest

/-! # Best among all

A candidate that is kept to the end was only compared with some of the others.
If the comparison is that of a linear order of keys, it is the best of all of
them, and the first of those that are as good. Stated for nodes by their
numbers, this is a single node that precedes every other one it competes with.
-/

namespace PageSync

/-- The node with the number competes and precedes every other one that does. -/
structure Leads (lookup : ℕ → Option Node) (competes : Node → Prop)
    (precedes : ℕ → Node → ℕ → Node → Prop) (i : ℕ) (node : Node) : Prop where
  isNode : lookup i = some node
  isCandidate : competes node
  first : ∀ {j other}, lookup j = some other → competes other → j ≠ i → precedes i node j other

section Keys

variable {α β : Type} [LinearOrder β] {beats : α → α → Bool} {key : α → β} {candidates : List α}
  {best : α}

theorem firstBest?_concat (beats : α → α → Bool) (candidates : List α) (candidate : α) :
    firstBest? beats (candidates ++ [candidate]) =
      keepBest beats (firstBest? beats candidates) candidate := by
  rw [firstBest?, List.foldl_append, List.foldl_cons, List.foldl_nil, firstBest?]

/-- Those in front of the best candidate are worse, and those behind it are no better. -/
theorem exists_append_of_firstBest?
    (hkey : ∀ a ∈ candidates, ∀ b ∈ candidates, beats a b = true ↔ key a < key b)
    (h : firstBest? beats candidates = some best) :
    ∃ front back, candidates = front ++ best :: back ∧ (∀ a ∈ front, key best < key a) ∧
      ∀ b ∈ back, key best ≤ key b := by
  induction candidates using List.reverseRecOn generalizing best with
  | nil => simp [firstBest?] at h
  | append_singleton candidates candidate ih =>
      have hkey' : ∀ a ∈ candidates, ∀ b ∈ candidates, beats a b = true ↔ key a < key b :=
        fun a ha b hb => hkey a (List.mem_append_left _ ha) b (List.mem_append_left _ hb)
      rw [firstBest?_concat] at h
      cases hkept : firstBest? beats candidates with
      | none =>
          rw [hkept, keepBest, Option.some.injEq] at h
          rw [eq_nil_of_firstBest?_eq_none hkept, h]
          exact ⟨[], [], rfl, by simp, by simp⟩
      | some kept =>
          obtain ⟨front, back, hsplit, hfront, hback⟩ := ih hkey' hkept
          have hbeats := hkey candidate (List.mem_append_right _ List.mem_cons_self) kept
            (List.mem_append_left _ (mem_of_firstBest? hkept))
          rw [hkept, keepBest] at h
          split at h
          next hlt =>
            obtain rfl : candidate = best := Option.some.inj h
            have hless := hbeats.mp hlt
            refine ⟨candidates, [], rfl, ?_, by simp⟩
            intro a ha
            rw [hsplit, List.mem_append, List.mem_cons] at ha
            rcases ha with ha | rfl | ha
            · exact lt_trans hless (hfront a ha)
            · exact hless
            · exact lt_of_lt_of_le hless (hback a ha)
          next hge =>
            obtain rfl : kept = best := Option.some.inj h
            have hle : key kept ≤ key candidate := not_lt.mp fun hless => hge (hbeats.mpr hless)
            refine ⟨front, back ++ [candidate], by rw [hsplit, List.append_assoc, List.cons_append],
              hfront, ?_⟩
            intro b hb
            rcases List.mem_append.mp hb with hb | hb
            · exact hback b hb
            · exact List.mem_singleton.mp hb ▸ hle

/-- The best of numbered candidates is better than any other one, or as good and of a smaller
number. -/
theorem lt_or_eq_of_firstBest? (number : α → ℕ)
    (hsorted : candidates.Pairwise fun a b => number a < number b)
    (hkey : ∀ a ∈ candidates, ∀ b ∈ candidates, beats a b = true ↔ key a < key b)
    (h : firstBest? beats candidates = some best) {other : α} (hother : other ∈ candidates)
    (hne : number other ≠ number best) :
    key best < key other ∨ key best = key other ∧ number best < number other := by
  obtain ⟨front, back, hsplit, hfront, hback⟩ := exists_append_of_firstBest? hkey h
  rw [hsplit, List.mem_append, List.mem_cons] at hother
  rcases hother with hother | rfl | hother
  · exact Or.inl (hfront other hother)
  · exact absurd rfl hne
  · rw [hsplit, List.pairwise_append, List.pairwise_cons] at hsorted
    have hbehind := hsorted.2.1.1 other hother
    exact (lt_or_eq_of_le (hback other hother)).imp_right fun heq => ⟨heq, hbehind⟩

theorem firstBest?_map {γ : Type} (beats : α → α → Bool) (f : γ → α) (candidates : List γ) :
    firstBest? beats (candidates.map f) =
      (firstBest? (fun a b => beats (f a) (f b)) candidates).map f := by
  induction candidates using List.reverseRecOn with
  | nil => rfl
  | append_singleton candidates candidate ih =>
      rw [List.map_append, List.map_singleton, firstBest?_concat, firstBest?_concat, ih]
      cases firstBest? (fun a b => beats (f a) (f b)) candidates with
      | none => rfl
      | some kept =>
          simp only [keepBest, Option.map_some]
          split
          next => rfl
          next => rfl

end Keys

section Leads

variable {lookup : ℕ → Option Node} {competes : Node → Prop}
  {precedes : ℕ → Node → ℕ → Node → Prop} {i j : ℕ} {a b : Node} {entries : List (ℕ × Node)}

theorem Leads.unique (hasymm : ∀ i a j b, precedes i a j b → ¬ precedes j b i a)
    (hi : Leads lookup competes precedes i a) (hj : Leads lookup competes precedes j b) :
    i = j := by
  by_contra hne
  exact hasymm i a j b (hi.first hj.isNode hj.isCandidate (Ne.symm hne))
    (hj.first hi.isNode hi.isCandidate hne)

/-- The first entry leads by its number. -/
theorem leads_of_head? {best : ℕ × Node} (hsorted : entries.Pairwise fun a b => a.1 < b.1)
    (hentries : ∀ i node, (i, node) ∈ entries ↔ lookup i = some node ∧ competes node)
    (h : entries.head? = some best) :
    Leads lookup competes (fun i _ j _ => i < j) best.1 best.2 := by
  obtain ⟨rest, rfl⟩ := List.head?_eq_some_iff.mp h
  obtain ⟨hlookup, hcompetes⟩ := (hentries best.1 best.2).mp List.mem_cons_self
  refine ⟨hlookup, hcompetes, fun {j other} hother hcompeting hne => ?_⟩
  rcases List.mem_cons.mp ((hentries j other).mpr ⟨hother, hcompeting⟩) with rfl | hmem
  · exact absurd rfl hne
  · exact List.rel_of_pairwise_cons hsorted hmem

/-- The first of the best entries leads. -/
theorem leads_of_firstBest? {β : Type} [LinearOrder β] (beats : Node → Node → Bool)
    (key : Node → β) {best : ℕ × Node} (hsorted : entries.Pairwise fun a b => a.1 < b.1)
    (hentries : ∀ i node, (i, node) ∈ entries ↔ lookup i = some node ∧ competes node)
    (hkey : ∀ a ∈ entries, ∀ b ∈ entries, beats a.2 b.2 = true ↔ key a.2 < key b.2)
    (hprecedes : ∀ a ∈ entries, ∀ b ∈ entries,
      key a.2 < key b.2 ∨ key a.2 = key b.2 ∧ a.1 < b.1 → precedes a.1 a.2 b.1 b.2)
    (h : firstBest? (fun a b => beats a.2 b.2) entries = some best) :
    Leads lookup competes precedes best.1 best.2 := by
  have hbest := mem_of_firstBest? h
  obtain ⟨hlookup, hcompetes⟩ := (hentries best.1 best.2).mp hbest
  refine ⟨hlookup, hcompetes, fun {j other} hother hcompeting hne => ?_⟩
  have hmem := (hentries j other).mpr ⟨hother, hcompeting⟩
  exact hprecedes best hbest (j, other) hmem
    (lt_or_eq_of_firstBest? Prod.fst hsorted hkey h hmem hne)

/-- The nodes that lead are those that are found, if no two of them precede each other. -/
theorem map_firstBest?_eq_some_iff {β : Type} [LinearOrder β] (beats : Node → Node → Bool)
    (key : Node → β) (hsorted : entries.Pairwise fun a b => a.1 < b.1)
    (hentries : ∀ i node, (i, node) ∈ entries ↔ lookup i = some node ∧ competes node)
    (hkey : ∀ a ∈ entries, ∀ b ∈ entries, beats a.2 b.2 = true ↔ key a.2 < key b.2)
    (hprecedes : ∀ a ∈ entries, ∀ b ∈ entries,
      key a.2 < key b.2 ∨ key a.2 = key b.2 ∧ a.1 < b.1 → precedes a.1 a.2 b.1 b.2)
    (hasymm : ∀ i a j b, precedes i a j b → ¬ precedes j b i a) :
    (firstBest? (fun a b => beats a.2 b.2) entries).map Prod.snd = some a ↔
      ∃ i, Leads lookup competes precedes i a := by
  rw [Option.map_eq_some_iff]
  constructor
  · rintro ⟨best, hbest, rfl⟩
    exact ⟨best.1, leads_of_firstBest? beats key hsorted hentries hkey hprecedes hbest⟩
  · rintro ⟨i, hleads⟩
    have hmem := (hentries i a).mpr ⟨hleads.isNode, hleads.isCandidate⟩
    cases hbest : firstBest? (fun a b => beats a.2 b.2) entries with
    | none =>
        rw [eq_nil_of_firstBest?_eq_none hbest] at hmem
        exact absurd hmem List.not_mem_nil
    | some best =>
        have hfound := leads_of_firstBest? beats key hsorted hentries hkey hprecedes hbest
        obtain rfl := hleads.unique hasymm hfound
        exact ⟨best, rfl, Option.some.inj (hfound.isNode.symm.trans hleads.isNode)⟩

theorem firstBest?_eq_none_iff {beats : ℕ × Node → ℕ × Node → Bool}
    (hentries : ∀ i node, (i, node) ∈ entries ↔ lookup i = some node ∧ competes node) :
    firstBest? beats entries = none ↔ ¬ ∃ i node, lookup i = some node ∧ competes node := by
  rw [← Option.isNone_iff_eq_none, ← Option.not_isSome, isSome_firstBest?, Bool.not_not]
  simp only [← hentries, List.isEmpty_iff, List.eq_nil_iff_forall_not_mem, Prod.forall, not_exists]

end Leads

end PageSync
