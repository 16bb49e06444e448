import PageSync.Proofs.Page.Forest

/-! # Links of a page

On a sound page every link stands for a node: children come behind their
parents, and the way up from a node is its parent followed by the way up from
there. What is above a node below another one is below that one as well, or
above it.
-/

namespace PageSync.Page

variable {page : Page} {accept : Node → Bool} {i c p n : Nat} {front rest : List Nat}

theorem ancestors_eq_nil (hparent : page.parent? i = none) : page.ancestors i = [] := by
  rw [ancestors, hparent, chain_none]

theorem exists_parent?_of_mem_ancestors (hn : n ∈ page.ancestors i) :
    ∃ p, page.parent? i = some p := by
  cases hparent : page.parent? i with
  | none =>
      rw [ancestors_eq_nil hparent] at hn
      exact absurd hn List.not_mem_nil
  | some p => exact ⟨p, rfl⟩

theorem exists_of_ancestorWhere? (h : page.ancestorWhere? accept i = some n) :
    n ∈ page.ancestors i ∧ ∃ node, page.get? n = some node ∧ accept node = true := by
  rw [ancestorWhere?_eq_find?] at h
  have haccept := List.find?_some h
  exact ⟨List.mem_of_find?_eq_some h, (Option.any_eq_true ..).mp haccept⟩

namespace Sound

theorem lt_of_mem_children (h : page.Sound) (hc : c ∈ page.children i) :
    i < c ∧ c < page.size := by
  have hparent := h.parent?_of_mem_children hc
  exact ⟨h.lt_of_parent? hparent, lt_size_of_parent? hparent⟩

/-- No path goes down for ever. -/
theorem wellFounded_children (h : page.Sound) :
    WellFounded fun child parent => child ∈ page.children parent := by
  have hmeasure := (measure fun i => page.size - i).wf
  refine Subrelation.wf (fun {child parent} hchild => ?_) hmeasure
  have hlt := h.lt_of_mem_children hchild
  change page.size - child < page.size - parent
  omega

theorem lt_size_of_below (h : page.Sound) (hi : i < page.size) (hbelow : page.Below i n) :
    n < page.size := by
  rcases hbelow.cases_tail with rfl | ⟨parent, -, hn⟩
  · exact hi
  · exact (h.lt_of_mem_children hn).2

/-- More steps than the number of a node do not change the way up from it. -/
theorem chain_eq_chain (h : page.Sound) (steps more : Nat) (hsteps : i < steps) (hmore : i < more) :
    page.chain steps (some i) = page.chain more (some i) := by
  induction steps generalizing i more with
  | zero => omega
  | succ steps ih =>
      obtain ⟨more, rfl⟩ := Nat.exists_eq_succ_of_ne_zero (Nat.ne_of_gt (Nat.zero_lt_of_lt hmore))
      rw [chain, Nat.succ_eq_add_one, chain]
      cases hparent : page.parent? i with
      | none => rw [chain_none, chain_none]
      | some p =>
          have hlt := h.lt_of_parent? hparent
          rw [ih more (by omega) (by omega)]

theorem ancestors_eq_cons (h : page.Sound) (hparent : page.parent? i = some p) :
    page.ancestors i = p :: page.ancestors p := by
  have hp := h.lt_of_parent? hparent
  have hi := lt_size_of_parent? hparent
  rw [ancestors, hparent, h.chain_eq_chain page.size (page.size + 1) (by omega) (by omega), chain,
    ancestors]

theorem lt_of_mem_ancestors (h : page.Sound) (hn : n ∈ page.ancestors i) : n < i := by
  induction i using Nat.strongRecOn with
  | ind i ih =>
      obtain ⟨p, hparent⟩ := exists_parent?_of_mem_ancestors hn
      have hp := h.lt_of_parent? hparent
      rw [h.ancestors_eq_cons hparent, List.mem_cons] at hn
      rcases hn with rfl | hn
      · exact hp
      · exact Nat.lt_trans (ih p hp hn) hp

theorem lt_size_of_mem_ancestors (h : page.Sound) (hn : n ∈ page.ancestors i) : n < page.size := by
  obtain ⟨p, hparent⟩ := exists_parent?_of_mem_ancestors hn
  exact Nat.lt_trans (h.lt_of_mem_ancestors hn) (lt_size_of_parent? hparent)

theorem exists_of_ancestorWhere?_eq_none (h : page.Sound)
    (hnone : page.ancestorWhere? accept i = none) (hn : n ∈ page.ancestors i) :
    ∃ node, page.get? n = some node ∧ accept node = false := by
  obtain ⟨node, hget⟩ := exists_get? (h.lt_size_of_mem_ancestors hn)
  rw [ancestorWhere?_eq_find?, List.find?_eq_none] at hnone
  have hrefused := hnone n hn
  rw [hget, Option.any_some, Bool.not_eq_true] at hrefused
  exact ⟨node, hget, hrefused⟩

/-- What follows a node on a way up is the way up from it. -/
theorem eq_ancestors_of_append (h : page.Sound) (hsplit : page.ancestors i = front ++ n :: rest) :
    rest = page.ancestors n := by
  induction front generalizing i with
  | nil =>
      have hn : n ∈ page.ancestors i := by simp [hsplit]
      obtain ⟨p, hparent⟩ := exists_parent?_of_mem_ancestors hn
      rw [h.ancestors_eq_cons hparent, List.nil_append, List.cons.injEq] at hsplit
      rw [← hsplit.2, hsplit.1]
  | cons first front ih =>
      have hfirst : first ∈ page.ancestors i := by simp [hsplit]
      obtain ⟨p, hparent⟩ := exists_parent?_of_mem_ancestors hfirst
      rw [h.ancestors_eq_cons hparent, List.cons_append, List.cons.injEq] at hsplit
      exact ih hsplit.2

/-- Any other accepted node above is above the nearest one as well. -/
theorem eq_or_mem_ancestors_of_ancestorWhere? (h : page.Sound)
    (hwhere : page.ancestorWhere? accept i = some n) (hc : c ∈ page.ancestors i)
    (haccept : (page.get? c).any accept = true) : c = n ∨ c ∈ page.ancestors n := by
  rw [ancestorWhere?_eq_find?, List.find?_eq_some_iff_append] at hwhere
  obtain ⟨-, front, rest, hsplit, hfront⟩ := hwhere
  rw [hsplit, List.mem_append, List.mem_cons, h.eq_ancestors_of_append hsplit] at hc
  rcases hc with hc | hc
  · have hrefused := hfront c hc
    rw [haccept] at hrefused
    contradiction
  · exact hc

/-- Two nodes with a common node below them are on one path. -/
theorem below_or_mem_ancestors (h : page.Sound) (hbelow : page.Below i c)
    (hn : n ∈ page.ancestors c) : page.Below i n ∨ n ∈ page.ancestors i := by
  induction hbelow with
  | refl => exact Or.inr hn
  | @tail parent child hparent hchild ih =>
      rw [h.ancestors_eq_cons (h.parent?_of_mem_children hchild), List.mem_cons] at hn
      rcases hn with rfl | hn
      · exact Or.inl hparent
      · exact ih hn

end Sound

end PageSync.Page
