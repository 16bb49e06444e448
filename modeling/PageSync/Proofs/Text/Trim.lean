import Mathlib.Data.List.TakeWhile
import PageSync.Text.Trim

/-! # Trimmed texts

A trimmed text neither starts nor ends with a blank, and around it there were
nothing but blanks. If it is not empty, no other part of the text is like that.
-/

namespace PageSync.Text

variable {α : Type} (isBlank : α → Bool) (text : List α)

theorem trim_prefix_dropWhile : trim isBlank text <+: text.dropWhile isBlank := by
  rw [trim, ← List.reverse_suffix, List.reverse_reverse]
  exact List.dropWhile_suffix isBlank

theorem trim_infix : trim isBlank text <:+: text :=
  (trim_prefix_dropWhile isBlank text).isInfix.trans (List.dropWhile_suffix isBlank).isInfix

theorem isBlank_head?_trim : ∀ a ∈ (trim isBlank text).head?, isBlank a = false := by
  intro a ha
  obtain ⟨rest, hrest⟩ := trim_prefix_dropWhile isBlank text
  have hhead := List.head?_dropWhile_not isBlank text
  rw [← hrest, List.head?_append, ha] at hhead
  simpa using hhead

theorem isBlank_getLast?_trim : ∀ a ∈ (trim isBlank text).getLast?, isBlank a = false := by
  intro a ha
  rw [trim, List.getLast?_reverse] at ha
  have hhead := List.head?_dropWhile_not isBlank (text.dropWhile isBlank).reverse
  rw [ha] at hhead
  simpa using hhead

/-- What is trimmed off are blanks. -/
theorem exists_eq_append_trim : ∃ front back, text = front ++ trim isBlank text ++ back ∧
    (∀ a ∈ front, isBlank a = true) ∧ ∀ a ∈ back, isBlank a = true := by
  let inner := text.dropWhile isBlank
  have hinner : trim isBlank text ++ (inner.reverse.takeWhile isBlank).reverse = inner := by
    rw [trim, ← List.reverse_append, List.takeWhile_append_dropWhile, List.reverse_reverse]
  refine ⟨text.takeWhile isBlank, (inner.reverse.takeWhile isBlank).reverse, ?_, ?_, ?_⟩
  · rw [List.append_assoc, hinner, List.takeWhile_append_dropWhile]
  · exact fun a ha => List.mem_takeWhile_imp ha
  · exact fun a ha => List.mem_takeWhile_imp (List.mem_reverse.mp ha)

variable {isBlank}

/-- Blanks around a text that neither starts nor ends with one are trimmed off, and no more. -/
theorem trim_append_append {front body back : List α} (hfront : ∀ a ∈ front, isBlank a = true)
    (hback : ∀ a ∈ back, isBlank a = true) (hne : body ≠ [])
    (hfirst : ∀ a ∈ body.head?, isBlank a = false)
    (hlast : ∀ a ∈ body.getLast?, isBlank a = false) :
    trim isBlank (front ++ body ++ back) = body := by
  have hdrop (l more : List α) (hne : l ≠ []) (hhead : ∀ a ∈ l.head?, isBlank a = false) :
      (l ++ more).dropWhile isBlank = l ++ more := by
    cases l with
    | nil => contradiction
    | cons a rest => simp [hhead a rfl]
  have hback' : ∀ a ∈ back.reverse, isBlank a = true := by simpa using hback
  have hlast' : ∀ a ∈ body.reverse.head?, isBlank a = false := by
    simpa [List.head?_reverse] using hlast
  have hne' : body.reverse ≠ [] := by simpa using hne
  rw [trim, List.append_assoc, List.dropWhile_append_of_pos hfront, hdrop body back hne hfirst,
    List.reverse_append, List.dropWhile_append_of_pos hback', ← List.append_nil body.reverse,
    hdrop _ [] hne' hlast', List.append_nil, List.reverse_reverse]

end PageSync.Text
