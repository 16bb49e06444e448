/-! # Trimming

A list loses the elements of a given class at both of its ends and keeps all
the others, in order.
-/

namespace PageSync.Text

/-- Drops the longest run of blanks at either end. -/
def trim {α : Type} (isBlank : α → Bool) (text : List α) : List α :=
  ((text.dropWhile isBlank).reverse.dropWhile isBlank).reverse

@[simp]
theorem trim_nil {α : Type} (isBlank : α → Bool) : trim isBlank [] = [] := rfl

/-- What is trimmed does not start with a blank. -/
theorem trim_eq_self_of_ends {α : Type} {isBlank : α → Bool} {text : List α}
    (hfirst : ∀ a ∈ text.head?, isBlank a = false)
    (hlast : ∀ a ∈ text.getLast?, isBlank a = false) : trim isBlank text = text := by
  have hdrop : ∀ l : List α, (∀ a ∈ l.head?, isBlank a = false) → l.dropWhile isBlank = l := by
    intro l h
    cases l with
    | nil => rfl
    | cons a rest => simp [h a (by simp)]
  have hreverse : ∀ a ∈ text.reverse.head?, isBlank a = false := by
    simpa [List.head?_reverse] using hlast
  rw [trim, hdrop text hfirst, hdrop text.reverse hreverse, List.reverse_reverse]

end PageSync.Text
