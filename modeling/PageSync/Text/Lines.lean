/-! # Lines

A byte text is cut at its line feeds. A line does not hold its line feed, nor
one carriage return before it, and the last line needs no line feed. The list
of all lines is described by `lines_of_nextLine?`, one line at a time.
-/

namespace PageSync.Text

/-- The byte that ends a line. -/
def lineFeed : UInt8 := 10

/-- Removes one carriage return at the end, if there is one. -/
def chomp (piece : List UInt8) : List UInt8 :=
  if piece.getLast? = some 13 then piece.dropLast else piece

/-- The first line and the text after it. There is none in the empty text. -/
def nextLine? (text : List UInt8) : Option (List UInt8 × List UInt8) :=
  if text.isEmpty then none
  else some (chomp (text.takeWhile (· != lineFeed)), (text.dropWhile (· != lineFeed)).drop 1)

@[simp]
theorem nextLine?_nil : nextLine? [] = none := rfl

/-- Reading a line uses up at least one byte. -/
theorem nextLine?_length_lt {text line rest : List UInt8}
    (h : nextLine? text = some (line, rest)) : rest.length < text.length := by
  cases text with
  | nil => simp at h
  | cons b bytes =>
      simp only [nextLine?, List.isEmpty_cons, Bool.false_eq_true, if_false, Option.some.injEq,
        Prod.mk.injEq] at h
      obtain ⟨-, rfl⟩ := h
      have hbytes := (List.dropWhile_suffix (l := bytes) (· != lineFeed)).length_le
      by_cases hb : b = lineFeed
      · simp [hb]
      · simp only [List.length_drop, List.dropWhile_cons, bne_iff_ne, ne_eq, hb, not_false_eq_true,
          if_true, List.length_cons]
        omega

/-- The lines of the text, behind those already found. -/
def linesAfter (found : Array (List UInt8)) (text : List UInt8) : Array (List UInt8) :=
  match h : nextLine? text with
  | none => found
  | some (line, rest) =>
    have := nextLine?_length_lt h
    linesAfter (found.push line) rest
termination_by text.length

/-- All lines of the text, in order. -/
def lines (text : List UInt8) : List (List UInt8) :=
  (linesAfter #[] text).toList

theorem linesAfter_of_nextLine? (found : Array (List UInt8)) (text : List UInt8) :
    linesAfter found text =
      match nextLine? text with
      | none => found
      | some (line, rest) => linesAfter (found.push line) rest := by
  rw [linesAfter]
  split <;> simp_all

/-- Lines found earlier stay in front. -/
theorem toList_linesAfter (found : Array (List UInt8)) (text : List UInt8) :
    (linesAfter found text).toList = found.toList ++ lines text := by
  induction hlength : text.length using Nat.strongRecOn generalizing found text with
  | ind length ih =>
      subst hlength
      rw [lines, linesAfter_of_nextLine?, linesAfter_of_nextLine? #[]]
      cases h : nextLine? text with
      | none => simp
      | some read =>
          have hrest := ih _ (nextLine?_length_lt h)
          simp [hrest _ read.2 rfl]

/-- The first line comes first, and the rest of the text gives the others. -/
theorem lines_of_nextLine? (text : List UInt8) :
    lines text =
      match nextLine? text with
      | none => []
      | some (line, rest) => line :: lines rest := by
  rw [lines, linesAfter_of_nextLine?]
  cases h : nextLine? text with
  | none => rfl
  | some read => simp [toList_linesAfter]

end PageSync.Text
