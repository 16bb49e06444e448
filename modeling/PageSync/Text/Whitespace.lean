import PageSync.Text.Trim

/-! # White space

The characters that have the Unicode property `White_Space`. Names taken from
a document are trimmed of them.
-/

namespace PageSync.Text

/-- The code points with the property `White_Space`, as ranges. -/
def whitespaceRanges : List (Nat × Nat) :=
  [(0x09, 0x0D), (0x20, 0x20), (0x85, 0x85), (0xA0, 0xA0), (0x1680, 0x1680),
    (0x2000, 0x200A), (0x2028, 0x2029), (0x202F, 0x202F), (0x205F, 0x205F), (0x3000, 0x3000)]

/-- Whether a character has the property `White_Space`. -/
def isWhitespace (c : Char) : Bool :=
  whitespaceRanges.any fun (first, last) => first ≤ c.toNat && c.toNat ≤ last

/-- Removes white space at both ends. -/
def trimWhitespace (text : List Char) : List Char := trim isWhitespace text

/-- ASCII blanks are white space. -/
theorem isWhitespace_of_char_isWhitespace (c : Char) (h : c.isWhitespace = true) :
    isWhitespace c = true := by
  simp only [Char.isWhitespace, Bool.or_eq_true, decide_eq_true_eq] at h
  rcases h with ((rfl | rfl) | rfl) | rfl <;> decide

end PageSync.Text
