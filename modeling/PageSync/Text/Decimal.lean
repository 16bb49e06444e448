import PageSync.Text.Trim

/-! # Decimal integers

An integer is written as an optional sign and at least one digit, between
blanks that do not count. The digits may start with zeros. Their value is at
most `limit`, with either sign.
-/

namespace PageSync.Text.Decimal

/-- Space, tab, line feed, form feed and carriage return. -/
def isBlank (b : UInt8) : Bool :=
  b == 32 || b == 9 || b == 10 || b == 12 || b == 13

/-- The digits `0` to `9`. -/
def isDigit (b : UInt8) : Bool := 48 ≤ b && b ≤ 57

/-- The largest magnitude an integer may have: that of 63 bits, all set. -/
def limit : Nat := 0x7FFFFFFFFFFFFFFF

/-- The value of the digits so far and one more, unless it is no digit or the
value passes `limit`. -/
def appendDigit? (value : Nat) (b : UInt8) : Option Nat :=
  let next := value * 10 + (b.toNat - 48)
  if isDigit b ∧ next ≤ limit then some next else none

/-- The value of a nonempty run of digits. -/
def magnitude? (digits : List UInt8) : Option Nat :=
  if digits.isEmpty then none else digits.foldlM appendDigit? 0

/-- The integer that a byte text writes. -/
def parse? (text : List UInt8) : Option Int :=
  match trim isBlank text with
  | 45 :: digits => (magnitude? digits).map fun n => -(n : Int)
  | 43 :: digits => (magnitude? digits).map fun n => (n : Int)
  | digits => (magnitude? digits).map fun n => (n : Int)

/-- The 32-bit word with this value, for values that have one. -/
def word? (n : Int) : Option UInt32 :=
  if 0 ≤ n ∧ n < UInt32.size then some (UInt32.ofNat n.toNat) else none

end PageSync.Text.Decimal
