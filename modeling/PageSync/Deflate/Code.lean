import PageSync.Deflate.Bits

/-! # Prefix codes

A code gives every symbol a word of at most fifteen bits, or none. It is known
by the lengths of its words alone: shorter words come first, words of the same
length follow the order of their symbols, and each word is the one after the
word before it.
-/

namespace PageSync.Deflate

/-- A code: how many words there are of each length, from one bit on to the
longest, and the symbols in the order of their words. -/
structure Code where
  counts : List Nat
  symbols : Array Nat
  deriving DecidableEq, Repr

namespace Code

/-- The longest a word may be. -/
def maxLength : Nat := 15

/-- The length of the longest word. Without any word it is 1. -/
def longest (lengths : List Nat) : Nat := lengths.foldl max 1

/-- The code with these lengths for the symbols 0, 1 and so on. Length 0 stands
for a symbol without a word. -/
def ofLengths (lengths : List Nat) : Code where
  counts := (List.range' 1 (longest lengths)).map fun length => lengths.count length
  symbols := ((List.range' 1 maxLength).flatMap fun length =>
    (lengths.zipIdx.filter fun entry => entry.1 == length).map Prod.snd).toArray

/-- How many of the words of the longest kind begin with a word of this length. -/
def weight (length : Nat) : Nat := 1 <<< (maxLength - length)

/-- Whether words of these lengths leave no bit string without a meaning. -/
def isComplete (lengths : List Nat) : Bool :=
  (lengths.filter (· > 0)).foldl (fun total length => total + weight length) 0 == weight 0

/-- Whether these lengths may be used: they are complete, or there is at most
one word and it has a single bit. -/
def isUsable (lengths : List Nat) : Bool :=
  (lengths.countP (· > 0) ≤ 1 && longest lengths == 1) || isComplete lengths

/-- Reads on while the bits so far are no word, up to the longest words. They write `word`; of the
words as long as they are, `first` is the first and stands for the symbol at `index`. -/
def decodeFrom (symbols : Array Nat) (word first index : Nat) :
    List Nat → Bits → Except Fault (Nat × Bits)
  | [], _ => .error .corrupt
  | count :: counts, bits =>
    match bits.next? with
    | none => .error .incomplete
    | some (bit, bits) =>
      let word := 2 * word + bit.toNat
      if word < first + count then
        match symbols[index + (word - first)]? with
        | some symbol => .ok (symbol, bits)
        | none => .error .corrupt
      else decodeFrom symbols word (2 * (first + count)) (index + count) counts bits

/-- The symbol of the next word. -/
def decode (code : Code) (bits : Bits) : Except Fault (Nat × Bits) :=
  decodeFrom code.symbols 0 0 0 code.counts bits

end Code

end PageSync.Deflate
