/-! # Bits

Compressed data is a stream of bits. Bits are taken from a byte from the least
significant one on, and numbers of several bits start with theirs.
-/

namespace PageSync.Deflate

/-- Why compressed data cannot be decoded any further: it ends too early, where
a code or among bytes that are stored as they are, or no encoder writes it. -/
inductive Fault
  | incomplete
  | storedIncomplete
  | corrupt
  deriving DecidableEq, Repr

/-- Bits to be read: those left of the current byte, then whole bytes. -/
structure Bits where
  current : UInt8
  count : Nat
  rest : List UInt8
  deriving DecidableEq, Repr

namespace Bits

def ofBytes (bytes : List UInt8) : Bits := ⟨0, 0, bytes⟩

/-- How many bits are left. -/
def size (bits : Bits) : Nat := bits.count + 8 * bits.rest.length

/-- The next bit and those behind it. -/
def next? (bits : Bits) : Option (Bool × Bits) :=
  match bits.count, bits.rest with
  | count + 1, rest => some (bits.current % 2 == 1, ⟨bits.current / 2, count, rest⟩)
  | 0, b :: rest => some (b % 2 == 1, ⟨b / 2, 7, rest⟩)
  | 0, [] => none

/-- Reading a bit leaves one less. -/
theorem size_of_next? {bits rest : Bits} {bit : Bool} (h : bits.next? = some (bit, rest)) :
    rest.size + 1 = bits.size := by
  obtain ⟨current, count, bytes⟩ := bits
  cases count with
  | succ count =>
      simp only [next?, Option.some.injEq, Prod.mk.injEq] at h
      obtain ⟨-, rfl⟩ := h
      simp only [size]
      omega
  | zero =>
      cases bytes with
      | nil => simp [next?] at h
      | cons b bytes =>
          simp only [next?, Option.some.injEq, Prod.mk.injEq] at h
          obtain ⟨-, rfl⟩ := h
          simp only [size, List.length_cons]
          omega

/-- The number that the next bits write, the least significant one first. -/
def read (bits : Bits) : Nat → Except Fault (Nat × Bits)
  | 0 => .ok (0, bits)
  | width + 1 =>
    match bits.next? with
    | none => .error .incomplete
    | some (bit, bits) =>
      match bits.read width with
      | .error fault => .error fault
      | .ok (n, bits) => .ok (bit.toNat + 2 * n, bits)

/-- The whole bytes behind the current one. -/
def align (bits : Bits) : List UInt8 := bits.rest

end Bits

end PageSync.Deflate
