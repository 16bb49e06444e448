import PageSync.Deflate.Delivery
import PageSync.Gzip.Decoder

/-! # A decoder

A decoder of gzip files, for the library to run with. It reads member after
member and hands its output over in reads, as decoders with a buffer do. The
library itself works with any decoder, and what is proved of files asks of it
only what it makes of stored members.
-/

namespace PageSync.Deflate

/-- The members of a file as far as they were read, and what is wrong with the
last one. -/
structure Members where
  members : List Member
  fault : Option Cause

/-- Reads members until the bytes are used up or a member is damaged. Those
found so far are kept with the last one first. Every member takes a byte at
least, so as many steps as there are bytes suffice. -/
def readMembers (found : List Member) (bytes : List UInt8) : Nat → Members
  | 0 => ⟨found.reverse, none⟩
  | steps + 1 =>
    let member := readMember bytes
    let found := member :: found
    match member.rest with
    | .error cause => ⟨found.reverse, some cause⟩
    | .ok rest =>
      if rest.isEmpty then ⟨found.reverse, none⟩
      else readMembers found rest steps

/-- Whether some output may not have been handed over. Corrupt data can be met
while a read has got output already, and the end of the file while output waits
to be read. -/
def Members.losesOutput (members : Members) : Bool :=
  match members.fault with
  | some .corruptData => true
  | some .incompleteData => members.members.getLast?.any Member.breaksOffPaused
  | _ => false

/-- The output of a file of the given size that was handed over. -/
def Members.output (members : Members) (size : Nat) : List UInt8 :=
  let output := members.members.flatMap Member.output
  if members.losesOutput then output.take (delivered size members.members) else output

/-- What is handed over of a file. -/
def decode (bytes : List UInt8) : Gzip.Decoded :=
  let members := readMembers [] bytes bytes.length
  ⟨members.output bytes.length, members.fault.map Cause.message⟩

instance : Gzip.Decoder := ⟨decode⟩

end PageSync.Deflate
