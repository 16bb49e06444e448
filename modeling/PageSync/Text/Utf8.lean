/-! # UTF-8

Decoding goes byte by byte. An ill-formed text still decodes: each maximal
part of it that starts a character but cannot be completed, and each byte that
starts none, stands for one missing character. A text decodes strictly when
nothing is missing, and leniently with U+FFFD in the place of what is.
-/

namespace PageSync.Text.Utf8

/-- A character of which some bytes are still to come: its value so far, how
many bytes are missing, and between which bounds the next one lies. -/
structure Pending where
  value : Nat
  missing : Nat
  lower : UInt8
  upper : UInt8
  deriving DecidableEq, Repr

/-- What is decoded so far, with `none` for a missing character, and the
character being read. -/
structure Progress where
  decoded : Array (Option Char)
  pending : Option Pending
  deriving Repr

/-- The first byte of a character opens it. The bounds on the byte after it
leave out overlong forms, surrogates and values past the last code point. -/
def Progress.openWith (decoded : Array (Option Char)) (b : UInt8) : Progress :=
  let wait (base : Nat) (missing : Nat) (lower upper : UInt8) : Progress :=
    ⟨decoded, some ⟨b.toNat - base, missing, lower, upper⟩⟩
  if b < 0x80 then ⟨decoded.push (some (Char.ofNat b.toNat)), none⟩
  else if b < 0xC2 then ⟨decoded.push none, none⟩
  else if b < 0xE0 then wait 0xC0 1 0x80 0xBF
  else if b = 0xE0 then wait 0xE0 2 0xA0 0xBF
  else if b = 0xED then wait 0xE0 2 0x80 0x9F
  else if b < 0xF0 then wait 0xE0 2 0x80 0xBF
  else if b = 0xF0 then wait 0xF0 3 0x90 0xBF
  else if b < 0xF4 then wait 0xF0 3 0x80 0xBF
  else if b = 0xF4 then wait 0xF0 3 0x80 0x8F
  else ⟨decoded.push none, none⟩

/-- One more byte continues the pending character, or leaves it incomplete and
opens the next. -/
def Progress.read (progress : Progress) (b : UInt8) : Progress :=
  match progress.pending with
  | none => openWith progress.decoded b
  | some p =>
    if p.lower ≤ b ∧ b ≤ p.upper then
      let value := p.value * 64 + (b.toNat - 0x80)
      if p.missing ≤ 1 then ⟨progress.decoded.push (some (Char.ofNat value)), none⟩
      else ⟨progress.decoded, some ⟨value, p.missing - 1, 0x80, 0xBF⟩⟩
    else openWith (progress.decoded.push none) b

/-- At the end of the text a pending character stays incomplete. -/
def Progress.finish (progress : Progress) : Array (Option Char) :=
  match progress.pending with
  | none => progress.decoded
  | some _ => progress.decoded.push none

/-- The characters of the text, with `none` for each that is missing. -/
def characters (text : List UInt8) : List (Option Char) :=
  (text.foldl Progress.read ⟨#[], none⟩).finish.toList

/-- The character that stands for a missing one. -/
def replacement : Char := '\uFFFD'

/-- Decodes any text, with a replacement for what is ill-formed. -/
def decodeLenient (text : List UInt8) : String :=
  String.ofList ((characters text).map (·.getD replacement))

/-- Decodes a well-formed text. -/
def decode? (text : List UInt8) : Option String :=
  ((characters text).mapM id).map String.ofList

/-- The bytes that write the text. -/
def encode (text : String) : List UInt8 := text.toUTF8.data.toList

end PageSync.Text.Utf8
