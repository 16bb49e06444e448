import PageSync.Gzip.Decoder

/-! # Decompression

Input that starts with the two bytes that mark gzip is decompressed, and any
other input is taken as it is. A file that is damaged counts as far as its
output was handed over; only without any output is it an error.
-/

namespace PageSync.Gzip

/-- Whether the input is marked as gzip. -/
def isGzip (bytes : List UInt8) : Bool := [0x1F, 0x8B].isPrefixOf bytes

/-- Why input cannot be decompressed. The decoder says what is damaged. -/
inductive DecompressError
  | unsupported
  | damaged (cause : String)
  deriving DecidableEq, Repr

/-- The error in words. -/
def DecompressError.message : DecompressError → String
  | unsupported => "input is gzip-compressed but gzip support is not available"
  | damaged cause => "failed to decompress synctex stream: " ++ cause

/-- Decompressed input, and whether the rest of it was lost. -/
structure Decompressed where
  output : List UInt8
  truncated : Bool
  deriving DecidableEq, Repr

/-- The bytes that the input stands for. -/
def decompress [Decoder] (bytes : List UInt8) : Except DecompressError Decompressed :=
  if isGzip bytes then
    let decoded := Decoder.read bytes
    match decoded.fault with
    | none => .ok ⟨decoded.output, false⟩
    | some cause =>
      if decoded.output.isEmpty then .error (.damaged cause) else .ok ⟨decoded.output, true⟩
  else .ok ⟨bytes, false⟩

end PageSync.Gzip
