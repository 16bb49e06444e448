import PageSync.Proofs.Written.Decimal

/-! # Written fields

A field that holds no delimiter is read up to the delimiter behind it, and
what follows the delimiter is left for the next field. Written integers are
such fields.
-/

namespace PageSync.Text

open Decimal

variable {content : List UInt8}

/-- A text without delimiters in front of a delimiter is a field. -/
theorem readField_append (hcontent : ∀ b ∈ content, Delimiter.ofByte? b = none)
    (delimiter : Delimiter) (rest : List UInt8) :
    readField (content ++ delimiter.byte :: rest) = ⟨content, some delimiter, rest⟩ := by
  induction content with
  | nil => simp [readField_cons]
  | cons b content ih =>
      rw [List.cons_append, readField_cons, hcontent b List.mem_cons_self]
      have htail := ih fun c hc => hcontent c (List.mem_cons_of_mem b hc)
      simp [htail]

/-- A text without delimiters is a field that ends with the text. -/
theorem readField_of_plain (hcontent : ∀ b ∈ content, Delimiter.ofByte? b = none) :
    readField content = ⟨content, none, []⟩ := by
  induction content with
  | nil => rfl
  | cons b content ih =>
      rw [readField_cons, hcontent b List.mem_cons_self]
      have htail := ih fun c hc => hcontent c (List.mem_cons_of_mem b hc)
      simp [htail]

theorem ofByte?_of_mem_render {n : Int} {b : UInt8} (hb : b ∈ render n) :
    Delimiter.ofByte? b = none := by
  rcases mem_render hb with rfl | hdigit
  · rfl
  · simp only [isDigit, Bool.and_eq_true, decide_eq_true_eq] at hdigit
    have hcomma : b ≠ 44 := by grind
    have hcolon : b ≠ 58 := by grind
    rw [Delimiter.ofByte?, if_neg hcomma, if_neg hcolon]

@[simp]
theorem readField_render_append (n : Int) (delimiter : Delimiter) (rest : List UInt8) :
    readField (render n ++ delimiter.byte :: rest) = ⟨render n, some delimiter, rest⟩ :=
  readField_append (fun _ hb => ofByte?_of_mem_render hb) delimiter rest

@[simp]
theorem readField_render (n : Int) : readField (render n) = ⟨render n, none, []⟩ :=
  readField_of_plain fun _ hb => ofByte?_of_mem_render hb

theorem int?_render {n : Int} (hn : n.natAbs ≤ limit) (delimiter : Option Delimiter)
    (rest : List UInt8) : (Field.mk (render n) delimiter rest).int? = some n :=
  parse?_render hn

theorem int?_render_word (word : UInt32) (delimiter : Option Delimiter) (rest : List UInt8) :
    (Field.mk (render word.toNat) delimiter rest).int? = some (word.toNat : Int) :=
  parse?_render_word word

/-- A written integer is read back together with its delimiter. -/
theorem readIntBefore?_render {n : Int} (hn : n.natAbs ≤ limit) (delimiter : Delimiter)
    (rest : List UInt8) :
    readIntBefore? delimiter (render n ++ delimiter.byte :: rest) = some (n, rest) := by
  rw [readIntBefore?, readField_render_append, int?_render hn]
  exact if_pos rfl

theorem readWordBefore?_eq_map {delimiter : Delimiter} {text rest : List UInt8} {n : Int}
    (hread : readIntBefore? delimiter text = some (n, rest)) :
    readWordBefore? delimiter text = (word? n).map fun word => (word, rest) := by
  rw [readWordBefore?, hread]
  simp only [Option.bind_eq_bind, Option.bind_some, Option.map_eq_bind, Function.comp_def]

/-- A written word is read back together with its delimiter. -/
theorem readWordBefore?_render (word : UInt32) (delimiter : Delimiter) (rest : List UInt8) :
    readWordBefore? delimiter (render word.toNat ++ delimiter.byte :: rest) =
      some (word, rest) := by
  have hread := readIntBefore?_render (natAbs_toNat_le_limit word) delimiter rest
  rw [readWordBefore?_eq_map hread, word?_toNat, Option.map_some]

end PageSync.Text
