import PageSync.Proofs.Text.Trim
import PageSync.Proofs.Text.Utf8
import PageSync.Source.FileName

/-! # Names in normal form

A name in normal form ends as the path does and has no `./` in front. It is the
normal form of itself unless it starts with white space: the path is trimmed
first, and what then stands in front can be white space again.

A file is below a directory if its name stands behind a slash at the end of
the whole name. It makes no difference whether characters or bytes are compared.
-/

namespace PageSync

namespace FileName

open Text

/-! ## Files below directories -/

/-- The name is that of a file below some directory. -/
def IsIn (name file : String) : Prop := ∃ directory : String, name = directory ++ "/" ++ file

theorem isBelow_iff {name file : String} :
    isBelow name.toList file.toList = true ↔ IsIn name file := by
  rw [isBelow, List.isSuffixOf_iff_suffix]
  constructor
  · rintro ⟨directory, hname⟩
    refine ⟨String.ofList directory, String.toList_inj.mp ?_⟩
    simpa using hname.symm
  · rintro ⟨directory, rfl⟩
    exact ⟨directory.toList, by simp⟩

theorem isIn_iff_encode {name file : String} :
    IsIn name file ↔ ∃ front, Utf8.encode name = front ++ 0x2F :: Utf8.encode file := by
  constructor
  · rintro ⟨directory, rfl⟩
    refine ⟨Utf8.encode directory, ?_⟩
    simp only [Utf8.encode_eq_flatMap, String.toList_append, List.flatMap_append, List.append_assoc]
    rfl
  · rintro ⟨front, hname⟩
    rw [Utf8.encode_eq_flatMap] at hname
    obtain ⟨before, after, hchars, -, hafter⟩ :=
      Utf8.exists_append_of_flatMap (a := '/') (by decide) (by decide) hname
    have hfile : String.ofList after = file := by
      apply Utf8.encode_injective
      rw [Utf8.encode_eq_flatMap, String.toList_ofList, hafter]
    refine ⟨String.ofList before, String.toList_inj.mp ?_⟩
    rw [← hfile, hchars]
    simp

/-! ## Normal forms of normal forms -/

theorem dropCurrent_suffix (name : List Char) : dropCurrent name <:+ name := by
  fun_induction dropCurrent name with
  | case1 rest ih => exact ih.trans ⟨['.', '/'], rfl⟩
  | case2 name _ => exact List.suffix_rfl

theorem dropCurrent_dropCurrent (name : List Char) :
    dropCurrent (dropCurrent name) = dropCurrent name := by
  fun_induction dropCurrent name with
  | case1 rest ih => exact ih
  | case2 name hname => rw [dropCurrent]; exact hname

theorem relativeTo_suffix (root name : List Char) : relativeTo root name <:+ name := by
  rw [relativeTo]
  split
  next => exact List.drop_suffix _ _
  next => exact List.suffix_rfl

theorem normalizeChars_suffix (root : Option (List Char)) (raw : List Char) :
    normalizeChars root raw <:+ trimWhitespace raw := by
  cases root with
  | none => exact dropCurrent_suffix _
  | some root => exact (dropCurrent_suffix _).trans (relativeTo_suffix _ _)

theorem dropCurrent_normalizeChars (root : Option (List Char)) (raw : List Char) :
    dropCurrent (normalizeChars root raw) = normalizeChars root raw :=
  dropCurrent_dropCurrent _

/-- Whether white space stands in front of a name. -/
def startsBlank (name : String) : Bool := name.toList.head?.any isWhitespace

variable (root : Option String) (raw : String)

theorem toList_normalize :
    (normalize root raw).toList = normalizeChars (root.map String.toList) raw.toList := by
  rw [normalize, String.toList_ofList]

theorem isWhitespace_getLast?_normalize :
    ∀ c ∈ (normalize root raw).toList.getLast?, isWhitespace c = false := by
  intro c hc
  rw [toList_normalize] at hc
  obtain ⟨front, hfront⟩ := normalizeChars_suffix (root.map String.toList) raw.toList
  apply isBlank_getLast?_trim isWhitespace raw.toList c
  rw [← trimWhitespace, ← hfront, List.getLast?_append, hc]
  rfl

/-- A normal form is left as it is if no white space stands in front of it, and is changed if some
does. -/
theorem normalize_normalize_eq_self_iff :
    normalize none (normalize root raw) = normalize root raw ↔
      startsBlank (normalize root raw) = false := by
  have hlast := isWhitespace_getLast?_normalize root raw
  have hdrop : dropCurrent (normalize root raw).toList = (normalize root raw).toList := by
    rw [toList_normalize]
    exact dropCurrent_normalizeChars _ _
  generalize normalize root raw = name at hlast hdrop
  rw [← String.toList_inj, toList_normalize, startsBlank]
  change dropCurrent (trim isWhitespace name.toList) = name.toList ↔ _
  constructor
  · intro hsame
    have hlength := (dropCurrent_suffix (trim isWhitespace name.toList)).length_le
    rw [hsame] at hlength
    have hinfix := trim_infix isWhitespace name.toList
    have htrim := hinfix.eq_of_length (Nat.le_antisymm hinfix.length_le hlength)
    have hhead := isBlank_head?_trim isWhitespace name.toList
    rw [htrim] at hhead
    cases hfirst : name.toList.head? with
    | none => rfl
    | some c => exact hhead c hfirst
  · intro hblank
    rw [trim_eq_self_of_ends _ hlast]
    · exact hdrop
    · intro c hc
      rwa [hc] at hblank

end FileName

end PageSync
