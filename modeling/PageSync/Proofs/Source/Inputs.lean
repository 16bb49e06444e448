import Mathlib.Data.List.Induction
import Mathlib.Order.Bounds.Defs
import PageSync.Proofs.Source.FileName
import PageSync.Source.Inputs
import Std.Data.TreeMap.Lemmas

/-! # From file names to tags

A tag has the name of its last declaration. A file is looked up among these
names as a whole: first a name must be that of the file, and only if there is
none, end with it behind a slash. Of several tags the least one is taken.
-/

namespace PageSync

namespace Inputs

variable {inputs : Inputs} {tag : UInt32} {name file : String} {answer : Option UInt32}

/-! ## Tables of names -/

theorem mem_toList_iff : (tag, name) ∈ inputs.toList ↔ inputs.name? tag = some name :=
  Std.TreeMap.mem_toList_iff_getElem?_eq_some

theorem toList_pairwise (inputs : Inputs) :
    inputs.toList.Pairwise fun entry later => entry.1 < later.1 :=
  Std.TreeMap.ordered_keys_toList.imp fun {_ _} hlt => Std.compare_eq_lt.mp hlt

section Search

variable {test : String → Bool} {p : String → Prop} (htest : ∀ n, test n = true ↔ p n)

include htest

/-- The first entry whose name passes a test has the least tag of all that do. -/
theorem isLeast_of_find?
    (hfind : inputs.toList.find? (fun entry => test entry.2) = some (tag, name)) :
    IsLeast {t | ∃ n ∈ inputs.name? t, p n} tag := by
  obtain ⟨hname, before, after, hsplit, hbefore⟩ := List.find?_eq_some_iff_append.mp hfind
  have hmem : (tag, name) ∈ inputs.toList := hsplit ▸ List.mem_append_right _ List.mem_cons_self
  refine ⟨⟨name, mem_toList_iff.mp hmem, (htest name).mp hname⟩, ?_⟩
  rintro other ⟨n, hn, hp⟩
  have hother : (other, n) ∈ before ++ (tag, name) :: after := hsplit ▸ mem_toList_iff.mpr hn
  rcases List.mem_append.mp hother with hearly | hlate
  · have hnone := hbefore (other, n) hearly
    rw [(htest n).mpr hp] at hnone
    contradiction
  · rcases List.mem_cons.mp hlate with heq | hlate
    · obtain rfl := (Prod.ext_iff.mp heq).1
      exact UInt32.le_refl _
    · have hpairwise := inputs.toList_pairwise
      rw [hsplit] at hpairwise
      have hlt := List.rel_of_pairwise_cons (List.pairwise_append.mp hpairwise).2.1 hlate
      exact UInt32.le_of_lt hlt

theorem forall_not_of_find? (hfind : inputs.toList.find? (fun entry => test entry.2) = none) :
    ∀ t, ∀ n ∈ inputs.name? t, ¬ p n := by
  intro t n hn
  have hfails := List.find?_eq_none.mp hfind (t, n) (mem_toList_iff.mpr hn)
  rwa [htest] at hfails

end Search

/-! ## Lookup -/

/-- What a file in normal form is found to be among the names of tags. -/
inductive Finds (name? : UInt32 → Option String) (file : String) : Option UInt32 → Prop
  | named {tag : UInt32} (hleast : IsLeast {t | name? t = some file} tag) :
      Finds name? file (some tag)
  | below {tag : UInt32} (hnamed : ∀ t, name? t ≠ some file)
      (hleast : IsLeast {t | ∃ name ∈ name? t, FileName.IsIn name file} tag) :
      Finds name? file (some tag)
  | unknown (hnamed : ∀ t, name? t ≠ some file)
      (hbelow : ∀ t, ∀ name ∈ name? t, ¬ FileName.IsIn name file) : Finds name? file none

theorem resolve?_empty (inputs : Inputs) : inputs.resolve? "" = none := rfl

theorem resolve?_of_normalize_eq_empty (h : FileName.normalize none file = "") :
    inputs.resolve? file = none := by
  have hchars : FileName.normalizeChars none file.toList = [] := by
    simpa [FileName.toList_normalize] using congrArg String.toList h
  rw [resolve?]
  simp [hchars]

theorem finds_resolve? (h : FileName.normalize none file ≠ "") :
    Finds inputs.name? (FileName.normalize none file) (inputs.resolve? file) := by
  have hchars : FileName.normalizeChars none file.toList =
      (FileName.normalize none file).toList := by
    rw [FileName.toList_normalize]
    rfl
  have hempty : (FileName.normalize none file).toList.isEmpty = false := by simpa using h
  rw [resolve?]
  simp only [hchars, hempty, Bool.false_eq_true, if_false]
  generalize FileName.normalize none file = normal
  have hsame (n : String) : (n.toList == normal.toList) = true ↔ n = normal := by
    rw [beq_iff_eq, String.toList_inj]
  have hin (n : String) :
      FileName.isBelow n.toList normal.toList = true ↔ FileName.IsIn n normal :=
    FileName.isBelow_iff
  cases hfind : inputs.toList.find? fun entry => entry.2.toList == normal.toList with
  | some entry =>
      have hleast := isLeast_of_find? hsame hfind
      simp only [exists_eq_right] at hleast
      exact .named hleast
  | none =>
      have hnamed := forall_not_of_find? hsame hfind
      have hnone : ∀ t, inputs.name? t ≠ some normal := fun t ht => hnamed t normal ht rfl
      cases hfind : inputs.toList.find? fun entry =>
          FileName.isBelow entry.2.toList normal.toList with
      | some entry => exact .below hnone (isLeast_of_find? hin hfind)
      | none => exact .unknown hnone (forall_not_of_find? hin hfind)

theorem Finds.unique {name? : UInt32 → Option String} {other : Option UInt32}
    (h : Finds name? file answer) (h' : Finds name? file other) : answer = other := by
  have hleast_unique {s : Set UInt32} {a b : UInt32} (ha : IsLeast s a) (hb : IsLeast s b) :
      a = b := UInt32.le_antisymm (ha.2 hb.1) (hb.2 ha.1)
  cases h with
  | named hleast =>
      cases h' with
      | named hleast' => rw [hleast_unique hleast hleast']
      | below hnamed _ => exact absurd hleast.1 (hnamed _)
      | unknown hnamed _ => exact absurd hleast.1 (hnamed _)
  | below hnamed hleast =>
      cases h' with
      | named hleast' => exact absurd hleast'.1 (hnamed _)
      | below _ hleast' => rw [hleast_unique hleast hleast']
      | unknown _ hbelow =>
          obtain ⟨name, hname, hin⟩ := hleast.1
          exact absurd hin (hbelow _ name hname)
  | unknown hnamed hbelow =>
      cases h' with
      | named hleast => exact absurd hleast.1 (hnamed _)
      | below _ hleast =>
          obtain ⟨name, hname, hin⟩ := hleast.1
          exact absurd hin (hbelow _ name hname)
      | unknown _ _ => rfl

theorem finds_iff (h : FileName.normalize none file ≠ "") :
    Finds inputs.name? (FileName.normalize none file) answer ↔ inputs.resolve? file = answer := by
  constructor
  · exact fun hfinds => (finds_resolve? h).unique hfinds
  · rintro rfl
    exact finds_resolve? h

/-- A file that is declared under one tag alone has that tag, if its name is in normal form. -/
theorem resolve?_eq_some_of_unique (hfile : file ≠ "") (hname : inputs.name? tag = some file)
    (hnormal : FileName.normalize none file = file)
    (hunique : ∀ other, inputs.name? other = some file → other = tag) :
    inputs.resolve? file = some tag := by
  rw [← finds_iff (hnormal.symm ▸ hfile), hnormal]
  refine .named ⟨hname, fun other hother => ?_⟩
  rw [hunique other hother]
  exact UInt32.le_refl tag

/-! ## Declarations -/

/-- A path that is declared under a tag, and the directory it is seen from. -/
structure Declaration where
  root : Option String
  tag : UInt32
  path : String

/-- The table after some declarations. -/
def ofDeclarations (declarations : List Declaration) : Inputs :=
  declarations.foldl (fun inputs d => inputs.insert d.root d.tag d.path) {}

/-- The normal form of the last path that is declared under a tag. -/
def lastName? (declarations : List Declaration) (tag : UInt32) : Option String :=
  (declarations.filter fun d => d.tag = tag).getLast?.map fun d =>
    FileName.normalize d.root d.path

theorem name?_insert (inputs : Inputs) (root : Option String) (tag : UInt32) (path : String)
    (other : UInt32) : (inputs.insert root tag path).name? other =
      if tag = other then some (FileName.normalize root path) else inputs.name? other := by
  simp only [name?, insert, Std.TreeMap.getElem?_insert, Std.compare_eq_iff_eq]

theorem name?_ofDeclarations (declarations : List Declaration) :
    (ofDeclarations declarations).name? = lastName? declarations := by
  funext tag
  induction declarations using List.reverseRecOn with
  | nil => exact Std.TreeMap.getElem?_emptyc
  | append_singleton declarations d ih =>
      rw [ofDeclarations, List.foldl_append, List.foldl_cons, List.foldl_nil, name?_insert,
        ← ofDeclarations, ih, lastName?, lastName?, List.filter_append]
      by_cases htag : d.tag = tag
      · simp [htag]
      · simp [htag]

/-- The tag of a file, whatever was declared in whatever order. A name that ends with the file
counts only if no name is that of the file. It makes no difference whether names are compared by
their characters or by their bytes, so the file starts behind a slash of the name and not inside a
character. -/
theorem resolve?_ofDeclarations (declarations : List Declaration) (file : String) :
    let normal := FileName.normalize none file
    (normal = "" → (ofDeclarations declarations).resolve? file = none) ∧
      (normal ≠ "" → ∀ answer, Finds (lastName? declarations) normal answer ↔
        (ofDeclarations declarations).resolve? file = answer) ∧
      ∀ name, FileName.IsIn name normal ↔
        ∃ front, Text.Utf8.encode name = front ++ 0x2F :: Text.Utf8.encode normal := by
  refine ⟨resolve?_of_normalize_eq_empty, fun h answer => ?_, fun name => FileName.isIn_iff_encode⟩
  rw [← name?_ofDeclarations]
  exact finds_iff h

/-- Tag 2 loses its first name, and its second one is found behind the exact name of the greater
tag 5. -/
theorem resolve?_ofDeclarations_renamed :
    let declarations : List Declaration :=
      [⟨none, 2, "./ü.tex"⟩, ⟨some "/work/", 5, " /work/./ü.tex"⟩, ⟨none, 2, "a/ü.tex"⟩]
    FileName.normalize none "./ü.tex" = "ü.tex" ∧
      (ofDeclarations declarations).resolve? "./ü.tex" = some 5 ∧
      Finds (lastName? declarations) "ü.tex" (some 5) ∧ FileName.IsIn "a/ü.tex" "ü.tex" := by
  intro declarations
  have hnormal : FileName.normalize none "./ü.tex" = "ü.tex" := by decide +kernel
  have hanswer : (ofDeclarations declarations).resolve? "./ü.tex" = some 5 := by decide +kernel
  obtain ⟨-, hfinds, hin⟩ := resolve?_ofDeclarations declarations "./ü.tex"
  rw [hnormal] at hfinds hin
  exact ⟨hnormal, hanswer, (hfinds (by decide) (some 5)).mpr hanswer,
    (hin "a/ü.tex").mpr ⟨[97], by decide +kernel⟩⟩

/-! ## Names of the table as files -/

theorem exists_isLeast (hname : inputs.name? tag = some name) :
    ∃ least, IsLeast {t | inputs.name? t = some name} least := by
  have hsame (n : String) : (n == name) = true ↔ n = name := beq_iff_eq
  cases hfind : inputs.toList.find? fun entry => entry.2 == name with
  | some entry =>
      have hleast := isLeast_of_find? hsame hfind
      simp only [exists_eq_right] at hleast
      exact ⟨entry.1, hleast⟩
  | none => exact absurd rfl (forall_not_of_find? hsame hfind tag name hname)

theorem normalize_lastName?_eq_self_iff {declarations : List Declaration}
    (hname : lastName? declarations tag = some name) :
    FileName.normalize none name = name ↔ FileName.startsBlank name = false := by
  obtain ⟨d, -, rfl⟩ := Option.map_eq_some_iff.mp hname
  exact FileName.normalize_normalize_eq_self_iff d.root d.path

/-- A name that a tag has leads back to the least tag of this name if no white space stands
in front of it. Otherwise it is looked up without this space, so it does so only by chance: if no
tag has the name that is looked up, and the first that ends with it is the least tag of the name. -/
theorem resolve?_lastName? {declarations : List Declaration} {tag : UInt32} {name : String}
    (hname : lastName? declarations tag = some name) (hne : name ≠ "") :
    ∃ least, IsLeast {t | lastName? declarations t = some name} least ∧
      ((ofDeclarations declarations).resolve? name = some least ↔
        FileName.startsBlank name = false ∨
          FileName.normalize none name ≠ "" ∧
            (∀ t, lastName? declarations t ≠ some (FileName.normalize none name)) ∧
            IsLeast {t | ∃ other ∈ lastName? declarations t,
              FileName.IsIn other (FileName.normalize none name)} least) := by
  have hnormal := normalize_lastName?_eq_self_iff hname
  rw [← name?_ofDeclarations] at hname ⊢
  obtain ⟨least, hleast⟩ := exists_isLeast hname
  refine ⟨least, hleast, ?_⟩
  constructor
  · intro hanswer
    refine or_iff_not_imp_left.mpr fun hblank => ?_
    have hempty : FileName.normalize none name ≠ "" := by
      intro hempty
      rw [resolve?_of_normalize_eq_empty hempty] at hanswer
      contradiction
    cases (finds_iff hempty).mpr hanswer with
    | named hnamed =>
        have hsame : FileName.normalize none name = name :=
          Option.some.inj (hnamed.1.symm.trans hleast.1)
        exact absurd (hnormal.mp hsame) hblank
    | below hnamed hbelow => exact ⟨hempty, hnamed, hbelow⟩
  · rintro (hblank | ⟨hempty, hnamed, hbelow⟩)
    · have hsame := hnormal.mpr hblank
      rw [← finds_iff (hsame.symm ▸ hne), hsame]
      exact .named hleast
    · exact (finds_iff hempty).mp (.below hnamed hbelow)

/-- The name of a file that is declared twice, from the directory and from below it. -/
theorem resolve?_lastName?_declared_twice :
    let declarations : List Declaration :=
      [⟨some "/work", 7, "/work/ü.tex"⟩, ⟨none, 3, "./ü.tex"⟩]
    lastName? declarations 7 = some "ü.tex" ∧
      ∃ least, IsLeast {t | lastName? declarations t = some "ü.tex"} least ∧
        (ofDeclarations declarations).resolve? "ü.tex" = some least := by
  intro declarations
  have hname : lastName? declarations 7 = some "ü.tex" := by decide +kernel
  obtain ⟨least, hleast, hiff⟩ := resolve?_lastName? hname (by decide)
  exact ⟨hname, least, hleast, hiff.mpr (Or.inl (by decide +kernel))⟩

/-- Not every name leads back to a tag: the path is trimmed before its `./` is removed, and not
again behind it. -/
theorem not_forall_resolve?_lastName? :
    ¬ ∀ (declarations : List Declaration) (tag : UInt32) (name : String),
      lastName? declarations tag = some name → name ≠ "" →
        ∃ least, IsLeast {t | lastName? declarations t = some name} least ∧
          (ofDeclarations declarations).resolve? name = some least := by
  intro h
  obtain ⟨least, -, hanswer⟩ := h [⟨none, 1, "./ a"⟩] 1 " a" (by decide +kernel) (by decide)
  have hnone : (ofDeclarations [⟨none, 1, "./ a"⟩]).resolve? " a" = none := by decide +kernel
  rw [hnone] at hanswer
  contradiction

end Inputs

end PageSync
