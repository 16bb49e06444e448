import Mathlib.Data.List.Forall2
import PageSync.Host.Decode

/-! # Strict arguments

Decoding either gives a value or fails because of a bad argument. Of a list it
gives the values of its elements, and it makes no difference whether what
follows is done behind each element or behind the last one.
-/

namespace PageSync.Host

/-- There is a result, or an argument is bad. -/
def IsStrict {α : Type} (result : Except Failure α) : Prop :=
  ∀ failure, result = .error failure → failure = .badArgument

section Results

variable {α β γ : Type}

theorem map_eq_ok_iff {result : Except Failure α} {give : α → β} {last : β} :
    result.map give = .ok last ↔ ∃ value, result = .ok value ∧ give value = last := by
  cases result <;> simp [Except.map]

theorem map_eq_error_iff {result : Except Failure α} {give : α → β} {failure : Failure} :
    result.map give = .error failure ↔ result = .error failure := by
  cases result <;> simp [Except.map]

theorem isStrict_ok (value : α) : IsStrict (.ok value : Except Failure α) :=
  fun _ h => nomatch h

theorem isStrict_badArgument : IsStrict (.error .badArgument : Except Failure α) :=
  fun _ h => (Except.error.inj h).symm

theorem IsStrict.bind {result : Except Failure α} {next : α → Except Failure β}
    (h : IsStrict result) (hnext : ∀ value, IsStrict (next value)) :
    IsStrict (result >>= next) := by
  intro failure hfailure
  cases result with
  | error other =>
      obtain rfl := h other rfl
      exact (Except.error.inj hfailure).symm
  | ok value => exact hnext value failure hfailure

theorem IsStrict.map {result : Except Failure α} (h : IsStrict result) (give : α → β) :
    IsStrict (result.map give) :=
  fun failure hfailure => h failure (map_eq_error_iff.mp hfailure)

theorem IsStrict.eq_or {result : Except Failure α} (h : IsStrict result) :
    (∃ value, result = .ok value) ∨ result = .error .badArgument := by
  cases result with
  | error failure => exact Or.inr (congrArg Except.error (h failure rfl))
  | ok value => exact Or.inl ⟨value, rfl⟩

theorem bind_eq_ok_iff {result : Except Failure α} {next : α → Except Failure β} {last : β} :
    result >>= next = .ok last ↔ ∃ value, result = .ok value ∧ next value = .ok last := by
  cases result with
  | error failure => simp [bind, Except.bind]
  | ok value => simp [bind, Except.bind]

theorem bind_eq_error_iff {result : Except Failure α} {next : α → Except Failure β}
    {failure : Failure} : result >>= next = .error failure ↔
      result = .error failure ∨ ∃ value, result = .ok value ∧ next value = .error failure := by
  cases result with
  | error other => simp [bind, Except.bind]
  | ok value => simp [bind, Except.bind]

theorem pure_eq_ok_iff {value other : α} :
    (pure value : Except Failure α) = .ok other ↔ other = value :=
  ⟨fun h => (Except.ok.inj h).symm, fun h => congrArg Except.ok h.symm⟩

/-- The values of all elements are there exactly if each is. -/
theorem mapM_eq_ok_iff {decode : α → Except Failure β} {elements : List α} {values : List β} :
    elements.mapM decode = .ok values ↔
      List.Forall₂ (fun element value => decode element = .ok value) elements values := by
  induction elements generalizing values with
  | nil => rw [List.mapM_nil, pure_eq_ok_iff, List.forall₂_nil_left_iff]
  | cons element elements ih =>
      simp only [List.mapM_cons, bind_eq_ok_iff, pure_eq_ok_iff, ih, List.forall₂_cons_left_iff,
        exists_and_left]

theorem isStrict_mapM {decode : α → Except Failure β} (h : ∀ element, IsStrict (decode element))
    (elements : List α) : IsStrict (elements.mapM decode) := by
  induction elements with
  | nil => exact isStrict_ok []
  | cons element elements ih =>
      rw [List.mapM_cons]
      exact (h element).bind fun value => ih.bind fun others => isStrict_ok (value :: others)

/-- A list is a bad argument exactly if one of its elements is. -/
theorem mapM_eq_error_iff {decode : α → Except Failure β} (h : ∀ element, IsStrict (decode element))
    {elements : List α} {failure : Failure} :
    elements.mapM decode = .error failure ↔
      failure = .badArgument ∧ ∃ element ∈ elements, decode element = .error .badArgument := by
  induction elements with
  | nil => simp [pure, Except.pure]
  | cons element elements ih =>
      rw [List.mapM_cons, bind_eq_error_iff, List.exists_mem_cons_iff]
      constructor
      · rintro (hfailure | ⟨value, -, hrest⟩)
        · obtain rfl := h element failure hfailure
          exact ⟨rfl, Or.inl hfailure⟩
        · rcases bind_eq_error_iff.mp hrest with hfailure | ⟨values, -, hnone⟩
          · exact (ih.mp hfailure).imp_right Or.inr
          · nomatch hnone
      · rintro ⟨rfl, hbad | hrest⟩
        · exact Or.inl hbad
        · rcases (h element).eq_or with ⟨value, hvalue⟩ | hbad
          · exact Or.inr ⟨value, hvalue, bind_eq_error_iff.mpr (Or.inl (ih.mpr ⟨rfl, hrest⟩))⟩
          · exact Or.inl hbad

/-- What is made of all values is made of each. -/
theorem map_mapM (decode : α → Except Failure β) (give : β → γ) (elements : List α) :
    (elements.mapM decode).map (List.map give) =
      elements.mapM fun element => (decode element).map give := by
  induction elements with
  | nil => rfl
  | cons element elements ih =>
      rw [List.mapM_cons, List.mapM_cons, ← ih]
      cases decode element with
      | error failure => rfl
      | ok value => cases elements.mapM decode <;> rfl

/-- Two passes over a list are one pass, as every failure is that of a bad argument. -/
theorem mapM_bind_mapM {first : α → Except Failure β} {second : β → Except Failure γ}
    (hfirst : ∀ element, IsStrict (first element)) (hsecond : ∀ value, IsStrict (second value))
    (elements : List α) :
    (do let values ← elements.mapM first
        values.mapM second) = elements.mapM fun element => first element >>= second := by
  induction elements with
  | nil => rfl
  | cons element elements ih =>
      rw [List.mapM_cons, List.mapM_cons, ← ih]
      cases helement : first element with
      | error failure => rfl
      | ok value =>
          rcases (isStrict_mapM hfirst elements).eq_or with ⟨values, hvalues⟩ | hvalues
          · simp only [hvalues, bind, Except.bind, pure, Except.pure]
            rw [List.mapM_cons]
            rfl
          · rcases (hsecond value).eq_or with ⟨other, hother⟩ | hother
            · simp [hvalues, hother, bind, Except.bind]
            · simp [hvalues, hother, bind, Except.bind]

end Results

namespace Term

theorem elementsAfter_list {α : Type} (decode : Term → Except Failure α) (elements : List Term)
    (found : Array α) : elementsAfter decode found (list elements) =
      (elements.mapM decode).map fun values => found.toList ++ values := by
  induction elements generalizing found with
  | nil => simp [list, elementsAfter, pure, Except.pure, Except.map]
  | cons element elements ih =>
      rw [list, List.foldr_cons, ← list, elementsAfter, List.mapM_cons]
      cases helement : decode element with
      | error failure => rfl
      | ok value =>
          simp only [ih]
          cases hrest : elements.mapM decode with
          | error failure => rfl
          | ok values => simp [bind, Except.bind, pure, Except.pure, Except.map]

/-- A list that ends in the empty list is decoded element by element. -/
theorem toList_list {α : Type} (decode : Term → Except Failure α) (elements : List Term) :
    (list elements).toList decode = elements.mapM decode := by
  have hmap : (elements.mapM decode).map (fun values => #[].toList ++ values) =
      elements.mapM decode := by
    cases elements.mapM decode <;> rfl
  rw [← hmap, ← elementsAfter_list]
  cases elements <;> rfl

theorem isStrict_toWord (term : Term) : IsStrict term.toWord := by
  cases term with
  | int n =>
      rw [toWord]
      split
      · exact isStrict_ok _
      · exact isStrict_badArgument
  | _ => exact isStrict_badArgument

theorem isStrict_toCoordinate (term : Term) : IsStrict term.toCoordinate := by
  cases term with
  | float x => exact isStrict_ok x
  | int n =>
      rw [toCoordinate]
      split
      · exact isStrict_ok _
      · exact isStrict_badArgument
  | _ => exact isStrict_badArgument

theorem isStrict_toText (term : Term) : IsStrict term.toText := by
  cases term with
  | binary bytes =>
      rw [toText]
      split
      · exact isStrict_ok _
      · exact isStrict_badArgument
  | _ => exact isStrict_badArgument

theorem isStrict_toPair (term : Term) : IsStrict term.toPair := by
  unfold toPair
  split
  · exact isStrict_ok _
  · exact isStrict_badArgument

theorem eq_tuple_of_toPair {term : Term} {pair : Term × Term} (h : term.toPair = .ok pair) :
    term = tuple [pair.1, pair.2] := by
  unfold toPair at h
  split at h
  · rw [← Except.ok.inj h]
  · nomatch h

theorem isStrict_toTriple (term : Term) : IsStrict term.toTriple := by
  unfold toTriple
  split
  · exact isStrict_ok _
  · exact isStrict_badArgument

theorem eq_tuple_of_toTriple {term : Term} {triple : Term × Term × Term}
    (h : term.toTriple = .ok triple) : term = tuple [triple.1, triple.2.1, triple.2.2] := by
  unfold toTriple at h
  split at h
  · rw [← Except.ok.inj h]
  · nomatch h

theorem isStrict_toPlace (term : Term) : IsStrict term.toPlace :=
  term.isStrict_toTriple.bind fun _ => (isStrict_toWord _).bind fun _ => isStrict_ok _

theorem isStrict_toQuery (term : Term) : IsStrict term.toQuery :=
  term.isStrict_toPair.bind fun _ =>
    (isStrict_toText _).bind fun _ => (isStrict_toWord _).bind fun _ => isStrict_ok _

theorem toQuery_tuple (file line : Term) :
    (tuple [file, line]).toQuery = (do
      let name ← file.toText
      let number ← line.toWord
      .ok (name, number)) :=
  rfl

theorem eq_tuple_of_toQuery {term : Term} {query : String × UInt32}
    (h : term.toQuery = .ok query) : ∃ file line, term = tuple [file, line] := by
  obtain ⟨pair, hpair, -⟩ := bind_eq_ok_iff.mp h
  exact ⟨pair.1, pair.2, eq_tuple_of_toPair hpair⟩

theorem isStrict_toPoint (x y : Term) : IsStrict (toPoint x y) :=
  x.isStrict_toCoordinate.bind fun _ => y.isStrict_toCoordinate.bind fun _ => isStrict_ok _

theorem toPlace_tuple (page x y : Term) :
    (tuple [page, x, y]).toPlace = (do
      let number ← page.toWord
      .ok (number, x, y)) :=
  rfl

/-- A page and a point on it. -/
def toSpot (term : Term) : Except Failure (UInt32 × Point) := do
  let place ← term.toPlace
  let point ← toPoint place.2.1 place.2.2
  .ok (place.1, point)

theorem toSpot_tuple (page x y : Term) :
    (tuple [page, x, y]).toSpot = (do
      let number ← page.toWord
      let point ← toPoint x y
      .ok (number, point)) := by
  rw [toSpot, toPlace_tuple, bind_assoc]
  rfl

/-- Points are decoded behind all pages, and the outcome is the same. -/
theorem mapM_toPlace_bind (terms : List Term) :
    (do let places ← terms.mapM toPlace
        places.mapM fun (page, x, y) => do
          let point ← toPoint x y
          .ok (page, point)) = terms.mapM toSpot :=
  mapM_bind_mapM isStrict_toPlace
    (fun _ => (isStrict_toPoint _ _).bind fun _ => isStrict_ok _) terms

theorem isStrict_toSpot (term : Term) : IsStrict term.toSpot :=
  term.isStrict_toPlace.bind fun _ => (isStrict_toPoint _ _).bind fun _ => isStrict_ok _

theorem eq_tuple_of_toSpot {term : Term} {spot : UInt32 × Point}
    (h : term.toSpot = .ok spot) : ∃ page x y, term = tuple [page, x, y] := by
  obtain ⟨place, hplace, -⟩ := bind_eq_ok_iff.mp h
  obtain ⟨triple, htriple, -⟩ := bind_eq_ok_iff.mp hplace
  exact ⟨triple.1, triple.2.1, triple.2.2, eq_tuple_of_toTriple htriple⟩

end Term

end PageSync.Host
