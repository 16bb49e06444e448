import PageSync.Host.Session
import PageSync.Proofs.Host.Decode

/-! # Calls with lists

The host can ask one question after the other or hand in a list of them. Both
give the same answers in the same order. A list with one bad element has no
answer at all, and no call with a question changes the session.
-/

namespace PageSync.Host

namespace Session

section Decoder

variable [Gzip.Decoder]

/-- The question is a tuple of so many arguments, and the call with them gives the answer and leaves
the session as it is. -/
def AnswersAlone (session : Session) (handle : Term) (one : String) (width : Nat)
    (question answer : Term) : Prop :=
  ∃ arguments, question = .tuple arguments ∧ arguments.length = width ∧
    session.call one (handle :: arguments) = .ok (.value answer, session)

/-- The question is no tuple of so many arguments, or one of them is bad for the call with them. -/
def RefusesAlone (session : Session) (handle : Term) (one : String) (width : Nat)
    (question : Term) : Prop :=
  ∀ arguments, question = .tuple arguments → arguments.length = width →
    session.call one (handle :: arguments) = .error .badArgument

/-- A call with a list of questions stands for calls with one question each. -/
structure Batches (session : Session) (handle : Term) (one many : String) (width : Nat) :
    Prop where
  /-- The answers are those to the single questions, one for each of them in their order. -/
  answers : ∀ (questions : List Term) (result : Answer × Session),
    session.call many [handle, .list questions] = .ok result ↔
      ∃ answers, result = (.value (.list answers), session) ∧
        List.Forall₂ (session.AnswersAlone handle one width) questions answers
  /-- There are none exactly if a question is refused by itself. -/
  failures : ∀ (questions : List Term) (failure : Failure),
    session.call many [handle, .list questions] = .error failure ↔
      failure = .badArgument ∧
        ∃ question ∈ questions, session.RefusesAlone handle one width question

section Questions

variable {session : Session} {handle : Term} {one many : String} {width : Nat}
  (ask : Term → Except Failure Term)
  (hwidth : ∀ question answer, ask question = .ok answer →
    ∃ arguments, question = .tuple arguments ∧ arguments.length = width)
  (hone : ∀ arguments, arguments.length = width → session.call one (handle :: arguments) =
    (ask (.tuple arguments)).map fun answer => (.value answer, session))
include hwidth hone

theorem answersAlone_iff (question answer : Term) :
    session.AnswersAlone handle one width question answer ↔ ask question = .ok answer := by
  constructor
  · rintro ⟨arguments, rfl, hlength, hcall⟩
    rw [hone arguments hlength, map_eq_ok_iff] at hcall
    obtain ⟨other, hother, hsame⟩ := hcall
    obtain rfl := Answer.value.inj (Prod.mk.inj hsame).1
    exact hother
  · intro hanswer
    obtain ⟨arguments, rfl, hlength⟩ := hwidth question answer hanswer
    refine ⟨arguments, rfl, hlength, ?_⟩
    rw [hone arguments hlength, hanswer]
    rfl

theorem refusesAlone_iff (hask : ∀ question, IsStrict (ask question)) (question : Term) :
    session.RefusesAlone handle one width question ↔ ask question = .error .badArgument := by
  constructor
  · intro hrefused
    rcases (hask question).eq_or with ⟨answer, hanswer⟩ | hbad
    · -- a question with an answer is a tuple whose own call has that answer
      obtain ⟨arguments, htuple, hlength, hcall⟩ :=
        (answersAlone_iff ask hwidth hone question answer).mpr hanswer
      rw [hrefused arguments htuple hlength] at hcall
      nomatch hcall
    · exact hbad
  · rintro hbad arguments rfl hlength
    rw [hone arguments hlength, map_eq_error_iff]
    exact hbad

/-- It is enough that both calls come down to the same questions. -/
theorem batches_of_mapM (hask : ∀ question, IsStrict (ask question))
    (hmany : ∀ questions, session.call many [handle, .list questions] =
      ((questions.mapM ask).map .list).map fun answer => (.value answer, session)) :
    session.Batches handle one many width := by
  have halone : session.AnswersAlone handle one width = fun question answer =>
      ask question = .ok answer := by
    funext question answer
    exact propext (answersAlone_iff ask hwidth hone question answer)
  constructor
  · intro questions result
    rw [hmany, halone, map_eq_ok_iff]
    simp only [map_eq_ok_iff, mapM_eq_ok_iff]
    constructor
    · rintro ⟨term, ⟨answers, hanswers, rfl⟩, rfl⟩
      exact ⟨answers, rfl, hanswers⟩
    · rintro ⟨answers, rfl, hanswers⟩
      exact ⟨_, ⟨answers, hanswers, rfl⟩, rfl⟩
  · intro questions failure
    rw [hmany, map_eq_error_iff, map_eq_error_iff, mapM_eq_error_iff hask]
    simp only [refusesAlone_iff ask hwidth hone hask]

end Questions

end Decoder

/-- What a page and a point are answered with. -/
def lineTerm (index : Index) (spot : UInt32 × Point) : Term :=
  .ofOption .ofSourceLine (index.inverse? {} spot.1 spot.2)

/-- What a file and a line are answered with. -/
def regionTerm (index : Index) (query : String × UInt32) : Term :=
  .ofOption .ofRegion (index.forward? {} query.1 query.2)

section Lookups

variable {session : Session} {handle : Term} {index : Index} (h : session.index handle = .ok index)
include h

theorem inverseLookup_eq (page x y : Term) : session.inverseLookup handle page x y =
    (Term.tuple [page, x, y]).toSpot.map (lineTerm index) := by
  rw [inverseLookup, h, Term.toSpot_tuple]
  cases page.toWord with
  | error failure => rfl
  | ok number => cases toPoint x y <;> rfl

theorem inverseLookupMany_list (points : List Term) :
    session.inverseLookupMany handle (.list points) =
      (points.mapM fun point : Term => point.toSpot.map (lineTerm index)).map .list := by
  have hspots : session.inverseLookupMany handle (.list points) =
      points.mapM Term.toSpot >>= fun spots =>
        .ok (.list ((index.inverseAll {} spots).map (.ofOption .ofSourceLine))) := by
    rw [← Term.mapM_toPlace_bind, bind_assoc, inverseLookupMany, h, Term.toList_list]
    rfl
  rw [hspots, ← map_mapM]
  cases points.mapM Term.toSpot with
  | error failure => rfl
  | ok spots =>
      exact congrArg (fun answers => Except.ok (Term.list answers)) List.map_map

theorem forwardLookup_eq (file line : Term) : session.forwardLookup handle file line =
    (Term.tuple [file, line]).toQuery.map (regionTerm index) := by
  rw [forwardLookup, h, Term.toQuery_tuple]
  cases file.toText with
  | error failure => rfl
  | ok name => cases line.toWord <;> rfl

theorem forwardLookupMany_list (queries : List Term) :
    session.forwardLookupMany handle (.list queries) =
      (queries.mapM fun query : Term => query.toQuery.map (regionTerm index)).map .list := by
  rw [forwardLookupMany, h, Term.toList_list, ← map_mapM]
  cases queries.mapM Term.toQuery with
  | error failure => rfl
  | ok found =>
      exact congrArg (fun answers => Except.ok (Term.list answers)) List.map_map

theorem batches_inverse_lookup [Gzip.Decoder] :
    session.Batches handle "inverse_lookup" "inverse_lookup_many" 3 := by
  refine batches_of_mapM (fun point => point.toSpot.map (lineTerm index)) ?_ ?_
    (fun point => point.isStrict_toSpot.map _) ?_
  · intro point answer hanswer
    obtain ⟨spot, hspot, -⟩ := map_eq_ok_iff.mp hanswer
    obtain ⟨page, x, y, rfl⟩ := Term.eq_tuple_of_toSpot hspot
    exact ⟨[page, x, y], rfl, rfl⟩
  · intro arguments hlength
    obtain ⟨page, x, y, rfl⟩ := List.length_eq_three.mp hlength
    rw [← inverseLookup_eq h]
    rfl
  · intro points
    rw [← inverseLookupMany_list h]
    rfl

theorem batches_forward_lookup [Gzip.Decoder] :
    session.Batches handle "forward_lookup" "forward_lookup_many" 2 := by
  refine batches_of_mapM (fun query => query.toQuery.map (regionTerm index)) ?_ ?_
    (fun query => query.isStrict_toQuery.map _) ?_
  · intro query answer hanswer
    obtain ⟨found, hfound, -⟩ := map_eq_ok_iff.mp hanswer
    obtain ⟨file, line, rfl⟩ := Term.eq_tuple_of_toQuery hfound
    exact ⟨[file, line], rfl, rfl⟩
  · intro arguments hlength
    obtain ⟨file, line, rfl⟩ := List.length_eq_two.mp hlength
    rw [← forwardLookup_eq h]
    rfl
  · intro queries
    rw [← forwardLookupMany_list h]
    rfl

/-- With the handle of an index, both kinds of look-up answer a list of questions as they answer the
single ones: points by their page and coordinates, lines by their file and number. -/
theorem batches_lookups [Gzip.Decoder] :
    session.Batches handle "inverse_lookup" "inverse_lookup_many" 3 ∧
      session.Batches handle "forward_lookup" "forward_lookup_many" 2 :=
  ⟨batches_inverse_lookup h, batches_forward_lookup h⟩

end Lookups

/-- A point with a decimal and a whole coordinate, one with two whole ones and one on no page. The
file alone is no question, so the line asked for with it has no answer either. -/
theorem batches_lookups_mixed :
    let text := Text.Utf8.encode ("Input:1:a\nUnit:65536\nContent:\n\x7b1\n(1,1:0,0:99,99,0\n" ++
      "[1,2:0,0:99,99,0\n(1,3:50,0:9,9,0\ng1,4:50,0\n)\n(1,5:20,0:9,9,0\ng1,6:20,0\n)\n]\n)\n")
    let session : Session := ⟨#[Index.ofDocument none text]⟩
    let handle := Term.handle (some 0)
    session.index handle = .ok (Index.ofDocument none text) ∧
      session.call "inverse_lookup_many" [handle, .list [.tuple [.int 1, .float 2, .int (-5)],
          .tuple [.int 1, .int 55, .int (-5)], .tuple [.int 2, .int 0, .int 0]]] =
        .ok (.value (.list [.ofSourceLine ⟨"a", 6⟩, .ofSourceLine ⟨"a", 4⟩, .absent]), session) ∧
      session.call "forward_lookup_many" [handle, .list [.tuple [.text "a", .int 4],
          .tuple [.text "a"]]] = .error .badArgument := by
  intro text session handle
  have hindex : session.index handle = .ok (Index.ofDocument none text) := rfl
  obtain ⟨hpoints, hlines⟩ := batches_lookups hindex
  have hnear : (Index.ofDocument none text).inverse? {} 1 ⟨2, Float.ofInt (-5)⟩ =
      some ⟨"a", 6⟩ := by decide +kernel
  have hfar : (Index.ofDocument none text).inverse? {} 1 ⟨Float.ofInt 55, Float.ofInt (-5)⟩ =
      some ⟨"a", 4⟩ := by decide +kernel
  have hnone : (Index.ofDocument none text).inverse? {} 2 ⟨Float.ofInt 0, Float.ofInt 0⟩ =
      none := by decide +kernel
  have hsay {found other : Option SourceLine} (hsame : found = other) :
      (.ok (.value (.ofOption .ofSourceLine found), session) : Except Failure (Answer × Session)) =
        .ok (.value (.ofOption .ofSourceLine other), session) := by rw [hsame]
  refine ⟨hindex, (hpoints.answers _ _).mpr ⟨_, rfl, ?_⟩, (hlines.failures _ _).mpr ⟨rfl, ?_⟩⟩
  · exact .cons ⟨_, rfl, rfl, hsay hnear⟩
      (.cons ⟨_, rfl, rfl, hsay hfar⟩ (.cons ⟨_, rfl, rfl, hsay hnone⟩ .nil))
  · refine ⟨.tuple [.text "a"], by simp, ?_⟩
    rintro arguments hsame hlength
    obtain rfl := Term.tuple.inj hsame
    contradiction

end Session

end PageSync.Host
