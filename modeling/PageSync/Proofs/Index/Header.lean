import PageSync.Proofs.Index.Forest
import PageSync.Proofs.Stream.Header

/-! # One scale for a document

Records are converted when they come, with the scale that is known then. As the
header of a document ends before its first record, this is the scale of the
whole index: later lines that look like declarations of the header are none.
-/

namespace PageSync

open Text

namespace Node

/-- The node is what a record becomes under a scale. Offsets are added before the conversion, an
extent that is not given is 0, and only the sign of a width is kept beside its value. -/
structure Converts (node : Node) (scale : Scale) (record : Record) : Prop where
  kind : node.kind = record.kind
  location : node.location = ⟨record.input, record.line⟩
  column : node.column = record.column
  h : node.h = scale.points (clamp64 (record.h + scale.xOffset))
  v : node.v = scale.points (clamp64 (record.v + scale.yOffset))
  width : node.width =
    (record.extent.map Extent.width).elim 0 fun raw => scale.points (clamp64 raw.natAbs)
  height : node.height =
    (record.extent.bind Extent.height).elim 0 fun raw => scale.points (clamp64 raw.natAbs)
  depth : node.depth =
    (record.extent.bind Extent.depth).elim 0 fun raw => scale.points (clamp64 raw.natAbs)
  reversed : node.reversed = true ↔ ∃ extent, record.extent = some extent ∧ extent.width < 0

theorem converts_ofRecord (scale : Scale) (page : UInt32) (record : Record) :
    (ofRecord scale page record).Converts scale record where
  kind := rfl
  location := rfl
  column := rfl
  h := rfl
  v := rfl
  width := by
    rw [ofRecord]
    cases record.extent with
    | none => rfl
    | some extent => rfl
  height := by
    rw [ofRecord]
    cases record.extent.bind Extent.height with
    | none => rfl
    | some raw => rfl
  depth := by
    rw [ofRecord]
    cases record.extent.bind Extent.depth with
    | none => rfl
    | some raw => rfl
  reversed := by
    rw [ofRecord]
    cases record.extent with
    | none => simp
    | some extent => simp

end Node

namespace Draft

variable {root : Option String}

theorem header_add (draft : Draft) (event : Event) :
    (draft.add event).index.header =
      event.field?.elim draft.index.header (declare draft.index.header) := by
  cases hlocal : event.isLocal with
  | true =>
      rw [← (draft.sameFrame_add event hlocal).header]
      cases event with
      | header field => contradiction
      | _ => rfl
  | false =>
      cases event with
      | header field => rfl
      | input tag path => rfl
      | pageStart page => rfl
      | pageEnd page => rfl
      | _ => contradiction

/-- The header of an index is what the events declare, one after the other. -/
theorem header_foldl_add (draft : Draft) (events : List Event) :
    (events.foldl add draft).index.header =
      (events.filterMap Event.field?).foldl declare draft.index.header := by
  induction events generalizing draft with
  | nil => rfl
  | cons event events ih =>
      rw [List.foldl_cons, ih, header_add, List.filterMap_cons]
      cases event.field? with
      | none => rfl
      | some field => rfl

/-- If each declaration sets a part of the header or leaves it as it is, the last one counts that
sets it. -/
theorem foldl_declare {α : Type} {get : Header → α} {pick : HeaderField → Option α}
    (hdeclare : ∀ header field, get (declare header field) = (pick field).getD (get header))
    (fields : List HeaderField) (header : Header) :
    get (fields.foldl declare header) = (fields.filterMap pick).getLast?.getD (get header) := by
  induction fields using List.reverseRecOn with
  | nil => rfl
  | append_singleton fields field ih =>
      rw [List.foldl_append, List.foldl_cons, List.foldl_nil, hdeclare, List.filterMap_append,
        List.filterMap_cons, List.filterMap_nil, ih]
      cases pick field with
      | none => rw [List.append_nil, Option.getD_none]
      | some value => rw [List.getLast?_concat, Option.getD_some, Option.getD_some]

end Draft

namespace Document

/-- The header of a document by its lines: of each field the last value that can be read, or the
default if there is none. The order among different fields has no meaning. -/
def declaredHeader (text : List UInt8) : Header where
  version := (declared "SyncTeX Version:" text).getLast?
  output := (declaredOutputs text).getLast?.map fun path =>
    String.ofList (trimWhitespace (Utf8.decodeLenient path).toList)
  scale :=
    { unit := (declared "Unit:" text).getLast?.getD 1
      magnification := (declared "Magnification:" text).getLast?.getD 1000
      xOffset := (declared "X Offset:" text).getLast?.getD 0
      yOffset := (declared "Y Offset:" text).getLast?.getD 0 }

end Document

namespace Index

open Document

variable (root : Option String) (text : List UInt8)

/-- A part of the header is the last one that is declared of it. -/
theorem get_header_ofDocument {α : Type} (get : Header → α) {pick : HeaderField → Option α}
    (hdeclare : ∀ header field,
      get (Draft.declare header field) = (pick field).getD (get header)) :
    get (ofDocument root text).header =
      (((events text).filterMap Event.field?).filterMap pick).getLast?.getD (get {}) := by
  rw [← Draft.foldl_declare hdeclare]
  exact congrArg get (Draft.header_foldl_add { root := root } (events text))

/-- A part of the header that is not there without a declaration. -/
theorem get?_header_ofDocument {α : Type} (get : Header → Option α)
    {pick : HeaderField → Option α} (hnone : get {} = none)
    (hdeclare : ∀ header field,
      get (Draft.declare header field) = (pick field).or (get header)) :
    get (ofDocument root text).header =
      (((events text).filterMap Event.field?).filterMap pick).getLast? := by
  have hgetD (header : Header) (field : HeaderField) :
      get (Draft.declare header field) = ((pick field).map some).getD (get header) := by
    rw [hdeclare]
    cases pick field with
    | none => rfl
    | some value => rfl
  have hget := get_header_ofDocument root text get hgetD
  rw [hget, ← List.map_filterMap, List.getLast?_map, hnone]
  cases (((events text).filterMap Event.field?).filterMap pick).getLast? with
  | none => rfl
  | some value => rfl

/-- A part of the scale is the last integer that is declared under its label. -/
theorem scale_header_ofDocument (get : Scale → Int) {label : String}
    (hlabel : label ∈ integerLabels.map Prod.fst)
    (hdeclare : ∀ header field, get (Draft.declare header field).scale =
      (field.int? label).getD (get header.scale)) :
    get (ofDocument root text).header.scale =
      (declared label text).getLast?.getD (get {}) := by
  rw [declared_eq hlabel]
  exact get_header_ofDocument root text (fun header => get header.scale) hdeclare

theorem header_ofDocument : (ofDocument root text).header = declaredHeader text := by
  set header := (ofDocument root text).header
  have hversion : header.version = (declared "SyncTeX Version:" text).getLast? := by
    rw [declared_eq (by decide)]
    exact get?_header_ofDocument root text Header.version rfl fun header field => by
      cases field <;> rfl
  have houtput : header.output = (declaredOutputs text).getLast?.map fun path =>
      String.ofList (trimWhitespace (Utf8.decodeLenient path).toList) := by
    rw [declaredOutputs_eq, ← List.getLast?_map, List.map_filterMap]
    exact get?_header_ofDocument root text Header.output rfl fun header field => by
      cases field <;> rfl
  have hunit := scale_header_ofDocument root text Scale.unit (show "Unit:" ∈ _ by decide)
    fun header field => by cases field <;> rfl
  have hmagnification := scale_header_ofDocument root text Scale.magnification
    (show "Magnification:" ∈ _ by decide) fun header field => by cases field <;> rfl
  have hx := scale_header_ofDocument root text Scale.xOffset (show "X Offset:" ∈ _ by decide)
    fun header field => by cases field <;> rfl
  have hy := scale_header_ofDocument root text Scale.yOffset (show "Y Offset:" ∈ _ by decide)
    fun header field => by cases field <;> rfl
  calc
    header = ⟨header.version, header.output, ⟨header.scale.unit, header.scale.magnification,
        header.scale.xOffset, header.scale.yOffset⟩⟩ := rfl
    _ = declaredHeader text := by
      rw [hversion, houtput, hunit, hmagnification, hx, hy]
      rfl

/-! ## Nodes under the scale of the index -/

variable {root text}

/-- Where something is said about a page, the header is that of the whole document. -/
theorem header_take {i : Nat} {event : Event} (hevent : (events text)[i]? = some event)
    (hcontent : event.isContent = true) :
    (Draft.ofEvents root ((events text).take i)).index.header =
      (ofDocument root text).header := by
  have hnone : ((events text).drop i).filterMap Event.field? = [] := by
    rw [List.filterMap_eq_nil_iff]
    intro later hlater
    obtain ⟨j, hj⟩ := List.mem_iff_getElem?.mp hlater
    rw [List.getElem?_drop] at hj
    cases later with
    | header field => exact absurd (lt_of_field?_of_isContent hj hevent hcontent) (by omega)
    | _ => rfl
  rw [ofDocument, ← List.take_append_drop i (events text), Draft.ofEvents_append,
    Draft.header_foldl_add, List.take_append_drop, hnone, List.foldl_nil]

/-- Every node comes from a record, and is what the record becomes under the scale of the index. -/
theorem exists_converts_of_node? {ref : NodeRef} {node : Node}
    (hnode : (ofDocument root text).node? ref = some node) :
    ∃ i record, place? (events text) i = some ref ∧
      (events text)[i]? = some (.record record) ∧
      node.Converts (ofDocument root text).header.scale record := by
  have harrival : ref ∈ arrivals (events text) := by
    rw [mem_arrivals_iff root]
    exact Option.isSome_iff_exists.mpr ⟨node, hnode⟩
  obtain ⟨i, -, hplace⟩ := List.mem_filterMap.mp harrival
  obtain ⟨page, hpage, -⟩ := Option.map_eq_some_iff.mp hplace
  obtain ⟨⟨record, hrecord⟩, hopen⟩ := recordPage?_eq_some_iff.mp hpage
  obtain ⟨id, other, hother, hget, hbare⟩ := Draft.exists_node?_of_record root hrecord hopen
  obtain rfl : ref = ⟨page, id⟩ := Option.some.inj (hplace.symm.trans hother)
  obtain rfl : node = other := Option.some.inj (hnode.symm.trans hget)
  have hconverts := Node.converts_ofRecord (ofDocument root text).header.scale page record
  rw [Draft.nodeOf, header_take hrecord rfl] at hbare
  refine ⟨i, record, hplace, hrecord, ?_⟩
  rw [hbare]
  -- where a node stands among the others has no part in its conversion
  exact ⟨hconverts.kind, hconverts.location, hconverts.column, hconverts.h, hconverts.v,
    hconverts.width, hconverts.height, hconverts.depth, hconverts.reversed⟩

/-- A document has one scale. All declarations of its header stand before all that tells something
about a page, the header holds the last value of each field that can be read, whatever the order
among different fields, and every node is its record converted with the scale of that header. -/
theorem oneScale_ofDocument (root : Option String) (text : List UInt8) :
    (∀ (i j : Nat) (field : HeaderField) (event : Event), (events text)[i]? = some (.header field) →
      (events text)[j]? = some event → event.isContent = true → i < j) ∧
    (ofDocument root text).header = declaredHeader text ∧
    (∀ other, (∀ label ∈ integerLabels.map Prod.fst, declared label other = declared label text) →
      declaredOutputs other = declaredOutputs text →
      (ofDocument root other).header = (ofDocument root text).header) ∧
    ∀ ref node, (ofDocument root text).node? ref = some node →
      ∃ i record, place? (events text) i = some ref ∧
        (events text)[i]? = some (.record record) ∧
        node.Converts (ofDocument root text).header.scale record := by
  refine ⟨fun i j field event => lt_of_field?_of_isContent, header_ofDocument root text, ?_,
    fun ref node => exists_converts_of_node?⟩
  intro other hints houtputs
  rw [header_ofDocument, header_ofDocument, declaredHeader, hints _ (by decide), houtputs,
    hints _ (by decide), hints _ (by decide), hints _ (by decide), hints _ (by decide),
    ← declaredHeader]

/-- The second unit counts and the third line `Unit:` is none, as it stands in the content. What
does not declare a number leaves the offset as it was. -/
theorem oneScale_ofDocument_repeated :
    let text := Utf8.encode ("Unit:2\nX Offset:10\nUnit:3\nX Offset:?\nContent:\n\x7b1\n" ++
      "(1,1:4,4:-7,5\nUnit:9\nContent:\nX Offset:6\nh1,2:4,4\n")
    let index := ofDocument none text
    index.header = ⟨none, none, ⟨3, 1000, 10, 0⟩⟩ ∧
      Document.events text = [.header (.unit 2), .header (.xOffset 10), .header (.unit 3),
        .skipped (Utf8.encode "X Offset:?"), .pageStart 1,
        .record ⟨.hbox, 1, 1, none, 4, 4, some ⟨-7, some 5, none⟩⟩,
        .skipped (Utf8.encode "Unit:9"), .skipped (Utf8.encode "Content:"),
        .skipped (Utf8.encode "X Offset:6"), .record ⟨.voidHbox, 1, 2, none, 4, 4, none⟩] ∧
      ∀ ref node, index.node? ref = some node → ∃ i record, place? (events text) i = some ref ∧
        (events text)[i]? = some (.record record) ∧ node.Converts ⟨3, 1000, 10, 0⟩ record := by
  intro text index
  have hheader : index.header = ⟨none, none, ⟨3, 1000, 10, 0⟩⟩ := by
    decide +kernel
  have hnodes := (oneScale_ofDocument none text).2.2.2
  rw [hheader] at hnodes
  exact ⟨hheader, by decide +kernel, hnodes⟩

end Index

end PageSync
