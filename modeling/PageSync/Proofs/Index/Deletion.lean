import PageSync.Proofs.Index.Damage
import PageSync.Proofs.Stream.Header

/-! # Deleted records

The line of a record that holds no other nodes can be left out of a document.
If the record lay on a page its node is all that the index then lacks, and if
it did not the index is the same: what differs is how many lines were counted
as left out, which nothing else depends on.
-/

namespace PageSync

open Text

namespace Document

variable {b : UInt8} {kind : Kind} {before after : List UInt8}

/-- A record line says nothing in the header. -/
theorem headerEvent_of_kind (hb : Kind.ofByte? b = some kind) (body : List UInt8) :
    headerEvent (b :: body) = .skipped (b :: body) := by
  have hafter {label : String} {c : UInt8} {bytes : List UInt8}
      (hlabel : Utf8.encode label = c :: bytes) (hc : Kind.ofByte? c = none) :
      after? label (b :: body) = none :=
    after?_cons_eq_none hlabel (ne_of_ofByte? hb hc) body
  have hinteger : integerField? (b :: body) = none := by
    rw [integerField?, List.findSome?_eq_none_iff]
    rintro ⟨label, field⟩ hlabel
    have hnone : after? label (b :: body) = none := by
      simp only [integerLabels, List.mem_cons, Prod.mk.injEq, List.not_mem_nil, or_false] at hlabel
      rcases hlabel with ⟨rfl, -⟩ | ⟨rfl, -⟩ | ⟨rfl, -⟩ | ⟨rfl, -⟩ | ⟨rfl, -⟩ <;>
        exact hafter rfl rfl
    simp only [hnone, Option.bind_none, Option.map_none]
  rw [headerEvent, hafter rfl rfl, hafter rfl rfl, hinteger]

/-- A record line leaves the part of the document as it is. -/
theorem behind_of_kind (hb : Kind.ofByte? b = some kind) (body : List UInt8) (part : Part) :
    part.behind (b :: body) = part := by
  cases part with
  | header =>
      refine behind_header fun hcontent => ?_
      exact ne_of_ofByte? hb rfl (List.head_eq_of_cons_eq (hcontent.trans rfl))
  | content => exact behind_content (ne_of_ofByte? hb rfl) body
  | postamble => rfl

theorem lineEvents_header_of_kind (hb : Kind.ofByte? b = some kind) (body : List UInt8) :
    lineEvents .header (b :: body) = [.skipped (b :: body)] := by
  have hcontent : b :: body ≠ Utf8.encode "Content:" := fun hcontent =>
    ne_of_ofByte? hb rfl (List.head_eq_of_cons_eq (hcontent.trans rfl))
  rw [lineEvents_header (List.cons_ne_nil b body) hcontent, headerEvent_of_kind hb]

end Document

namespace Draft

/-- The draft without the counts of what could not be used. -/
def uncounted (draft : Draft) : Draft := { draft with skipped := 0, outside := 0 }

@[simp]
theorem index_uncounted (draft : Draft) : draft.uncounted.index = draft.index := rfl

theorem uncounted_add (draft : Draft) (event : Event) :
    (draft.add event).uncounted = (draft.uncounted.add event).uncounted := by
  cases event with
  | record record =>
      simp only [add, addRecord, uncounted]
      split
      · rfl
      · rfl
  | malformed kind =>
      cases hopens : draft.openPage.isSome && kind.isContainer with
      | true => simp only [add, uncounted, hopens, if_true]
      | false => simp only [add, uncounted, hopens, Bool.false_eq_true, if_false]
  | _ => rfl

/-- Nothing that comes depends on the counts. -/
theorem uncounted_foldl_add {draft other : Draft} (h : draft.uncounted = other.uncounted)
    (events : List Event) :
    (events.foldl add draft).uncounted = (events.foldl add other).uncounted := by
  induction events generalizing draft other with
  | nil => exact h
  | cons event events ih =>
      rw [List.foldl_cons, List.foldl_cons]
      apply ih
      rw [uncounted_add, h, ← uncounted_add]

section Deleted

variable {root : Option String} {events : List Event} {number : UInt32} {record : Record}

/-- Events that are only counted can be left out. -/
theorem index_ofEvents_of_uncounted {notes : List Event}
    (h : (notes.foldl add (ofEvents root events)).uncounted = (ofEvents root events).uncounted)
    (more : List Event) :
    (ofEvents root (events ++ notes ++ more)).index = (ofEvents root (events ++ more)).index := by
  rw [ofEvents_append, ofEvents_append root events, ofEvents_append root events,
    ← index_uncounted, uncounted_foldl_add h, index_uncounted]

/-- Without the record of a node that holds no others, its node is all that the index lacks. -/
theorem erases_ofEvents_leaf (hopen : (ofEvents root events).openPage = some number)
    (hrecord : record.kind.isContainer = false) (more : List Event) :
    (ofEvents root (events ++ [.record record] ++ more)).index.Erases
      ⟨number, ((ofEvents root events).index.pageAt number).size⟩
      (ofEvents root (events ++ more)).index := by
  have hsound := (sound_ofEvents root events).add (.record record)
  rw [ofEvents_append, ofEvents_append_singleton, ofEvents_append root events]
  exact ((lacks_of_leaf hopen hrecord).foldl hsound more).erases

end Deleted

end Draft

namespace Index

/-- The index of a document without the line of a record that holds no other nodes. Either nothing
is missing, or the node of the record and nothing else. -/
theorem eq_or_erases_of_leaf (root : Option String) {before body after : List UInt8}
    {first : UInt8} {kind : Kind} {record : Record}
    (hline : IsLine before (first :: body) after) (hkind : Kind.ofByte? first = some kind)
    (hleaf : kind.isContainer = false) (hbody : Record.parse? kind (chomp body) = some record) :
    ofDocument root (before ++ after.tail) = ofDocument root (before ++ (first :: body) ++ after) ∨
      ∃ deleted node,
        (ofDocument root (before ++ (first :: body) ++ after)).Erases deleted
          (ofDocument root (before ++ after.tail)) ∧
        (ofDocument root (before ++ (first :: body) ++ after)).node? deleted = some node ∧
        node.kind = kind ∧ node.location = ⟨record.input, record.line⟩ := by
  have hother := Document.events_append hline.before after.tail
  have hindex := Document.events_of_isLine hline (List.cons_ne_nil first body)
  rw [chomp_cons (Document.ne_of_ofByte? hkind rfl), Document.behind_of_kind hkind] at hindex
  rw [ofDocument, ofDocument, hindex, hother]
  cases hpart : Document.partBehind before with
  | header =>
      rw [Document.lineEvents_header_of_kind hkind]
      exact Or.inl (Draft.index_ofEvents_of_uncounted rfl _).symm
  | postamble =>
      have hnothing : Document.lineEvents .postamble (first :: chomp body) = [] := rfl
      rw [hnothing, List.append_nil]
      exact Or.inl rfl
  | content =>
      rw [Document.lineEvents_of_kind hkind, Document.recordEvents, hbody]
      cases hopen : (Draft.ofEvents root (Document.events before)).openPage with
      | none =>
          refine Or.inl (Draft.index_ofEvents_of_uncounted ?_ _).symm
          simp only [List.foldl_cons, List.foldl_nil, Draft.add, Draft.addRecord, Draft.uncounted,
            hopen]
      | some number =>
          have hkind : record.kind = kind := Record.kind_of_parse? hbody
          obtain ⟨node, hnode, hbare⟩ := Draft.exists_node?_of_openPage hopen
            (Document.eventsFrom .content (lines after.tail))
          exact Or.inr ⟨_, node, Draft.erases_ofEvents_leaf hopen (by rw [hkind, hleaf]) _, hnode,
            (congrArg Node.kind hbare).trans hkind, congrArg Node.location hbare⟩

end Index

end PageSync
