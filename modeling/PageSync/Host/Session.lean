import PageSync.Deflate.Decoder
import PageSync.Host.Answer
import PageSync.Host.Decode
import PageSync.Host.Function
import PageSync.Index.Read

/-! # Calls

A session holds the indexes that the host has made. Each is known by a handle
and never changes. A call decodes its arguments from left to right and answers
with a term or fails; only a parse adds an index. Parses read compressed files
with the decoder at hand.
-/

namespace PageSync.Host

/-- The indexes that were made, by their handles. -/
structure Session where
  indexes : Array Index := #[]

namespace Session

/-- The index behind a handle. -/
def index (session : Session) : Term → Except Failure Index
  | .handle (some number) =>
    match session.indexes[number]? with
    | some index => .ok index
    | none => .error .badArgument
  | _ => .error .badArgument

/-- Makes the index of a file and answers with its handle, or with the error. -/
def parse [Gzip.Decoder] (session : Session) (root : Option String) (bytes : List UInt8) :
    Term × Session :=
  match Index.ofFile root bytes with
  | .ok index =>
    (.tuple [.atom "ok", .handle (some session.indexes.size)], ⟨session.indexes.push index⟩)
  | .error error => (.tuple [.atom "error", .text error.message], session)

/-- The source line at a point. -/
def inverseLookup (session : Session) (handle page x y : Term) : Except Failure Term := do
  let index ← session.index handle
  let page ← page.toWord
  let point ← toPoint x y
  .ok (.ofOption .ofSourceLine (index.inverse? {} page point))

/-- The region of a source line. -/
def forwardLookup (session : Session) (handle file line : Term) : Except Failure Term := do
  let index ← session.index handle
  let file ← file.toText
  let line ← line.toWord
  .ok (.ofOption .ofRegion (index.forward? {} file line))

/-- The source lines at many points. Coordinates are decoded once the whole
list is known to be good. -/
def inverseLookupMany (session : Session) (handle points : Term) : Except Failure Term := do
  let index ← session.index handle
  let places ← points.toList Term.toPlace
  let points ← places.mapM fun (page, x, y) => do
    let point ← toPoint x y
    .ok (page, point)
  .ok (.list ((index.inverseAll {} points).map (.ofOption .ofSourceLine)))

/-- The regions of many source lines. -/
def forwardLookupMany (session : Session) (handle queries : Term) : Except Failure Term := do
  let index ← session.index handle
  let queries ← queries.toList Term.toQuery
  .ok (.list ((index.forwardAll {} queries).map (.ofOption .ofRegion)))

/-- A question about an index. -/
def ask (session : Session) (handle : Term) (answer : Index → Term) : Except Failure Term :=
  (session.index handle).map answer

/-- A call that makes no index. -/
def query (session : Session) : Function → List Term → Except Failure Term
  | .inverseLookup, [handle, page, x, y] => session.inverseLookup handle page x y
  | .forwardLookup, [handle, file, line] => session.forwardLookup handle file line
  | .inverseLookupMany, [handle, points] => session.inverseLookupMany handle points
  | .forwardLookupMany, [handle, queries] => session.forwardLookupMany handle queries
  | .header, [handle] => session.ask handle fun index => .ofHeader index.header
  | .inputs, [handle] => session.ask handle fun index => .ofInputs index.inputs
  | .pages, [handle] => session.ask handle fun index => .list (index.pageNumbers.map .word)
  | _, _ => .error .undefinedFunction

/-- Runs a function on its arguments. -/
def run [Gzip.Decoder] (session : Session) (f : Function) (arguments : List Term) :
    Except Failure (Answer × Session) :=
  match f, arguments with
  | .parse, [input] => do
    let bytes ← input.toBytes
    let (term, session) := session.parse (some defaultRoot) bytes
    .ok (.value term, session)
  | .parseWithOptions, [input, options] => do
    let bytes ← input.toBytes
    let root ← options.toRoot
    let (term, session) := session.parse root bytes
    .ok (.value term, session)
  | .memoryStats, [] => .ok (.memory {}, session)
  | .resetMemoryStats, [] => .ok (.memory {}, session)
  | f, arguments => (session.query f arguments).map fun term => (.value term, session)

/-- Calls the function of a name. -/
def call [Gzip.Decoder] (session : Session) (name : String) (arguments : List Term) :
    Except Failure (Answer × Session) :=
  match Function.find? name arguments.length with
  | some f => session.run f arguments
  | none => .error .undefinedFunction

end Session

end PageSync.Host
