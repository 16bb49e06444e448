/-! # Functions

The functions that the library gives its host. The host finds them by name and
number of arguments, and runs those that may take long on threads of their own.
-/

namespace PageSync.Host

/-- The name under which the host loads the library. -/
def moduleName : String := "Elixir.RustySyncTeX.Native"

/-- A function for the host. -/
inductive Function
  | forwardLookup
  | forwardLookupMany
  | header
  | inputs
  | inverseLookup
  | inverseLookupMany
  | memoryStats
  | pages
  | parse
  | parseWithOptions
  | resetMemoryStats
  deriving DecidableEq, Repr

namespace Function

/-- All functions, by name. -/
def all : List Function :=
  [forwardLookup, forwardLookupMany, header, inputs, inverseLookup, inverseLookupMany,
    memoryStats, pages, parse, parseWithOptions, resetMemoryStats]

theorem mem_all (f : Function) : f ∈ all := by
  cases f <;> decide

def name : Function → String
  | forwardLookup => "forward_lookup"
  | forwardLookupMany => "forward_lookup_many"
  | header => "header"
  | inputs => "inputs"
  | inverseLookup => "inverse_lookup"
  | inverseLookupMany => "inverse_lookup_many"
  | memoryStats => "memory_stats"
  | pages => "pages"
  | parse => "parse"
  | parseWithOptions => "parse_with_options"
  | resetMemoryStats => "reset_memory_stats"

def arity : Function → Nat
  | memoryStats | resetMemoryStats => 0
  | header | inputs | pages | parse => 1
  | forwardLookupMany | inverseLookupMany | parseWithOptions => 2
  | forwardLookup => 3
  | inverseLookup => 4

/-- Whether a call may take long. -/
def isLong : Function → Bool
  | forwardLookupMany | inverseLookupMany | parse | parseWithOptions => true
  | _ => false

/-- The function of this name with so many arguments. -/
def find? (name : String) (arity : Nat) : Option Function :=
  all.find? fun f => f.name == name && f.arity == arity

end Function

end PageSync.Host
