import TangledGraph.Json.Value

/-!
# Tables under construction

A TOML text fills a tree of tables statement by statement. A table remembers
how it came about, since that decides whether a later statement may name it
again: a header names a table once, and a dotted key opens no table that a
header named.
-/
namespace TangledGraph.Toml

inductive Origin
  /-- Named by a header. -/
  | header
  /-- On the path of a header. -/
  | implied
  /-- On the path of a dotted key. -/
  | dotted
  deriving DecidableEq, Repr

inductive Node
  | value (document : Json)
  | table (origin : Origin) (entries : List (String × Node))
  /-- An array of tables, each with its entries. -/
  | tables (elements : List (List (String × Node)))

abbrev Entries := List (String × Node)

namespace Entries

/-- Puts a node in the place of the entry of that name, or at the end. -/
def put (name : String) (node : Node) : Entries → Entries
  | [] => [(name, node)]
  | (n, old) :: rest => if n = name then (n, node) :: rest else (n, old) :: put name node rest

/-- Sets the value of a dotted key, which must be new. The key leads on through
the last element of an array of tables, but sets no value right in it. -/
def setValue (j : Json) : List String → Entries → Option Entries
  | [], _ => none
  | [k], entries =>
    match entries.lookup k with
    | none => some (entries ++ [(k, .value j)])
    | some _ => none
  | k :: rest, entries =>
    match entries.lookup k with
    | none => do return entries ++ [(k, .table .dotted (← setValue j rest []))]
    | some (.table .header _) => none
    | some (.table origin sub) => do return put k (.table origin (← setValue j rest sub)) entries
    | some (.tables elements) => do
      let last ← if rest.length = 1 then none else elements.getLast?
      return put k (.tables (elements.dropLast ++ [← setValue j rest last])) entries
    | some (.value _) => none

/-- Applies a change to the table at the parent path of a header, in an array
of tables to the last one, and makes the tables that are missing on the way. -/
def descend (change : String → Entries → Option Entries) : List String → Entries → Option Entries
  | [], _ => none
  | [k], entries => change k entries
  | k :: rest, entries =>
    match entries.lookup k with
    | none => do return entries ++ [(k, .table .implied (← descend change rest []))]
    | some (.table origin sub) => do return put k (.table origin (← descend change rest sub)) entries
    | some (.tables elements) => do
      let last ← elements.getLast?
      return put k (.tables (elements.dropLast ++ [← descend change rest last])) entries
    | some (.value _) => none

/-- Opens a table by its header. -/
def openTable : List String → Entries → Option Entries :=
  descend fun k entries =>
    match entries.lookup k with
    | none => some (entries ++ [(k, .table .header [])])
    | some (.table .implied sub) => some (put k (.table .header sub) entries)
    | some _ => none

/-- Opens one more element of an array of tables. -/
def openElement : List String → Entries → Option Entries :=
  descend fun k entries =>
    match entries.lookup k with
    | none => some (entries ++ [(k, .tables [[]])])
    | some (.tables elements) => some (put k (.tables (elements ++ [[]])) entries)
    | some _ => none

/-- Sets a value in the table that the last header opened. -/
def setUnder (table key : List String) (j : Json) (entries : Entries) : Option Entries :=
  if table.isEmpty then setValue j key entries
  else
    let change := fun k entries => do
      match ← entries.lookup k with
      | .table origin sub => return put k (.table origin (← setValue j key sub)) entries
      | .tables elements =>
        let last ← elements.getLast?
        return put k (.tables (elements.dropLast ++ [← setValue j key last])) entries
      | .value _ => none
    descend change table entries

end Entries

mutual

def Node.toJson : Node → Json
  | .value j => j
  | .table _ entries => .object (entriesToJson entries)
  | .tables elements => .array (elementsToJson elements)

def entriesToJson : List (String × Node) → List (String × Json)
  | [] => []
  | (name, node) :: rest => (name, node.toJson) :: entriesToJson rest

def elementsToJson : List (List (String × Node)) → List Json
  | [] => []
  | entries :: rest => .object (entriesToJson entries) :: elementsToJson rest

end

end TangledGraph.Toml
