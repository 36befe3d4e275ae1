import Vigil.Document

/-!
# Trees under construction

A TOML text builds its tree piece by piece. A table remembers how it came to be,
since that decides what may still be added to it: one that a header only passed
through may yet get a header of its own, one made by a dotted key takes what
dotted keys bind in it, and a value takes nothing.
-/

namespace Vigil.Toml

inductive Node where
  | value (d : Document)
  /-- A `headless` table has no header of its own, a `dotted` one stems from a
  dotted key. -/
  | table (headless dotted : Bool) (entries : List (String × Node))
  /-- The tables of repeated headers, the latest first. -/
  | tables (latest : List (String × Node)) (earlier : List (List (String × Node)))
deriving Inhabited

abbrev Entries := List (String × Node)

def Entries.find? (es : Entries) (k : String) : Option Node :=
  (List.find? (·.1 == k) es).map (·.2)

/-- Binds `k`, in its old place if it had one. -/
def Entries.set (es : Entries) (k : String) (n : Node) : Entries :=
  if es.any (·.1 == k) then es.map fun e => if e.1 == k then (k, n) else e
  else es ++ [(k, n)]

/-- Changes the table at the end of a path of headers. -/
def changeAt (f : Entries → Option Entries) : List String → Entries → Option Entries
  | [], es => f es
  | k :: path, es => do
    let node ← match es.find? k with
      | none => do
        let inner ← changeAt f path []
        some (Node.table true false inner)
      | some (.table headless dotted inner) => do
        let inner ← changeAt f path inner
        some (.table headless dotted inner)
      | some (.tables latest earlier) => do
        let latest ← changeAt f path latest
        some (.tables latest earlier)
      | some (.value _) => none
    return es.set k node

/-- Binds a dotted key below a table. On its way it passes through tables without
headers and the latest of repeated ones; the table that it binds in stems from a
dotted key. -/
def bind (d : Document) : List String → Entries → Option Entries
  | [], _ => none
  | [k], es => if (es.find? k).isSome then none else some (es.set k (.value d))
  | k :: path, es => do
    let isLast := path.length == 1
    let node ← match es.find? k with
      | none => do
        let inner ← bind d path []
        some (Node.table true true inner)
      | some (.table true dotted inner) => do
        if isLast && !dotted then none
        let inner ← bind d path inner
        some (.table true dotted inner)
      | some (.tables latest earlier) => do
        if isLast then none
        let latest ← bind d path latest
        some (.tables latest earlier)
      | some _ => none
    return es.set k node

/-- Opens the table that a header names. -/
def openTable (k : String) (es : Entries) : Option Entries :=
  match es.find? k with
  | none => some (es.set k (.table false false []))
  | some (.table true false inner) => some (es.set k (.table false false inner))
  | some _ => none

/-- Adds a table to the list that a repeated header names. -/
def addTable (k : String) (es : Entries) : Option Entries :=
  match es.find? k with
  | none => some (es.set k (.tables [] []))
  | some (.tables latest earlier) => some (es.set k (.tables [] (latest :: earlier)))
  | some _ => none

mutual

/-- The finished tree. -/
def Node.toDocument : Node → Document
  | .value d => d
  | .table _ _ es => .table (documents es)
  | .tables latest earlier =>
    .list ((tableDocuments earlier).reverse ++ [.table (documents latest)])

def documents : List (String × Node) → List (String × Document)
  | [] => []
  | (k, n) :: rest => (k, n.toDocument) :: documents rest

def tableDocuments : List (List (String × Node)) → List Document
  | [] => []
  | es :: rest => .table (documents es) :: tableDocuments rest

end

end Vigil.Toml
