import Vigil.Toml.Scalar
import Vigil.Toml.Tree

/-!
# Reading TOML

Lists and tables in braces are read by one recursion over the text, and the lines
of the text then build its tree (`Toml.parse`).
-/

namespace Vigil.Toml

mutual

/-- A value that opens at most `depth` brackets in one another. -/
def readValue : Nat → Nat → Reader Document
  | 0, _ => fun _ => none
  | fuel + 1, depth => fun cs =>
    match cs, depth with
    | '[' :: rest, depth + 1 => readItems fuel depth [] rest
    | '\x7b' :: rest, depth + 1 =>
      match skipBlanks rest with
      | '\x7d' :: rest => some (.table [], rest)
      | rest => readPairs fuel depth [] rest
    | '"' :: _, _ => (readText cs).map fun (s, rest) => (.text s, rest)
    | '\'' :: _, _ => (readText cs).map fun (s, rest) => (.text s, rest)
    | _, _ => readScalar cs

/-- The rest of a list; `out` are the items so far, backwards. -/
def readItems : Nat → Nat → List Document → Reader Document
  | 0, _, _ => fun _ => none
  | fuel + 1, depth, out => fun cs =>
    match skipSpace cs.length cs with
    | ']' :: rest => some (.list out.reverse, rest)
    | rest => do
      let (d, rest) ← readValue fuel depth rest
      match skipSpace rest.length rest with
      | ',' :: rest => readItems fuel depth (d :: out) rest
      | ']' :: rest => some (.list (d :: out).reverse, rest)
      | _ => none

/-- The rest of a table in braces. -/
def readPairs : Nat → Nat → Entries → Reader Document
  | 0, _, _ => fun _ => none
  | fuel + 1, depth, out => fun cs => do
    let (key, rest) ← readKey cs
    match rest with
    | '=' :: rest => do
      let (d, rest) ← readValue fuel depth (skipBlanks rest)
      let out ← bind d key out
      match skipBlanks rest with
      | ',' :: rest => readPairs fuel depth out rest
      | '\x7d' :: rest => some (.table (documents out), rest)
      | _ => none
    | _ => none

end

/-- What the lines so far have built, and the table that the next one adds to. -/
structure Draft where
  root : Entries := []
  path : List String := []

/-- A header in brackets, `double` or single. -/
def Draft.header (d : Draft) (double : Bool) (key : List String) : Option Draft := do
  let last ← key.getLast?
  let root ← changeAt (if double then addTable last else openTable last) key.dropLast d.root
  return { root, path := key }

/-- One line, and what follows it. -/
def Draft.line (d : Draft) (cs : List Char) : Option (Draft × List Char) :=
  match skipBlanks cs with
  | '[' :: '[' :: rest => do
    let (key, rest) ← readKey rest
    match rest with
    | ']' :: ']' :: rest => return (← d.header true key, ← finishLine rest)
    | _ => none
  | '[' :: rest => do
    let (key, rest) ← readKey rest
    match rest with
    | ']' :: rest => return (← d.header false key, ← finishLine rest)
    | _ => none
  | rest =>
    match finishLine rest with
    | some rest => some (d, rest)
    | none => do
      let (key, rest) ← readKey rest
      match rest with
      | '=' :: rest => do
        let (value, rest) ← readValue (rest.length + 1) (depthLimit - 1) (skipBlanks rest)
        let root ← changeAt (bind value key) d.path d.root
        return ({ d with root }, ← finishLine rest)
      | _ => none

/-- Reads `fuel` lines at most. -/
def Draft.lines : Nat → Draft → List Char → Option Draft
  | _, d, [] => some d
  | 0, _, _ => none
  | fuel + 1, d, cs => do
    let (d, rest) ← d.line cs
    d.lines fuel rest

/-- The tree that a text writes. -/
def parse (text : String) : Option Document :=
  let cs := match text.toList with
    | '\ufeff' :: rest => rest
    | cs => cs
  (Draft.lines (cs.length + 1) {} cs).map fun d => .table (documents d.root)

end Vigil.Toml
