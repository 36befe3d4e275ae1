import Vigil.Json.Number
import Vigil.Table

/-!
# Reading JSON

Lists and tables are read by one recursion over the text (`Document.ofJson?`). Of two
entries of a table with one key the later one holds, and the keys are put in order.
What a document writes is read back as it was if floats are read exactly.
-/

namespace Vigil.Json

def isBlank (c : Char) : Bool := c == ' ' || c == '\t' || c == '\n' || c == '\r'

def skipBlanks (cs : List Char) : List Char := cs.dropWhile isBlank

/-- The rest of an escape by code. A character beyond 16 bits takes two of them. -/
def readCode : Reader Char := fun cs => do
  let (code, rest) ← readHex 4 cs
  if code.isValidChar then some (Char.ofNat code, rest)
  else
    match rest with
    | '\\' :: 'u' :: rest => do
      let (low, rest) ← readHex 4 rest
      if code < 0xdc00 ∧ 0xdc00 ≤ low ∧ low < 0xe000 then
        some (Char.ofNat (0x10000 + (code - 0xd800) * 0x400 + (low - 0xdc00)), rest)
      else none
    | _ => none

/-- The character that an escape stands for, behind its backslash. -/
def readEscape : Reader Char
  | '"' :: rest => some ('"', rest)
  | '\\' :: rest => some ('\\', rest)
  | '/' :: rest => some ('/', rest)
  | 'b' :: rest => some ('\x08', rest)
  | 'f' :: rest => some ('\x0c', rest)
  | 'n' :: rest => some ('\n', rest)
  | 'r' :: rest => some ('\r', rest)
  | 't' :: rest => some ('\t', rest)
  | 'u' :: rest => readCode rest
  | _ => none

/-- The rest of a text; `out` is what was read, backwards. -/
def readText : Nat → List Char → Reader String
  | 0, _ => fun _ => none
  | fuel + 1, out => fun cs =>
    match cs with
    | '"' :: rest => some (String.ofList out.reverse, rest)
    | '\\' :: rest => do
      let (c, rest) ← readEscape rest
      readText fuel (c :: out) rest
    | c :: rest => if 0x20 ≤ c.toNat then readText fuel (c :: out) rest else none
    | [] => none

/-- A value without parts. -/
def readPlain (exact : Bool) : Reader Document
  | 'n' :: 'u' :: 'l' :: 'l' :: rest => some (.absent, rest)
  | 't' :: 'r' :: 'u' :: 'e' :: rest => some (.boolean true, rest)
  | 'f' :: 'a' :: 'l' :: 's' :: 'e' :: rest => some (.boolean false, rest)
  | '"' :: rest => (readText (rest.length + 1) [] rest).map fun (s, rest) => (.text s, rest)
  | cs => readNumber exact cs

mutual

def readValue (exact : Bool) : Nat → Reader Document
  | 0 => fun _ => none
  | fuel + 1 => fun cs =>
    match skipBlanks cs with
    | '[' :: rest =>
      match skipBlanks rest with
      | ']' :: rest => some (.list [], rest)
      | rest => readItems exact fuel [] rest
    | '\x7b' :: rest =>
      match skipBlanks rest with
      | '\x7d' :: rest => some (.table [], rest)
      | rest => readEntries exact fuel [] rest
    | rest => readPlain exact rest

/-- The rest of a list; `out` are the items so far, backwards. -/
def readItems (exact : Bool) : Nat → List Document → Reader Document
  | 0, _ => fun _ => none
  | fuel + 1, out => fun cs => do
    let (d, rest) ← readValue exact fuel cs
    match skipBlanks rest with
    | ',' :: rest => readItems exact fuel (d :: out) rest
    | ']' :: rest => some (.list (d :: out).reverse, rest)
    | _ => none

/-- The rest of a table; `out` are the entries so far, backwards. -/
def readEntries (exact : Bool) : Nat → List (String × Document) → Reader Document
  | 0, _ => fun _ => none
  | fuel + 1, out => fun cs =>
    match skipBlanks cs with
    | '"' :: rest => do
      let (key, rest) ← readText (rest.length + 1) [] rest
      match skipBlanks rest with
      | ':' :: rest => do
        let (d, rest) ← readValue exact fuel rest
        match skipBlanks rest with
        | ',' :: rest => readEntries exact fuel ((key, d) :: out) rest
        | '\x7d' :: rest => some (.table (Table.ofList ((key, d) :: out).reverse).entries, rest)
        | _ => none
      | _ => none
    | _ => none

end

end Vigil.Json

namespace Vigil

/-- The document that a text writes, its floats the nearest ones if `exact`. -/
def Document.ofJson? (exact : Bool) (text : String) : Option Document := do
  let cs := text.toList
  let (d, rest) ← Json.readValue exact (cs.length + 1) cs
  if (Json.skipBlanks rest).isEmpty then some d else none

end Vigil
