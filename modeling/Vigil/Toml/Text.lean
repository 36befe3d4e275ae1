import Vigil.Reader

/-!
# Lexical parts of TOML

Blanks, comments, line ends, keys and quoted texts.
-/

namespace Vigil.Toml

def isBlank (c : Char) : Bool := c == ' ' || c == '\t'

def skipBlanks (cs : List Char) : List Char := cs.dropWhile isBlank

/-- Characters that a comment may hold, or a text without escapes. -/
def isPlain (c : Char) : Bool := c == '\t' || (0x20 ≤ c.toNat && c.toNat ≠ 0x7f)

/-- The line end in front, if there is one. -/
def lineEnd? : List Char → Option (List Char)
  | '\n' :: rest => some rest
  | '\r' :: '\n' :: rest => some rest
  | _ => none

/-- What follows a comment, if one is in front. -/
def skipComment : List Char → List Char
  | '#' :: rest => rest.dropWhile isPlain
  | cs => cs

/-- Skips blanks, a comment and the line end. The text may also end here. -/
def finishLine (cs : List Char) : Option (List Char) :=
  match skipComment (skipBlanks cs) with
  | [] => some []
  | rest => lineEnd? rest

/-- Skips blanks, comments and line ends. -/
def skipSpace : Nat → List Char → List Char
  | 0, cs => cs
  | fuel + 1, cs =>
    let rest := skipComment (skipBlanks cs)
    match lineEnd? rest with
    | some rest => skipSpace fuel rest
    | none => rest

/-- The character with the code in the next `n` hexadecimal digits. -/
def readCode (n : Nat) : Reader Char := fun cs => do
  let (code, rest) ← readHex n cs
  if code.isValidChar then some (Char.ofNat code, rest) else none

/-- The character that an escape stands for, behind its backslash. -/
def readEscape : Reader Char
  | 'b' :: rest => some ('\x08', rest)
  | 't' :: rest => some ('\t', rest)
  | 'n' :: rest => some ('\n', rest)
  | 'f' :: rest => some ('\x0c', rest)
  | 'r' :: rest => some ('\r', rest)
  | '"' :: rest => some ('"', rest)
  | '\\' :: rest => some ('\\', rest)
  | 'u' :: rest => readCode 4 rest
  | 'U' :: rest => readCode 8 rest
  | _ => none

/-- The rest of a quoted text on one line; `out` is what was read, backwards. -/
def readBasic : Nat → List Char → Reader String
  | 0, _ => fun _ => none
  | fuel + 1, out => fun cs =>
    match cs with
    | '"' :: rest => some (String.ofList out.reverse, rest)
    | '\\' :: rest => do
      let (c, rest) ← readEscape rest
      readBasic fuel (c :: out) rest
    | c :: rest => if isPlain c then readBasic fuel (c :: out) rest else none
    | [] => none

/-- The rest of a literal text on one line. -/
def readLiteral (cs : List Char) : Option (String × List Char) :=
  let body := cs.takeWhile fun c => c != '\'' && isPlain c
  match cs.drop body.length with
  | '\'' :: rest => some (String.ofList body, rest)
  | _ => none

/-- Skips blanks and line ends. -/
def skipBreaks : List Char → List Char
  | '\r' :: '\n' :: rest => skipBreaks rest
  | c :: rest => if isBlank c || c == '\n' then skipBreaks rest else c :: rest
  | [] => []

/-- Skips the blank end of a line and all blank lines after it. -/
def foldLines? (cs : List Char) : Option (List Char) :=
  (lineEnd? (skipBlanks cs)).map skipBreaks

/-- Ends a text of several lines at a run of three to five quotes; those beyond
three belong to the text. -/
def closeQuotes (quote : Char) (out : List Char) (cs : List Char) :
    Option (String × List Char) :=
  let n := (cs.takeWhile (· == quote)).length
  if 3 ≤ n then
    let extra := min (n - 3) 2
    some (String.ofList (out.reverse ++ List.replicate extra quote), cs.drop (extra + 3))
  else none

/-- The rest of a text of several lines, with escapes if `escapes`. -/
def readLines (quote : Char) (escapes : Bool) : Nat → List Char → Reader String
  | 0, _ => fun _ => none
  | fuel + 1, out => fun cs =>
    match closeQuotes quote out cs with
    | some done => some done
    | none =>
      match lineEnd? cs with
      | some rest => readLines quote escapes fuel ('\n' :: out) rest
      | none =>
        match cs with
        | '\\' :: rest =>
          if escapes then
            match foldLines? rest with
            | some rest => readLines quote escapes fuel out rest
            | none => do
              let (c, rest) ← readEscape rest
              readLines quote escapes fuel (c :: out) rest
          else readLines quote escapes fuel ('\\' :: out) rest
        | c :: rest => if isPlain c then readLines quote escapes fuel (c :: out) rest else none
        | [] => none

/-- A line end right behind the opening quotes is no part of the text. -/
def dropFirstLineEnd (cs : List Char) : List Char := (lineEnd? cs).getD cs

def readText : Reader String := fun cs =>
  match cs with
  | '"' :: '"' :: '"' :: rest => readLines '"' true cs.length [] (dropFirstLineEnd rest)
  | '\'' :: '\'' :: '\'' :: rest => readLines '\'' false cs.length [] (dropFirstLineEnd rest)
  | '"' :: rest => readBasic cs.length [] rest
  | '\'' :: rest => readLiteral rest
  | _ => none

def isBare (c : Char) : Bool :=
  c.isDigit || ('a' ≤ c && c ≤ 'z') || ('A' ≤ c && c ≤ 'Z') || c == '_' || c == '-'

/-- One part of a key. -/
def readKeyPart : Reader String := fun cs =>
  match cs with
  | '"' :: rest => readBasic cs.length [] rest
  | '\'' :: rest => readLiteral rest
  | _ =>
    let name := cs.takeWhile isBare
    if name.isEmpty then none else some (String.ofList name, cs.drop name.length)

/-- Parts of a key with points between them, and blanks around each. -/
def readKeyParts : Nat → Reader (List String)
  | 0 => fun _ => none
  | fuel + 1 => fun cs => do
    let (part, rest) ← readKeyPart (skipBlanks cs)
    match skipBlanks rest with
    | '.' :: rest => do
      let (parts, rest) ← readKeyParts fuel rest
      return (part :: parts, rest)
    | rest => return ([part], rest)

/-- A text nests less deep than this: in the parts of one key, and in the brackets of
one value. -/
def depthLimit : Nat := 80

def readKey : Reader (List String) := fun cs => do
  let (parts, rest) ← readKeyParts cs.length cs
  if parts.length < depthLimit then some (parts, rest) else none

end Vigil.Toml
