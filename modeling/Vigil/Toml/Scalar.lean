import Vigil.Decimal.Reader
import Vigil.Document
import Vigil.Toml.Text

/-!
# Plain values of TOML

Numbers, truth values, dates and times: the values written without quotes or
brackets.
-/

namespace Vigil.Toml

/-- Splits at each underscore. Between digits one may stand. -/
def groups : List Char → List (List Char)
  | [] => [[]]
  | c :: cs =>
    if c = '_' then [] :: groups cs
    else match groups cs with
      | g :: gs => (c :: g) :: gs
      | [] => [[c]]

/-- Digits in groups, none of them empty. -/
def ungroup? (p : Char → Bool) (cs : List Char) : Option (List Char) :=
  let gs := groups cs
  if gs.all fun g => !g.isEmpty && g.all p then some gs.flatten else none

def inRange (n : Int) : Bool := -Int.pow 2 63 ≤ n && n < Int.pow 2 63

/-- A number in a base other than ten, behind the letter that names it. -/
def readBased? (base : Nat) (cs : List Char) : Option Document := do
  let digits ← ungroup? (fun c => (digitValue? c).any (· < base)) cs
  let n ← readDigits? base digits
  if inRange n then some (.integer n) else none

/-- Digits of a number that begins with a zero only if it is zero. -/
def readWhole? (cs : List Char) : Option Nat := do
  let digits ← ungroup? Char.isDigit cs
  match digits with
  | '0' :: _ :: _ => none
  | _ => readDigits? 10 digits

def isExponentMark (c : Char) : Bool := c == 'e' || c == 'E'

def dropSign : List Char → List Char
  | '+' :: rest => rest
  | '-' :: rest => rest
  | cs => cs

/-- Whether this is a fraction, an exponent, or both, behind a whole number. -/
def isFractionTail (cs : List Char) : Bool :=
  let isDigits := fun ds => (ungroup? Char.isDigit ds).isSome
  let isExponent := fun
    | c :: rest => isExponentMark c && isDigits (dropSign rest)
    | [] => false
  match cs with
  | '.' :: rest =>
    let digits := rest.takeWhile fun c => !isExponentMark c
    let tail := rest.drop digits.length
    isDigits digits && (tail.isEmpty || isExponent tail)
  | _ => isExponent cs

/-- A number with a fraction or an exponent. One that is too great for a double is
refused; too small is small enough. -/
def readReal? (cs : List Char) : Option Document := do
  let x ← Decimal.read? (String.ofList (cs.filter (· != '_')))
  if x == 1.0 / 0.0 then none else some (.real x)

def readNumber? (cs : List Char) : Option Document :=
  let body := dropSign cs
  let minus := cs.head? == some '-'
  match String.ofList body with
  | "inf" => some (.real (if minus then -1.0 / 0.0 else 1.0 / 0.0))
  | "nan" => some (.real (0.0 / 0.0))
  | _ =>
    let whole := body.takeWhile fun c => c.isDigit || c == '_'
    let tail := body.drop whole.length
    match readWhole? whole with
    | none => none
    | some n =>
      if tail.isEmpty then
        let n : Int := if minus then -(n : Int) else n
        if inRange n then some (.integer n) else none
      else if isFractionTail tail then readReal? cs
      else none

/-- Two digits that write a number from `low` to `high`. -/
def readPair? (low high : Nat) : Reader Nat
  | a :: b :: rest =>
    match readDigits? 10 [a, b] with
    | some n => if a.isDigit && b.isDigit && low ≤ n && n ≤ high then some (n, rest) else none
    | none => none
  | _ => none

def isLeap (year : Nat) : Bool := year % 4 == 0 && (year % 100 != 0 || year % 400 == 0)

def daysIn (year month : Nat) : Nat :=
  if month = 2 then (if isLeap year then 29 else 28)
  else if month = 4 ∨ month = 6 ∨ month = 9 ∨ month = 11 then 30
  else 31

/-- What follows a date, if one is in front. -/
def skipDate? (cs : List Char) : Option (List Char) := do
  let year := cs.take 4
  if year.length ≠ 4 || !year.all (·.isDigit) then none
  let y ← readDigits? 10 year
  let rest ← match cs.drop 4 with
    | '-' :: rest => some rest
    | _ => none
  let (m, rest) ← readPair? 1 12 rest
  let rest ← match rest with
    | '-' :: rest => some rest
    | _ => none
  let (_, rest) ← readPair? 1 (daysIn y m) rest
  return rest

/-- What follows a time of day, if one is in front. -/
def skipTime? (cs : List Char) : Option (List Char) := do
  let (_, rest) ← readPair? 0 23 cs
  let rest ← match rest with
    | ':' :: rest => some rest
    | _ => none
  let (_, rest) ← readPair? 0 59 rest
  let rest ← match rest with
    | ':' :: rest => some rest
    | _ => none
  let (_, rest) ← readPair? 0 60 rest
  match rest with
  | '.' :: rest =>
    let rest' := rest.dropWhile (·.isDigit)
    if rest'.length < rest.length then some rest' else none
  | rest => some rest

/-- Whether this is the offset of a time, or nothing. -/
def isOffset : List Char → Bool
  | [] => true
  | ['Z'] => true
  | ['z'] => true
  | c :: rest =>
    (c == '+' || c == '-') && match readPair? 0 23 rest with
      | some (_, ':' :: rest) =>
        match readPair? 0 59 rest with
        | some (_, []) => true
        | _ => false
      | _ => false

/-- Whether this is a date, a time, or both, with an offset behind both. -/
def isMoment (cs : List Char) : Bool :=
  match skipDate? cs with
  | some [] => true
  | some (c :: rest) =>
    (c == 'T' || c == 't' || c == ' ') && match skipTime? rest with
      | some rest => isOffset rest
      | none => false
  | none =>
    match skipTime? cs with
    | some [] => true
    | _ => false

/-- What a date or a time is read as: its parts have no names that a setting could
have. -/
def momentDocument : Document := .table []

def readScalar? (cs : List Char) : Option Document :=
  match cs with
  | '0' :: 'x' :: rest => readBased? 16 rest
  | '0' :: 'o' :: rest => readBased? 8 rest
  | '0' :: 'b' :: rest => readBased? 2 rest
  | _ =>
    if cs = ['t', 'r', 'u', 'e'] then some (.boolean true)
    else if cs = ['f', 'a', 'l', 's', 'e'] then some (.boolean false)
    else if isMoment cs then some momentDocument
    else readNumber? cs

def isScalarChar (c : Char) : Bool := isBare c || c == '+' || c == '.' || c == ':'

/-- A plain value. A blank may stand between a date and a time of day. -/
def readScalar : Reader Document := fun cs => do
  let word := cs.takeWhile isScalarChar
  let rest := cs.drop word.length
  match skipDate? word, rest with
  | some [], ' ' :: a :: rest' =>
    if a.isDigit then
      let time := (a :: rest').takeWhile isScalarChar
      let d ← readScalar? (word ++ ' ' :: time)
      return (d, (a :: rest').drop time.length)
    else
      return (momentDocument, rest)
  | _, _ =>
    let d ← readScalar? word
    return (d, rest)

end Vigil.Toml
