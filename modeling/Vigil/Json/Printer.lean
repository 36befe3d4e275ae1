import Vigil.Decimal.Shortest
import Vigil.Document

/-!
# Writing JSON

A document is written without blanks (`Document.toJson`). A float has a point, so
that it is not taken for a whole number.
-/

namespace Vigil.Json

/-- How a character stands in a text. -/
def escape (c : Char) : List Char :=
  if c == '"' || c == '\\' then ['\\', c]
  else if c.toNat < 0x20 then
    ['\\', 'u', '0', '0', Nat.digitChar (c.toNat / 16), Nat.digitChar (c.toNat % 16)]
  else [c]

def textJson (s : String) : String := "\"" ++ String.ofList (s.toList.flatMap escape) ++ "\""

/-- A float that is no number has no other text than that of the absent value. -/
def realJson (x : Float) : String :=
  if x.isFinite then { Decimal.Style.shortest with pointed := true }.write x else "null"

end Vigil.Json

namespace Vigil.Document

mutual

def toJson : Document → String
  | absent => "null"
  | boolean b => if b then "true" else "false"
  | integer n => toString n
  | real x => Json.realJson x
  | text s => Json.textJson s
  | list items => "[" ++ String.intercalate "," (itemTexts items) ++ "]"
  | table entries => "\x7b" ++ String.intercalate "," (entryTexts entries) ++ "\x7d"

def itemTexts : List Document → List String
  | [] => []
  | d :: rest => d.toJson :: itemTexts rest

def entryTexts : List (String × Document) → List String
  | [] => []
  | (key, d) :: rest => (Json.textJson key ++ ":" ++ d.toJson) :: entryTexts rest

end

end Vigil.Document
