/-!
# Documents

A document is a tree of tables, lists and plain values. Settings and queries are
documents.
-/

namespace Vigil

inductive Document where
  | absent
  | boolean (b : Bool)
  | integer (n : Int)
  | real (x : Float)
  | text (s : String)
  | list (items : List Document)
  | table (entries : List (String × Document))
deriving Inhabited

end Vigil
