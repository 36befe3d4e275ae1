import Vigil.Digest.Sha256
import Vigil.Table

/-!
# Label sets

A label set identifies an alert instance within its rule. Its byte form writes
every name and value behind its length, so no two label sets share one
(`Labels.encode`), and its digest names the instance in caches and stores.
-/

namespace Vigil

abbrev Labels := Table String String

/-- Label with the UID of the rule. -/
def ruleUidLabel : String := "__alert_rule_uid__"

/-- Label with the UID of the rule's folder. -/
def namespaceUidLabel : String := "__alert_rule_namespace_uid__"

/-- Label with the title of the rule's folder. -/
def folderLabel : String := "grafana_folder"

def alertNameLabel : String := "alertname"

namespace Labels

/-- A text behind the length of its UTF-8 form in eight bytes. -/
def encodeText (s : String) : List UInt8 :=
  Sha256.bigEndian 8 s.utf8ByteSize ++ s.toUTF8.data.toList

def encode (ls : Labels) : List UInt8 :=
  ls.entries.flatMap fun e => encodeText e.1 ++ encodeText e.2

/-- The identity of the instance with these labels. -/
def id (ls : Labels) : String := Sha256.hex ls.encode

/-- Names that begin or end with two underscores are not shown to people. -/
def isPrivate (name : String) : Bool :=
  name.toList.take 2 == ['_', '_'] || name.toList.reverse.take 2 == ['_', '_']

def visible (ls : Labels) : Labels := ls.filter fun name _ => !isPrivate name

/-- Bindings as `name=value`, in order of name. -/
def text (ls : Labels) : String :=
  String.intercalate ", " (ls.entries.map fun e => e.1 ++ "=" ++ e.2)

/-- The labels of `ls`, and those of `more` under names that `ls` lacks. -/
def orElse (ls more : Labels) : Labels :=
  more.entries.foldl (fun t e => if t.contains e.1 then t else t.insert e.1 e.2) ls

end Labels

end Vigil
