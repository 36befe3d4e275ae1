import Vigil.Config.Document
import Vigil.Toml.Parser

/-!
# Settings from a file

A settings file is a TOML text in UTF-8. What it holds is validated. A list that
goes on after the fields of its section is no error.
-/

namespace Vigil

/-- What is found under the path of a settings file. -/
inductive SettingsFile where
  | missing
  | directory
  | content (bytes : List UInt8)

def SettingsFile.toText : SettingsFile → Except ConfigError String
  | missing => .error (.fileError "No such file or directory (os error 2)")
  | directory => .error (.fileError "Is a directory (os error 21)")
  | content bytes =>
    match String.fromUTF8? ⟨bytes.toArray⟩ with
    | some text => .ok text
    | none => .error (.fileError "stream did not contain valid UTF-8")

def SettingsFile.toConfig (file : SettingsFile) : Except ConfigError Config := do
  let text ← file.toText
  match Toml.parse text with
  | none => .error .malformed
  | some document => (← document.toConfig false).validate

end Vigil
