import SqlStyle.Settings
import SqlStyle.Settings.Ini
import SqlStyle.Text.Binary64

/-! The values of the settings, read from files: the file of default values first, and then the file of
the user, which has to hold all of them. -/
namespace SqlStyle
set_option autoImplicit false

namespace Ini

def settingsSection : String :=
  "sqlint"

/-! ## Values of a type -/

/-- A whole number of at most 4300 digits. -/
def whole (s : String) : Except Problem Int :=
  match Text.wholeDigits? s.toList with
  | none => .error (.notWhole s)
  | some (negative, ds) =>
    if 4300 < ds.length then .error (.tooLong ds.length) else .ok (Text.wholeValue negative ds)

def decimal (s : String) : Except Problem Text.Binary64 :=
  (Text.Binary64.ofText? s).elim (.error (.notDecimal s)) .ok

def truth (s : String) : Except Problem Bool :=
  let word := Text.lower s
  if ["1", "yes", "true", "on"].contains word then .ok true
  else if ["0", "no", "false", "off"].contains word then .ok false
  else .error (.notTruth s)

end Ini

namespace Values
open Ini

/-- The values in the section with the settings. -/
def ofSections (sections : Sections) : Except Problem Values := do
  let maxLineLength ← whole (← get sections settingsSection "max-line-length")
  let commaPosition ← get sections settingsSection "comma-position"
  let keywordStyle ← get sections settingsSection "keyword-style"
  let indentSteps ← whole (← get sections settingsSection "indent-steps")
  return ⟨maxLineLength, commaPosition, keywordStyle, indentSteps⟩

def ofFile (file text : String) : Except Problem Values := do
  ofSections (← Ini.parse file text)

/-! ## Files -/

/-- A file that is named: it may be missing. -/
structure File where
  name : String
  text? : Option String

/-- What comes of reading files: the values, and the messages on the way. -/
structure Loaded where
  values : Values
  log : List String := []

/-- The values in the file of the user, or those given by default if no file is named or the file is
missing. -/
def ofUser (defaults : Values) : Option File → Except Problem Loaded
  | none => .ok { values := defaults }
  | some file =>
    match file.text? with
    | none =>
      .ok ⟨defaults, ["[Warning] config file is not found: " ++ file.name]⟩
    | some text => (ofFile file.name text).map fun v => { values := v }

/-- The values in the file of default values, which has to be there, and then in the file of the
user. -/
def load (defaults : File) (user? : Option File) : Except Problem Loaded :=
  match defaults.text? with
  | none => .error (.noDefaults defaults.name)
  | some text => do ofUser (← ofFile defaults.name text) user?

def get? (v : Values) (name : String) : Option (Int ⊕ String) :=
  match name with
  | "max-line-length" => some (.inl v.maxLineLength)
  | "comma-position" => some (.inr v.commaPosition)
  | "keyword-style" => some (.inr v.keywordStyle)
  | "indent-steps" => some (.inl v.indentSteps)
  | _ => none

end Values
end SqlStyle
