import SqlStyle.Layout
import SqlStyle.Lint
import SqlStyle.Settings.File
import SqlStyle.Statement

/-! The command: it checks the files that are named, or prints them laid out. Its output is a list of
messages. -/
namespace SqlStyle.Command
set_option autoImplicit false

/-! ## Arguments -/

/-- What the arguments ask for. -/
structure Request where
  files : List String := []
  settingsFile? : Option String := none
  format : Bool := false
  help : Bool := false
deriving DecidableEq, Repr

/-- Arguments that cannot be read. -/
inductive Misuse where
  /-- An option lacks its value. -/
  | noValue (option : String)
  /-- An option is given a value that it does not take. -/
  | extraValue (option : String)
deriving DecidableEq, Repr

def Misuse.message : Misuse → String
  | noValue option => "Option '" ++ option ++ "' requires an argument."
  | extraValue option => "Option '" ++ option ++ "' does not take a value."

/-- Letters behind one dash. What is read of them: the request, the letters that are no options, and
whether the value of `-c` is still to come. -/
def readLetters (r : Request) (unknown : List Char) : List Char → Request × List Char × Bool
  | [] => (r, unknown, false)
  | 'f' :: rest => readLetters { r with format := true } unknown rest
  | 'c' :: [] => (r, unknown, true)
  | 'c' :: rest => ({ r with settingsFile? := some (String.ofList rest) }, unknown, false)
  | c :: rest => readLetters r (unknown ++ [c]) rest

/-- Letters that are no options count as a file. -/
def addUnknown (r : Request) (unknown : List Char) : Request :=
  if unknown.isEmpty then r else { r with files := r.files ++ [String.ofList ('-' :: unknown)] }

/-- Read the arguments. An option may stand anywhere among the files; after two dashes alone all
arguments are files, and an option that is not known counts as a file. -/
def readArguments (r : Request) : List String → Except Misuse Request
  | [] => .ok r
  | arg :: rest =>
    match arg.toList with
    | ['-', '-'] => .ok { r with files := r.files ++ rest }
    | '-' :: '-' :: long =>
      let name := "--" ++ String.ofList (long.takeWhile (· != '='))
      let value? := match long.dropWhile (· != '=') with
        | _ :: value => some (String.ofList value)
        | [] => none
      match name, value? with
      | "--config", some value => readArguments { r with settingsFile? := some value } rest
      | "--config", none =>
        match rest with
        | [] => .error (.noValue "--config")
        | value :: rest => readArguments { r with settingsFile? := some value } rest
      | "--format", none => readArguments { r with format := true } rest
      | "--help", none => readArguments { r with help := true } rest
      | "--format", some _ => .error (.extraValue "--format")
      | "--help", some _ => .error (.extraValue "--help")
      | _, _ => readArguments { r with files := r.files ++ [arg] } rest
    | '-' :: c :: letters =>
      match readLetters r [] (c :: letters), rest with
      | (r, unknown, false), rest => readArguments (addUnknown r unknown) rest
      | (_, _, true), [] => .error (.noValue "-c")
      | (r, unknown, true), value :: rest =>
        readArguments (addUnknown { r with settingsFile? := some value } unknown) rest
    | _ => readArguments { r with files := r.files ++ [arg] } rest

/-! ## Files -/

/-- What a path leads to. -/
inductive Entry where
  | missing
  | directory
  | file (text : String)
deriving DecidableEq, Repr

/-- The cause for which the command stops. -/
inductive Failure where
  | misuse (m : Misuse)
  | settings (p : Ini.Problem)
  | statement (f : Fault)
  | report (p : Violation.Problem)

def Failure.message : Failure → String
  | misuse m => m.message
  | settings p => p.message
  | statement f => f.message
  | report p => p.message

/-- What the command prints, and the cause for which it stopped, if it did. -/
structure Outcome where
  log : List String
  failure? : Option Failure := none

/-- A text as it is read from a file: each line end is one line feed. -/
def readText (text : String) : String :=
  String.ofList (Text.plainLineEnds text.toList)

/-- The settings file as it is found. A directory is read as a file without sections. -/
def settingsFile (look : String → Entry) (path : String) : Values.File :=
  ⟨path, match look path with
    | .missing => none
    | .directory => some ""
    | .file text => some (readText text)⟩

/-- The statements by the paths that lead to them, each path once, and the messages about the other
paths. -/
def readFiles (look : String → Entry) : List String → List (String × String) × List String
  | [] => ([], [])
  | path :: rest =>
    let (found, log) := readFiles look rest
    match look path with
    | .missing => (found, ("file is not found: " ++ path) :: log)
    | .directory => (found, (path ++ " is a directory") :: log)
    | .file text => ((path, readText text) :: found.filter fun f => f.1 != path, log)

/-! ## The work on one statement -/

def formatText (s : Settings) (sql : String) : Except Failure (List String) :=
  match Layout.format s (Tree.ofSql true sql) with
  | .ok t => .ok [t.text]
  | .error f => .error (.statement f)

def checkText (s : Settings) (sql : String) : Except Failure (List String) :=
  match Lint.report s (Tree.ofSql false sql) with
  | .error f => .error (.statement f)
  | .ok vs =>
    match vs.mapM Violation.text with
    | .ok texts => .ok texts
    | .error p => .error (.report p)

def listText (sql : String) : String :=
  listing (Scan.scan sql)

/-- The work on each statement in turn, up to the first failure. -/
def workOn (work : String → String → Except Failure (List String)) :
    List (String × String) → Outcome
  | [] => { log := [] }
  | (path, sql) :: rest =>
    match work path sql with
    | .error failure => ⟨[], some failure⟩
    | .ok log =>
      let out := workOn work rest
      { out with log := log ++ out.log }

/-! ## The command -/

/-- Serve a request. Without files there is nothing to do, and the settings are not read. -/
def serve (look : String → Entry) (r : Request) : Outcome :=
  if r.help || r.files.isEmpty then { log := [] }
  else
    match Values.ofUser {} (r.settingsFile?.map (settingsFile look)) with
    | .error p => ⟨[], some (.settings p)⟩
    | .ok loaded =>
      let s := loaded.values.settings
      let (statements, notes) := readFiles look r.files
      let work (path sql : String) : Except Failure (List String) :=
        if r.format then formatText s sql
        else (checkText s sql).map fun texts => texts.map fun text => path ++ " " ++ text
      let out := workOn work statements
      { out with log := loaded.log ++ notes ++ out.log }

def run (look : String → Entry) (arguments : List String) : Outcome :=
  match readArguments {} arguments with
  | .error m => ⟨[], some (.misuse m)⟩
  | .ok r => serve look r

end SqlStyle.Command
