import SqlStyle.Text.Blank
import SqlStyle.Text.Case
import SqlStyle.Text.Quoted

/-! Settings files: sections with options, one option a line. A value goes on over the lines below it
that are indented deeper, and may refer to other options of its section. The section `DEFAULT` holds
values for all sections. -/
namespace SqlStyle.Ini
set_option autoImplicit false
open Text

/-! ## Problems -/

/-- What can be wrong with a settings file. -/
inductive Problem where
  | duplicateSection (file : String) (line : Nat) (name : String)
  | duplicateOption (file : String) (line : Nat) (section_ option : String)
  | noHeader (file : String) (line : Nat) (text : String)
  | unreadable (file : String) (lines : List (Nat × String))
  | noSection (name : String)
  | noOption (option section_ : String)
  | badPercent (rest : String)
  | badReference (rest : String)
  | noReference (option section_ name raw : String)
  | tooDeep (option section_ raw : String)
  | notWhole (text : String)
  | tooLong (digits : Nat)
  | notDecimal (text : String)
  | notTruth (text : String)
  | noDefaults (file : String)
deriving DecidableEq, Repr

/-- The number of a line in a report, which is at least two characters wide. -/
def lineLabel (n : Nat) : String :=
  "[line " ++ (if n < 10 then " " else "") ++ toString n ++ "]"

def Problem.message : Problem → String
  | duplicateSection file line name =>
    "While reading from " ++ quoted file ++ " " ++ lineLabel line ++ ": section " ++ quoted name ++
      " already exists"
  | duplicateOption file line section_ option =>
    "While reading from " ++ quoted file ++ " " ++ lineLabel line ++ ": option " ++ quoted option ++
      " in section " ++ quoted section_ ++ " already exists"
  | noHeader file line text =>
    "File contains no section headers.\nfile: " ++ quoted file ++ ", line: " ++ toString line ++
      "\n" ++ quoted text
  | unreadable file lines =>
    "Source contains parsing errors: " ++ quoted file ++
      String.join (lines.map fun (n, text) => "\n\t" ++ lineLabel n ++ ": " ++ quoted text)
  | noSection name => "No section: " ++ quoted name
  | noOption option section_ =>
    "No option " ++ quoted option ++ " in section: " ++ quoted section_
  | badPercent rest => "'%' must be followed by '%' or '(', found: " ++ quoted rest
  | badReference rest => "bad interpolation variable reference " ++ quoted rest
  | noReference option section_ name raw =>
    "Bad value substitution: option " ++ quoted option ++ " in section " ++ quoted section_ ++
      " contains an interpolation key " ++ quoted name ++
      " which is not a valid option name. Raw value: " ++ quoted raw
  | tooDeep option section_ raw =>
    "Recursion limit exceeded in value substitution: option " ++ quoted option ++ " in section " ++
      quoted section_ ++ " contains an interpolation key which cannot be substituted in 10 steps." ++
      " Raw value: " ++ quoted raw
  | notWhole text =>
    "invalid literal for int() with base 10: " ++
      String.ofList ((quoted text).toList.take 200)
  | tooLong digits =>
    "Exceeds the limit (4300 digits) for integer string conversion: value has " ++ toString digits ++
      " digits; use sys.set_int_max_str_digits() to increase the limit"
  | notDecimal text => "could not convert string to float: " ++ quoted text
  | notTruth text => "Not a boolean: " ++ text
  | noDefaults file => "default setting file is not found: " ++ file

/-! ## Reading a file -/

/-- The options of a section, each with the lines of its value. -/
abbrev Options := List (String × List String)

def defaultSection : String :=
  "DEFAULT"

/-- What has been read of a file: its sections, the section and the option that are being read, the
indent of the line with that option, and the lines that could not be read. -/
structure Reader where
  sections : List (String × Options) := []
  current? : Option String := none
  option : String := ""
  indent : Nat := 0
  unread : List (Nat × String) := []

def Reader.options (r : Reader) (name : String) : Options :=
  (r.sections.lookup name).getD []

def Reader.change (r : Reader) (f : Options → Options) : Reader :=
  { r with sections := r.sections.map fun (name, options) =>
      if some name = r.current? then (name, f options) else (name, options) }

def Reader.extend (r : Reader) (value : List Char) : Reader :=
  r.change fun options => options.map fun (name, lines) =>
    if name = r.option then (name, lines ++ [String.ofList value]) else (name, lines)

/-- The name between the first bracket of a line and the last one. -/
def header? : List Char → Option (List Char)
  | '[' :: rest =>
    match (rest.reverse.dropWhile (· != ']')).reverse.dropLast with
    | [] => none
    | name => some name
  | _ => none

def isDivider (c : Char) : Bool :=
  c == '=' || c == ':'

/-- Read a header. A section occurs once, but for the one that holds values for all. -/
def Reader.header (r : Reader) (file : String) (line : Nat) (name : String) : Except Problem Reader :=
  if (r.sections.lookup name).isSome then
    if name = defaultSection then .ok { r with current? := some name, option := "" }
    else .error (.duplicateSection file line name)
  else
    .ok { r with sections := r.sections ++ [(name, [])], current? := some name, option := "" }

/-- Read a line that is no header, in the section `name`. -/
def Reader.assign (r : Reader) (file : String) (line : Nat) (name : String)
    (raw value : List Char) : Except Problem Reader :=
  match value.dropWhile (!isDivider ·) with
  | [] => .ok { r with unread := r.unread ++ [(line, String.ofList raw)] }
  | _ :: rest =>
    let key := trimRight (value.takeWhile (!isDivider ·))
    let option := lower (String.ofList key)
    if (r.options name).any fun o => o.1 == option then
      .error (.duplicateOption file line name option)
    else
      let unread := if key.isEmpty then r.unread ++ [(line, String.ofList raw)] else r.unread
      .ok ({ r with option := option, unread := unread }.change
        (· ++ [(option, [String.ofList (trim rest)])]))

def isComment : List Char → Bool
  | c :: _ => c == '#' || c == ';'
  | [] => false

/-- Read a line of a file, which is given with its line end. -/
def Reader.read (r : Reader) (file : String) (line : Nat) (raw : List Char) :
    Except Problem Reader :=
  let value := trim raw
  let inValue := r.current?.isSome && r.option != ""
  let indent := (raw.takeWhile isBlank).length
  if isComment value then .ok r
  else if value.isEmpty then .ok (if inValue then r.extend [] else r)
  else if inValue ∧ r.indent < indent then .ok (r.extend value)
  else
    let r := { r with indent := indent }
    match header? value, r.current? with
    | some name, _ => r.header file line (String.ofList name)
    | none, none => .error (.noHeader file line (String.ofList raw))
    | none, some name => r.assign file line name raw value

def Reader.readAll (r : Reader) (file : String) (line : Nat) :
    List (List Char) → Except Problem Reader
  | [] => .ok r
  | raw :: rest => do
    let r ← r.read file line raw
    r.readAll file (line + 1) rest

def rawLines : List Char → List (List Char)
  | [] => []
  | '\n' :: rest => ['\n'] :: rawLines rest
  | c :: rest => consFirst c (rawLines rest)

/-- The sections of a file, with one text for each value. -/
abbrev Sections := List (String × List (String × String))

def parse (file text : String) : Except Problem Sections := do
  let r ← ({} : Reader).readAll file 1 (rawLines (plainLineEnds text.toList))
  if r.unread.isEmpty then
    return r.sections.map fun (name, options) => (name, options.map fun (option, lines) =>
      (option, String.ofList (trimRight (String.intercalate "\n" lines).toList)))
  else throw (.unreadable file r.unread)

/-! ## References -/

/-- The name in a reference, and the text after it. -/
def reference? (cs : List Char) : Option (List Char × List Char) :=
  match cs.dropWhile (· != ')') with
  | ')' :: 's' :: rest =>
    if cs.takeWhile (· != ')') = [] then none else some (cs.takeWhile (· != ')'), rest)
  | _ => none

theorem length_reference? (cs name rest : List Char) (h : reference? cs = some (name, rest)) :
    rest.length < cs.length := by
  have hd := (List.dropWhile_suffix (l := cs) (· != ')')).length_le
  unfold reference? at h
  split at h
  · next after hr =>
    split at h
    · cases h
    · cases h
      rw [hr] at hd
      simp only [List.length_cons] at hd
      omega
  · cases h

/-- The text with each reference replaced by the value it refers to, where references nest at most
`depth` deep. The problems are those of the option whose value is asked for. -/
def expand (lookup : String → Option String) (missing : String → Problem) (tooDeep : Problem)
    (depth : Nat) (cs : List Char) : Except Problem (List Char) :=
  match depth, cs with
  | 0, _ => .error tooDeep
  | _ + 1, [] => .ok []
  | d + 1, '%' :: '%' :: rest => do
    return '%' :: (← expand lookup missing tooDeep (d + 1) rest)
  | d + 1, '%' :: '(' :: rest =>
    match _found : reference? rest with
    | none => .error (.badReference (String.ofList ('%' :: '(' :: rest)))
    | some (name, after) =>
      let name := lower (String.ofList name)
      match lookup name with
      | none => .error (missing name)
      | some value => do
        let inner ← if value.toList.contains '%' then expand lookup missing tooDeep d value.toList
          else pure value.toList
        return inner ++ (← expand lookup missing tooDeep (d + 1) after)
  | _ + 1, '%' :: rest => .error (.badPercent (String.ofList ('%' :: rest)))
  | d + 1, c :: rest => do
    return c :: (← expand lookup missing tooDeep (d + 1) rest)
termination_by (depth, cs.length)
decreasing_by
  · exact Prod.Lex.right _ (by simp only [List.length_cons]; omega)
  · have := length_reference? rest _ after _found
    exact Prod.Lex.right _ (by simp only [List.length_cons]; omega)
  · exact Prod.Lex.left _ _ (Nat.lt_succ_self d)
  · exact Prod.Lex.right _ (by simp only [List.length_cons]; omega)

def get (sections : Sections) (name option : String) : Except Problem String :=
  match sections.lookup name with
  | none => .error (.noSection name)
  | some options =>
    let option := lower option
    let lookup (o : String) : Option String :=
      (options.lookup o).or (((sections.lookup defaultSection).getD []).lookup o)
    match lookup option with
    | none => .error (.noOption option name)
    | some raw =>
      (expand lookup (fun ref => .noReference option name ref raw) (.tooDeep option name raw) 10
        raw.toList).map String.ofList

end SqlStyle.Ini
