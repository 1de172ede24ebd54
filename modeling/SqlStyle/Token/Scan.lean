import SqlStyle.Text.Blank
import SqlStyle.Token
import SqlStyle.Token.Reserved

/-! Scanning: a line of text becomes a list of tokens. A step reads the blanks that come first and
one lexeme, with the blanks or the bracket that belong to it, and leaves a shorter text
(`rest_step_lt`); so scanning a line ends. A block comment may run on from one line to the next. -/
namespace SqlStyle.Scan
set_option autoImplicit false
open Text

/-! ## Pieces of text -/

/-- The token that a piece of text makes; none if the piece is empty. -/
def piece (kind : Kind) : List Char → List Token
  | [] => []
  | c :: cs => [⟨kind, String.ofList (c :: cs), none⟩]

/-- What one step reads: its tokens, the text after them, and whether a block comment is open. -/
structure Step where
  tokens : List Token
  rest : List Char
  inComment : Bool

/-- The given tokens and the blanks behind them. -/
def spaced (ts : List Token) (rest : List Char) : Step :=
  ⟨ts ++ piece .whitespace (rest.takeWhile isBlank), rest.dropWhile isBlank, false⟩

/-! ## Comments -/

/-- The text before the first end of a block comment, and the text after it. -/
def untilClose : List Char → Option (List Char × List Char)
  | [] => none
  | '*' :: '/' :: rest => some ([], rest)
  | c :: rest => (untilClose rest).map fun (body, after) => (c :: body, after)

def lastLine (cs : List Char) : List Char :=
  (cs.reverse.takeWhile (· != '\n')).reverse

/-- A step inside a block comment reads up to its end, or the whole text if it does not end here. -/
def commentStep (cs : List Char) : Step :=
  match untilClose cs with
  | some (body, rest) => ⟨piece .comment (lastLine body) ++ [⟨.comment, "*/", none⟩], rest, false⟩
  | none => ⟨piece .comment cs, [], true⟩

def lineComment (cs : List Char) : Step :=
  ⟨piece .comment (cs.takeWhile (· != '\n')), cs.dropWhile (· != '\n'), false⟩

/-! ## Words -/

def isOperator (c : Char) : Bool :=
  ['=', '<', '>', '!', '+', '-', '*', '/', '%'].contains c

def isIdentifier (c : Char) : Bool :=
  !isBlank c && !isOperator c && !([',', '(', ')', '#', '.'].contains c)

def isQuote (c : Char) : Bool :=
  c == '\x22' || c == '\x27' || c == '\x60'

/-- A character that does not end the run in which a reserved word is looked up. -/
def inRun (c : Char) : Bool :=
  !isBlank c && c != '('

/-- The text up to the last `q` before the first blank, and the text after that `q`. -/
def untilLast (q : Char) : List Char → Option (List Char × List Char)
  | [] => none
  | c :: rest =>
    if isBlank c then none
    else
      match untilLast q rest with
      | some (body, after) => some (c :: body, after)
      | none => if c = q then some ([], rest) else none

/-- A left bracket that belongs to the word before it, with the blanks and the star behind it. -/
def opening (rest : List Char) : Step :=
  let inner := rest.dropWhile isBlank
  let bracket := ⟨.leftBracket, "(", none⟩ :: piece .whitespace (rest.takeWhile isBlank)
  match inner with
  | '*' :: after => ⟨bracket ++ [⟨.keyword, "*", none⟩], after, false⟩
  | _ => ⟨bracket, inner, false⟩

def Step.after (ts : List Token) (s : Step) : Step :=
  ⟨ts ++ s.tokens, s.rest, s.inComment⟩

/-- A keyword with what follows it: the blanks, or at once a left bracket. -/
def keywordStep (run rest : List Char) : Step :=
  match rest with
  | '(' :: after => (opening after).after (piece .keyword run)
  | _ => (spaced [] rest).after (piece .keyword run)

/-- A keyword, if a blank, a left bracket or the end of the text follows it. -/
def keywordStep? (run rest : List Char) : Option Step :=
  if rest.head?.any inRun then none else some (keywordStep run rest)

/-- A function, if a left bracket follows its name. -/
def functionStep (run rest : List Char) : Option Step :=
  match rest.dropWhile isBlank with
  | '(' :: after =>
    some ((opening after).after (piece .function run ++ piece .whitespace (rest.takeWhile isBlank)))
  | _ => none

/-- The text `c :: cs` begins with an operator, a quoted name or a plain identifier. -/
def nameStep (c : Char) (cs : List Char) : Step :=
  if isOperator c then
    spaced (piece .operator (c :: cs.takeWhile isOperator)) (cs.dropWhile isOperator)
  else
    match if isQuote c then untilLast c cs else none with
    | some (body, rest) => spaced (piece .identifier (c :: body ++ [c])) rest
    | none => spaced (piece .identifier (c :: cs.takeWhile isIdentifier)) (cs.dropWhile isIdentifier)

/-- The text `c :: cs` begins with a word. The keywords are tried one after the other, and then the
functions; it is another word if none of them fits what follows. -/
def wordStep (c : Char) (cs : List Char) : Step :=
  match (Reserved.readings Reserved.keywords (c :: cs)).findSome? fun r => keywordStep? r.1 r.2 with
  | some step => step
  | none =>
    match (Reserved.readings Reserved.functions (c :: cs)).findSome? fun r => functionStep r.1 r.2 with
    | some step => step
    | none => nameStep c cs

/-! ## Steps -/

/-- A step on code that begins with no blank. -/
def lexeme : List Char → Step
  | [] => ⟨[], [], false⟩
  | '/' :: '*' :: rest => ⟨[⟨.comment, "/*", none⟩], rest, true⟩
  | '-' :: '-' :: rest => lineComment ('-' :: '-' :: rest)
  | '#' :: rest => lineComment ('#' :: rest)
  | ',' :: rest => spaced [⟨.comma, ",", none⟩] rest
  | '.' :: '*' :: rest => spaced [⟨.dot, ".", none⟩, ⟨.keyword, "*", none⟩] rest
  | '.' :: rest => spaced [⟨.dot, ".", none⟩] rest
  | '(' :: rest => spaced [⟨.leftBracket, "(", none⟩] rest
  | ')' :: rest => spaced [⟨.rightBracket, ")", none⟩] rest
  | c :: rest => wordStep c rest

/-- What can be read from code that begins with no blank. -/
inductive Lexeme : List Char → Step → Prop
  | nothing : Lexeme [] ⟨[], [], false⟩
  | blockComment (rest : List Char) :
    Lexeme ('/' :: '*' :: rest) ⟨[⟨.comment, "/*", none⟩], rest, true⟩
  | lineComment (c : Char) (rest : List Char) (h : c = '#' ∨ c = '-' ∧ ['-'] <+: rest) :
    Lexeme (c :: rest) (lineComment (c :: rest))
  | mark (kind : Kind) (c : Char) (rest : List Char)
      (hmark : (kind, c) ∈ [(.comma, ','), (.dot, '.'), (.leftBracket, '('), (.rightBracket, ')')])
      (hstar : c = '.' → ¬ ['*'] <+: rest) : Lexeme (c :: rest) (spaced (piece kind [c]) rest)
  | star (rest : List Char) :
    Lexeme ('.' :: '*' :: rest) (spaced [⟨.dot, ".", none⟩, ⟨.keyword, "*", none⟩] rest)
  | word (c : Char) (rest : List Char) (hmark : c ∉ [',', '(', ')', '#', '.'])
      (hblock : ¬ ['/', '*'] <+: c :: rest) (hline : ¬ ['-', '-'] <+: c :: rest) :
    Lexeme (c :: rest) (wordStep c rest)

theorem lexeme_cases (cs : List Char) : Lexeme cs (lexeme cs) := by
  fun_cases lexeme cs with
  | case1 => exact .nothing
  | case2 rest => exact .blockComment rest
  | case3 rest => exact .lineComment '-' _ (.inr ⟨rfl, rest, rfl⟩)
  | case4 rest => exact .lineComment '#' rest (.inl rfl)
  | case5 rest => exact .mark .comma ',' rest (by simp) (by simp)
  | case6 rest => exact .star rest
  | case7 rest hstar =>
    refine .mark .dot '.' rest (by simp) fun _ => ?_
    rintro ⟨after, rfl⟩
    exact hstar after rfl
  | case8 rest => exact .mark .leftBracket '(' rest (by simp) (by simp)
  | case9 rest => exact .mark .rightBracket ')' rest (by simp) (by simp)
  | case10 c rest hblock hline hhash hcomma _ hdot hleft hright =>
    refine .word c rest ?_ ?_ ?_
    · simp only [List.mem_cons, List.not_mem_nil, or_false, not_or]
      exact ⟨hcomma, hleft, hright, hhash, hdot⟩
    · rintro ⟨after, he⟩
      exact hblock after (List.cons.inj he).1.symm (List.cons.inj he).2.symm
    · rintro ⟨after, he⟩
      exact hline after (List.cons.inj he).1.symm (List.cons.inj he).2.symm

def step (inComment : Bool) (cs : List Char) : Step :=
  if inComment then commentStep cs
  else (lexeme (cs.dropWhile isBlank)).after (piece .whitespace (cs.takeWhile isBlank))

/-! ## Each step shortens the text -/

theorem length_dropWhile_le (p : Char → Bool) (cs : List Char) :
    (cs.dropWhile p).length ≤ cs.length :=
  (List.dropWhile_suffix p).length_le

theorem untilClose_length (cs body rest : List Char) (h : untilClose cs = some (body, rest)) :
    rest.length < cs.length := by
  fun_induction untilClose cs generalizing body with
  | case1 => simp at h
  | case2 after =>
    simp only [Option.some.injEq, Prod.mk.injEq] at h
    obtain ⟨-, rfl⟩ := h
    simp only [List.length_cons]
    omega
  | case3 c cs hc ih =>
    simp only [Option.map_eq_some_iff] at h
    obtain ⟨⟨b, r⟩, hb, he⟩ := h
    simp only [Prod.mk.injEq] at he
    obtain ⟨-, rfl⟩ := he
    have := ih b hb
    simp only [List.length_cons]
    omega

theorem untilLast_length (q : Char) (cs body rest : List Char)
    (h : untilLast q cs = some (body, rest)) : rest.length < cs.length := by
  induction cs generalizing body with
  | nil => simp [untilLast] at h
  | cons c cs ih =>
    simp only [untilLast] at h
    split at h
    · simp at h
    · split at h
      · next b after hb =>
        simp only [Option.some.injEq, Prod.mk.injEq] at h
        obtain ⟨-, rfl⟩ := h
        have := ih b hb
        simp only [List.length_cons]
        omega
      · split at h
        · simp only [Option.some.injEq, Prod.mk.injEq] at h
          obtain ⟨-, rfl⟩ := h
          simp
        · simp at h

theorem spaced_length (ts : List Token) (rest : List Char) :
    (spaced ts rest).rest.length ≤ rest.length :=
  length_dropWhile_le isBlank rest

theorem opening_length (rest : List Char) : (opening rest).rest.length ≤ rest.length := by
  have h := length_dropWhile_le isBlank rest
  simp only [opening]
  split
  · next after e =>
    rw [e, List.length_cons] at h
    exact Nat.le_of_succ_le h
  · exact h

theorem keywordStep_length (run rest : List Char) :
    (keywordStep run rest).rest.length ≤ rest.length := by
  unfold keywordStep
  split
  · next after =>
    have := opening_length after
    simp only [Step.after, List.length_cons]
    omega
  · exact spaced_length [] _

theorem functionStep_length (run rest : List Char) (s : Step) (h : functionStep run rest = some s) :
    s.rest.length ≤ rest.length := by
  have hb := length_dropWhile_le isBlank rest
  unfold functionStep at h
  split at h
  · next after e =>
    simp only [Option.some.injEq] at h
    subst h
    have := opening_length after
    simp only [e, List.length_cons] at hb
    simp only [Step.after]
    omega
  · simp at h

theorem nameStep_length (c : Char) (cs : List Char) :
    (nameStep c cs).rest.length ≤ cs.length := by
  unfold nameStep
  split
  · exact Nat.le_trans (spaced_length _ _) (length_dropWhile_le _ _)
  · split
    · next body rest h =>
      split at h
      · have := untilLast_length c cs body rest h
        have := spaced_length (piece .identifier (c :: body ++ [c])) rest
        omega
      · simp at h
    · exact Nat.le_trans (spaced_length _ _) (length_dropWhile_le _ _)

theorem keywordStep?_length (run rest : List Char) (s : Step) (h : keywordStep? run rest = some s) :
    s.rest.length ≤ rest.length := by
  unfold keywordStep? at h
  split at h
  · cases h
  · cases h
    exact keywordStep_length run rest

theorem findSome?_readings_length (table : List String)
    (htable : table ⊆ Reserved.keywords ++ Reserved.functions) (c : Char) (cs : List Char)
    (f : List Char → List Char → Option Step)
    (hf : ∀ run rest s, f run rest = some s → s.rest.length ≤ rest.length) (s : Step)
    (h : ((Reserved.readings table (c :: cs)).findSome? fun r => f r.1 r.2) = some s) :
    s.rest.length ≤ cs.length := by
  obtain ⟨r, hr, hs⟩ := List.exists_of_findSome?_eq_some h
  have hshort := Reserved.length_lt_of_mem_readings table htable (c :: cs) r.1 r.2 hr
  have hrest := hf r.1 r.2 s hs
  rw [List.length_cons] at hshort
  omega

theorem wordStep_length (c : Char) (cs : List Char) :
    (wordStep c cs).rest.length ≤ cs.length := by
  unfold wordStep
  split
  · next s h =>
    exact findSome?_readings_length _ (List.subset_append_left _ _) c cs _ keywordStep?_length s h
  · split
    · next s h =>
      exact findSome?_readings_length _ (List.subset_append_right _ _) c cs _ functionStep_length s h
    · exact nameStep_length c cs

theorem lineComment_length (c : Char) (cs : List Char) (h : c ≠ '\n') :
    (lineComment (c :: cs)).rest.length ≤ cs.length := by
  have hc : (c != '\n') = true := by simpa using h
  simp only [lineComment, List.dropWhile_cons, hc, if_true]
  exact length_dropWhile_le _ cs

theorem Lexeme.length_le {c : Char} {cs : List Char} {s : Step} (h : Lexeme (c :: cs) s) :
    s.rest.length ≤ cs.length := by
  cases h with
  | blockComment rest => exact Nat.le_succ rest.length
  | lineComment _ _ hc => exact lineComment_length c cs (by rintro rfl; simp at hc)
  | mark => exact spaced_length _ cs
  | star rest => exact Nat.le_succ_of_le (spaced_length _ rest)
  | word => exact wordStep_length c cs

/-- A step on a text that is not empty leaves a shorter text. -/
theorem rest_step_lt (inComment : Bool) (c : Char) (cs : List Char) :
    (step inComment (c :: cs)).rest.length < (c :: cs).length := by
  unfold step
  split
  · unfold commentStep
    split
    · next body rest h => exact untilClose_length (c :: cs) body rest h
    · simp
  · simp only [Step.after]
    have hb := length_dropWhile_le isBlank (c :: cs)
    match hd : (c :: cs).dropWhile isBlank with
    | [] => simp [lexeme]
    | d :: ds =>
      have := (lexeme_cases (d :: ds)).length_le
      rw [hd] at hb
      simp only [List.length_cons] at hb ⊢
      omega

/-! ## Lines and statements -/

/-- The tokens of one line, and whether a block comment is open at its end. -/
def scanLine (inComment : Bool) : List Char → List Token × Bool
  | [] => ([], inComment)
  | c :: cs =>
    let s := step inComment (c :: cs)
    let (ts, isOpen) := scanLine s.inComment s.rest
    (s.tokens ++ ts, isOpen)
termination_by cs => cs.length
decreasing_by exact rest_step_lt inComment c cs

theorem scanLine_nil (inComment : Bool) : scanLine inComment [] = ([], inComment) := by
  rw [scanLine]

theorem scanLine_cons (inComment : Bool) (c : Char) (cs : List Char) :
    scanLine inComment (c :: cs) =
      ((step inComment (c :: cs)).tokens ++
          (scanLine (step inComment (c :: cs)).inComment (step inComment (c :: cs)).rest).1,
        (scanLine (step inComment (c :: cs)).inComment (step inComment (c :: cs)).rest).2) := by
  rw [scanLine]

/-- The tokens of each of the lines, of which the first begins in a block comment if `inComment`. -/
def scanLines (inComment : Bool) : List (List Char) → List (List Token)
  | [] => []
  | line :: rest =>
    let (ts, isOpen) := scanLine inComment line
    ts :: scanLines isOpen rest

def scan (sql : String) : List (List Token) :=
  scanLines false (lines sql.toList)

end SqlStyle.Scan
