import SqlStyle.Layout.Spaces
import SqlStyle.Settings
import SqlStyle.Tree

/-! The passes over a tree of lines that give it its final form. Each of them works on the lines below
the top in reading order. -/
namespace SqlStyle.Layout
set_option autoImplicit false

/-! ## Editing line by line -/

mutual

def editTree (f : Node → Edit Node) : Tree → Edit Tree
  | .node n ts =>
    let e := f n
    match e.fault? with
    | some fault => ⟨.node e.value ts, some fault⟩
    | none => (editForest f ts).map (.node e.value)

def editForest (f : Node → Edit Node) : List Tree → Edit (List Tree)
  | [] => ⟨[], none⟩
  | t :: rest =>
    let e := editTree f t
    match e.fault? with
    | some fault => ⟨e.value :: rest, some fault⟩
    | none => (editForest f rest).map (e.value :: ·)

end

def editBeneath (f : Node → Edit Node) : Tree → Edit Tree
  | .node n ts => (editForest f ts).map (.node n)

def withTokens (n : Node) (ts : List Token) : Node :=
  { n with tokens := ts }

/-! ## Reserved words -/

def restyle (style : KeywordStyle) (t : Token) : Edit Token :=
  if t.kind.isReserved then
    match style.write t.word with
    | .ok w => ⟨{ t with word := w }, none⟩
    | .error fault => ⟨t, some fault⟩
  else ⟨t, none⟩

def keywordPass (style : KeywordStyle) (t : Tree) : Edit Tree :=
  editBeneath (fun n => (Edit.each (restyle style) n.tokens).map (withTokens n)) t

/-! ## Joins -/

/-- The word that a join lacks, by the token before it. -/
def missingJoinWord : Option Token → Option String
  | none => some "INNER"
  | some prev =>
    if prev.isKeywordOf ["INNER", "CROSS", "OUTER"] then none
    else if prev.isKeywordOf ["LEFT", "RIGHT", "FULL"] then some "OUTER"
    else some "INNER"

/-- The tokens `ts`, which follow the token `prev?`, with every join written in full. -/
def completeFrom (style : KeywordStyle) (prev? : Option Token) : List Token → List Token
  | [] => []
  | t :: ts =>
    let missing := if t.isKeyword "JOIN" then missingJoinWord prev? else none
    (missing.toList.map fun w => ⟨.keyword, style.spell w, none⟩) ++
      t :: completeFrom style (some t) ts

def completeJoins (style : KeywordStyle) (ts : List Token) : List Token :=
  completeFrom style none ts

def joinPass (style : KeywordStyle) (t : Tree) : Edit Tree :=
  editBeneath (fun n => ⟨withTokens n (completeJoins style n.tokens), none⟩) t

/-! ## Commas at the head -/

def giveHead (comma? : Option Token) : List Tree → List Tree
  | [] => []
  | .node n ts :: rest => .node (withTokens n (comma?.toList ++ n.tokens)) ts :: rest

mutual

/-- Move commas to the heads of lines within a tree, whose first line gets the comma of the line before.
With the tree comes the comma that its first line gives away. A line that is a comma only keeps it, and
so does the last line. -/
def treeToHead (comma? : Option Token) (isLast : Bool) : Tree → Edit (Tree × Option Token)
  | .node n ts =>
    let tokens := comma?.toList ++ n.tokens
    match tokens.getLast? with
    | none => ⟨(.node n ts, none), some .noToken⟩
    | some last =>
      if last.kind = .comma ∧ tokens.length = 1 then ⟨(.node (withTokens n tokens) ts, none), none⟩
      else
        let moves := last.kind == .comma && !isLast
        let own := withTokens n (if moves then tokens.dropLast else tokens)
        (forestToHead none ts).map fun below => (.node own below, if moves then some last else none)

def forestToHead (comma? : Option Token) : List Tree → Edit (List Tree)
  | [] => ⟨[], none⟩
  | t :: rest =>
    let e := treeToHead comma? rest.isEmpty t
    match e.fault? with
    | some fault => ⟨e.value.1 :: giveHead e.value.2 rest, some fault⟩
    | none => (forestToHead e.value.2 rest).map (e.value.1 :: ·)

end

/-- Move a comma at the end of a line to the head of the next line with the same parent. -/
def commasToHead : Tree → Edit Tree
  | .node n ts => (forestToHead none ts).map (.node n)

/-! ## Commas at the end -/

/-- The comma that a line gives away: the one it begins with, unless the line lies at the top or holds
nothing else. -/
def headComma? (n : Node) : Option Token :=
  if n.depth ≤ 1 then none
  else
    match n.tokens with
    | t :: _ :: _ => if t.kind = .comma then some t else none
    | _ => none

/-- The line is not looked into for commas: it is a comma only. -/
def isLoneComma (n : Node) : Bool :=
  1 < n.depth &&
    match n.tokens with
    | [t] => t.kind == .comma
    | _ => false

def forestComma? : List Tree → Option Token
  | [] => none
  | t :: _ => headComma? t.root

/-- The tree with a comma put at the given index of its first line, or at the end of a line that is
shorter. -/
def takeComma (index : Nat) (comma? : Option Token) : Tree → Tree
  | .node n ts =>
    match comma? with
    | none => .node n ts
    | some comma => .node (withTokens n (n.tokens.take index ++ comma :: n.tokens.drop index)) ts

mutual

/-- Take the comma from the head of a tree's first line, and move commas to the ends of lines below. -/
def treeToEnd : Tree → Edit Tree
  | .node n ts =>
    if 1 < n.depth ∧ n.tokens.isEmpty then ⟨.node n ts, some .noToken⟩
    else
      let own := if (headComma? n).isSome then withTokens n (n.tokens.drop 1) else n
      if isLoneComma n then ⟨.node own ts, none⟩ else (forestToEnd ts.length ts).map (.node own)

/-- Move commas to the ends of lines that share a parent with `count` lines below it. The comma goes to
the index `count` of the line before, or to its end; without a line before, it is dropped. -/
def forestToEnd (count : Nat) : List Tree → Edit (List Tree)
  | [] => ⟨[], none⟩
  | t :: rest =>
    let e := treeToEnd t
    match e.fault? with
    | some fault => ⟨e.value :: rest, some fault⟩
    | none => (forestToEnd count rest).map (takeComma count (forestComma? rest) e.value :: ·)

end

/-- Move a comma at the head of a line to the line before it with the same parent. -/
def commasToEnd : Tree → Edit Tree
  | .node n ts => (forestToEnd ts.length ts).map (.node n)

def commaPass (position : CommaPosition) (t : Tree) : Edit Tree :=
  match position with
  | .head => commasToHead t
  | .tail => commasToEnd t

/-! ## Indentation -/

def margin (steps : Nat) (depth : Int) : Token :=
  blanks (steps * (depth - 1).toNat)

/-- A line with the whitespace at its head that its depth asks for. -/
def indentLine (steps : Nat) (n : Node) : Edit Node :=
  match n.tokens with
  | [] => ⟨n, some .noToken⟩
  | t :: ts =>
    if t.kind = .whitespace then
      ⟨withTokens n ({ t with word := (margin steps n.depth).word } :: ts), none⟩
    else if 1 < n.depth then ⟨withTokens n (margin steps n.depth :: t :: ts), none⟩
    else ⟨n, none⟩

def indentPass (steps : Nat) (t : Tree) : Edit Tree :=
  editBeneath (indentLine steps) t

/-! ## Blank lines -/

def blankLine : Tree :=
  .node ⟨⟨0, []⟩, 1, false, none⟩ []

/-- The line ends a part of the statement: it begins with a right bracket or a name, or it is `WITH` or
a comma with one token behind it. -/
def endsPart (head : Token) (line : List Token) : Bool :=
  head.kind == .rightBracket || head.kind == .identifier ||
    ((head.isKeyword "WITH" || (head.key == "," && head.kind == .comma)) && line.length == 2)

/-- Put a blank line at the end, and one behind each line that ends a part. A line with no tokens
before the last one stops the pass. -/
def blankForest : List Tree → Edit (List Tree)
  | [] => ⟨[blankLine], none⟩
  | [t] => ⟨[t, blankLine], none⟩
  | t :: next :: rest =>
    match t.root.tokens with
    | [] => ⟨t :: next :: rest, some .noToken⟩
    | head :: _ =>
      if endsPart head t.root.tokens then ⟨t :: blankLine :: next :: rest, some .noToken⟩
      else (blankForest (next :: rest)).map (t :: ·)

/-- Put blank lines between the lines directly below the top of a whole statement. -/
def blankPass : Tree → Edit Tree
  | .node n ts => if n.depth = 0 then (blankForest ts).map (.node n) else ⟨.node n ts, none⟩

/-! ## Whitespace -/

def spacePass (t : Tree) : Edit Tree :=
  editBeneath (fun n => ⟨withTokens n (spaceOut n.tokens), none⟩) t

/-! ## All passes -/

inductive Pass where
  | keywords
  | joins
  | commas
  | indentation
  | blankLines
  | spaces
deriving DecidableEq, Repr

def Pass.run (pass : Pass) (s : Settings) (t : Tree) : Edit Tree :=
  match pass with
  | .keywords => keywordPass s.keywordStyle t
  | .joins => joinPass s.keywordStyle t
  | .commas => commaPass s.commaPosition t
  | .indentation => indentPass s.indentSteps t
  | .blankLines => blankPass t
  | .spaces => spacePass t

def passes : List Pass :=
  [.keywords, .joins, .commas, .indentation, .blankLines, .spaces]

def finish (s : Settings) (t : Tree) : Edit Tree :=
  passes.foldl (fun e pass => e.andThen (pass.run s)) ⟨t, none⟩

end SqlStyle.Layout
