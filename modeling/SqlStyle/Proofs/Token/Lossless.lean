import Mathlib.Data.List.TakeWhile
import SqlStyle.Proofs.Token.Lookup

/-! Scanning loses no character and invents none: what a step reads, followed by what it leaves, is the
text it started from (`step_covers`), so the words of a line put together are the line (`scanLine_chars`).
The one step that needs the text to be a single line is the one inside a block comment: it looks for the
end of the comment on the last line only. -/
namespace SqlStyle.Scan
set_option autoImplicit false
open Text

/-! ## The characters of tokens -/

def charsOf (ts : List Token) : List Char :=
  ts.flatMap fun t => t.word.toList

@[simp] theorem charsOf_nil : charsOf [] = [] := rfl

@[simp] theorem charsOf_cons (t : Token) (ts : List Token) :
    charsOf (t :: ts) = t.word.toList ++ charsOf ts := rfl

@[simp] theorem charsOf_append (ts us : List Token) :
    charsOf (ts ++ us) = charsOf ts ++ charsOf us :=
  List.flatMap_append

@[simp] theorem charsOf_piece (kind : Kind) (cs : List Char) : charsOf (piece kind cs) = cs := by
  cases cs with
  | nil => rfl
  | cons c cs => simp [piece]

/-! ## Steps -/

/-- The step reads a first part of the text `cs` and leaves the rest of it. -/
def Step.Covers (s : Step) (cs : List Char) : Prop :=
  charsOf s.tokens ++ s.rest = cs

theorem Step.Covers.after {s : Step} {cs : List Char} (h : s.Covers cs) (ts : List Token) :
    (s.after ts).Covers (charsOf ts ++ cs) := by
  unfold Step.Covers at h ⊢
  rw [Step.after, charsOf_append, List.append_assoc, h]

theorem spaced_covers (ts : List Token) (rest : List Char) :
    (spaced ts rest).Covers (charsOf ts ++ rest) := by
  unfold Step.Covers spaced
  rw [charsOf_append, charsOf_piece, List.append_assoc, List.takeWhile_append_dropWhile]

theorem opening_covers (rest : List Char) : (opening rest).Covers ('(' :: rest) := by
  have h : rest.takeWhile isBlank ++ rest.dropWhile isBlank = rest := List.takeWhile_append_dropWhile
  unfold Step.Covers opening
  simp only
  split
  · next after e =>
    rw [e] at h
    simp only [charsOf_append, charsOf_cons, charsOf_piece, charsOf_nil, List.append_assoc]
    exact congrArg ('(' :: ·) h
  · simp only [charsOf_cons, charsOf_piece, List.append_assoc]
    exact congrArg ('(' :: ·) h

theorem keywordStep_covers (run rest : List Char) : (keywordStep run rest).Covers (run ++ rest) := by
  unfold keywordStep
  split
  · next after => simpa using (opening_covers after).after (piece .keyword run)
  · simpa using (spaced_covers [] rest).after (piece .keyword run)

theorem functionStep_covers (run rest : List Char) (s : Step) (h : functionStep run rest = some s) :
    s.Covers (run ++ rest) := by
  have hb : rest.takeWhile isBlank ++ rest.dropWhile isBlank = rest := List.takeWhile_append_dropWhile
  unfold functionStep at h
  split at h
  · next after e =>
    obtain rfl := Option.some.inj h
    have hc := (opening_covers after).after
      (piece .function run ++ piece .whitespace (rest.takeWhile isBlank))
    rw [charsOf_append, charsOf_piece, charsOf_piece, List.append_assoc, ← e, hb] at hc
    exact hc
  · simp at h

/-! ## Quoted names and comments -/

theorem untilLast_eq (q : Char) (cs body rest : List Char) (h : untilLast q cs = some (body, rest)) :
    body ++ q :: rest = cs := by
  induction cs generalizing body with
  | nil => simp [untilLast] at h
  | cons c cs ih =>
    simp only [untilLast] at h
    split at h
    · simp at h
    · split at h
      · next inner after hi =>
        simp only [Option.some.injEq, Prod.mk.injEq] at h
        obtain ⟨rfl, rfl⟩ := h
        exact congrArg (c :: ·) (ih inner hi)
      · split at h
        · next hq =>
          simp only [Option.some.injEq, Prod.mk.injEq] at h
          obtain ⟨rfl, rfl⟩ := h
          rw [hq, List.nil_append]
        · simp at h

theorem untilClose_eq (cs body rest : List Char) (h : untilClose cs = some (body, rest)) :
    body ++ '*' :: '/' :: rest = cs := by
  fun_induction untilClose cs generalizing body with
  | case1 => simp at h
  | case2 after =>
    simp only [Option.some.injEq, Prod.mk.injEq] at h
    obtain ⟨rfl, rfl⟩ := h
    rfl
  | case3 c cs hc ih =>
    simp only [Option.map_eq_some_iff] at h
    obtain ⟨⟨b, r⟩, hb, he⟩ := h
    simp only [Prod.mk.injEq] at he
    obtain ⟨rfl, rfl⟩ := he
    exact congrArg (c :: ·) (ih b hb)

theorem lastLine_of_notMem (cs : List Char) (h : '\n' ∉ cs) : lastLine cs = cs := by
  unfold lastLine
  rw [List.takeWhile_eq_self_iff.2, List.reverse_reverse]
  intro c hc
  have hm : c ∈ cs := List.mem_reverse.1 hc
  simpa using fun e : c = '\n' => h (e ▸ hm)

theorem commentStep_covers (cs : List Char) (h : '\n' ∉ cs) : (commentStep cs).Covers cs := by
  unfold commentStep
  split
  · next body rest hc =>
    have he := untilClose_eq cs body rest hc
    have hb : '\n' ∉ body := fun hm => h (he ▸ List.mem_append_left _ hm)
    unfold Step.Covers
    simp only [charsOf_append, charsOf_piece, charsOf_cons, charsOf_nil, List.append_nil,
      lastLine_of_notMem body hb, List.append_assoc]
    exact he
  · unfold Step.Covers
    rw [charsOf_piece, List.append_nil]

theorem lineComment_covers (cs : List Char) : (lineComment cs).Covers cs := by
  unfold Step.Covers lineComment
  rw [charsOf_piece, List.takeWhile_append_dropWhile]

/-! ## Words -/

theorem nameStep_covers (c : Char) (cs : List Char) : (nameStep c cs).Covers (c :: cs) := by
  have plain (kind : Kind) (p : Char → Bool) :
      (spaced (piece kind (c :: cs.takeWhile p)) (cs.dropWhile p)).Covers (c :: cs) := by
    have h := spaced_covers (piece kind (c :: cs.takeWhile p)) (cs.dropWhile p)
    rwa [charsOf_piece, List.cons_append, List.takeWhile_append_dropWhile] at h
  unfold nameStep
  split
  · exact plain .operator isOperator
  · split
    · next body rest h =>
      split at h
      · have hs := spaced_covers (piece .identifier (c :: body ++ [c])) rest
        have he : c :: body ++ [c] ++ rest = c :: cs := by
          rw [List.append_assoc, List.singleton_append, List.cons_append,
            untilLast_eq c cs body rest h]
        rwa [charsOf_piece, he] at hs
      · simp at h
    · exact plain .identifier isIdentifier

theorem wordStep_covers (c : Char) (cs : List Char) : (wordStep c cs).Covers (c :: cs) := by
  have hr : c :: cs.takeWhile inRun ++ cs.dropWhile inRun = c :: cs := by
    rw [List.cons_append, List.takeWhile_append_dropWhile]
  rcases wordStep_cases c cs with ⟨-, hword⟩ | ⟨-, -, after, hafter, hword⟩ | ⟨-, -, hword⟩ <;> rw [hword]
  · exact hr ▸ keywordStep_covers _ _
  · exact hr ▸ functionStep_covers _ _ _ (functionStep_of_bracket _ _ after hafter)
  · exact nameStep_covers c cs

theorem Lexeme.covers {cs : List Char} {s : Step} (h : Lexeme cs s) : s.Covers cs := by
  cases h with
  | nothing => rfl
  | blockComment => rfl
  | lineComment => exact lineComment_covers _
  | mark kind c rest =>
    have hmark := spaced_covers (piece kind [c]) rest
    rwa [charsOf_piece] at hmark
  | star rest => exact spaced_covers _ rest
  | word c rest => exact wordStep_covers c rest

/-- What a step reads, followed by what it leaves, is the text it started from. -/
theorem step_covers (inComment : Bool) (cs : List Char) (h : '\n' ∉ cs) :
    (step inComment cs).Covers cs := by
  unfold step
  split
  · exact commentStep_covers cs h
  · have hl := (lexeme_cases (cs.dropWhile isBlank)).covers.after (piece .whitespace (cs.takeWhile isBlank))
    rwa [charsOf_piece, List.takeWhile_append_dropWhile] at hl

/-! ## Lines -/

theorem scanLine_chars (inComment : Bool) (cs : List Char) (h : '\n' ∉ cs) :
    charsOf (scanLine inComment cs).1 = cs := by
  -- by induction on the number of characters left; each step leaves a shorter part of the line
  induction hn : cs.length using Nat.strongRecOn generalizing inComment cs with
  | _ n ih =>
    cases cs with
    | nil => rw [scanLine_nil, charsOf_nil]
    | cons c cs =>
      have hs := step_covers inComment (c :: cs) h
      have hlt : (step inComment (c :: cs)).rest.length < n := hn ▸ rest_step_lt inComment c cs
      have hrest : '\n' ∉ (step inComment (c :: cs)).rest := fun hm =>
        h (hs ▸ List.mem_append_right _ hm)
      rw [scanLine_cons, charsOf_append, ih _ hlt _ _ hrest rfl]
      exact hs

end SqlStyle.Scan
