import SqlStyle.Proofs.Layout.Comments
import SqlStyle.Proofs.Lint.Layouts

/-! Joins that are written in full (`joinContext_joinPass`). The pass looks at one token before a join and
the check reads all the join words before it, so the two agree on most joins but not on all: a run of join
words that no join begins with stays wrong whatever word is put behind it. The words of a join are compared
as a list, since a text that is put together from words without blanks can be taken apart again. -/
namespace SqlStyle.Lint
set_option autoImplicit false
open Layout SqlStyle.Tree

/-! ## Words put before joins -/

/-- The second line is the first with a word put before some of its joins. -/
inductive JoinsCompleted (style : KeywordStyle) : List Token → List Token → Prop where
  | nil : JoinsCompleted style [] []
  | kept (t : Token) {ts us : List Token} (rest : JoinsCompleted style ts us) :
    JoinsCompleted style (t :: ts) (t :: us)
  | completed (word : String) (t : Token) {ts us : List Token} (hword : word ∈ ["INNER", "OUTER"])
      (ht : t.isKeyword "JOIN" = true) (rest : JoinsCompleted style ts us) :
    JoinsCompleted style (t :: ts) (⟨.keyword, style.spell word, none⟩ :: t :: us)

theorem joinsCompleted_completeFrom (style : KeywordStyle) (prev? : Option Token) (ts : List Token) :
    JoinsCompleted style ts (completeFrom style prev? ts) := by
  induction ts generalizing prev? with
  | nil => exact .nil
  | cons t ts ih =>
    rw [completeFrom_cons]
    rcases joinWord_cases style prev? t with ⟨hnone, -⟩ | ⟨ht, word, hword, -, hsome⟩
    · rw [hnone]
      exact .kept t (ih (some t))
    · rw [hsome]
      exact .completed word t hword ht (ih (some t))

/-! ## The joins of a completed line -/

/-- The window on the same token once the joins of its line are completed. -/
def completedWindow (style : KeywordStyle) (w : Window) : Window :=
  ⟨(completeJoins style w.before.reverse ++ joinWord style w.before.head? w.token).reverse, w.token,
    completeFrom style (some w.token) w.after⟩

theorem filter_along_completeFrom (style : KeywordStyle) (before ts : List Token) :
    (Window.along (completeJoins style before.reverse).reverse
        (completeFrom style before.head? ts)).filter (fun w => w.token.key == "JOIN") =
      ((Window.along before ts).filter (fun w => w.token.key == "JOIN")).map (completedWindow style) := by
  induction ts generalizing before with
  | nil => rfl
  | cons t ts ih =>
    have hstep : (completeJoins style (t :: before).reverse).reverse =
        t :: ((joinWord style before.head? t).reverse ++ (completeJoins style before.reverse).reverse) := by
      rw [List.reverse_cons, completeJoins, completeFrom_append, completeFrom_cons, List.getLast?_reverse,
        Option.or_none, completeJoins]
      simp [completeFrom]
    have hrest := ih (t :: before)
    rw [hstep, List.head?_cons] at hrest
    have hwindow : completedWindow style ⟨before, t, ts⟩ =
        ⟨(joinWord style before.head? t).reverse ++ (completeJoins style before.reverse).reverse, t,
          completeFrom style (some t) ts⟩ := by
      rw [completedWindow, List.reverse_append]
    rw [completeFrom_cons, Window.along, List.filter_cons, apply_ite (List.map (completedWindow style)),
      List.map_cons, hwindow, ← hrest]
    rcases joinWord_cases style before.head? t with ⟨hnone, -⟩ | ⟨-, word, hword, -, hsome⟩
    · rw [hnone, List.nil_append, Window.along, List.filter_cons]
      rfl
    · have hkey : (⟨.keyword, style.spell word, none⟩ : Token).key ≠ "JOIN" := by
        rw [key_spell style word hword]
        rcases List.mem_pair.1 hword with rfl | rfl <;> decide
      rw [hsome, List.singleton_append, Window.along, List.filter_cons, if_neg (by simpa using hkey),
        Window.along, List.filter_cons]
      rfl

theorem joins_completeJoins (style : KeywordStyle) (number : Nat) (ts : List Token) :
    joins ⟨number, completeJoins style ts⟩ = (joins ⟨number, ts⟩).map (completedWindow style) :=
  filter_along_completeFrom style [] ts

/-! ## The words of a join -/

def joinKeys : List String :=
  ["INNER", "LEFT", "RIGHT", "FULL", "CROSS", "OUTER"]

def fullJoins : List (List String) :=
  [["LEFT", "OUTER"], ["RIGHT", "OUTER"], ["FULL", "OUTER"], ["INNER"], ["CROSS"]]

/-- The runs of join words that end up as a full join: those that are one, and those that lack a word. -/
def fullRuns : List (List String) :=
  [[], ["INNER"], ["CROSS"], ["LEFT"], ["RIGHT"], ["FULL"], ["LEFT", "OUTER"], ["RIGHT", "OUTER"],
    ["FULL", "OUTER"]]

/-- The tokens before a join end in the longest run of join words, which `run` is. -/
structure EndsInRun (ts front run : List Token) : Prop where
  split : ts = front ++ run
  words : ∀ t ∈ run, t.key ∈ joinKeys
  longest : ∀ t ∈ front.getLast?, t.key ∉ joinKeys

/-- There are no blanks and comments in the line, and its join words are keywords. -/
structure JoinsPlain (ts : List Token) : Prop where
  code : ∀ t ∈ ts, t.kind.isTrivia = false
  keyword : ∀ t ∈ ts, t.key ∈ "JOIN" :: joinKeys → t.kind = .keyword

theorem exists_endsInRun (ts : List Token) : ∃ front run, EndsInRun ts front run := by
  let isWord : Token → Bool := fun t => decide (t.key ∈ joinKeys)
  refine ⟨(ts.reverse.dropWhile isWord).reverse, (ts.reverse.takeWhile isWord).reverse, ?_, ?_, ?_⟩
  · rw [← List.reverse_append, List.takeWhile_append_dropWhile, List.reverse_reverse]
  · intro t ht
    simpa [isWord] using List.mem_takeWhile_imp (List.mem_reverse.1 ht)
  · intro t ht
    rw [List.getLast?_reverse] at ht
    have := List.head?_dropWhile_not isWord ts.reverse
    rw [Option.mem_def.1 ht] at this
    simpa [isWord] using this

theorem isSome_lookup_joinForms (k : String) : (joinForms.lookup k).isSome = decide (k ∈ joinKeys) := by
  rw [Bool.eq_iff_iff, List.lookup_isSome_iff, decide_eq_true_iff]
  simp only [joinForms, joinKeys, List.mem_cons, List.not_mem_nil, or_false, exists_eq_or_imp, exists_eq_left,
    beq_iff_eq]
  tauto

/-- The check reads the run, and nothing but the run, if there are no blanks and comments. -/
theorem joinWords_of_endsInRun {before front run : List Token} (h : EndsInRun before.reverse front run)
    (hcode : ∀ t ∈ before, t.kind.isTrivia = false) :
    joinWords before = (run.map Token.key).reverse := by
  have hbefore : before = run.reverse ++ front.reverse := by
    rw [← List.reverse_append, ← h.split, List.reverse_reverse]
  have hfront : (front.reverse.map Token.key).takeWhile (fun k => (joinForms.lookup k).isSome) = [] := by
    cases hrev : front.reverse with
    | nil => rfl
    | cons t ts =>
      have ht : t.key ∉ joinKeys := h.longest t (by rw [List.getLast?_eq_head?_reverse, hrev]; rfl)
      rw [List.map_cons, List.takeWhile_cons_of_neg (by simp [isSome_lookup_joinForms, ht])]
  have hall : before.filter (fun t => !t.kind.isTrivia) = before :=
    List.filter_eq_self.2 fun t ht => by simp [hcode t ht]
  rw [joinWords, hall, hbefore, List.map_append, List.takeWhile_append_of_pos, hfront, List.append_nil,
    List.map_reverse]
  intro k hk
  obtain ⟨t, ht, rfl⟩ := List.mem_map.1 hk
  simpa [isSome_lookup_joinForms] using h.words t (List.mem_reverse.1 ht)

theorem intercalate_inj {us vs : List String} (hus : us ≠ []) (hvs : vs ≠ [])
    (hblank : ∀ k ∈ us ++ vs, ' ' ∉ k.toList) (h : String.intercalate " " us = String.intercalate " " vs) :
    us = vs := by
  have hsplit : ∀ ws : List String, ws ≠ [] → (∀ k ∈ ws, ' ' ∉ k.toList) →
      (String.intercalate " " ws).toList.splitOn ' ' = ws.map String.toList := by
    intro ws hws hk
    rw [String.toList_intercalate]
    exact List.splitOn_intercalate ' ' (List.forall_mem_map.2 hk) (by simpa using hws)
  obtain ⟨hbu, hbv⟩ := List.forall_mem_append.1 hblank
  apply List.map_injective_iff.2 fun _ _ => String.toList_inj.1
  rw [← hsplit us hus hbu, ← hsplit vs hvs hbv, h]

/-- The joins that pass the check, as words: the one that stands for three of them is never written. -/
theorem intercalate_mem_joinForms (words : List String) (h : ∀ k ∈ words, k ∈ joinKeys) :
    String.intercalate " " (words ++ ["JOIN"]) ∈ joinForms.map Prod.snd ↔
      words ∈ fullJoins := by
  have hforms : joinForms.map Prod.snd = [["LEFT", "OUTER"], ["RIGHT", "OUTER"], ["FULL", "OUTER"],
      ["[LEFT|RIGHT|FULL]", "OUTER"], ["INNER"], ["CROSS"]].map
        fun form => String.intercalate " " (form ++ ["JOIN"]) := by
    decide +kernel
  have hblank : ∀ k ∈ joinKeys, ' ' ∉ k.toList := by decide +kernel
  have hform : ∀ form ∈ [["LEFT", "OUTER"], ["RIGHT", "OUTER"], ["FULL", "OUTER"],
      ["[LEFT|RIGHT|FULL]", "OUTER"], ["INNER"], ["CROSS"]], ∀ k ∈ form ++ ["JOIN"], ' ' ∉ k.toList := by
    decide +kernel
  rw [hforms, List.mem_map]
  constructor
  · rintro ⟨form, hmem, heq⟩
    have hwords : form ++ ["JOIN"] = words ++ ["JOIN"] := by
      apply intercalate_inj (by simp) (by simp) ?_ heq
      have hown : ∀ k ∈ words ++ ["JOIN"], ' ' ∉ k.toList :=
        List.forall_mem_append.2 ⟨fun k hk => hblank k (h k hk), by simp⟩
      exact List.forall_mem_append.2 ⟨hform form hmem, hown⟩
    obtain rfl := List.append_cancel_right hwords
    have hthree : form ≠ ["[LEFT|RIGHT|FULL]", "OUTER"] := by
      rintro rfl
      exact absurd (h "[LEFT|RIGHT|FULL]" List.mem_cons_self) (by decide)
    simpa [fullJoins, hthree] using hmem
  · intro hmem
    refine ⟨words, ?_, rfl⟩
    simp only [fullJoins, List.mem_cons] at hmem ⊢
    tauto

/-! ## The check on a completed line -/

/-- The word that a run of join words lacks, by the nearest of them, which is the first. -/
def lackingWord : List String → List String
  | [] => ["INNER"]
  | k :: _ => if k ∈ ["INNER", "CROSS", "OUTER"] then [] else ["OUTER"]

theorem reverse_append_lackingWord_mem (run : List String) (h : ∀ k ∈ run, k ∈ joinKeys) :
    run.reverse ++ lackingWord run ∈ fullJoins ↔ run.reverse ∈ fullRuns := by
  have hrev : ∀ (ws : List String) (forms : List (List String)),
      ws ∈ forms ↔ ws.reverse ∈ forms.map List.reverse :=
    fun ws forms => (List.mem_map_of_injective List.reverse_injective).symm
  cases run with
  | nil => decide
  | cons k run =>
    have hk : k ∈ joinKeys := h k List.mem_cons_self
    rw [hrev _ fullJoins, hrev _ fullRuns, List.reverse_append, List.reverse_reverse, lackingWord]
    simp only [joinKeys, List.mem_cons, List.not_mem_nil, or_false] at hk
    rcases hk with rfl | rfl | rfl | rfl | rfl | rfl <;> simp [fullJoins, fullRuns]

theorem map_key_joinWord (style : KeywordStyle) {ts front run : List Token} (t : Token)
    (ht : t.isKeyword "JOIN" = true) (h : EndsInRun ts front run)
    (hkeyword : ∀ u ∈ ts, u.key ∈ joinKeys → u.kind = .keyword) :
    (joinWord style ts.getLast? t).map Token.key = lackingWord (run.map Token.key).reverse := by
  have hword : ∀ prev?, (joinWord style prev? t).map Token.key = (missingJoinWord prev?).toList := by
    intro prev?
    rcases joinWord_cases style prev? t with ⟨hnone, hfull⟩ | ⟨-, word, hword, hmissing, hsome⟩
    · rw [hnone, (missingJoinWord_eq_none prev?).2 (hfull ht)]
      rfl
    · rw [hsome, hmissing, List.map_singleton, key_spell style word hword]
      rfl
  rw [hword, h.split]
  rcases List.eq_nil_or_concat run with rfl | ⟨run, last, rfl⟩
  · rw [List.append_nil]
    cases hfront : front.getLast? with
    | none => rfl
    | some u =>
      have hu := h.longest u hfront
      simp only [joinKeys, List.mem_cons, List.not_mem_nil, or_false, not_or] at hu
      simp [missingJoinWord, Token.isKeywordOf, Token.isKeyword, hu, lackingWord]
  · have hlast : last.key ∈ joinKeys := h.words last (by simp)
    have hkind : last.kind = .keyword := by
      apply hkeyword last ?_ hlast
      rw [h.split]
      simp
    rw [List.concat_eq_append, ← List.append_assoc, List.getLast?_concat, List.map_append, List.reverse_append]
    simp only [joinKeys, List.mem_cons, List.not_mem_nil, or_false] at hlast
    rcases hlast with hk | hk | hk | hk | hk | hk <;>
      simp [missingJoinWord, Token.isKeywordOf, Token.isKeyword, lackingWord, hkind, hk]

/-- Before a join of the completed line the run stands as it stood, with the word that the join is given. -/
theorem endsInRun_completedWindow (style : KeywordStyle) (w : Window) {front run : List Token}
    (h : EndsInRun w.before.reverse front run) :
    EndsInRun (completedWindow style w).before.reverse (completeJoins style front)
      (run ++ joinWord style w.before.head? w.token) where
  split := by
    have hrun : ∀ t ∈ run, t.isKeyword "JOIN" = false := by
      intro t ht
      apply Token.isKeyword_of_key_ne
      intro hkey
      exact absurd (h.words t ht) (by rw [hkey]; decide)
    rw [completedWindow, List.reverse_reverse, h.split, completeJoins, completeFrom_append,
      completeFrom_of_no_join style _ run hrun, List.append_assoc, completeJoins]
  words := by
    rw [List.forall_mem_append]
    refine ⟨h.words, fun t ht => ?_⟩
    rcases joinWord_cases style w.before.head? w.token with ⟨hnone, -⟩ | ⟨-, word, hword, -, hsome⟩
    · rw [hnone] at ht
      cases ht
    · rw [hsome, List.mem_singleton] at ht
      rw [ht, key_spell style word hword]
      rcases List.mem_pair.1 hword with rfl | rfl <;> decide
  longest := by
    rw [completeJoins, getLast?_completeFrom]
    exact h.longest

theorem joinContext_completedWindow (style : KeywordStyle) (number : Nat) {ts : List Token}
    (h : JoinsPlain ts) (w : Window) (hw : w ∈ joins ⟨number, ts⟩) {front run : List Token}
    (hrun : EndsInRun w.before.reverse front run) :
    (∃ v ∈ joinContext ⟨number, completeJoins style ts⟩ (completedWindow style w),
      v.code = .joinIncomplete) ↔ run.map Token.key ∉ fullRuns := by
  obtain ⟨hmem, hkey⟩ := List.mem_filter.1 hw
  rw [beq_iff_eq] at hkey
  have hsub : ∀ t ∈ w.before.reverse, t ∈ ts := by
    rw [(mem_windows ts w).1 hmem]
    exact fun t ht => List.mem_append_left _ ht
  have hjoin : w.token.isKeyword "JOIN" = true := by
    simp [Token.isKeyword, hkey, h.keyword w.token (Window.token_mem hmem) (by simp [hkey])]
  have hdone := endsInRun_completedWindow style w hrun
  have hcode : ∀ t ∈ (completedWindow style w).before, t.kind.isTrivia = false := by
    have hwindow : completedWindow style w ∈ joins ⟨number, completeJoins style ts⟩ := by
      rw [joins_completeJoins]
      exact List.mem_map_of_mem hw
    have hline := (mem_windows (completeJoins style ts) _).1 (List.mem_filter.1 hwindow).1
    intro t ht
    have hmem : t ∈ completeJoins style ts := by
      rw [hline]
      exact List.mem_append_left _ (List.mem_reverse.2 ht)
    rcases mem_completeFrom style none ts t hmem with ht | hk
    · exact h.code t ht
    · rw [hk]
      rfl
  have hadded := map_key_joinWord style w.token hjoin hrun fun u hu hk =>
    h.keyword u (hsub u hu) (List.mem_cons_of_mem _ hk)
  rw [List.getLast?_reverse] at hadded
  have hwords : ∀ k ∈ (run.map Token.key).reverse, k ∈ joinKeys := by
    intro k hk
    obtain ⟨t, ht, rfl⟩ := List.mem_map.1 (List.mem_reverse.1 hk)
    exact hrun.words t ht
  have hwritten : writtenJoin (completedWindow style w) =
      String.intercalate " " ((run ++ joinWord style w.before.head? w.token).map Token.key ++ ["JOIN"]) := by
    rw [writtenJoin, joinWords_of_endsInRun hdone hcode, List.reverse_reverse]
    exact congrArg (fun k => String.intercalate " " (_ ++ [k])) hkey
  have hfull : writtenJoin (completedWindow style w) ∈ joinForms.map Prod.snd ↔
      run.map Token.key ∈ fullRuns := by
    rw [hwritten, intercalate_mem_joinForms _ (List.forall_mem_map.2 hdone.words), List.map_append, hadded]
    simpa using reverse_append_lackingWord_mem _ hwords
  rw [joinContext, ← hfull]
  split
  · simp_all
  · simp_all [Violation.ofLine]

/-- The check of a completed line: its joins are those of the line in their order, and a join is reported
exactly if the join words before it in the line are no run that ends up as a full join. -/
def JoinsReported (line done : Line) : Prop :=
  List.Forall₂ (fun w x => x.token = w.token ∧ ∃ front run, EndsInRun w.before.reverse front run ∧
    ((∃ v ∈ joinContext done x, v.code = .joinIncomplete) ↔ run.map Token.key ∉ fullRuns))
    (joins line) (joins done)

theorem joinsReported_completeJoins (style : KeywordStyle) (number : Nat) {ts : List Token}
    (h : JoinsPlain ts) : JoinsReported ⟨number, ts⟩ ⟨number, completeJoins style ts⟩ := by
  rw [JoinsReported, joins_completeJoins, List.forall₂_map_right_iff, List.forall₂_same]
  intro w hw
  obtain ⟨front, run, hrun⟩ := exists_endsInRun w.before.reverse
  exact ⟨rfl, front, run, hrun, joinContext_completedWindow style number h w hw hrun⟩

/-- The join pass adds the words that joins lack and nothing else. After it every join is full, so that
the pass changes nothing more in any style, and the check reports the joins whose words are out of place. -/
theorem joinContext_joinPass (style : KeywordStyle) (t : Tree) :
    ∃ u, joinPass style t = ⟨u, none⟩ ∧ u.root = t.root ∧
      Paired (fun n m => m = withTokens n m.tokens ∧ JoinsCompleted style n.tokens m.tokens ∧
        JoinsFull none m.tokens ∧ (JoinsPlain n.tokens → JoinsReported n.toLine m.toLine))
        t.leaves u.leaves ∧
      ∀ other, joinPass other u = ⟨u, none⟩ := by
  obtain ⟨root, leaves⟩ := t
  refine ⟨_, joinPass_eq style root leaves, rfl, ?_, fun other => ?_⟩
  · apply (paired_mapForest (completedLine style) leaves).imp
    rintro n m rfl
    exact ⟨rfl, joinsCompleted_completeFrom style none n.tokens, joinsFull_completeFrom style none n.tokens,
      fun h => joinsReported_completeJoins style n.number h⟩
  · have htwice : ∀ n, completedLine other (completedLine style n) = completedLine style n := fun n =>
      congrArg (withTokens n) (completeFrom_completeFrom style other none n.tokens)
    rw [joinPass_eq, mapForest_mapForest, funext htwice]

/-- A line with a join that is full but for one word, one whose words are out of place and a bare one. -/
def lineOfJoins : List Token :=
  [⟨.keyword, "left", none⟩, ⟨.keyword, "join", none⟩, ⟨.identifier, "b", none⟩, ⟨.keyword, "cross", none⟩,
    ⟨.keyword, "left", none⟩, ⟨.keyword, "join", none⟩, ⟨.identifier, "c", none⟩, ⟨.keyword, "join", none⟩,
    ⟨.identifier, "d", none⟩]

/-- The join whose words are out of place is reported, with the word that it is given. -/
theorem joinContext_joinPass_of_misplaced :
    let t : Tree := .node (Tree.top true) [.node ⟨⟨1, lineOfJoins⟩, 1, true, none⟩ []]
    JoinsPlain lineOfJoins ∧ ∃ u, joinPass .upperAll t = ⟨u, none⟩ ∧
      Paired (fun n m => JoinsReported n.toLine m.toLine) t.leaves u.leaves ∧
      (u.beneath.map Node.toLine).flatMap (fun line => (joins line).flatMap (joinContext line)) =
        [⟨.joinIncomplete, 1, 29, { actual? := some "CROSS LEFT OUTER JOIN", expected? := some "CROSS JOIN" }⟩] := by
  intro t
  have hplain : JoinsPlain lineOfJoins := ⟨by decide +kernel, by decide +kernel⟩
  obtain ⟨u, hu, -, hpaired, -⟩ := joinContext_joinPass .upperAll t
  refine ⟨hplain, u, hu, ?_, ?_⟩
  · obtain ⟨root, leaves⟩ := u
    cases hpaired with
    | cons line below after =>
      cases below
      cases after
      exact .cons (line.2.2.2 hplain) .nil .nil
  · have hvalue : u = (joinPass .upperAll t).value := by rw [hu]
    rw [hvalue]
    decide +kernel

end SqlStyle.Lint
