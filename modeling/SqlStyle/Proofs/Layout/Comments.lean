import SqlStyle.Proofs.Layout.Joins
import SqlStyle.Proofs.Layout.Outcome
import SqlStyle.Proofs.Layout.Tidy

/-! Line comments in a layout. What stands behind a line comment on its line is commented out, so a comment
should be the last token of its line. Growth does not see to that everywhere: only outside all brackets,
on a line that begins with no keyword, and between the terms of a condition does a comment end its line.
The other passes do no more than move commas, so that a layout keeps its comments at the ends of lines
exactly if the lines of growth do, up to a comma that moves away or comes from the next line. If the
statement is tidy, the lines of growth do (`commentsEnd_format_iff`). -/
namespace SqlStyle.Layout
set_option autoImplicit false
open Clause SqlStyle.Tree
open Token (code)
open Scan (isLineComment)

/-! ## Comments at the end of a line -/

theorem isLineComment_restyled (style : KeywordStyle) (t : Token) :
    isLineComment (restyled style t) = isLineComment t := by
  by_cases hk : t.kind = .comment
  · have hsame : restyled style t = t := by simp [restyled, hk, Kind.isReserved]
    rw [hsame]
  · rw [isLineComment_of_kind hk, isLineComment_of_kind (by rwa [kind_restyled])]

theorem commentsEnd_map_restyled (style : KeywordStyle) (ts : List Token) :
    CommentsEnd (ts.map (restyled style)) ↔ CommentsEnd ts := by
  rw [CommentsEnd, ← List.map_dropLast, List.forall_mem_map, CommentsEnd]
  simp only [isLineComment_restyled]

/-- The words that complete a join stand before a token, so they change nothing for comments. -/
theorem commentsEnd_completeFrom (style : KeywordStyle) (prev? : Option Token) (ts : List Token) :
    CommentsEnd (completeFrom style prev? ts) ↔ CommentsEnd ts := by
  induction ts generalizing prev? with
  | nil => rfl
  | cons t ts ih =>
    have hwords : ∀ w : Option String, ∀ u ∈ w.toList.map fun w => (⟨.keyword, style.spell w, none⟩ : Token),
        isLineComment u = false := by
      intro w u hu
      obtain ⟨v, -, rfl⟩ := List.mem_map.1 hu
      rfl
    rw [completeFrom, commentsEnd_append _ _ (List.cons_ne_nil _ _), commentsEnd_cons, commentsEnd_cons,
      ih (some t), ne_eq, completeFrom_eq_nil]
    exact and_iff_right (hwords _)

theorem commentsEnd_spaceOut (ts : List Token) : CommentsEnd (spaceOut ts) ↔ CommentsEnd ts := by
  fun_induction spaceOut ts with
  | case1 => rfl
  | case2 t => rfl
  | case3 t next rest ih =>
    have hgap : ∀ u ∈ gap t next, isLineComment u = false := by
      intro u hu
      unfold gap at hu
      split at hu
      · cases hu
      · obtain rfl := List.mem_singleton.1 hu
        rfl
    have hne : spaceOut (next :: rest) ≠ [] := by
      intro hnil
      have hhead := head?_spaceOut (next :: rest)
      rw [hnil] at hhead
      cases hhead
    rw [commentsEnd_append _ _ hne, ih, commentsEnd_cons t, List.forall_mem_cons]
    exact ⟨fun h => ⟨fun _ => h.1.1, h.2⟩, fun h => ⟨⟨h.1 (List.cons_ne_nil _ _), hgap⟩, h.2⟩⟩

theorem commentsEnd_indentedLine (steps : Nat) (n : Node) (h : Bare n) :
    CommentsEnd (indentedLine steps n).tokens ↔ CommentsEnd n.tokens := by
  obtain ⟨t, ts, ht⟩ := List.exists_cons_of_ne_nil h.1
  have hkind : t.kind ≠ .whitespace := h.2 t (ht ▸ List.mem_cons_self)
  unfold indentedLine indentLine
  simp only [ht, hkind, if_false]
  split
  · have hmargin : isLineComment (margin steps n.depth) = false := rfl
    show CommentsEnd (margin steps n.depth :: t :: ts) ↔ _
    rw [commentsEnd_cons, hmargin]
    simp
  · rw [ht]

/-! ## Lines among their siblings -/

mutual

/-- The line of the tree, which has `count` siblings and `next?` after it, has the property, and so have the
lines below it. -/
def EachOf (p : Nat → Node → Option Node → Prop) (count : Nat) (next? : Option Node) : Tree → Prop
  | .node n ls => p count n next? ∧ EachLine p ls.length ls

/-- Every line has the property, with the number of lines under the same parent and with the next of them. -/
def EachLine (p : Nat → Node → Option Node → Prop) (count : Nat) : List Tree → Prop
  | [] => True
  | t :: rest => EachOf p count (rest.head?.map root) t ∧ EachLine p count rest

end

theorem eachLine_cons (p : Nat → Node → Option Node → Prop) (count : Nat) (n : Node)
    (ls rest : List Tree) :
    EachLine p count (.node n ls :: rest) ↔
      p count n (rest.head?.map root) ∧ EachLine p ls.length ls ∧ EachLine p count rest := by
  rw [EachLine, EachOf, and_assoc]

theorem eachLine_congr {p q : Nat → Node → Option Node → Prop}
    (h : ∀ count n next?, p count n next? ↔ q count n next?) (count : Nat) (ts : List Tree) :
    EachLine p count ts ↔ EachLine q count ts := by
  have hpq : p = q := by
    funext count n next?
    exact propext (h count n next?)
  rw [hpq]

theorem length_mapForest (g : Node → Node) (ts : List Tree) : (mapForest g ts).length = ts.length := by
  induction ts with
  | nil => rw [mapForest_nil]
  | cons t ts ih => rw [mapForest, List.length_cons, List.length_cons, ih]

theorem root_head?_mapForest (g : Node → Node) (ts : List Tree) :
    (mapForest g ts).head?.map root = (ts.head?.map root).map g := by
  cases ts with
  | nil => rw [mapForest_nil]; rfl
  | cons t ts =>
    obtain ⟨n, ls⟩ := t
    rw [mapForest_cons]
    rfl

theorem eachLine_mapForest (p : Nat → Node → Option Node → Prop) (g : Node → Node) (count : Nat)
    (ts : List Tree) :
    EachLine p count (mapForest g ts) ↔
      EachLine (fun count n next? => p count (g n) (next?.map g)) count ts := by
  induction ts using forestInduction generalizing count with
  | nil => rw [mapForest_nil]; rfl
  | cons n ls rest ihl ihr =>
    rw [mapForest_cons, eachLine_cons, eachLine_cons, length_mapForest, root_head?_mapForest, ihl, ihr]

/-! ## Lines that are a comma only -/

/-- Nothing lies below a line that is a comma only. -/
def LoneBare (t : Tree) : Prop :=
  t.root.tokens.map Token.kind = [.comma] → t.leaves = []

theorem loneBare_of_rule {place : Place} {t : Token} {ts : List Token} {short : Split}
    (h : Rule place t ts short) (hk : t.kind = .comma) (hown : short.own = [t]) :
    short.children = [] := by
  have hfree : t.kind.isReserved = false := by rw [hk]; rfl
  cases h with
  | furtherTable _ _ h =>
    obtain rfl | rfl | ⟨head, name, as, bracket, body, -, -, -, -, -, rfl⟩ :=
      splitTableExpression_cases (t :: ts) short h
    · rfl
    · rfl
    · obtain ⟨inside, rest, -, hbody⟩ | hbody :=
        splitBody_cases [head, name, as, bracket] body (.after 1 (t :: ts))
      · rw [hbody] at hown
        cases hown
      · rw [hbody]
        rfl
  | item _ =>
    unfold splitItem
    split <;> rfl
  | alone _ => rfl
  | table hname => rw [hname] at hk; cases hk
  | other hother =>
    rcases hother with hother | hother | hother <;> rw [hother] at hk <;> cases hk
  | closing hright => rw [hright] at hk; cases hk
  | _ => simp_all

theorem loneBare_grow (s : Settings) (c : Call) (number : Nat)
    (hok : (grow s c.place number c.run).fault? = none) (hne : c.run ≠ []) :
    ∀ t ∈ forestSubtrees (grow s c.place number c.run).value, LoneBare t := by
  have hcalls := forall_calls s c number (fun d => d.run ≠ []) hok hne fun c d hplan _ hd =>
    run_ne_nil_of_mem_callees s c d hplan hd
  apply forall_mem_forestSubtrees_grow s c number LoneBare hok
  intro d hd k ls hls hlone
  obtain ⟨hplanOk, hrun⟩ := hcalls d hd
  obtain ⟨short, long, hshort, hlong, hplan⟩ := plan_ok s d.place d.run hplanOk
  obtain ⟨t, ts, hts⟩ := List.exists_cons_of_ne_nil hrun
  rw [hts] at hshort
  obtain ⟨rest, -, hrule⟩ := split_rule d.place t ts short hshort
  obtain ⟨us, hus⟩ := hrule.begins.exists_cons
  have hown : long.own.map Token.kind = [.comma] := by
    rw [root, callLine, hplan] at hlone
    exact hlone
  rw [hus] at hlong
  obtain ⟨hwhole, hnil⟩ := breakLine_commaBare s d.place.depth t us long hlong (by rw [hown]; rfl)
  rw [hwhole, List.map_cons, List.cons.injEq, List.map_eq_nil_iff] at hown
  obtain ⟨hk, rfl⟩ := hown
  apply hls
  rw [hplan, hnil, loneBare_of_rule hrule hk hus]
  rfl

theorem loneBare_mapForest (g : Node → Node) (ts : List Tree)
    (hg : ∀ n, (g n).tokens.map Token.kind = [.comma] → n.tokens.map Token.kind = [.comma])
    (h : ∀ t ∈ forestSubtrees ts, LoneBare t) : ∀ t ∈ forestSubtrees (mapForest g ts), LoneBare t := by
  induction ts using forestInduction with
  | nil => rwa [mapForest_nil]
  | cons n ls rest ihl ihr =>
    rw [mapForest_cons, forall_mem_forestSubtrees_cons]
    rw [forall_mem_forestSubtrees_cons] at h
    refine ⟨?_, ihl h.2.1, ihr h.2.2⟩
    intro hlone
    obtain rfl : ls = [] := h.1 (hg n hlone)
    exact mapForest_nil g

/-! ## Commas at the head -/

def dropComma (ts : List Token) : List Token :=
  if (ts.getLast?.map Token.kind) = some .comma then ts.dropLast else ts

theorem commentsEnd_received {comma? : Option Token} (hcomma : ∀ c ∈ comma?, c.kind = .comma)
    (ts : List Token) : CommentsEnd (comma?.toList ++ ts) ↔ CommentsEnd ts := by
  cases comma? with
  | none => rfl
  | some c =>
    have hc : isLineComment c = false := isLineComment_of_kind (by rw [hcomma c rfl]; decide)
    show CommentsEnd (c :: ts) ↔ _
    rw [commentsEnd_cons, hc]
    simp

theorem dropComma_concat (front : List Token) (last : Token) (h : last.kind = .comma) :
    dropComma (front ++ [last]) = front := by
  simp [dropComma, h]

theorem dropComma_of_ne {ts : List Token} (h : ∀ last ∈ ts.getLast?, last.kind ≠ .comma) :
    dropComma ts = ts := by
  refine if_neg ?_
  intro hlast
  obtain ⟨last, hmem, hk⟩ := Option.map_eq_some_iff.1 hlast
  exact h last hmem hk

/-- The line gives the comma at its end to the next line, if there is one. -/
def headTokens (n : Node) (next? : Option Node) : List Token :=
  if next?.isSome then dropComma n.tokens else n.tokens

theorem commentsEnd_forestToHead (comma? : Option Token) (ts us : List Tree) (count : Nat)
    (hcomma : ∀ c ∈ comma?, c.kind = .comma) (hne : ∀ n ∈ forestNodes ts, n.tokens ≠ [])
    (hlone : ∀ t ∈ forestSubtrees ts, LoneBare t) (h : forestToHead comma? ts = ⟨us, none⟩) :
    (∀ n ∈ forestNodes us, CommentsEnd n.tokens) ↔
      EachLine (fun _ n next? => CommentsEnd (headTokens n next?)) count ts := by
  induction ts using forestInduction generalizing comma? us count with
  | nil =>
    rw [forestToHead] at h
    cases h
    simp [forestNodes, EachLine]
  | cons n ls rest ihl ihr =>
    rw [forall_mem_forestNodes_cons] at hne
    obtain ⟨hn, hls, hrest⟩ := hne
    rw [forall_mem_forestSubtrees_cons] at hlone
    obtain ⟨hbare, hloneBelow, hloneAfter⟩ := hlone
    obtain ⟨below, hbelow, -⟩ := forestToHead_paired none ls (by simp) hls
    have hnext : (rest.head?.map root).isSome = !rest.isEmpty := by cases rest <;> rfl
    rw [eachLine_cons, headTokens, hnext]
    rcases treeToHead_cases comma? rest.isEmpty n ls hn with
      ⟨c, rfl, hc, hk, htree⟩ | ⟨front, last, hmore, hfront, hk, -, htree⟩ | ⟨hkeeps, htree⟩
    · obtain ⟨after, hafter, -⟩ := forestToHead_paired none rest (by simp) hrest
      simp only [forestToHead, htree, hafter, Edit.map] at h
      cases h
      obtain rfl : ls = [] := hbare (by simp [root, hc, hk])
      have hwhole : CommentsEnd n.tokens := by simp [hc, CommentsEnd]
      have hgiven : CommentsEnd (if (!rest.isEmpty) = true then dropComma n.tokens else n.tokens) := by
        split
        · rw [hc, ← List.nil_append [c], dropComma_concat [] c hk]
          simp [CommentsEnd]
        · exact hwhole
      rw [forall_mem_forestNodes_cons, ihr none after count (by simp) hrest hloneAfter hafter]
      simp only [hwhole, hgiven, forestNodes, EachLine, List.not_mem_nil, false_implies, implies_true]
    · obtain ⟨after, hafter, -⟩ := forestToHead_paired (some last) rest (by simpa using hk) hrest
      simp only [forestToHead, htree, hbelow, hafter, Edit.map] at h
      cases h
      rw [forall_mem_forestNodes_cons, ihl none below ls.length (by simp) hls hloneBelow hbelow,
        ihr (some last) after count (by simpa using hk) hrest hloneAfter hafter, hmore, hfront,
        dropComma_concat front last hk]
      exact and_congr_left' (commentsEnd_received hcomma front)
    · obtain ⟨after, hafter, -⟩ := forestToHead_paired none rest (by simp) hrest
      simp only [forestToHead, htree, hbelow, hafter, Edit.map] at h
      cases h
      rw [forall_mem_forestNodes_cons, ihl none below ls.length (by simp) hls hloneBelow hbelow,
        ihr none after count (by simp) hrest hloneAfter hafter]
      have htokens : (if (!rest.isEmpty) = true then dropComma n.tokens else n.tokens) = n.tokens := by
        split
        · next hmore =>
          apply dropComma_of_ne
          intro last hlast hk
          simp [hkeeps last hlast hk] at hmore
        · rfl
      rw [htokens]
      exact and_congr_left' (commentsEnd_received hcomma n.tokens)

/-! ## Commas at the end -/

theorem forestComma?_eq (ts : List Tree) : forestComma? ts = (ts.head?.map root).bind headComma? := by
  cases ts <;> rfl

theorem forall_isLineComment_iff (ts : List Token) :
    (∀ t ∈ ts, isLineComment t = false) ↔
      CommentsEnd ts ∧ ts.getLast?.any isLineComment = false := by
  rcases List.eq_nil_or_concat ts with rfl | ⟨front, last, rfl⟩
  · simp [CommentsEnd]
  · simp only [CommentsEnd, List.concat_eq_append, List.dropLast_concat, List.getLast?_concat,
      Option.any_some, List.forall_mem_append, List.forall_mem_singleton]

/-- A comma that comes behind a comment would be commented out. -/
theorem commentsEnd_putComma (index : Nat) (comma : Token) (ts : List Token)
    (hcomma : comma.kind = .comma) :
    CommentsEnd (putComma index (some comma) ts) ↔
      CommentsEnd ts ∧ (ts.getLast?.any isLineComment = true → index < ts.length) := by
  have hc : isLineComment comma = false := isLineComment_of_kind (by rw [hcomma]; decide)
  rw [putComma, commentsEnd_append _ _ (List.cons_ne_nil _ _), commentsEnd_cons, hc]
  by_cases hin : index < ts.length
  · have hdrop : ts.drop index ≠ [] := by
      intro hnil
      have := List.drop_eq_nil_iff.1 hnil
      omega
    have hts : CommentsEnd ts ↔
        (∀ t ∈ ts.take index, isLineComment t = false) ∧ CommentsEnd (ts.drop index) := by
      rw [← commentsEnd_append _ _ hdrop, List.take_append_drop]
    rw [hts]
    simp [hin]
  · rw [List.take_of_length_le (by omega), List.drop_of_length_le (by omega),
      forall_isLineComment_iff ts]
    simp [hin, CommentsEnd]

theorem commentsEnd_forestToEnd (count : Nat) (ts us : List Tree)
    (hne : ∀ n ∈ forestNodes ts, n.tokens ≠ []) (hlone : ∀ t ∈ forestSubtrees ts, LoneBare t)
    (h : forestToEnd count ts = ⟨us, none⟩) :
    (∀ n ∈ forestNodes us, CommentsEnd n.tokens) ↔
      EachLine (fun count n next? => CommentsEnd (endLine count (next?.bind headComma?) n).tokens)
        count ts := by
  induction ts using forestInduction generalizing count us with
  | nil =>
    rw [forestToEnd] at h
    cases h
    simp [forestNodes, EachLine]
  | cons n ls rest ihl ihr =>
    rw [forall_mem_forestNodes_cons] at hne
    obtain ⟨hn, hls, hrest⟩ := hne
    rw [forall_mem_forestSubtrees_cons] at hlone
    obtain ⟨hbare, hloneBelow, hloneAfter⟩ := hlone
    obtain ⟨below, hbelow, -⟩ := forestToEnd_paired ls.length ls hls
    obtain ⟨after, hafter, -⟩ := forestToEnd_paired count rest hrest
    have hsame : (if isLoneComma n then ls else below) = below := by
      split
      · next hl =>
        obtain rfl : ls = [] := by
          apply hbare
          unfold isLoneComma at hl
          split at hl
          · next c hc =>
            simp only [Bool.and_eq_true, beq_iff_eq] at hl
            simp [root, hc, hl.2]
          · simp at hl
        rw [forestToEnd] at hbelow
        cases hbelow
        rfl
      · rfl
    rw [forestToEnd_cons count n ls rest below after hn hbelow hafter, hsame] at h
    cases h
    rw [forall_mem_forestNodes_cons, eachLine_cons, ihl ls.length below hls hloneBelow hbelow,
      ihr count after hrest hloneAfter hafter, forestComma?_eq]

/-! ## Lines in words -/

/-- The tokens in words: reserved words in the style, and joins in full. -/
def written (style : KeywordStyle) (ts : List Token) : List Token :=
  completeJoins style (ts.map (restyled style))

theorem writtenLine_eq (style : KeywordStyle) (n : Node) :
    writtenLine style n = withTokens n (written style n.tokens) := rfl

theorem commentsEnd_written (style : KeywordStyle) (ts : List Token) :
    CommentsEnd (written style ts) ↔ CommentsEnd ts := by
  rw [written, completeJoins, commentsEnd_completeFrom, commentsEnd_map_restyled]

theorem getLast?_written (style : KeywordStyle) (ts : List Token) :
    (written style ts).getLast? = ts.getLast?.map (restyled style) := by
  rw [written, completeJoins, getLast?_completeFrom, List.getLast?_map]

theorem completeFrom_concat (style : KeywordStyle) (prev? : Option Token) (ts : List Token) (c : Token)
    (hc : c.isKeyword "JOIN" = false) :
    completeFrom style prev? (ts ++ [c]) = completeFrom style prev? ts ++ [c] := by
  rw [completeFrom_append, completeFrom_of_no_join style _ [c] (by simpa using hc)]

theorem restyled_of_comma (style : KeywordStyle) {c : Token} (h : c.kind = .comma) :
    restyled style c = c := by
  simp [restyled, h, Kind.isReserved]

theorem dropComma_written (style : KeywordStyle) (ts : List Token) :
    dropComma (written style ts) = written style (dropComma ts) := by
  by_cases hlast : ts.getLast?.map Token.kind = some .comma
  · obtain ⟨c, hmem, hk⟩ := Option.map_eq_some_iff.1 hlast
    obtain ⟨front, rfl⟩ := List.getLast?_eq_some_iff.1 hmem
    rw [dropComma_concat front c hk, written, List.map_append, List.map_singleton,
      restyled_of_comma style hk, completeJoins, completeFrom_concat _ _ _ _ (by simp [Token.isKeyword, hk]),
      dropComma_concat _ c hk]
    rfl
  · rw [dropComma, if_neg ?_, dropComma, if_neg hlast]
    rw [getLast?_written, Option.map_map]
    have hkind : Token.kind ∘ restyled style = Token.kind := by
      funext t
      exact kind_restyled style t
    rwa [hkind]

theorem written_cons_comma (style : KeywordStyle) {c : Token} (h : c.kind = .comma) (ts : List Token) :
    written style (c :: ts) = c :: written style ts := by
  rw [written, List.map_cons, restyled_of_comma style h, completeJoins_cons style (isJoinWord_of_kind (by simp [h]))]
  rfl

theorem written_eq_nil (style : KeywordStyle) (ts : List Token) : written style ts = [] ↔ ts = [] := by
  rw [written, completeJoins, completeFrom_eq_nil, List.map_eq_nil_iff]

theorem written_eq_cons_comma (style : KeywordStyle) {c : Token} (hk : c.kind = .comma)
    {ts us : List Token} (h : written style ts = c :: us) :
    ∃ rest, ts = c :: rest ∧ us = written style rest := by
  cases ts with
  | nil => cases h
  | cons t ts =>
    have hkind : t.kind = .comma := by
      rw [written, List.map_cons, completeJoins, completeFrom] at h
      by_cases hj : (restyled style t).isKeyword "JOIN" = true
      · rw [if_pos hj] at h
        injection h with hword
        rw [← hword] at hk
        cases hk
      · rw [if_neg hj] at h
        injection h with hword
        rw [← kind_restyled style t, hword, hk]
    rw [written_cons_comma style hkind] at h
    injection h with hc hus
    exact ⟨ts, by rw [hc], hus.symm⟩

theorem kinds_of_written (style : KeywordStyle) (ts : List Token)
    (h : (written style ts).map Token.kind = [.comma]) : ts.map Token.kind = [.comma] := by
  obtain ⟨c, hc, hk⟩ := List.map_eq_singleton_iff.1 h
  obtain ⟨rest, rfl, hrest⟩ := written_eq_cons_comma style hk hc
  rw [(written_eq_nil style rest).1 hrest.symm]
  simp [hk]

theorem headComma?_of_forall {n : Node} (h : ∀ t ∈ n.tokens, t.kind ≠ .comma) : headComma? n = none := by
  rw [Option.eq_none_iff_forall_not_mem]
  intro comma hhead
  obtain ⟨-, hk, t, ts, htokens⟩ := headComma?_eq_some_iff.1 hhead
  exact h comma (by rw [htokens]; exact List.mem_cons_self) hk

theorem headComma?_written (style : KeywordStyle) (n : Node) :
    headComma? (writtenLine style n) = headComma? n := by
  ext c
  rw [headComma?_eq_some_iff, headComma?_eq_some_iff]
  refine and_congr_right fun _ => and_congr_right fun hk => ?_
  constructor
  · rintro ⟨t, ts, htokens⟩
    obtain ⟨rest, hrest, hwritten⟩ := written_eq_cons_comma style hk htokens
    have hne : rest ≠ [] := by
      rintro rfl
      cases hwritten
    obtain ⟨u, us, rfl⟩ := List.exists_cons_of_ne_nil hne
    exact ⟨u, us, hrest⟩
  · rintro ⟨t, ts, htokens⟩
    have hne : written style (t :: ts) ≠ [] := by simp [written_eq_nil]
    obtain ⟨u, us, hus⟩ := List.exists_cons_of_ne_nil hne
    refine ⟨u, us, ?_⟩
    rw [← hus, ← written_cons_comma style hk, ← htokens]
    rfl

theorem afterHeadComma_written (style : KeywordStyle) (n : Node) :
    afterHeadComma (writtenLine style n) = written style (afterHeadComma n) := by
  rw [afterHeadComma, headComma?_written]
  rcases afterHeadComma_cases n with ⟨hnone, hafter⟩ | ⟨c, t, ts, hsome, hk, htokens, hafter⟩
  · rw [hnone, hafter]
    rfl
  · rw [hsome, hafter, writtenLine_eq, htokens, written_cons_comma style hk]
    rfl

/-! ## The whole layout -/

/-- The line keeps its comments at its end when commas move. If commas go to the heads of lines, it gives
the comma at its end to the next line. If they go to the ends, it gives away the comma at its head; a
comma that comes from the next line must not come behind a comment. -/
def EndsSafely (s : Settings) (count : Nat) (n : Node) (next? : Option Node) : Prop :=
  match s.commaPosition with
  | .head => CommentsEnd (headTokens n next?)
  | .tail =>
    CommentsEnd (afterHeadComma n) ∧
      ((next?.bind headComma?).isSome = true →
        (afterHeadComma n).getLast?.any isLineComment = true →
          count < (written s.keywordStyle (afterHeadComma n)).length)

theorem headTokens_written (style : KeywordStyle) (n : Node) (next? : Option Node) :
    headTokens (writtenLine style n) (next?.map (writtenLine style)) =
      written style (headTokens n next?) := by
  rw [headTokens, headTokens, Option.isSome_map, writtenLine_eq]
  split
  · exact dropComma_written style n.tokens
  · rfl

theorem endsSafely_head (s : Settings) (hs : s.commaPosition = .head) (count : Nat) (n : Node)
    (next? : Option Node) :
    CommentsEnd (headTokens (writtenLine s.keywordStyle n) (next?.map (writtenLine s.keywordStyle))) ↔
      EndsSafely s count n next? := by
  rw [headTokens_written, commentsEnd_written, EndsSafely, hs]

theorem endsSafely_tail (s : Settings) (hs : s.commaPosition = .tail) (count : Nat) (n : Node)
    (next? : Option Node) :
    CommentsEnd (endLine count ((next?.map (writtenLine s.keywordStyle)).bind headComma?)
        (writtenLine s.keywordStyle n)).tokens ↔
      EndsSafely s count n next? := by
  have hcomma : (next?.map (writtenLine s.keywordStyle)).bind headComma? = next?.bind headComma? := by
    cases next? with
    | none => rfl
    | some next => exact headComma?_written s.keywordStyle next
  have hline : (endLine count ((next?.map (writtenLine s.keywordStyle)).bind headComma?)
      (writtenLine s.keywordStyle n)).tokens =
        putComma count (next?.bind headComma?) (written s.keywordStyle (afterHeadComma n)) := by
    rw [hcomma, ← afterHeadComma_written]
    rfl
  have hlast : (written s.keywordStyle (afterHeadComma n)).getLast?.any isLineComment =
      (afterHeadComma n).getLast?.any isLineComment := by
    rw [getLast?_written]
    cases (afterHeadComma n).getLast? with
    | none => rfl
    | some last => exact isLineComment_restyled s.keywordStyle last
  rw [hline, EndsSafely, hs]
  cases hnext : next?.bind headComma? with
  | none => simp [putComma, commentsEnd_written]
  | some comma =>
    have hk : comma.kind = .comma := by
      obtain ⟨next, -, hhead⟩ := Option.bind_eq_some_iff.1 hnext
      exact (headComma?_eq_some_iff.1 hhead).2.1
    rw [commentsEnd_putComma _ _ _ hk, commentsEnd_written, hlast]
    simp

/-- A layout keeps its comments at the ends of lines exactly if growth does, up to the commas that move. -/
theorem commentsEnd_iff_eachLine (s : Settings) (sql : String) (t : Tree)
    (hformat : format s (ofSql true sql) = .ok t) :
    (∀ n ∈ t.nodes, CommentsEnd n.tokens) ↔
      EachLine (EndsSafely s) (shape s (ofSql true sql).tokens).value.leaves.length
        (shape s (ofSql true sql).tokens).value.leaves := by
  obtain ⟨hne, hshape, moved, hmoved, hbare, -, rfl⟩ := format_ok s sql t hformat
  rw [tokens_ofSql]
  let forest := (shape s (code (Scan.scan sql).flatten)).value.leaves
  have hlines : (∀ n ∈ nodes (.node (top true) (mapForest spacedLine
        (mapForest (indentedLine s.indentSteps) moved) ++ [blankLine])), CommentsEnd n.tokens) ↔
      ∀ n ∈ forestNodes moved, CommentsEnd n.tokens := by
    have hblank : ∀ n ∈ forestNodes [blankLine], CommentsEnd n.tokens := by
      simp [forestNodes, nodes, blankLine, CommentsEnd]
    rw [nodes, List.forall_mem_cons, forestNodes_append, List.forall_mem_append, forestNodes_mapForest,
      forestNodes_mapForest, List.forall_mem_map, List.forall_mem_map]
    refine ⟨fun h n hn => ?_, fun h => ⟨by simp [top, CommentsEnd], fun n hn => ?_, hblank⟩⟩
    · rw [← commentsEnd_indentedLine s.indentSteps n (hbare n hn), ← commentsEnd_spaceOut]
      exact h.2.1 n hn
    · show CommentsEnd (spaceOut (indentedLine s.indentSteps n).tokens)
      rw [commentsEnd_spaceOut, commentsEnd_indentedLine s.indentSteps n (hbare n hn)]
      exact h n hn
  have hgrown : ∀ n ∈ forestNodes forest, n.tokens ≠ [] := fun n hn =>
    (forall_mem_tokens_grow s ⟨⟨1, some ⟨0, none⟩⟩, _⟩ 1 (fun _ => True) hshape hne (fun _ _ => trivial)
      (fun _ _ _ => trivial) n hn).1
  have hfilled : ∀ n ∈ forestNodes (mapForest (writtenLine s.keywordStyle) forest), n.tokens ≠ [] := by
    rw [forestNodes_mapForest, List.forall_mem_map]
    intro n hn hnil
    exact hgrown n hn ((written_eq_nil s.keywordStyle n.tokens).1 hnil)
  have hlone : ∀ t ∈ forestSubtrees (mapForest (writtenLine s.keywordStyle) forest), LoneBare t :=
    loneBare_mapForest _ forest (fun n => kinds_of_written s.keywordStyle n.tokens)
      (loneBare_grow s ⟨⟨1, some ⟨0, none⟩⟩, _⟩ 1 hshape hne)
  rw [hlines]
  cases hs : s.commaPosition with
  | head =>
    rw [hs, commaPass, commasToHead] at hmoved
    obtain ⟨us, hus, -⟩ := forestToHead_paired none _ (by simp) hfilled
    rw [hus] at hmoved
    cases hmoved
    rw [commentsEnd_forestToHead none _ us forest.length (by simp) hfilled hlone hus,
      eachLine_mapForest]
    exact eachLine_congr (endsSafely_head s hs) forest.length forest
  | tail =>
    rw [hs, commaPass, commasToEnd] at hmoved
    obtain ⟨us, hus, -⟩ := forestToEnd_paired
      (mapForest (writtenLine s.keywordStyle) forest).length _ hfilled
    rw [hus] at hmoved
    cases hmoved
    rw [commentsEnd_forestToEnd _ _ us hfilled hlone hus, eachLine_mapForest, length_mapForest]
    exact eachLine_congr (endsSafely_tail s hs) forest.length forest

theorem endsSafely_of_commentsEnd (s : Settings) (count : Nat) (n : Node) (next? : Option Node)
    (hn : CommentsEnd n.tokens) (hcommas : s.commaPosition = .head ∨ ∀ m ∈ next?, headComma? m = none)
    (hafter : s.commaPosition = .head ∨ afterHeadComma n = n.tokens) : EndsSafely s count n next? := by
  unfold EndsSafely
  split
  · unfold headTokens dropComma
    split
    · split
      · exact hn.piece (List.dropLast_prefix n.tokens).isInfix
      · exact hn
    · exact hn
  · next htail =>
    simp only [htail, reduceCtorEq, false_or] at hcommas hafter
    rw [hafter]
    refine ⟨hn, fun hsome => ?_⟩
    cases next? with
    | none => cases hsome
    | some m => simp [hcommas m rfl] at hsome

theorem eachLine_of_forall {p : Nat → Node → Option Node → Prop} {q : Node → Prop}
    (h : ∀ count n next?, q n → (∀ m ∈ next?, q m) → p count n next?) (count : Nat) (ts : List Tree)
    (hq : ∀ n ∈ forestNodes ts, q n) : EachLine p count ts := by
  induction ts using forestInduction generalizing count with
  | nil => trivial
  | cons n ls rest ihl ihr =>
    obtain ⟨hn, hl, hr⟩ := (forall_mem_forestNodes_cons q n ls rest).1 hq
    rw [eachLine_cons]
    refine ⟨h count n _ hn ?_, ihl _ hl, ihr _ hr⟩
    cases rest with
    | nil => simp
    | cons t rest =>
      obtain ⟨m, ms⟩ := t
      have hm := ((forall_mem_forestNodes_cons q m ms rest).1 hr).1
      simpa [root] using hm

/-- A tidy statement keeps its comments at the ends of lines, if commas go to the heads of lines or there are none. -/
theorem commentsEnd_of_tidy (s : Settings) (sql : String) (t : Tree) (hformat : format s (ofSql true sql) = .ok t)
    (htidy : Tidy .top (ofSql true sql).tokens)
    (hcommas : s.commaPosition = .head ∨ ∀ u ∈ (ofSql true sql).tokens, u.kind ≠ .comma) :
    ∀ n ∈ t.nodes, CommentsEnd n.tokens := by
  rw [commentsEnd_iff_eachLine s sql t hformat]
  obtain ⟨hne, hshape, -⟩ := format_ok s sql t hformat
  rw [← tokens_ofSql] at hne hshape
  let c : Call := ⟨⟨1, some ⟨0, none⟩⟩, (ofSql true sql).tokens⟩
  have hends := commentsEnd_grow s c 1 hshape ⟨htidy, Int.le_refl 1, fun _ => Int.le_refl 1⟩
  have hplain : s.commaPosition = .head ∨ ∀ n ∈ forestNodes (grow s c.place 1 c.run).value,
      ∀ u ∈ n.tokens, u.kind ≠ .comma := by
    refine hcommas.imp_right fun hnone n hn => ?_
    exact (forall_mem_tokens_grow s c 1 (fun u => u.kind ≠ .comma) hshape hne hnone (fun _ _ _ => by simp) n hn).2
  apply eachLine_of_forall (q := fun n => CommentsEnd n.tokens ∧
    (s.commaPosition = .head ∨ ∀ u ∈ n.tokens, u.kind ≠ .comma))
  · rintro count n next? ⟨hn, hnone⟩ hnext
    apply endsSafely_of_commentsEnd s count n next? hn
    · by_cases hhead : s.commaPosition = .head
      · exact .inl hhead
      · exact .inr fun m hm => headComma?_of_forall ((hnext m hm).2.resolve_left hhead)
    · refine hnone.imp_right fun hnone => ?_
      rw [afterHeadComma, headComma?_of_forall hnone]
      rfl
  · exact fun n hn => ⟨hends n hn, hplain.imp_right fun h => h n hn⟩

/-- A layout keeps every line comment at the end of its line exactly if each line of growth ends safely. So it does if the
statement is tidy and commas go to the heads of lines, or there are none. -/
theorem commentsEnd_format_iff (s : Settings) (sql : String) (t : Tree)
    (hformat : format s (ofSql true sql) = .ok t) :
    ((∀ n ∈ t.nodes, CommentsEnd n.tokens) ↔
      EachLine (EndsSafely s) (shape s (ofSql true sql).tokens).value.leaves.length
        (shape s (ofSql true sql).tokens).value.leaves) ∧
      (Tidy .top (ofSql true sql).tokens →
        (s.commaPosition = .head ∨ ∀ u ∈ (ofSql true sql).tokens, u.kind ≠ .comma) →
        ∀ n ∈ t.nodes, CommentsEnd n.tokens) :=
  ⟨commentsEnd_iff_eachLine s sql t hformat, commentsEnd_of_tidy s sql t hformat⟩

/-- A list of two items, a table and two terms, with comments behind them. -/
def queryOfItems : String :=
  "select a -- first\n, b -- second\nfrom t -- all\nwhere a = 1 -- ones\nand b = 2"

def itemsOfQuery : List Token :=
  [⟨.identifier, "a", none⟩, ⟨.comment, "-- first", none⟩, ⟨.comma, ",", none⟩, ⟨.identifier, "b", none⟩,
    ⟨.comment, "-- second", none⟩]

def tablesOfQuery : List Token :=
  [⟨.identifier, "t", none⟩, ⟨.comment, "-- all", none⟩]

def termsOfQuery : List Token :=
  [⟨.identifier, "a", none⟩, ⟨.operator, "=", none⟩, ⟨.identifier, "1", none⟩, ⟨.comment, "-- ones", none⟩,
    ⟨.keyword, "and", none⟩, ⟨.identifier, "b", none⟩, ⟨.operator, "=", none⟩, ⟨.identifier, "2", none⟩]

theorem tidy_queryOfItems : Tidy .top (ofSql true queryOfItems).tokens := by
  have htokens : (ofSql true queryOfItems).tokens =
      ⟨.keyword, "select", none⟩ :: (itemsOfQuery ++ ⟨.keyword, "from", none⟩ :: (tablesOfQuery ++
        ⟨.keyword, "where", none⟩ :: termsOfQuery)) := by
    decide +kernel
  have hitems : cutClause "SELECT" (stopsOf "SELECT" []) (itemsOfQuery ++ ⟨.keyword, "from", none⟩ :: (tablesOfQuery ++
        ⟨.keyword, "where", none⟩ :: termsOfQuery)) =
      some (itemsOfQuery, ⟨.keyword, "from", none⟩ :: (tablesOfQuery ++ ⟨.keyword, "where", none⟩ :: termsOfQuery)) := by
    decide +kernel
  have htables : clauseCut "FROM" [] (tablesOfQuery ++ ⟨.keyword, "where", none⟩ :: termsOfQuery) =
      (tablesOfQuery, ⟨.keyword, "where", none⟩ :: termsOfQuery) := by
    decide +kernel
  have hterms : clauseCut "WHERE" ["FROM"] termsOfQuery = (termsOfQuery, []) := by
    decide +kernel
  have hends : (∀ item ∈ items itemsOfQuery, CommentsEnd item) ∧ CommentsEnd tablesOfQuery ∧
      ∀ term ∈ terms termsOfQuery, CommentsEnd term := by
    decide +kernel
  rw [htokens]
  apply Tidy.select (by decide +kernel) hitems fun item hitem => .ends (hends.1 item hitem)
  apply Tidy.tables (by decide +kernel) rfl <;> rw [htables]
  · exact .ends hends.2.1
  · apply Tidy.condition (.inl rfl) (by decide +kernel) <;> rw [hterms]
    · exact fun term hterm => .ends (hends.2.2 term hterm)
    · exact .ends (List.forall_mem_nil _)

theorem commentsEnd_format_of_items :
    ∃ t, format ⟨128, .head, .lower, 4⟩ (ofSql true queryOfItems) = .ok t ∧
      t.text = "select\n    a  -- first\n    , b  -- second\nfrom\n    t  -- all\nwhere\n    a = 1\n    -- ones\n    and b = 2\n" ∧
      (∀ n ∈ t.nodes, CommentsEnd n.tokens) ∧
      EachLine (EndsSafely ⟨128, .head, .lower, 4⟩)
        (shape ⟨128, .head, .lower, 4⟩ (ofSql true queryOfItems).tokens).value.leaves.length
        (shape ⟨128, .head, .lower, 4⟩ (ofSql true queryOfItems).tokens).value.leaves := by
  obtain ⟨t, hformat, htext⟩ : ∃ t, format ⟨128, .head, .lower, 4⟩ (ofSql true queryOfItems) = .ok t ∧
      t.text = "select\n    a  -- first\n    , b  -- second\nfrom\n    t  -- all\nwhere\n    a = 1\n    -- ones\n    and b = 2\n" := by
    decide +kernel
  obtain ⟨hiff, htidy⟩ := commentsEnd_format_iff _ queryOfItems t hformat
  have hends := htidy tidy_queryOfItems (.inl rfl)
  exact ⟨t, hformat, htext, hends, hiff.1 hends⟩

/-- A list of two items, with a comment behind the comma. -/
def queryOfComment : String :=
  "select a, -- first\n b from t"

/-- The second item is commented out: it stands on one line with the comment. -/
theorem commentsEnd_format_of_comment :
    ∃ t, format ⟨128, .head, .lower, 4⟩ (ofSql true queryOfComment) = .ok t ∧
      ¬ ∀ n ∈ t.nodes, CommentsEnd n.tokens := by
  decide +kernel

end SqlStyle.Layout
