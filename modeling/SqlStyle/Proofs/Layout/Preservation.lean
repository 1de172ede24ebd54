import SqlStyle.Proofs.Layout.Lines
import SqlStyle.Statement

/-! Layout keeps the tokens of a statement, if the words at which a split may lose, repeat or move a token
do not occur in it and commas go to the heads of lines. Without these words every call
of growth parts its run in order, and nothing lies below a line that ends in a comma. -/
namespace SqlStyle.Layout
set_option autoImplicit false
open Clause SqlStyle.Tree
open Token (code code_code)

/-- The words that begin, or need, a clause whose split may lose, repeat or move a token. -/
def riskyWords : List String :=
  ["WHERE", "HAVING", "WHEN", "GROUP", "ORDER"] ++ joinWords

def Safe (ts : List Token) : Prop :=
  ∀ t ∈ ts, t.key ∉ riskyWords

/-! ## One call -/

theorem key_of_readAs {ts us : List Token} (h : List.Forall₂ Token.ReadAs ts us) :
    us.map Token.key = ts.map Token.key := by
  induction h with
  | nil => rfl
  | cons htu _ ih =>
    rw [List.map_cons, List.map_cons, ih]
    rcases htu with rfl | ⟨-, rfl⟩ <;> rfl

theorem Safe.readAs {ts us : List Token} (hts : Safe ts) (h : List.Forall₂ Token.ReadAs ts us) :
    Safe us := by
  intro u hu
  have hkey := List.mem_map_of_mem (f := Token.key) hu
  rw [key_of_readAs h] at hkey
  obtain ⟨t, ht, he⟩ := List.mem_map.1 hkey
  rw [← he]
  exact hts t ht

theorem Safe.isKeyword {ts : List Token} (hts : Safe ts) (w : String) (hw : w ∈ riskyWords) :
    ∀ t ∈ ts, t.isKeyword w = false := by
  intro t ht
  exact Token.isKeyword_of_key_ne fun he => hts t ht (he ▸ hw)

theorem Safe.partible {t : Token} {ts : List Token} (h : Safe (t :: ts)) : Partible t ts := by
  intro _
  have ht := h t List.mem_cons_self
  have hclauses : ∀ w ∈ "WHERE" :: "HAVING" :: joinWords, w ∈ riskyWords := by decide
  have hkeys : ∀ w ∈ ["ORDER", "GROUP"], w ∈ riskyWords := by decide
  exact ⟨fun hmem => ht (hclauses _ hmem), fun own hown he => absurd (he ▸ hkeys own hown) ht⟩

theorem safe_nameAfterWith (ts : List Token) (h : Safe ts) : Safe (nameAfterWith ts) :=
  h.readAs (nameAfterWith_readAs ts)

theorem Safe.head_ne_when {t : Token} {ts : List Token} (h : Safe (t :: ts)) : t.key ≠ "WHEN" :=
  fun he => h t List.mem_cons_self (he ▸ by decide)

theorem breakLine_tokens (s : Settings) (depth : Int) (t : Token) (ts : List Token) (long : Split)
    (ht : t.key ≠ "WHEN") (h : breakLine s depth (t :: ts) = .ok long) : long.tokens = t :: ts := by
  obtain rfl | hbroken := breakLine_cases s depth (t :: ts) long h
  · exact Split.tokens_whole (t :: ts)
  · exact splitLong_tokens t ts long ht hbroken

theorem parts_of_safe (s : Settings) (c : Call) (h : Safe c.run) : c.Parts s := by
  intro short hshort
  match hrun : c.run with
  | [] =>
    rw [hrun] at hshort
    cases hshort
    refine ⟨rfl, fun long hlong => ?_⟩
    obtain rfl | hbroken := breakLine_cases s c.place.depth [] long hlong
    · exact Split.tokens_whole []
    · cases hbroken
  | t :: ts =>
    rw [hrun] at hshort h
    obtain ⟨rest, hname, hrule⟩ := split_rule c.place t ts short hshort
    have hsafe : Safe (t :: rest) := hname ▸ safe_nameAfterWith (t :: ts) h
    refine ⟨by rw [hname, hrule.tokens hsafe.partible], fun long hlong => ?_⟩
    obtain ⟨us, hown⟩ := hrule.begins.exists_cons
    rw [hown] at hlong ⊢
    exact breakLine_tokens s c.place.depth t us long h.head_ne_when hlong

theorem inOrder_of_safe (s : Settings) (c : Call) (h : Safe c.run) : c.InOrder s := by
  intro short hshort long hlong
  by_contra hcross
  obtain ⟨hsibling, hchildren⟩ := not_or.1 hcross
  have htokens := (parts_of_safe s c h short hshort).1
  obtain ⟨⟨t, ht, u, us, hu, hguard⟩, -⟩ :=
    heads_of_crossing s c short long hshort hlong htokens hsibling hchildren
  rcases hguard with hwhen | ⟨hjoin, -⟩
  · have hmem : u ∈ nameAfterWith c.run := by
      rw [← htokens, Split.tokens, hu]
      simp
    rw [(safe_nameAfterWith c.run h).isKeyword "WHEN" (by decide) u hmem] at hwhen
    cases hwhen
  · exact h t ht (List.mem_append_right _ hjoin)

/-! ## All calls -/

theorem safe_callees (s : Settings) (c d : Call) (hok : (plan s c.place c.run).fault? = none)
    (h : Safe c.run) (hd : d ∈ callees s c) : Safe d.run := by
  have hplan := plan_inOrder s c hok (parts_of_safe s c h) (inOrder_of_safe s c h)
  intro t ht
  apply safe_nameAfterWith c.run h
  rw [← hplan]
  exact List.mem_append_right _ (List.mem_flatMap.2 ⟨d, hd, ht⟩)

theorem safe_calls (s : Settings) (c : Call) (hok : (grow s c.place 0 c.run).fault? = none)
    (h : Safe c.run) : ∀ d ∈ calls s c, Safe d.run := by
  have hcalls := forall_calls s c 0 (fun d => Safe d.run) hok h fun c d hplan hc hd =>
    safe_callees s c d hplan hc hd
  exact fun d hd => (hcalls d hd).2

theorem readAs_grown_of_safe (s : Settings) (c : Call)
    (hok : (grow s c.place 0 c.run).fault? = none) (h : Safe c.run) :
    List.Forall₂ Token.ReadAs c.run (grown s c) :=
  readAs_grown s c hok (fun d hd => parts_of_safe s d (safe_calls s c hok h d hd))
    fun d hd => inOrder_of_safe s d (safe_calls s c hok h d hd)

/-! ## Lines that end in a comma -/

/-- A line that is broken ends in `THEN` or in a left bracket, not in a comma. -/
theorem breakLine_commaBare (s : Settings) (depth : Int) (t : Token) (ts : List Token) (long : Split)
    (h : breakLine s depth (t :: ts) = .ok long)
    (hlast : (long.own.map Token.kind).getLast? = some .comma) :
    long.own = t :: ts ∧ long.children = [] := by
  obtain rfl | hbroken := breakLine_cases s depth (t :: ts) long h
  · exact ⟨rfl, rfl⟩
  · obtain ⟨-, before, mark, rest, -, hmark, rfl⟩ | ⟨-, rfl⟩ := splitLong_cases t ts long hbroken
    · rw [List.getLast?_map, List.getLast?_concat, Option.map_some, Option.some.injEq] at hlast
      simp [Token.isKeyword, hlast] at hmark
    · obtain hw | ⟨before, left, inside, right, after, -, hleft, -, hs⟩ :=
        splitLongBrackets_cases (t :: ts)
      · rw [hw]
        exact ⟨rfl, rfl⟩
      · rw [hs, List.getLast?_map, List.getLast?_concat, Option.map_some, hleft] at hlast
        cases hlast

theorem children_eq_nil_of_comma (s : Settings) (c : Call) (hok : (plan s c.place c.run).fault? = none)
    (hne : c.run ≠ []) (h : Safe c.run)
    (hlast : ((plan s c.place c.run).value.own.map Token.kind).getLast? = some .comma) :
    (plan s c.place c.run).value.children = [] := by
  obtain ⟨short, long, hshort, hlong, hplan⟩ := plan_ok s c.place c.run hok
  obtain ⟨t, ts, hrun⟩ := List.exists_cons_of_ne_nil hne
  rw [hplan] at hlast ⊢
  rw [hrun] at hshort h
  obtain ⟨rest, hname, hrule⟩ := split_rule c.place t ts short hshort
  have hsafe : Safe (t :: rest) := hname ▸ safe_nameAfterWith (t :: ts) h
  have ht := hsafe t List.mem_cons_self
  have hkeys : ∀ w ∈ "ORDER" :: "GROUP" :: joinWords, w ∈ riskyWords := by decide
  have hbare := hrule.commaBare (fun hmem => ht (hkeys _ hmem)) (hsafe.isKeyword "WHEN" (by decide))
  obtain ⟨us, hown⟩ := hrule.begins.exists_cons
  rw [hown] at hlong
  obtain ⟨hwhole, hnil⟩ :=
    breakLine_commaBare s c.place.depth t us long hlong hlast
  rw [hwhole, ← hown] at hlast
  rw [hnil, hbare hlast]
  rfl

/-- Without risky words nothing grows below a line that ends in a comma. -/
theorem commaReady_grow (s : Settings) (c : Call) (number : Nat)
    (hok : (grow s c.place number c.run).fault? = none) (hne : c.run ≠ []) (h : Safe c.run) :
    ∀ t ∈ forestSubtrees (grow s c.place number c.run).value, CommaReady t := by
  have hcalls := forall_calls s c number (fun d => d.run ≠ [] ∧ Safe d.run) hok ⟨hne, h⟩
    fun c d hplan hc hd =>
      ⟨run_ne_nil_of_mem_callees s c d hplan hd, safe_callees s c d hplan hc.2 hd⟩
  apply forall_mem_forestSubtrees_grow s c number CommaReady hok
  intro d hd k ls hls
  obtain ⟨hplan, hrun, hsafe⟩ := hcalls d hd
  refine ⟨?_, fun hlast => hls (children_eq_nil_of_comma s d hplan hrun hsafe hlast)⟩
  simpa [root, callLine] using own_ne_nil s d hplan hrun

/-! ## No token at all -/

theorem shape_nil (s : Settings) :
    shape s [] = ⟨.node (top true) [.node ⟨⟨1, []⟩, 1, true, none⟩ []], none⟩ := by
  have hplan : plan s ⟨1, some ⟨0, none⟩⟩ [] = ⟨{ own := [] }, none⟩ := by
    simp [plan, split, planFrom, Split.whole, width, spacedLength, spaceOut, Token.width, filled]
  simp only [shape, grow_eq, growStep, hplan, collect, Edit.map, sprout]
  rfl

theorem arrange_nil (s : Settings) : (arrange s []).fault? = some .noToken := by
  rw [arrange, shape_nil]
  cases hc : s.commaPosition with
  | head =>
    simp [finish, passes, Pass.run, Edit.andThen, Edit.map, Edit.each, hc, keywordPass, joinPass,
      completeJoins, completeFrom, editBeneath, editForest, editTree, withTokens, commaPass,
      commasToHead, forestToHead, treeToHead]
  | tail =>
    simp [finish, passes, Pass.run, Edit.andThen, Edit.map, Edit.each, hc, keywordPass, joinPass,
      completeJoins, completeFrom, editBeneath, editForest, editTree, withTokens, commaPass,
      commasToEnd, forestToEnd, treeToEnd, headComma?, isLoneComma, forestComma?, takeComma,
      indentPass, indentLine]

/-! ## The whole layout -/

/-- What layout makes of a token: it is written in the style, or a reserved word is read as a name. -/
def Kept (style : KeywordStyle) (t u : Token) : Prop :=
  u = restyled style t ∨ (t.kind.isReserved = true ∧ u = { t with kind := .identifier })

theorem kept_of_readAs (style : KeywordStyle) {t u : Token} (h : t.ReadAs u) :
    Kept style t (restyled style u) := by
  rcases h with rfl | ⟨hk, rfl⟩
  · exact .inl rfl
  · exact .inr ⟨hk, rfl⟩

theorem Kept.whitespace_iff {style : KeywordStyle} {t u : Token} (h : Kept style t u) :
    (t.kind != .whitespace) = true ↔ (u.kind != .whitespace) = true := by
  rcases h with rfl | ⟨hk, rfl⟩
  · rw [kind_restyled]
  · have ht : t.kind ≠ .whitespace := by
      intro hw
      rw [hw] at hk
      exact absurd hk (by decide)
    simp [ht]

/-- The layout of a run without risky words holds the tokens of the run in order. -/
theorem arrange_kept (s : Settings) (ts : List Token) (hcomma : s.commaPosition = .head)
    (hsafe : Safe ts) (hok : (arrange s ts).fault? = none) :
    List.Forall₂ (Kept s.keywordStyle) (code ts) (code (arrange s ts).value.tokens) := by
  have hne : ts ≠ [] := by
    rintro rfl
    rw [arrange_nil] at hok
    cases hok
  obtain ⟨hshape, hfinish, hvalue⟩ := andThen_ok _ _ hok
  obtain ⟨hgrow, htokens⟩ := tokens_shape s ts hshape
  have hread : List.Forall₂ Token.ReadAs ts (shape s ts).value.tokens :=
    htokens ▸ readAs_grown_of_safe s ⟨⟨1, some ⟨0, none⟩⟩, ts⟩ hgrow hsafe
  have hready := commaReady_grow s ⟨⟨1, some ⟨0, none⟩⟩, ts⟩ 1 hshape hne hsafe
  let forest := (grow s ⟨1, some ⟨0, none⟩⟩ 1 ts).value
  have hforest : (shape s ts).value = .node (top true) forest := rfl
  rw [hforest] at hread hfinish hvalue
  rw [tokens_node] at hread
  have hjoin : ∀ t ∈ forestTokens forest, t.key ≠ "JOIN" := by
    intro t ht hkey
    exact hsafe.readAs hread t ht (hkey ▸ by decide)
  obtain ⟨us, hus, hcode⟩ := finish_ok s (top true) forest hcomma hready hjoin hfinish
  have hkept : List.Forall₂ (Kept s.keywordStyle) ts
      ((forestTokens forest).map (restyled s.keywordStyle)) := by
    rw [List.forall₂_map_right_iff]
    exact hread.imp fun _ _ h => kept_of_readAs s.keywordStyle h
  have hresult : code (arrange s ts).value.tokens =
      code ((forestTokens forest).map (restyled s.keywordStyle)) := by
    rw [arrange, hvalue, hus, tokens_node, ← hcode]
    rfl
  rw [hresult]
  exact List.rel_filter (fun _ _ h => h.whitespace_iff) hkept

theorem eq_of_toExcept {α : Type} (e : Edit α) (a : α) (h : e.toExcept = .ok a) : e = ⟨a, none⟩ := by
  unfold Edit.toExcept at h
  cases hf : e.fault? with
  | some fault => simp [hf] at h
  | none =>
    rw [hf] at h
    rw [← Except.ok.inj h, ← hf]

/-- If a statement holds no risky word and commas go to the heads of lines, its layout holds the tokens of
the statement, in the same order and number: none is lost, repeated or moved. Reserved words are written in
the style, and the name behind `WITH` is read as a name. -/
theorem tokens_format (s : Settings) (sql : String) (t : Tree) (hcomma : s.commaPosition = .head)
    (hsafe : Safe (Scan.scan sql).flatten) (hformat : format s (ofSql true sql) = .ok t) :
    List.Forall₂ (Kept s.keywordStyle) (code (Scan.scan sql).flatten) (code t.tokens) := by
  have harrange : arrange s (code (Scan.scan sql).flatten) = ⟨t, none⟩ := by
    rw [← tokens_ofSql]
    exact eq_of_toExcept _ _ hformat
  have hcode : Safe (code (Scan.scan sql).flatten) :=
    fun u hu => hsafe u (List.mem_of_mem_filter hu)
  have hkept := arrange_kept s (code (Scan.scan sql).flatten) hcomma hcode (by rw [harrange])
  rwa [harrange, code_code] at hkept

/-- A query with a name that is a reserved word and a call that is too long for its line. -/
def queryOfTable : String :=
  "with in as (select f(aaaaaaaaaaaaaaaaaaaa, b)) select c"

theorem tokens_format_of_table :
    Safe (Scan.scan queryOfTable).flatten ∧
      ∃ t, format ⟨32, .head, .upperAll, 4⟩ (ofSql true queryOfTable) = .ok t ∧
        List.Forall₂ (Kept .upperAll) (code (Scan.scan queryOfTable).flatten) (code t.tokens) := by
  have hsafe : Safe (Scan.scan queryOfTable).flatten := by
    unfold Safe
    decide +kernel
  have hok : (format ⟨32, .head, .upperAll, 4⟩ (ofSql true queryOfTable)).isOk = true := by
    decide +kernel
  refine ⟨hsafe, ?_⟩
  cases hformat : format ⟨32, .head, .upperAll, 4⟩ (ofSql true queryOfTable) with
  | error fault =>
    rw [hformat] at hok
    cases hok
  | ok t => exact ⟨t, rfl, tokens_format _ queryOfTable t rfl hsafe hformat⟩

end SqlStyle.Layout
