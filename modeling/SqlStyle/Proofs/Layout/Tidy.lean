import SqlStyle.Proofs.Clause.Terms
import SqlStyle.Proofs.Layout.Lines
import SqlStyle.Proofs.Token.Lexical

/-! Comments that stand where lines end. Some rules end a line at a line comment wherever it stands, some cut their run
before the next item, table or clause and keep on the line what stands before it, comments included. A run is tidy if
each comment that a rule of the second kind meets stands directly before the cut (`Tidy`). A tidy run is split into a
line that ends in its comment, if it has one, and tidy runs (`Tidy.parts`), so growth makes such lines only
(`commentsEnd_grow`). -/
namespace SqlStyle.Layout
set_option autoImplicit false
open Clause SqlStyle.Tree
open Scan (isLineComment)

/-! ## Comments at the end of a line -/

/-- No token stands behind a line comment. -/
def CommentsEnd (ts : List Token) : Prop :=
  ∀ t ∈ ts.dropLast, isLineComment t = false

instance (ts : List Token) : Decidable (CommentsEnd ts) :=
  inferInstanceAs (Decidable (∀ t ∈ ts.dropLast, isLineComment t = false))

theorem isLineComment_of_kind {t : Token} (h : t.kind ≠ .comment) : isLineComment t = false := by
  simp [isLineComment, h]

theorem commentsEnd_append (ts us : List Token) (hus : us ≠ []) :
    CommentsEnd (ts ++ us) ↔ (∀ t ∈ ts, isLineComment t = false) ∧ CommentsEnd us := by
  rw [CommentsEnd, List.dropLast_append_of_ne_nil hus, List.forall_mem_append, CommentsEnd]

theorem commentsEnd_cons (t : Token) (ts : List Token) :
    CommentsEnd (t :: ts) ↔ (ts ≠ [] → isLineComment t = false) ∧ CommentsEnd ts := by
  cases ts with
  | nil => simp [CommentsEnd]
  | cons u us => simp [CommentsEnd]

theorem CommentsEnd.piece {ts us : List Token} (h : CommentsEnd ts) (hus : us <:+: ts) : CommentsEnd us := by
  obtain ⟨front, back, rfl⟩ := hus
  rcases List.eq_nil_or_concat us with rfl | ⟨init, last, rfl⟩
  · exact List.forall_mem_nil _
  · rw [List.concat_eq_append, ← List.append_assoc, List.append_assoc, List.singleton_append,
      commentsEnd_append _ _ (List.cons_ne_nil last back), List.forall_mem_append] at h
    rw [List.concat_eq_append, CommentsEnd, List.dropLast_concat]
    exact h.1.2

theorem commentsEnd_nameAfterWith {ts : List Token} (h : CommentsEnd ts) : CommentsEnd (nameAfterWith ts) := by
  unfold nameAfterWith
  split
  · next head name next rest =>
    split
    · have hname : isLineComment { name with kind := .identifier } = false := isLineComment_of_kind (by simp)
      simp only [commentsEnd_cons] at h ⊢
      exact ⟨fun _ => h.1 (List.cons_ne_nil _ _), fun _ => hname, h.2.2⟩
    · exact h
  · exact h

theorem isLineComment_of_keyword {t : Token} {w : String} (h : t.isKeyword w = true) : isLineComment t = false := by
  obtain ⟨-, hk⟩ : t.key = w ∧ t.kind = .keyword := by simpa [Token.isKeyword] using h
  exact isLineComment_of_kind (by simp [hk])

theorem commentsEnd_singleton (t : Token) : CommentsEnd [t] :=
  List.forall_mem_nil _

theorem commentsEnd_cons_of_not {t : Token} {ts : List Token} (ht : isLineComment t = false) (h : CommentsEnd ts) :
    CommentsEnd (t :: ts) :=
  (commentsEnd_cons t ts).2 ⟨fun _ => ht, h⟩

/-! ## Tidy runs -/

/-- Where a run grows: at the top, below `FROM`, or below another line. -/
inductive Site where
  | top
  | tables
  | list
deriving DecidableEq

def siteOf (place : Place) : Site :=
  match place.parent? with
  | none => .top
  | some parent =>
    if parent.depth = 0 then .top
    else if parent.head?.any fun t => t.isKeyword "FROM" then .tables else .list

def siteBelow (own : List Token) : Site :=
  if own.head?.any fun t => t.isKeyword "FROM" then .tables else .list

/-- The tokens of a clause behind its keyword, and the clauses after it. -/
def clauseCut (own : String) (others : List String) (ts : List Token) : Cut :=
  (cutClause own (stopsOf own others) ts).getD (ts, [])

/-- The line comments of a run stand where its lines end. Conditions, and the lines that begin a clause, may be followed
by a comment anywhere outside brackets and cases; an item, a table and a join hold a comment at their end only. -/
inductive Tidy : Site → List Token → Prop where
  | ends {site : Site} {ts : List Token} (h : CommentsEnd ts) : Tidy site ts
  | select {site : Site} {t : Token} {ts before rest : List Token} (ht : t.isKeyword "SELECT" = true)
      (hcut : cutClause "SELECT" (stopsOf "SELECT" []) ts = some (before, rest))
      (hitems : ∀ item ∈ items before, Tidy .list item) (hrest : Tidy site rest) : Tidy site (t :: ts)
  | tables {site : Site} {t : Token} {ts : List Token} (ht : t.isKeyword "FROM" = true)
      (hopen : ts.head?.any (fun u => u.kind == .leftBracket) = false)
      (htables : Tidy .tables (clauseCut "FROM" [] ts).1) (hrest : Tidy site (clauseCut "FROM" [] ts).2) :
      Tidy site (t :: ts)
  | subquery {site : Site} {t bracket : Token} {ts before rest : List Token} (ht : t.isKeyword "FROM" = true)
      (hopen : bracket.kind = .leftBracket)
      (hcut : cutClause "FROM" (stopsOf "FROM" []) (bracket :: ts) = some (bracket :: before, rest))
      (hquery : Tidy .tables before) (hrest : Tidy site rest) : Tidy site (t :: bracket :: ts)
  | condition {site : Site} {t : Token} {ts : List Token} {own : String} (hown : own = "WHERE" ∨ own = "HAVING")
      (ht : t.isKeyword own = true) (hterms : ∀ term ∈ terms (clauseCut own ["FROM"] ts).1, Tidy .list term)
      (hrest : Tidy site (clauseCut own ["FROM"] ts).2) : Tidy site (t :: ts)
  | keys {site : Site} {t u : Token} {ts : List Token} {own : String} (hown : own = "ORDER" ∨ own = "GROUP")
      (ht : t.isKeyword own = true) (hu : isLineComment u = false)
      (hopen : ts.head?.any (fun v => v.kind == .leftBracket) = false)
      (hkeys : Tidy .list ((clauseCut own ["FROM"] (u :: ts)).1.drop 1))
      (hrest : Tidy site (clauseCut own ["FROM"] (u :: ts)).2) : Tidy site (t :: u :: ts)
  | entry {site : Site} {t c : Token} {ts before rest : List Token}
      (ht : t.kind = .identifier ∨ t.kind = .leftBracket ∨ t.kind = .operator)
      (hsite : site = .list ∨ site = .tables ∧ cutTop (fun u => u.isKeywordOf joinWords) 0 (t :: ts) = none)
      (hcut : cutTop (fun u => u.kind == .comma || u.kind == .comment) 0 (t :: ts) = some (before, c :: rest))
      (hbefore : ∀ u ∈ before, isLineComment u = false) (hrest : Tidy site rest) : Tidy site (t :: ts)
  | item {site : Site} {t : Token} {ts before rest : List Token} (ht : t.kind = .comma) (hsite : site ≠ .top)
      (hcut : cutTop (fun u => u.kind == .comma) 0 ts = some (before, rest)) (hbefore : CommentsEnd before)
      (hrest : Tidy site rest) : Tidy site (t :: ts)
  | table {t : Token} {ts before rest : List Token} (ht : t.kind = .identifier)
      (hcut : cutTop (fun u => u.isKeywordOf joinWords) 0 (t :: ts) = some (before, rest))
      (hbefore : CommentsEnd before) (hrest : Tidy .tables rest) : Tidy .tables (t :: ts)
  | join {site : Site} {t : Token} {ts : List Token} {w : String} {s : Split} (hw : w ∈ joinWords)
      (ht : t.isKeyword w = true) (hjoin : splitJoin (t :: ts) = .ok s) (hown : CommentsEnd s.own)
      (hterms : ∀ term ∈ s.children, Tidy .list term) (hrest : Tidy site s.sibling) : Tidy site (t :: ts)
  | firstTable {site : Site} {t name as bracket close : Token} {body inside rest : List Token}
      (ht : t.isKeyword "WITH" = true) (hname : name.kind = .identifier) (has : as.isKeyword "AS" = true)
      (hopen : bracket.kind = .leftBracket) (hclose : cutClose body = some (inside, close :: rest))
      (hquery : Tidy .list (inside ++ [close])) (hrest : Tidy site rest) :
      Tidy site (t :: name :: as :: bracket :: body)
  | furtherTable {t name as bracket : Token} {body inside rest : List Token} (ht : t.kind = .comma)
      (hname : name.kind = .identifier) (has : as.isKeyword "AS" = true) (hopen : bracket.kind = .leftBracket)
      (hclose : cutClose body = some (inside, rest)) (hquery : Tidy .list inside) (hrest : Tidy .top rest) :
      Tidy .top (t :: name :: as :: bracket :: body)
  | closing {t : Token} {ts : List Token} (ht : t.kind = .rightBracket)
      (hword : ts.head?.any (fun u => u.word == ";") = false) (hrest : Tidy .top ts) : Tidy .top (t :: ts)

/-! ## One split -/

/-- A line that ends in its comment, if it has one, with tidy runs below it and after it. -/
structure TidySplit (site : Site) (s : Split) : Prop where
  own : CommentsEnd s.own
  children : ∀ run ∈ s.children, Tidy (siteBelow s.own) run
  sibling : Tidy site s.sibling

theorem tidySplit_of_pieces {site : Site} {s : Split} {ts : List Token} (h : CommentsEnd ts) (hs : s.Pieces ts) :
    TidySplit site s :=
  ⟨h.piece hs.own, fun run hrun => .ends (h.piece (hs.children run hrun)), .ends (h.piece hs.sibling)⟩

theorem siteBelow_of_keyword {t : Token} {w : String} (ts : List Token) (h : t.isKeyword w = true) (hw : w ≠ "FROM") :
    siteBelow (t :: ts) = .list := by
  have hne : t.isKeyword "FROM" = false := isKeyword_of_ne h hw
  simp [siteBelow, hne]

theorem siteBelow_of_from {t : Token} (ts : List Token) (h : t.isKeyword "FROM" = true) :
    siteBelow (t :: ts) = .tables := by
  simp [siteBelow, h]

theorem splitCondition_eq (own : String) (others : List String) (t : Token) (ts : List Token) :
    splitCondition own others (t :: ts) =
      ⟨[t], terms (clauseCut own others ts).1, (clauseCut own others ts).2⟩ := by
  unfold splitCondition clauseCut
  rw [List.drop_succ_cons, List.drop_zero]
  cases cutClause own (stopsOf own others) ts <;> rfl

theorem splitFrom_eq (t : Token) (ts : List Token) (hopen : ts.head?.any (fun u => u.kind == .leftBracket) = false) :
    splitFrom (t :: ts) = ⟨[t], [(clauseCut "FROM" [] ts).1], (clauseCut "FROM" [] ts).2⟩ := by
  unfold splitFrom clauseCut
  rw [List.drop_succ_cons, List.drop_zero, hopen]
  cases cutClause "FROM" (stopsOf "FROM" []) ts <;> rfl

theorem splitKeys_eq (own : String) (t u : Token) (ts : List Token)
    (hopen : ts.head?.any (fun v => v.kind == .leftBracket) = false) :
    splitKeys own (t :: u :: ts) = ⟨[t, u], [(clauseCut own ["FROM"] (u :: ts)).1.drop 1],
      (clauseCut own ["FROM"] (u :: ts)).2⟩ := by
  unfold splitKeys clauseCut
  simp only [List.drop_succ_cons, List.drop_zero, hopen]
  cases cutClause own (stopsOf own ["FROM"]) (u :: ts) <;> rfl

theorem siteOf_cases (place : Place) :
    (siteOf place = .top ∧ ∀ parent ∈ place.parent?, parent.depth = 0) ∨
      ∃ parent, place.parent? = some parent ∧ parent.depth ≠ 0 ∧
        siteOf place = if parent.head?.any fun t => t.isKeyword "FROM" then .tables else .list := by
  unfold siteOf
  cases hparent : place.parent? with
  | none => exact .inl ⟨rfl, by simp⟩
  | some parent =>
    by_cases hdepth : parent.depth = 0
    · exact .inl ⟨by simp [hdepth], by simpa using hdepth⟩
    · exact .inr ⟨parent, rfl, hdepth, by simp [hdepth]⟩

theorem splitName_of_site {place : Place} {ts : List Token} {s : Split} (hsite : siteOf place ≠ .top)
    (h : splitName place ts = .ok s) :
    s = if siteOf place = .tables then splitTables ts else splitOther ts := by
  obtain ⟨htop, -⟩ | ⟨parent, hparent, hdepth, hplace⟩ := siteOf_cases place
  · exact absurd htop hsite
  · simp only [splitName, hparent, hdepth, if_false] at h
    cases hhead : parent.head? with
    | none =>
      rw [hhead] at h
      cases h
    | some head =>
      rw [hhead] at h
      cases h
      cases hfrom : head.isKeyword "FROM" <;> simp [hplace, hhead, hfrom]

theorem split_of_entry {place : Place} {t : Token} {ts : List Token} {s : Split}
    (ht : t.kind = .identifier ∨ t.kind = .leftBracket ∨ t.kind = .operator)
    (hsite : siteOf place = .list ∨
      siteOf place = .tables ∧ cutTop (fun u => u.isKeywordOf joinWords) 0 (t :: ts) = none)
    (h : split place (t :: ts) = .ok s) : s = splitOther (t :: ts) := by
  rcases ht with hk | hk | hk
  · simp only [split, hk] at h
    rcases hsite with hlist | ⟨htables, hcut⟩
    · have hs := splitName_of_site (by simp [hlist]) h
      simpa [hlist] using hs
    · have hs := splitName_of_site (by simp [htables]) h
      simpa [htables, splitTables, hcut] using hs
  · simp only [split, hk] at h
    cases h
    rfl
  · simp only [split, hk] at h
    cases h
    rfl

theorem splitComma_of_top {place : Place} {ts : List Token} {s : Split} (hsite : siteOf place = .top)
    (h : splitComma place ts = .ok s) : splitTableExpression ts = .ok s := by
  obtain ⟨-, htop⟩ | ⟨parent, -, -, hplace⟩ := siteOf_cases place
  · unfold splitComma at h
    split at h
    · cases h
    · next parent hparent => rwa [if_pos (htop parent hparent)] at h
  · rw [hsite] at hplace
    split at hplace <;> cases hplace

theorem commentsEnd_tableHead {t name as : Token} (ht : isLineComment t = false) (hname : name.kind = .identifier)
    (has : as.isKeyword "AS" = true) (bracket : Token) : CommentsEnd [t, name, as, bracket] := by
  have hplain : isLineComment name = false := isLineComment_of_kind (by simp [hname])
  apply commentsEnd_cons_of_not ht
  apply commentsEnd_cons_of_not hplain
  exact commentsEnd_cons_of_not (isLineComment_of_keyword has) (commentsEnd_singleton bracket)

theorem siteBelow_congr {ts us : List Token} (h : ts.head? = us.head?) : siteBelow ts = siteBelow us := by
  rw [siteBelow, h, siteBelow]

theorem head?_split {place : Place} {ts : List Token} {s : Split} (h : split place ts = .ok s) :
    s.own.head? = ts.head? := by
  cases ts with
  | nil =>
    cases h
    rfl
  | cons t ts =>
    obtain ⟨rest, -, hrule⟩ := split_rule place t ts s h
    obtain ⟨us, hown⟩ := hrule.begins.exists_cons
    rw [hown]
    rfl

/-- A tidy run is split into a line that ends in its comment, and tidy runs. -/
theorem Tidy.parts {place : Place} {ts : List Token} {s : Split} (h : Tidy (siteOf place) ts)
    (hdepth : siteOf place = .top → place.depth ≤ 1) (hs : split place ts = .ok s) : TidySplit (siteOf place) s := by
  generalize hplace : siteOf place = site at h hdepth ⊢
  cases h with
  | ends h => exact tidySplit_of_pieces (commentsEnd_nameAfterWith h) (split_pieces place ts s hs)
  | @select _ t ts before rest ht hcut hitems hrest =>
    rw [split_of_keyword place ts ht (by decide)] at hs
    cases hs
    have hsplit : splitSelect (t :: ts) = ⟨[t], items before, rest⟩ := by simp [splitSelect, hcut]
    rw [hsplit]
    refine ⟨commentsEnd_singleton t, ?_, hrest⟩
    rwa [siteBelow_of_keyword [] ht (by decide)]
  | @tables _ t ts ht hopen htables hrest =>
    rw [split_of_keyword place ts ht (by decide)] at hs
    cases hs
    rw [splitFrom_eq t ts hopen]
    refine ⟨commentsEnd_singleton t, ?_, hrest⟩
    rwa [siteBelow_of_from [] ht, List.forall_mem_singleton]
  | @subquery _ t bracket ts before rest ht hopen hcut hquery hrest =>
    rw [split_of_keyword place _ ht (by decide)] at hs
    cases hs
    have hsplit : splitFrom (t :: bracket :: ts) = ⟨[t, bracket], [before], rest⟩ := by simp [splitFrom, hcut, hopen]
    rw [hsplit]
    refine ⟨commentsEnd_cons_of_not (isLineComment_of_keyword ht) (commentsEnd_singleton bracket), ?_, hrest⟩
    rwa [siteBelow_of_from [bracket] ht, List.forall_mem_singleton]
  | @condition _ t ts own hown ht hterms hrest =>
    have hsplit : splitClause own (t :: ts) = .ok (splitCondition own ["FROM"] (t :: ts)) := by
      rcases hown with rfl | rfl <;> rfl
    rw [split_of_keyword place ts ht (by rcases hown with rfl | rfl <;> decide), hsplit] at hs
    cases hs
    rw [splitCondition_eq]
    refine ⟨commentsEnd_singleton t, ?_, hrest⟩
    rwa [siteBelow_of_keyword [] ht (by rcases hown with rfl | rfl <;> decide)]
  | @keys _ t u ts own hown ht hu hopen hkeys hrest =>
    have hsplit : splitClause own (t :: u :: ts) = .ok (splitKeys own (t :: u :: ts)) := by
      rcases hown with rfl | rfl <;> rfl
    rw [split_of_keyword place _ ht (by rcases hown with rfl | rfl <;> decide), hsplit] at hs
    cases hs
    rw [splitKeys_eq own t u ts hopen]
    refine ⟨commentsEnd_cons_of_not (isLineComment_of_keyword ht) (commentsEnd_singleton u), ?_, hrest⟩
    rwa [siteBelow_of_keyword [u] ht (by rcases hown with rfl | rfl <;> decide), List.forall_mem_singleton]
  | @entry _ t c ts before rest ht hsite hcut hbefore hrest =>
    obtain rfl := split_of_entry ht (hplace ▸ hsite) hs
    have hsplit : splitOther (t :: ts) = { own := before ++ [c], sibling := rest } := by simp [splitOther, hcut]
    rw [hsplit]
    refine ⟨?_, List.forall_mem_nil _, hrest⟩
    exact (commentsEnd_append before [c] (List.cons_ne_nil c [])).2 ⟨hbefore, commentsEnd_singleton c⟩
  | @item _ t ts before rest ht hsite hcut hbefore hrest =>
    have hsplit : split place (t :: ts) = .ok { own := t :: before, sibling := rest } := by
      obtain ⟨htop, -⟩ | ⟨parent, hparent, hdepth, -⟩ := siteOf_cases place
      · exact absurd (hplace ▸ htop) hsite
      · simp [split, ht, splitComma, hparent, hdepth, splitItem, hcut]
    rw [hsplit] at hs
    cases hs
    exact ⟨commentsEnd_cons_of_not (isLineComment_of_kind (by simp [ht])) hbefore, List.forall_mem_nil _, hrest⟩
  | @table t ts before rest ht hcut hbefore hrest =>
    simp only [split, ht] at hs
    have hsplit := splitName_of_site (by simp [hplace]) hs
    obtain rfl : s = { own := before, sibling := rest } := by
      rw [hsplit, if_pos hplace]
      simp [splitTables, hcut]
    exact ⟨hbefore, List.forall_mem_nil _, hrest⟩
  | @join _ t ts w _ hw ht hjoin hown hterms hrest =>
    have hhead := head?_split hs
    rw [split_of_keyword place ts ht (by rintro rfl; revert hw; decide), splitClause_of_mem hw, hjoin] at hs
    cases hs
    refine ⟨hown, ?_, hrest⟩
    rwa [siteBelow_congr hhead, siteBelow_of_keyword ts ht (by rintro rfl; revert hw; decide)]
  | @firstTable _ t name as bracket close body inside rest ht hname has hopen hclose hquery hrest =>
    obtain ⟨hkey, hk⟩ : t.key = "WITH" ∧ t.kind = .keyword := by simpa [Token.isKeyword] using ht
    have hsame : nameAfterWith (t :: name :: as :: bracket :: body) = t :: name :: as :: bracket :: body := by
      simp [nameAfterWith, hname, Kind.isReserved]
    rw [split_of_with (by simp [hk, Kind.isReserved]) hkey, hsame] at hs
    have hsplit : splitWith (t :: name :: as :: bracket :: body) =
        .ok ⟨[t, name, as, bracket], [inside ++ [close]], rest⟩ := by
      simp [splitWith, hname, has, hopen, hclose]
    rw [hsplit] at hs
    cases hs
    refine ⟨commentsEnd_tableHead (isLineComment_of_keyword ht) hname has bracket, ?_, hrest⟩
    rwa [siteBelow_of_keyword _ ht (by decide), List.forall_mem_singleton]
  | @furtherTable t name as bracket body inside rest ht hname has hopen hclose hquery hrest =>
    have hexpression : splitTableExpression (t :: name :: as :: bracket :: body) =
        .ok ⟨[t, name, as, bracket], [inside], rest⟩ := by
      simp [splitTableExpression, splitBody, ht, hname, has, hopen, hclose]
    simp only [split, ht] at hs
    have hsplit := splitComma_of_top hplace hs
    rw [hexpression] at hsplit
    cases hsplit
    have hcomma : isLineComment t = false := isLineComment_of_kind (by simp [ht])
    refine ⟨commentsEnd_tableHead hcomma hname has bracket, ?_, hrest⟩
    rw [List.forall_mem_singleton]
    simpa [siteBelow, Token.isKeyword, ht] using hquery
  | @closing t ts ht hword hrest =>
    have hsplit : split place (t :: ts) = .ok (.after 1 (t :: ts)) := by
      simp [split, ht, splitRightBracket, hword, hdepth rfl]
    rw [hsplit] at hs
    cases hs
    exact ⟨commentsEnd_singleton t, List.forall_mem_nil _, hrest⟩

/-! ## Growth -/

theorem siteOf_placeBelow {place : Place} (hdepth : 1 ≤ place.depth) (own : List Token) :
    siteOf (placeBelow place own) = siteBelow own := by
  have hne : place.depth ≠ 0 := by omega
  simp [siteOf, placeBelow, siteBelow, hne]

theorem siteBelow_ne_top (own : List Token) : siteBelow own ≠ .top := by
  unfold siteBelow
  split <;> simp

structure TidyCall (c : Call) : Prop where
  tidy : Tidy (siteOf c.place) c.run
  depth : 1 ≤ c.place.depth
  top : siteOf c.place = .top → c.place.depth ≤ 1

/-- The line of a call that grows a tidy run ends in its comment, and the callees grow tidy runs. -/
theorem TidyCall.step {s : Settings} {c : Call} (h : TidyCall c) (hok : (plan s c.place c.run).fault? = none) :
    CommentsEnd (plan s c.place c.run).value.own ∧ ∀ d ∈ callees s c, TidyCall d := by
  obtain ⟨short, long, hshort, hlong, hplan⟩ := plan_ok s c.place c.run hok
  have hparts := h.tidy.parts h.top hshort
  have hpieces := breakLine_pieces s c.place.depth short.own long hlong
  have hsite : siteBelow (plan s c.place c.run).value.own = siteBelow short.own :=
    siteBelow_congr ((head?_plan s c hok).trans (head?_split hshort).symm)
  refine ⟨?_, fun d hd => ?_⟩
  · rw [hplan]
    exact hparts.own.piece hpieces.own
  · rcases List.mem_append.1 hd with hd | hd
    · obtain ⟨run, hr, rfl⟩ := List.mem_map.1 hd
      have hbelow := siteOf_placeBelow h.depth (plan s c.place c.run).value.own
      refine ⟨?_, ?_, fun htop => absurd (hbelow ▸ htop) (siteBelow_ne_top _)⟩
      · rw [hbelow, hsite]
        rw [hplan] at hr
        rcases List.mem_append.1 (mem_of_mem_filled hr) with hr | hr
        · exact .ends (hparts.own.piece (hpieces.children run hr))
        · exact hparts.children run hr
      · have := h.depth
        show 1 ≤ c.place.depth + 1
        omega
    · obtain ⟨run, hr, rfl⟩ := List.mem_map.1 hd
      refine ⟨?_, h.depth, h.top⟩
      rw [hplan] at hr
      have hr := mem_of_mem_filled hr
      simp only [List.mem_cons, List.not_mem_nil, or_false] at hr
      rcases hr with rfl | rfl
      · exact .ends (hparts.own.piece hpieces.sibling)
      · exact hparts.sibling

/-- Growth ends the lines of a tidy run at their comments. -/
theorem commentsEnd_grow (s : Settings) (c : Call) (number : Nat) (hok : (grow s c.place number c.run).fault? = none)
    (h : TidyCall c) : ∀ n ∈ forestNodes (grow s c.place number c.run).value, CommentsEnd n.tokens := by
  have hcalls := forall_calls s c number TidyCall hok h fun c d hplan hc hd => (hc.step hplan).2 d hd
  rw [← forall_mem_forestSubtrees_root fun n => CommentsEnd n.tokens]
  apply forall_mem_forestSubtrees_grow s c number (fun t => CommentsEnd t.root.tokens) hok
  intro d hd k ls _
  obtain ⟨hplan, htidy⟩ := hcalls d hd
  exact (htidy.step hplan).1

end SqlStyle.Layout
