import Mathlib.Data.List.Forall2
import SqlStyle.Clause.Rules

/-! A split parts its run: the line, the runs below it and the run after it, put together in this order,
are the run again (`Rule.tokens`, `splitLong_tokens`, and for the split itself `split_parts`). This holds
of every rule but three. A condition and a join may leave out the last word of a condition, and a grouping
or an ordering repeats a word that ends it at once. By every rule each part of a split is a piece of the run
(`Rule.pieces`, `splitLong_pieces`), and no token but a repeated word comes twice (`Rule.sublist`). -/
namespace SqlStyle
set_option autoImplicit false

/-! ## Reserved words that are read as names -/

namespace Token

/-- The token `u` is the token `t`, or the same word as a name, where `t` is a reserved word. -/
def ReadAs (t u : Token) : Prop :=
  u = t ∨ (t.kind.isReserved = true ∧ u = { t with kind := .identifier })

instance (t u : Token) : Decidable (ReadAs t u) :=
  inferInstanceAs (Decidable (_ ∨ _))

theorem ReadAs.refl (t : Token) : t.ReadAs t :=
  .inl rfl

theorem ReadAs.trans {t u v : Token} (htu : t.ReadAs u) (huv : u.ReadAs v) : t.ReadAs v := by
  rcases htu with rfl | ⟨hk, rfl⟩
  · exact huv
  · rcases huv with rfl | ⟨hi, -⟩
    · exact .inr ⟨hk, rfl⟩
    · simp [Kind.isReserved] at hi

/-- A token that is read as a name wherever it may be. -/
def asName (t : Token) : Token :=
  if t.kind.isReserved then { t with kind := .identifier } else t

theorem asName_of_not_reserved {t : Token} (h : t.kind.isReserved = false) : t.asName = t := by
  rw [asName, if_neg (by simp [h])]

theorem kind_asName_of_reserved {t : Token} (h : t.kind.isReserved = true) :
    t.asName.kind = .identifier := by
  rw [asName, if_pos h]

theorem ReadAs.asName_eq {t u : Token} (h : t.ReadAs u) : u.asName = t.asName := by
  rcases h with rfl | ⟨hk, rfl⟩
  · rfl
  · rw [asName_of_not_reserved rfl, asName, if_pos hk]

theorem map_asName_of_readAs {ts us : List Token} (h : List.Forall₂ ReadAs ts us) :
    us.map asName = ts.map asName := by
  induction h with
  | nil => rfl
  | cons htu _ ih => rw [List.map_cons, List.map_cons, htu.asName_eq, ih]

theorem readAs_refl (ts : List Token) : List.Forall₂ ReadAs ts ts :=
  List.forall₂_same.2 fun t _ => ReadAs.refl t

theorem readAs_trans {ts us vs : List Token} (htu : List.Forall₂ ReadAs ts us)
    (huv : List.Forall₂ ReadAs us vs) : List.Forall₂ ReadAs ts vs := by
  induction htu generalizing vs with
  | nil => exact huv
  | cons h _ ih =>
    obtain ⟨v, vs, hv, hvs, rfl⟩ := List.forall₂_cons_left_iff.1 huv
    exact .cons (h.trans hv) (ih hvs)

end Token

namespace Clause

theorem nameAfterWith_readAs (ts : List Token) : List.Forall₂ Token.ReadAs ts (nameAfterWith ts) := by
  unfold nameAfterWith
  split
  · next head name next rest =>
    split
    · next h =>
      simp only [Bool.and_eq_true] at h
      exact .cons (.inl rfl) (.cons (.inr ⟨h.2, rfl⟩) (Token.readAs_refl (next :: rest)))
    · exact Token.readAs_refl (head :: name :: next :: rest)
  · exact Token.readAs_refl ts

/-! ## The tokens of a split -/

def Split.tokens (s : Split) : List Token :=
  s.own ++ s.children.flatten ++ s.sibling

theorem Split.tokens_whole (ts : List Token) : (Split.whole ts).tokens = ts := by
  simp [Split.tokens, Split.whole]

theorem Split.tokens_after (n : Nat) (ts : List Token) : (Split.after n ts).tokens = ts := by
  simp [Split.tokens, Split.after]

theorem Split.tokens_below (n : Nat) (ts : List Token) :
    Split.tokens { own := ts.take n, children := [ts.drop n] } = ts := by
  simp only [Split.tokens, List.flatten_cons, List.flatten_nil, List.append_nil,
    List.take_append_drop]

/-! ## Items -/

theorem flatten_itemsFrom (depth : Int) (cur ts : List Token) :
    (itemsFrom depth cur ts).flatten = cur ++ ts := by
  induction ts generalizing depth cur with
  | nil =>
    rw [itemsFrom]
    split
    · next he => simp [List.isEmpty_iff.1 he]
    · simp
  | cons t ts ih =>
    rw [itemsFrom]
    split
    · rw [List.flatten_cons, ih, List.singleton_append]
    · rw [ih, List.append_assoc, List.singleton_append]

theorem flatten_items (ts : List Token) : (items ts).flatten = ts :=
  flatten_itemsFrom 0 [] ts

/-! ## Runs that begin with no keyword -/

theorem splitOther_tokens (ts : List Token) : (splitOther ts).tokens = ts := by
  unfold splitOther
  split
  · next before rest h =>
    have hd := (cutTop_divides _ _ _ _ h).1
    simp only [Split.tokens, List.flatten_nil, List.append_nil, List.append_assoc,
      List.take_append_drop]
    exact hd
  · exact Split.tokens_whole ts

theorem splitTables_tokens (ts : List Token) : (splitTables ts).tokens = ts := by
  unfold splitTables
  split
  · next before rest h =>
    have hd := (cutTop_divides _ _ _ _ h).1
    simp only [Split.tokens, List.flatten_nil, List.append_nil]
    exact hd
  · exact splitOther_tokens ts

theorem splitRightBracket_tokens (depth : Int) (ts : List Token) :
    (splitRightBracket depth ts).tokens = ts := by
  unfold splitRightBracket
  split
  · exact Split.tokens_after 2 ts
  · split
    · exact Split.tokens_after 1 ts
    · exact Split.tokens_whole ts

theorem tokens_of_divides (ts : List Token) (cut : Cut) (h : cut.Divides (ts.drop 1)) :
    Split.tokens { own := ts.take 1 ++ cut.1, sibling := cut.2 } = ts := by
  simp only [Split.tokens, List.flatten_nil, List.append_nil, List.append_assoc]
  rw [h.1, List.take_append_drop]

theorem splitItem_tokens (ts : List Token) : (splitItem ts).tokens = ts := by
  unfold splitItem
  split
  · next before rest h => exact tokens_of_divides ts (before, rest) (cutTop_divides _ _ _ _ h)
  · exact Split.tokens_whole ts

/-! ## Table expressions -/

theorem splitBody_tokens (head body ts : List Token) (missing : Split) (hts : head ++ body = ts)
    (hm : missing.tokens = ts) : (splitBody head body missing).tokens = ts := by
  obtain ⟨inside, rest, hc, hs⟩ | hs := splitBody_cases head body missing
  · have hd := (cutClose_divides _ _ hc).1
    rw [hs]
    simp only [Split.tokens, List.flatten_cons, List.flatten_nil, List.append_nil, List.append_assoc]
    rw [hd, hts]
  · rw [hs]
    exact hm

theorem splitTableExpression_tokens (ts : List Token) (s : Split)
    (h : splitTableExpression ts = .ok s) : s.tokens = ts := by
  obtain rfl | rfl | ⟨head, name, as, bracket, body, he, -, -, -, -, rfl⟩ :=
    splitTableExpression_cases ts s h
  · exact Split.tokens_whole ts
  · exact Split.tokens_after 2 ts
  · exact splitBody_tokens _ body _ _ he.symm (Split.tokens_after 1 ts)

theorem splitWith_tokens (ts : List Token) (s : Split) (h : splitWith ts = .ok s) :
    s.tokens = ts := by
  obtain rfl | rfl | ⟨head, name, as, bracket, body, rfl, -, -, -, hs⟩ := splitWith_cases ts s h
  · exact Split.tokens_whole ts
  · exact Split.tokens_after 2 ts
  · obtain ⟨inside, rest, hc, rfl⟩ | rfl := hs
    · have hd := (cutClose_divides _ _ hc).1
      simp only [Split.tokens, List.flatten_cons, List.flatten_nil, List.append_nil,
        List.append_assoc, List.take_append_drop]
      rw [hd]
      rfl
    · exact Split.tokens_below 1 (head :: name :: as :: bracket :: body)

theorem splitAs_tokens (ts : List Token) : (splitAs ts).tokens = ts := by
  obtain hs | hs | ⟨head, bracket, body, he, -, hs⟩ := splitAs_cases ts
  · rw [hs]
    exact Split.tokens_whole ts
  · rw [hs]
    exact Split.tokens_after 2 ts
  · rw [hs]
    exact splitBody_tokens _ body _ _ he.symm (Split.tokens_after 2 ts)

/-! ## Clauses -/

theorem splitDefinition_tokens (stops : List String) (ts : List Token) :
    (splitDefinition stops ts).tokens = ts := by
  unfold splitDefinition
  split
  · next before rest h => exact tokens_of_divides ts (before, rest) (cutBefore_divides _ _ _ h)
  · exact Split.tokens_after 1 ts

theorem splitSelect_tokens (ts : List Token) : (splitSelect ts).tokens = ts := by
  unfold splitSelect
  split
  · next before rest h =>
    have hd := (cutClause_divides _ _ _ _ h).1
    simp only [Split.tokens, flatten_items, List.append_assoc]
    rw [hd, List.take_append_drop]
  · exact Split.tokens_below 1 ts

theorem splitLimit_tokens (ts : List Token) : (splitLimit ts).tokens = ts :=
  Split.tokens_below 1 ts

theorem tokens_of_kept (kept : Nat) (ts : List Token) (cut : Cut) (h : cut.Divides (ts.drop 1))
    (hk : kept ≤ cut.1.length) :
    Split.tokens ⟨ts.take (1 + kept), [cut.1.drop kept], cut.2⟩ = ts := by
  have htake : (ts.drop 1).take kept = cut.1.take kept := by
    rw [← h.1, List.take_append_of_le_length hk]
  simp only [Split.tokens, List.flatten_cons, List.flatten_nil, List.append_nil]
  rw [List.take_add, htake]
  simp only [List.append_assoc]
  rw [← List.append_assoc (cut.1.take kept), List.take_append_drop, h.1, List.take_append_drop]

theorem cutClause_cons_of_not (own : String) (stops : List String) (t : Token) (ts : List Token)
    (cut : Cut) (ht : t.isKeywordOf stops = false) (h : cutClause own stops (t :: ts) = some cut) :
    cut.1 ≠ [] := by
  obtain ⟨hc, hf⟩ := Option.filter_eq_some_iff.1 h
  by_cases ho : t.isKeyword own = true
  · intro hn
    have hd := (cutTop_divides _ _ _ _ hc).1
    rw [hn, List.nil_append] at hd
    rw [hd] at hf
    simp [ho] at hf
  · exact cutTop_cons_of_not _ 0 t ts cut (by simp [ht, ho]) hc

theorem length_cutClause_ne (own : String) (stops : List String) (n : Nat) (ts : List Token) (cut : Cut)
    (h : cutClause own stops ts = some cut)
    (hb : ((ts.drop n).head?.any fun t => t.kind == .leftBracket) = true) : cut.1.length ≠ n := by
  intro hn
  obtain ⟨hc, -⟩ := Option.filter_eq_some_iff.1 h
  obtain ⟨t, rest, hrest, ht⟩ := cutTop_found _ _ _ _ hc
  have hdrop : ts.drop n = cut.2 := by
    rw [← (cutTop_divides _ _ _ _ hc).1, ← hn, List.drop_left]
  rw [hdrop, hrest] at hb
  have hk : t.kind = .leftBracket := by simpa using hb
  simp [Token.isKeyword, Token.isKeywordOf, hk] at ht

theorem splitFrom_tokens (ts : List Token) : (splitFrom ts).tokens = ts := by
  unfold splitFrom
  split
  · next before rest h =>
    apply tokens_of_kept _ ts (before, rest) (cutClause_divides _ _ _ _ h)
    split
    · next hb =>
      exact Nat.one_le_iff_ne_zero.2 (length_cutClause_ne _ _ 0 _ _ h hb)
    · exact Nat.zero_le _
  · exact Split.tokens_below 1 ts

/-- The keys of a grouping or an ordering, unless a word that ends the clause follows at once. -/
theorem splitKeys_tokens (own : String) (ts : List Token)
    (hstop : ((ts.drop 1).head?.any fun t => t.isKeywordOf (stopsOf own ["FROM"])) = false) :
    (splitKeys own ts).tokens = ts := by
  unfold splitKeys
  split
  · next before rest h =>
    apply tokens_of_kept _ ts (before, rest) (cutClause_divides _ _ _ _ h)
    have hpos : 0 < before.length := by
      match hts : ts.drop 1 with
      | [] =>
        rw [hts] at h
        simp [cutClause, cutTop] at h
      | t :: tail =>
        rw [hts] at h hstop
        exact List.length_pos_iff.2 (cutClause_cons_of_not own _ t tail _ (by simpa using hstop) h)
    split
    · next hb =>
      have hne : before.length ≠ 1 := length_cutClause_ne _ _ 1 _ _ h (by rwa [List.drop_drop])
      exact Nat.lt_of_le_of_ne hpos hne.symm
    · exact hpos
  · exact Split.tokens_below 2 ts

/-! ## Cases -/

theorem splitCase_tokens (ts : List Token) (s : Split) (h : splitCase ts = .ok s) : s.tokens = ts := by
  obtain ⟨own, branches, hc, hs⟩ := splitCase_cases ts s h
  have hd : own ++ branches = ts := (cutFirst_divides _ _ _ hc).1
  obtain ⟨before, rest, hb, rfl⟩ | rfl := hs
  · simp only [Split.tokens, List.flatten_cons, List.flatten_nil, List.append_nil, List.append_assoc]
    rw [hb, hd]
  · simp only [Split.tokens, List.flatten_cons, List.flatten_nil, List.append_nil]
    exact hd

theorem splitWhen_tokens (ts : List Token) : (splitWhen ts).tokens = ts := by
  unfold splitWhen
  split
  · next before rest h => exact tokens_of_divides ts (before, rest) (cutWhen_divides _ _ _ _ h)
  · exact Split.tokens_whole ts

/-! ## All runs -/

/-- The run begins with neither a condition nor a join, and with no grouping or ordering that ends at
once. -/
def Partible (t : Token) (ts : List Token) : Prop :=
  t.kind.isReserved = true → t.key ∉ "WHERE" :: "HAVING" :: joinWords ∧
    ∀ own ∈ ["ORDER", "GROUP"], t.key = own →
      (ts.head?.any fun next => next.isKeywordOf (stopsOf own ["FROM"])) = false

/-- By every rule but three the split parts its run. -/
theorem Rule.tokens_cases {place : Place} {t : Token} {ts : List Token} {s : Split}
    (h : Rule place t ts s) :
    s.tokens = t :: ts ∨ t.kind.isReserved = true ∧
      ((t.key = "WHERE" ∨ t.key = "HAVING") ∧ (∃ own others, s = splitCondition own others (t :: ts)) ∨
        (t.key = "ORDER" ∨ t.key = "GROUP") ∧ s = splitKeys t.key (t :: ts) ∨
        t.key ∈ joinWords ∧ splitJoin (t :: ts) = .ok s) := by
  cases h with
  | definition stops => exact .inl (splitDefinition_tokens stops (t :: ts))
  | named => exact .inl (splitAs_tokens (t :: ts))
  | firstTable _ _ h => exact .inl (splitWith_tokens (t :: ts) s h)
  | select => exact .inl (splitSelect_tokens (t :: ts))
  | tables => exact .inl (splitFrom_tokens (t :: ts))
  | condition own others hk hw => exact .inr ⟨hk, .inl ⟨hw, own, others, rfl⟩⟩
  | keys own hk hw ho => exact .inr ⟨hk, .inr (.inl ⟨by rwa [hw], by rw [hw]⟩)⟩
  | limit => exact .inl (splitLimit_tokens (t :: ts))
  | branches _ _ _ h => exact .inl (splitCase_tokens (t :: ts) s h)
  | branch => exact .inl (splitWhen_tokens (t :: ts))
  | join _ hk hw h => exact .inr ⟨hk, .inr (.inr ⟨hw, h⟩)⟩
  | word => exact .inl (Split.tokens_whole (t :: ts))
  | furtherTable _ _ h => exact .inl (splitTableExpression_tokens (t :: ts) s h)
  | item => exact .inl (splitItem_tokens (t :: ts))
  | table => exact .inl (splitTables_tokens (t :: ts))
  | other => exact .inl (splitOther_tokens (t :: ts))
  | closing => exact .inl (splitRightBracket_tokens place.depth (t :: ts))
  | alone => exact .inl (Split.tokens_after 1 (t :: ts))

theorem Rule.tokens {place : Place} {t : Token} {ts : List Token} {s : Split} (h : Rule place t ts s)
    (hp : Partible t ts) : s.tokens = t :: ts := by
  obtain htokens | ⟨hk, ⟨hw, -⟩ | ⟨hw, rfl⟩ | ⟨hw, -⟩⟩ := h.tokens_cases
  · exact htokens
  · exact absurd (by rcases hw with hw | hw <;> simp [hw]) (hp hk).1
  · exact splitKeys_tokens t.key (t :: ts) ((hp hk).2 t.key (by simpa using hw) rfl)
  · exact absurd (List.mem_cons_of_mem _ (List.mem_cons_of_mem _ hw)) (hp hk).1

/-! ## Lines that are too long -/

theorem splitLongBrackets_tokens (ts : List Token) : (splitLongBrackets ts).tokens = ts := by
  obtain hw | ⟨before, left, inside, right, after, he, -, -, hs⟩ := splitLongBrackets_cases ts
  · rw [hw]
    exact Split.tokens_whole ts
  · rw [hs, ← he]
    simp only [Split.tokens, flatten_items, List.append_assoc, List.cons_append, List.nil_append]

theorem splitLong_tokens (t : Token) (ts : List Token) (s : Split) (ht : t.key ≠ "WHEN")
    (h : splitLong (t :: ts) = .ok s) : s.tokens = t :: ts := by
  obtain ⟨hw, -⟩ | ⟨-, rfl⟩ := splitLong_cases t ts s h
  · exact absurd hw ht
  · exact splitLongBrackets_tokens (t :: ts)

/-! ## Splits -/

/-- Only a reserved word behind `WITH` is relabelled. -/
theorem nameAfterWith_cases (t : Token) (ts : List Token) :
    nameAfterWith (t :: ts) = t :: ts ∨
      ∃ name rest, ts = name :: rest ∧ t.kind.isReserved = true ∧ t.key = "WITH" ∧
        name.kind.isReserved = true ∧
        nameAfterWith (t :: ts) = t :: { name with kind := .identifier } :: rest := by
  unfold nameAfterWith
  split
  · next head name next rest he =>
    obtain ⟨rfl, rfl⟩ := List.cons.inj he
    split
    · next h =>
      simp only [Bool.and_eq_true, beq_iff_eq] at h
      exact .inr ⟨name, next :: rest, rfl, h.1.1, h.1.2, h.2, rfl⟩
    · exact .inl rfl
  · exact .inl rfl

/-- A run that begins with neither a condition nor a join, nor with a grouping or an ordering that ends at
once, is parted by its split: every token comes out once and in order, and only a reserved word behind
`WITH` changes its kind. A long line is always split, and parted unless it is a branch of a case. -/
theorem split_parts (place : Place) (t : Token) (ts : List Token) :
    (∀ s, split place (t :: ts) = .ok s → Partible t ts →
      s.tokens = t :: ts ∨
        ∃ name rest, ts = name :: rest ∧ t.kind.isReserved = true ∧ t.key = "WITH" ∧
          name.kind.isReserved = true ∧ s.tokens = t :: { name with kind := .identifier } :: rest) ∧
      (t.key ≠ "WHEN" → ∃ s, splitLong (t :: ts) = .ok s ∧ s.tokens = t :: ts) := by
  refine ⟨fun s hs hp => ?_, fun hw => ⟨splitLongBrackets (t :: ts), ?_, splitLongBrackets_tokens _⟩⟩
  · obtain ⟨rest, hn, hrule⟩ := split_rule place t ts s hs
    obtain hsame | ⟨name, more, rfl, hk, hw, hname, hrelabelled⟩ := nameAfterWith_cases t ts
    · obtain rfl : ts = rest := (List.cons.inj (hsame.symm.trans hn)).2
      exact .inl (hrule.tokens hp)
    · have hpart : Partible t rest := by
        refine fun _ => ⟨by rw [hw]; decide, fun own hown he => ?_⟩
        rw [hw] at he
        subst he
        exact absurd hown (by decide)
      refine .inr ⟨name, more, rfl, hk, hw, hname, ?_⟩
      rw [hrule.tokens hpart, ← hn, hrelabelled]
  · rw [splitLong, if_neg hw]

/-- A table expression whose name is a reserved word, behind the word `WITH`. -/
def currentTable : List Token :=
  [⟨.keyword, "current", none⟩, ⟨.keyword, "as", none⟩, ⟨.leftBracket, "(", none⟩,
    ⟨.identifier, "a", none⟩, ⟨.rightBracket, ")", none⟩, ⟨.identifier, "b", none⟩]

def currentSplit : Split where
  own := [⟨.keyword, "with", none⟩, ⟨.identifier, "current", none⟩, ⟨.keyword, "as", none⟩,
    ⟨.leftBracket, "(", none⟩]
  children := [[⟨.identifier, "a", none⟩, ⟨.rightBracket, ")", none⟩]]
  sibling := [⟨.identifier, "b", none⟩]

theorem split_parts_of_table :
    split ⟨1, some ⟨0, none⟩⟩ (⟨.keyword, "with", none⟩ :: currentTable) = .ok currentSplit ∧
      Partible ⟨.keyword, "with", none⟩ currentTable ∧
      (currentSplit.tokens = ⟨.keyword, "with", none⟩ :: currentTable ∨
        ∃ name rest, currentTable = name :: rest ∧ Kind.keyword.isReserved = true ∧
          Token.key ⟨.keyword, "with", none⟩ = "WITH" ∧ name.kind.isReserved = true ∧
          currentSplit.tokens = ⟨.keyword, "with", none⟩ :: { name with kind := .identifier } :: rest) ∧
      ∃ long, splitLong (⟨.keyword, "with", none⟩ :: currentTable) = .ok long ∧
        long.tokens = ⟨.keyword, "with", none⟩ :: currentTable := by
  have hsplit : split ⟨1, some ⟨0, none⟩⟩ (⟨.keyword, "with", none⟩ :: currentTable) =
      .ok currentSplit := by decide +kernel
  have hpartible : Partible ⟨.keyword, "with", none⟩ currentTable :=
    fun _ => ⟨by decide +kernel, by decide +kernel⟩
  obtain ⟨hshort, hlong⟩ := split_parts ⟨1, some ⟨0, none⟩⟩ ⟨.keyword, "with", none⟩ currentTable
  exact ⟨hsplit, hpartible, hshort currentSplit hsplit hpartible, hlong (by decide +kernel)⟩

/-! ## Pieces -/

structure Split.Pieces (s : Split) (ts : List Token) : Prop where
  own : s.own <:+: ts
  children : ∀ child ∈ s.children, child <:+: ts
  sibling : s.sibling <:+: ts

theorem Split.pieces_of_tokens {s : Split} {ts : List Token} (h : s.tokens = ts) : s.Pieces ts := by
  subst h
  refine ⟨?_, fun child hchild => ?_, List.suffix_append _ _ |>.isInfix⟩
  · rw [Split.tokens, List.append_assoc]
    exact (List.prefix_append _ _).isInfix
  · exact (List.infix_of_mem_flatten hchild).trans (List.infix_append _ _ _)

theorem isPrefix_flatten_termsFrom (depth cases : Int) (pending : Bool) (cur ts : List Token) :
    (termsFrom depth cases pending cur ts).flatten <+: cur ++ ts := by
  induction ts generalizing depth cases pending cur with
  | nil =>
    rw [termsFrom]
    split
    · simp
    · exact List.nil_prefix
  | cons t ts ih =>
    have grown (d c : Int) (b : Bool) :
        (termsFrom d c b (cur ++ [t]) ts).flatten <+: cur ++ t :: ts := by
      have h := ih d c b (cur ++ [t])
      rwa [List.append_assoc, List.singleton_append] at h
    have parted (d c : Int) (b : Bool) :
        cur ++ (termsFrom d c b [t] ts).flatten <+: cur ++ t :: ts :=
      (List.prefix_append_right_inj cur).2 (ih d c b [t])
    simp only [termsFrom]
    split
    · exact grown _ _ _
    · split
      · simp only [List.flatten_cons, List.singleton_append, List.prefix_append_right_inj,
          List.prefix_cons_inj]
        exact ih _ _ _ []
      · split
        · exact grown _ _ _
        · split
          · exact parted _ _ _
          · exact grown _ _ _

theorem isPrefix_flatten_terms (ts : List Token) : (terms ts).flatten <+: ts :=
  isPrefix_flatten_termsFrom 0 0 false [] ts

theorem isPrefix_flatten_joinTerms (ts : List Token) (parts : List (List Token))
    (h : joinTerms ts = .ok parts) : parts.flatten <+: ts := by
  unfold joinTerms at h
  split at h
  · cases h
  · cases h
    split
    · exact isPrefix_flatten_terms _
    · simp

theorem infix_of_mem_parts {parts : List (List Token)} {part run : List Token}
    (hflat : parts.flatten <+: part) (hpart : part <:+: run) : ∀ child ∈ parts, child <:+: run := by
  intro child hchild
  exact ((List.infix_of_mem_flatten hchild).trans hflat.isInfix).trans hpart

theorem Cut.Divides.isInfix {ts run : List Token} {cut : Cut} (h : cut.Divides ts) (hts : ts <:+: run) :
    cut.1 <:+: run ∧ cut.2 <:+: run := by
  have hleft : cut.1 <:+: ts := h.1 ▸ (List.prefix_append cut.1 cut.2).isInfix
  have hright : cut.2 <:+: ts := h.1 ▸ (List.suffix_append cut.1 cut.2).isInfix
  exact ⟨hleft.trans hts, hright.trans hts⟩

theorem splitCondition_pieces (own : String) (others : List String) (ts : List Token) :
    (splitCondition own others ts).Pieces ts := by
  have hhead : ts.take 1 <:+: ts := (List.take_prefix 1 ts).isInfix
  have hrest : ts.drop 1 <:+: ts := (List.drop_suffix 1 ts).isInfix
  unfold splitCondition
  split
  · next before rest h =>
    obtain ⟨hbefore, hafter⟩ := (cutClause_divides _ _ _ _ h).isInfix hrest
    exact ⟨hhead, infix_of_mem_parts (isPrefix_flatten_terms before) hbefore, hafter⟩
  · exact ⟨hhead, infix_of_mem_parts (isPrefix_flatten_terms _) hrest, List.nil_infix⟩

theorem splitKeys_pieces (own : String) (ts : List Token) : (splitKeys own ts).Pieces ts := by
  unfold splitKeys
  split
  · next before rest h =>
    obtain ⟨hbefore, hafter⟩ :=
      (cutClause_divides _ _ _ _ h).isInfix (List.drop_suffix 1 ts).isInfix
    refine ⟨(List.take_prefix _ ts).isInfix, ?_, hafter⟩
    rw [List.forall_mem_singleton]
    exact (List.drop_suffix _ before).isInfix.trans hbefore
  · exact Split.pieces_of_tokens (Split.tokens_below 2 ts)

theorem splitJoin_pieces (ts : List Token) (s : Split) (h : splitJoin ts = .ok s) : s.Pieces ts := by
  obtain ⟨head, joined, next, -, rfl, hs⟩ := splitJoin_cases ts s h
  obtain ⟨table, condition, parts, hc, hj, rfl⟩ | rfl := splitJoined_cases head joined next s hs
  · have hd : table ++ condition = joined := (cutLast_divides _ _ _ _ hc).1
    subst hd
    refine ⟨?_, ?_, (List.suffix_append _ _).isInfix⟩
    · rw [← List.append_assoc head, List.append_assoc (head ++ table)]
      exact (List.prefix_append _ _).isInfix
    · apply infix_of_mem_parts (isPrefix_flatten_joinTerms condition parts hj)
      rw [← List.append_assoc head]
      exact List.infix_append _ _ _
  · exact ⟨(List.prefix_append _ _).isInfix, by simp, (List.suffix_append _ _).isInfix⟩

theorem Rule.pieces {place : Place} {t : Token} {ts : List Token} {s : Split}
    (h : Rule place t ts s) : s.Pieces (t :: ts) := by
  obtain htokens | ⟨-, ⟨-, own, others, rfl⟩ | ⟨-, rfl⟩ | ⟨-, hjoin⟩⟩ := h.tokens_cases
  · exact Split.pieces_of_tokens htokens
  · exact splitCondition_pieces own others (t :: ts)
  · exact splitKeys_pieces t.key (t :: ts)
  · exact splitJoin_pieces (t :: ts) s hjoin

theorem splitLong_pieces (ts : List Token) (s : Split) (h : splitLong ts = .ok s) : s.Pieces ts := by
  match ts with
  | [] => cases h
  | t :: ts =>
    obtain ⟨-, before, mark, rest, he, -, rfl⟩ | ⟨-, rfl⟩ := splitLong_cases t ts s h
    · have hts : before ++ [mark] ++ rest = t :: ts := by rw [List.append_assoc, ← he]; rfl
      rw [← hts]
      exact ⟨(List.prefix_append _ _).isInfix,
        infix_of_mem_parts (isPrefix_flatten_terms rest) (List.suffix_append _ _).isInfix, List.nil_infix⟩
    · exact Split.pieces_of_tokens (splitLongBrackets_tokens _)

/-! ## No token comes twice -/

theorem splitCondition_sublist (own : String) (others : List String) (ts : List Token) :
    (splitCondition own others ts).tokens.Sublist ts := by
  unfold splitCondition
  split
  · next before rest h =>
    have hts : ts.take 1 ++ before ++ rest = ts := by
      rw [List.append_assoc, (cutClause_divides _ _ _ _ h).1, List.take_append_drop]
    have hterms := ((isPrefix_flatten_terms before).sublist.append_left (ts.take 1)).append_right rest
    rwa [hts] at hterms
  · have hterms := (isPrefix_flatten_terms (ts.drop 1)).sublist.append_left (ts.take 1)
    rw [List.take_append_drop] at hterms
    rwa [Split.tokens, List.append_nil]

theorem splitJoin_sublist (ts : List Token) (s : Split) (h : splitJoin ts = .ok s) : s.tokens.Sublist ts := by
  obtain ⟨head, joined, next, -, rfl, hs⟩ := splitJoin_cases ts s h
  obtain ⟨table, condition, parts, hc, hj, rfl⟩ | rfl := splitJoined_cases head joined next s hs
  · rw [← (cutLast_divides _ _ _ _ hc).1, ← List.append_assoc head]
    exact ((isPrefix_flatten_joinTerms condition parts hj).sublist.append_left _).append_right next
  · simp [Split.tokens]

/-- A grouping or an ordering may repeat the word that ends it, but not below its line or after it. -/
theorem splitKeys_sublist (own : String) (t : Token) (ts : List Token) :
    ((splitKeys own (t :: ts)).children.flatten ++ (splitKeys own (t :: ts)).sibling).Sublist ts := by
  unfold splitKeys
  split
  · next before rest h =>
    have hts : before ++ rest = ts := (cutClause_divides _ _ _ _ h).1
    simp only [List.flatten_cons, List.flatten_nil, List.append_nil]
    exact hts ▸ (List.drop_sublist _ before).append_right rest
  · simpa using List.tail_sublist ts

/-- The line of a grouping or an ordering holds no pair of brackets. -/
theorem splitLong_splitKeys (own : String) (t : Token) (ts : List Token) (hk : t.kind.isReserved = true)
    (hw : t.key ≠ "WHEN") :
    splitLong (splitKeys own (t :: ts)).own = .ok (.whole (splitKeys own (t :: ts)).own) := by
  obtain ⟨k, hown, hshort⟩ : ∃ k, (splitKeys own (t :: ts)).own = t :: ts.take k ∧
      (k = 1 ∨ k = 2 ∧ ((ts.drop 1).head?.any fun u => u.kind == .leftBracket) = true) := by
    unfold splitKeys
    split
    · split
      · next hb => exact ⟨2, rfl, .inr ⟨rfl, hb⟩⟩
      · exact ⟨1, rfl, .inl rfl⟩
    · exact ⟨1, rfl, .inl rfl⟩
  rw [hown, splitLong, if_neg hw]
  obtain hwhole | ⟨before, left, inside, right, after, he, hleft, hright, -⟩ :=
    splitLongBrackets_cases (t :: ts.take k)
  · rw [hwhole]
  · exfalso
    cases before with
    | nil =>
      obtain rfl := (List.cons.inj he).1
      rw [hleft] at hk
      cases hk
    | cons b before =>
      have htail : before ++ left :: (inside ++ right :: after) = ts.take k := (List.cons.inj he).2
      have hlength := congrArg List.length htail
      simp only [List.length_append, List.length_cons, List.length_take] at hlength
      obtain rfl | ⟨rfl, hb⟩ := hshort
      · omega
      · obtain rfl : before = [] := List.eq_nil_of_length_eq_zero (by omega)
        obtain rfl : inside = [] := List.eq_nil_of_length_eq_zero (by omega)
        match ts, htail with
        | u :: v :: rest, htail =>
          simp only [List.nil_append, List.take_succ_cons, List.take_zero, List.cons.injEq] at htail
          rw [← htail.2.1] at hb
          simp [hright] at hb

/-- By every rule no token comes twice, or else the line stays as it is, and no token comes twice below it
and after it. -/
theorem Rule.sublist {place : Place} {t : Token} {ts : List Token} {s : Split} (h : Rule place t ts s) :
    s.tokens.Sublist (t :: ts) ∨
      (s.children.flatten ++ s.sibling).Sublist ts ∧ splitLong s.own = .ok (.whole s.own) := by
  obtain htokens | ⟨hk, ⟨-, own, others, rfl⟩ | ⟨hw, rfl⟩ | ⟨-, hjoin⟩⟩ := h.tokens_cases
  · exact .inl (htokens ▸ .refl _)
  · exact .inl (splitCondition_sublist own others (t :: ts))
  · have hne : t.key ≠ "WHEN" := by rcases hw with hw | hw <;> simp [hw]
    exact .inr ⟨splitKeys_sublist t.key t ts, splitLong_splitKeys t.key t ts hk hne⟩
  · exact .inl (splitJoin_sublist (t :: ts) s hjoin)

theorem splitLong_sublist (ts : List Token) (s : Split) (h : splitLong ts = .ok s) : s.tokens.Sublist ts := by
  match ts with
  | [] => cases h
  | t :: ts =>
    obtain ⟨-, before, mark, rest, he, -, rfl⟩ | ⟨-, rfl⟩ := splitLong_cases t ts s h
    · have hts : before ++ [mark] ++ rest = t :: ts := by rw [List.append_assoc, ← he]; rfl
      rw [Split.tokens, List.append_nil, ← hts]
      exact (isPrefix_flatten_terms rest).sublist.append_left (before ++ [mark])
    · rw [splitLongBrackets_tokens]

end Clause
end SqlStyle
