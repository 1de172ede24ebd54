import SqlStyle.Proofs.Layout.Comments
import SqlStyle.Proofs.Layout.JoinSplits
import SqlStyle.Proofs.Layout.Spelling

/-! The layout of a statement whose joins are in full. The words that joins lack are put in once the lines are there,
so a line may be wider in the end than it was when it was measured. If every line that gets a word still fits, and the
words of each join follow each other, a name or a right bracket, growth makes the same lines of the statement with its
joins in full, and the layout is the same (`arrange_completeJoins`). -/
namespace SqlStyle.Layout
set_option autoImplicit false
open Clause SqlStyle.Tree

/-! ## Widths -/

theorem kind_head_completeFrom (style : KeywordStyle) (prev? : Option Token) (t : Token) (ts : List Token) :
    ∃ u us, completeFrom style prev? (t :: ts) = u :: us ∧ u.kind = t.kind := by
  rw [completeFrom_cons]
  rcases joinWord_word style prev? t with hnil | ⟨w, hw, ht, hjoin, -⟩
  · exact ⟨t, _, by rw [hnil]; rfl, rfl⟩
  · exact ⟨w, _, by rw [hw]; rfl,
      (isJoinWord_iff.1 hjoin).1.trans (isJoinWord_iff.1 (isJoinWord_of_join ht)).1.symm⟩

theorem spacedLength_le_cons (t : Token) (ts : List Token) : spacedLength ts ≤ spacedLength (t :: ts) := by
  cases ts with
  | nil => exact Nat.zero_le _
  | cons u us =>
    rw [spacedLength_cons_cons]
    omega

theorem spacedLength_completeFrom (style : KeywordStyle) (prev? : Option Token) (ts : List Token) :
    spacedLength ts ≤ spacedLength (completeFrom style prev? ts) := by
  induction ts generalizing prev? with
  | nil => exact Nat.le_refl _
  | cons t ts ih =>
    have hline : spacedLength (t :: ts) ≤ spacedLength (t :: completeFrom style (some t) ts) := by
      cases ts with
      | nil => exact Nat.le_refl _
      | cons u us =>
        have hrest := ih (some t)
        obtain ⟨v, vs, hvs, hkind⟩ := kind_head_completeFrom style (some t) u us
        rw [hvs] at hrest ⊢
        rw [spacedLength_cons_cons, spacedLength_cons_cons, gap_congr rfl hkind]
        omega
    rw [completeFrom_cons]
    rcases joinWord_word style prev? t with hnil | ⟨w, hw, -⟩
    · rwa [hnil]
    · rw [hw]
      exact hline.trans (spacedLength_le_cons w _)

/-! ## Growth -/

/-- A line that fits still fits with its joins in full. -/
def FitsFull (s : Settings) (n : Node) : Prop :=
  width s n.depth n.tokens ≤ s.maxLineLength →
    width s n.depth (completeJoins s.keywordStyle n.tokens) ≤ s.maxLineLength

instance (s : Settings) (n : Node) : Decidable (FitsFull s n) :=
  inferInstanceAs (Decidable (_ → _))

theorem breakLine_completeJoins (s : Settings) (depth : Int) (own : List Token) (long : Split)
    (hfollow : JoinsFollow own) (h : breakLine s depth own = .ok long)
    (hfits : long = .whole own → width s depth own ≤ s.maxLineLength →
      width s depth (completeJoins s.keywordStyle own) ≤ s.maxLineLength) :
    breakLine s depth (completeJoins s.keywordStyle own) = .ok (long.through (completeJoins s.keywordStyle)) := by
  have hwider : width s depth own ≤ width s depth (completeJoins s.keywordStyle own) := by
    have := spacedLength_completeFrom s.keywordStyle none own
    rw [width, width, completeJoins]
    omega
  unfold breakLine at h ⊢
  split at h
  · next hwidth =>
    cases h
    rw [if_pos (hfits rfl hwidth)]
    rfl
  · next hwidth =>
    rw [if_neg (by omega)]
    exact splitLong_completeJoins s.keywordStyle own long hfollow h

theorem callLine_mem_grow (s : Settings) (c : Call) (number : Nat) (hok : (grow s c.place number c.run).fault? = none) :
    ∀ d ∈ calls s c, ∃ k, callLine s k d ∈ forestNodes (grow s c.place number c.run).value := by
  induction c using (callees_wellFounded s).induction generalizing number with
  | _ c ih =>
    obtain ⟨-, hcallees, hvalue⟩ := grow_ok s c.place number c.run hok
    intro e he
    rw [hvalue, sprout, forestNodes_node_cons, forestNodes_flatMap, forestNodes_flatMap]
    rw [calls_eq] at he
    rcases List.mem_cons.1 he with rfl | he
    · exact ⟨number, List.mem_cons_self⟩
    · obtain ⟨d, hd, he⟩ := List.mem_flatMap.1 he
      obtain ⟨k, hk⟩ := ih d hd 0 (hcallees d hd) e he
      refine ⟨k, List.mem_cons_of_mem _ (List.mem_append.2 ?_)⟩
      rcases List.mem_append.1 hd with hd | hd
      · obtain ⟨run, hr, rfl⟩ := List.mem_map.1 hd
        exact .inl (List.mem_flatMap.2 ⟨run, hr, hk⟩)
      · obtain ⟨run, hr, rfl⟩ := List.mem_map.1 hd
        exact .inr (List.mem_flatMap.2 ⟨run, hr, hk⟩)

theorem namesFree_completeFrom (style : KeywordStyle) (prev? : Option Token) (ts : List Token)
    (h : NamesFree (prev?.toList ++ ts)) : NamesFree (prev?.toList ++ completeFrom style prev? ts) := by
  induction ts generalizing prev? with
  | nil => exact h
  | cons t ts ih =>
    have hrest : NamesFree (t :: completeFrom style (some t) ts) :=
      ih (some t) (h.piece (List.suffix_append prev?.toList (t :: ts)).isInfix)
    have hline : NamesFree (joinWord style prev? t ++ t :: completeFrom style (some t) ts) := by
      rcases joinWord_word style prev? t with hnil | ⟨w, hw, -, hjoin, -⟩
      · rwa [hnil]
      · rw [hw]
        refine List.isChain_cons_cons.2 ⟨fun _ hwith => ?_, hrest⟩
        exact absurd (isJoinWord_iff.1 hjoin).2 (by rw [hwith]; decide)
    cases prev? with
    | none => exact hline
    | some prev =>
      have hprev := (List.isChain_cons_cons.1 h).1
      rw [completeFrom_cons]
      rcases joinWord_word style (some prev) t with hnil | ⟨w, hw, ht, -⟩
      · rw [hnil] at hline ⊢
        exact List.isChain_cons_cons.2 ⟨hprev, hline⟩
      · rw [hw] at hline ⊢
        refine List.isChain_cons_cons.2 ⟨fun hk hwith => ?_, hline⟩
        have hfree := hprev hk hwith
        rw [(isJoinWord_iff.1 (isJoinWord_of_join ht)).1] at hfree
        cases hfree

/-- Growth makes the same lines of a run with its joins in full, if its lines still fit. -/
theorem grow_completeJoins (s : Settings) (c : Call) (number : Nat) (hparent : c.place.parent?.isSome = true)
    (hok : (grow s c.place number c.run).fault? = none) (hfollow : JoinsFollow c.run) (hnames : NamesFree c.run)
    (hfits : ∀ n ∈ forestNodes (grow s c.place number c.run).value, FitsFull s n) :
    grow s (c.place.map (fullHead s.keywordStyle)) number (completeJoins s.keywordStyle c.run) =
      ⟨mapForest (completedLine s.keywordStyle) (grow s c.place number c.run).value, none⟩ := by
  have hcalls := hnames.calls hok JoinsFollow hfollow fun _ _ h => h.piece
  apply grow_through (head?_completeJoins s.keywordStyle) s c number hparent hok
  intro d hd
  obtain ⟨hplanOk, hfree, hjoins⟩ := hcalls d hd
  apply plan_through (completeFrom_eq_nil s.keywordStyle none) s d.place _ d.run hplanOk
  · intro short hshort
    have hfull : NamesFree (completeJoins s.keywordStyle d.run) := namesFree_completeFrom s.keywordStyle none d.run hfree
    exact split_completeJoins s.keywordStyle d.place d.run short hjoins hfree.nameAfterWith hfull.nameAfterWith hshort
  · intro short long hshort hlong
    have hpiece := (split_pieces d.place d.run short hshort).own
    rw [hfree.nameAfterWith] at hpiece
    apply breakLine_completeJoins s d.place.depth short.own long (hjoins.piece hpiece) hlong
    rintro rfl
    obtain ⟨k, hk⟩ := callLine_mem_grow s c number hok d hd
    have hline := hfits _ hk
    rw [FitsFull, callLine, (plan_of_splits s d.place d.run short _ hshort hlong)] at hline
    exact hline

/-! ## The layout -/

/-- The words that joins are given can be read, and respelling them in the style changes nothing. -/
theorem lexical_spell (style : KeywordStyle) : ∀ word ∈ ["INNER", "OUTER"],
    Scan.Lexical ⟨.keyword, style.spell word, none⟩ ∧ CaseSafe ⟨.keyword, style.spell word, none⟩ ∧
      restyled style ⟨.keyword, style.spell word, none⟩ = ⟨.keyword, style.spell word, none⟩ := by
  have hwords : ∀ word ∈ ["INNER", "OUTER"], Reserved.isKeyword (style.spell word).toList = true ∧
      CaseSafe ⟨.keyword, style.spell word, none⟩ ∧
      restyled style ⟨.keyword, style.spell word, none⟩ = ⟨.keyword, style.spell word, none⟩ := by
    cases style <;> decide +kernel
  intro word hword
  obtain ⟨hreserved, hsafe, hstyled⟩ := hwords word hword
  exact ⟨⟨rfl, .inr hreserved⟩, hsafe, hstyled⟩

theorem recased_spell (style : KeywordStyle) : ∀ word ∈ ["INNER", "OUTER"],
    recased style ⟨.keyword, style.spell word, none⟩ = ⟨.keyword, style.spell word, none⟩ := by
  intro word hword
  obtain ⟨hlex, hsafe, hstyled⟩ := lexical_spell style word hword
  rw [recased_of_lexical style hlex hsafe, hstyled]

theorem forall_mem_completeFrom (style : KeywordStyle) (prev? : Option Token) (ts : List Token) (p : Token → Prop)
    (h : ∀ t ∈ ts, p t) (hword : ∀ word ∈ ["INNER", "OUTER"], p ⟨.keyword, style.spell word, none⟩) :
    ∀ t ∈ completeFrom style prev? ts, p t := by
  induction ts generalizing prev? with
  | nil => exact h
  | cons t ts ih =>
    obtain ⟨ht, hts⟩ := List.forall_mem_cons.1 h
    rw [completeFrom_cons, List.forall_mem_append, List.forall_mem_cons]
    refine ⟨?_, ht, ih (some t) hts⟩
    rcases joinWord_cases style prev? t with ⟨hnil, -⟩ | ⟨-, word, hmem, -, hw⟩
    · rw [hnil]
      exact List.forall_mem_nil p
    · rw [hw, List.forall_mem_singleton]
      exact hword word hmem

theorem hasLetters_completeJoins (style : KeywordStyle) (ts : List Token) (h : ∀ t ∈ ts, HasLetters t) :
    ∀ t ∈ completeJoins style ts, HasLetters t :=
  forall_mem_completeFrom style none ts HasLetters h fun word hword _ => (lexical_spell style word hword).1.word_ne

theorem completeFrom_recased (style : KeywordStyle) (prev? : Option Token) (ts : List Token) :
    completeFrom style (prev?.map (recased style)) (ts.map (recased style)) =
      (completeFrom style prev? ts).map (recased style) := by
  have hg := faithful_recased style
  have hmissing : ∀ prev? : Option Token, missingJoinWord (prev?.map (recased style)) = missingJoinWord prev? := by
    intro prev?
    cases prev? with
    | none => rfl
    | some prev => simp only [Option.map_some, missingJoinWord, hg.isKeywordOf]
  induction ts generalizing prev? with
  | nil => rfl
  | cons t ts ih =>
    have hword : joinWord style (prev?.map (recased style)) (recased style t) =
        (joinWord style prev? t).map (recased style) := by
      rw [joinWord, hmissing, hg.isKeyword, ← joinWord]
      rcases joinWord_cases style prev? t with ⟨hnil, -⟩ | ⟨-, word, hmem, -, hw⟩
      · rw [hnil]
        rfl
      · rw [hw, List.map_singleton, recased_spell style word hmem]
    rw [List.map_cons, completeFrom_cons, completeFrom_cons, hword, List.map_append, List.map_cons, ← ih (some t)]
    rfl

/-- Words that the style respells letter by letter can be written in the style before joins are completed, or after. -/
theorem written_eq_map (style : KeywordStyle) (ts : List Token)
    (h : ∀ t ∈ ts, restyled style t = recased style t) :
    written style ts = (completeJoins style ts).map (recased style) := by
  rw [written, List.map_congr_left h]
  exact completeFrom_recased style none ts

theorem written_completeJoins (style : KeywordStyle) (ts : List Token)
    (h : ∀ t ∈ ts, restyled style t = recased style t) :
    written style (completeJoins style ts) = written style ts := by
  have hfull : ∀ t ∈ completeJoins style ts, restyled style t = recased style t := by
    apply forall_mem_completeFrom style none ts _ h
    intro word hword
    obtain ⟨hlex, hsafe, -⟩ := lexical_spell style word hword
    exact (recased_of_lexical style hlex hsafe).symm
  rw [written_eq_map style ts h, written_eq_map style _ hfull]
  exact congrArg _ (completeFrom_completeFrom style style none ts)

/-- The joins of a run can be completed before its layout is made: the words of each join stand together, behind a name
or a right bracket, and lines that fit do so with their joins in full. -/
structure JoinsSettled (s : Settings) (ts : List Token) : Prop where
  follow : JoinsFollow ts
  fits : ∀ n ∈ (shape s ts).value.beneath, FitsFull s n

instance (s : Settings) (ts : List Token) : Decidable (JoinsSettled s ts) :=
  decidable_of_iff (JoinsFollow ts ∧ ∀ n ∈ (shape s ts).value.beneath, FitsFull s n)
    ⟨fun h => ⟨h.1, h.2⟩, fun h => ⟨h.follow, h.fits⟩⟩

theorem shape_completeJoins (s : Settings) (ts : List Token) (hnames : NamesFree ts)
    (hok : (shape s ts).fault? = none) (hjoins : JoinsSettled s ts) :
    shape s (completeJoins s.keywordStyle ts) =
      ⟨.node (top true) (mapForest (completedLine s.keywordStyle) (shape s ts).value.leaves), none⟩ := by
  have hgrow := grow_completeJoins s ⟨⟨1, some ⟨0, none⟩⟩, ts⟩ 1 rfl hok hjoins.follow hnames hjoins.fits
  rw [shape]
  exact congrArg (Edit.map _) hgrow

/-- A run with its joins in full has the layout of the run itself. -/
theorem arrange_completeJoins (s : Settings) (ts : List Token) (hne : ts ≠ [])
    (hletters : ∀ t ∈ ts, HasLetters t) (hstyled : ∀ t ∈ ts, restyled s.keywordStyle t = recased s.keywordStyle t)
    (hnames : NamesFree ts) (hok : (shape s ts).fault? = none) (hjoins : JoinsSettled s ts) :
    arrange s (completeJoins s.keywordStyle ts) = arrange s ts := by
  have hshape : shape s ts = ⟨.node (top true) (shape s ts).value.leaves, none⟩ := by
    rw [← hok]
    rfl
  have hforest : ∀ n ∈ forestNodes (shape s ts).value.leaves, ∀ t ∈ n.tokens,
      HasLetters t ∧ restyled s.keywordStyle t = recased s.keywordStyle t := fun n hn =>
    (forall_mem_tokens_grow s ⟨⟨1, some ⟨0, none⟩⟩, ts⟩ 1 _ hok hne (fun t ht => ⟨hletters t ht, hstyled t ht⟩)
      (fun t _ _ => ⟨by simp [HasLetters, Kind.isReserved], by simp [recased, restyled, Kind.isReserved]⟩) n hn).2
  rw [arrange, arrange, shape_completeJoins s ts hnames hok hjoins, hshape]
  apply finish_mapForest s (top true) _ _ fun n hn t ht => (hforest n hn t ht).1
  · exact fun n hn => hasLetters_completeJoins s.keywordStyle n.tokens fun t ht => (hforest n hn t ht).1
  · intro n hn
    exact congrArg (withTokens n) (written_completeJoins s.keywordStyle n.tokens fun t ht => (hforest n hn t ht).2)

theorem arrange_recased_completeJoins (s : Settings) (ts : List Token) (hne : ts ≠ [])
    (hletters : ∀ t ∈ ts, HasLetters t) (hstyled : ∀ t ∈ ts, restyled s.keywordStyle t = recased s.keywordStyle t)
    (hnames : NamesFree ts) (hok : (shape s ts).fault? = none) (hjoins : JoinsSettled s ts) :
    arrange s ((completeJoins s.keywordStyle ts).map (recased s.keywordStyle)) = arrange s ts := by
  rw [arrange_recased s, arrange_completeJoins s ts hne hletters hstyled hnames hok hjoins]
  · exact fun hnil => hne ((completeFrom_eq_nil s.keywordStyle none ts).1 hnil)
  · exact hasLetters_completeJoins s.keywordStyle ts hletters
  · exact namesFree_completeFrom s.keywordStyle none ts hnames
  · rw [shape_completeJoins s ts hnames hok hjoins]

end SqlStyle.Layout
