import SqlStyle.Layout
import SqlStyle.Proofs.Clause.Below
import SqlStyle.Proofs.Layout.Calls
import SqlStyle.Proofs.Tree.Tokens

/-! The order of the tokens in the lines that a run grows into. If every split parts its run, each token
of the run stands in one line, but not always where it stood: a line that is too long and is broken at a
pair of brackets puts the right bracket after the runs that were to go below the line. The order is kept
exactly if this never happens (`readAs_grown`, `calls_inOrder`). -/
namespace SqlStyle.Layout
set_option autoImplicit false
open Clause

/-! ## The tokens that a call grows into -/

/-- The tokens of the lines that a call grows into, in reading order. -/
def grown (s : Settings) (c : Call) : List Token :=
  Tree.forestTokens (grow s c.place 0 c.run).value

theorem flatMap_grown_callees (s : Settings) (c : Call) :
    (callees s c).flatMap (grown s) =
      Tree.forestTokens ((plan s c.place c.run).value.children.flatMap fun run =>
        (grow s (placeBelow c.place (plan s c.place c.run).value.own) 0 run).value) ++
      Tree.forestTokens ((plan s c.place c.run).value.siblings.flatMap fun run =>
        (grow s c.place 0 run).value) := by
  rw [callees, List.flatMap_append, List.flatMap_map, List.flatMap_map, Tree.forestTokens_flatMap,
    Tree.forestTokens_flatMap]
  rfl

theorem forestTokens_grow (s : Settings) (c : Call) (number : Nat)
    (h : (grow s c.place number c.run).fault? = none) :
    Tree.forestTokens (grow s c.place number c.run).value =
      (plan s c.place c.run).value.own ++ (callees s c).flatMap (grown s) := by
  obtain ⟨-, -, hvalue⟩ := grow_ok s c.place number c.run h
  rw [hvalue, Tree.forestTokens_cons, sprout, Tree.tokens_node, flatMap_grown_callees,
    List.append_assoc]

theorem flatten_filled (runs : List (List Token)) : (filled runs).flatten = runs.flatten := by
  induction runs with
  | nil => rfl
  | cons run runs ih =>
    rw [filled] at ih ⊢
    rw [List.filter_cons, List.flatten_cons]
    split
    · rw [List.flatten_cons, ih]
    · next he =>
      have hnil : run = [] := by simpa using he
      rw [ih, hnil, List.nil_append]

theorem flatMap_run_filled (place : Place) (runs : List (List Token)) :
    ((filled runs).map (Call.mk place)).flatMap Call.run = runs.flatten := by
  rw [← flatten_filled, List.flatMap_map, ← List.flatMap_id]
  rfl

/-! ## What one call does to the order -/

instance decidableOfOk {ε α : Type} (e : Except ε α) (p : α → Prop) [DecidablePred p] :
    Decidable (∀ a, e = .ok a → p a) :=
  match e with
  | .error _ => isTrue fun _ h => nomatch h
  | .ok a => decidable_of_iff (p a) ⟨fun h _ hb => Except.ok.inj hb ▸ h, fun h => h a rfl⟩

instance decidableExistsOk {ε α : Type} (e : Except ε α) (p : α → Prop) [DecidablePred p] :
    Decidable (∃ a, e = .ok a ∧ p a) :=
  match e with
  | .error _ => isFalse fun ⟨_, h, _⟩ => nomatch h
  | .ok a => decidable_of_iff (p a) ⟨fun h => ⟨a, rfl, h⟩, fun ⟨_, hb, h⟩ => Except.ok.inj hb ▸ h⟩

/-- The splits that a call makes part what they split. -/
def Call.Parts (s : Settings) (c : Call) : Prop :=
  ∀ short, split c.place c.run = .ok short → short.tokens = nameAfterWith c.run ∧
    ∀ long, breakLine s c.place.depth short.own = .ok long → long.tokens = short.own

instance (s : Settings) (c : Call) : Decidable (c.Parts s) :=
  inferInstanceAs (Decidable (∀ short, split c.place c.run = .ok short → _ ∧ ∀ _, _ → _))

/-- Not both of the splits that a call makes leave something over: a long line that is broken has nothing
after it, or the run has nothing below its line. -/
def Call.InOrder (s : Settings) (c : Call) : Prop :=
  ∀ short, split c.place c.run = .ok short → ∀ long, breakLine s c.place.depth short.own = .ok long →
    long.sibling = [] ∨ short.children.flatten = []

instance (s : Settings) (c : Call) : Decidable (c.InOrder s) :=
  inferInstanceAs (Decidable (∀ short, split c.place c.run = .ok short → ∀ _, _ → _))

/-- The calls for the runs that the broken line puts below it. -/
def firstCalls (place : Place) (long : Split) : List Call :=
  (filled long.children).map (Call.mk (placeBelow place long.own))

/-- The calls for all the other runs: those that the run puts below its line, then those after it. -/
def laterCalls (place : Place) (short long : Split) : List Call :=
  (filled short.children).map (Call.mk (placeBelow place long.own)) ++
    (filled [long.sibling, short.sibling]).map (Call.mk place)

theorem callees_eq (s : Settings) (c : Call) (short long : Split)
    (hplan : (plan s c.place c.run).value = ⟨long.own, filled (long.children ++ short.children),
      filled [long.sibling, short.sibling]⟩) :
    callees s c = firstCalls c.place long ++ laterCalls c.place short long := by
  rw [callees, hplan]
  simp only [firstCalls, laterCalls, filled, List.filter_append, List.map_append, List.append_assoc]

theorem runs_firstCalls (place : Place) (long : Split) :
    (firstCalls place long).flatMap Call.run = long.children.flatten :=
  flatMap_run_filled _ long.children

theorem runs_laterCalls (place : Place) (short long : Split) :
    (laterCalls place short long).flatMap Call.run =
      short.children.flatten ++ (long.sibling ++ short.sibling) := by
  rw [laterCalls, List.flatMap_append, flatMap_run_filled, flatMap_run_filled]
  simp only [List.flatten_cons, List.flatten_nil, List.append_nil]

theorem plan_tokens (s : Settings) (c : Call) (short long : Split)
    (hplan : (plan s c.place c.run).value = ⟨long.own, filled (long.children ++ short.children),
      filled [long.sibling, short.sibling]⟩) :
    (plan s c.place c.run).value.own ++ (callees s c).flatMap Call.run =
      long.own ++ (long.children.flatten ++ (short.children.flatten ++
        (long.sibling ++ short.sibling))) := by
  rw [callees_eq s c short long hplan, List.flatMap_append, runs_firstCalls, runs_laterCalls, hplan]

theorem run_tokens (c : Call) (short long : Split) (hshort : short.tokens = nameAfterWith c.run)
    (hlong : long.tokens = short.own) :
    nameAfterWith c.run = long.own ++ (long.children.flatten ++ (long.sibling ++
      (short.children.flatten ++ short.sibling))) := by
  rw [← hshort, Split.tokens, ← hlong, Split.tokens]
  simp only [List.append_assoc]

theorem length_plan (s : Settings) (c : Call) (hok : (plan s c.place c.run).fault? = none)
    (hparts : c.Parts s) :
    ((plan s c.place c.run).value.own ++ (callees s c).flatMap Call.run).length = c.run.length := by
  obtain ⟨short, long, hshort, hlong, hplan⟩ := plan_ok s c.place c.run hok
  obtain ⟨htokens, hbroken⟩ := hparts short hshort
  have hrun := congrArg List.length (run_tokens c short long htokens (hbroken long hlong))
  rw [length_nameAfterWith] at hrun
  rw [plan_tokens s c short long hplan, hrun]
  simp only [List.length_append]
  omega

theorem plan_inOrder (s : Settings) (c : Call) (hok : (plan s c.place c.run).fault? = none)
    (hparts : c.Parts s) (horder : c.InOrder s) :
    (plan s c.place c.run).value.own ++ (callees s c).flatMap Call.run = nameAfterWith c.run := by
  obtain ⟨short, long, hshort, hlong, hplan⟩ := plan_ok s c.place c.run hok
  obtain ⟨htokens, hbroken⟩ := hparts short hshort
  rw [plan_tokens s c short long hplan, run_tokens c short long htokens (hbroken long hlong)]
  rcases horder short hshort long hlong with hnil | hnil
  · rw [hnil, List.nil_append, List.nil_append]
  · rw [hnil, List.nil_append, List.nil_append]

/-! ## A run without a fault -/

theorem callee_ok (s : Settings) (c d : Call) (h : (grow s c.place 0 c.run).fault? = none)
    (hd : d ∈ callees s c) : (grow s d.place 0 d.run).fault? = none :=
  (grow_ok s c.place 0 c.run h).2.1 d hd

/-- If every call is in order, the tokens of the lines are those of the run. -/
theorem readAs_grown (s : Settings) (c : Call) (hok : (grow s c.place 0 c.run).fault? = none)
    (hparts : ∀ d ∈ calls s c, d.Parts s) (horder : ∀ d ∈ calls s c, d.InOrder s) :
    List.Forall₂ Token.ReadAs c.run (grown s c) := by
  induction c using (callees_wellFounded s).induction with
  | _ c ih =>
    have hself := mem_calls_self s c
    have hplan := plan_inOrder s c (grow_ok s c.place 0 c.run hok).1 (hparts c hself) (horder c hself)
    have hbelow : List.Forall₂ Token.ReadAs ((callees s c).flatMap Call.run)
        ((callees s c).flatMap (grown s)) := by
      refine List.rel_flatMap (List.forall₂_same.2 fun d hd => ?_) fun d e hde => hde
      exact ih d hd (callee_ok s c d hok hd)
        (fun e he => hparts e (mem_calls_of_callee s c d e hd he))
        (fun e he => horder e (mem_calls_of_callee s c d e hd he))
    apply Token.readAs_trans (nameAfterWith_readAs c.run)
    rw [← hplan, grown, forestTokens_grow s c 0 hok]
    exact List.rel_append (Token.readAs_refl _) hbelow

theorem length_flatMap_congr {α β γ : Type} (f : α → List β) (g : α → List γ) (as : List α)
    (h : ∀ a ∈ as, (f a).length = (g a).length) : (as.flatMap f).length = (as.flatMap g).length := by
  rw [List.length_flatMap, List.length_flatMap, List.map_congr_left h]

theorem length_grown (s : Settings) (c : Call) (hok : (grow s c.place 0 c.run).fault? = none)
    (hparts : ∀ d ∈ calls s c, d.Parts s) : (grown s c).length = c.run.length := by
  induction c using (callees_wellFounded s).induction with
  | _ c ih =>
    have hplan := length_plan s c (grow_ok s c.place 0 c.run hok).1 (hparts c (mem_calls_self s c))
    have hbelow : ((callees s c).flatMap (grown s)).length =
        ((callees s c).flatMap Call.run).length := by
      apply length_flatMap_congr
      intro d hd
      exact ih d hd (callee_ok s c d hok hd) fun e he => hparts e (mem_calls_of_callee s c d e hd he)
    rw [grown, forestTokens_grow s c 0 hok, List.length_append, hbelow, ← hplan, List.length_append]

/-! ## Out of order -/

theorem run_ne_nil_of_mem_callees (s : Settings) (c d : Call)
    (hok : (plan s c.place c.run).fault? = none) (hd : d ∈ callees s c) : d.run ≠ [] := by
  obtain ⟨short, long, -, -, hplan⟩ := plan_ok s c.place c.run hok
  rw [callees, hplan] at hd
  rcases List.mem_append.1 hd with hd | hd
  all_goals
    obtain ⟨run, hr, rfl⟩ := List.mem_map.1 hd
    simpa using (List.mem_filter.1 hr).2

theorem breakLine_begins (s : Settings) (depth : Int) (own : List Token) (long : Split)
    (hne : own ≠ []) (h : breakLine s depth own = .ok long) : long.Begins own := by
  obtain rfl | hbroken := breakLine_cases s depth own long h
  · exact ⟨hne, List.prefix_rfl⟩
  · exact splitLong_begins own long hbroken

theorem plan_begins (s : Settings) (c : Call) (t : Token) (ts : List Token)
    (hok : (plan s c.place c.run).fault? = none) (hrun : c.run = t :: ts) :
    ∃ us, (plan s c.place c.run).value.own = t :: us := by
  obtain ⟨short, long, hshort, hlong, hplan⟩ := plan_ok s c.place c.run hok
  rw [hrun] at hshort
  obtain ⟨rest, hname, hrule⟩ := split_rule c.place t ts short hshort
  obtain ⟨us, hown⟩ := hrule.begins.exists_cons
  rw [hown] at hlong
  rw [hplan]
  exact (breakLine_begins s _ _ long (List.cons_ne_nil t us) hlong).exists_cons

theorem head?_plan (s : Settings) (c : Call) (hok : (plan s c.place c.run).fault? = none) :
    (plan s c.place c.run).value.own.head? = c.run.head? := by
  cases hrun : c.run with
  | nil => simp [plan, planFrom, split, Split.whole, splitLong, apply_ite]
  | cons t ts =>
    obtain ⟨us, hown⟩ := plan_begins s c t ts hok hrun
    rw [← hrun, hown, hrun]
    rfl

theorem own_ne_nil (s : Settings) (c : Call) (hok : (plan s c.place c.run).fault? = none)
    (hne : c.run ≠ []) : (plan s c.place c.run).value.own ≠ [] := by
  obtain ⟨t, ts, hrun⟩ := List.exists_cons_of_ne_nil hne
  obtain ⟨us, hown⟩ := plan_begins s c t ts hok hrun
  rw [hown]
  exact List.cons_ne_nil t us

theorem head?_grown (s : Settings) (c : Call) (hok : (grow s c.place 0 c.run).fault? = none)
    (hne : c.run ≠ []) : (grown s c).head? = c.run.head? := by
  obtain ⟨t, ts, hrun⟩ := List.exists_cons_of_ne_nil hne
  obtain ⟨us, hown⟩ := plan_begins s c t ts (grow_ok s c.place 0 c.run hok).1 hrun
  rw [grown, forestTokens_grow s c 0 hok, hown, hrun]
  rfl

theorem head?_flatMap_grown (s : Settings) (cs : List Call)
    (hok : ∀ c ∈ cs, (grow s c.place 0 c.run).fault? = none) (hne : ∀ c ∈ cs, c.run ≠ []) :
    (cs.flatMap (grown s)).head? = (cs.flatMap Call.run).head? := by
  match cs with
  | [] => rfl
  | c :: cs =>
    have hhead := head?_grown s c (hok c List.mem_cons_self) (hne c List.mem_cons_self)
    obtain ⟨t, ts, hrun⟩ := List.exists_cons_of_ne_nil (hne c List.mem_cons_self)
    rw [hrun, List.head?_cons] at hhead
    rw [List.flatMap_cons, List.flatMap_cons, List.head?_append, hhead, hrun]
    rfl

/-- If a call leaves something below its line and something after the line that is broken, the former are
the branches of a case or the condition of a join, and the latter begins with a right bracket. -/
theorem heads_of_crossing (s : Settings) (c : Call) (short long : Split)
    (hshort : split c.place c.run = .ok short) (hlong : breakLine s c.place.depth short.own = .ok long)
    (htokens : short.tokens = nameAfterWith c.run) (hsibling : long.sibling ≠ [])
    (hchildren : short.children.flatten ≠ []) :
    (∃ t ∈ c.run, ∃ u us, short.children.flatten = u :: us ∧
        (u.isKeyword "WHEN" = true ∨ (t.key ∈ joinWords ∧ isJoinCondition u = true))) ∧
      ∃ right after, long.sibling = right :: after ∧ right.kind = .rightBracket := by
  have hbroken : splitLong short.own = .ok long := by
    obtain rfl | hbroken := breakLine_cases s c.place.depth short.own long hlong
    · exact absurd rfl hsibling
    · exact hbroken
  obtain ⟨hpair, hright⟩ := splitLong_sibling short.own long hbroken hsibling
  refine ⟨?_, hright⟩
  match hrun : c.run with
  | [] =>
    rw [hrun] at hshort
    cases hshort
    exact absurd rfl hchildren
  | t :: ts =>
    rw [hrun] at hshort htokens
    obtain ⟨rest, hname, hrule⟩ := split_rule c.place t ts short hshort
    obtain ⟨u, us, hu⟩ := List.exists_cons_of_ne_nil hchildren
    exact ⟨t, List.mem_cons_self, u, us, hu, hrule.guarded (htokens.trans hname) hpair u us hu⟩

/-- If the lines hold the tokens of the run in order, a call does not leave something over twice: it would
put a reserved word in the place of a right bracket. -/
theorem inOrder_of_grown (s : Settings) (c : Call) (hok : (grow s c.place 0 c.run).fault? = none)
    (hparts : ∀ d ∈ calls s c, d.Parts s)
    (hsame : (grown s c).map Token.asName = c.run.map Token.asName) : c.InOrder s := by
  intro short hshort long hlong
  by_contra hcross
  obtain ⟨hsibling, hchildren⟩ := not_or.1 hcross
  obtain ⟨htokens, hbroken⟩ := hparts c (mem_calls_self s c) short hshort
  obtain ⟨⟨t, -, u, us, hu, hguard⟩, right, after, hright, hkind⟩ :=
    heads_of_crossing s c short long hshort hlong htokens hsibling hchildren
  obtain ⟨hplanOk, hcallees, -⟩ := grow_ok s c.place 0 c.run hok
  obtain ⟨short', long', hshort', hlong', hplan⟩ := plan_ok s c.place c.run hplanOk
  obtain rfl := Except.ok.inj (hshort.symm.trans hshort')
  obtain rfl := Except.ok.inj (hlong.symm.trans hlong')
  have hsplit := callees_eq s c short long hplan
  have hlength : ((firstCalls c.place long).flatMap (grown s)).length =
      long.children.flatten.length := by
    rw [← runs_firstCalls c.place long]
    apply length_flatMap_congr
    intro d hd
    have hmem : d ∈ callees s c := hsplit ▸ List.mem_append_left _ hd
    exact length_grown s d (hcallees d hmem) fun e he =>
      hparts e (mem_calls_of_callee s c d e hmem he)
  have hheads : ((laterCalls c.place short long).flatMap (grown s)).head? = some u := by
    have hmem : ∀ d ∈ laterCalls c.place short long, d ∈ callees s c :=
      fun d hd => hsplit ▸ List.mem_append_right _ hd
    rw [head?_flatMap_grown s _ (fun d hd => hcallees d (hmem d hd))
      (fun d hd => run_ne_nil_of_mem_callees s c d hplanOk (hmem d hd)), runs_laterCalls, hu]
    rfl
  -- the tokens of the first calls are as many as those they were given, so the rest can be compared
  have hrun := run_tokens c short long htokens (hbroken long hlong)
  rw [← Token.map_asName_of_readAs (nameAfterWith_readAs c.run), hrun, grown,
    forestTokens_grow s c 0 hok, hsplit, hplan, List.flatMap_append] at hsame
  simp only [List.map_append, List.append_cancel_left_eq] at hsame
  have hrest := (List.append_inj hsame (by simp only [List.length_map, hlength])).2
  have hfirst := congrArg List.head? hrest
  rw [List.head?_map, hheads, hright, List.map_cons, List.cons_append, List.head?_cons,
    Option.map_some, Option.some.injEq] at hfirst
  have hname := Token.kind_asName_of_reserved (isReserved_of_guard hguard)
  rw [hfirst, Token.asName_of_not_reserved (by rw [hkind]; rfl), hkind] at hname
  cases hname

/-! ## The whole run -/

theorem map_eq_of_flatMap {α β γ : Type} (h : β → γ) (f g : α → List β) (as : List α)
    (hlength : ∀ a ∈ as, (f a).length = (g a).length)
    (heq : (as.flatMap f).map h = (as.flatMap g).map h) : ∀ a ∈ as, (f a).map h = (g a).map h := by
  induction as with
  | nil => simp
  | cons a as ih =>
    rw [List.flatMap_cons, List.flatMap_cons, List.map_append, List.map_append] at heq
    obtain ⟨hhead, htail⟩ := List.append_inj heq
      (by rw [List.length_map, List.length_map, hlength a List.mem_cons_self])
    exact List.forall_mem_cons.2
      ⟨hhead, ih (fun b hb => hlength b (List.mem_cons_of_mem a hb)) htail⟩

/-- If the lines hold the tokens of the run in order, every call is in order. -/
theorem calls_inOrder (s : Settings) (c : Call) (hok : (grow s c.place 0 c.run).fault? = none)
    (hparts : ∀ d ∈ calls s c, d.Parts s)
    (hsame : (grown s c).map Token.asName = c.run.map Token.asName) :
    ∀ d ∈ calls s c, d.InOrder s := by
  induction c using (callees_wellFounded s).induction with
  | _ c ih =>
    have hself := inOrder_of_grown s c hok hparts hsame
    have hplan := plan_inOrder s c (grow_ok s c.place 0 c.run hok).1 (hparts c (mem_calls_self s c))
      hself
    have hcallee : ∀ d ∈ callees s c, ∀ e ∈ calls s d, e.Parts s :=
      fun d hd e he => hparts e (mem_calls_of_callee s c d e hd he)
    have hbelow : ∀ d ∈ callees s c, (grown s d).map Token.asName = d.run.map Token.asName := by
      apply map_eq_of_flatMap
      · intro d hd
        exact length_grown s d (callee_ok s c d hok hd) (hcallee d hd)
      · rw [← Token.map_asName_of_readAs (nameAfterWith_readAs c.run), ← hplan, grown,
          forestTokens_grow s c 0 hok] at hsame
        simpa only [List.map_append, List.append_cancel_left_eq] using hsame
    intro e he
    rw [calls_eq] at he
    rcases List.mem_cons.1 he with rfl | he
    · exact hself
    · obtain ⟨d, hd, he⟩ := List.mem_flatMap.1 he
      exact ih d hd (callee_ok s c d hok hd) (hcallee d hd) (hbelow d hd) e he

theorem fault?_grow (s : Settings) (place : Place) (number : Nat) (ts : List Token) :
    (grow s place number ts).fault? = (grow s place 0 ts).fault? := by
  rw [grow_eq, grow_eq]
  simp only [growStep]
  split
  · rfl
  · split
    · rfl
    · split <;> rfl

theorem tokens_shape (s : Settings) (ts : List Token) (hok : (shape s ts).fault? = none) :
    (grow s ⟨1, some ⟨0, none⟩⟩ 0 ts).fault? = none ∧
      (shape s ts).value.tokens = grown s ⟨⟨1, some ⟨0, none⟩⟩, ts⟩ := by
  have hgrow : (grow s ⟨1, some ⟨0, none⟩⟩ 1 ts).fault? = none := hok
  have hzero := fault?_grow s ⟨1, some ⟨0, none⟩⟩ 1 ts
  rw [hgrow] at hzero
  have hone := forestTokens_grow s ⟨⟨1, some ⟨0, none⟩⟩, ts⟩ 1 hgrow
  refine ⟨hzero.symm, ?_⟩
  rw [grown, forestTokens_grow s ⟨⟨1, some ⟨0, none⟩⟩, ts⟩ 0 hzero.symm, ← hone]
  exact Tree.tokens_node _ _

/-- If the splits that are made while a run is broken into lines part what they split, then the lines hold
the tokens of the run in order exactly if every call is in order. -/
theorem tokens_shape_iff (s : Settings) (ts : List Token) (hok : (shape s ts).fault? = none)
    (hparts : ∀ c ∈ calls s ⟨⟨1, some ⟨0, none⟩⟩, ts⟩, c.Parts s) :
    List.Forall₂ Token.ReadAs ts (shape s ts).value.tokens ↔
      ∀ c ∈ calls s ⟨⟨1, some ⟨0, none⟩⟩, ts⟩, c.InOrder s := by
  obtain ⟨hgrow, htokens⟩ := tokens_shape s ts hok
  rw [htokens]
  constructor
  · intro hsame
    exact calls_inOrder s _ hgrow hparts (Token.map_asName_of_readAs hsame)
  · intro horder
    exact readAs_grown s ⟨⟨1, some ⟨0, none⟩⟩, ts⟩ hgrow hparts horder

def longCall : List Token :=
  [⟨.identifier, "f", none⟩, ⟨.leftBracket, "(", none⟩, ⟨.identifier, "aaaaaaaaaaaaaaaa", none⟩,
    ⟨.comma, ",", none⟩, ⟨.identifier, "bbbbbbbbbbbbbbbb", none⟩, ⟨.rightBracket, ")", none⟩]

def queryOfCall : List Token :=
  ⟨.keyword, "select", none⟩ :: longCall ++ [⟨.keyword, "from", none⟩, ⟨.identifier, "t", none⟩]

theorem tokens_shape_of_query :
    List.Forall₂ Token.ReadAs queryOfCall
      (shape ⟨32, .head, .lower, 4⟩ queryOfCall).value.tokens :=
  (tokens_shape_iff _ _ (by decide +kernel) (by decide +kernel)).2 (by decide +kernel)

def caseOfCall : List Token :=
  ⟨.keyword, "case", none⟩ :: longCall ++
    [⟨.keyword, "when", none⟩, ⟨.identifier, "1", none⟩, ⟨.keyword, "then", none⟩,
      ⟨.identifier, "2", none⟩, ⟨.keyword, "end", none⟩]

/-- The bracket that closes the call comes behind the branches of the case, though every split parts what
it splits. -/
theorem tokens_shape_of_case :
    (shape ⟨32, .head, .lower, 4⟩ caseOfCall).fault? = none ∧
      (∀ c ∈ calls ⟨32, .head, .lower, 4⟩ ⟨⟨1, some ⟨0, none⟩⟩, caseOfCall⟩,
        c.Parts ⟨32, .head, .lower, 4⟩) ∧
      ¬ List.Forall₂ Token.ReadAs caseOfCall
        (shape ⟨32, .head, .lower, 4⟩ caseOfCall).value.tokens := by
  decide +kernel

end SqlStyle.Layout
