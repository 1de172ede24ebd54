import Mathlib.Data.List.Perm.Subperm
import SqlStyle.Proofs.Layout.Lines
import SqlStyle.Session

/-! Growth in a session. A session passes the marks of the names that it has read from one run to the next, since a token
that stands at two places is a name at both. Where every token of a run has a mark of its own, no name that has been read
stands in another run, and a session grows the run into the trees of the layout (`grow_eq_layout`). The tokens of a tree
that is new to a session are of this kind (`grow_enroll`). -/
namespace SqlStyle

/-! ## What is left below a line and after it -/

namespace Layout
set_option autoImplicit false
open Clause

theorem breakLine_sublist (s : Settings) (depth : Int) (own : List Token) (long : Split)
    (h : breakLine s depth own = .ok long) : long.tokens.Sublist own := by
  obtain rfl | hbroken := breakLine_cases s depth own long h
  · rw [Split.tokens_whole]
  · exact splitLong_sublist own long hbroken

theorem runs_callees (s : Settings) (c : Call) :
    (callees s c).flatMap Call.run =
      (plan s c.place c.run).value.children.flatten ++ (plan s c.place c.run).value.siblings.flatten := by
  rw [callees, List.flatMap_append, List.flatMap_map, List.flatMap_map, List.flatMap_id', List.flatMap_id']

/-- The runs of the callees hold no token twice, and not the token that the run begins with. -/
theorem callees_subperm (s : Settings) (c : Call) (hok : (plan s c.place c.run).fault? = none) :
    ((callees s c).flatMap Call.run).Subperm (nameAfterWith c.run).tail := by
  obtain ⟨short, long, hshort, hlong, hplan⟩ := plan_ok s c.place c.run hok
  rw [callees_eq s c short long hplan, List.flatMap_append, runs_firstCalls, runs_laterCalls]
  cases hrun : c.run with
  | nil =>
    rw [hrun] at hshort
    cases hshort
    obtain rfl | hbroken := breakLine_cases s c.place.depth _ long hlong
    · simp [Split.whole]
    · cases hbroken
  | cons t ts =>
    rw [hrun] at hshort
    obtain ⟨rest, hname, hrule⟩ := split_rule c.place t ts short hshort
    rw [hname, List.tail_cons]
    obtain hshortSub | ⟨hshortSub, hwhole⟩ := hrule.sublist
    · obtain ⟨us, hus⟩ := hrule.begins.exists_cons
      rw [hus] at hlong
      obtain ⟨vs, hvs⟩ := (breakLine_begins s _ _ long (List.cons_ne_nil t us) hlong).exists_cons
      have hlongSub := breakLine_sublist s _ _ long hlong
      rw [Split.tokens, hvs, List.cons_append, List.cons_append, List.cons_sublist_cons, List.append_assoc] at hlongSub
      rw [Split.tokens, hus, List.cons_append, List.cons_append, List.cons_sublist_cons, List.append_assoc] at hshortSub
      have hsub := (((List.sublist_append_right vs _).trans hlongSub).append_right
        (short.children.flatten ++ short.sibling)).trans hshortSub
      rw [List.append_assoc] at hsub
      exact ((List.perm_append_comm_assoc ..).append_left long.children.flatten).subperm.trans hsub.subperm
    · obtain rfl : long = .whole short.own := by
        obtain rfl | hbroken := breakLine_cases s _ _ long hlong
        · rfl
        · exact Except.ok.inj (hbroken.symm.trans hwhole)
      simpa [Split.whole] using hshortSub.subperm

end Layout

namespace Session
set_option autoImplicit false
open Clause Layout

/-! ## Marks -/

def marks (ts : List Token) : List Nat :=
  ts.filterMap Token.mark

/-- The token is a name already, if it bears one of the marks. -/
def Settled (names : List Nat) (t : Token) : Prop :=
  ∀ m ∈ t.mark, m ∈ names → t.kind = .identifier

theorem Settled.asName {names : List Nat} {t : Token} (h : Settled names t) : asName names t = t := by
  unfold Session.asName
  split
  · next hmark =>
    obtain ⟨m, hm, hnames⟩ := (Option.any_eq_true _ _).1 hmark
    rw [← h m hm (List.contains_iff_mem.1 hnames)]
  · rfl

theorem mem_marks {ts : List Token} {t : Token} {m : Nat} (ht : t ∈ ts) (hm : m ∈ t.mark) : m ∈ marks ts :=
  List.mem_filterMap.2 ⟨t, ht, hm⟩

theorem marks_append (ts us : List Token) : marks (ts ++ us) = marks ts ++ marks us :=
  List.filterMap_append

theorem marks_subset {ts us : List Token} (h : ts ⊆ us) : marks ts ⊆ marks us := by
  intro m hm
  obtain ⟨t, ht, hm⟩ := List.mem_filterMap.1 hm
  exact mem_marks (h ht) hm

theorem marks_cons (t : Token) (ts : List Token) : marks (t :: ts) = t.mark.toList ++ marks ts := by
  unfold marks
  cases hm : t.mark <;> simp [hm]

theorem marks_nameAfterWith (ts : List Token) : marks (nameAfterWith ts) = marks ts := by
  cases ts with
  | nil => rfl
  | cons t ts =>
    obtain hsame | ⟨name, rest, rfl, -, -, -, hname⟩ := nameAfterWith_cases t ts
    · rw [hsame]
    · rw [hname]
      rfl

theorem namesAfter_cases (names : List Nat) (ts : List Token) (h : ∀ t ∈ ts, Settled names t) :
    nameAfterWith ts = ts ∧ namesAfter names ts = names ∨
      ∃ head name rest, ts = head :: name :: rest ∧
        nameAfterWith ts = head :: { name with kind := .identifier } :: rest ∧
        namesAfter names ts = name.mark.toList ++ names := by
  have hmap : ts.map (asName names) = ts :=
    (List.map_congr_left fun t ht => (h t ht).asName).trans (List.map_id' ts)
  have hsame (us : List Token) : ((us.zip us).filter fun x => x.1.kind != x.2.kind) = [] := by
    induction us with
    | nil => rfl
    | cons u us ih => simp [ih]
  have hafter : namesAfter names ts = ((ts.zip (nameAfterWith ts)).filter fun x => x.1.kind != x.2.kind).filterMap
      (fun x => x.1.mark) ++ names := by
    simp only [namesAfter, hmap]
  rw [hafter]
  cases ts with
  | nil => exact .inl ⟨rfl, rfl⟩
  | cons t ts =>
    obtain hname | ⟨name, rest, rfl, -, -, hk, hname⟩ := nameAfterWith_cases t ts
    · exact .inl ⟨hname, by rw [hname, hsame]; rfl⟩
    · refine .inr ⟨t, name, rest, rfl, hname, ?_⟩
      have hne : name.kind ≠ .identifier := by
        intro hi
        rw [hi] at hk
        cases hk
      rw [hname]
      simp only [List.zip_cons_cons, List.filter_cons, bne_self_eq_false, Bool.false_eq_true, if_false,
        bne_iff_ne.2 hne, hsame, if_true, List.filterMap_cons, List.filterMap_nil]
      cases name.mark <;> rfl

/-! ## Runs in a session -/

/-- The tokens of the run bear different marks, and no mark makes a name of them or of the head of the line above. -/
structure Ready (names : List Nat) (place : Place) (ts : List Token) : Prop where
  distinct : (marks ts).Nodup
  settled : ∀ t ∈ ts, Settled names t
  head : ∀ t ∈ place.parent?.bind Parent.head?, Settled names t ∧ ∀ m ∈ t.mark, m ∉ marks ts

theorem Settled.of_subset {names more added : List Nat} {t : Token} (h : Settled names t)
    (hmore : more ⊆ names ++ added) (ht : ∀ m ∈ t.mark, m ∉ added) : Settled more t := by
  intro m hm hmem
  rcases List.mem_append.1 (hmore hmem) with hold | hnew
  · exact h m hm hold
  · exact absurd hnew (ht m hm)

/-- One run after the other can be read, since a run adds no marks but its own. -/
theorem Ready.append {names : List Nat} {place : Place} {ts us : List Token} (h : Ready names place (ts ++ us)) :
    Ready names place ts ∧ ∀ more, more ⊆ names ++ marks ts → Ready more place us := by
  have hmarks : marks (ts ++ us) = marks ts ++ marks us := List.filterMap_append
  obtain ⟨hdistinct, hsettled, hhead⟩ := h
  rw [hmarks, List.nodup_append] at hdistinct
  simp only [hmarks, List.mem_append, not_or] at hhead
  obtain ⟨hts, hus, hapart⟩ := hdistinct
  refine ⟨⟨hts, fun t ht => hsettled t (List.mem_append_left us ht),
    fun t ht => ⟨(hhead t ht).1, fun m hm => ((hhead t ht).2 m hm).1⟩⟩, fun more hmore => ⟨hus, fun t ht => ?_, fun t ht => ?_⟩⟩
  · apply (hsettled t (List.mem_append_right ts ht)).of_subset hmore
    intro m hm hmem
    exact hapart m hmem m (mem_marks ht hm) rfl
  · obtain ⟨hold, hnew⟩ := hhead t ht
    exact ⟨hold.of_subset hmore fun m hm => (hnew m hm).1, fun m hm => (hnew m hm).2⟩

theorem Ready.readRun {names : List Nat} {place : Place} {ts : List Token} (h : Ready names place ts) :
    readRun names ts = nameAfterWith ts ∧ (∀ t ∈ nameAfterWith ts, Settled (namesAfter names ts) t) ∧
      namesAfter names ts ⊆ names ++ marks ts := by
  have hsettled : (∀ t ∈ nameAfterWith ts, Settled (namesAfter names ts) t) ∧ namesAfter names ts ⊆ names ++ marks ts := by
    obtain ⟨hname, hafter⟩ | ⟨head, name, rest, rfl, hname, hafter⟩ := namesAfter_cases names ts h.settled
    · rw [hname, hafter]
      exact ⟨h.settled, List.subset_append_left _ _⟩
    · have hdistinct := h.distinct
      rw [marks_cons, marks_cons, List.nodup_append, List.nodup_append] at hdistinct
      obtain ⟨-, ⟨-, -, hrest⟩, hhead⟩ := hdistinct
      have hadded : name.mark.toList ++ names ⊆ names ++ name.mark.toList := fun m hm => by
        rw [List.mem_append] at hm ⊢
        exact hm.symm
      rw [hname, hafter, List.forall_mem_cons, List.forall_mem_cons]
      refine ⟨⟨?_, fun _ _ _ => rfl, fun t ht => ?_⟩, ?_⟩
      · apply (h.settled head List.mem_cons_self).of_subset hadded
        intro m hm hmem
        exact hhead m (Option.mem_toList.2 hm) m (List.mem_append_left _ hmem) rfl
      · apply (h.settled t (List.mem_cons_of_mem _ (List.mem_cons_of_mem _ ht))).of_subset hadded
        intro m hm hmem
        exact hrest m hmem m (mem_marks ht hm) rfl
      · rw [marks_cons, marks_cons]
        intro m hm
        simp only [List.mem_append] at hm ⊢
        exact hm.elim (fun hnew => .inr (.inr (.inl hnew))) .inl
  refine ⟨?_, hsettled⟩
  rw [Session.readRun, List.map_congr_left (g := id) fun t ht => (h.settled t ht).asName, List.map_id,
    List.map_congr_left (g := id) fun t ht => (hsettled.1 t ht).asName, List.map_id]

theorem Ready.splitRun {names : List Nat} {place : Place} {ts : List Token} (h : Ready names place ts) :
    splitRun names place ts = split place ts := by
  have hplace : namedPlace names place = place := by
    obtain ⟨depth, parent?⟩ := place
    have hhead := h.head
    match parent? with
    | none => rfl
    | some ⟨above, none⟩ => rfl
    | some ⟨above, some t⟩ =>
      have ht := (hhead t rfl).1.asName
      simp [namedPlace, ht]
  have hmap : ts.map (asName names) = ts :=
    (List.map_congr_left fun t ht => (h.settled t ht).asName).trans (List.map_id' ts)
  rw [Session.splitRun, h.readRun.1, hplace, hmap]
  cases ts with
  | nil => rfl
  | cons t ts =>
    by_cases hwith : t.kind.isReserved = true ∧ t.key = "WITH"
    · rw [if_pos (by simp [hwith]), split_of_with hwith.1 hwith.2]
    · obtain hname | ⟨-, -, -, hk, hw, -⟩ := nameAfterWith_cases t ts
      · rw [if_neg (by simpa using hwith), hname]
      · exact absurd ⟨hk, hw⟩ hwith

/-! ## Growth -/

theorem collectWith_attach {α β σ : Type} (f : α → σ → Edit (List β) × σ) (as : List α) (state : σ) :
    collectWith (fun a => f a.1) as.attach state = collectWith f as state := by
  suffices h : ∀ (bs : List α) (P : α → Prop) (hP : ∀ b ∈ bs, P b) (state : σ),
      collectWith (fun a : { x // P x } => f a.1) (bs.attachWith P hP) state = collectWith f bs state from
    h as (· ∈ as) (fun _ ha => ha) state
  intro bs P hP
  induction bs with
  | nil => exact fun _ => rfl
  | cons b bs ih =>
    intro state
    simp only [List.attachWith_cons, collectWith, ih]

theorem collectWith_grow (s : Settings) (place : Place) (runs : List (List Token)) (names : List Nat)
    (hgrow : ∀ run ∈ runs, ∀ names, Ready names place run →
      (grow s place 0 run names).1 = Layout.grow s place 0 run ∧ (grow s place 0 run names).2 ⊆ names ++ marks run)
    (h : Ready names place runs.flatten) :
    (collectWith (grow s place 0) runs names).1 = collect (Layout.grow s place 0) runs ∧
      (collectWith (grow s place 0) runs names).2 ⊆ names ++ marks runs.flatten := by
  induction runs generalizing names with
  | nil => exact ⟨rfl, List.subset_append_left _ _⟩
  | cons run runs ih =>
    obtain ⟨hrun, hruns⟩ := List.forall_mem_cons.1 hgrow
    obtain ⟨hfirst, hrest⟩ := Ready.append h
    obtain ⟨hvalue, hnames⟩ := hrun names hfirst
    obtain ⟨hvalues, hmore⟩ := ih _ hruns (hrest _ hnames)
    have hmarks : marks (run :: runs).flatten = marks run ++ marks runs.flatten := List.filterMap_append
    rw [hmarks, ← List.append_assoc]
    simp only [collectWith, collect, ← hvalue]
    cases (grow s place 0 run names).1.fault? with
    | some fault => exact ⟨rfl, List.Subset.trans hnames (List.subset_append_left _ _)⟩
    | none =>
      refine ⟨by rw [← hvalues], List.Subset.trans hmore ?_⟩
      exact List.append_subset.2 ⟨List.Subset.trans hnames (List.subset_append_left _ _), List.subset_append_right _ _⟩

theorem Ready.of_subperm {names : List Nat} {place : Place} {ts us : List Token} (h : Ready names place ts)
    (hsub : us.Subperm ts) : Ready names place us := by
  have hmarks : (marks us).Subperm (marks ts) := by
    obtain ⟨vs, hperm, hvs⟩ := hsub
    exact ⟨marks vs, hperm.filterMap _, hvs.filterMap _⟩
  refine ⟨?_, fun t ht => h.settled t (hsub.subset ht), fun t ht => ⟨(h.head t ht).1, fun m hm hmem => ?_⟩⟩
  · obtain ⟨ms, hperm, hms⟩ := hmarks
    exact hperm.nodup_iff.1 (h.distinct.sublist hms)
  · exact (h.head t ht).2 m hm (hmarks.subset hmem)

/-- What follows the first token of a run can be read after it, at the same place and below it. -/
theorem Ready.tail {names : List Nat} {place : Place} {ts : List Token} (h : Ready names place ts) :
    Ready (namesAfter names ts) place (nameAfterWith ts).tail ∧
      ∀ depth above, Ready (namesAfter names ts) ⟨depth, some ⟨above, ts.head?⟩⟩ (nameAfterWith ts).tail := by
  obtain ⟨-, hsettled, hafter⟩ := h.readRun
  have hdistinct : (marks (nameAfterWith ts)).Nodup := (marks_nameAfterWith ts).symm ▸ h.distinct
  have htail : (marks (nameAfterWith ts).tail).Sublist (marks (nameAfterWith ts)) := (List.tail_sublist _).filterMap _
  refine ⟨⟨hdistinct.sublist htail, fun t ht => hsettled t (List.mem_of_mem_tail ht), fun t ht => ?_⟩,
    fun depth above => ⟨hdistinct.sublist htail, fun t ht => hsettled t (List.mem_of_mem_tail ht), fun t ht => ?_⟩⟩
  · obtain ⟨hold, hnew⟩ := h.head t ht
    exact ⟨hold.of_subset hafter hnew, fun m hm hmem => hnew m hm (marks_nameAfterWith ts ▸ htail.subset hmem)⟩
  · obtain ⟨us, rfl⟩ : ∃ us, ts = t :: us := List.head?_eq_some_iff.1 ht
    obtain ⟨rest, hname, -⟩ := nameAfterWith_cons t us
    rw [hname] at hsettled hdistinct ⊢
    rw [marks_cons, List.nodup_append] at hdistinct
    exact ⟨hsettled t List.mem_cons_self, fun m hm hmem => hdistinct.2.2 m (Option.mem_toList.2 hm) m hmem rfl⟩

/-- A session grows a run into the trees of the layout, and adds no marks but those of the run. -/
theorem grow_eq_layout (s : Settings) (c : Call) (number : Nat) (names : List Nat) (h : Ready names c.place c.run) :
    (grow s c.place number c.run names).1 = Layout.grow s c.place number c.run ∧
      (grow s c.place number c.run names).2 ⊆ names ++ marks c.run := by
  induction c using (callees_wellFounded s).induction generalizing number names with
  | _ c ih =>
    obtain ⟨hread, hsettled, hafter⟩ := h.readRun
    have hplan : planFrom s c.place.depth (readRun names c.run) (splitRun names c.place c.run) =
        plan s c.place c.run := by
      rw [hread, h.splitRun]
      rfl
    rw [grow, Layout.grow_eq, growStep, hplan]
    cases hfault : (plan s c.place c.run).fault? with
    | some fault => simpa only [true_and] using hafter
    | none =>
      have hrest := callees_subperm s c hfault
      rw [runs_callees] at hrest
      have hready := h.tail.1.of_subperm hrest
      have hbelow : Ready _ (placeBelow c.place (plan s c.place c.run).value.own) _ :=
        (head?_plan s c hfault ▸ h.tail.2 (c.place.depth + 1) c.place.depth).of_subperm hrest
      obtain ⟨hleaves, hnames⟩ := collectWith_grow s (placeBelow c.place (plan s c.place c.run).value.own) _ _
        (fun run hrun more hmore => ih ⟨_, run⟩ (mem_callees_below s c run hrun) 0 more hmore) hbelow.append.1
      obtain ⟨hnext, hmore⟩ := collectWith_grow s c.place _ _
        (fun run hrun more hmore => ih ⟨_, run⟩ (mem_callees_after s c run hrun) 0 more hmore)
        (hready.append.2 _ hnames)
      have hmarks : marks (plan s c.place c.run).value.children.flatten ++
          marks (plan s c.place c.run).value.siblings.flatten ⊆ marks c.run := by
        rw [← marks_append, ← marks_nameAfterWith c.run]
        exact marks_subset fun t ht => List.mem_of_mem_tail (hrest.subset ht)
      obtain ⟨hchildren, hsiblings⟩ := List.append_subset.1 hmarks
      have hin := List.Subset.trans hnames
        (List.append_subset.2 ⟨hafter, List.Subset.trans hchildren (List.subset_append_right names _)⟩)
      have hout := List.Subset.trans hmore
        (List.append_subset.2 ⟨hin, List.Subset.trans hsiblings (List.subset_append_right names _)⟩)
      simp only [collectWith_attach (grow s (placeBelow c.place (plan s c.place c.run).value.own) 0),
        collectWith_attach (grow s c.place 0), ← hleaves, ← hnext]
      cases (collectWith (grow s (placeBelow c.place (plan s c.place c.run).value.own) 0) _ _).1.fault? with
      | some fault => exact ⟨rfl, hin⟩
      | none =>
        by_cases hparent : (c.place.parent?.isNone && !(plan s c.place c.run).value.siblings.isEmpty) = true
        · simpa only [hparent, if_true, true_and] using hin
        · simpa only [hparent, Bool.false_eq_true, if_false, true_and] using hout

/-! ## Trees that are new to a session -/

theorem markTokens_append (next : Nat) (ts us : List Token) :
    markTokens next (ts ++ us) = ((markTokens next ts).1 ++ (markTokens (markTokens next ts).2 us).1,
      (markTokens (markTokens next ts).2 us).2) := by
  induction ts generalizing next with
  | nil => rfl
  | cons t ts ih => simp only [List.cons_append, markTokens, ih]

theorem marks_markTokens (next : Nat) (ts : List Token) (h : ∀ t ∈ ts, t.mark = none) :
    marks (markTokens next ts).1 = List.range' next ts.length := by
  induction ts generalizing next with
  | nil => rfl
  | cons t ts ih =>
    obtain ⟨ht, hts⟩ := List.forall_mem_cons.1 h
    simp only [markTokens, ht, Option.isSome_none, Bool.false_eq_true, if_false, marks_cons, Option.toList_some, ih _ hts,
      List.length_cons, List.range'_succ, List.singleton_append]

theorem forestTokens_markNode (ts : List Tree) (next : Nat) :
    Tree.forestTokens (Tree.visitForest markNode ts next).1 = (markTokens next (Tree.forestTokens ts)).1 ∧
      (Tree.visitForest markNode ts next).2 = (markTokens next (Tree.forestTokens ts)).2 := by
  induction ts using Tree.forestInduction generalizing next with
  | nil => exact ⟨rfl, rfl⟩
  | cons n ls rest ihl ihr =>
    simp only [Tree.visitForest, Tree.visit, markNode, Tree.forestTokens_cons, Tree.tokens_node, List.append_assoc,
      markTokens_append, ihl, ihr, and_self]

theorem forestTokens_visitForest {σ : Type} (f : Node → σ → Node × σ) (hf : ∀ n state, (f n state).1.tokens = n.tokens)
    (ts : List Tree) (state : σ) : Tree.forestTokens (Tree.visitForest f ts state).1 = Tree.forestTokens ts := by
  induction ts using Tree.forestInduction generalizing state with
  | nil => rfl
  | cons n ls rest ihl ihr =>
    simp only [Tree.visitForest, Tree.visit, Tree.forestTokens_cons, Tree.tokens_node, hf, ihl, ihr]

/-- The tokens of a tree that is new to a session bear different marks. -/
theorem marks_enroll (s : Session) (t : Tree) (h : ∀ u ∈ t.tokens, u.mark = none) :
    marks (s.enroll t).2.tokens = List.range' s.nextToken t.tokens.length := by
  obtain ⟨n, ls⟩ := t
  have htokens : (s.enroll (.node n ls)).2.tokens = (markTokens s.nextToken (Tree.tokens (.node n ls))).1 := by
    simp only [enroll, Tree.visit, markNode, Tree.tokens_node, markTokens_append]
    rw [(forestTokens_markNode _ _).1, forestTokens_visitForest _ fun _ _ => rfl]
  rw [htokens, marks_markTokens _ _ h]

/-- A session grows the tokens of a tree that is new to it into the trees of the layout. -/
theorem grow_enroll (s : Session) (settings : Settings) (t : Tree) (number : Nat) (h : ∀ u ∈ t.tokens, u.mark = none) :
    (grow settings firstPlace number (s.enroll t).2.gathered.root.tokens []).1 =
      Layout.grow settings firstPlace number (s.enroll t).2.tokens := by
  rw [Tree.tokens_root_gathered]
  refine (grow_eq_layout settings ⟨firstPlace, (s.enroll t).2.tokens⟩ number [] ⟨?_, ?_, ?_⟩).1
  · rw [marks_enroll s t h]
    exact List.nodup_range'
  · intro u _ m _ hm
    cases hm
  · intro u hu
    cases hu

end Session
end SqlStyle
