import Mathlib.Data.List.Chain
import SqlStyle.Proofs.Layout.Outcome
import SqlStyle.Proofs.Token.Recase

/-! Layout does not see how the reserved words of a run are written. Growth looks at no more than a faithful
map keeps, and at the width of a line, so it makes the same tree of lines (`grow_map`); and the first
pass writes the reserved words in the style anyway. So a run whose reserved words are written in the style has
the same layout as the run itself (`arrange_recased`). A reserved word that is the name behind `WITH` is
left aside: it is not written in the style. -/
namespace SqlStyle.Layout
set_option autoImplicit false
open Clause SqlStyle.Tree

/-! ## Lines -/

variable {g : Token → Token}

theorem gap_congr {t u next other : Token} (ht : u.kind = t.kind) (hnext : other.kind = next.kind) :
    gap u other = gap t next := by
  rw [gap, gap, isTight, isTight, ht, hnext]

theorem width_append (ts us : List Token) : Token.width (ts ++ us) = Token.width ts + Token.width us := by
  induction ts with
  | nil => rw [List.nil_append, Token.width, Nat.zero_add]
  | cons t ts ih => rw [List.cons_append, Token.width, Token.width, ih, Nat.add_assoc]

theorem spacedLength_cons_cons (t next : Token) (ts : List Token) :
    spacedLength (t :: next :: ts) = t.length + Token.width (gap t next) + spacedLength (next :: ts) := by
  rw [spacedLength, spaceOut, List.cons_append, Token.width, width_append, ← Nat.add_assoc]
  rfl

theorem spacedLength_map (hg : Faithful g) (ts : List Token) :
    spacedLength (ts.map g) = spacedLength ts := by
  induction ts with
  | nil => rfl
  | cons t ts ih =>
    cases ts with
    | nil => simp only [List.map_singleton, spacedLength, spaceOut, Token.width, hg.length]
    | cons next rest =>
      rw [List.map_cons] at ih
      rw [List.map_cons, List.map_cons, spacedLength_cons_cons, spacedLength_cons_cons, hg.length,
        gap_congr (hg.kind t) (hg.kind next), ih]

theorem breakLine_map (hg : Faithful g) (s : Settings) (depth : Int) (own : List Token) (long : Split)
    (h : breakLine s depth own = .ok long) : breakLine s depth (own.map g) = .ok (long.map g) := by
  unfold breakLine width at h ⊢
  rw [spacedLength_map hg]
  split at h
  · next hw =>
    rw [if_pos hw]
    cases h
    rfl
  · next hw =>
    rw [if_neg hw]
    exact hg.splitLong own long h

/-! ## Growth of changed runs -/

section Through
variable {f : List Token → List Token} (hf : ∀ run, f run = [] ↔ run = [])
include hf

theorem filled_through (runs : List (List Token)) : filled (runs.map f) = (filled runs).map f := by
  rw [filled, filled, List.filter_map]
  congr 2
  funext run
  rw [Function.comp_apply, Bool.eq_iff_iff, Bool.not_eq_true', Bool.not_eq_true', List.isEmpty_eq_false_iff,
    List.isEmpty_eq_false_iff, ne_eq, hf]

omit hf in
theorem plan_of_splits (s : Settings) (place : Place) (ts : List Token) (short long : Split)
    (hshort : split place ts = .ok short) (hlong : breakLine s place.depth short.own = .ok long) :
    plan s place ts = ⟨⟨long.own, filled (long.children ++ short.children),
      filled [long.sibling, short.sibling]⟩, none⟩ := by
  rw [plan, hshort, planFrom]
  unfold breakLine at hlong
  split at hlong
  · next hw =>
    rw [if_pos hw]
    cases hlong
    simp [Split.whole, filled]
  · next hw => rw [if_neg hw, hlong]

omit hf in
def Plan.through (f : List Token → List Token) (p : Plan) : Plan :=
  ⟨f p.own, p.children.map f, p.siblings.map f⟩

/-- A change of runs that can be made before both splits or after them can be made before a plan or after it. -/
theorem plan_through (s : Settings) (place other : Place) (ts : List Token) (hok : (plan s place ts).fault? = none)
    (hshort : ∀ short, split place ts = .ok short → split other (f ts) = .ok (short.through f))
    (hlong : ∀ short long, split place ts = .ok short → breakLine s place.depth short.own = .ok long →
      breakLine s other.depth (f short.own) = .ok (long.through f)) :
    plan s other (f ts) = ⟨(plan s place ts).value.through f, none⟩ := by
  obtain ⟨short, long, hs, hl, hplan⟩ := plan_ok s place ts hok
  rw [plan_of_splits s other (f ts) _ _ (hshort short hs) (hlong short long hs hl), hplan]
  simp only [Plan.through, Split.through, ← filled_through hf, List.map_append, List.map_cons, List.map_nil]

end Through

def throughLine (f : List Token → List Token) (n : Node) : Node :=
  withTokens n (f n.tokens)

theorem collect_of_ok {α β : Type} (f : α → Edit (List β)) (v : α → List β) (as : List α)
    (h : ∀ a ∈ as, f a = ⟨v a, none⟩) : collect f as = ⟨as.flatMap v, none⟩ := by
  induction as with
  | nil => rfl
  | cons a as ih =>
    obtain ⟨ha, has⟩ := List.forall_mem_cons.1 h
    simp only [collect, ha, ih has, Edit.map, List.flatMap_cons]

theorem collect_map {α β γ : Type} (f : β → Edit (List γ)) (h : α → β) (as : List α) :
    collect f (as.map h) = collect (fun a => f (h a)) as := by
  induction as with
  | nil => rfl
  | cons a as ih => simp only [List.map_cons, collect, ih]

/-- A change of runs that can be made before each plan or after it can be made before growth or after it. The
token that a changed run begins with depends on the first token of the run only. -/
theorem grow_through {f : List Token → List Token} {h : Token → Token} (hhead : ∀ ts, (f ts).head? = ts.head?.map h)
    (s : Settings) (c : Call) (number : Nat) (hparent : c.place.parent?.isSome = true)
    (hok : (grow s c.place number c.run).fault? = none)
    (hplan : ∀ d ∈ calls s c, plan s (d.place.map h) (f d.run) = ⟨(plan s d.place d.run).value.through f, none⟩) :
    grow s (c.place.map h) number (f c.run) =
      ⟨mapForest (throughLine f) (grow s c.place number c.run).value, none⟩ := by
  induction c using (callees_wellFounded s).induction generalizing number with
  | _ c ih =>
    obtain ⟨-, hcallees, hvalue⟩ := grow_ok s c.place number c.run hok
    have hthis := hplan c (mem_calls_self s c)
    have hcallee : ∀ d ∈ callees s c, d.place.parent?.isSome = true →
        grow s (d.place.map h) 0 (f d.run) =
          ⟨mapForest (throughLine f) (grow s d.place 0 d.run).value, none⟩ := fun d hd hp =>
      ih d hd 0 hp (hcallees d hd) fun e he => hplan e (mem_calls_of_callee s c d e hd he)
    generalize hp : (plan s c.place c.run).value = p at hthis hvalue
    -- the place below the line is seen by the head of the line, which is changed with it
    have hplace : placeBelow (c.place.map h) (f p.own) = (placeBelow c.place p.own).map h := by
      simp [placeBelow, Place.map, hhead]
    have hbelow : collect (grow s (placeBelow (c.place.map h) (f p.own)) 0) (p.children.map f) =
        ⟨mapForest (throughLine f) (p.children.flatMap fun run =>
          (grow s (placeBelow c.place p.own) 0 run).value), none⟩ := by
      rw [hplace, collect_map, mapForest_flatMap]
      apply collect_of_ok
      intro run hr
      apply hcallee ⟨placeBelow c.place p.own, run⟩ _ rfl
      rw [← hp] at hr ⊢
      exact mem_callees_below s c run hr
    have hafter : collect (grow s (c.place.map h) 0) (p.siblings.map f) =
        ⟨mapForest (throughLine f) (p.siblings.flatMap fun run => (grow s c.place 0 run).value), none⟩ := by
      rw [collect_map, mapForest_flatMap]
      apply collect_of_ok
      intro run hr
      apply hcallee ⟨c.place, run⟩ _ hparent
      rw [← hp] at hr
      exact mem_callees_after s c run hr
    have hsome : (c.place.map h).parent?.isNone = false := by
      rw [Place.map, Option.isNone_map, ← Option.not_isSome, hparent, Bool.not_true]
    rw [grow_eq, growStep, hthis, hvalue]
    simp only [Plan.through, hbelow, hafter, hsome, Bool.false_and, Bool.false_eq_true, if_false, Edit.map]
    rfl

/-- Growth in a place below a line commutes with a faithful map, if no run has a reserved word for the name
behind its `WITH`. -/
theorem grow_map (hg : Faithful g) (s : Settings) (c : Call) (number : Nat)
    (hparent : c.place.parent?.isSome = true)
    (hok : (grow s c.place number c.run).fault? = none)
    (hnames : ∀ d ∈ calls s c, (plan s d.place d.run).fault? = none ∧ nameAfterWith d.run = d.run) :
    grow s (c.place.map g) number (c.run.map g) =
      ⟨mapForest (throughLine (List.map g)) (grow s c.place number c.run).value, none⟩ := by
  apply grow_through (fun _ => List.head?_map) s c number hparent hok
  intro d hd
  obtain ⟨hplan, hname⟩ := hnames d hd
  exact plan_through (fun _ => List.map_eq_nil_iff) s d.place _ d.run hplan
    (fun short hs => hg.split d.place d.run short hname hs)
    fun short long _ hl => breakLine_map hg s d.place.depth short.own long hl

/-! ## The layout -/

/-- No reserved word stands directly behind a reserved `WITH`, where it would be read as a name. -/
def NamesFree (ts : List Token) : Prop :=
  ts.IsChain fun t next => t.kind.isReserved = true → t.key = "WITH" → next.kind.isReserved = false

instance (ts : List Token) : Decidable (NamesFree ts) :=
  inferInstanceAs (Decidable (List.IsChain _ ts))

theorem NamesFree.piece {ts us : List Token} (h : NamesFree ts) (hus : us <:+: ts) : NamesFree us :=
  List.IsChain.infix h hus

theorem NamesFree.nameAfterWith {ts : List Token} (h : NamesFree ts) : nameAfterWith ts = ts := by
  unfold Clause.nameAfterWith
  split
  · next head name next rest =>
    rw [if_neg]
    intro hcond
    simp only [Bool.and_eq_true, beq_iff_eq] at hcond
    have hname := (List.isChain_cons_cons.1 h).1 hcond.1.1 hcond.1.2
    rw [hcond.2] at hname
    exact Bool.noConfusion hname
  · rfl

/-- What holds of a run without such a name and carries over to its pieces holds of the runs of all calls. -/
theorem NamesFree.calls {s : Settings} {c : Call} {number : Nat} (h : NamesFree c.run)
    (hok : (grow s c.place number c.run).fault? = none) (Q : List Token → Prop) (hQ : Q c.run)
    (hpiece : ∀ ts us, Q ts → us <:+: ts → Q us) :
    ∀ d ∈ calls s c, (plan s d.place d.run).fault? = none ∧ NamesFree d.run ∧ Q d.run := by
  apply forall_calls s c number (fun d => NamesFree d.run ∧ Q d.run) hok ⟨h, hQ⟩
  rintro c d hplan ⟨hc, hQ⟩ hd
  have hrun := (plan_pieces s c hplan).2 d hd
  rw [hc.nameAfterWith] at hrun
  exact ⟨hc.piece hrun, hpiece c.run d.run hQ hrun⟩

theorem hasLetters_of_length {t u : Token} (hkind : u.kind = t.kind) (hlength : u.length = t.length)
    (h : HasLetters t) : HasLetters u := by
  intro hk hw
  have ht : t.word ≠ "" := h (hkind ▸ hk)
  have hzero : t.word.length = 0 := by
    rw [← Token.length, ← hlength, Token.length, hw]
    rfl
  exact ht (String.length_eq_zero_iff.1 hzero)

/-- The passes make the same of two trees whose lines are the same once they are written. -/
theorem finish_mapForest (s : Settings) (r : Node) (f : Node → Node) (ts : List Tree)
    (hletters : ∀ n ∈ forestNodes ts, ∀ t ∈ n.tokens, HasLetters t)
    (hmapped : ∀ n ∈ forestNodes ts, ∀ t ∈ (f n).tokens, HasLetters t)
    (hwritten : ∀ n ∈ forestNodes ts, writtenLine s.keywordStyle (f n) = writtenLine s.keywordStyle n) :
    finish s (.node r (mapForest f ts)) = finish s (.node r ts) := by
  have hfinish : ∀ us, (∀ n ∈ forestNodes us, ∀ t ∈ n.tokens, HasLetters t) →
      finish s (.node r us) = (passes.drop 2).foldl (fun e pass => e.andThen (pass.run s))
        ⟨.node r (mapForest (writtenLine s.keywordStyle) us), none⟩ := by
    intro us hus
    show (passes.drop 1).foldl (fun e pass => e.andThen (pass.run s)) (keywordPass s.keywordStyle (.node r us)) = _
    rw [keywordPass_eq s.keywordStyle r us hus]
    show (passes.drop 2).foldl (fun e pass => e.andThen (pass.run s))
      (joinPass s.keywordStyle (.node r (mapForest (restyledLine s.keywordStyle) us))) = _
    rw [joinPass_eq, mapForest_mapForest]
    rfl
  rw [hfinish ts hletters, hfinish, mapForest_mapForest, mapForest_congr hwritten]
  rw [forestNodes_mapForest, List.forall_mem_map]
  exact hmapped

/-- A run whose reserved words are written in the style has the layout of the run itself. -/
theorem arrange_recased (s : Settings) (ts : List Token) (hne : ts ≠ [])
    (hletters : ∀ t ∈ ts, HasLetters t) (hnames : NamesFree ts) (hok : (shape s ts).fault? = none) :
    arrange s (ts.map (recased s.keywordStyle)) = arrange s ts := by
  have hg := faithful_recased s.keywordStyle
  let c : Call := ⟨⟨1, some ⟨0, none⟩⟩, ts⟩
  let forest := (grow s c.place 1 c.run).value
  have hshape : shape s ts = ⟨.node (top true) forest, none⟩ := by
    rw [← hok]
    rfl
  have hmapped : shape s (ts.map (recased s.keywordStyle)) =
      ⟨.node (top true) (mapForest (throughLine (List.map (recased s.keywordStyle))) forest), none⟩ := by
    have hgrown : (grow s c.place 1 c.run).fault? = none := hok
    have hcalls := hnames.calls hgrown (fun _ => True) trivial fun _ _ _ _ => trivial
    have hgrow := grow_map hg s c 1 rfl hgrown fun d hd => ⟨(hcalls d hd).1, (hcalls d hd).2.1.nameAfterWith⟩
    show (grow s (c.place.map (recased s.keywordStyle)) 1 _).map _ = _
    rw [hgrow]
    rfl
  have hforest : ∀ n ∈ forestNodes forest, ∀ t ∈ n.tokens, HasLetters t := fun n hn =>
    (forall_mem_tokens_grow s c 1 HasLetters hok hne hletters
      (fun t _ _ => by simp [HasLetters, Kind.isReserved]) n hn).2
  rw [arrange, arrange, hshape, hmapped]
  apply finish_mapForest s (top true) _ forest hforest
  · intro n hn t ht
    obtain ⟨u, hu, rfl⟩ := List.mem_map.1 ht
    exact hasLetters_of_length (hg.kind u) (hg.length u) (hforest n hn u hu)
  · intro n _
    simp only [writtenLine, completedLine, restyledLine, throughLine, withTokens, List.map_map, Function.comp_def,
      restyled_recased]

end SqlStyle.Layout
