import SqlStyle.Proofs.Clause.Nesting
import SqlStyle.Proofs.Layout.Outcome

/-! Lines that are too long. Growth breaks such a line once, and what is left of it cannot be broken further
(`breakLine_own`). So a line that is still too long has no bracket that is closed on it, or it is the head of a
branch, up to `THEN` (`unbreakable_of_long`). -/
namespace SqlStyle.Clause
set_option autoImplicit false

/-! ## Breaking a line at its brackets -/

/-- The bracket at which a line may be broken. -/
def isOpening (t : Token) : Bool :=
  t.key == "(" && t.kind == .leftBracket

section Brackets
variable {before : List Token} {opening : Token} (hbefore : ∀ t ∈ before, isOpening t = false)
  (hopening : isOpening opening = true)
include hbefore hopening

theorem splitLongBrackets_of_closed (tail inside after : List Token) (h : cutClose tail = some (inside, after)) :
    splitLongBrackets (before ++ opening :: tail) = ⟨before ++ [opening], items inside, after⟩ := by
  have hcut := cutFirst_append isOpening before tail opening hbefore hopening
  unfold isOpening at hcut
  simp [splitLongBrackets, hcut, h]

theorem splitLongBrackets_of_open (tail : List Token) (h : cutClose tail = none) :
    splitLongBrackets (before ++ opening :: tail) = .whole (before ++ opening :: tail) := by
  have hcut := cutFirst_append isOpening before tail opening hbefore hopening
  unfold isOpening at hcut
  simp [splitLongBrackets, hcut, h]

end Brackets

theorem splitLongBrackets_own (ts : List Token) :
    splitLongBrackets (splitLongBrackets ts).own = .whole (splitLongBrackets ts).own := by
  by_cases hwhole : splitLongBrackets ts = .whole ts
  · rw [hwhole]
    exact hwhole
  · cases hcut : cutFirst isOpening ts with
    | none =>
      unfold isOpening at hcut
      exact absurd (by rw [splitLongBrackets, hcut]) hwhole
    | some cut =>
      obtain ⟨before, rest⟩ := cut
      obtain ⟨opening, tail, hrest, hopening⟩ := cutFirst_found _ _ _ hcut
      have hbefore := cutFirst_passed _ _ _ hcut
      have hts : before ++ opening :: tail = ts := hrest ▸ (cutFirst_divides _ _ _ hcut).1
      cases hclose : cutClose tail with
      | none => exact absurd (hts ▸ splitLongBrackets_of_open hbefore hopening tail hclose) hwhole
      | some inner =>
        rw [← hts, splitLongBrackets_of_closed hbefore hopening tail inner.1 inner.2 hclose]
        exact splitLongBrackets_of_open hbefore hopening [] rfl

theorem splitLong_own (ts : List Token) (long : Split) (h : splitLong ts = .ok long) :
    splitLong long.own = .ok (.whole long.own) := by
  match ts with
  | [] => cases h
  | t :: ts =>
    obtain ⟨us, hown⟩ := (splitLong_begins (t :: ts) long h).exists_cons
    by_cases hwhen : t.key = "WHEN"
    · rw [splitLong, if_pos hwhen, splitLongWhen] at h
      split at h
      · next before rest hcut =>
        obtain ⟨mark, tail, rfl, hmark⟩ := cutTop_found _ _ _ _ hcut
        have hts : before ++ mark :: tail = t :: ts := (cutTop_divides _ _ _ _ hcut).1
        rw [← hts, cutTop_eq_some_iff, ← cutTop_eq_some_iff _ _ _ []] at hcut
        cases h
        have hown : before ++ [mark] = t :: us := hown
        show splitLong (before ++ [mark]) = .ok (.whole (before ++ [mark]))
        rw [hown, splitLong, if_pos hwhen, splitLongWhen, ← hown, hcut]
        rfl
      · cases h
    · rw [splitLong, if_neg hwhen] at h
      cases h
      rw [hown, splitLong, if_neg hwhen, ← hown, splitLongBrackets_own]

/-- The first left bracket of the line is closed on the line. -/
def Breakable (ts : List Token) : Prop :=
  ∃ before opening inside closing after, ts = before ++ opening :: (inside ++ closing :: after) ∧
    (∀ t ∈ before, t.kind ≠ .leftBracket) ∧ opening.kind = .leftBracket ∧ closing.kind = .rightBracket ∧
    Balanced Token.level inside

theorem isOpening_eq {t : Token} (h : t.kind = .leftBracket → t.word = "(") :
    isOpening t = (t.kind == .leftBracket) := by
  unfold isOpening
  by_cases hkind : t.kind = .leftBracket
  · have hkey : t.key = "(" := by
      rw [Token.key, h hkind]
      decide
    simp [hkind, hkey]
  · simp [hkind]

theorem not_breakable (ts : List Token) (hword : ∀ t ∈ ts, t.kind = .leftBracket → t.word = "(")
    (h : splitLongBrackets ts = .whole ts) : ¬ Breakable ts := by
  rintro ⟨before, opening, inside, closing, after, rfl, hbefore, hopening, hclosing, hinside⟩
  rw [List.forall_mem_append, List.forall_mem_cons] at hword
  have hpassed : ∀ t ∈ before, isOpening t = false := by
    intro t ht
    rw [isOpening_eq (hword.1 t ht)]
    simpa using hbefore t ht
  have hfound : isOpening opening = true := by
    rw [isOpening_eq hword.2.1]
    simpa using hopening
  have hclose := cutClose_append inside after closing hinside hclosing
  rw [splitLongBrackets_of_closed hpassed hfound _ _ _ hclose] at h
  have hown := congrArg (fun s => s.own.length) h
  simp [Split.whole] at hown

end SqlStyle.Clause

namespace SqlStyle.Layout
open Clause SqlStyle.Tree
open Token (code)

/-! ## Lines of growth -/

theorem breakLine_own (s : Settings) (depth : Int) (own : List Token) (long : Split)
    (h : breakLine s depth own = .ok long) : breakLine s depth long.own = .ok (.whole long.own) := by
  unfold breakLine at h ⊢
  by_cases hfits : width s depth long.own ≤ s.maxLineLength
  · rw [if_pos hfits]
  · rw [if_neg hfits]
    split at h
    · next hshort =>
      cases h
      exact absurd hshort hfits
    · exact splitLong_own own long h

/-- No line of a run that has grown can be broken further. -/
theorem breakLine_grow (s : Settings) (c : Call) (number : Nat)
    (hok : (grow s c.place number c.run).fault? = none) :
    ∀ n ∈ forestNodes (grow s c.place number c.run).value,
      breakLine s n.depth n.tokens = .ok (.whole n.tokens) := by
  have hcalls := forall_calls s c number (fun _ => True) hok trivial fun _ _ _ _ _ => trivial
  rw [← forall_mem_forestSubtrees_root fun n => breakLine s n.depth n.tokens = .ok (.whole n.tokens)]
  apply forall_mem_forestSubtrees_grow s c number
    (fun t => breakLine s t.root.depth t.root.tokens = .ok (.whole t.root.tokens)) hok
  intro d hd k ls _
  obtain ⟨short, long, -, hlong, hplan⟩ := plan_ok s d.place d.run (hcalls d hd).1
  have hown : (plan s d.place d.run).value.own = long.own := by rw [hplan]
  show breakLine s d.place.depth (plan s d.place d.run).value.own = .ok (.whole (plan s d.place d.run).value.own)
  rw [hown]
  exact breakLine_own s d.place.depth short.own long hlong

theorem word_of_leftBracket (s : Settings) (sql : String)
    (hok : (shape s (code (Scan.scan sql).flatten)).fault? = none) :
    ∀ n ∈ (shape s (code (Scan.scan sql).flatten)).value.nodes,
      ∀ t ∈ n.tokens, t.kind = .leftBracket → t.word = "(" := by
  by_cases hne : code (Scan.scan sql).flatten = []
  · rw [hne, shape_nil]
    simp [nodes, forestNodes, top]
  · rw [shape, Edit.map, nodes, List.forall_mem_cons]
    refine ⟨by simp [top], fun n hn => ?_⟩
    refine (forall_mem_tokens_grow s ⟨⟨1, some ⟨0, none⟩⟩, _⟩ 1 (fun t => t.kind = .leftBracket → t.word = "(") hok hne
      ?_ ?_ n hn).2
    · intro t ht hkind
      exact (Scan.lexical_scan sql t (List.mem_of_mem_filter ht)).word_of_leftBracket hkind
    · intro t _ _ hkind
      cases hkind

/-- A line of a layout that is too long cannot be broken: if it does not begin with `WHEN`, it holds no left bracket,
or the first one is not closed on it; if it does, it is the head of a branch, which ends with `THEN`. -/
theorem unbreakable_of_long (s : Settings) (sql : String)
    (hok : (shape s (ofSql true sql).tokens).fault? = none) :
    ∀ n ∈ (shape s (ofSql true sql).tokens).value.nodes, s.maxLineLength < width s n.depth n.tokens →
      ((∀ t ∈ n.tokens.head?, t.key ≠ "WHEN") → ¬ Breakable n.tokens) ∧
      ∀ t ∈ n.tokens.head?, t.key = "WHEN" →
        ∃ before mark, n.tokens = before ++ [mark] ∧ mark.isKeyword "THEN" = true := by
  rw [tokens_ofSql] at hok ⊢
  intro n hn hlong
  have hword := word_of_leftBracket s sql hok n hn
  rw [shape, Edit.map, nodes, List.mem_cons] at hn
  cases htokens : n.tokens with
  | nil => simp [Breakable]
  | cons t ts =>
    have hwhole : splitLong (t :: ts) = .ok (.whole (t :: ts)) := by
      rcases hn with rfl | hn
      · cases htokens
      · have hbroken := breakLine_grow s ⟨⟨1, some ⟨0, none⟩⟩, _⟩ 1 hok n hn
        rw [breakLine, if_neg (Int.not_le.2 hlong), htokens] at hbroken
        exact hbroken
    rw [htokens] at hword
    rcases splitLong_cases t ts _ hwhole with ⟨hwhen, before, mark, rest, -, hmark, hown⟩ | ⟨hwhen, hown⟩
    · refine ⟨fun h => absurd hwhen (h t rfl), fun u _ _ => ⟨before, mark, ?_, hmark⟩⟩
      exact congrArg Split.own hown
    · refine ⟨fun _ => not_breakable _ hword hown.symm, fun u hu hkey => ?_⟩
      obtain rfl := Option.some.inj hu
      exact absurd hkey hwhen

def queryOfLongName : String :=
  "select aaaaaaaaaaaaaaaaaaaaaaaaaaaaaaaa(b, c) from t"

/-- The line of the call is too long with its bracket alone, which is closed on a later line. -/
theorem unbreakable_of_long_of_name :
    let s : Settings := ⟨32, .head, .lower, 4⟩
    let n : Node := ⟨⟨0, [⟨.identifier, "aaaaaaaaaaaaaaaaaaaaaaaaaaaaaaaa", none⟩, ⟨.leftBracket, "(", none⟩]⟩, 2, true, none⟩
    (shape s (ofSql true queryOfLongName).tokens).fault? = none ∧
      n ∈ (shape s (ofSql true queryOfLongName).tokens).value.nodes ∧ s.maxLineLength < width s n.depth n.tokens ∧
      (∀ t ∈ n.tokens.head?, t.key ≠ "WHEN") ∧ ¬ Breakable n.tokens := by
  intro s n
  have hok : (shape s (ofSql true queryOfLongName).tokens).fault? = none := by decide +kernel
  have hn : n ∈ (shape s (ofSql true queryOfLongName).tokens).value.nodes := by decide +kernel
  have hlong : s.maxLineLength < width s n.depth n.tokens := by decide +kernel
  have hhead : ∀ t ∈ n.tokens.head?, t.key ≠ "WHEN" := by
    intro t ht
    obtain rfl := Option.some.inj ht
    decide +kernel
  exact ⟨hok, hn, hlong, hhead, (unbreakable_of_long s queryOfLongName hok n hn hlong).1 hhead⟩

end SqlStyle.Layout
