import Mathlib.Data.List.Chain
import SqlStyle.Proofs.Clause.Faithful
import SqlStyle.Proofs.Clause.Nesting
import SqlStyle.Proofs.Layout.Passes

/-! Joins in full. A join that lacks a word is given it, by the token before the join (`completeFrom`). Cuts pass over
the words that are put in, or fall before them where they fall at joins, so a run is cut into the same parts with its
joins in full; its terms are the same if the words of each join follow each other, a name or a right bracket
(`terms_completeJoins`). -/
namespace SqlStyle.Layout
set_option autoImplicit false
open Clause

/-! ## Words put before joins -/

/-- What is put before a token behind `prev?`: the word that it lacks, if it is a join. -/
def joinWord (style : KeywordStyle) (prev? : Option Token) (t : Token) : List Token :=
  (if t.isKeyword "JOIN" then missingJoinWord prev? else none).toList.map fun w =>
    ⟨.keyword, style.spell w, none⟩

theorem completeFrom_cons (style : KeywordStyle) (prev? : Option Token) (t : Token) (ts : List Token) :
    completeFrom style prev? (t :: ts) = joinWord style prev? t ++ t :: completeFrom style (some t) ts :=
  rfl

theorem mem_missingJoinWord (prev? : Option Token) : ∀ w ∈ missingJoinWord prev?, w ∈ ["INNER", "OUTER"] := by
  intro w hw
  unfold missingJoinWord at hw
  split at hw
  · simp_all
  · split at hw
    · cases hw
    · split at hw <;> simp_all

theorem missingJoinWord_eq_none (prev? : Option Token) :
    missingJoinWord prev? = none ↔ ∃ prev ∈ prev?, prev.isKeywordOf ["INNER", "CROSS", "OUTER"] = true := by
  cases prev? with
  | none => simp [missingJoinWord]
  | some prev =>
    simp only [missingJoinWord, Option.mem_some_iff, exists_eq_left']
    split
    · simp_all
    · split <;> simp_all

theorem joinWord_cases (style : KeywordStyle) (prev? : Option Token) (t : Token) :
    (joinWord style prev? t = [] ∧ (t.isKeyword "JOIN" = true →
      ∃ prev ∈ prev?, prev.isKeywordOf ["INNER", "CROSS", "OUTER"] = true)) ∨
    (t.isKeyword "JOIN" = true ∧ ∃ word ∈ ["INNER", "OUTER"], missingJoinWord prev? = some word ∧
      joinWord style prev? t = [⟨.keyword, style.spell word, none⟩]) := by
  cases ht : t.isKeyword "JOIN" with
  | false => exact .inl ⟨by simp [joinWord, ht], by simp⟩
  | true =>
    cases hword : missingJoinWord prev? with
    | none => exact .inl ⟨by simp [joinWord, ht, hword], fun _ => (missingJoinWord_eq_none prev?).1 hword⟩
    | some word =>
      exact .inr ⟨rfl, word, mem_missingJoinWord prev? word hword, rfl, by simp [joinWord, ht, hword]⟩

/-- The words that joins are given are read as they are named, in every style. -/
theorem key_spell (style : KeywordStyle) : ∀ word ∈ ["INNER", "OUTER"],
    (⟨.keyword, style.spell word, none⟩ : Token).key = word := by
  cases style <;> decide +kernel

theorem completeFrom_eq_nil (style : KeywordStyle) (prev? : Option Token) (ts : List Token) :
    completeFrom style prev? ts = [] ↔ ts = [] := by
  cases ts with
  | nil => simp [completeFrom]
  | cons t ts => simp [completeFrom]

theorem getLast?_completeFrom (style : KeywordStyle) (prev? : Option Token) (ts : List Token) :
    (completeFrom style prev? ts).getLast? = ts.getLast? := by
  induction ts generalizing prev? with
  | nil => rfl
  | cons t ts ih =>
    rw [completeFrom, List.getLast?_append, List.getLast?_cons, List.getLast?_cons, ih (some t)]
    rfl

theorem completeFrom_append (style : KeywordStyle) (prev? : Option Token) (ts us : List Token) :
    completeFrom style prev? (ts ++ us) =
      completeFrom style prev? ts ++ completeFrom style (ts.getLast?.or prev?) us := by
  induction ts generalizing prev? with
  | nil => rfl
  | cons t ts ih =>
    rw [List.cons_append, completeFrom, completeFrom, ih, List.append_assoc, List.cons_append]
    cases h : ts.getLast? <;> simp [List.getLast?_cons, h]

/-- Of the tokens, which follow the token `prev?`, every join stands behind a word that makes it full. -/
def JoinsFull (prev? : Option Token) (ts : List Token) : Prop :=
  ∀ front join back, ts = front ++ join :: back → join.isKeyword "JOIN" = true →
    ∃ prev ∈ front.getLast?.or prev?, prev.isKeywordOf ["INNER", "CROSS", "OUTER"] = true

theorem joinsFull_cons (prev? : Option Token) (t : Token) (ts : List Token) :
    JoinsFull prev? (t :: ts) ↔ (t.isKeyword "JOIN" = true →
      ∃ prev ∈ prev?, prev.isKeywordOf ["INNER", "CROSS", "OUTER"] = true) ∧ JoinsFull (some t) ts := by
  have hlast : ∀ front : List Token, (t :: front).getLast?.or prev? = front.getLast?.or (some t) := by
    intro front
    cases h : front.getLast? <;> simp [List.getLast?_cons, h]
  constructor
  · intro h
    refine ⟨h [] t ts rfl, fun front join back hts hjoin => ?_⟩
    rw [← hlast front]
    exact h (t :: front) join back (by rw [hts, List.cons_append]) hjoin
  · rintro ⟨ht, hts⟩ front join back heq hjoin
    cases front with
    | nil =>
      obtain ⟨rfl, rfl⟩ := List.cons.inj heq
      exact ht hjoin
    | cons a front =>
      obtain ⟨rfl, rfl⟩ := List.cons.inj heq
      rw [hlast front]
      exact hts front join back rfl hjoin

theorem joinsFull_completeFrom (style : KeywordStyle) (prev? : Option Token) (ts : List Token) :
    JoinsFull prev? (completeFrom style prev? ts) := by
  induction ts generalizing prev? with
  | nil => intro front join back h; simp [completeFrom] at h
  | cons t ts ih =>
    rw [completeFrom_cons]
    rcases joinWord_cases style prev? t with ⟨hnone, hfull⟩ | ⟨-, word, hword, -, hsome⟩
    · rw [hnone, List.nil_append, joinsFull_cons]
      exact ⟨hfull, ih (some t)⟩
    · have hkey := key_spell style word hword
      rw [hsome, List.singleton_append, joinsFull_cons, joinsFull_cons]
      refine ⟨fun h => ?_, fun _ => ⟨_, rfl, ?_⟩, ih (some t)⟩ <;>
        rcases List.mem_pair.1 hword with rfl | rfl <;> simp_all [Token.isKeyword, Token.isKeywordOf]

theorem completeFrom_of_joinsFull (style : KeywordStyle) (prev? : Option Token) (ts : List Token)
    (h : JoinsFull prev? ts) : completeFrom style prev? ts = ts := by
  induction ts generalizing prev? with
  | nil => rfl
  | cons t ts ih =>
    obtain ⟨ht, hts⟩ := (joinsFull_cons prev? t ts).1 h
    rw [completeFrom_cons, ih (some t) hts]
    cases hjoin : t.isKeyword "JOIN" with
    | false => simp [joinWord, hjoin]
    | true => simp [joinWord, (missingJoinWord_eq_none prev?).2 (ht hjoin)]

theorem completeFrom_completeFrom (style other : KeywordStyle) (prev? : Option Token) (ts : List Token) :
    completeFrom other prev? (completeFrom style prev? ts) = completeFrom style prev? ts :=
  completeFrom_of_joinsFull other prev? _ (joinsFull_completeFrom style prev? ts)

/-! ## Words of a join -/

def isJoinWord (t : Token) : Bool :=
  t.isKeywordOf joinWords

theorem isJoinWord_of_join {t : Token} (h : t.isKeyword "JOIN" = true) : isJoinWord t = true := by
  simp [isJoinWord, Token.isKeywordOf, joinWords, h]

theorem isJoinWord_iff {t : Token} : isJoinWord t = true ↔ t.kind = .keyword ∧ t.key ∈ joinWords := by
  simp only [isJoinWord, Token.isKeywordOf, List.any_eq_true, Token.isKeyword, Bool.and_eq_true, beq_iff_eq]
  constructor
  · rintro ⟨_, hw, hkey, hk⟩
    exact ⟨hk, hkey ▸ hw⟩
  · rintro ⟨hk, hkey⟩
    exact ⟨_, hkey, rfl, hk⟩

theorem isJoinWord_of_kind {t : Token} (h : t.kind ≠ .keyword) : isJoinWord t = false :=
  Token.isKeywordOf_of_kind_ne joinWords t h

theorem isKeyword_of_isJoinWord {t : Token} (h : isJoinWord t = true) {w : String} (hw : w ∉ joinWords) :
    t.isKeyword w = false := by
  apply Token.isKeyword_of_key_ne
  rintro rfl
  exact hw (isJoinWord_iff.1 h).2

theorem isKeywordOf_of_isJoinWord {t : Token} (h : isJoinWord t = true) {ws : List String}
    (hws : ∀ w ∈ ws, w ∉ joinWords) : t.isKeywordOf ws = false := by
  rw [Token.isKeywordOf, List.any_eq_false]
  intro w hw
  simp [isKeyword_of_isJoinWord h (hws w hw)]

theorem level_of_isJoinWord {t : Token} (h : isJoinWord t = true) : t.level = 0 := by
  rw [Token.level, (isJoinWord_iff.1 h).1]

/-- A token is given nothing or a word of a join that is no join itself, and then it is a join. -/
theorem joinWord_word (style : KeywordStyle) (prev? : Option Token) (t : Token) :
    joinWord style prev? t = [] ∨ ∃ w, joinWord style prev? t = [w] ∧ t.isKeyword "JOIN" = true ∧
      isJoinWord w = true ∧ w.isKeyword "JOIN" = false := by
  rcases joinWord_cases style prev? t with ⟨hnil, -⟩ | ⟨ht, word, hword, -, hw⟩
  · exact .inl hnil
  · refine .inr ⟨_, hw, ht, ?_, ?_⟩
    · refine isJoinWord_iff.2 ⟨rfl, ?_⟩
      rw [key_spell style word hword]
      rcases List.mem_pair.1 hword with rfl | rfl <;> decide
    · apply Token.isKeyword_of_key_ne
      rw [key_spell style word hword]
      rcases List.mem_pair.1 hword with rfl | rfl <;> decide

theorem missingJoinWord_of_not {t : Token} (h : isJoinWord t = false) :
    missingJoinWord (some t) = missingJoinWord none := by
  simp only [isJoinWord, Token.isKeywordOf, joinWords, List.any_cons, List.any_nil, Bool.or_eq_false_iff] at h
  simp [missingJoinWord, Token.isKeywordOf, h]

theorem completeFrom_some_of_not (style : KeywordStyle) {t : Token} (h : isJoinWord t = false) (ts : List Token) :
    completeFrom style (some t) ts = completeJoins style ts := by
  cases ts with
  | nil => rfl
  | cons u us => rw [completeJoins, completeFrom_cons, completeFrom_cons, joinWord, joinWord, missingJoinWord_of_not h]

theorem completeFrom_cons_of_not (style : KeywordStyle) (prev? : Option Token) {t : Token} (h : isJoinWord t = false)
    (ts : List Token) : completeFrom style prev? (t :: ts) = t :: completeJoins style ts := by
  have ht : t.isKeyword "JOIN" = false := by
    by_contra hjoin
    rw [isJoinWord_of_join (by simpa using hjoin)] at h
    cases h
  rw [completeFrom_cons, completeFrom_some_of_not style h, joinWord, ht]
  rfl

/-! ## Cuts -/

/-- Both parts of a cut with their joins in full; the first part follows the token `prev?`. -/
def completeCut (style : KeywordStyle) (prev? : Option Token) (cut : Cut) : Cut :=
  (completeFrom style prev? cut.1, completeJoins style cut.2)

/-- Cut before the first token at which `stop` holds in the state behind it. -/
def cutBy {σ : Type} (step : σ → Token → σ) (stop : σ → Token → Bool) (q : σ) : List Token → Option Cut
  | [] => none
  | t :: ts => if stop (step q t) t then some ([], t :: ts) else (cutBy step stop (step q t) ts).map (Cut.cons t)

theorem cutFirst_eq_cutBy (p : Token → Bool) (ts : List Token) :
    cutFirst p ts = cutBy (fun _ _ => ()) (fun _ t => p t) () ts := by
  induction ts with
  | nil => rfl
  | cons t ts ih => rw [cutFirst, cutBy, ih]

theorem cutTop_eq_cutBy (p : Token → Bool) (depth : Int) (ts : List Token) :
    cutTop p depth ts = cutBy (fun d t => d + t.level) (fun d t => decide (d = 0) && p t) depth ts := by
  induction ts generalizing depth with
  | nil => rfl
  | cons t ts ih => simp [cutTop, cutBy, ih]

theorem cutWhen_eq_cutBy (depth cases : Int) (ts : List Token) :
    cutWhen depth cases ts = cutBy (fun q t => (q.1 + t.level, q.2 + topCaseLevel (q.1 + t.level) t))
      (fun q t => t.isKeyword "WHEN" && decide (q.2 ≤ 1) && decide (q.1 = 0)) (depth, cases) ts := by
  induction ts generalizing depth cases with
  | nil => rfl
  | cons t ts ih => simp [cutWhen, cutBy, ih, and_assoc]

/-- A cut that passes over the words of joins does not see those that are put before joins. -/
theorem cutBy_completeFrom {σ : Type} (step : σ → Token → σ) (stop : σ → Token → Bool)
    (hstep : ∀ q t, isJoinWord t = true → step q t = q) (hstop : ∀ q t, isJoinWord t = true → stop q t = false)
    (style : KeywordStyle) (prev? : Option Token) (q : σ) (ts : List Token) :
    cutBy step stop q (completeFrom style prev? ts) = (cutBy step stop q ts).map (completeCut style prev?) := by
  induction ts generalizing prev? q with
  | nil => rfl
  | cons t ts ih =>
    have hcons : ∀ cut? : Option Cut, (cut?.map (completeCut style (some t))).map
        (fun cut => (joinWord style prev? t ++ t :: cut.1, cut.2)) =
          (cut?.map (Cut.cons t)).map (completeCut style prev?) := by
      intro cut?
      cases cut? <;> rfl
    rw [completeFrom_cons, cutBy]
    by_cases hs : stop (step q t) t = true
    · have ht : isJoinWord t = false := by
        by_contra hj
        rw [hstop _ t (by simpa using hj)] at hs
        cases hs
      rw [← completeFrom_cons, completeFrom_cons_of_not style prev? ht, cutBy, if_pos hs, if_pos hs, Option.map_some,
        ← completeFrom_cons_of_not style none ht]
      rfl
    · rw [if_neg hs, ← hcons, ← ih]
      rcases joinWord_word style prev? t with hnil | ⟨w, hw, -, hjoin, -⟩
      · rw [hnil, List.nil_append, cutBy, if_neg hs]
        rfl
      · rw [hw, List.singleton_append, cutBy, hstep q w hjoin, hstop q w hjoin, cutBy, if_neg hs, Option.map_map]
        rfl

def Blind (p : Token → Bool) : Prop :=
  ∀ t, isJoinWord t = true → p t = false

theorem cutFirst_completeFrom {p : Token → Bool} (hp : Blind p) (style : KeywordStyle) (prev? : Option Token)
    (ts : List Token) :
    cutFirst p (completeFrom style prev? ts) = (cutFirst p ts).map (completeCut style prev?) := by
  rw [cutFirst_eq_cutBy, cutFirst_eq_cutBy, cutBy_completeFrom _ _ (fun _ _ _ => rfl) fun _ => hp]

theorem cutTop_completeFrom {p : Token → Bool} (hp : Blind p) (style : KeywordStyle) (prev? : Option Token)
    (depth : Int) (ts : List Token) :
    cutTop p depth (completeFrom style prev? ts) = (cutTop p depth ts).map (completeCut style prev?) := by
  rw [cutTop_eq_cutBy, cutTop_eq_cutBy, cutBy_completeFrom]
  · intro d t ht
    rw [level_of_isJoinWord ht, Int.add_zero]
  · intro d t ht
    rw [hp t ht, Bool.and_false]

theorem cutWhen_completeFrom (style : KeywordStyle) (prev? : Option Token) (depth cases : Int) (ts : List Token) :
    cutWhen depth cases (completeFrom style prev? ts) = (cutWhen depth cases ts).map (completeCut style prev?) := by
  rw [cutWhen_eq_cutBy, cutWhen_eq_cutBy, cutBy_completeFrom]
  · intro q t ht
    have hcase : caseLevel t = 0 := by
      simp [caseLevel, isKeyword_of_isJoinWord ht (w := "CASE") (by decide),
        isKeyword_of_isJoinWord ht (w := "END") (by decide)]
    simp [level_of_isJoinWord ht, topCaseLevel, hcase]
  · intro q t ht
    simp [isKeyword_of_isJoinWord ht (w := "WHEN") (by decide)]

theorem cutLast_completeFrom {p : Token → Bool} (hp : Blind p) (style : KeywordStyle) (prev? : Option Token)
    (depth : Int) (ts : List Token) :
    cutLast p depth (completeFrom style prev? ts) = (cutLast p depth ts).map (completeCut style prev?) := by
  induction ts generalizing prev? depth with
  | nil => rfl
  | cons t ts ih =>
    have hnot : p t = true → isJoinWord t = false := by
      intro hpt
      by_contra hj
      rw [hp t (by simpa using hj)] at hpt
      cases hpt
    have hword (w : Token) (us : List Token) (hw : isJoinWord w = true) :
        cutLast p depth (w :: us) = (cutLast p depth us).map (Cut.cons w) := by
      rw [cutLast, level_of_isJoinWord hw, Int.add_zero, hp w hw]
      cases cutLast p depth us <;> simp
    rcases joinWord_word style prev? t with hnil | ⟨w, hw, ht, hjoin, -⟩
    · rw [completeFrom_cons, hnil, List.nil_append, cutLast, cutLast, ih]
      cases cutLast p (depth + t.level) ts with
      | some cut => simp [completeCut, Cut.cons, completeFrom_cons, hnil]
      | none =>
        simp only [Option.map_none]
        split
        · next h =>
          rw [completeFrom_some_of_not style (hnot h.2), ← completeFrom_cons_of_not style none (hnot h.2)]
          rfl
        · rfl
    · rw [completeFrom_cons, hw, List.singleton_append, hword w _ hjoin, hword t _ (isJoinWord_of_join ht),
        hword t _ (isJoinWord_of_join ht), ih]
      cases cutLast p depth ts with
      | some cut => simp [completeCut, Cut.cons, completeFrom_cons, hw]
      | none => rfl

/-- A cut at a word of a join falls before the word that is put before the join. -/
theorem cutTop_isJoinWord (style : KeywordStyle) (prev? : Option Token) (depth : Int) (ts : List Token)
    (hprev : depth = 0 → missingJoinWord prev? = missingJoinWord none) :
    cutTop isJoinWord depth (completeFrom style prev? ts) =
      (cutTop isJoinWord depth ts).map (completeCut style prev?) := by
  induction ts generalizing prev? depth with
  | nil => rfl
  | cons t ts ih =>
    by_cases hcut : depth + t.level = 0 ∧ isJoinWord t = true
    · have hdepth : depth = 0 := by
        rw [level_of_isJoinWord hcut.2, Int.add_zero] at hcut
        exact hcut.1
      have hsame : completeFrom style prev? (t :: ts) = completeJoins style (t :: ts) := by
        rw [completeJoins, completeFrom_cons, completeFrom_cons, joinWord, joinWord, hprev hdepth]
      have hhead : ∃ u us, completeJoins style (t :: ts) = u :: us ∧ isJoinWord u = true := by
        rw [completeJoins, completeFrom_cons]
        rcases joinWord_word style none t with hnil | ⟨w, hw, -, hjoin, -⟩
        · exact ⟨t, _, by rw [hnil]; rfl, hcut.2⟩
        · exact ⟨w, _, by rw [hw]; rfl, hjoin⟩
      obtain ⟨u, us, hus, hu⟩ := hhead
      rw [hsame, cutTop, if_pos hcut, Option.map_some, completeCut, hus, cutTop,
        if_pos ⟨by rw [hdepth, level_of_isJoinWord hu]; rfl, hu⟩]
      rfl
    · have hrest : cutTop isJoinWord (depth + t.level) (completeFrom style (some t) ts) =
          (cutTop isJoinWord (depth + t.level) ts).map (completeCut style (some t)) := by
        apply ih
        intro hzero
        exact missingJoinWord_of_not (by simpa [hzero] using hcut)
      rw [completeFrom_cons, cutTop, if_neg hcut]
      rcases joinWord_word style prev? t with hnil | ⟨w, hw, ht, hjoin, -⟩
      · rw [hnil, List.nil_append, cutTop, if_neg hcut, hrest]
        cases cutTop isJoinWord (depth + t.level) ts with
        | none => rfl
        | some cut => simp [completeCut, Cut.cons, completeFrom_cons, hnil]
      · have hdeep : ¬ (depth + w.level = 0 ∧ isJoinWord w = true) := by
          rw [level_of_isJoinWord hjoin]
          rw [level_of_isJoinWord (isJoinWord_of_join ht)] at hcut
          exact fun h => hcut ⟨h.1, isJoinWord_of_join ht⟩
        rw [hw, List.singleton_append, cutTop, if_neg hdeep, level_of_isJoinWord hjoin, Int.add_zero, cutTop,
          if_neg hcut, hrest]
        cases cutTop isJoinWord (depth + t.level) ts with
        | none => rfl
        | some cut => simp [completeCut, Cut.cons, completeFrom_cons, hw]

theorem blind_isKeyword {w : String} (hw : w ∉ joinWords) : Blind fun t => t.isKeyword w :=
  fun _ ht => isKeyword_of_isJoinWord ht hw

theorem blind_of_kind {p : Token → Bool} (hp : ∀ t, t.kind = .keyword → p t = false) : Blind p :=
  fun t ht => hp t (isJoinWord_iff.1 ht).1

theorem Blind.not {p : Token → Bool} (hp : Blind p) {t : Token} (ht : p t = true) : isJoinWord t = false := by
  by_contra hj
  rw [hp t (by simpa using hj)] at ht
  cases ht

theorem cutClause_completeFrom {own : String} {stops : List String} (hown : own ∉ joinWords)
    (hstops : ∀ w ∈ stops, w ∉ joinWords) (style : KeywordStyle) (prev? : Option Token) (ts : List Token) :
    cutClause own stops (completeFrom style prev? ts) = (cutClause own stops ts).map (completeCut style prev?) := by
  have hblind : Blind fun t => t.isKeyword own || t.isKeywordOf stops := by
    intro t ht
    simp only [isKeyword_of_isJoinWord ht hown, isKeywordOf_of_isJoinWord ht hstops, Bool.or_false]
  rw [cutClause, cutClause, cutTop_completeFrom hblind]
  cases hcut : cutTop (fun t => t.isKeyword own || t.isKeywordOf stops) 0 ts with
  | none => rfl
  | some cut =>
    obtain ⟨t, rest, hrest, ht⟩ := cutTop_found _ _ _ _ hcut
    have hhead : (completeCut style prev? cut).2.head? = cut.2.head? := by
      rw [completeCut, hrest, completeJoins, completeFrom_cons_of_not style none (hblind.not ht)]
      rfl
    simp only [Option.map_some, Option.filter_some, hhead]
    split <;> rfl

theorem cutClose_eq (ts : List Token) : cutClose ts = cutTop (fun t => t.kind == .rightBracket) 1 ts := by
  suffices h : ∀ depth : Int, 1 ≤ depth →
      cutTop (fun _ => true) depth ts = cutTop (fun t => t.kind == .rightBracket) depth ts from h 1 (Int.le_refl 1)
  induction ts with
  | nil => exact fun _ _ => rfl
  | cons t ts ih =>
    intro depth hdepth
    rw [cutTop, cutTop]
    by_cases hzero : depth + t.level = 0
    · have hk : t.kind = .rightBracket := Token.kind_of_level_neg (by omega)
      simp [hzero, hk]
    · have := t.neg_one_le_level
      rw [if_neg (fun h => hzero h.1), if_neg (fun h => hzero h.1), ih _ (by omega)]

theorem cutClose_completeFrom (style : KeywordStyle) (prev? : Option Token) (ts : List Token) :
    cutClose (completeFrom style prev? ts) = (cutClose ts).map (completeCut style prev?) := by
  rw [cutClose_eq, cutClose_eq, cutTop_completeFrom (blind_of_kind fun t ht => by simp [ht])]

theorem cutBefore_completeFrom {stops : List String} (hstops : ∀ w ∈ stops, w ∉ joinWords) (style : KeywordStyle)
    (prev? : Option Token) (ts : List Token) :
    cutBefore stops (completeFrom style prev? ts) = (cutBefore stops ts).map (completeCut style prev?) := by
  induction stops with
  | nil => rfl
  | cons w stops ih =>
    obtain ⟨hw, hrest⟩ := List.forall_mem_cons.1 hstops
    have hblind := blind_isKeyword hw
    have hstop : (cutFirst (fun t => t.isKeyword w) (completeFrom style prev? ts)).filter (fun cut => 1 < cut.2.length) =
        ((cutFirst (fun t => t.isKeyword w) ts).filter fun cut => 1 < cut.2.length).map (completeCut style prev?) := by
      rw [cutFirst_completeFrom hblind]
      cases hcut : cutFirst (fun t => t.isKeyword w) ts with
      | none => rfl
      | some cut =>
        obtain ⟨t, rest, hrest, ht⟩ := cutFirst_found _ _ _ hcut
        have hlength : 1 < (completeCut style prev? cut).2.length ↔ 1 < cut.2.length := by
          rw [completeCut, hrest, completeJoins, completeFrom_cons_of_not style none (hblind.not ht)]
          simp only [List.length_cons, Nat.lt_add_left_iff_pos, List.length_pos_iff, completeJoins, ne_eq,
            completeFrom_eq_nil]
        simp only [Option.map_some, Option.filter_some, decide_eq_true_eq, hlength]
        split <;> rfl
    rw [cutBefore] at ih ⊢
    rw [cutBefore] at ih ⊢
    rw [List.findSome?_cons, List.findSome?_cons, ih hrest, hstop]
    cases (cutFirst (fun t => t.isKeyword w) ts).filter fun cut => decide (1 < cut.2.length) <;> rfl

/-! ## Parts -/

theorem completeJoins_nil (style : KeywordStyle) : completeJoins style [] = [] := rfl

theorem completeJoins_cons (style : KeywordStyle) {t : Token} (h : isJoinWord t = false) (ts : List Token) :
    completeJoins style (t :: ts) = t :: completeJoins style ts :=
  completeFrom_cons_of_not style none h ts

theorem completeJoins_append (style : KeywordStyle) (ts : List Token) {t : Token} (h : isJoinWord t = false)
    (us : List Token) : completeJoins style (ts ++ t :: us) = completeJoins style ts ++ t :: completeJoins style us := by
  rw [completeJoins, completeFrom_append, completeFrom_cons_of_not style _ h]
  rfl

theorem completeJoins_take (style : KeywordStyle) (n : Nat) (ts : List Token)
    (h : ∀ t ∈ ts.take n, isJoinWord t = false) :
    (completeJoins style ts).take n = completeJoins style (ts.take n) ∧
      (completeJoins style ts).drop n = completeJoins style (ts.drop n) := by
  induction n generalizing ts with
  | zero => exact ⟨rfl, rfl⟩
  | succ n ih =>
    cases ts with
    | nil => exact ⟨rfl, rfl⟩
    | cons t ts =>
      rw [List.take_succ_cons, List.forall_mem_cons] at h
      obtain ⟨htake, hdrop⟩ := ih ts h.2
      rw [completeJoins_cons style h.1, List.take_succ_cons, List.take_succ_cons, List.drop_succ_cons, List.drop_succ_cons,
        completeJoins_cons style h.1, htake]
      exact ⟨rfl, hdrop⟩

theorem completeJoins_concat (style : KeywordStyle) (ts : List Token) (t : Token) :
    completeJoins style (ts ++ [t]) = completeJoins style ts ++ (joinWord style ts.getLast? t ++ [t]) := by
  rw [completeJoins, completeFrom_append, Option.or_none, completeFrom_cons]
  rfl

theorem itemsFrom_completeJoins (style : KeywordStyle) (depth : Int) (cur ts : List Token) :
    itemsFrom depth (completeJoins style cur) (completeFrom style cur.getLast? ts) =
      (itemsFrom depth cur ts).map (completeJoins style) := by
  induction ts generalizing depth cur with
  | nil =>
    have hempty : (completeJoins style cur).isEmpty = cur.isEmpty := by
      rw [Bool.eq_iff_iff, List.isEmpty_iff, List.isEmpty_iff]
      exact completeFrom_eq_nil style none cur
    rw [completeFrom, itemsFrom, itemsFrom, hempty]
    split <;> rfl
  | cons t ts ih =>
    have hword (cur' us : List Token) (w : Token) (hw : isJoinWord w = true) :
        itemsFrom depth cur' (w :: us) = itemsFrom depth (cur' ++ [w]) us := by
      rw [itemsFrom, if_neg (by simp [(isJoinWord_iff.1 hw).1]), level_of_isJoinWord hw, Int.add_zero]
    have hgrown := fun d => ih d (cur ++ [t])
    rw [completeJoins_concat, List.getLast?_concat] at hgrown
    rw [completeFrom_cons]
    rcases joinWord_word style cur.getLast? t with hnil | ⟨w, hw, ht, hjoin, -⟩
    · rw [hnil, List.nil_append] at hgrown ⊢
      rw [itemsFrom, itemsFrom, hgrown]
      split
      · next hcomma =>
        have hlone : completeJoins style [t] = [t] :=
          completeFrom_cons_of_not style none (isJoinWord_of_kind (by simp [hcomma.1])) []
        have hnext := ih (depth + t.level) [t]
        rw [hlone, List.getLast?_singleton] at hnext
        rw [hnext, List.map_cons]
      · rfl
    · have hlevel := level_of_isJoinWord (isJoinWord_of_join ht)
      rw [hw, List.singleton_append, hword _ _ w hjoin, hword _ _ t (isJoinWord_of_join ht),
        hword _ _ t (isJoinWord_of_join ht), ← hgrown, hw, List.append_assoc]

theorem items_completeJoins (style : KeywordStyle) (ts : List Token) :
    items (completeJoins style ts) = (items ts).map (completeJoins style) :=
  itemsFrom_completeJoins style 0 [] ts

theorem role_isJoinWord (p : Progress) {t : Token} (ht : isJoinWord t = true) : p.role t = .continues := by
  unfold Progress.role
  split
  · rfl
  · rw [if_neg (by simp [(isJoinWord_iff.1 ht).1]),
      if_neg (by simp [isKeywordOf_of_isJoinWord ht (by decide : ∀ w ∈ ["AND", "OR"], w ∉ joinWords)])]

theorem terms_isJoinWord (p : Progress) (cur ts : List Token) {t : Token} (ht : isJoinWord t = true) :
    p.terms cur (t :: ts) = p.terms (cur ++ [t]) ts := by
  have hword {w : String} (hw : w ∉ joinWords) := isKeyword_of_isJoinWord ht hw
  have hnext : p.next t = p := by
    obtain ⟨depth, cases, pending⟩ := p
    unfold Progress.next
    split
    · simp [level_of_isJoinWord ht]
    · simp [level_of_isJoinWord ht, caseLevel, hword (w := "CASE") (by decide), hword (w := "END") (by decide),
        hword (w := "BETWEEN") (by decide), hword (w := "AND") (by decide)]
  rw [Progress.terms_cons, role_isJoinWord p ht, hnext]
  rfl

/-- Each word of a join stands behind another one, a name or a right bracket. -/
def JoinsFollow (ts : List Token) : Prop :=
  ts.IsChain fun t next =>
    isJoinWord next = true → isJoinWord t = true ∨ t.kind = .identifier ∨ t.kind = .rightBracket

instance (ts : List Token) : Decidable (JoinsFollow ts) :=
  inferInstanceAs (Decidable (List.IsChain _ ts))

theorem JoinsFollow.piece {ts us : List Token} (h : JoinsFollow ts) (hus : us <:+: ts) : JoinsFollow us :=
  List.IsChain.infix h hus

theorem JoinsFollow.tail {t : Token} {ts : List Token} (h : JoinsFollow (t :: ts)) : JoinsFollow ts :=
  h.piece (List.suffix_cons t ts).isInfix

theorem JoinsFollow.next {t : Token} {ts : List Token} (h : JoinsFollow (t :: ts)) (ht : isJoinWord t = false)
    (hname : t.kind ≠ .identifier) (hright : t.kind ≠ .rightBracket) : ∀ u ∈ ts.head?, isJoinWord u = false := by
  intro u hu
  obtain ⟨us, rfl⟩ := List.head?_eq_some_iff.1 hu
  by_contra hj
  rcases (List.isChain_cons_cons.1 h).1 (by simpa using hj) with htrue | hk | hk
  · rw [ht] at htrue
    cases htrue
  · exact hname hk
  · exact hright hk

theorem length_le_completeFrom (style : KeywordStyle) (prev? : Option Token) (ts : List Token) :
    ts.length ≤ (completeFrom style prev? ts).length := by
  induction ts generalizing prev? with
  | nil => exact Nat.le_refl 0
  | cons t ts ih =>
    have := ih (some t)
    rw [completeFrom_cons, List.length_append, List.length_cons, List.length_cons]
    omega

theorem one_lt_length_completeJoins (style : KeywordStyle) (ts : List Token)
    (h : ∀ t ∈ ts.head?, isJoinWord t = false) : 1 < (completeJoins style ts).length ↔ 1 < ts.length := by
  rcases ts with _ | ⟨t, _ | ⟨u, us⟩⟩
  case nil => rfl
  case cons.nil =>
    rw [completeJoins, completeFrom_cons_of_not style none (h t rfl)]
    rfl
  case cons.cons =>
    have := length_le_completeFrom style none (t :: u :: us)
    simp only [completeJoins, List.length_cons] at this ⊢
    omega

theorem terms_completeFrom (style : KeywordStyle) (p : Progress) (cur ts : List Token) (h : JoinsFollow ts)
    (hhead : ∀ t ∈ (cur ++ ts).head?, isJoinWord t = false) :
    p.terms (completeJoins style cur) (completeFrom style cur.getLast? ts) =
      (p.terms cur ts).map (completeJoins style) := by
  induction ts generalizing p cur with
  | nil =>
    rw [List.append_nil] at hhead
    rw [completeFrom, Progress.terms, Progress.terms, termsFrom, termsFrom]
    simp only [one_lt_length_completeJoins style cur hhead]
    split <;> rfl
  | cons t ts ih =>
    have hgrown (q : Progress) := ih q (cur ++ [t]) h.tail (by simpa using hhead)
    rw [completeJoins_concat, List.getLast?_concat] at hgrown
    rw [completeFrom_cons]
    rcases joinWord_word style cur.getLast? t with hnil | ⟨w, hw, ht, hjoin, -⟩
    · rw [hnil, List.nil_append] at hgrown ⊢
      rw [Progress.terms_cons, Progress.terms_cons, List.map_append]
      cases hrole : p.role t with
      | continues => exact hgrown (p.next t)
      | begins =>
        have ht : isJoinWord t = false := by
          by_contra hj
          rw [role_isJoinWord p (by simpa using hj)] at hrole
          cases hrole
        have hlone : completeJoins style [t] = [t] := completeFrom_cons_of_not style none ht []
        have hnext := ih (p.next t) [t] h.tail (by simpa using ht)
        rw [hlone, List.getLast?_singleton] at hnext
        exact congrArg ([completeJoins style cur] ++ ·) hnext
      | aside =>
        have hk := kind_of_aside hrole
        have ht : isJoinWord t = false := isJoinWord_of_kind (by simp [hk])
        have hlone : completeJoins style [t] = [t] := completeFrom_cons_of_not style none ht []
        have hnext := ih (p.next t) [] h.tail (h.next ht (by simp [hk]) (by simp [hk]))
        rw [completeFrom_some_of_not style ht]
        simp only [Role.closes, Role.opens, List.map_cons, List.map_nil, hlone, ← hnext]
        rfl
    · have hboth := isJoinWord_of_join ht
      rw [hw, List.singleton_append, terms_isJoinWord _ _ _ hjoin, terms_isJoinWord _ _ _ hboth,
        terms_isJoinWord _ _ _ hboth, ← hgrown, hw, List.append_assoc]

theorem terms_completeJoins (style : KeywordStyle) {ts : List Token} (h : JoinsFollow ts)
    (hhead : ∀ t ∈ ts.head?, isJoinWord t = false) :
    terms (completeJoins style ts) = (terms ts).map (completeJoins style) :=
  terms_completeFrom style {} [] ts h hhead

end SqlStyle.Layout
