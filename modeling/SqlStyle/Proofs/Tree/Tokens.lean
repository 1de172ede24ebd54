import SqlStyle.Proofs.Tree.ReadBack

/-! The tokens of trees in reading order, and what they are in the tree of a statement: a condensed tree
holds the tokens of the statement without whitespace (`tokens_ofSql`). -/
namespace SqlStyle
set_option autoImplicit false

/-! ## Tokens without whitespace -/

namespace Token

/-- The tokens without the whitespace. -/
def code (ts : List Token) : List Token :=
  ts.filter fun t => t.kind != .whitespace

theorem code_append (ts us : List Token) : code (ts ++ us) = code ts ++ code us :=
  List.filter_append ts us

theorem code_code (ts : List Token) : code (code ts) = code ts := by
  rw [code, code, List.filter_filter]
  simp only [Bool.and_self]

end Token

namespace Tree
open Token

/-! ## Tokens of trees -/

def forestTokens (ts : List Tree) : List Token :=
  (forestNodes ts).flatMap fun n => n.tokens

@[simp] theorem forestTokens_nil : forestTokens [] = [] := rfl

@[simp] theorem forestTokens_cons (t : Tree) (ts : List Tree) :
    forestTokens (t :: ts) = t.tokens ++ forestTokens ts := by
  rw [forestTokens, forestNodes_cons, List.flatMap_append]
  rfl

@[simp] theorem tokens_node (n : Node) (ts : List Tree) :
    (node n ts).tokens = n.tokens ++ forestTokens ts := by
  rw [tokens, nodes, List.flatMap_cons]
  rfl

@[simp] theorem forestTokens_append (ts us : List Tree) :
    forestTokens (ts ++ us) = forestTokens ts ++ forestTokens us := by
  induction ts with
  | nil => rfl
  | cons t ts ih => rw [List.cons_append, forestTokens_cons, forestTokens_cons, ih, List.append_assoc]

theorem forestTokens_flatMap {α : Type} (as : List α) (f : α → List Tree) :
    forestTokens (as.flatMap f) = as.flatMap fun a => forestTokens (f a) := by
  induction as with
  | nil => rfl
  | cons a as ih => rw [List.flatMap_cons, forestTokens_append, ih, List.flatMap_cons]

/-! ## Trees within a tree -/

mutual

/-- The trees within a tree, itself first, in reading order. -/
def subtrees : Tree → List Tree
  | node n ts => node n ts :: forestSubtrees ts

def forestSubtrees : List Tree → List Tree
  | [] => []
  | t :: ts => subtrees t ++ forestSubtrees ts

end

theorem forall_mem_forestSubtrees_cons (p : Tree → Prop) (n : Node) (ls rest : List Tree) :
    (∀ t ∈ forestSubtrees (node n ls :: rest), p t) ↔
      p (node n ls) ∧ (∀ t ∈ forestSubtrees ls, p t) ∧ ∀ t ∈ forestSubtrees rest, p t := by
  rw [forestSubtrees, subtrees, List.cons_append, List.forall_mem_cons, List.forall_mem_append]

theorem forall_mem_forestSubtrees_append (p : Tree → Prop) (ts us : List Tree) :
    (∀ t ∈ forestSubtrees (ts ++ us), p t) ↔
      (∀ t ∈ forestSubtrees ts, p t) ∧ ∀ t ∈ forestSubtrees us, p t := by
  induction ts with
  | nil => simp [forestSubtrees]
  | cons t ts ih =>
    rw [List.cons_append, forestSubtrees, forestSubtrees, List.forall_mem_append,
      List.forall_mem_append, ih, and_assoc]

theorem forall_mem_forestSubtrees_flatMap {α : Type} (p : Tree → Prop) (f : α → List Tree)
    (as : List α) (h : ∀ a ∈ as, ∀ t ∈ forestSubtrees (f a), p t) :
    ∀ t ∈ forestSubtrees (as.flatMap f), p t := by
  induction as with
  | nil => simp [forestSubtrees]
  | cons a as ih =>
    rw [List.flatMap_cons, forall_mem_forestSubtrees_append]
    obtain ⟨ha, has⟩ := List.forall_mem_cons.1 h
    exact ⟨ha, ih has⟩

/-- A list of trees is built from its first line, the trees below that line and the trees after it. -/
theorem forestInduction {motive : List Tree → Prop} (nil : motive [])
    (cons : ∀ n ls rest, motive ls → motive rest → motive (node n ls :: rest)) (ts : List Tree) :
    motive ts :=
  match ts with
  | [] => nil
  | node n ls :: rest =>
    cons n ls rest (forestInduction nil cons ls) (forestInduction nil cons rest)

/-! ## The tree of a statement -/

theorem forestTokens_nest (condensed : Bool) (depth : Int) (ls : List Line) :
    forestTokens (nest condensed depth ls) = ls.flatMap Line.tokens := by
  have h := congrArg (List.flatMap Line.tokens) (toLine_forestNodes_nest condensed depth ls)
  rwa [List.flatMap_map] at h

theorem tokens_condense (ls : List Line) :
    (condense ls).flatMap Line.tokens = code (ls.flatMap Line.tokens) := by
  induction ls with
  | nil => rfl
  | cons l ls ih =>
    rw [condense] at ih ⊢
    rw [List.map_cons, List.filter_cons, List.flatMap_cons, code_append]
    split
    · rw [List.flatMap_cons, ih]
      rfl
    · next he =>
      have hl : code l.tokens = [] := by simpa [code] using he
      rw [hl, List.nil_append, ih]

/-- A condensed tree holds the tokens of the statement, in order, without the whitespace. -/
theorem tokens_ofSql (sql : String) : (ofSql true sql).tokens = code (Scan.scan sql).flatten := by
  have h : (numbered (Scan.scan sql)).flatMap Line.tokens = (Scan.scan sql).flatten := by
    rw [List.flatMap_def, tokens_numbered]
  rw [ofSql, ofLines, tokens_node, forestTokens_nest, if_pos rfl, tokens_condense, h]
  rfl

end Tree
end SqlStyle
