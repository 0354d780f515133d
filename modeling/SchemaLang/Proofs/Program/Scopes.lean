import SchemaLang.Proofs.Parser.Rules

/-!
# The scopes of a program

Each object type, each object literal and each module holds names that have to differ.
`scopes` lists these with what they are names of, and what is inside before what is
around it, as the closing braces come in a text.
-/
namespace SchemaLang

namespace Tree

variable {κ α : Type}

/-- The names of each object of the tree, those of an inner object first. -/
def scopes (name : κ → String) (scope : Scope) : Tree κ α → List (Scope × List String) :=
  fold (fun _ => []) fun es => es.flatMap (·.2) ++ [(scope, es.map fun e => name e.1)]

@[simp] theorem scopes_leaf (name : κ → String) (scope : Scope) (a : α) :
    (Tree.leaf a).scopes name scope = [] := rfl

@[simp] theorem scopes_object (name : κ → String) (scope : Scope) (es : List (κ × Tree κ α)) :
    (Tree.object es).scopes name scope =
      es.flatMap (fun e => e.2.scopes name scope) ++ [(scope, es.map fun e => name e.1)] := by
  simp only [scopes, fold_object, List.flatMap_map, List.map_map, Function.comp_def]

theorem scopes_mapKeys {μ : Type} (f : κ → μ) (name : μ → String) (scope : Scope)
    (tree : Tree κ α) :
    (tree.mapKeys f).scopes name scope = tree.scopes (fun k => name (f k)) scope := by
  simp only [scopes, fold_mapKeys, List.flatMap_map, List.map_map, Function.comp_def]

theorem distinct_iff_scopes (name : κ → String) (scope : Scope) (tree : Tree κ α) :
    tree.Distinct name ↔ ∀ s ∈ tree.scopes name scope, s.2.Nodup := by
  induction tree using Tree.ind with
  | leaf a => simp
  | object es ih =>
    simp only [distinct_object, scopes_object, List.forall_mem_append, List.forall_mem_flatMap,
      List.forall_mem_singleton]
    exact and_comm.trans (and_congr_left fun _ => forall₂_congr ih)

end Tree

def Declaration.scopes : Declaration → List (Scope × List String)
  | type _ fields => (Tree.object fields).scopes (·.name) .field
  | binding _ _ value => value.scopes id .key

/-- The declarations of a module are one scope, whatever their kinds. -/
def Module.scopes (m : Module) : List (Scope × List String) :=
  m.declarations.flatMap Declaration.scopes ++ [(.declaration, m.declarations.map (·.name.name))]

def Program.scopes (p : Program) : List (Scope × List String) := p.modules.flatMap Module.scopes

theorem Declaration.distinct_iff_scopes (d : Declaration) :
    d.Distinct ↔ ∀ s ∈ d.scopes, s.2.Nodup := by
  cases d with
  | type i fields => exact Tree.distinct_iff_scopes _ _ _
  | binding kind i v => exact Tree.distinct_iff_scopes _ _ _

theorem Module.distinct_iff_scopes (m : Module) : m.Distinct ↔ ∀ s ∈ m.scopes, s.2.Nodup := by
  simp only [Distinct, scopes, List.forall_mem_append, List.forall_mem_flatMap,
    List.forall_mem_singleton, Declaration.distinct_iff_scopes]
  exact and_comm

theorem Program.distinct_iff_scopes (p : Program) : p.Distinct ↔ ∀ s ∈ p.scopes, s.2.Nodup := by
  simp only [Distinct, scopes, List.forall_mem_flatMap, Module.distinct_iff_scopes]

end SchemaLang
