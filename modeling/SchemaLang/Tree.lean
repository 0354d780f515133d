/-!
# Trees of named entries

Object types and object literals have one shape: an object is a list of entries in
source order, each a key with a tree, down to leaves that are values. `Tree.fold`
replaces objects from the leaves up, `fold_leaf` and `fold_object` are its equations,
and `Tree.ind` is induction for statements about trees.
-/
namespace SchemaLang

inductive Tree (κ α : Type) where
  | leaf (value : α)
  | object (entries : List (κ × Tree κ α))

namespace Tree

variable {κ μ α β : Type}

mutual

/-- Replaces leaves by `leaf` and objects, whose entries have been replaced, by `object`. -/
def fold (leaf : α → β) (object : List (κ × β) → β) : Tree κ α → β
  | .leaf value => leaf value
  | .object entries => object (foldEntries leaf object entries)

/-- Folds the tree of each entry. -/
def foldEntries (leaf : α → β) (object : List (κ × β) → β) : List (κ × Tree κ α) → List (κ × β)
  | [] => []
  | (key, tree) :: entries => (key, fold leaf object tree) :: foldEntries leaf object entries

end

theorem foldEntries_eq_map (leaf : α → β) (object : List (κ × β) → β)
    (entries : List (κ × Tree κ α)) :
    foldEntries leaf object entries = entries.map fun e => (e.1, fold leaf object e.2) := by
  induction entries with
  | nil => rfl
  | cons e es ih => simp [foldEntries, ih]

@[simp] theorem fold_leaf (leaf : α → β) (object : List (κ × β) → β) (value : α) :
    fold leaf object (.leaf value) = leaf value := rfl

@[simp] theorem fold_object (leaf : α → β) (object : List (κ × β) → β)
    (entries : List (κ × Tree κ α)) :
    fold leaf object (.object entries) =
      object (entries.map fun e => (e.1, fold leaf object e.2)) := by
  rw [fold, foldEntries_eq_map]

/-- What holds of leaves, and of objects whose entries it holds of, holds of all trees. -/
@[elab_as_elim] theorem ind {P : Tree κ α → Prop} (leaf : ∀ value, P (.leaf value))
    (object : ∀ entries, (∀ e ∈ entries, P e.2) → P (.object entries)) (tree : Tree κ α) :
    P tree :=
  Tree.rec (motive_2 := fun es => ∀ e ∈ es, P e.2) (motive_3 := fun e => P e.2) leaf object
    (by simp) (fun _ _ he hes => List.forall_mem_cons.2 ⟨he, hes⟩) (fun _ _ h => h) tree

/-- The entries of an object; a leaf has none. -/
def entries : Tree κ α → List (κ × Tree κ α)
  | .leaf _ => []
  | .object entries => entries

/-- The same tree with `f` applied to its keys. -/
def mapKeys (f : κ → μ) : Tree κ α → Tree μ α :=
  fold .leaf fun entries => .object (entries.map fun e => (f e.1, e.2))

@[simp] theorem mapKeys_leaf (f : κ → μ) (value : α) :
    mapKeys f (.leaf value) = .leaf value := rfl

@[simp] theorem mapKeys_object (f : κ → μ) (entries : List (κ × Tree κ α)) :
    mapKeys f (.object entries) = .object (entries.map fun e => (f e.1, mapKeys f e.2)) := by
  simp [mapKeys, Function.comp_def]

theorem fold_mapKeys (f : κ → μ) (leaf : α → β) (object : List (μ × β) → β) (tree : Tree κ α) :
    (tree.mapKeys f).fold leaf object =
      tree.fold leaf fun es => object (es.map fun e => (f e.1, e.2)) := by
  induction tree using Tree.ind with
  | leaf value => rfl
  | object entries ih =>
    simp only [mapKeys_object, fold_object, List.map_map]
    exact congrArg object (List.map_congr_left fun e he => Prod.ext rfl (ih e he))

mutual

/-- Equal shape, equal keys and equal leaves. -/
protected def equals (key : κ → κ → Bool) (leaf : α → α → Bool) : Tree κ α → Tree κ α → Bool
  | .leaf a, .leaf b => leaf a b
  | .object es, .object fs => equalEntries key leaf es fs
  | _, _ => false

/-- The same for entries, one by one. -/
def equalEntries (key : κ → κ → Bool) (leaf : α → α → Bool) :
    List (κ × Tree κ α) → List (κ × Tree κ α) → Bool
  | [], [] => true
  | (j, t) :: es, (k, u) :: fs =>
    key j k && Tree.equals key leaf t u && equalEntries key leaf es fs
  | _, _ => false

end

end Tree

end SchemaLang
