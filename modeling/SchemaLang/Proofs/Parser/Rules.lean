import SchemaLang.Parser.Machine

/-!
# The rules beyond the grammar

Names within one scope are different, and objects are nested only so deep. Both
are properties of the program alone: `Distinct` says that no scope of a tree, a
module or a program repeats a name, and `height` counts the objects around the
innermost one. `duplicate?_eq_none_iff` ties the first to the check that runs at
each closing brace.
-/
namespace SchemaLang

namespace Tree

variable {κ μ ν α β γ : Type}

/-- The same tree with `f` applied to its keys and `g` to its leaves. -/
def map (f : κ → μ) (g : α → β) : Tree κ α → Tree μ β :=
  fold (fun a => .leaf (g a)) fun es => .object (es.map fun e => (f e.1, e.2))

@[simp] theorem map_leaf (f : κ → μ) (g : α → β) (a : α) :
    (Tree.leaf a).map f g = .leaf (g a) := rfl

@[simp] theorem map_object (f : κ → μ) (g : α → β) (es : List (κ × Tree κ α)) :
    (Tree.object es).map f g = .object (es.map (Prod.map f (map f g))) := by
  simp only [map, fold_object, List.map_map]
  rfl

theorem map_map (f : κ → μ) (g : α → β) (f' : μ → ν) (g' : β → γ) (tree : Tree κ α) :
    (tree.map f g).map f' g' = tree.map (f' ∘ f) (g' ∘ g) := by
  induction tree using Tree.ind with
  | leaf a => rfl
  | object es ih =>
    simp only [map_object, List.map_map]
    refine congrArg Tree.object (List.map_congr_left fun e he => ?_)
    exact Prod.ext rfl (ih e he)

theorem mapKeys_eq_map (f : κ → μ) (tree : Tree κ α) : tree.mapKeys f = tree.map f id := rfl

/-- No object of the tree has two entries of one name. -/
def Distinct (name : κ → String) : Tree κ α → Prop :=
  fold (fun _ => True) fun es => (es.map fun e => name e.1).Nodup ∧ ∀ e ∈ es, e.2

@[simp] theorem distinct_leaf (name : κ → String) (a : α) :
    (Tree.leaf a).Distinct name := trivial

@[simp] theorem distinct_object (name : κ → String) (es : List (κ × Tree κ α)) :
    (Tree.object es).Distinct name ↔
      (es.map fun e => name e.1).Nodup ∧ ∀ e ∈ es, e.2.Distinct name := by
  simp only [Distinct, fold_object, List.map_map, Function.comp_def, List.mem_map]
  constructor
  · intro h
    obtain ⟨hn, hes⟩ := h
    exact ⟨hn, fun e he => hes _ ⟨e, he, rfl⟩⟩
  · intro h
    obtain ⟨hn, hes⟩ := h
    refine ⟨hn, ?_⟩
    rintro _ ⟨e, he, rfl⟩
    exact hes e he

/-- How many objects stand within each other, at most. -/
def height : Tree κ α → Nat :=
  fold (fun _ => 0) fun es => (es.map (·.2)).foldr max 0 + 1

theorem foldr_max_le_iff (ks : List Nat) (n : Nat) : ks.foldr max 0 ≤ n ↔ ∀ k ∈ ks, k ≤ n := by
  induction ks with
  | nil => simp
  | cons k ks ih => simp only [List.foldr_cons, Nat.max_le, ih, List.forall_mem_cons]

theorem height_object_pos (es : List (κ × Tree κ α)) : 0 < (Tree.object es).height := by
  simp only [height, fold_object]
  omega

/-- An object is one higher than the highest of its entries. -/
theorem height_object_le_iff (es : List (κ × Tree κ α)) (n : Nat) :
    (Tree.object es).height ≤ n + 1 ↔ ∀ e ∈ es, e.2.height ≤ n := by
  simp only [height, fold_object, Nat.add_le_add_iff_right, foldr_max_le_iff, List.map_map,
    List.mem_map]
  constructor
  · intro h e he
    exact h _ ⟨e, he, rfl⟩
  · rintro h _ ⟨e, he, rfl⟩
    exact h e he

theorem distinct_map (f : κ → μ) (g : α → β) (name : μ → String) (tree : Tree κ α) :
    (tree.map f g).Distinct name ↔ tree.Distinct (name ∘ f) := by
  induction tree using Tree.ind with
  | leaf a => simp
  | object es ih =>
    simp only [map_object, distinct_object, List.map_map, Function.comp_def,
      List.forall_mem_map, Prod.map_fst, Prod.map_snd]
    exact and_congr_right fun _ => forall₂_congr ih

@[simp] theorem height_map (f : κ → μ) (g : α → β) (tree : Tree κ α) :
    (tree.map f g).height = tree.height := by
  induction tree using Tree.ind with
  | leaf a => rfl
  | object es ih =>
    simp only [map_object, height, fold_object, List.map_map, Function.comp_def, Prod.map_snd]
    have he : es.map (fun e => (e.2.map f g).height) = es.map fun e => e.2.height :=
      List.map_congr_left ih
    exact congrArg (fun ks => ks.foldr max 0 + 1) he

theorem distinct_mapKeys (f : κ → μ) (name : μ → String) (tree : Tree κ α) :
    (tree.mapKeys f).Distinct name ↔ tree.Distinct (name ∘ f) :=
  distinct_map f id name tree

@[simp] theorem height_mapKeys (f : κ → μ) (tree : Tree κ α) :
    (tree.mapKeys f).height = tree.height :=
  height_map f id tree

end Tree

namespace Declaration

def Distinct : Declaration → Prop
  | type _ fields => (Tree.object fields).Distinct (·.name)
  | binding _ _ value => value.Distinct id

def height : Declaration → Nat
  | type _ fields => (Tree.object fields).height
  | binding _ _ value => value.height

end Declaration

/-- The declarations of a module differ in name, whatever their kinds. -/
def Module.Distinct (m : Module) : Prop :=
  (m.declarations.map (·.name.name)).Nodup ∧ ∀ d ∈ m.declarations, d.Distinct

namespace Program

/-- No scope of the program repeats a name. Modules may. -/
def Distinct (p : Program) : Prop := ∀ m ∈ p.modules, m.Distinct

/-- At most `n` objects stand within each other; the braces of a module do not count. -/
def NestedWithin (n : Nat) (p : Program) : Prop :=
  ∀ m ∈ p.modules, ∀ d ∈ m.declarations, d.height ≤ n

end Program

theorem firstRepeat_eq_none_iff (seen names : List Ident) :
    firstRepeat seen names = none ↔
      (names.map (·.name)).Nodup ∧ ∀ i ∈ names, ∀ j ∈ seen, j.name ≠ i.name := by
  induction names generalizing seen with
  | nil => simp [firstRepeat]
  | cons i is ih =>
    rw [firstRepeat]
    cases hf : seen.find? (·.name = i.name) with
    | some j =>
      have hj := List.mem_of_find?_eq_some hf
      have hn : j.name = i.name := by simpa using List.find?_some hf
      simp only [reduceCtorEq, List.forall_mem_cons, false_iff]
      exact fun h => h.2.1 j hj hn
    | none =>
      have hi : ∀ j ∈ seen, j.name ≠ i.name := by simpa using hf
      simp only [ih, List.map_cons, List.nodup_cons, List.mem_map, List.forall_mem_cons]
      constructor
      · intro h
        obtain ⟨hn, his⟩ := h
        refine ⟨⟨?_, hn⟩, hi, fun k hk j hj => (his k hk).2 j hj⟩
        intro h
        obtain ⟨k, hk, he⟩ := h
        exact (his k hk).1 he.symm
      · intro h
        obtain ⟨⟨hn, hs⟩, -, his⟩ := h
        exact ⟨hs, fun k hk => ⟨fun he => hn ⟨k, hk, he.symm⟩, his k hk⟩⟩

/-- The check at a closing brace passes when the names all differ. -/
theorem duplicate?_eq_none_iff (scope : Scope) (names : List Ident) :
    duplicate? scope names = none ↔ (names.map (·.name)).Nodup := by
  simp [duplicate?, firstRepeat_eq_none_iff]

theorem OpenModule.close_eq_error {m : OpenModule} {e : ParseError} (h : m.close = .error e) :
    duplicate? .declaration (m.declarations.reverse.map (·.name)) = some e := by
  unfold close at h
  split at h
  · next hd => rw [hd, Except.error.inj h]
  · simp at h

def ParseError.IsDuplicate (e : ParseError) : Prop :=
  ∃ name scope first second, e = .duplicateName name scope first second

theorem duplicate?_isDuplicate {scope : Scope} {names : List Ident} {e : ParseError}
    (h : duplicate? scope names = some e) : e.IsDuplicate := by
  obtain ⟨⟨first, second⟩, -, rfl⟩ := Option.map_eq_some_iff.1 h
  exact ⟨_, _, _, _, rfl⟩

theorem OpenModule.close_isDuplicate {m : OpenModule} {e : ParseError}
    (h : m.close = .error e) : e.IsDuplicate :=
  duplicate?_isDuplicate (close_eq_error h)

end SchemaLang
