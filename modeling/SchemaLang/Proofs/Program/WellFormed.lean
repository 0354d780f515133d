import SchemaLang.Proofs.Lexer.Lexical
import SchemaLang.Proofs.Program.Positions

/-!
# Well-formed programs

A program can be written down only if all of its names are words that are not
reserved and all of its floating point numbers are values of plain decimal
numerals. Together with the rules beyond the grammar this is `WellFormed`. It is
a property of what is left of a program when its places are forgotten.
-/
namespace SchemaLang

open Lexical

/-- A word that is not reserved. -/
def IsName (name : String) : Prop := IsWord name.toList ∧ WordClass name .identifier

/-- Digits, a dot and digits, perhaps with a minus sign in front. -/
inductive IsDecimal : List Char → Prop where
  | plain {ds fs : List Char} : IsDigits ds → IsDigits fs → IsDecimal (ds ++ '.' :: fs)
  | negated {ds fs : List Char} :
      IsDigits ds → IsDigits fs → IsDecimal ('-' :: (ds ++ '.' :: fs))

namespace Tree

variable {κ μ α β : Type}

/-- All keys and all leaves of the tree are as they should be. -/
def All (key : κ → Prop) (leaf : α → Prop) : Tree κ α → Prop :=
  fold leaf fun es => ∀ e ∈ es, key e.1 ∧ e.2

@[simp] theorem all_leaf (key : κ → Prop) (leaf : α → Prop) (a : α) :
    (Tree.leaf a).All key leaf ↔ leaf a := Iff.rfl

@[simp] theorem all_object (key : κ → Prop) (leaf : α → Prop) (es : List (κ × Tree κ α)) :
    (Tree.object es).All key leaf ↔ ∀ e ∈ es, key e.1 ∧ e.2.All key leaf := by
  simp only [All, fold_object, List.forall_mem_map]

theorem all_map (f : κ → μ) (g : α → β) (key : μ → Prop) (leaf : β → Prop) (tree : Tree κ α) :
    (tree.map f g).All key leaf ↔ tree.All (key ∘ f) (leaf ∘ g) := by
  induction tree using Tree.ind with
  | leaf a => rfl
  | object es ih =>
    simp only [map_object, all_object, List.forall_mem_map, Prod.map_fst, Prod.map_snd]
    exact forall₂_congr fun e he => and_congr_right fun _ => ih e he

theorem All.imp {key key' : κ → Prop} {leaf leaf' : α → Prop} {tree : Tree κ α}
    (h : tree.All key leaf) (hk : ∀ k, key k → key' k) (hl : ∀ a, leaf a → leaf' a) :
    tree.All key' leaf' := by
  induction tree using Tree.ind with
  | leaf a => exact hl a h
  | object es ih =>
    rw [all_object] at h ⊢
    intro e he
    exact ⟨hk _ (h e he).1, ih e he (h e he).2⟩

end Tree

/-- What a reference names has to be a name. -/
def TypeLeaf.Spellable : TypeLeaf → Prop
  | primitive _ => True
  | named type => IsName type.name

/-- Texts, integers and truth values can all be written, numbers only as decimals. -/
def Scalar.Spellable : Scalar → Prop
  | float x => ∃ cs, IsDecimal cs ∧ Numeral.Binary64.ofText? (String.ofList cs) = some x
  | _ => True

namespace Declaration

def Spellable : Declaration → Prop
  | type name fields =>
    IsName name.name ∧ (Tree.object fields).All (fun i => IsName i.name) TypeLeaf.Spellable
  | binding _ name value => IsName name.name ∧ value.All IsName Scalar.Spellable

theorem spellable_mapPositions (f : Position → Position) (d : Declaration) :
    (d.mapPositions f).Spellable ↔ d.Spellable := by
  cases d with
  | type i fields =>
    have hleaf : TypeLeaf.Spellable ∘ TypeLeaf.mapPositions f = TypeLeaf.Spellable := by
      funext a
      cases a <;> rfl
    simp only [mapPositions, Spellable, Fields.object_mapPositions, TypeRef.mapPositions,
      Tree.all_map, hleaf]
    rfl
  | binding kind i v => exact Iff.rfl

end Declaration

/-- All names of the module and its numbers can be written. -/
def Module.Spellable (m : Module) : Prop :=
  IsName m.name.name ∧ ∀ d ∈ m.declarations, d.Spellable

theorem Module.spellable_mapPositions (f : Position → Position) (m : Module) :
    (m.mapPositions f).Spellable ↔ m.Spellable := by
  simp only [mapPositions, Spellable, List.forall_mem_map, Declaration.spellable_mapPositions]
  rfl

namespace Program

def Spellable (p : Program) : Prop := ∀ m ∈ p.modules, m.Spellable

theorem spellable_of_erase_eq {p q : Program} (h : p.erase = q.erase) :
    p.Spellable ↔ q.Spellable := by
  have herase : ∀ r : Program, r.erase.Spellable ↔ r.Spellable := by
    intro r
    simp only [erase, mapPositions, Spellable, List.forall_mem_map, Module.spellable_mapPositions]
  rw [← herase p, h, herase q]

/-- The program can be written, no scope of it repeats a name and no more than 128 of its
objects stand within each other. -/
structure WellFormed (p : Program) : Prop where
  spellable : p.Spellable
  distinct : p.Distinct
  nested : p.NestedWithin 128

theorem wellFormed_of_erase_eq {p q : Program} (h : p.erase = q.erase) (hq : q.WellFormed) :
    p.WellFormed where
  spellable := (spellable_of_erase_eq h).2 hq.spellable
  distinct := (distinct_of_erase_eq h).2 hq.distinct
  nested := (nestedWithin_of_erase_eq h 128).2 hq.nested

end Program

end SchemaLang
