import SchemaLang.Program.Basic

/-!
# A program read in source order

Read from front to back, a program mentions names, primitive types and values: each
module before its declarations, each declaration before its body, and in a body each
field or key before what belongs to it.
-/
namespace SchemaLang

/-- What a single word, number or text of a program stands for. A key has no place. -/
inductive Mention where
  | name (i : Ident)
  | key (name : String)
  | primitive (type : Primitive)
  | scalar (value : Scalar)

/-- The name with its place, if it is kept. -/
def Mention.ident? : Mention → Option Ident
  | name i => some i
  | _ => none

namespace Tree

variable {κ μ α β : Type}

/-- Keys and leaves in order, each key in front of its tree. -/
def reading (key : κ → β) (leaf : α → β) : Tree κ α → List β :=
  fold (fun a => [leaf a]) fun es => es.flatMap fun e => key e.1 :: e.2

@[simp] theorem reading_leaf (key : κ → β) (leaf : α → β) (a : α) :
    (Tree.leaf a : Tree κ α).reading key leaf = [leaf a] := rfl

@[simp] theorem reading_object (key : κ → β) (leaf : α → β) (es : List (κ × Tree κ α)) :
    (Tree.object es).reading key leaf = es.flatMap fun e => key e.1 :: e.2.reading key leaf := by
  simp only [reading, fold_object, List.flatMap_map]

theorem reading_mapKeys (f : κ → μ) (key : μ → β) (leaf : α → β) (tree : Tree κ α) :
    (tree.mapKeys f).reading key leaf = tree.reading (fun k => key (f k)) leaf := by
  simp only [reading, fold_mapKeys, List.flatMap_map]

end Tree

/-- A reference mentions a name. -/
def TypeLeaf.mention : TypeLeaf → Mention
  | primitive type => .primitive type
  | named type => .name type

def Declaration.reading : Declaration → List Mention
  | type name fields => .name name :: (Tree.object fields).reading .name TypeLeaf.mention
  | binding _ name value => .name name :: value.reading .key .scalar

def Module.reading (m : Module) : List Mention :=
  .name m.name :: m.declarations.flatMap Declaration.reading

def Program.reading (p : Program) : List Mention := p.modules.flatMap Module.reading

end SchemaLang
