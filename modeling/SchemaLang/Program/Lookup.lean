import SchemaLang.Program.Basic

/-!
# Looking names up

Each lookup finds the first entry of the name asked for. A path of names leads
from a declaration down through fields or keys.
-/
namespace SchemaLang

def Module.declaration? (m : Module) (name : String) : Option Declaration :=
  m.declarations.find? (·.name.name = name)

def Fields.field? (fields : Fields) (name : String) : Option (Ident × TypeRef) :=
  fields.find? (·.1.name = name)

/-- The value of a key; scalars have none. -/
def Literal.get? (value : Literal) (key : String) : Option Literal :=
  match value with
  | .leaf _ => none
  | .object entries => (entries.find? (·.1 = key)).map (·.2)

/-- What a path of names can lead to. -/
inductive Node where
  | declaration (d : Declaration)
  | field (name : Ident) (type : TypeRef)
  | value (value : Literal)

/-- One step down. -/
def Node.child? (node : Node) (name : String) : Option Node :=
  match node with
  | declaration (.type _ fields) => (fields.field? name).map fun f => .field f.1 f.2
  | declaration (.binding _ _ literal) => (literal.get? name).map .value
  | field _ (.object fields) => (Fields.field? fields name).map fun f => .field f.1 f.2
  | field _ (.leaf _) => none
  | value literal => (literal.get? name).map .value

/-- What the path leads to from the declaration that its first name names. -/
def Module.lookup (m : Module) : List String → Option Node
  | [] => none
  | name :: path => do path.foldlM Node.child? (.declaration (← m.declaration? name))

end SchemaLang
