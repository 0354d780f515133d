import SchemaLang.Program.Basic
import SchemaLang.Text.Json
import SchemaLang.Token

/-!
# Tokens and programs as JSON documents
-/
namespace SchemaLang

def Position.toJson (p : Position) : Json :=
  .object [("line", .integer p.line), ("column", .integer p.column)]

def Token.toJson (t : Token) : Json :=
  .object [("kind", .string t.kind.name), ("lexeme", .string t.lexeme),
    ("position", t.position.toJson)]

/-- A token list as one document. -/
def Token.listToJson (tokens : List Token) : Json := .array (tokens.map Token.toJson)

def Ident.toJson (i : Ident) : Json :=
  .object [("name", .string i.name), ("position", i.position.toJson)]

def TypeLeaf.toJson : TypeLeaf → Json
  | primitive type => .object [("Primitive", .string type.name)]
  | named type => .object [("Named", type.toJson)]

/-- Fields whose types have been written. -/
def fieldsJson (fields : List (Ident × Json)) : Json :=
  .object [("fields",
    .array (fields.map fun f => .object [("name", f.1.toJson), ("ty", f.2)]))]

def TypeRef.toJson (type : TypeRef) : Json :=
  type.fold TypeLeaf.toJson fun fields => .object [("Object", fieldsJson fields)]

def Fields.toJson (fields : Fields) : Json :=
  fieldsJson (fields.map fun f => (f.1, TypeRef.toJson f.2))

def Scalar.toJson : Scalar → Json
  | integer value => .object [("Integer", .integer value.toInt)]
  | float value => .object [("Float", .float value)]
  | string value => .object [("String", .string value)]
  | boolean value => .object [("Boolean", .bool value)]

/-- The entries of an object literal become members in the same order. -/
def Literal.toJson (value : Literal) : Json :=
  value.fold Scalar.toJson fun entries => .object [("Object", .object entries)]

def Declaration.toJson : Declaration → Json
  | type name fields =>
    .object [("kind", .string "type"), ("name", name.toJson), ("body", Fields.toJson fields)]
  | binding kind name value =>
    .object [("kind", .string kind.keyword), ("name", name.toJson), ("value", value.toJson)]

def Module.toJson (m : Module) : Json :=
  .object [("name", m.name.toJson), ("declarations", .array (m.declarations.map (·.toJson)))]

def Program.toJson (p : Program) : Json :=
  .object [("modules", .array (p.modules.map (·.toJson)))]

end SchemaLang
