import SchemaLang.Program.Basic
import SchemaLang.Text.Term

/-!
# Programs as constructor terms
-/
namespace SchemaLang

def Position.toTerm (p : Position) : Term :=
  .record "Position" [("line", .word (toString p.line)), ("column", .word (toString p.column))]

def Ident.toTerm (i : Ident) : Term :=
  .record "Ident" [("name", .string i.name), ("position", i.position.toTerm)]

def TypeLeaf.toTerm : TypeLeaf → Term
  | primitive type => .apply "Primitive" [.word type.name]
  | named type => .apply "Named" [type.toTerm]

/-- Fields whose types have been written. -/
def fieldsTerm (fields : List (Ident × Term)) : Term :=
  .record "ObjectType" [("fields",
    .list (fields.map fun f => .record "Field" [("name", f.1.toTerm), ("ty", f.2)]))]

def TypeRef.toTerm (type : TypeRef) : Term :=
  type.fold TypeLeaf.toTerm fun fields => .apply "Object" [fieldsTerm fields]

def Fields.toTerm (fields : Fields) : Term :=
  fieldsTerm (fields.map fun f => (f.1, TypeRef.toTerm f.2))

def Scalar.toTerm : Scalar → Term
  | integer value => .apply "Integer" [.word (toString value.toInt)]
  | float value => .apply "Float" [.float value]
  | string value => .apply "String" [.string value]
  | boolean value => .apply "Boolean" [.word (if value then "true" else "false")]

/-- An entry of an object literal is a pair of its key and its value. -/
def Literal.toTerm (value : Literal) : Term :=
  value.fold Scalar.toTerm fun entries =>
    .apply "Object" [.list (entries.map fun e => .apply "" [.string e.1, e.2])]

def BindingKind.constructor : BindingKind → String
  | constant => "Const"
  | letBound => "Let"

def Declaration.toTerm : Declaration → Term
  | type name fields =>
    .apply "Type" [.record "TypeDecl" [("name", name.toTerm), ("body", Fields.toTerm fields)]]
  | binding kind name value =>
    .apply kind.constructor
      [.record "BindingDecl" [("name", name.toTerm), ("value", value.toTerm)]]

def Module.toTerm (m : Module) : Term :=
  .record "Module"
    [("name", m.name.toTerm), ("declarations", .list (m.declarations.map (·.toTerm)))]

def Program.toTerm (p : Program) : Term :=
  .record "Program" [("modules", .list (p.modules.map (·.toTerm)))]

end SchemaLang
