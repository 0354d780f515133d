import SchemaLang.Position
import SchemaLang.Numeral.Binary64
import SchemaLang.Tree

/-!
# Programs

A program is a list of modules, a module a list of declarations. A declaration
names an object type, or binds a name to a literal. Object types and object
literals keep their entries in source order.
-/
namespace SchemaLang

/-- A name where it is written. -/
structure Ident where
  name : String
  position : Position
  deriving DecidableEq, Repr

inductive Primitive where
  | number
  | string
  | boolean
  deriving DecidableEq, Repr

namespace Primitive

def name : Primitive → String
  | number => "Number"
  | string => "String"
  | boolean => "Boolean"

/-- The primitive type of the given name, letters of the right case only. -/
def ofName? (name : String) : Option Primitive :=
  [number, string, boolean].find? (·.name = name)

end Primitive

/-- A type other than an object type. What a name refers to is left open. -/
inductive TypeLeaf where
  | primitive (type : Primitive)
  | named (type : Ident)
  deriving DecidableEq, Repr

abbrev TypeRef := Tree Ident TypeLeaf

/-- The fields of an object type. -/
abbrev Fields := List (Ident × TypeRef)

inductive Scalar where
  | integer (value : Int64)
  | float (value : Numeral.Binary64)
  | string (value : String)
  | boolean (value : Bool)
  deriving DecidableEq, Repr

abbrev Literal := Tree String Scalar

inductive BindingKind where
  | constant
  | letBound
  deriving DecidableEq, Repr

/-- The keyword of the binding. -/
def BindingKind.keyword : BindingKind → String
  | constant => "const"
  | letBound => "let"

inductive Declaration where
  | type (name : Ident) (fields : Fields)
  | binding (kind : BindingKind) (name : Ident) (value : Literal)

def Declaration.name : Declaration → Ident
  | type name _ => name
  | binding _ name _ => name

structure Module where
  name : Ident
  declarations : List Declaration

structure Program where
  modules : List Module

/-- How many declarations the modules have in all. -/
def Program.declarationCount (p : Program) : Nat :=
  (p.modules.flatMap (·.declarations)).length

end SchemaLang
