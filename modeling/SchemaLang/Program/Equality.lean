import SchemaLang.Program.Basic

/-!
# Equality of programs

Programs are compared part by part, positions included, and floating point
values by numeric equality: the two zeros are equal, and a value that is not a
number makes a program differ even from itself.
-/
namespace SchemaLang

def Scalar.equals : Scalar → Scalar → Bool
  | .float x, .float y => x.equals y
  | a, b => a = b

def Literal.equals (a b : Literal) : Bool := Tree.equals (· = ·) Scalar.equals a b

def TypeRef.equals (a b : TypeRef) : Bool := Tree.equals (· = ·) (· = ·) a b

def Declaration.equals : Declaration → Declaration → Bool
  | .type m a, .type n b => m = n && TypeRef.equals (.object a) (.object b)
  | .binding k m a, .binding l n b => k = l && m = n && a.equals b
  | _, _ => false

def Module.equals (m n : Module) : Bool :=
  m.name = n.name && List.isEqv m.declarations n.declarations Declaration.equals

def Program.equals (p q : Program) : Bool := List.isEqv p.modules q.modules Module.equals

end SchemaLang
