import SchemaLang.Proofs.Parser.Rules

/-!
# Programs and the places of their names

A program without its places is what two texts of different layout have in common.
`mapPositions` puts the names of a program elsewhere and `erase` puts them all at
the start; what a program is apart from places is what both leave alone, and the
rules beyond the grammar belong to that.
-/
namespace SchemaLang

variable (f : Position → Position)

/-- The same name, elsewhere. -/
def Ident.mapPositions (i : Ident) : Ident := ⟨i.name, f i.position⟩

@[simp] theorem Ident.mapPositions_name (i : Ident) : (i.mapPositions f).name = i.name := rfl

def TypeLeaf.mapPositions : TypeLeaf → TypeLeaf
  | primitive type => primitive type
  | named type => named (type.mapPositions f)

def TypeRef.mapPositions (type : TypeRef) : TypeRef :=
  Tree.map (Ident.mapPositions f) (TypeLeaf.mapPositions f) type

def Fields.mapPositions (fields : Fields) : Fields :=
  fields.map (Prod.map (Ident.mapPositions f) (TypeRef.mapPositions f))

/-- The fields of an object type move as the object type does. -/
theorem Fields.object_mapPositions (fields : Fields) :
    Tree.object (Fields.mapPositions f fields) = TypeRef.mapPositions f (.object fields) :=
  (Tree.map_object _ _ fields).symm

namespace Declaration

def mapPositions : Declaration → Declaration
  | type name fields => type (name.mapPositions f) (Fields.mapPositions f fields)
  | binding kind name value => binding kind (name.mapPositions f) value

@[simp] theorem mapPositions_name (d : Declaration) :
    (d.mapPositions f).name = d.name.mapPositions f := by
  cases d <;> rfl

theorem distinct_mapPositions (d : Declaration) : (d.mapPositions f).Distinct ↔ d.Distinct := by
  cases d with
  | type i fields =>
    simp only [mapPositions, Distinct, Fields.object_mapPositions]
    exact Tree.distinct_map _ _ _ _
  | binding kind i v => exact Iff.rfl

theorem height_mapPositions (d : Declaration) : (d.mapPositions f).height = d.height := by
  cases d with
  | type i fields =>
    simp only [mapPositions, height, Fields.object_mapPositions]
    exact Tree.height_map _ _ _
  | binding kind i v => rfl

end Declaration

namespace Module

def mapPositions (m : Module) : Module where
  name := m.name.mapPositions f
  declarations := m.declarations.map (Declaration.mapPositions f)

theorem distinct_mapPositions (m : Module) : (m.mapPositions f).Distinct ↔ m.Distinct := by
  simp only [mapPositions, Distinct, List.map_map, Function.comp_def, List.forall_mem_map,
    Declaration.mapPositions_name, Ident.mapPositions_name, Declaration.distinct_mapPositions]

end Module

namespace Program

def mapPositions (p : Program) : Program := ⟨p.modules.map (Module.mapPositions f)⟩

/-- The program with all of its places forgotten. -/
def erase (p : Program) : Program := p.mapPositions fun _ => .start

theorem distinct_mapPositions (p : Program) : (p.mapPositions f).Distinct ↔ p.Distinct := by
  simp only [mapPositions, Distinct, List.forall_mem_map, Module.distinct_mapPositions]

theorem nestedWithin_mapPositions (n : Nat) (p : Program) :
    (p.mapPositions f).NestedWithin n ↔ p.NestedWithin n := by
  simp only [mapPositions, NestedWithin, List.forall_mem_map, Module.mapPositions,
    Declaration.height_mapPositions]

/-- Programs that differ in places alone keep the rules alike. -/
theorem distinct_of_erase_eq {p q : Program} (h : p.erase = q.erase) : p.Distinct ↔ q.Distinct := by
  rw [← distinct_mapPositions (fun _ => .start) p, ← distinct_mapPositions (fun _ => .start) q]
  exact iff_of_eq (congrArg Distinct h)

theorem nestedWithin_of_erase_eq {p q : Program} (h : p.erase = q.erase) (n : Nat) :
    p.NestedWithin n ↔ q.NestedWithin n := by
  rw [← nestedWithin_mapPositions (fun _ => .start), ← nestedWithin_mapPositions (fun _ => .start) n q]
  exact iff_of_eq (congrArg (NestedWithin n) h)

end Program

end SchemaLang
