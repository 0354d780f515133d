import SchemaLang.Program.Json
import SchemaLang.Proofs.Program.WellFormed
import SchemaLang.Proofs.Text.Json

/-!
# The JSON of programs and tokens is lossless

Each part of a program, and each token, can be told from its JSON document. If all doubles
are finite, so can the whole from the text of the document on one line.
-/
namespace SchemaLang

variable {α β : Type}

/-- A map that tells the members of a list apart from everything else tells the list apart. -/
theorem map_inj_of_mem {f : α → β} {as bs : List α} (h : ∀ a ∈ as, ∀ b, f a = f b → a = b)
    (heq : as.map f = bs.map f) : as = bs := by
  induction as generalizing bs with
  | nil => exact (List.map_eq_nil_iff.1 heq.symm).symm
  | cons a as ih =>
    cases bs with
    | nil => exact nomatch heq
    | cons b bs =>
      obtain ⟨ha, has⟩ := List.forall_mem_cons.1 h
      rw [List.map_cons, List.map_cons, List.cons.injEq] at heq
      rw [ha b heq.1, ih has heq.2]

section Documents

theorem Position.toJson_injective : Function.Injective Position.toJson := by
  rintro ⟨line, column⟩ ⟨line', column'⟩ h
  simp only [toJson, Json.object.injEq, List.cons.injEq, Prod.mk.injEq, Json.integer.injEq,
    Int.natCast_inj, true_and, and_true] at h
  rw [h.1, h.2]

theorem TokenKind.name_injective : Function.Injective TokenKind.name := by
  intro a b h
  cases a <;> cases b <;> first | rfl | exact absurd h (by decide)

theorem Token.toJson_injective : Function.Injective Token.toJson := by
  rintro ⟨kind, lexeme, position⟩ ⟨kind', lexeme', position'⟩ h
  simp only [toJson, Json.object.injEq, List.cons.injEq, Prod.mk.injEq, Json.string.injEq,
    true_and, and_true] at h
  rw [TokenKind.name_injective h.1, h.2.1, Position.toJson_injective h.2.2]

theorem Token.listToJson_injective : Function.Injective Token.listToJson := by
  intro ts us h
  exact List.map_injective_iff.2 Token.toJson_injective (Json.array.inj h)

theorem Ident.toJson_injective : Function.Injective Ident.toJson := by
  rintro ⟨name, position⟩ ⟨name', position'⟩ h
  simp only [toJson, Json.object.injEq, List.cons.injEq, Prod.mk.injEq, Json.string.injEq,
    true_and, and_true] at h
  rw [h.1, Position.toJson_injective h.2]

theorem Primitive.name_injective : Function.Injective Primitive.name := by
  intro a b h
  cases a <;> cases b <;> first | rfl | exact absurd h (by decide)

theorem TypeLeaf.toJson_injective : Function.Injective TypeLeaf.toJson := by
  intro a b h
  cases a with
  | primitive type =>
    cases b with
    | primitive other =>
      simp only [toJson, Json.object.injEq, List.cons.injEq, Prod.mk.injEq, Json.string.injEq,
        true_and, and_true] at h
      rw [Primitive.name_injective h]
    | named other => simp [toJson] at h
  | named type =>
    cases b with
    | primitive other => simp [toJson] at h
    | named other =>
      simp only [toJson, Json.object.injEq, List.cons.injEq, Prod.mk.injEq, true_and,
        and_true] at h
      rw [Ident.toJson_injective h]

theorem fieldsJson_injective : Function.Injective fieldsJson := by
  intro fields others h
  simp only [fieldsJson, Json.object.injEq, List.cons.injEq, Prod.mk.injEq, Json.array.injEq,
    true_and, and_true] at h
  refine List.map_injective_iff.2 ?_ h
  rintro ⟨name, type⟩ ⟨name', type'⟩ hfield
  simp only [Json.object.injEq, List.cons.injEq, Prod.mk.injEq, true_and, and_true] at hfield
  rw [Ident.toJson_injective hfield.1, hfield.2]

theorem TypeRef.toJson_object (fields : Fields) :
    TypeRef.toJson (.object fields) = .object [("Object", Fields.toJson fields)] := by
  rw [TypeRef.toJson, Tree.fold_object]
  rfl

/-- No leaf is written as an object. -/
theorem TypeLeaf.toJson_ne_object (a : TypeLeaf) (json : Json) :
    a.toJson ≠ .object [("Object", json)] := by
  cases a <;> simp [toJson]

theorem TypeRef.toJson_injective : Function.Injective TypeRef.toJson := by
  intro type
  induction type using Tree.ind with
  | leaf a =>
    intro other h
    cases other with
    | leaf b => rw [TypeLeaf.toJson_injective h]
    | object fields =>
      rw [TypeRef.toJson_object] at h
      exact absurd h (a.toJson_ne_object _)
  | object fields ih =>
    intro other h
    cases other with
    | leaf b =>
      rw [TypeRef.toJson_object] at h
      exact absurd h.symm (b.toJson_ne_object _)
    | object others =>
      simp only [TypeRef.toJson_object, Json.object.injEq, List.cons.injEq, Prod.mk.injEq,
        true_and, and_true] at h
      rw [map_inj_of_mem ?_ (fieldsJson_injective h)]
      intro f hmem g hfield
      obtain ⟨hname, htype⟩ := Prod.mk.inj hfield
      exact Prod.ext hname (ih f hmem htype)

theorem Fields.toJson_injective : Function.Injective Fields.toJson := by
  intro fields others h
  have htype : TypeRef.toJson (.object fields) = TypeRef.toJson (.object others) := by
    rw [TypeRef.toJson_object, TypeRef.toJson_object, h]
  exact Tree.object.inj (TypeRef.toJson_injective htype)

theorem Scalar.toJson_injective : Function.Injective Scalar.toJson := by
  intro a b h
  cases a <;> cases b <;> simp_all [toJson, Int64.toInt_inj]

theorem Scalar.toJson_ne_object (a : Scalar) (members : List (String × Json)) :
    a.toJson ≠ .object [("Object", .object members)] := by
  cases a <;> simp [toJson]

theorem Literal.toJson_object (entries : List (String × Literal)) :
    Literal.toJson (.object entries) =
      .object [("Object", .object (entries.map fun e => (e.1, Literal.toJson e.2)))] := by
  rw [Literal.toJson, Tree.fold_object]
  rfl

/-- Entries stay in order, so repeated keys are told apart too. -/
theorem Literal.toJson_injective : Function.Injective Literal.toJson := by
  intro value
  induction value using Tree.ind with
  | leaf a =>
    intro other h
    cases other with
    | leaf b => rw [Scalar.toJson_injective h]
    | object entries =>
      rw [Literal.toJson_object] at h
      exact absurd h (a.toJson_ne_object _)
  | object entries ih =>
    intro other h
    cases other with
    | leaf b =>
      rw [Literal.toJson_object] at h
      exact absurd h.symm (b.toJson_ne_object _)
    | object others =>
      simp only [Literal.toJson_object, Json.object.injEq, List.cons.injEq, Prod.mk.injEq,
        true_and, and_true] at h
      rw [map_inj_of_mem ?_ h]
      intro e hmem f hentry
      obtain ⟨hkey, hvalue⟩ := Prod.mk.inj hentry
      exact Prod.ext hkey (ih e hmem hvalue)

theorem Declaration.toJson_injective : Function.Injective Declaration.toJson := by
  intro d e h
  cases d with
  | type name fields =>
    cases e with
    | type name' fields' =>
      simp only [toJson, Json.object.injEq, List.cons.injEq, Prod.mk.injEq, true_and,
        and_true] at h
      rw [Ident.toJson_injective h.1, Fields.toJson_injective h.2]
    | binding kind name' value => simp [toJson] at h
  | binding kind name value =>
    cases e with
    | type name' fields => simp [toJson] at h
    | binding kind' name' value' =>
      simp only [toJson, Json.object.injEq, List.cons.injEq, Prod.mk.injEq, Json.string.injEq,
        true_and, and_true] at h
      have hkind : kind = kind' := by
        cases kind <;> cases kind' <;> first | rfl | exact absurd h.1 (by decide)
      rw [hkind, Ident.toJson_injective h.2.1, Literal.toJson_injective h.2.2]

theorem Module.toJson_injective : Function.Injective Module.toJson := by
  rintro ⟨name, declarations⟩ ⟨name', declarations'⟩ h
  simp only [toJson, Json.object.injEq, List.cons.injEq, Prod.mk.injEq, Json.array.injEq,
    true_and, and_true] at h
  rw [Ident.toJson_injective h.1, List.map_injective_iff.2 Declaration.toJson_injective h.2]

theorem Program.toJson_injective : Function.Injective Program.toJson := by
  rintro ⟨modules⟩ ⟨modules'⟩ h
  simp only [toJson, Json.object.injEq, List.cons.injEq, Prod.mk.injEq, Json.array.injEq,
    true_and, and_true] at h
  rw [List.map_injective_iff.2 Module.toJson_injective h]

end Documents

section Finite

def Scalar.IsFinite : Scalar → Prop
  | float value => value.isFinite
  | _ => True

/-- All doubles in the literal are finite. -/
def Declaration.IsFinite : Declaration → Prop
  | type _ _ => True
  | binding _ _ value => value.All (fun _ => True) Scalar.IsFinite

/-- No double of the program is infinite or undefined. -/
def Program.IsFinite (p : Program) : Prop := ∀ m ∈ p.modules, ∀ d ∈ m.declarations, d.IsFinite

/-- An object is finite if its members are, one by one. -/
theorem Json.finite_nil : (Json.object []).Finite := .object (by simp)

theorem Json.finite_cons {name : String} {value : Json} {members : List (String × Json)}
    (hv : value.Finite) (h : (Json.object members).Finite) :
    (Json.object ((name, value) :: members)).Finite := by
  cases h with
  | object hm => exact .object (List.forall_mem_cons.2 ⟨hv, hm⟩)

theorem Position.toJson_finite (p : Position) : p.toJson.Finite :=
  Json.finite_cons .integer (Json.finite_cons .integer Json.finite_nil)

theorem Token.toJson_finite (t : Token) : t.toJson.Finite :=
  Json.finite_cons .string
    (Json.finite_cons .string (Json.finite_cons t.position.toJson_finite Json.finite_nil))

theorem Token.listToJson_finite (ts : List Token) : (Token.listToJson ts).Finite :=
  .array (List.forall_mem_map.2 fun t _ => t.toJson_finite)

theorem Ident.toJson_finite (i : Ident) : i.toJson.Finite :=
  Json.finite_cons .string (Json.finite_cons i.position.toJson_finite Json.finite_nil)

theorem TypeLeaf.toJson_finite (a : TypeLeaf) : a.toJson.Finite := by
  cases a with
  | primitive type => exact Json.finite_cons .string Json.finite_nil
  | named type => exact Json.finite_cons type.toJson_finite Json.finite_nil

theorem fieldsJson_finite {fields : List (Ident × Json)} (h : ∀ f ∈ fields, f.2.Finite) :
    (fieldsJson fields).Finite := by
  have hfields : (Json.array (fields.map fun f =>
      .object [("name", f.1.toJson), ("ty", f.2)])).Finite := by
    refine .array (List.forall_mem_map.2 fun f hf => ?_)
    exact Json.finite_cons f.1.toJson_finite (Json.finite_cons (h f hf) Json.finite_nil)
  exact Json.finite_cons hfields Json.finite_nil

/-- There are no doubles in types. -/
theorem TypeRef.toJson_finite (type : TypeRef) : type.toJson.Finite := by
  induction type using Tree.ind with
  | leaf a => exact a.toJson_finite
  | object fields ih =>
    rw [TypeRef.toJson_object]
    exact Json.finite_cons (fieldsJson_finite (List.forall_mem_map.2 ih)) Json.finite_nil

theorem Fields.toJson_finite (fields : Fields) : (Fields.toJson fields).Finite :=
  fieldsJson_finite (List.forall_mem_map.2 fun f _ => TypeRef.toJson_finite f.2)

theorem Scalar.toJson_finite {a : Scalar} (h : a.IsFinite) : a.toJson.Finite := by
  cases a with
  | integer value => exact Json.finite_cons .integer Json.finite_nil
  | float value => exact Json.finite_cons (.float h) Json.finite_nil
  | string value => exact Json.finite_cons .string Json.finite_nil
  | boolean value => exact Json.finite_cons .bool Json.finite_nil

theorem Literal.toJson_finite {value : Literal} (h : value.All (fun _ => True) Scalar.IsFinite) :
    value.toJson.Finite := by
  induction value using Tree.ind with
  | leaf a => exact Scalar.toJson_finite h
  | object entries ih =>
    rw [Tree.all_object] at h
    rw [Literal.toJson_object]
    have hentries : (Json.object (entries.map fun e => (e.1, Literal.toJson e.2))).Finite :=
      .object (List.forall_mem_map.2 fun e he => ih e he (h e he).2)
    exact Json.finite_cons hentries Json.finite_nil

theorem Declaration.toJson_finite {d : Declaration} (h : d.IsFinite) : d.toJson.Finite := by
  cases d with
  | type name fields =>
    exact Json.finite_cons .string (Json.finite_cons name.toJson_finite
      (Json.finite_cons (Fields.toJson_finite fields) Json.finite_nil))
  | binding kind name value =>
    exact Json.finite_cons .string (Json.finite_cons name.toJson_finite
      (Json.finite_cons (Literal.toJson_finite h) Json.finite_nil))

theorem Program.toJson_finite {p : Program} (h : p.IsFinite) : p.toJson.Finite := by
  have hmodules : (Json.array (p.modules.map (·.toJson))).Finite := by
    refine .array (List.forall_mem_map.2 fun m hm => ?_)
    have hdeclarations : (Json.array (m.declarations.map (·.toJson))).Finite :=
      .array (List.forall_mem_map.2 fun d hd => Declaration.toJson_finite (h m hm d hd))
    exact Json.finite_cons m.name.toJson_finite (Json.finite_cons hdeclarations Json.finite_nil)
  exact Json.finite_cons hmodules Json.finite_nil

end Finite

/-- The JSON of programs and of token lists is lossless. Programs whose doubles are all finite
are equal if their texts on one line are, whatever else they hold, and bit for bit; and so are
token lists. -/
theorem json_lossless :
    (∀ p q : Program, p.IsFinite → q.IsFinite →
      p.toJson.text .compact = q.toJson.text .compact → p = q) ∧
    (∀ ts us : List Token,
      (Token.listToJson ts).text .compact = (Token.listToJson us).text .compact → ts = us) := by
  constructor
  · intro p q hp hq h
    exact Program.toJson_injective
      (Json.eq_of_text_compact (Program.toJson_finite hp) (Program.toJson_finite hq) h)
  · intro ts us h
    exact Token.listToJson_injective
      (Json.eq_of_text_compact (Token.listToJson_finite ts) (Token.listToJson_finite us) h)

/-- A literal that has one key twice, with the given numbers. -/
def twiceKeyed (x y : Numeral.Binary64) : Program :=
  ⟨[⟨⟨"m", ⟨1, 8⟩⟩, [.binding .letBound ⟨"x", ⟨1, 16⟩⟩
    (.object [("k", .leaf (.float x)), ("k", .leaf (.float y))])]⟩]⟩

/-- The two zeros are told apart, and so is the order of two entries with one key. -/
theorem twiceKeyed_told_apart :
    (twiceKeyed (.ofRank false 0) (.ofRank true 0)).IsFinite ∧
    (twiceKeyed (.ofRank true 0) (.ofRank false 0)).IsFinite ∧
    (twiceKeyed (.ofRank false 0) (.ofRank true 0)).toJson.text .compact ≠
      (twiceKeyed (.ofRank true 0) (.ofRank false 0)).toJson.text .compact := by
  have hplus : (Numeral.Binary64.ofRank false 0).isFinite := by decide
  have hminus : (Numeral.Binary64.ofRank true 0).isFinite := by decide
  have hp : (twiceKeyed (.ofRank false 0) (.ofRank true 0)).IsFinite := by
    simp [twiceKeyed, Program.IsFinite, Declaration.IsFinite, Scalar.IsFinite, hplus, hminus]
  have hq : (twiceKeyed (.ofRank true 0) (.ofRank false 0)).IsFinite := by
    simp [twiceKeyed, Program.IsFinite, Declaration.IsFinite, Scalar.IsFinite, hplus, hminus]
  refine ⟨hp, hq, fun h => ?_⟩
  have heq := json_lossless.1 _ _ hp hq h
  have hzero : Numeral.Binary64.ofRank false 0 = .ofRank true 0 := by
    simp only [twiceKeyed, Program.mk.injEq, List.cons.injEq, Module.mk.injEq,
      Declaration.binding.injEq, Tree.object.injEq, Prod.mk.injEq, Tree.leaf.injEq,
      Scalar.float.injEq, and_true, true_and] at heq
    exact heq.1
  exact absurd hzero (by decide)

end SchemaLang
