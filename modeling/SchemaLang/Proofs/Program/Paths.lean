import Mathlib.Data.List.Nodup
import SchemaLang.Program.Lookup
import SchemaLang.Proofs.Parser.Acceptance

/-!
# Names lead everywhere, and each to one place

A module has nodes: its declarations and, at any depth, the fields of its object types and
the entries of its object literals. `nodes` lists them in source order, each with the names
on the way down to it. Since no scope of a program repeats a name, the look-ups find all of
these and nothing else, and no two of them have the same way.
-/
namespace SchemaLang

/-- What comes of going down to the first item of a name and on from there. -/
def branches {ξ ν : Type} (name : ξ → String) (nodes : ξ → List (List String × ν))
    (items : List ξ) : List (List String × ν) :=
  items.flatMap fun x => (nodes x).map fun (path, node) => (name x :: path, node)

section Branches

variable {ξ ν : Type} {name : ξ → String} {nodes : ξ → List (List String × ν)} {items : List ξ}

theorem mem_branches_iff {path : List String} {node : ν} :
    (path, node) ∈ branches name nodes items ↔
      ∃ x ∈ items, ∃ rest, path = name x :: rest ∧ (rest, node) ∈ nodes x := by
  simp only [branches, List.mem_flatMap, List.mem_map, Prod.mk.injEq, Prod.exists]
  constructor
  · rintro ⟨x, hx, rest, _, hrest, rfl, rfl⟩
    exact ⟨x, hx, rest, rfl, hrest⟩
  · rintro ⟨x, hx, rest, rfl, hrest⟩
    exact ⟨x, hx, rest, node, hrest, rfl, rfl⟩

/-- What holds below each of the items holds of all. -/
theorem forall_mem_branches {P : ν → Prop} (h : ∀ x ∈ items, ∀ y ∈ nodes x, P y.2) :
    ∀ y ∈ branches name nodes items, P y.2 := by
  rintro ⟨path, node⟩ hy
  obtain ⟨x, hx, rest, -, hrest⟩ := mem_branches_iff.1 hy
  exact h x hx (rest, node) hrest

/-- Ways that are different below each of the items are different in all. -/
theorem nodup_branches (hnames : (items.map name).Nodup)
    (hnodes : ∀ x ∈ items, ((nodes x).map (·.1)).Nodup) :
    ((branches name nodes items).map (·.1)).Nodup := by
  have hpaths : (branches name nodes items).map (·.1) =
      items.flatMap fun x => ((nodes x).map (·.1)).map (name x :: ·) := by
    simp only [branches, List.map_flatMap, List.map_map, Function.comp_def]
  rw [hpaths, List.nodup_flatMap]
  constructor
  · intro x hx
    exact (hnodes x hx).map List.cons_injective
  · rw [List.Nodup, List.pairwise_map] at hnames
    refine hnames.imp fun {x y} hne => ?_
    intro path hx hy
    obtain ⟨_, -, rfl⟩ := List.mem_map.1 hx
    obtain ⟨_, -, heq⟩ := List.mem_map.1 hy
    exact hne (List.cons.inj heq).1.symm

/-- Where names differ, the first item of a name is the item of that name. -/
theorem find?_eq_some_iff_of_nodup (h : (items.map name).Nodup) {k : String} {x : ξ} :
    items.find? (name · = k) = some x ↔ x ∈ items ∧ name x = k := by
  constructor
  · intro hfind
    exact ⟨List.mem_of_find?_eq_some hfind, by simpa using List.find?_some hfind⟩
  · rintro ⟨hx, rfl⟩
    obtain ⟨y, hy⟩ := Option.isSome_iff_exists.1
      (List.find?_isSome.2 ⟨x, hx, by simp⟩ : (items.find? (name · = name x)).isSome)
    have hname : name y = name x := by simpa using List.find?_some hy
    rw [hy, List.inj_on_of_nodup_map h (List.mem_of_find?_eq_some hy) hx hname]

/-- A way down begins with the item of its first name and goes on from there. -/
theorem follow_eq_some_iff (hnames : (items.map name).Nodup) {follow : ξ → List String → Option ν}
    (hfollow : ∀ x ∈ items, ∀ path node, follow x path = some node ↔ (path, node) ∈ nodes x)
    {k : String} {path : List String} {node : ν} :
    ((items.find? (name · = k)).bind fun x => follow x path) = some node ↔
      (k :: path, node) ∈ branches name nodes items := by
  rw [mem_branches_iff, Option.bind_eq_some_iff]
  constructor
  · rintro ⟨x, hx, hnode⟩
    obtain ⟨hmem, rfl⟩ := (find?_eq_some_iff_of_nodup hnames).1 hx
    exact ⟨x, hmem, path, rfl, (hfollow x hmem path node).1 hnode⟩
  · rintro ⟨x, hmem, rest, heq, hnode⟩
    obtain ⟨rfl, rfl⟩ := List.cons.inj heq
    exact ⟨x, (find?_eq_some_iff_of_nodup hnames).2 ⟨hmem, rfl⟩,
      (hfollow x hmem path node).2 hnode⟩

/-- No way at all leads to the root, and every other one to an item first. -/
theorem nil_mem_cons_branches_iff {root node : ν} :
    ([], node) ∈ ([], root) :: branches name nodes items ↔ root = node := by
  rw [List.mem_cons, Prod.mk.injEq]
  constructor
  · rintro (⟨-, rfl⟩ | h)
    · rfl
    · obtain ⟨x, -, rest, heq, -⟩ := mem_branches_iff.1 h
      exact nomatch heq
  · rintro rfl
    exact .inl ⟨rfl, rfl⟩

theorem cons_mem_cons_branches_iff {root node : ν} {k : String} {path : List String} :
    (k :: path, node) ∈ ([], root) :: branches name nodes items ↔
      (k :: path, node) ∈ branches name nodes items := by
  simp

theorem nodup_cons_branches (root : ν) (hnames : (items.map name).Nodup)
    (hnodes : ∀ x ∈ items, ((nodes x).map (·.1)).Nodup) :
    ((([], root) :: branches name nodes items).map (·.1)).Nodup := by
  rw [List.map_cons, List.nodup_cons]
  refine ⟨?_, nodup_branches hnames hnodes⟩
  intro h
  obtain ⟨⟨_, node⟩, hmem, rfl⟩ := List.mem_map.1 h
  obtain ⟨x, -, rest, heq, -⟩ := mem_branches_iff.1 hmem
  exact nomatch heq

/-- Going down step by step leads to the listed nodes, if each step finds an item by name. -/
theorem foldlM_eq_some_iff {child : ν → String → Option ν} {item : ξ → ν} {root : ν}
    (hchild : ∀ k, child root k = (items.find? (name · = k)).map item)
    (hnames : (items.map name).Nodup)
    (hitems : ∀ x ∈ items, ∀ path node,
      path.foldlM child (item x) = some node ↔ (path, node) ∈ nodes x)
    (path : List String) (node : ν) :
    path.foldlM child root = some node ↔
      (path, node) ∈ ([], root) :: branches name nodes items := by
  cases path with
  | nil =>
    rw [nil_mem_cons_branches_iff, List.foldlM_nil]
    exact Option.some_inj
  | cons k path =>
    rw [cons_mem_cons_branches_iff, List.foldlM_cons, hchild,
      ← follow_eq_some_iff hnames hitems]
    cases items.find? (name · = k) <;> rfl

end Branches

namespace Tree

variable {κ α ν : Type}

mutual

/-- The node of a tree with its key, and all nodes below, each with the names that lead to it. -/
def nodes (name : κ → String) (node : κ → Tree κ α → ν) (key : κ) :
    Tree κ α → List (List String × ν)
  | .leaf value => [([], node key (.leaf value))]
  | .object entries => ([], node key (.object entries)) :: entryNodes name node entries

/-- The nodes of all entries. -/
def entryNodes (name : κ → String) (node : κ → Tree κ α → ν) :
    List (κ × Tree κ α) → List (List String × ν)
  | [] => []
  | (key, tree) :: entries =>
    ((nodes name node key tree).map fun (path, x) => (name key :: path, x)) ++
      entryNodes name node entries

end

theorem entryNodes_eq_branches (name : κ → String) (node : κ → Tree κ α → ν)
    (entries : List (κ × Tree κ α)) :
    entryNodes name node entries =
      branches (fun e => name e.1) (fun e => nodes name node e.1 e.2) entries := by
  induction entries with
  | nil => rfl
  | cons e es ih =>
    rw [entryNodes, ih]
    rfl

section

variable {name : κ → String} {node : κ → Tree κ α → ν}

theorem nodes_eq (key : κ) (tree : Tree κ α) :
    tree.nodes name node key = ([], node key tree) ::
      branches (fun e => name e.1) (fun e => nodes name node e.1 e.2) tree.entries := by
  cases tree with
  | leaf value => rfl
  | object entries =>
    rw [nodes, entryNodes_eq_branches]
    rfl

theorem Distinct.nodup_entries {tree : Tree κ α} (h : tree.Distinct name) :
    (tree.entries.map fun e => name e.1).Nodup := by
  cases tree with
  | leaf value => exact List.nodup_nil
  | object entries => exact ((distinct_object name entries).1 h).1

theorem Distinct.of_mem_entries {tree : Tree κ α} (h : tree.Distinct name) :
    ∀ e ∈ tree.entries, e.2.Distinct name := by
  cases tree with
  | leaf value => simp [entries]
  | object entries => exact ((distinct_object name entries).1 h).2

theorem nodup_nodes {tree : Tree κ α} (h : tree.Distinct name) (key : κ) :
    ((tree.nodes name node key).map (·.1)).Nodup := by
  induction tree using Tree.ind generalizing key with
  | leaf value => simp [nodes]
  | object entries ih =>
    rw [nodes_eq]
    exact nodup_cons_branches _ h.nodup_entries fun e he => ih e he (h.of_mem_entries e he) e.1

/-- From a tree all its nodes are reached, and nothing else is. -/
theorem foldlM_eq_some_iff_mem_nodes {child : ν → String → Option ν}
    (hchild : ∀ key (tree : Tree κ α) k, child (node key tree) k =
      (tree.entries.find? (name ·.1 = k)).map fun e => node e.1 e.2)
    {tree : Tree κ α} (h : tree.Distinct name) (key : κ) (path : List String) (x : ν) :
    path.foldlM child (node key tree) = some x ↔ (path, x) ∈ tree.nodes name node key := by
  induction tree using Tree.ind generalizing key path x with
  | leaf value =>
    rw [nodes_eq]
    exact foldlM_eq_some_iff (hchild key _) h.nodup_entries (fun e he => nomatch he) path x
  | object entries ih =>
    rw [nodes_eq]
    exact foldlM_eq_some_iff (hchild key _) h.nodup_entries
      (fun e he => ih e he (h.of_mem_entries e he) e.1) path x

/-- What holds of the node of every tree without a repeated name holds all the way down. -/
theorem forall_mem_nodes {P : ν → Prop} (hP : ∀ key tree, tree.Distinct name → P (node key tree))
    {tree : Tree κ α} (h : tree.Distinct name) (key : κ) :
    ∀ x ∈ tree.nodes name node key, P x.2 := by
  induction tree using Tree.ind generalizing key with
  | leaf value =>
    rw [nodes, List.forall_mem_singleton]
    exact hP key _ h
  | object entries ih =>
    rw [nodes_eq, List.forall_mem_cons]
    exact ⟨hP key _ h, forall_mem_branches fun e he => ih e he (h.of_mem_entries e he) e.1⟩

end

end Tree

section Nodes

/-- The object type that a node declares or has. -/
def Node.objectType? : Node → Option Fields
  | declaration (.type _ fields) => some fields
  | field _ (.object fields) => some fields
  | _ => none

/-- The literal that a node binds or is. -/
def Node.literal? : Node → Option Literal
  | declaration (.binding _ _ v) => some v
  | value v => some v
  | _ => none

/-- No scope within the node repeats a name. -/
def Node.Distinct : Node → Prop
  | declaration d => d.Distinct
  | field _ type => type.Distinct (·.name)
  | value v => v.Distinct id

/-- A declaration and all that is below it, each with the names that lead there. -/
def Declaration.nodes (d : Declaration) : List (List String × Node) :=
  ([], .declaration d) ::
    match d with
    | type _ fields => Tree.entryNodes (·.name) .field fields
    | binding _ _ v => Tree.entryNodes id (fun _ => .value) v.entries

/-- All nodes of a module in source order. Each way begins with the name of a declaration. -/
def Module.nodes (m : Module) : List (List String × Node) :=
  branches (·.name.name) Declaration.nodes m.declarations

theorem Node.child?_field (i : Ident) (t : TypeRef) (k : String) :
    (Node.field i t).child? k = (t.entries.find? (·.1.name = k)).map fun f => .field f.1 f.2 := by
  cases t <;> rfl

theorem Literal.get?_eq (v : Literal) (k : String) :
    v.get? k = (v.entries.find? (·.1 = k)).map (·.2) := by
  cases v <;> rfl

theorem Node.child?_value (v : Literal) (k : String) :
    (Node.value v).child? k = (v.entries.find? (·.1 = k)).map fun e => .value e.2 := by
  rw [child?, Literal.get?_eq, Option.map_map]
  rfl

/-- The root of a declaration and the branches of its body. -/
theorem Declaration.nodes_type (i : Ident) (fields : Fields) :
    (Declaration.type i fields).nodes = ([], .declaration (.type i fields)) ::
      branches (·.1.name) (fun f => f.2.nodes (·.name) .field f.1) fields :=
  congrArg (_ :: ·) (Tree.entryNodes_eq_branches _ _ _)

theorem Declaration.nodes_binding (kind : BindingKind) (i : Ident) (v : Literal) :
    (Declaration.binding kind i v).nodes = ([], .declaration (.binding kind i v)) ::
      branches (·.1) (fun e => e.2.nodes id (fun _ => .value) e.1) v.entries :=
  congrArg (_ :: ·) (Tree.entryNodes_eq_branches _ _ _)

section Declarations

variable {d : Declaration}

theorem Declaration.nodup_nodes (h : d.Distinct) : (d.nodes.map (·.1)).Nodup := by
  cases d with
  | type i fields =>
    have hfields : (Tree.object fields).Distinct Ident.name := h
    rw [nodes_type]
    exact nodup_cons_branches _ hfields.nodup_entries fun f hf =>
      Tree.nodup_nodes (hfields.of_mem_entries f hf) f.1
  | binding kind i v =>
    have hv : v.Distinct id := h
    rw [nodes_binding]
    exact nodup_cons_branches _ hv.nodup_entries fun e he =>
      Tree.nodup_nodes (hv.of_mem_entries e he) e.1

theorem Declaration.foldlM_eq_some_iff_mem_nodes (h : d.Distinct) (path : List String)
    (node : Node) :
    path.foldlM Node.child? (.declaration d) = some node ↔ (path, node) ∈ d.nodes := by
  cases d with
  | type i fields =>
    have hfields : (Tree.object fields).Distinct Ident.name := h
    rw [nodes_type]
    exact foldlM_eq_some_iff (fun _ => rfl) hfields.nodup_entries (fun f hf =>
      Tree.foldlM_eq_some_iff_mem_nodes Node.child?_field (hfields.of_mem_entries f hf) f.1)
      path node
  | binding kind i v =>
    have hv : v.Distinct id := h
    rw [nodes_binding]
    have hchild (k : String) : (Node.declaration (.binding kind i v)).child? k =
        (v.entries.find? (·.1 = k)).map fun e => .value e.2 := Node.child?_value v k
    exact foldlM_eq_some_iff hchild hv.nodup_entries (fun e he =>
      Tree.foldlM_eq_some_iff_mem_nodes (fun _ => Node.child?_value) (hv.of_mem_entries e he) e.1)
      path node

theorem Declaration.distinct_of_mem_nodes (h : d.Distinct) : ∀ x ∈ d.nodes, x.2.Distinct := by
  cases d with
  | type i fields =>
    have hfields : (Tree.object fields).Distinct Ident.name := h
    rw [nodes_type, List.forall_mem_cons]
    refine ⟨h, forall_mem_branches fun f hf => ?_⟩
    have hnode (i : Ident) (t : TypeRef) (ht : t.Distinct Ident.name) :
        (Node.field i t).Distinct := ht
    exact Tree.forall_mem_nodes hnode (hfields.of_mem_entries f hf) f.1
  | binding kind i v =>
    have hv : v.Distinct id := h
    rw [nodes_binding, List.forall_mem_cons]
    refine ⟨h, forall_mem_branches fun e he => ?_⟩
    have hnode (_ : String) (w : Literal) (hw : w.Distinct id) : (Node.value w).Distinct := hw
    exact Tree.forall_mem_nodes hnode (hv.of_mem_entries e he) e.1

end Declarations

section Scopes

variable {n : Node}

/-- In an object type a name finds the field that has it. -/
theorem Node.Distinct.field?_eq_some_iff (h : n.Distinct) :
    ∀ fields ∈ n.objectType?, ∀ name f,
      Fields.field? fields name = some f ↔ f ∈ fields ∧ f.1.name = name := by
  have hfind {fields : Fields} (hd : (Tree.object fields).Distinct Ident.name) (name : String)
      (f : Ident × TypeRef) :
      Fields.field? fields name = some f ↔ f ∈ fields ∧ f.1.name = name := by
    have hnames : (fields.map fun f => f.1.name).Nodup := hd.nodup_entries
    exact find?_eq_some_iff_of_nodup hnames
  cases n with
  | declaration d =>
    cases d with
    | type i fields =>
      rintro _ ⟨⟩
      exact hfind h
    | binding => exact fun _ hf => nomatch hf
  | field i t =>
    cases t with
    | leaf => exact fun _ hf => nomatch hf
    | object fields =>
      rintro _ ⟨⟩
      exact hfind h
  | value v => exact fun _ hf => nomatch hf

/-- In an object literal a key finds the value that it has, and in a scalar nothing. -/
theorem Node.Distinct.get?_eq_some_iff (h : n.Distinct) :
    ∀ v ∈ n.literal?, ∀ key w, Literal.get? v key = some w ↔ (key, w) ∈ v.entries := by
  have hget {v : Literal} (hd : v.Distinct id) (key : String) (w : Literal) :
      v.get? key = some w ↔ (key, w) ∈ v.entries := by
    rw [Literal.get?_eq, Option.map_eq_some_iff]
    constructor
    · rintro ⟨e, he, rfl⟩
      obtain ⟨hmem, rfl⟩ := (find?_eq_some_iff_of_nodup hd.nodup_entries).1 he
      exact hmem
    · intro hmem
      exact ⟨(key, w), (find?_eq_some_iff_of_nodup hd.nodup_entries).2 ⟨hmem, rfl⟩, rfl⟩
  cases n with
  | declaration d =>
    cases d with
    | type => exact fun _ hv => nomatch hv
    | binding kind i v =>
      rintro _ ⟨⟩
      exact hget h
  | field => exact fun _ hv => nomatch hv
  | value v =>
    rintro _ ⟨⟩
    exact hget h

end Scopes

section Modules

variable {m : Module}

theorem Module.declaration?_eq_some_iff (h : m.Distinct) (name : String) (d : Declaration) :
    m.declaration? name = some d ↔ d ∈ m.declarations ∧ d.name.name = name :=
  find?_eq_some_iff_of_nodup h.1

theorem Module.nodup_nodes (h : m.Distinct) : (m.nodes.map (·.1)).Nodup :=
  nodup_branches h.1 fun d hd => d.nodup_nodes (h.2 d hd)

theorem Module.distinct_of_mem_nodes (h : m.Distinct) : ∀ x ∈ m.nodes, x.2.Distinct :=
  forall_mem_branches fun d hd => d.distinct_of_mem_nodes (h.2 d hd)

theorem Module.lookup_eq_some_iff (h : m.Distinct) (path : List String) (node : Node) :
    m.lookup path = some node ↔ (path, node) ∈ m.nodes := by
  cases path with
  | nil =>
    refine iff_of_false (fun hnone => nomatch hnone) ?_
    intro hmem
    obtain ⟨d, -, rest, heq, -⟩ := mem_branches_iff.1 hmem
    exact nomatch heq
  | cons name path =>
    exact follow_eq_some_iff h.1 fun d hd => d.foldlM_eq_some_iff_mem_nodes (h.2 d hd)

end Modules

end Nodes

theorem distinct_of_parse {ts : List Token} {p : Program} (h : parse ts = .ok p) :
    p.Distinct := by
  cases hq : Parser.ofTokens ts with
  | error e =>
    have hfails : parse ts = .error e := by
      rw [parse, parseWithin, hq]
      rfl
    cases hfails.symm.trans h
  | ok q =>
    have hrun := (parseWithin_of_ofTokens hq).symm.trans h
    exact (fits_iff.1 (run_result_eq_ok_iff.1 hrun).2).1

/-- Every node of a program that has been parsed is reached by name, and by one name only. In
a module each declaration is found by its name, in an object type each field and in an object
literal each value, whatever their depth, and no other name finds anything. So a path of names
that can be followed leads to a node, a different one for each path, and every declaration,
field and entry of the module is one of these. -/
theorem reached_by_name {ts : List Token} {p : Program} (h : parse ts = .ok p) :
    ∀ m ∈ p.modules,
      (∀ name d, m.declaration? name = some d ↔ d ∈ m.declarations ∧ d.name.name = name) ∧
      (∀ x ∈ m.nodes,
        (∀ fields ∈ x.2.objectType?, ∀ name f,
          Fields.field? fields name = some f ↔ f ∈ fields ∧ f.1.name = name) ∧
        ∀ v ∈ x.2.literal?, ∀ key w, Literal.get? v key = some w ↔ (key, w) ∈ v.entries) ∧
      (m.nodes.map (·.1)).Nodup ∧
      ∀ path node, m.lookup path = some node ↔ (path, node) ∈ m.nodes := by
  intro m hm
  have hd := distinct_of_parse h m hm
  refine ⟨m.declaration?_eq_some_iff hd, fun x hx => ?_, m.nodup_nodes hd,
    m.lookup_eq_some_iff hd⟩
  have hnode := m.distinct_of_mem_nodes hd x hx
  exact ⟨hnode.field?_eq_some_iff, hnode.get?_eq_some_iff⟩

/-- The tokens of `module m { type T => { a: { b: Number } } const n = { a: { b: true } } }`. -/
def namesakeTokens : List Token :=
  [⟨.keyword, "module", ⟨1, 1⟩⟩, ⟨.identifier, "m", ⟨1, 8⟩⟩, ⟨.symbol, "\x7b", ⟨1, 10⟩⟩,
    ⟨.keyword, "type", ⟨1, 12⟩⟩, ⟨.identifier, "T", ⟨1, 17⟩⟩, ⟨.symbol, "=>", ⟨1, 19⟩⟩,
    ⟨.symbol, "\x7b", ⟨1, 22⟩⟩, ⟨.identifier, "a", ⟨1, 24⟩⟩, ⟨.symbol, ":", ⟨1, 25⟩⟩,
    ⟨.symbol, "\x7b", ⟨1, 27⟩⟩, ⟨.identifier, "b", ⟨1, 29⟩⟩, ⟨.symbol, ":", ⟨1, 30⟩⟩,
    ⟨.typeName, "Number", ⟨1, 32⟩⟩, ⟨.symbol, "\x7d", ⟨1, 39⟩⟩, ⟨.symbol, "\x7d", ⟨1, 41⟩⟩,
    ⟨.keyword, "const", ⟨1, 43⟩⟩, ⟨.identifier, "n", ⟨1, 49⟩⟩, ⟨.symbol, "=", ⟨1, 51⟩⟩,
    ⟨.symbol, "\x7b", ⟨1, 53⟩⟩, ⟨.identifier, "a", ⟨1, 55⟩⟩, ⟨.symbol, ":", ⟨1, 56⟩⟩,
    ⟨.symbol, "\x7b", ⟨1, 58⟩⟩, ⟨.identifier, "b", ⟨1, 60⟩⟩, ⟨.symbol, ":", ⟨1, 61⟩⟩,
    ⟨.boolean, "true", ⟨1, 63⟩⟩, ⟨.symbol, "\x7d", ⟨1, 68⟩⟩, ⟨.symbol, "\x7d", ⟨1, 70⟩⟩,
    ⟨.symbol, "\x7d", ⟨1, 72⟩⟩, ⟨.endOfInput, "", ⟨1, 73⟩⟩]

def namesakeModule : Module :=
  ⟨⟨"m", ⟨1, 8⟩⟩,
    [.type ⟨"T", ⟨1, 17⟩⟩ [(⟨"a", ⟨1, 24⟩⟩,
      .object [(⟨"b", ⟨1, 29⟩⟩, .leaf (.primitive .number))])],
     .binding .constant ⟨"n", ⟨1, 49⟩⟩ (.object [("a", .object [("b", .leaf (.boolean true))])])]⟩

/-- The field and the value of one name are two nodes, with two ways to them. -/
theorem namesakes_reached : parse namesakeTokens = .ok ⟨[namesakeModule]⟩ ∧
    namesakeModule.nodes.map (·.1) =
      [["T"], ["T", "a"], ["T", "a", "b"], ["n"], ["n", "a"], ["n", "a", "b"]] ∧
    namesakeModule.lookup ["T", "a", "b"] =
      some (.field ⟨"b", ⟨1, 29⟩⟩ (.leaf (.primitive .number))) ∧
    namesakeModule.lookup ["n", "a", "b"] = some (.value (.leaf (.boolean true))) := by
  have h : parse namesakeTokens = .ok ⟨[namesakeModule]⟩ := rfl
  obtain ⟨-, -, -, hlookup⟩ := reached_by_name h namesakeModule (List.mem_singleton_self _)
  refine ⟨h, rfl, ?_, ?_⟩
  · exact (hlookup _ _).2 (List.mem_of_getElem? (i := 2) rfl)
  · exact (hlookup _ _).2 (List.mem_of_getElem? (i := 5) rfl)

end SchemaLang
