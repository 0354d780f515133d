import SchemaLang.Proofs.Parser.Rules
import SchemaLang.Proofs.Parser.Soundness

/-!
# What has been read keeps the rules

Names are compared when a brace closes, and depth when one opens. So of all trees
that are complete the names differ, and none of them is too high for the place
where it stands: `Tree.Fits` at the level of the objects around it. `Reads.sound`
puts this together with the grammar.
-/
namespace SchemaLang

open Grammar

variable {α : Type}

/-- Within `level` open objects the tree does not go beyond the limit. -/
def Tree.HasRoom (limit : Option Nat) (level : Nat) (v : Tree Ident α) : Prop :=
  ∀ n ∈ limit, level + v.height ≤ n

/-- The names differ in each object, and within `level` open objects the tree does not go
beyond the limit. -/
def Tree.Fits (limit : Option Nat) (level : Nat) (v : Tree Ident α) : Prop :=
  v.Distinct (·.name) ∧ ∀ n ∈ limit, level + v.height ≤ n

def Declaration.Fits (limit : Option Nat) (d : Declaration) : Prop :=
  d.Distinct ∧ ∀ n ∈ limit, d.height ≤ n

def Module.Fits (limit : Option Nat) (m : Module) : Prop :=
  m.Distinct ∧ ∀ n ∈ limit, ∀ d ∈ m.declarations, d.height ≤ n

/-- There is room for one more object within these, and the entries fit into it. -/
def EntriesFit (limit : Option Nat) (outer : List (Frame α)) (es : Entries α) : Prop :=
  (∀ n ∈ limit, outer.length < n) ∧ ∀ e ∈ es, e.2.Fits limit (outer.length + 1)

inductive FramesFit (limit : Option Nat) : List (Frame α) → Prop where
  | nil : FramesFit limit []
  | cons {f : Frame α} {outer : List (Frame α)} :
      FramesFit limit outer → EntriesFit limit outer f.entries → FramesFit limit (f :: outer)

/-- The entries of the object that the place is in, if it is in one. -/
def Place.entries? : Place α → Option (Entries α)
  | .entry es => some es
  | .colon es _ => some es
  | .separator es => some es
  | _ => none

def Body.Fits (limit : Option Nat) (b : Body α) : Prop :=
  FramesFit limit b.outer ∧ ∀ es ∈ b.place.entries?, EntriesFit limit b.outer es

def OpenModule.Fits (limit : Option Nat) (m : OpenModule) : Prop :=
  ∀ d ∈ m.declarations, d.Fits limit

def State.Fits (limit : Option Nat) : State → Prop
  | .between => True
  | .moduleName => True
  | .moduleBrace _ => True
  | .declarations m => m.Fits limit
  | .declarationName m _ => m.Fits limit
  | .sign m _ _ => m.Fits limit
  | .fields m _ b => m.Fits limit ∧ b.Fits limit
  | .value m _ _ b => m.Fits limit ∧ b.Fits limit

/-- The objects around the place and the one that it is in. -/
def Body.openObjects (b : Body α) : Nat :=
  b.place.entries?.elim b.outer.length fun _ => b.outer.length + 1

/-- How many objects are open; the braces of a module are not those of an object. -/
def State.openObjects : State → Nat
  | .fields _ _ b => b.openObjects
  | .value _ _ _ b => b.openObjects
  | _ => 0

variable {limit : Option Nat} {outer : List (Frame α)}

/-- There is room for an object if there is for one more level and then for its entries. -/
theorem Tree.hasRoom_object_iff {level : Nat} {es : List (Ident × Tree Ident α)} :
    (Tree.object es).HasRoom limit level ↔
      (∀ n ∈ limit, level < n) ∧ ∀ e ∈ es, e.2.HasRoom limit (level + 1) := by
  constructor
  · intro h
    have hpos := height_object_pos es
    refine ⟨fun n hn => ?_, fun e he n hn => ?_⟩
    · have := h n hn
      omega
    · have := h n hn
      have hle := (height_object_le_iff es (n - level - 1)).1 (by omega) e he
      omega
  · intro h n hn
    obtain ⟨hroom, hes⟩ := h
    have hlt := hroom n hn
    have hle : (Tree.object es).height ≤ (n - level - 1) + 1 := by
      rw [height_object_le_iff]
      intro e he
      have := hes e he n hn
      omega
    omega

/-- An object fits if there is room for it and its entries fit. -/
theorem Tree.fits_object_iff {level : Nat} {es : List (Ident × Tree Ident α)} :
    (Tree.object es).Fits limit level ↔
      (∀ n ∈ limit, level < n) ∧ (es.map (·.1.name)).Nodup ∧
        ∀ e ∈ es, e.2.Fits limit (level + 1) := by
  constructor
  · intro h
    obtain ⟨hd, hh⟩ := h
    rw [distinct_object] at hd
    obtain ⟨hroom, hes⟩ := hasRoom_object_iff.1 hh
    exact ⟨hroom, hd.1, fun e he => ⟨hd.2 e he, hes e he⟩⟩
  · intro h
    obtain ⟨hroom, hn, hes⟩ := h
    exact ⟨(distinct_object _ es).2 ⟨hn, fun e he => (hes e he).1⟩,
      hasRoom_object_iff.2 ⟨hroom, fun e he => (hes e he).2⟩⟩

theorem FramesFit.length_le (h : FramesFit limit outer) : ∀ n ∈ limit, outer.length ≤ n := by
  intro n hn
  cases h with
  | nil => exact Nat.zero_le n
  | cons _ he => exact he.1 n hn

theorem Body.Fits.openObjects_le {b : Body α} (h : b.Fits limit) :
    ∀ n ∈ limit, b.openObjects ≤ n := by
  intro n hn
  obtain ⟨hf, he⟩ := h
  rw [openObjects]
  cases hes : b.place.entries? with
  | none => exact hf.length_le n hn
  | some es => exact (he es hes).1 n hn

theorem State.Fits.openObjects_le {s : State} (h : s.Fits limit) :
    ∀ n ∈ limit, s.openObjects ≤ n := by
  intro n hn
  cases s with
  | fields => exact h.2.openObjects_le n hn
  | value => exact h.2.openObjects_le n hn
  | _ => exact Nat.zero_le n

theorem FramesFit.leaf_fits (h : FramesFit limit outer) (a : α) :
    (Tree.leaf a).Fits limit outer.length :=
  ⟨Tree.distinct_leaf _ a, h.length_le⟩

/-- An object whose names differ fits where its entries fit into it. -/
theorem EntriesFit.object_fits {es : Entries α} (h : EntriesFit limit outer es)
    (hd : ((es.reverse.map (·.1)).map (·.name)).Nodup) :
    (Tree.object es.reverse).Fits limit outer.length := by
  obtain ⟨hroom, hes⟩ := h
  rw [List.map_map] at hd
  exact Tree.fits_object_iff.2 ⟨hroom, hd, fun e he => hes e (List.mem_reverse.1 he)⟩

theorem complete_keeps_fits {v : Tree Ident α} (h : FramesFit limit outer)
    (hv : v.Fits limit outer.length) :
    (Body.complete v outer).Keeps (Body.Fits limit) (Tree.Fits limit 0) fun _ => True := by
  cases h with
  | nil => exact hv
  | @cons f outer h he =>
    refine ⟨h, ?_⟩
    rintro es ⟨⟩
    refine ⟨he.1, ?_⟩
    rintro e (_ | ⟨_, he'⟩)
    · exact hv
    · exact he.2 e he'

theorem Body.Move.keeps_fits {g : LeafGrammar α} {b : Body α} {t : Token}
    {v : Verdict (Body α) (Tree Ident α)} (hm : Body.Move g limit b t v) (h : b.Fits limit) :
    v.Keeps (Body.Fits limit) (Tree.Fits limit 0) fun _ => True := by
  obtain ⟨hf, he⟩ := h
  cases hm with
  | opened _ _ hroom =>
    refine ⟨hf, ?_⟩
    rintro es ⟨⟩
    exact ⟨hroom, by simp⟩
  | minus => exact ⟨hf, by simp [Place.entries?]⟩
  | leaf => exact complete_keeps_fits hf (hf.leaf_fits _)
  | negated => exact complete_keeps_fits hf (hf.leaf_fits _)
  | @closed place es outer t hp _ hd =>
    have hes : EntriesFit limit outer es := by
      rcases hp with rfl | rfl
      · exact he es rfl
      · exact he es rfl
    exact complete_keeps_fits hf (hes.object_fits ((duplicate?_eq_none_iff _ _).1 hd))
  | key => exact ⟨hf, by rintro es ⟨⟩; exact he _ rfl⟩
  | colon => exact ⟨.cons hf (he _ rfl), by simp [Place.entries?]⟩
  | comma => exact ⟨hf, by rintro es ⟨⟩; exact he _ rfl⟩
  | tooDeep => trivial
  | badLeaf => trivial
  | badNegated => trivial
  | repeated => trivial
  | reject => trivial

theorem OpenModule.Fits.add {m : OpenModule} {d : Declaration} (h : m.Fits limit)
    (hd : d.Fits limit) : (m.add d).Fits limit := by
  rintro d' (_ | ⟨_, hd'⟩)
  · exact hd
  · exact h d' hd'

theorem OpenModule.Fits.close {m : OpenModule} {r : Module} (h : m.Fits limit)
    (hc : m.close = .ok r) : r.Fits limit := by
  obtain ⟨rfl, hd⟩ := close_eq_ok hc
  have hn := (duplicate?_eq_none_iff _ _).1 hd
  refine ⟨⟨?_, ?_⟩, ?_⟩
  · simpa [List.map_map, Function.comp_def] using hn
  · intro d hd
    exact (h d (List.mem_reverse.1 hd)).1
  · intro n hl d hd
    exact (h d (List.mem_reverse.1 hd)).2 n hl

/-- A type fits as the object that its fields make up. -/
theorem Declaration.fits_type_iff {i : Ident} {es : Fields} :
    (Declaration.type i es).Fits limit ↔ (Tree.object es).Fits limit 0 := by
  simp only [Fits, Tree.Fits, Distinct, height, Nat.zero_add]

theorem Declaration.fits_binding_iff {kind : BindingKind} {i : Ident} {v : Tree Ident Scalar} :
    (Declaration.binding kind i (v.mapKeys (·.name))).Fits limit ↔ v.Fits limit 0 := by
  simp only [Fits, Tree.Fits, Distinct, height, Nat.zero_add, Tree.distinct_mapKeys,
    Tree.height_mapKeys, Function.id_comp]

theorem State.Move.keeps_fits {s : State} {ts : List Token} {t : Token} {v : Verdict State Module}
    (hm : State.Move limit s t v) (hr : ReadState ts s) (h : s.Fits limit) :
    v.Keeps (State.Fits limit) (Module.Fits limit) fun _ => True := by
  cases hm with
  | opensModule => trivial
  | namesModule => trivial
  | bracesModule => exact fun d hd => absurd hd (by simp)
  | closesModule _ hc => exact OpenModule.Fits.close h hc
  | announces => exact h
  | namesDeclaration => exact h
  | @signs t m form i _ =>
    cases form with
    | type => exact ⟨h, .nil, by simp [Body.ofBrace, Place.entries?]⟩
    | binding kind => exact ⟨h, .nil, by simp [Body.ofValue, Place.entries?]⟩
  | fields hb =>
    obtain ⟨hm, hbody⟩ := h
    cases hr with
    | fields _ _ hus =>
      refine ofBody_keeps ((hb.keeps_fits hbody).and (hb.keeps_read hus)) ?_ ?_
      · intro b h
        obtain ⟨hb', -⟩ := h
        exact ⟨hm, hb'⟩
      · -- the whole of a type's body is an object, so nothing is lost by taking its entries
        intro tree h
        obtain ⟨hv, -, hbare | ⟨es, rfl⟩⟩ := h
        · exact hbare.elim
        · exact hm.add (Declaration.fits_type_iff.2 hv)
  | value hb =>
    obtain ⟨hm, hbody⟩ := h
    refine ofBody_keeps (hb.keeps_fits hbody) ?_ ?_
    · intro b hb'
      exact ⟨hm, hb'⟩
    · intro tree hv
      exact hm.add (Declaration.fits_binding_iff.2 hv)
  | repeated => trivial
  | reject => trivial

/-- All that has been read since the last module was complete is as it should be. -/
def Sound (limit : Option Nat) (ts : List Token) (s : State) : Prop :=
  ReadState ts s ∧ s.Fits limit

theorem State.step_keeps_sound {ts : List Token} {s : State} (h : Sound limit ts s) (t : Token) :
    (s.step limit t).Keeps (Sound limit (ts ++ [t]))
      (fun m => IsModule (ts ++ [t]) m ∧ m.Fits limit) fun _ => True := by
  have hm := State.step_move limit s t
  exact (hm.keeps_read h.1).and (hm.keeps_fits h.1 h.2)

/-- All that a run reads is modules of the grammar that keep the rules, and the beginning of
one more. -/
theorem Reads.sound {u : State} {ts : List Token} {ms : List Module}
    (h : Reads limit .between ts ms u) :
    ∃ us vs, ts = us ++ vs ∧ Many IsModule us ms ∧ (∀ m ∈ ms, m.Fits limit) ∧ Sound limit vs u := by
  have hstart : Sound limit [] .between := ⟨.between, trivial⟩
  obtain ⟨us, vs, he, hms, hu⟩ :=
    h.invariant (J := fun ts m => IsModule ts m ∧ m.Fits limit) hstart
      (fun _ _ t hs => State.step_keeps_sound hs t) hstart
  exact ⟨us, vs, he, hms.imp fun _ _ h => h.1, hms.forall_mem fun _ _ h => h.2, hu⟩

/-- Nowhere on a run are more objects open than the limit allows. -/
theorem Reads.openObjects_le {u : State} {ts : List Token} {ms : List Module}
    (h : Reads limit .between ts ms u) : ∀ n ∈ limit, u.openObjects ≤ n := by
  obtain ⟨_, _, -, -, -, -, hfits⟩ := h.sound
  exact hfits.openObjects_le

end SchemaLang
