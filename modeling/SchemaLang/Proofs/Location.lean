import SchemaLang.Token

/-!
# Where characters stand

`behind` counts the place of a character out of the text before it, and the walk of
`Position.after` comes to the same place. A walk that begins elsewhere is the walk
from the start moved by `translate`; from the front of a line this only moves it
`down`. Tokens move with their positions, and results with what they hold.
-/
namespace SchemaLang

namespace Position

/-- The place right behind a text: its line feeds are counted for the line, and what stands
behind the last of them for the column. -/
def behind (text : List Char) : Position :=
  ⟨text.count '\n' + 1, (text.reverse.takeWhile (· ≠ '\n')).length + 1⟩

theorem advance_behind (text : List Char) (c : Char) :
    (behind text).advance c = behind (text ++ [c]) := by
  by_cases hc : c = '\n'
  · simp [advance, behind, hc]
  · simp [advance, behind, hc]

theorem after_behind (text cs : List Char) : (behind text).after cs = behind (text ++ cs) := by
  induction cs generalizing text with
  | nil => simp
  | cons c cs ih => simp [advance_behind, ih]

/-- Walking over a text leads to the place right behind it. -/
theorem start_after (text : List Char) : start.after text = behind text :=
  after_behind [] text

theorem lt_iff {p q : Position} :
    p < q ↔ p.line < q.line ∨ p.line = q.line ∧ p.column < q.column := by
  change (compare p.line q.line).then (compare p.column q.column) = .lt ↔ _
  rw [Ordering.then_eq_lt, Nat.compare_eq_lt, Nat.compare_eq_eq, Nat.compare_eq_lt]

theorem lt_trans {p q r : Position} (h : p < q) (h' : q < r) : p < r := by
  rw [lt_iff] at h h' ⊢
  omega

theorem lt_advance (p : Position) (c : Char) : p < p.advance c := by
  rw [lt_iff]
  unfold advance
  split
  · exact .inl (Nat.lt_succ_self _)
  · exact .inr ⟨rfl, Nat.lt_succ_self _⟩

/-- Every character leads further on. -/
theorem lt_after (p : Position) {cs : List Char} (h : cs ≠ []) : p < p.after cs := by
  induction cs generalizing p with
  | nil => exact absurd rfl h
  | cons c cs ih =>
    cases cs with
    | nil => exact p.lt_advance c
    | cons d cs => exact lt_trans (p.lt_advance c) (ih (p.advance c) (by simp))

/-- What is one column behind a character of a line is what comes next in the text. -/
theorem behind_eq_next_iff {before gap : List Char} {c : Char} (hc : c ≠ '\n') :
    behind (before ++ c :: gap) = (behind before).next ↔ gap = [] := by
  have hnext : (behind before).next = behind (before ++ [c]) := by
    rw [← advance_behind, advance, if_neg hc]
    rfl
  rw [hnext, List.append_cons, ← after_behind]
  cases gap with
  | nil => simp
  | cons d ds =>
    refine iff_of_false (fun h => ?_) (by simp)
    have hlt := lt_after (behind (before ++ [c])) (List.cons_ne_nil d ds)
    rw [h, lt_iff] at hlt
    omega

/-- Lines and columns are counted from one. -/
def Counted (p : Position) : Prop := 0 < p.line ∧ 0 < p.column

theorem Counted.advance {p : Position} (h : p.Counted) (c : Char) : (p.advance c).Counted := by
  obtain ⟨hline, hcolumn⟩ := h
  unfold Position.advance
  split <;> constructor <;> simp only <;> omega

theorem Counted.after {p : Position} (h : p.Counted) (cs : List Char) : (p.after cs).Counted := by
  induction cs generalizing p with
  | nil => exact h
  | cons c cs ih => exact ih (h.advance c)

theorem counted_start : start.Counted := by
  simp [Counted, start]

/-- The place `p` of a text that itself begins at `base`. Only in its first line do columns
move. -/
def translate (base p : Position) : Position :=
  if p.line = 1 then ⟨base.line, base.column + p.column - 1⟩
  else ⟨base.line + p.line - 1, p.column⟩

theorem advance_translate (base : Position) {p : Position} (h : p.Counted) (c : Char) :
    (base.translate p).advance c = base.translate (p.advance c) := by
  obtain ⟨hline, hcolumn⟩ := h
  by_cases hc : c = '\n'
  · by_cases hp : p.line = 1
    · simp [translate, advance, hc, hp]
    · have hne : p.line ≠ 0 := by omega
      have hsum : base.line + p.line - 1 + 1 = base.line + (p.line + 1) - 1 := by omega
      simp [translate, advance, hc, hp, hne, hsum]
  · by_cases hp : p.line = 1
    · have hsum : base.column + p.column - 1 + 1 = base.column + (p.column + 1) - 1 := by omega
      simp [translate, advance, hc, hp, hsum]
    · simp [translate, advance, hc, hp]

theorem after_translate (base : Position) {p : Position} (h : p.Counted) (cs : List Char) :
    (base.translate p).after cs = base.translate (p.after cs) := by
  induction cs generalizing p with
  | nil => rfl
  | cons c cs ih => rw [after_cons, after_cons, advance_translate base h, ih (h.advance c)]

theorem translate_start (base : Position) : base.translate start = base := by
  simp [translate, start]

/-- The same column, some lines further down. -/
def down (lines : Nat) (p : Position) : Position := ⟨p.line + lines, p.column⟩

/-- From the front of a line all columns are kept. -/
theorem translate_frontOfLine (lines : Nat) :
    translate ⟨lines + 1, 1⟩ = down lines := by
  funext p
  by_cases hp : p.line = 1
  · simp [translate, down, hp, Nat.add_comm]
  · have hsum : lines + 1 + p.line - 1 = p.line + lines := by omega
    simp [translate, down, hp, hsum]

/-- A line feed behind a text leads to the front of a line. -/
theorem start_after_line (text : List Char) :
    start.after (text ++ ['\n']) = ⟨text.count '\n' + 1 + 1, 1⟩ := by
  simp [start_after, behind, advance]

end Position

/-- A result with its value and its error replaced. -/
def mapBoth {ε ε' α β : Type} (error : ε → ε') (value : α → β) : Except ε α → Except ε' β
  | .ok a => .ok (value a)
  | .error e => .error (error e)

section

variable {ε ε' α β : Type} (f : ε → ε') (g : α → β)

@[simp] theorem mapBoth_ok (a : α) : mapBoth f g (.ok a) = .ok (g a) := rfl

@[simp] theorem mapBoth_error (e : ε) : mapBoth f g (.error e) = .error (f e) := rfl

end

namespace Token

/-- The same token, elsewhere. -/
def mapPositions (f : Position → Position) (t : Token) : Token :=
  { t with position := f t.position }

section

variable (f : Position → Position) (t : Token)

@[simp] theorem mapPositions_kind : (t.mapPositions f).kind = t.kind := rfl

@[simp] theorem mapPositions_lexeme : (t.mapPositions f).lexeme = t.lexeme := rfl

@[simp] theorem mapPositions_position : (t.mapPositions f).position = f t.position := rfl

@[simp] theorem isSymbol_mapPositions (symbol : String) :
    (t.mapPositions f).isSymbol symbol = t.isSymbol symbol := rfl

@[simp] theorem isKeyword_mapPositions (word : String) :
    (t.mapPositions f).isKeyword word = t.isKeyword word := rfl

end

end Token

end SchemaLang
