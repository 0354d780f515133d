/-!
# Places in a text

A position names a line and a column, both counted from one; a column counts
characters, and only a line feed ends a line. `Position.after` walks over a
piece of text and is the one way in which positions come about.
-/
namespace SchemaLang

structure Position where
  line : Nat
  column : Nat
  deriving DecidableEq, Repr

namespace Position

/-- The place of the first character of a text. -/
def start : Position := ⟨1, 1⟩

/-- The place right behind the character `c` that stands at `p`. -/
def advance (p : Position) (c : Char) : Position :=
  if c = '\n' then ⟨p.line + 1, 1⟩ else ⟨p.line, p.column + 1⟩

/-- The place right behind the text `cs` that begins at `p`. -/
def after (p : Position) (cs : List Char) : Position := cs.foldl advance p

@[simp] theorem after_nil (p : Position) : p.after [] = p := rfl

@[simp] theorem after_cons (p : Position) (c : Char) (cs : List Char) :
    p.after (c :: cs) = (p.advance c).after cs := rfl

@[simp] theorem after_append (p : Position) (cs ds : List Char) :
    p.after (cs ++ ds) = (p.after cs).after ds := List.foldl_append

/-- The place one column further on in the same line. -/
def next (p : Position) : Position := ⟨p.line, p.column + 1⟩

/-- Earlier lines come first, and earlier columns within a line. -/
protected def compare (p q : Position) : Ordering :=
  (compare p.line q.line).then (compare p.column q.column)

instance : Ord Position := ⟨Position.compare⟩

instance : LT Position := ltOfOrd

/-- Line and column with a colon between. -/
def text (p : Position) : String := toString p.line ++ ":" ++ toString p.column

end Position

end SchemaLang
