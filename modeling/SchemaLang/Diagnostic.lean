import SchemaLang.Position

/-!
# Diagnostics

A diagnostic is a message about one place of a source text. Its rendering
shows the line of that place with a caret under the column.
-/
namespace SchemaLang

/-- The lines of a text. A line feed ends a line, together with one carriage
return right before it; characters after the last line feed form a line too. -/
def splitLines : List Char → List (List Char)
  | [] => []
  | c :: cs =>
    if c = '\n' then [] :: splitLines cs
    else if c = '\r' ∧ cs.head? = some '\n' then splitLines cs
    else
      match splitLines cs with
      | [] => [[c]]
      | l :: ls => (c :: l) :: ls

structure Diagnostic where
  message : String
  position : Position
  note : Option String := none
  deriving DecidableEq, Repr

namespace Diagnostic

/-- The same diagnostic with `text` as its note, in place of any earlier one. -/
def withNote (d : Diagnostic) (text : String) : Diagnostic := { d with note := some text }

/-- The source line that the diagnostic is about, empty past the end. -/
def sourceLine (d : Diagnostic) (source : String) : List Char :=
  (splitLines source.toList).getD (d.position.line - 1) []

/-- Blanks as wide as the characters before the column; tabs stay tabs, so that the
caret lines up under a line indented with tabs. -/
def pad (d : Diagnostic) (source : String) : List Char :=
  ((d.sourceLine source).take (d.position.column - 1)).map fun c => if c = '\t' then c else ' '

/-- Blanks as wide as the line number. -/
def gutter (d : Diagnostic) : String :=
  String.ofList (List.replicate (toString d.position.line).length ' ')

/-- What the rendering consists of, line by line. -/
def renderedLines (d : Diagnostic) (file source : String) : List String :=
  [ file ++ ":" ++ d.position.text ++ ": error: " ++ d.message,
    d.gutter ++ " |",
    toString d.position.line ++ " | " ++ String.ofList (d.sourceLine source),
    d.gutter ++ " | " ++ String.ofList (d.pad source) ++ "^" ] ++
  d.note.toList.map fun text => d.gutter ++ " = note: " ++ text

/-- The diagnostic as text, each of its lines ended by a line feed. -/
def render (d : Diagnostic) (file source : String) : String :=
  String.join ((d.renderedLines file source).map (· ++ "\n"))

end Diagnostic

end SchemaLang
