/-!
# Spreading text over lines

Structured text is written either on one line or with each part on a line of its own,
indented by its depth.
-/
namespace SchemaLang

inductive Spread where
  | compact
  | pretty
  deriving DecidableEq, Repr

/-- What stands before a part at the given depth if `indent` blanks mark one step. -/
def Spread.lineBreak (s : Spread) (indent depth : Nat) : String :=
  match s with
  | compact => ""
  | pretty => "\n" ++ String.ofList (List.replicate (indent * depth) ' ')

end SchemaLang
