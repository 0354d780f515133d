import SchemaLang.Proofs.Lexer.Literals

/-!
# Every text has a string literal

Between quotes, an escape is needed for quotes, backslashes and line feeds only.
`write` uses no others, and `unescape` takes them back. In the inside of a literal it
never finds half an escape.
-/
namespace SchemaLang.Quoted

open Lexical

/-- The inside of a string literal for the text. -/
def write : List Char → List Char
  | [] => []
  | c :: cs =>
    if c = '"' then '\\' :: '"' :: write cs
    else if c = '\\' then '\\' :: '\\' :: write cs
    else if c = '\n' then '\\' :: 'n' :: write cs
    else c :: write cs

/-- Each character is written as its part. -/
theorem write_eq_written (cs : List Char) : write cs = written (cs.map .ofChar) := by
  induction cs with
  | nil => rfl
  | cons c cs ih =>
    rw [written] at ih ⊢
    rw [List.map_cons, List.flatMap_cons, ← ih, write, Part.ofChar]
    split
    · rfl
    · split
      · rfl
      · split <;> rfl

theorem body_write (cs : List Char) : StringBody (write cs) :=
  write_eq_written cs ▸ body_written _

/-- What has been written is read back. -/
theorem unescape_write (cs : List Char) : unescape (write cs) = cs := by
  rw [write_eq_written, unescape_written, denoted_map_ofChar]

example : write ['a', '"', '\n'] = ['a', '\\', '"', '\\', 'n'] := by decide

/-- Taken escape by escape, the text ends in a backslash with nothing behind it. -/
inductive Dangling : List Char → Prop where
  | here : Dangling ['\\']
  | plain {c : Char} {cs : List Char} : c ≠ '\\' → Dangling cs → Dangling (c :: cs)
  | escape {c : Char} {cs : List Char} : Dangling cs → Dangling ('\\' :: c :: cs)

theorem not_dangling_of_body {body : List Char} (h : StringBody body) : ¬ Dangling body := by
  induction h with
  | nil => exact nofun
  | plain _ hb _ _ ih =>
    intro hd
    cases hd with
    | here => exact hb rfl
    | plain _ hd => exact ih hd
    | escape _ => exact hb rfl
  | escape _ _ ih =>
    intro hd
    cases hd with
    | plain hc _ => exact hc rfl
    | escape hd => exact ih hd

end SchemaLang.Quoted

namespace SchemaLang.Token

open Quoted

/-- The value of a token that is a string literal for `cs`. -/
theorem stringValue?_write (cs : List Char) (p : Position) :
    stringValue? ⟨.string, String.ofList ('"' :: (write cs ++ ['"'])), p⟩ =
      some (String.ofList cs) := by
  simp only [stringValue?, if_true, String.toList_ofList, inside?_quotes, Option.map_some,
    unescape_write]

end SchemaLang.Token
