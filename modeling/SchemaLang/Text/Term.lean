import SchemaLang.Numeral.Layout
import SchemaLang.Text.Extending
import SchemaLang.Text.Spread

/-!
# Constructor terms

A second notation for values, made for the eye: constructors with their arguments,
records with named fields, and lists.
-/
namespace SchemaLang

inductive Term where
  /-- A value that is one word. -/
  | word (text : String)
  | float (value : Numeral.Binary64)
  | string (value : String)
  /-- Arguments behind a constructor's name; a bare tuple has the empty name. -/
  | apply (name : String) (arguments : List Term)
  | record (name : String) (fields : List (String × Term))
  | list (items : List Term)

namespace Term

/-- Orders from -4 to 15 are written plainly; positive exponents have no sign. -/
def numberLayout : Numeral.Layout where
  tie := .up
  leastPlain := -4
  greatestPlain := 15
  plus := []

def number (x : Numeral.Binary64) : String :=
  if x.isFinite then numberLayout.write x
  else if x.isNaN then "NaN"
  else if x.isNegative then "-inf"
  else "inf"

/-- The number of the character in braces. -/
def escapeNumber (c : Char) : List Char :=
  ['\\', 'u', '\x7b'] ++ Nat.toDigits 16 c.toNat ++ ['\x7d']

/-- A character within quotes. What cannot be seen on its own is given by its number. -/
def escape (c : Char) : List Char :=
  match c with
  | '"' => ['\\', '"']
  | '\\' => ['\\', '\\']
  | '\n' => ['\\', 'n']
  | '\r' => ['\\', 'r']
  | '\t' => ['\\', 't']
  | '\x00' => ['\\', '0']
  | c => if isExtending c || !isPrintable c then escapeNumber c else [c]

def quote (s : String) : String := String.ofList ('"' :: s.toList.flatMap escape ++ ['"'])

/-- Parts between brackets: on one line with `pad` inside these, or each on a line of its
own, four blanks to the right, with a comma behind it. -/
def bracket (style : Spread) (depth : Nat) (opening pad closing : String) (parts : List String) :
    String :=
  match style with
  | .compact => opening ++ pad ++ String.intercalate ", " parts ++ pad ++ closing
  | .pretty =>
    if parts = [] then opening ++ closing
    else
      opening ++ String.join (parts.map fun part => style.lineBreak 4 (depth + 1) ++ part ++ ",") ++
        style.lineBreak 4 depth ++ closing

mutual

/-- The term as text, within `depth` brackets. -/
def render (style : Spread) (depth : Nat) : Term → String
  | word text => text
  | float value => number value
  | string value => quote value
  | apply name arguments =>
    bracket style depth (name ++ "(") "" ")" (renderItems style (depth + 1) arguments)
  | record name fields =>
    bracket style depth (name ++ " \x7b") " " "\x7d" (renderFields style (depth + 1) fields)
  | list items => bracket style depth "[" "" "]" (renderItems style (depth + 1) items)

def renderItems (style : Spread) (depth : Nat) : List Term → List String
  | [] => []
  | item :: items => render style depth item :: renderItems style depth items

def renderFields (style : Spread) (depth : Nat) : List (String × Term) → List String
  | [] => []
  | (name, value) :: fields =>
    (name ++ ": " ++ render style depth value) :: renderFields style depth fields

end

/-- The whole term as text. -/
def text (style : Spread) (term : Term) : String := term.render style 0

end Term

end SchemaLang
