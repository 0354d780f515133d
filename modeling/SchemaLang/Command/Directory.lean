import SchemaLang.Command.Run

/-!
# A directory of files

A snapshot of the files of one directory, by which a command line can be answered
without a file system. Names are resolved part by part as in a real one; what lies
outside the directory holds nothing but directories on the way up.
-/
namespace SchemaLang.Command

/-- The text of a file's bytes. -/
def decode (bytes : ByteArray) : Except ReadFailure String :=
  match String.fromUTF8? bytes with
  | some text => .ok text
  | none => .error .notText

structure Directory where
  files : List (String × ByteArray)

namespace Directory

/-- How far the parts of a name have led. -/
inductive Spot where
  | here
  | outside
  | file (bytes : ByteArray)

def enter (d : Directory) (spot : Spot) (part : String) : Except ReadFailure Spot :=
  match spot with
  | .here =>
    if part = "" ∨ part = "." then .ok .here
    else if part = ".." then .ok .outside
    else
      match d.files.find? (·.1 = part) with
      | some (_, bytes) => .ok (.file bytes)
      | none => .error .notFound
  | .outside =>
    if part = "" ∨ part = "." ∨ part = ".." then .ok .outside else .error .notFound
  | .file _ => .error .notDirectory

/-- A name that begins with a slash begins at the root. -/
def origin (name : String) : Spot := if name.toList.head? = some '/' then .outside else .here

/-- The text of the file that the name leads to. -/
def read (d : Directory) (name : String) : Except ReadFailure String := do
  match ← (name.splitOn "/").foldlM d.enter (origin name) with
  | .file bytes => decode bytes
  | _ => .error .isDirectory

/-- The answer to a command line given in the directory. -/
def answer (d : Directory) (words : List String) : Outcome :=
  (Request.ofArguments words).answer d.read

end Directory

end SchemaLang.Command
