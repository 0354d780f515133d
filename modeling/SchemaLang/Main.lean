import SchemaLang.Command.Directory

/-!
# The `jlc` command

The program around `Request.answer`: it reads the one file that a request names and
writes out the answer.
-/
namespace SchemaLang.Command

/-- The failure that a system error stands for. -/
def ReadFailure.ofError : IO.Error → ReadFailure
  | .noFileOrDirectory .. => .notFound
  | .inappropriateType _ code _ => if code = 21 then .isDirectory else .notDirectory
  | .permissionDenied _ code _ =>
    .other ("Permission denied (os error " ++ toString code ++ ")")
  | e => .other (toString e)

/-- The text of the named file. -/
def fetch (name : String) : IO (Except ReadFailure String) := do
  try
    return decode (← IO.FS.readBinFile name)
  catch e =>
    return .error (.ofError e)

end SchemaLang.Command

open SchemaLang.Command in
def main (words : List String) : IO UInt32 := do
  let request := Request.ofArguments words
  let content ← match request with
    | .run i => fetch i.file
    | _ => pure (.error .notFound)
  let outcome := request.answer fun _ => content
  IO.print outcome.stdout
  IO.eprint outcome.stderr
  return UInt32.ofNat outcome.exitCode
