import Scriptlet.CommandLine

/-!
# The command

Reads what the arguments name, and prints the answer. All decisions are made in
`Scriptlet.CommandLine`; what is left is to read files and the standard input, to turn the errors of
the system into the reasons that are known there, and to write out the result.
-/

namespace Scriptlet

/-- The number of a system error, which is reported with either sign: as a number below zero it
would be very large here. -/
def systemErrorNumber (code : UInt32) : UInt32 := min code (0 - code)

/-- Reads a file, its failure turned into a value. Some of the reasons come with a number, by which
they are told apart further. -/
def readPath (path : String) : IO (Except ReadError String) := do
  try
    return textOfBytes (← IO.FS.readBinFile path)
  catch
    | .noFileOrDirectory .. => return .error .notFound
    | .inappropriateType _ code _ =>
      return .error (if systemErrorNumber code = 20 then .notADirectory else .isDirectory)
    | e@(.invalidArgument _ code _) =>
      return .error (if systemErrorNumber code = 36 then .nameTooLong else .other (toString e))
    | e => return .error (.other (toString e))

/-- Reads all of the standard input. -/
def readStandard : IO (Except ReadError String) := do
  return textOfBytes (← (← IO.getStdin).readBinToEnd)

/-- Reads the script of a command. -/
def readInput : Input → IO (Except ReadError String)
  | .text code => return .ok code
  | .file path => readPath path
  | .standard => readStandard

end Scriptlet

open Scriptlet in
/-- The command: understands its arguments, reads the script if there is one to read, and
answers. -/
def main (args : List String) : IO UInt32 := do
  let exit ← match Command.parse args with
    | none => pure Exit.misuse
    | some .version => pure (Exit.success versionText)
    | some (.run options) => do
      let script ← readInput options.input
      pure (options.answer script)
  IO.print exit.output
  IO.eprint exit.errors
  return UInt32.ofNat exit.code
