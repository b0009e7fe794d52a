import Scriptlet.Program.Listing
import Scriptlet.Script

/-!
# The command line

What the arguments of the command ask for, where the script comes from, and what the command
answers. Reading files is left to the caller, who hands in what was read.

So the command is three functions one after the other, none of which does any input or output.
`Command.parse` makes of the arguments the version or `Options`, or nothing if they make no sense;
`Options.input` says where the script is to be read from; and `Options.answer` makes of what was
read the `Exit` of the command: the code it ends with and what it prints on either stream.
-/

namespace Scriptlet

/-! ## Arguments -/

/-- The options given so far. Each may be given once; a second time is a mistake that ends the
command, and so the functions that add to the options may fail. -/
structure Options where
  /-- the file to run -/
  path : Option String := none
  /-- the code to run -/
  code : Option String := none
  /-- whether the listing is asked for -/
  listing : Bool := false
  /-- whether the outline of the parse tree is asked for -/
  outline : Bool := false

namespace Options

/-- The code to run; it can be given once. -/
def withCode (o : Options) (code : String) : Option Options :=
  if o.code.isSome then none else some { o with code := some code }

/-- The file to run; it can be given once and has a name. -/
def withPath (o : Options) (path : String) : Option Options :=
  if o.path.isSome || path.isEmpty then none else some { o with path := some path }

/-- Asks for the listing, once. -/
def withListing (o : Options) : Option Options :=
  if o.listing then none else some { o with listing := true }

/-- Asks for the outline, once. -/
def withOutline (o : Options) : Option Options :=
  if o.outline then none else some { o with outline := true }

/-- Code and a file exclude each other, and so do the listing and the outline. This is only looked
at when all arguments are known, since they may come in any order. -/
def consistent (o : Options) : Bool :=
  !(o.code.isSome && o.path.isSome) && !(o.listing && o.outline)

end Options

/-- What the arguments ask for. -/
inductive Command where
  | version
  | run (options : Options)

namespace Command

/-- The command at the end of the arguments: to run what the options say, if they go together. -/
def ofOptions (o : Options) : Option Command :=
  if o.consistent then some (.run o) else none

/-- Arguments behind a double dash, which are all taken as files, whatever they look like. As only
one file can be given, there is at most one. -/
def ofPaths (o : Options) : List String → Option Command
  | [] => ofOptions o
  | path :: rest => (o.withPath path).bind fun o => ofPaths o rest

/-- What stands behind the characters `mark` at the beginning of a text, or nothing if the text does
not begin with them. -/
def behind? (mark : String) (text : String) : Option String :=
  if mark.toList.isPrefixOf text.toList then some (String.ofList (text.toList.drop mark.length))
  else none

/-- Whether an argument is an option rather than a value. A single dash is a
value. -/
def isOption (arg : String) : Bool := (behind? "-" arg).any fun rest => !rest.isEmpty

/-- What an argument that needs no value asks for, given how to go on behind it. An option may have
its value attached, behind an equals sign or, for the short one, without any. The version is
answered at once, whatever comes behind. -/
def ofArg (o : Options) (arg : String) (rest : Options → Option Command) : Option Command :=
  if arg = "--ast" then o.withListing.bind rest
  else if arg = "--tokens" then o.withOutline.bind rest
  else if arg = "--version" then some .version
  else
    match behind? "--eval=" arg, behind? "--" arg, behind? "-e" arg, behind? "-V" arg with
    | some code, _, _, _ => (o.withCode code).bind rest
    | _, some _, _, _ => none
    | _, _, some code, _ => (o.withCode ((behind? "=" code).getD code)).bind rest
    | _, _, _, some _ => some .version
    | _, _, _, _ => if isOption arg then none else (o.withPath arg).bind rest

/-- What arguments that follow the options `o` ask for; nothing if they cannot be understood. An
option that needs a value takes the next argument, unless that is an option itself. -/
def ofArgs (o : Options) : List String → Option Command
  | [] => ofOptions o
  | [arg] =>
    if arg = "--" then ofOptions o
    else if arg = "-e" || arg = "--eval" then none
    else ofArg o arg ofOptions
  | arg :: value :: rest =>
    if arg = "--" then ofPaths o (value :: rest)
    else if arg = "-e" || arg = "--eval" then
      if isOption value then none else (o.withCode value).bind fun o => ofArgs o rest
    else ofArg o arg fun o => ofArgs o (value :: rest)

/-- What the arguments of the command ask for. -/
def parse (args : List String) : Option Command := ofArgs {} args

end Command

/-! ## Reading

Reading fails for reasons that the system gives, or because what was read is not text. The reasons
are told apart because the command words them differently.
-/

/-- Why a script could not be read. -/
inductive ReadError where
  | notFound
  | isDirectory
  | notADirectory
  | nameTooLong
  | notText
  | other (message : String)
deriving DecidableEq

/-- The reason in words, as the system words it, together with its number. -/
def ReadError.message : ReadError → String
  | .notFound => "No such file or directory (os error 2)"
  | .isDirectory => "Is a directory (os error 21)"
  | .notADirectory => "Not a directory (os error 20)"
  | .nameTooLong => "File name too long (os error 36)"
  | .notText => "stream did not contain valid UTF-8"
  | .other message => message

/-- The text of bytes, which must be UTF-8. -/
def textOfBytes (bytes : ByteArray) : Except ReadError String :=
  match String.fromUTF8? bytes with
  | some text => .ok text
  | none => .error .notText

/-! ## Answers

What the command prints, and the code it ends with, as a function of what was read.
-/

/-- Where a script comes from. -/
inductive Input where
  | text (code : String)
  | file (path : String)
  | standard

/-- Where the script of a command comes from: code on the command line, else a file, else the
standard input. -/
def Options.input (o : Options) : Input :=
  match o.code, o.path with
  | some code, _ => .text code
  | none, some path => .file path
  | none, none => .standard

/-- What the command leaves behind. -/
structure Exit where
  code : Nat
  output : String
  errors : String

namespace Exit

/-- Success with a line of output. -/
def success (line : String) : Exit := ⟨0, line ++ "\n", ""⟩

/-- Failure with a line on the error output. -/
def failure (line : String) : Exit := ⟨1, "", line ++ "\n"⟩

/-- Arguments that cannot be understood. -/
def misuse : Exit := ⟨2, "", ""⟩

end Exit

/-- The version of the command. -/
def versionText : String := "justlite 0.1.0"

/-- Answers the options for a script that has been read. The outline needs the text to be parsed,
the listing needs it to be a program, and without either the program is run and its value shown. An
error inside the program is a value, so the command succeeds even then. -/
def Options.answer (o : Options) (script : Except ReadError String) : Exit :=
  match script with
  | .error e => .failure ("Error reading script: " ++ e.message)
  | .ok source =>
    if o.outline then
      match parseScript source with
      | .ok trees => .success (outlineText trees)
      | .error e => .failure e.message
    else
      match Program.ofSource source with
      | .error e => .failure e.message
      | .ok program =>
        if o.listing then .success (program.listing.spread 0)
        else .success program.value.display

end Scriptlet
