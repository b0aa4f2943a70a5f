/-!
# Command lines

A command line names a command after any number of `-v`. The command `translate` takes options with
a value, each at most once, and one input file; the value of an option is the next argument, or
follows an equals sign, or follows the letter of a short option. After `--` every argument is a
file. Files have a name that is not empty.

## Main definitions

* `Command.Options` : what a conversion is asked to do.
* `Command.Invocation` : what a command line asks for.
* `Command.UsageError` : why a command line asks for nothing.
* `Command.Invocation.ofArgs` : what a command line asks for.
-/

namespace Stencil.Command

/-- The values that a conversion takes from the command line. -/
inductive Slot where
  /-- The source language. -/
  | source
  /-- The target language. -/
  | target
  /-- The input file. -/
  | input
  /-- The output file. -/
  | output
  /-- The settings file. -/
  | settings
deriving DecidableEq, Repr

/-- Whether a value names a file. -/
def Slot.isFile : Slot → Bool
  | source | target => false
  | input | output | settings => true

/-- What a value is called in errors. -/
def Slot.name : Slot → String
  | source => "--from"
  | target => "--to"
  | input => "INPUT"
  | output => "--output"
  | settings => "--config"

/-- The value that a long option sets. -/
def Slot.ofLong? : String → Option Slot
  | "from" => some source
  | "to" => some target
  | "output" => some output
  | "config" => some settings
  | _ => none

/-- What a conversion is asked to do. -/
structure Options where
  /-- The source language. -/
  source : Option String := none
  /-- The target language. -/
  target : Option String := none
  /-- The input file; the standard input without it. -/
  input : Option String := none
  /-- The output file; the standard output without it. -/
  output : Option String := none
  /-- The settings file. -/
  settings : Option String := none
deriving DecidableEq, Repr

/-- What a command line asks for. -/
inductive Invocation where
  /-- A conversion. -/
  | convert (options : Options)
  /-- The names of the languages. -/
  | languages
  /-- The version of the program. -/
  | version
  /-- How the program is used. -/
  | help
deriving DecidableEq, Repr

/-- Why a command line asks for nothing. -/
inductive UsageError where
  /-- No command. -/
  | noCommand
  /-- An argument that has no place. -/
  | unexpectedArgument (arg : String)
  /-- An option without its value. -/
  | noValue (slot : Slot)
  /-- A value that was given before. -/
  | repeated (slot : Slot)
  /-- A file without a name. -/
  | emptyName (slot : Slot)
deriving DecidableEq, Repr

/-- The wording of a usage error. -/
def UsageError.message : UsageError → String
  | noCommand => "a command is required"
  | unexpectedArgument arg => "unexpected argument '" ++ arg ++ "'"
  | noValue slot => "a value is required for '" ++ slot.name ++ "'"
  | repeated slot => "'" ++ slot.name ++ "' cannot be given more than once"
  | emptyName slot => "the name given for '" ++ slot.name ++ "' is empty"

/-! ### Values -/

namespace Options

/-- The value in a slot. -/
def get? (o : Options) : Slot → Option String
  | .source => o.source
  | .target => o.target
  | .input => o.input
  | .output => o.output
  | .settings => o.settings

/-- The options with a value in a slot. -/
def set (o : Options) (value : String) : Slot → Options
  | .source => { o with source := some value }
  | .target => { o with target := some value }
  | .input => { o with input := some value }
  | .output => { o with output := some value }
  | .settings => { o with settings := some value }

/-- The options with a value in a slot that has none yet. -/
def put (o : Options) (slot : Slot) (value : String) : Except UsageError Options :=
  if (o.get? slot).isSome then .error (.repeated slot)
  else if slot.isFile && value.isEmpty then .error (.emptyName slot)
  else .ok (o.set value slot)

/-- The options with an input file. A second one has no place. -/
def putInput (o : Options) (file : String) : Except UsageError Options :=
  if o.input.isSome then .error (.unexpectedArgument file) else o.put .input file

end Options

/-! ### Shapes of arguments -/

/-- The shape of an argument. -/
inductive Shape where
  /-- The mark after which all arguments are files. -/
  | escape
  /-- A long option, possibly with a value. -/
  | long (name : String) (value : Option String)
  /-- Letters of short options. -/
  | short (letters : List Char)
  /-- A word, such as a command, a value or a file. A lone dash is one. -/
  | word
deriving DecidableEq, Repr

/-- A long option, with the value after its first equals sign. -/
def Shape.ofLong (body : List Char) : Shape :=
  let name := String.ofList (body.takeWhile (· != '='))
  match body.dropWhile (· != '=') with
  | [] => .long name none
  | _ :: value => .long name (some (String.ofList value))

/-- The shape of an argument. -/
def Shape.of (arg : String) : Shape :=
  match arg.toList with
  | ['-', '-'] => .escape
  | '-' :: '-' :: body => .ofLong body
  | ['-'] => .word
  | '-' :: letters => .short letters
  | _ => .word

/-- What the letters of short options ask for. -/
inductive Letters where
  /-- Nothing but more messages. -/
  | quiet
  /-- How the program is used. -/
  | help
  /-- The version of the program. -/
  | version
  /-- An option with a value, which may follow at once. -/
  | value (slot : Slot) (attached : Option String)
  /-- Something else. -/
  | unknown
deriving DecidableEq, Repr

/-- The value that follows the letter of a short option at once. An equals sign before it is left
out. -/
def attachedValue : List Char → Option String
  | [] => none
  | '=' :: cs => some (String.ofList cs)
  | cs => some (String.ofList cs)

/-- What the letters of short options before a command ask for. -/
def Letters.beforeCommand : List Char → Letters
  | [] => quiet
  | 'v' :: cs => beforeCommand cs
  | 'V' :: _ => version
  | 'h' :: _ => help
  | _ => unknown

/-- What the letters of short options of a conversion ask for. -/
def Letters.ofConvert : List Char → Letters
  | [] => quiet
  | 'v' :: cs => ofConvert cs
  | 'h' :: _ => help
  | 'o' :: cs => value .output (attachedValue cs)
  | _ => unknown

/-! ### Commands -/

/-- The input files after the mark that ends the options. -/
def filesOnly (o : Options) : List String → Except UsageError Options
  | [] => .ok o
  | file :: files => (o.putInput file).bind fun o => filesOnly o files

/-- A conversion, after the arguments that gave the options `o`. -/
def convertArgs (o : Options) : List String → Except UsageError Invocation
  | [] => .ok (.convert o)
  | arg :: args =>
    match Shape.of arg with
    | .escape => (filesOnly o args).map .convert
    | .word => (o.putInput arg).bind fun o => convertArgs o args
    | .long "verbose" none => convertArgs o args
    | .long "help" none => .ok .help
    | .long name value =>
      match Slot.ofLong? name, value with
      | none, _ => .error (.unexpectedArgument arg)
      | some slot, some value => (o.put slot value).bind fun o => convertArgs o args
      | some slot, none =>
        match args with
        | [] => .error (.noValue slot)
        | value :: args =>
          if Shape.of value = .word then (o.put slot value).bind fun o => convertArgs o args
          else .error (.noValue slot)
    | .short letters =>
      match Letters.ofConvert letters with
      | .quiet => convertArgs o args
      | .help => .ok .help
      | .version | .unknown => .error (.unexpectedArgument arg)
      | .value slot (some value) => (o.put slot value).bind fun o => convertArgs o args
      | .value slot none =>
        match args with
        | [] => .error (.noValue slot)
        | value :: args =>
          if Shape.of value = .word then (o.put slot value).bind fun o => convertArgs o args
          else .error (.noValue slot)

/-- The list of languages, which takes no arguments of its own. -/
def languagesArgs : List String → Except UsageError Invocation
  | [] => .ok .languages
  | arg :: args =>
    match Shape.of arg with
    | .long "verbose" none => languagesArgs args
    | .long "help" none => .ok .help
    | .short letters =>
      match Letters.beforeCommand letters with
      | .quiet => languagesArgs args
      | .help => .ok .help
      | _ => .error (.unexpectedArgument arg)
    | .escape =>
      match args with
      | [] => .ok .languages
      | file :: _ => .error (.unexpectedArgument file)
    | _ => .error (.unexpectedArgument arg)

/-- The names of the commands. -/
def commands : List String := ["translate", "languages", "help"]

/-- How the program or one of its commands is used. -/
def helpArgs : List String → Except UsageError Invocation
  | [] => .ok .help
  | [command] =>
    if commands.contains command then .ok .help else .error (.unexpectedArgument command)
  | _ :: arg :: _ => .error (.unexpectedArgument arg)

/-- What a command line asks for. -/
def Invocation.ofArgs : List String → Except UsageError Invocation
  | [] => .error .noCommand
  | arg :: args =>
    match Shape.of arg with
    | .word =>
      if arg = "translate" then convertArgs {} args
      else if arg = "languages" then languagesArgs args
      else if arg = "help" then helpArgs args
      else .error (.unexpectedArgument arg)
    | .long "verbose" none => ofArgs args
    | .long "version" none => .ok .version
    | .long "help" none => .ok .help
    | .short letters =>
      match Letters.beforeCommand letters with
      | .quiet => ofArgs args
      | .version => .ok .version
      | .help => .ok .help
      | _ => .error (.unexpectedArgument arg)
    | .escape => .error .noCommand
    | _ => .error (.unexpectedArgument arg)

end Stencil.Command
