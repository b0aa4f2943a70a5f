import Stencil.Command.Arguments
import Stencil.Convert
import Stencil.Settings

/-!
# Running a command

What a command does is said once for every place that it can run in: the real file system, or a
directory in memory. All that it needs of that place is in a value of type `World`.

A conversion reads its settings, then its input, then converts, then writes. The first of these that
fails ends it, and nothing is written before all else is done.

## Main definitions

* `Command.World` : what a command can do outside.
* `Command.Failure` : why a command fails.
* `Command.Outcome` : how a command ends.
* `Command.run` : a command, from its command line on.
-/

namespace Stencil.Command

/-- What a command can do outside. Reading and writing may fail. -/
structure World (m : Type → Type) where
  /-- The working directory. -/
  directory : m String
  /-- A path is the path of a file. -/
  isFile : String → m Bool
  /-- The text of a file. -/
  readFile : String → m (Option String)
  /-- The text of the standard input. -/
  readInput : m (Option String)
  /-- Replaces the text of a file. -/
  writeFile : String → String → m Bool

/-- Why a command fails. -/
inductive Failure where
  /-- The settings file cannot be read. -/
  | settingsUnreadable (path : String)
  /-- The settings file does not hold settings. -/
  | settingsInvalid (path : String)
  /-- The input file cannot be read. -/
  | inputUnreadable (path : String)
  /-- The standard input cannot be read. -/
  | standardInputUnreadable
  /-- The conversion fails. -/
  | conversion (error : ConvertError)
  /-- The output file cannot be written. -/
  | outputUnwritable (path : String)

/-- The wording of a failure. -/
def Failure.message : Failure → String
  | settingsUnreadable path => "failed to read config " ++ path
  | settingsInvalid path => "invalid config " ++ path
  | inputUnreadable path => "failed to read " ++ path
  | standardInputUnreadable => "failed to read stdin"
  | conversion error => "translation failed: " ++ error.message
  | outputUnwritable path => "failed to write " ++ path

/-- How a command ends. -/
inductive Outcome where
  /-- With a text for the standard output. -/
  | done (text : String)
  /-- With a failure. -/
  | failed (failure : Failure)
  /-- Before it begins. -/
  | misused (error : UsageError)

namespace Outcome

/-- The exit code. -/
def code : Outcome → UInt32
  | done _ => 0
  | failed _ => 1
  | misused _ => 2

/-- The text for the standard output. -/
def output : Outcome → String
  | done text => text
  | _ => ""

/-- The text for the standard error, if there is any. -/
def report? : Outcome → Option String
  | done _ => none
  | failed failure => some failure.message
  | misused error => some error.message

end Outcome

/-- The settings file that is looked for in the working directory. -/
def defaultSettings : String := "templar.toml"

/-- The text that tells the version. -/
def versionText : String := "templar 0.1.0\n"

/-- The text that tells how the program is used. -/
def helpText : String :=
  "Usage: templar [-v] translate [--from LANGUAGE] [--to LANGUAGE] [INPUT]\n" ++
  "                              [-o FILE] [--config FILE]\n" ++
  "       templar [-v] languages\n"

variable {m : Type → Type} [Monad m] (world : World m)

/-- The settings in a file. -/
def readSettings (path : String) : ExceptT Failure m Settings := do
  match ← world.readFile path with
  | none => throw (.settingsUnreadable path)
  | some text =>
    match Settings.parse? text with
    | none => throw (.settingsInvalid path)
    | some settings => return settings

/-- The settings in a file that is named, or in the default one if there is one. -/
def loadSettings (path : Option String) : ExceptT Failure m Settings := do
  match path with
  | some path => readSettings world path
  | none =>
    let path := (← world.directory) ++ "/" ++ defaultSettings
    if ← world.isFile path then readSettings world path else return {}

/-- The text of a file, or of the standard input. -/
def readSource (path : Option String) : ExceptT Failure m String := do
  match path with
  | some path =>
    match ← world.readFile path with
    | none => throw (.inputUnreadable path)
    | some text => return text
  | none =>
    match ← world.readInput with
    | none => throw .standardInputUnreadable
    | some text => return text

/-- Writes a text to a file. What is left for the standard output is all of it without a file, and
nothing with one. -/
def writeTarget (path : Option String) (text : String) : ExceptT Failure m String := do
  match path with
  | none => return text
  | some path => if ← world.writeFile path text then return "" else throw (.outputUnwritable path)

/-- A conversion. -/
def runConvert (o : Options) : ExceptT Failure m String := do
  let settings ← loadSettings world o.settings
  let chosen := settings.override o.source o.target
  let input ← readSource world o.input
  let request : Request :=
    { source := chosen.source, target := chosen.target, input := some input }
  match request.run with
  | .error e => throw (.conversion e)
  | .ok text => writeTarget world o.output text

/-- What a command line asks for. -/
def runInvocation : Invocation → ExceptT Failure m String
  | .convert o => runConvert world o
  | .languages => return String.join (languages.map fun name => name ++ "\n")
  | .version => return versionText
  | .help => return helpText

/-- A command, from its command line on. -/
def run (args : List String) : m Outcome := do
  match Invocation.ofArgs args with
  | .error e => return .misused e
  | .ok invocation =>
    match ← (runInvocation world invocation).run with
    | .error failure => return .failed failure
    | .ok text => return .done text

end Stencil.Command
