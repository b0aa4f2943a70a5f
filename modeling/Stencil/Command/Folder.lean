import Stencil.Command.Run

/-!
# A directory in memory

A directory in memory holds files by path and a text for the standard input. Commands can be run in
it without touching anything outside. A path is followed name by name: an empty name or a dot stays
where it is, two dots go back, and any other name before the last one has to be that of a directory,
which is one that has files in it. Outside there is nothing but the devices for the standard streams
and the one that is always empty.
-/

namespace Stencil.Command

/-- A directory in memory. -/
structure Folder where
  /-- Its own path, from the root on. -/
  path : String := "/"
  /-- Its files, each with the names that lead to it. -/
  files : List (List String × String) := []
  /-- What is left of the standard input, if that is a text. -/
  input : Option String := some ""
  /-- What was written to the standard output by its path. -/
  output : String := ""

namespace Folder

/-- A name that stays where it is. -/
def isStay (name : String) : Bool :=
  name == "" || name == "."

/-- A directory has files in it; the folder itself may be empty. -/
def isDirectory (f : Folder) (names : List String) : Bool :=
  names.isEmpty || f.files.any fun (file, _) => names.isPrefixOf file && file != names

/-- The file that a list of names stands for, starting in the directory `here`. -/
def follow? (f : Folder) (here : List String) : List String → Option (List String)
  | [] => none
  | [name] =>
    let file := here ++ [name]
    if isStay name || name == ".." || f.isDirectory file then none else some file
  | name :: names =>
    if isStay name then follow? f here names
    else if name == ".." then
      if here.isEmpty then none else follow? f here.dropLast names
    else if f.isDirectory (here ++ [name]) then follow? f (here ++ [name]) names
    else none

/-- The file that a path stands for. -/
def file? (f : Folder) (path : String) : Option (List String) :=
  match Text.strip? (f.path ++ "/").toList path.toList with
  | some rest => f.follow? [] ((String.ofList rest).splitOn "/")
  | none => if path.startsWith "/" then none else f.follow? [] (path.splitOn "/")

/-- The text of a file. -/
def read? (f : Folder) (path : String) : Option String :=
  (f.file? path).bind fun file => f.files.lookup file

/-- The directory with a file put into it. -/
def put (f : Folder) (file : List String) (text : String) : Folder :=
  { f with files := (file, text) :: f.files.filter (·.1 != file) }

/-- The standard input, of which nothing is left afterwards. -/
def takeInput : StateM Folder (Option String) :=
  modifyGet fun f => (f.input, { f with input := some "" })

/-- Reads a file or a device. -/
def readPath (path : String) : StateM Folder (Option String) := do
  match path with
  | "/dev/null" => return some ""
  | "/dev/stdin" => takeInput
  | _ => return (← get).read? path

/-- Writes a file or a device. -/
def writePath (path text : String) : StateM Folder Bool := do
  match path with
  | "/dev/null" | "/dev/stderr" => return true
  | "/dev/stdout" =>
    modify fun f => { f with output := f.output ++ text }
    return true
  | _ =>
    match (← get).file? path with
    | none => return false
    | some file =>
      modify (·.put file text)
      return true

/-- What a command can do in a directory in memory. -/
def world : World (StateM Folder) where
  directory := do return (← get).path
  isFile path := do return ((← get).read? path).isSome
  readFile := readPath
  readInput := takeInput
  writeFile := writePath

end Folder

end Stencil.Command
