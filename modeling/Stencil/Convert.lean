import Stencil.Language

/-!
# Conversion

A request names a source language, a target language and a text, and may bring readers and writers
of its own. It is checked as a whole: every violation is reported, and only a request without any
is carried out, by the reader of the source language and then the writer of the target language.
-/

namespace Stencil

/-- A request for a conversion. -/
structure Request where
  /-- The name of the source language. -/
  source : Option String := none
  /-- The name of the target language. -/
  target : Option String := none
  /-- The text. -/
  input : Option String := none
  /-- Readers for this request, the last one first to be considered. -/
  readers : List Reader := []
  /-- Writers for this request, the last one first to be considered. -/
  writers : List Writer := []

/-- What is wrong with a request. -/
inductive Violation where
  /-- No source language. -/
  | noSource
  /-- No target language. -/
  | noTarget
  /-- No text. -/
  | noInput
  /-- A language out of reach. -/
  | unknownLanguage (name : String) (supported : List String)
deriving DecidableEq, Repr

/-- The wording of a violation. -/
def Violation.message : Violation → String
  | noSource => "Invalid argument \"from\": expected string (e.g. \"nunjucks\")"
  | noTarget => "Invalid argument \"to\": expected string (e.g. \"liquid\")"
  | noInput => "Invalid argument \"input\": expected string (the template content)"
  | unknownLanguage name supported =>
      "unsupported language \"" ++ name ++ "\". Supported: " ++ ", ".intercalate supported

/-- A failure of a conversion. -/
inductive ConvertError where
  /-- The request is not valid. -/
  | invalid (violations : List Violation)
  /-- The text cannot be read. -/
  | read (error : ReadError)
  /-- The template cannot be written. -/
  | write (error : WriteError)

/-- The wording of a failure of a conversion. -/
def ConvertError.message : ConvertError → String
  | invalid violations => "\n".intercalate (violations.map Violation.message)
  | read error => error.message
  | write error => error.message

/-- The name of a language, if it is one: it has to hold more than blanks. -/
def given (name : Option String) : Option String :=
  name.filter fun name => !Text.isBlankString name

namespace Request

/-- The readers and writers that a request chooses from. -/
def registry (r : Request) : Registry :=
  r.writers.foldl Registry.withWriter (r.readers.foldl Registry.withReader Registry.builtin)

/-- The reader that a request names. -/
def reader? (r : Request) : Option Reader :=
  (given r.source).bind r.registry.reader?

/-- The writer that a request names. -/
def writer? (r : Request) : Option Writer :=
  (given r.target).bind r.registry.writer?

/-- The violations of what is missing. -/
def missing (r : Request) : List Violation :=
  (if (given r.source).isNone then [.noSource] else []) ++
    (if (given r.target).isNone then [.noTarget] else []) ++
    (if r.input.isNone then [.noInput] else [])

/-- The violations of a language that is named and out of reach. -/
def unresolved (name : Option String) (isFound : Bool) (supported : List String) :
    List Violation :=
  match given name with
  | some name => if isFound then [] else [.unknownLanguage name supported]
  | none => []

/-- All that is wrong with a request. -/
def violations (r : Request) : List Violation :=
  r.missing ++ unresolved r.source r.reader?.isSome r.registry.readerLanguages ++
    unresolved r.target r.writer?.isSome r.registry.writerLanguages

/-- The converted text. -/
def run (r : Request) : Except ConvertError String :=
  match r.reader?, r.writer?, r.input with
  | some reader, some writer, some input =>
    match reader.read input with
    | .error e => .error (.read e)
    | .ok nodes => (writer.write nodes).mapError .write
  | _, _, _ => .error (.invalid r.violations)

end Request

/-- The conversion of a text from one language to another. -/
def convert (source target input : String) : Except ConvertError String :=
  Request.run { source := some source, target := some target, input := some input }

end Stencil
