import Stencil.Liquid.Reader
import Stencil.Liquid.Writer
import Stencil.Nunjucks.Reader
import Stencil.Nunjucks.Writer

/-!
# Languages

A language is known by the name under which it is read and written. A registry holds the readers and
writers that a conversion can choose from; one that is added comes before all others of its name.
-/

namespace Stencil

/-- What reads templates in a language. -/
structure Reader where
  /-- The name of the language. -/
  language : String
  /-- The extensions of its files. -/
  extensions : List String := []
  /-- The template of a source. -/
  read : String → Except ReadError (List Node)

/-- What writes templates in a language. -/
structure Writer where
  /-- The name of the language. -/
  language : String
  /-- The extension of its files. -/
  extension : String := ""
  /-- The source of a template. -/
  write : List Node → Except WriteError String

/-! ### The languages that are always there -/

namespace Reader

/-- Reads Liquid. -/
def liquid : Reader where
  language := "liquid"
  extensions := ["liquid"]
  read := Liquid.read

/-- Reads Nunjucks. -/
def nunjucks : Reader where
  language := "nunjucks"
  extensions := ["njk", "nunjucks"]
  read := Nunjucks.read

/-- The readers that are always there. -/
def builtin : List Reader := [liquid, nunjucks]

/-- The reader for a language, out of those that are always there. -/
def ofLanguage? (language : String) : Option Reader :=
  builtin.find? fun r => r.language == language

/-- The reader for files with an extension, out of those that are always there. -/
def ofExtension? (extension : String) : Option Reader :=
  builtin.find? fun r => r.extensions.contains extension

end Reader

namespace Writer

/-- Writes Liquid. -/
def liquid : Writer where
  language := "liquid"
  extension := "liquid"
  write := Liquid.write

/-- Writes Nunjucks. -/
def nunjucks : Writer where
  language := "nunjucks"
  extension := "njk"
  write := Nunjucks.write

/-- The writers that are always there. -/
def builtin : List Writer := [liquid, nunjucks]

/-- The writer for a language, out of those that are always there. -/
def ofLanguage? (language : String) : Option Writer :=
  builtin.find? fun w => w.language == language

end Writer

/-! ### Names without repetitions -/

/-- The names without repetitions, in the order in which they first occur. -/
def distinct : List String → List String
  | [] => []
  | x :: xs => x :: (distinct xs).filter (· != x)

@[simp] theorem mem_distinct {x : String} : {xs : List String} → x ∈ distinct xs ↔ x ∈ xs
  | [] => by simp [distinct]
  | y :: ys => by
      by_cases h : x = y
      · simp [distinct, h]
      · simp [distinct, h, @mem_distinct x ys]

theorem nodup_distinct : (xs : List String) → (distinct xs).Nodup
  | [] => by simp [distinct]
  | x :: xs => by
      simp only [distinct, List.nodup_cons, List.mem_filter]
      exact ⟨by simp, (nodup_distinct xs).filter _⟩

/-- The names of the languages that are always there, in alphabetical order. -/
def languages : List String :=
  let names := Reader.builtin.map (·.language) ++ Writer.builtin.map (·.language)
  distinct (names.mergeSort fun a b => decide (a ≤ b))

/-! ### Registries -/

/-- The readers and writers to choose from. The first one of a name is the one that counts. -/
structure Registry where
  /-- The readers. -/
  readers : List Reader
  /-- The writers. -/
  writers : List Writer

namespace Registry

/-- What is always there. -/
def builtin : Registry := ⟨Reader.builtin, Writer.builtin⟩

/-- One more reader, which hides any other of its name. -/
def withReader (r : Registry) (reader : Reader) : Registry :=
  { r with readers := reader :: r.readers }

/-- One more writer, which hides any other of its name. -/
def withWriter (r : Registry) (writer : Writer) : Registry :=
  { r with writers := writer :: r.writers }

/-- The reader for a language. -/
def reader? (r : Registry) (language : String) : Option Reader :=
  r.readers.find? fun reader => reader.language == language

/-- The writer for a language. -/
def writer? (r : Registry) (language : String) : Option Writer :=
  r.writers.find? fun writer => writer.language == language

/-- The names of the languages that can be read. -/
def readerLanguages (r : Registry) : List String :=
  distinct (r.readers.map (·.language))

/-- The names of the languages that can be written. -/
def writerLanguages (r : Registry) : List String :=
  distinct (r.writers.map (·.language))

end Registry

end Stencil
