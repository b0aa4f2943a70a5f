import Stencil.Convert

/-!
# Requests are resolved and checked

A request chooses from the readers and writers that it brings and from those that are always there:
the last one that it brings for a language counts, and those that are always there come after all of
them. The languages that can be read and written are listed once each.

There are five problems that a request can have, in a fixed order. A request that has some is
answered with a violation for each of them and nothing else. One that has none is carried out by the
reader and the writer that it names, and where the text cannot be read nothing is written.

## Main definitions

* `Problem` : what can be wrong with a request.
* `Request.problems` : the problems of a request, in the order of the report.
* `Request.report` : the violation for a problem.

## Main results

* `Request.reader?_registry`, `Request.writer?_registry` : the reader and the writer that count.
* `Request.violations_eq` : the violations are the reports of the problems.
* `Request.run_of_problems` : what comes of a request.
-/

namespace Stencil

/-! ### Readers and writers in layers -/

/-- Looking from the last one added to the first, and then among those that were there before. -/
theorem find?_reverse_append {α : Type} (added before : List α) (p : α → Bool) :
    (added.reverse ++ before).find? p = (added.filter p).getLast?.or (before.find? p) := by
  rw [List.find?_append, ← List.head?_filter, List.filter_reverse, List.head?_reverse]

theorem foldl_withReader (r : Registry) (readers : List Reader) :
    readers.foldl Registry.withReader r = { r with readers := readers.reverse ++ r.readers } := by
  induction readers generalizing r with
  | nil => rfl
  | cons reader readers ih => simp [ih, Registry.withReader]

theorem foldl_withWriter (r : Registry) (writers : List Writer) :
    writers.foldl Registry.withWriter r = { r with writers := writers.reverse ++ r.writers } := by
  induction writers generalizing r with
  | nil => rfl
  | cons writer writers ih => simp [ih, Registry.withWriter]

/-- A name is listed exactly if something of that name is found. -/
theorem mem_distinct_map_iff {α : Type} (f : α → String) (xs : List α) (name : String) :
    name ∈ distinct (xs.map f) ↔ (xs.find? fun x => f x == name).isSome := by
  simp [List.find?_isSome]

theorem map_filter_eq_flatMap {α β : Type} (f : α → β) (p : α → Bool) (xs : List α) :
    (xs.filter p).map f = xs.flatMap fun x => if p x then [f x] else [] := by
  induction xs with
  | nil => rfl
  | cons x xs ih => cases h : p x <;> simp [h, ih]

/-! ### Problems -/

/-- What can be wrong with a request. -/
inductive Problem where
  /-- The source language is missing or blank. -/
  | missingSource
  /-- The target language is missing or blank. -/
  | missingTarget
  /-- The text is missing. -/
  | missingInput
  /-- There is no reader for the source language. -/
  | unresolvableSource
  /-- There is no writer for the target language. -/
  | unresolvableTarget
deriving DecidableEq, Repr

/-- The problems in the order of the report. -/
def Problem.all : List Problem :=
  [missingSource, missingTarget, missingInput, unresolvableSource, unresolvableTarget]

/-- The name of a language is missing or blank. -/
def isUnnamed (name : Option String) : Bool :=
  name.all Text.isBlankString

theorem given_eq (name : Option String) :
    given name = if isUnnamed name then none else name := by
  cases name with
  | none => rfl
  | some name => cases h : Text.isBlankString name <;> simp [given, isUnnamed, h]

namespace Request

variable (r : Request)

theorem registry_eq : r.registry =
    ⟨r.readers.reverse ++ Reader.builtin, r.writers.reverse ++ Writer.builtin⟩ := by
  rw [registry, foldl_withWriter, foldl_withReader]
  rfl

/-- The last reader for a language that the request brings, or else the one that is always there. -/
theorem reader?_registry (language : String) : r.registry.reader? language =
    (r.readers.filter (·.language == language)).getLast?.or (Reader.ofLanguage? language) := by
  rw [registry_eq]
  exact find?_reverse_append r.readers Reader.builtin _

/-- The last writer for a language that the request brings, or else the one that is always there. -/
theorem writer?_registry (language : String) : r.registry.writer? language =
    (r.writers.filter (·.language == language)).getLast?.or (Writer.ofLanguage? language) := by
  rw [registry_eq]
  exact find?_reverse_append r.writers Writer.builtin _

/-- The request has a problem. -/
def has : Problem → Bool
  | .missingSource => isUnnamed r.source
  | .missingTarget => isUnnamed r.target
  | .missingInput => r.input.isNone
  | .unresolvableSource => !isUnnamed r.source && (r.source.bind r.registry.reader?).isNone
  | .unresolvableTarget => !isUnnamed r.target && (r.target.bind r.registry.writer?).isNone

/-- The problems of a request, in the order of the report. -/
def problems : List Problem :=
  Problem.all.filter r.has

/-- The violation for a problem. -/
def report : Problem → Violation
  | .missingSource => .noSource
  | .missingTarget => .noTarget
  | .missingInput => .noInput
  | .unresolvableSource => .unknownLanguage (r.source.getD "") r.registry.readerLanguages
  | .unresolvableTarget => .unknownLanguage (r.target.getD "") r.registry.writerLanguages

/-- A language that is named is either found or reported. -/
theorem unresolved_eq {α : Type} (name : Option String) (find : String → Option α)
    (supported : List String) :
    unresolved name ((given name).bind find).isSome supported =
      if !isUnnamed name && (name.bind find).isNone then
        [.unknownLanguage (name.getD "") supported]
      else [] := by
  rw [unresolved, given_eq]
  cases name with
  | none => rfl
  | some name => cases isUnnamed (some name) <;> cases hfind : find name <;> simp [hfind]

theorem isNone_given (name : Option String) : (given name).isNone = isUnnamed name := by
  rw [given_eq]
  cases name with
  | none => rfl
  | some name => cases isUnnamed (some name) <;> rfl

/-- The violations of a request are the reports of its problems. -/
theorem violations_eq : r.violations = r.problems.map r.report := by
  rw [violations, missing, reader?, writer?, unresolved_eq, unresolved_eq, isNone_given,
    isNone_given, problems, map_filter_eq_flatMap]
  simp only [Problem.all, has, report, List.flatMap_cons, List.flatMap_nil, List.append_assoc,
    List.append_nil]
  rfl

/-- A named language that is found is the one that the request gives. -/
theorem given_bind_eq_some_iff {α : Type} {name : Option String} {find : String → Option α}
    {x : α} :
    (given name).bind find = some x ↔
      isUnnamed name = false ∧ ∃ language, name = some language ∧ find language = some x := by
  rw [given_eq]
  cases isUnnamed name with
  | true => simp
  | false => simp [Option.bind_eq_some_iff]

/-- A request without problems names a reader and a writer and brings a text. -/
theorem exists_of_problems_eq_nil (h : r.problems = []) :
    ∃ reader writer input, r.reader? = some reader ∧ r.writer? = some writer ∧
      r.input = some input := by
  have hnone : ∀ problem ∈ Problem.all, r.has problem = false := by
    intro problem hp
    rw [Bool.eq_false_iff]
    exact List.filter_eq_nil_iff.mp h problem hp
  simp only [Problem.all, List.forall_mem_cons, List.not_mem_nil, false_imp_iff, implies_true,
    and_true, has] at hnone
  obtain ⟨hsource, htarget, hinput, hreader, hwriter⟩ := hnone
  rw [hsource, Bool.not_false, Bool.true_and, Option.isNone_eq_false_iff,
    Option.isSome_iff_exists] at hreader
  rw [htarget, Bool.not_false, Bool.true_and, Option.isNone_eq_false_iff,
    Option.isSome_iff_exists] at hwriter
  rw [Option.isNone_eq_false_iff, Option.isSome_iff_exists] at hinput
  obtain ⟨reader, hr⟩ := hreader
  obtain ⟨writer, hw⟩ := hwriter
  obtain ⟨input, hi⟩ := hinput
  refine ⟨reader, writer, input, ?_, ?_, hi⟩
  · rwa [reader?, given_eq, hsource]
  · rwa [writer?, given_eq, htarget]

/-- A request with problems names no reader, no writer or brings no text. -/
theorem problems_eq_nil_of_some {reader : Reader} {writer : Writer} {input : String}
    (hr : r.reader? = some reader) (hw : r.writer? = some writer) (hi : r.input = some input) :
    r.problems = [] := by
  obtain ⟨hsource, source, hs, hreader⟩ := given_bind_eq_some_iff.mp hr
  obtain ⟨htarget, target, ht, hwriter⟩ := given_bind_eq_some_iff.mp hw
  rw [problems, List.filter_eq_nil_iff]
  intro problem _
  cases problem with
  | missingSource => simp [has, hsource]
  | missingTarget => simp [has, htarget]
  | missingInput => simp [has, hi]
  | unresolvableSource => simp [has, hs, hreader]
  | unresolvableTarget => simp [has, ht, hwriter]

theorem run_of_some {reader : Reader} {writer : Writer} {input : String}
    (hr : r.reader? = some reader) (hw : r.writer? = some writer) (hi : r.input = some input) :
    r.run = ((reader.read input).mapError .read).bind fun nodes =>
      (writer.write nodes).mapError .write := by
  simp only [run, hr, hw, hi]
  cases reader.read input <;> rfl

/-- A request with problems is answered with their reports. -/
theorem run_of_problems_ne_nil (h : r.problems ≠ []) :
    r.run = .error (.invalid (r.problems.map r.report)) := by
  rw [← violations_eq, run]
  split
  · next hr hw hi => exact absurd (r.problems_eq_nil_of_some hr hw hi) h
  · rfl

/-- What is chosen from, what is listed, and what comes of a request: the reports of its problems,
if it has any, and otherwise what the reader and then the writer make of the text. -/
theorem run_of_problems :
    (∀ language, r.registry.reader? language =
      (r.readers.filter (·.language == language)).getLast?.or (Reader.ofLanguage? language)) ∧
    (∀ language, r.registry.writer? language =
      (r.writers.filter (·.language == language)).getLast?.or (Writer.ofLanguage? language)) ∧
    (r.registry.readerLanguages.Nodup ∧ ∀ language,
      language ∈ r.registry.readerLanguages ↔ (r.registry.reader? language).isSome) ∧
    (r.registry.writerLanguages.Nodup ∧ ∀ language,
      language ∈ r.registry.writerLanguages ↔ (r.registry.writer? language).isSome) ∧
    ((∃ violations, r.run = .error (.invalid violations)) ↔ ∃ problem, r.has problem) ∧
    ((∃ problem, r.has problem) ∧ r.problems.map r.report ≠ [] ∧
        r.run = .error (.invalid (r.problems.map r.report)) ∨
      ∃ source target input reader writer, r.source = some source ∧ r.target = some target ∧
        r.input = some input ∧ r.registry.reader? source = some reader ∧
        r.registry.writer? target = some writer ∧
        r.run = ((reader.read input).mapError .read).bind fun nodes =>
          (writer.write nodes).mapError .write) := by
  have hall : ∀ problem, problem ∈ Problem.all := by
    intro problem
    cases problem <;> decide
  have hhas : (∃ problem, r.has problem) ↔ r.problems ≠ [] := by
    rw [problems, ne_eq, List.filter_eq_nil_iff]
    simp [hall]
  refine ⟨r.reader?_registry, r.writer?_registry, ⟨nodup_distinct _, mem_distinct_map_iff _ _⟩,
    ⟨nodup_distinct _, mem_distinct_map_iff _ _⟩, ?_⟩
  rw [hhas]
  by_cases hp : r.problems = []
  · obtain ⟨reader, writer, input, hr, hw, hi⟩ := r.exists_of_problems_eq_nil hp
    have hrun := r.run_of_some hr hw hi
    refine ⟨iff_of_false ?_ (not_not_intro hp), .inr ?_⟩
    · rintro ⟨violations, h⟩
      rw [hrun] at h
      cases hread : reader.read input with
      | error e =>
        rw [hread] at h
        cases h
      | ok nodes =>
        rw [hread] at h
        change (writer.write nodes).mapError ConvertError.write = .error (.invalid violations) at h
        cases hwrite : writer.write nodes with
        | error e =>
          rw [hwrite] at h
          cases h
        | ok text =>
          rw [hwrite] at h
          cases h
    · obtain ⟨-, source, hs, hreader⟩ := given_bind_eq_some_iff.mp hr
      obtain ⟨-, target, ht, hwriter⟩ := given_bind_eq_some_iff.mp hw
      exact ⟨source, target, input, reader, writer, hs, ht, hi, hreader, hwriter, hrun⟩
  · have hrun := r.run_of_problems_ne_nil hp
    exact ⟨iff_of_true ⟨_, hrun⟩ hp, .inl ⟨hp, by simpa using hp, hrun⟩⟩

end Request

end Stencil
