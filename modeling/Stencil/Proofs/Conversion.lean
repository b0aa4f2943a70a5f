import Stencil.Convert

/-!
# Conversions between the languages that are always there

A conversion reads with the reader of the source language and writes with the writer of the target
language, and fails as soon as one of the two does.
-/

namespace Stencil

variable {language source target input text : String} {reader : Reader} {writer : Writer}

theorem given_of_reader (h : Reader.ofLanguage? language = some reader) :
    given (some language) = some language := by
  have hnames : ∀ r ∈ Reader.builtin, given (some r.language) = some r.language := by
    simp only [Reader.builtin, List.forall_mem_cons, List.not_mem_nil, false_imp_iff, implies_true,
      and_true]
    decide
  have hname : reader.language = language := by simpa using List.find?_some h
  exact hname ▸ hnames reader (List.mem_of_find?_eq_some h)

theorem given_of_writer (h : Writer.ofLanguage? language = some writer) :
    given (some language) = some language := by
  have hnames : ∀ w ∈ Writer.builtin, given (some w.language) = some w.language := by
    simp only [Writer.builtin, List.forall_mem_cons, List.not_mem_nil, false_imp_iff, implies_true,
      and_true]
    decide
  have hname : writer.language = language := by simpa using List.find?_some h
  exact hname ▸ hnames writer (List.mem_of_find?_eq_some h)

/-- A conversion reads, and then writes what it has read. -/
theorem convert_eq (hr : Reader.ofLanguage? source = some reader)
    (hw : Writer.ofLanguage? target = some writer) (input : String) :
    convert source target input = match reader.read input with
      | .error e => .error (.read e)
      | .ok nodes => (writer.write nodes).mapError .write := by
  have hreader : (Request.mk (some source) (some target) (some input) [] []).reader? =
      some reader := by
    rw [Request.reader?, given_of_reader hr]
    exact hr
  have hwriter : (Request.mk (some source) (some target) (some input) [] []).writer? =
      some writer := by
    rw [Request.writer?, given_of_writer hw]
    exact hw
  cases hread : reader.read input <;> simp [convert, Request.run, hreader, hwriter, hread]

theorem mapError_eq_ok_iff {ε ε' α : Type} {f : ε → ε'} {x : Except ε α} {a : α} :
    x.mapError f = .ok a ↔ x = .ok a := by
  cases x with
  | error e => exact iff_of_false nofun nofun
  | ok b =>
    change (Except.ok b : Except ε' α) = .ok a ↔ _
    rw [Except.ok.injEq, Except.ok.injEq]

/-- A conversion gives a text exactly if the source is read as a template that is written as that
text. -/
theorem convert_eq_ok_iff (reader : Reader) (writer : Writer)
    (hr : Reader.ofLanguage? source = some reader) (hw : Writer.ofLanguage? target = some writer) :
    convert source target input = .ok text ↔
      ∃ nodes, reader.read input = .ok nodes ∧ writer.write nodes = .ok text := by
  rw [convert_eq hr hw]
  cases reader.read input with
  | error e => simp
  | ok nodes => simp [mapError_eq_ok_iff]

/-- What a conversion gives is what is written for the template that was read. -/
theorem write_of_convert (reader : Reader) (writer : Writer) {nodes : List Node}
    (hr : Reader.ofLanguage? source = some reader) (hw : Writer.ofLanguage? target = some writer)
    (hread : reader.read input = .ok nodes) (h : convert source target input = .ok text) :
    writer.write nodes = .ok text := by
  obtain ⟨nodes', hread', hwrite⟩ := (convert_eq_ok_iff reader writer hr hw).mp h
  obtain rfl := Except.ok.inj (hread.symm.trans hread')
  exact hwrite

/-- A conversion fails in writing exactly if the source is read as a template that cannot be
written. -/
theorem convert_eq_write_iff (reader : Reader) (writer : Writer) {e : WriteError}
    (hr : Reader.ofLanguage? source = some reader) (hw : Writer.ofLanguage? target = some writer) :
    convert source target input = .error (.write e) ↔
      ∃ nodes, reader.read input = .ok nodes ∧ writer.write nodes = .error e := by
  rw [convert_eq hr hw]
  cases reader.read input with
  | error e => simp
  | ok nodes =>
    simp only [Except.ok.injEq, exists_eq_left']
    cases writer.write nodes with
    | error e' => exact ⟨fun h => by cases h; rfl, fun h => by cases h; rfl⟩
    | ok text => exact iff_of_false nofun nofun

end Stencil
