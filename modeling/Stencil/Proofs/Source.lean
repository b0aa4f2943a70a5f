import Stencil.Source

/-!
# Reading on in a source

Reading a text leads from one piece of a source to another: the text stands between them, and the
offset of the second piece is the one after the text. Whatever reads on from a piece of a source
leads to a piece of the same source.
-/

namespace Stencil.Piece

/-- Reading the text `s` leads from `p` to `q`. -/
structure Leads (p : Piece) (s : List Char) (q : Piece) : Prop where
  text : p.text = s ++ q.text
  start : q.start = p.start + Text.byteLength s

namespace Leads

variable {p q r : Piece} {s t : List Char}

theorem refl (p : Piece) : Leads p [] p :=
  ⟨rfl, rfl⟩

theorem trans (h : Leads p s q) (h' : Leads q t r) : Leads p (s ++ t) r :=
  ⟨by rw [h.text, h'.text, List.append_assoc],
    by rw [h'.start, h.start, Text.byteLength_append, Nat.add_assoc]⟩

theorem drop (p : Piece) (n : Nat) : Leads p (p.text.take n) (p.drop n) :=
  ⟨(List.take_append_drop n p.text).symm, rfl⟩

theorem trimStart (p : Piece) : Leads p (p.text.takeWhile Text.isBlank) p.trimStart :=
  ⟨List.takeWhile_append_dropWhile.symm, rfl⟩

theorem strip? (h : p.strip? s = some q) : Leads p s q := by
  obtain ⟨text, ht, rfl⟩ := Option.map_eq_some_iff.mp h
  exact ⟨Text.eq_append_of_strip? ht, rfl⟩

theorem dropMarker (p : Piece) : ∃ s, (s = [] ∨ s = ['-']) ∧ Leads p s p.dropMarker := by
  unfold Piece.dropMarker
  split
  · next h =>
    obtain ⟨cs, hcs⟩ := List.head?_eq_some_iff.mp (beq_iff_eq.mp h)
    refine ⟨p.text.take 1, .inr ?_, drop p 1⟩
    rw [hcs]
    rfl
  · exact ⟨[], .inl rfl, refl p⟩

theorem splitBefore (stop : List Char → Bool) (p : Piece) :
    Leads p (p.splitBefore stop).1.text (p.splitBefore stop).2 :=
  ⟨(Text.splitBefore_append stop p.text).symm, rfl⟩

/-- Nothing is left at the end of a piece. -/
theorem stop (p : Piece) : Leads p p.text ⟨p.stop, []⟩ :=
  ⟨(List.append_nil _).symm, rfl⟩

end Leads

end Stencil.Piece
