import Stencil.Text.Name

/-!
# Literals

The spelling of quoted strings and numbers, which both languages share. A string is closed by the
quote that opened it; a backslash keeps the character after it, and a doubled quote stands for one.
A number has at most one fraction.
-/

namespace Stencil.Text

/-- A quote of either kind. -/
def isQuote (c : Char) : Bool :=
  c == '\'' || c == '"'

/-- The part of a quoted string after its opening quote, the closing quote included, and the text
after it. -/
def quotedRest (quote : Char) : List Char → Option (List Char × List Char)
  | [] => none
  | '\\' :: c :: cs =>
      (quotedRest quote cs).map fun (body, rest) => ('\\' :: c :: body, rest)
  | c :: d :: cs =>
    if c == quote then
      if d == quote then
        (quotedRest quote cs).map fun (body, rest) => (c :: d :: body, rest)
      else some ([c], d :: cs)
    else (quotedRest quote (d :: cs)).map fun (body, rest) => (c :: body, rest)
  | [c] => if c == quote then some ([c], []) else none

theorem quotedRest_append {quote : Char} {cs body rest : List Char}
    (h : quotedRest quote cs = some (body, rest)) : cs = body ++ rest := by
  fun_induction quotedRest quote cs generalizing body rest with
  | case1 => simp at h
  | case2 c cs ih | case3 c d cs _ _ _ ih | case5 c d cs _ _ ih =>
      obtain ⟨⟨b, r⟩, hb, he⟩ := Option.map_eq_some_iff.mp h
      simp only [Prod.mk.injEq] at he
      obtain ⟨rfl, rfl⟩ := he
      simp [← ih hb]
  | case4 c d cs _ hc _ =>
      simp only [Option.some.injEq, Prod.mk.injEq] at h
      simp [← h.1, ← h.2]
  | case6 c hc => simp_all
  | case7 => simp at h

/-- The body of a text that begins and ends with the same quote. -/
def unquote? : List Char → Option (List Char)
  | q :: cs => if isQuote q && cs.getLast? == some q then some cs.dropLast else none
  | [] => none

/-- The text of a literal with its quotes removed. -/
def unquoted (text : String) : List Char :=
  (unquote? text.toList).getD text.toList

/-- The fraction at the start of a text: a dot with a digit after it, and more digits. -/
def fraction : List Char → List Char
  | '.' :: c :: cs => if isDigit c then '.' :: (c :: cs).takeWhile isDigit else []
  | _ => []

end Stencil.Text
