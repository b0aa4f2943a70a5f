import Stencil.Source
import Stencil.Text.Blank
import Stencil.Trim

/-!
# Markers of a Nunjucks source

Nunjucks trees keep no whitespace-control markers and do not tell the body of a raw block from
other text. Both are recovered from the source around an offset: the markers from the nearest
delimiters on either side, and the raw block from an opening tag that stands shortly before.

A place in a source is the text before it, the last character first, and the text after it.
-/

namespace Stencil.Nunjucks

/-- A place in a source. -/
structure Place where
  /-- The text before it, the last character first. -/
  before : List Char
  /-- The text after it. -/
  after : List Char
deriving DecidableEq, Repr

/-- The place at a byte offset of the text `after`, given the text before it; the end if there is
none. -/
def Place.seek : (offset : Nat) → (before after : List Char) → Place
  | _, before, [] => ⟨before, []⟩
  | 0, before, after => ⟨before, after⟩
  | offset + 1, before, c :: after => seek (offset + 1 - c.utf8Size) (c :: before) after

/-- The place at a byte offset of a source. -/
def Place.at (source : List Char) (offset : Nat) : Place :=
  seek offset [] source

/-! ### Nearest delimiters -/

/-- The last opening delimiter of a reversed text is marked. A delimiter is a brace and a second
character, and `next` is the character after the text. -/
def isMarkedOpening (second : Char → Bool) (next : Option Char) : List Char → Bool
  | [] => false
  | c :: cs =>
    if second c && cs.head? == some '{' then next == some '-'
    else isMarkedOpening second (some c) cs

/-- The first closing delimiter of a text is marked. A delimiter is a first character and a brace,
and `previous` is the character before the text. -/
def isMarkedClosing (first : Char → Bool) (previous : Option Char) : List Char → Bool
  | [] => false
  | c :: cs =>
    if first c && cs.head? == some '}' then previous == some '-'
    else isMarkedClosing first (some c) cs

namespace Place

/-- The markers of the nearest delimiters around a place. -/
def markers (p : Place) : Trim where
  left := isMarkedOpening (fun c => c == '{' || c == '%') p.after.head? p.before
  right := isMarkedClosing (fun c => c == '}' || c == '%') none p.after

/-- The markers of the tag that ends at a place. -/
def markersBefore (p : Place) : Trim :=
  match p.before with
  | '}' :: '%' :: body =>
      { left := isMarkedOpening (· == '%') none body
        right := body.head? == some '-' }
  | _ => .unset

/-- The markers of the tag that begins at a place. -/
def markersAfter (p : Place) : Trim :=
  match p.after with
  | '{' :: '%' :: body =>
      { left := body.head? == some '-'
        right := isMarkedClosing (· == '%') none body }
  | _ => .unset

end Place

/-! ### Raw blocks -/

/-- An opening tag of a raw block stands at the start of a text. -/
def opensRaw (cs : List Char) : Bool :=
  match cs with
  | '{' :: '%' :: cs =>
    let body := Text.trimStart (if cs.head? == some '-' then cs.tail else cs)
    match (Text.strip? "raw".toList body).or (Text.strip? "verbatim".toList body) with
    | none => false
    | some rest =>
      let rest := Text.trimStart rest
      Text.startsWith "%\x7d".toList (if rest.head? == some '-' then rest.tail else rest)
  | _ => false

/-- An opening tag of a raw block stands somewhere in a text. -/
def holdsRaw : List Char → Bool
  | [] => false
  | c :: cs => opensRaw (c :: cs) || holdsRaw cs

/-- The first characters of a text that make up at least `bytes` bytes. -/
def takeBytes : (bytes : Nat) → List Char → List Char
  | _, [] => []
  | 0, _ => []
  | bytes + 1, c :: cs => c :: takeBytes (bytes + 1 - c.utf8Size) cs

/-- How many bytes before a text an opening tag of a raw block is looked for. -/
def rawWindow : Nat := 16

/-- An opening tag of a raw block stands shortly before a place. -/
def Place.isAfterRaw (p : Place) : Bool :=
  holdsRaw (takeBytes rawWindow p.before).reverse

end Stencil.Nunjucks
