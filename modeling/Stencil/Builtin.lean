/-!
# Shared filters

The filters that both languages ship, often under different names.
-/

namespace Stencil

/-- A filter that both languages know. -/
inductive Builtin where
  | uppercase
  | lowercase
  | capitalize
  | trim
  | escape
  | default
  | first
  | last
  | join
  | size
  | reverse
  | round
  | abs
  | urlEncode
  | stripHtml
  | newlineToBr
deriving DecidableEq, Repr

namespace Builtin

/-- Every shared filter. -/
def all : List Builtin :=
  [uppercase, lowercase, capitalize, trim, escape, default, first, last, join, size, reverse,
   round, abs, urlEncode, stripHtml, newlineToBr]

/-- The identifier of a shared filter. -/
def id : Builtin → String
  | uppercase => "uppercase"
  | lowercase => "lowercase"
  | capitalize => "capitalize"
  | trim => "trim"
  | escape => "escape"
  | default => "default"
  | first => "first"
  | last => "last"
  | join => "join"
  | size => "size"
  | reverse => "reverse"
  | round => "round"
  | abs => "abs"
  | urlEncode => "url_encode"
  | stripHtml => "strip_html"
  | newlineToBr => "newline_to_br"

/-- The name of a shared filter in Liquid. -/
def liquidName : Builtin → String
  | uppercase => "upcase"
  | lowercase => "downcase"
  | trim => "strip"
  | other => other.id

/-- The name of a shared filter in Nunjucks. -/
def nunjucksName : Builtin → String
  | uppercase => "upper"
  | lowercase => "lower"
  | size => "length"
  | urlEncode => "urlencode"
  | stripHtml => "striptags"
  | newlineToBr => "nl2br"
  | other => other.id

/-- The shared filter with a given identifier. -/
def ofId? (name : String) : Option Builtin :=
  all.find? fun b => b.id == name

/-- The shared filter that Liquid calls `name`. -/
def ofLiquid? (name : String) : Option Builtin :=
  all.find? fun b => b.liquidName == name

/-- The shared filter that Nunjucks calls `name`. -/
def ofNunjucks? (name : String) : Option Builtin :=
  all.find? fun b => b.nunjucksName == name

@[simp] theorem ofId?_id (b : Builtin) : ofId? b.id = some b := by
  cases b <;> decide

@[simp] theorem ofLiquid?_liquidName (b : Builtin) : ofLiquid? b.liquidName = some b := by
  cases b <;> decide

@[simp] theorem ofNunjucks?_nunjucksName (b : Builtin) : ofNunjucks? b.nunjucksName = some b := by
  cases b <;> decide

end Builtin

end Stencil
