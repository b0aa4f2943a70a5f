import Stencil.Node.Similar

/-!
# Templates with other spellings

Three things in a template are a matter of presentation: the texts of its literals, the arguments of
tags that are passed on, and its markers. A respelling replaces them everywhere in a template and
leaves all else as it is. The literals of a template, one after the other, are then replaced one by
one.
-/

namespace Stencil

/-- What is written in place of the parts of a template that are a matter of presentation. -/
structure Respelling where
  /-- In place of a literal. -/
  literal : String → String
  /-- In place of the arguments of a tag that is passed on. -/
  args : String → String
  /-- In place of the markers of a tag. -/
  trim : Trim → Trim

namespace Respelling

/-- Everything but the markers stays. -/
def unmarked : Respelling := ⟨id, id, fun _ => .unset⟩

/-- Neither markers, nor blanks around arguments, nor the texts of literals stay. -/
def skeleton : Respelling := ⟨fun _ => "", Text.trimmed, fun _ => .unset⟩

@[simp] theorem skeleton_literal (text : String) : skeleton.literal text = "" := rfl

@[simp] theorem skeleton_trim (t : Trim) : skeleton.trim t = .unset := rfl

@[simp] theorem skeleton_args (args : String) : skeleton.args args = Text.trimmed args := rfl

/-- One respelling after another. -/
def comp (r s : Respelling) : Respelling :=
  ⟨r.literal ∘ s.literal, r.args ∘ s.args, r.trim ∘ s.trim⟩

theorem skeleton_comp_unmarked : skeleton.comp unmarked = skeleton := rfl

end Respelling

/-! ### Spellings and literals -/

namespace Part

/-- A part of a chain with another spelling. -/
def respell (r : Respelling) : Part → Part
  | .literal text => .literal (r.literal text)
  | part => part

/-- The literal of a part, if it is one. -/
def literals : Part → List String
  | .literal text => [text]
  | _ => []

end Part

namespace Expr

mutual

/-- An expression with another spelling. -/
def respell (r : Respelling) : Expr → Expr
  | ⟨c, s⟩ => ⟨c.map (Part.respell r), respellSteps r s⟩

/-- A pipeline with another spelling. -/
def respellSteps (r : Respelling) : List (Step Expr) → List (Step Expr)
  | [] => []
  | s :: ss => respellStep r s :: respellSteps r ss

/-- A step with another spelling. -/
def respellStep (r : Respelling) : Step Expr → Step Expr
  | .apply n as => .apply n (respellArgs r as)
  | .truncate l e k => .truncate (respell r l) (respellOption r e) k
  | .replace o n c => .replace (respell r o) (respell r n) (respellOption r c)
  | .select k v => .select (respell r k) (respellOption r v)
  | .sort k b => .sort (respellOption r k) b

/-- Arguments with another spelling. -/
def respellArgs (r : Respelling) : List Expr → List Expr
  | [] => []
  | a :: as => respell r a :: respellArgs r as

/-- An optional argument with another spelling. -/
def respellOption (r : Respelling) : Option Expr → Option Expr
  | none => none
  | some e => some (respell r e)

end

mutual

/-- The literals of an expression, in order. -/
def literals : Expr → List String
  | ⟨c, s⟩ => c.flatMap Part.literals ++ literalsSteps s

/-- The literals of a pipeline. -/
def literalsSteps : List (Step Expr) → List String
  | [] => []
  | s :: ss => literalsStep s ++ literalsSteps ss

/-- The literals of a step. -/
def literalsStep : Step Expr → List String
  | .apply _ as => literalsArgs as
  | .truncate l e _ => literals l ++ literalsOption e
  | .replace o n c => literals o ++ (literals n ++ literalsOption c)
  | .select k v => literals k ++ literalsOption v
  | .sort k _ => literalsOption k

/-- The literals of arguments. -/
def literalsArgs : List Expr → List String
  | [] => []
  | a :: as => literals a ++ literalsArgs as

/-- The literals of an optional argument. -/
def literalsOption : Option Expr → List String
  | none => []
  | some e => literals e

end

end Expr

namespace Node

mutual

/-- A node with another spelling. -/
def respell (r : Respelling) : Node → Node
  | .text c => .text c
  | .output e t => .output (e.respell r) (r.trim t)
  | .conditional v bs t et => .conditional v (respellBranches r bs) (r.trim t) (r.trim et)
  | .loop n c cs es t lt et =>
      .loop n (c.respell r) (respellList r cs) (respellOption r es) (r.trim t) (r.trim lt)
        (r.trim et)
  | .assignment n e cs t et =>
      .assignment n (Expr.respellOption r e) (respellOption r cs) (r.trim t) (r.trim et)
  | .comment c t et => .comment c (r.trim t) (r.trim et)
  | .raw c t et => .raw c (r.trim t) (r.trim et)
  | .subtemplate e i t => .subtemplate (e.respell r) i (r.trim t)
  | .tag n a cs t => .tag n (r.args a) (respellList r cs) (r.trim t)

/-- A template with another spelling. -/
def respellList (r : Respelling) : List Node → List Node
  | [] => []
  | n :: ns => respell r n :: respellList r ns

/-- An optional template with another spelling. -/
def respellOption (r : Respelling) : Option (List Node) → Option (List Node)
  | none => none
  | some ns => some (respellList r ns)

/-- An arm with another spelling. -/
def respellBranch (r : Respelling) : Branch (List Node) → Branch (List Node)
  | ⟨c, b, t⟩ => ⟨Expr.respellOption r c, respellList r b, r.trim t⟩

/-- Arms with another spelling. -/
def respellBranches (r : Respelling) : List (Branch (List Node)) → List (Branch (List Node))
  | [] => []
  | b :: bs => respellBranch r b :: respellBranches r bs

end

mutual

/-- The literals of a node, in order. -/
def literals : Node → List String
  | .output e _ | .subtemplate e _ _ => e.literals
  | .conditional _ bs _ _ => literalsBranches bs
  | .loop _ c cs es _ _ _ => c.literals ++ (literalsList cs ++ literalsOption es)
  | .assignment _ e cs _ _ => Expr.literalsOption e ++ literalsOption cs
  | .tag _ _ cs _ => literalsList cs
  | .text _ | .comment .. | .raw .. => []

/-- The literals of a template, in order. -/
def literalsList : List Node → List String
  | [] => []
  | n :: ns => literals n ++ literalsList ns

/-- The literals of an optional template. -/
def literalsOption : Option (List Node) → List String
  | none => []
  | some ns => literalsList ns

/-- The literals of an arm. -/
def literalsBranch : Branch (List Node) → List String
  | ⟨c, b, _⟩ => Expr.literalsOption c ++ literalsList b

/-- The literals of arms. -/
def literalsBranches : List (Branch (List Node)) → List String
  | [] => []
  | b :: bs => literalsBranch b ++ literalsBranches bs

end

end Node

/-! ### The literals of another spelling -/

section

variable (r : Respelling)

theorem Part.literals_respell (part : Part) :
    (part.respell r).literals = part.literals.map r.literal := by
  cases part <;> rfl

theorem Part.flatMap_literals_map_respell (c : List Part) :
    (c.map (Part.respell r)).flatMap Part.literals = (c.flatMap Part.literals).map r.literal := by
  simp only [List.flatMap_map, List.map_flatMap, Part.literals_respell]

namespace Expr

mutual

theorem literals_respell : (e : Expr) → (e.respell r).literals = e.literals.map r.literal
  | ⟨c, s⟩ => by
      rw [respell, literals, literals, List.map_append, Part.flatMap_literals_map_respell,
        literalsSteps_respell s]

theorem literalsSteps_respell : (s : List (Step Expr)) →
    literalsSteps (respellSteps r s) = (literalsSteps s).map r.literal
  | [] => rfl
  | s :: ss => by
      rw [respellSteps, literalsSteps, literalsSteps, List.map_append, literalsStep_respell s,
        literalsSteps_respell ss]

theorem literalsStep_respell : (s : Step Expr) →
    literalsStep (respellStep r s) = (literalsStep s).map r.literal
  | .apply _ as => by rw [respellStep, literalsStep, literalsStep, literalsArgs_respell as]
  | .truncate l e _ | .select l e => by
      rw [respellStep, literalsStep, literalsStep, List.map_append, literals_respell l,
        literalsOption_respell e]
  | .replace o n c => by
      rw [respellStep, literalsStep, literalsStep, List.map_append, List.map_append,
        literals_respell o, literals_respell n, literalsOption_respell c]
  | .sort k _ => by rw [respellStep, literalsStep, literalsStep, literalsOption_respell k]

theorem literalsArgs_respell : (as : List Expr) →
    literalsArgs (respellArgs r as) = (literalsArgs as).map r.literal
  | [] => rfl
  | a :: as => by
      rw [respellArgs, literalsArgs, literalsArgs, List.map_append, literals_respell a,
        literalsArgs_respell as]

theorem literalsOption_respell : (e : Option Expr) →
    literalsOption (respellOption r e) = (literalsOption e).map r.literal
  | none => rfl
  | some e => literals_respell e

end

end Expr

namespace Node

mutual

theorem literals_respell : (n : Node) → (n.respell r).literals = n.literals.map r.literal
  | .text _ | .comment .. | .raw .. => rfl
  | .output e _ | .subtemplate e _ _ => by rw [respell, literals, literals, e.literals_respell]
  | .conditional _ bs _ _ => by rw [respell, literals, literals, literalsBranches_respell bs]
  | .loop _ c cs es _ _ _ => by
      rw [respell, literals, literals, List.map_append, List.map_append, c.literals_respell,
        literalsList_respell cs, literalsOption_respell es]
  | .assignment _ e cs _ _ => by
      rw [respell, literals, literals, List.map_append, Expr.literalsOption_respell,
        literalsOption_respell cs]
  | .tag _ _ cs _ => by rw [respell, literals, literals, literalsList_respell cs]

/-- The literals of a template are respelled one by one. -/
theorem literalsList_respell : (ns : List Node) →
    literalsList (respellList r ns) = (literalsList ns).map r.literal
  | [] => rfl
  | n :: ns => by
      rw [respellList, literalsList, literalsList, List.map_append, literals_respell n,
        literalsList_respell ns]

theorem literalsOption_respell : (ns : Option (List Node)) →
    literalsOption (respellOption r ns) = (literalsOption ns).map r.literal
  | none => rfl
  | some ns => literalsList_respell ns

theorem literalsBranch_respell : (b : Branch (List Node)) →
    literalsBranch (respellBranch r b) = (literalsBranch b).map r.literal
  | ⟨c, b, _⟩ => by
      rw [respellBranch, literalsBranch, literalsBranch, List.map_append,
        Expr.literalsOption_respell, literalsList_respell b]

theorem literalsBranches_respell : (bs : List (Branch (List Node))) →
    literalsBranches (respellBranches r bs) = (literalsBranches bs).map r.literal
  | [] => rfl
  | b :: bs => by
      rw [respellBranches, literalsBranches, literalsBranches, List.map_append,
        literalsBranch_respell b, literalsBranches_respell bs]

end

end Node

/-! ### One spelling after another -/

variable (s : Respelling)

theorem Part.respell_comp_respell : Part.respell r ∘ Part.respell s = Part.respell (r.comp s) := by
  funext part
  cases part <;> rfl

namespace Expr

mutual

theorem respell_respell : (e : Expr) → (e.respell s).respell r = e.respell (r.comp s)
  | ⟨c, ss⟩ => by
      rw [respell, respell, respell, List.map_map, Part.respell_comp_respell,
        respellSteps_respell ss]

theorem respellSteps_respell : (ss : List (Step Expr)) →
    respellSteps r (respellSteps s ss) = respellSteps (r.comp s) ss
  | [] => rfl
  | step :: ss => by
      rw [respellSteps, respellSteps, respellSteps, respellStep_respell step,
        respellSteps_respell ss]

theorem respellStep_respell : (step : Step Expr) →
    respellStep r (respellStep s step) = respellStep (r.comp s) step
  | .apply _ as => by rw [respellStep, respellStep, respellStep, respellArgs_respell as]
  | .truncate l e _ | .select l e => by
      rw [respellStep, respellStep, respellStep, respell_respell l, respellOption_respell e]
  | .replace o n c => by
      rw [respellStep, respellStep, respellStep, respell_respell o, respell_respell n,
        respellOption_respell c]
  | .sort k _ => by rw [respellStep, respellStep, respellStep, respellOption_respell k]

theorem respellArgs_respell : (as : List Expr) →
    respellArgs r (respellArgs s as) = respellArgs (r.comp s) as
  | [] => rfl
  | a :: as => by
      rw [respellArgs, respellArgs, respellArgs, respell_respell a, respellArgs_respell as]

theorem respellOption_respell : (e : Option Expr) →
    respellOption r (respellOption s e) = respellOption (r.comp s) e
  | none => rfl
  | some e => by rw [respellOption, respellOption, respellOption, respell_respell e]

end

end Expr

namespace Node

mutual

theorem respell_respell : (n : Node) → (n.respell s).respell r = n.respell (r.comp s)
  | .text _ | .comment .. | .raw .. => rfl
  | .output e _ | .subtemplate e _ _ => by
      rw [respell, respell, respell, e.respell_respell]
      rfl
  | .conditional _ bs _ _ => by
      rw [respell, respell, respell, respellBranches_respell bs]
      rfl
  | .loop _ c cs es _ _ _ => by
      rw [respell, respell, respell, c.respell_respell, respellList_respell cs,
        respellOption_respell es]
      rfl
  | .assignment _ e cs _ _ => by
      rw [respell, respell, respell, Expr.respellOption_respell, respellOption_respell cs]
      rfl
  | .tag _ _ cs _ => by
      rw [respell, respell, respell, respellList_respell cs]
      rfl

/-- A template that is respelled twice. -/
theorem respellList_respell : (ns : List Node) →
    respellList r (respellList s ns) = respellList (r.comp s) ns
  | [] => rfl
  | n :: ns => by
      rw [respellList, respellList, respellList, respell_respell n, respellList_respell ns]

theorem respellOption_respell : (ns : Option (List Node)) →
    respellOption r (respellOption s ns) = respellOption (r.comp s) ns
  | none => rfl
  | some ns => by rw [respellOption, respellOption, respellOption, respellList_respell ns]

theorem respellBranch_respell : (b : Branch (List Node)) →
    respellBranch r (respellBranch s b) = respellBranch (r.comp s) b
  | ⟨c, b, _⟩ => by
      rw [respellBranch, respellBranch, respellBranch, Expr.respellOption_respell,
        respellList_respell b]
      rfl

theorem respellBranches_respell : (bs : List (Branch (List Node))) →
    respellBranches r (respellBranches s bs) = respellBranches (r.comp s) bs
  | [] => rfl
  | b :: bs => by
      rw [respellBranches, respellBranches, respellBranches, respellBranch_respell b,
        respellBranches_respell bs]

end

end Node

end

end Stencil
