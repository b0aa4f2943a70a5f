import Stencil.Proofs.Nunjucks.Transport

/-!
# Templates that are read from Nunjucks

Whatever tree a Nunjucks source has, its template is well formed: symbols and literals are chains,
lookups make them longer, and operators and filters add steps with all of their operands. The name
of the loop object is looked up in the scope that is handed down the tree, so in the body of a loop
it stands for the loop object and elsewhere for itself. Reading gives no case distinctions and no
tags that are passed on.

## Main results

* `Nunjucks.every_read` : a template that is read is well formed and scoped.
-/

namespace Stencil.Nunjucks

variable {scope : Scope}

/-- The kinds of nodes that reading gives. -/
def isReadKind : Node → Bool
  | .conditional kind _ _ _ => kind != .caseOf
  | .tag .. => false
  | _ => true

/-- An expression and all expressions inside it, as they are read in a scope. -/
abbrev EveryRead (scope : Scope) (e : Expr) : Prop :=
  e.EveryRead chainWords.loopVar scope

/-- A node and all nodes inside it, as they are read in a scope. -/
abbrev EveryReadNode (scope : Scope) (n : Node) : Prop :=
  n.EveryRead isReadKind chainWords.loopVar scope

/-! ### Expressions -/

theorem isAccess_keyPart (ofLoop : Bool) (text : Piece) : (keyPart ofLoop text).isAccess := by
  rw [keyPart]
  split <;> rfl

theorem isAccess_subscriptPart {ofLoop : Bool} {key : Term} {part : Part}
    (h : subscriptPart ofLoop key = .ok part) : part.isAccess := by
  unfold subscriptPart at h
  split at h
  · obtain rfl := Except.ok.inj h
    exact isAccess_keyPart ofLoop _
  · split at h
    · obtain rfl := Except.ok.inj h
      rfl
    · cases h
  · cases h

/-- A lookup makes a chain longer. -/
theorem every_lookupExpr {base e : Expr} {key : Term} (hb : EveryRead scope base)
    (h : lookupExpr base key = .ok e) : EveryRead scope e := by
  unfold lookupExpr at h
  split at h
  · obtain ⟨part, hpart, rfl⟩ := map_eq_ok.mp h
    exact .ofChain (hb.self.access (isAccess_subscriptPart hpart))
  · cases h

/-- A chain that is nothing but a root. -/
theorem every_root {root : Part} (h : Expr.isScopedRoot chainWords.loopVar scope root) :
    EveryRead scope (.ofChain [root]) :=
  .ofChain (.ofChain h (List.forall_mem_nil _))

theorem isScopedRoot_of_ne {root : Part} (hr : root.isRoot) (hl : root ≠ .loopVar)
    (hw : scope.inLoop → root ≠ .ident chainWords.loopVar) :
    Expr.isScopedRoot chainWords.loopVar scope root := by
  rw [Expr.isScopedRoot, hr, Bool.true_and, bne_iff_ne]
  split
  · next hin => exact hw hin
  · exact hl

/-- Expressions are built as they are read. -/
theorem exprClosed_everyRead (scope : Scope) :
    ExprClosed (fun _ => True) scope (EveryRead scope) where
  loopVar hin := every_root (by simp [Expr.isScopedRoot, Part.isRoot, hin])
  ident _ hname := every_root (isScopedRoot_of_ne rfl (by simp) fun hin => by simpa using hname hin)
  null := every_root (isScopedRoot_of_ne rfl (by simp) (by simp))
  literal _ := every_root (isScopedRoot_of_ne rfl (by simp) (by simp))
  opposite _ := every_root (isScopedRoot_of_ne rfl (by simp) (by simp))
  lookup hb _ h := every_lookupExpr hb h
  pipe he hs hargs _ := Expr.every_pipe he hs hargs

theorem Term.every_toExpr (scope : Scope) {e : Expr} (t : Term) (h : t.toExpr scope = .ok e) :
    EveryRead scope e :=
  (exprClosed_everyRead scope).toExpr t (t.from_of_forall fun _ => trivial) h

/-! ### Nodes -/

/-- The last step of an expression can be taken off. -/
theorem every_dropLast {e : Expr} (h : EveryRead scope e) :
    EveryRead scope { e with steps := e.steps.dropLast } := by
  refine h.dropLast ⟨⟨h.self.chain, fun s hs => ?_⟩, h.self.tail, h.self.inside, h.self.outside⟩
  exact h.self.steps s (List.dropLast_subset _ hs)

/-- Nodes are built as they are read, whatever the items of a tree are. -/
theorem nodeClosed_isRead (l : Lifted) :
    NodeClosed l (fun _ => True) (fun n => isReadKind n ∧ n.isComplete) EveryRead where
  data _ := by
    rw [Lifted.dataNode]
    split <;> exact ⟨rfl, rfl⟩
  comment _ _ := ⟨rfl, rfl⟩
  output _ _ he := ⟨Term.every_toExpr _ _ he, rfl, rfl⟩
  term _ _ he := Term.every_toExpr _ _ he
  dropLast := every_dropLast
  conditional hk := ⟨bne_iff_ne.mpr hk, rfl⟩
  loop _ := ⟨rfl, rfl⟩
  assignment _ hc := ⟨rfl, hc⟩
  subtemplate := ⟨rfl, rfl⟩

/-- A template that is read from Nunjucks is well formed, and the loop object stands where it
belongs. -/
theorem every_read {source : String} {nodes : List Node} (h : read source = .ok nodes) :
    ∀ n ∈ nodes, EveryReadNode {} n := by
  obtain ⟨es, -, h⟩ := bind_eq_ok.mp h
  intro n hn
  have hevery := (nodeClosed_isRead _).toNodes es (fun _ _ => trivial) h n hn
  exact hevery.mono fun _ _ hnode => ⟨hnode.1.1, hnode.1.2, hnode.2⟩

end Stencil.Nunjucks
