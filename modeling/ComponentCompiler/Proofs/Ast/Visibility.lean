import ComponentCompiler.Ast.Scoping
import ComponentCompiler.Proofs.Ast.QuietSteps

namespace ComponentCompiler.Ast

open Relation

variable {a b ast : Ast} {o p w x y : NodeId} {kind : NodeKind} {span : Span}
  {source name : String} {config : ScopeConfig}

/-- Of the nodes with a scope around a node, the nearest is below all others. -/
theorem chain_of_scopeOwner?_of_chain (hl : ast.Linked) (hw : ast.scopeOwner? x = some w)
    (hc : ReflTransGen ast.Up x o) (hs : (ast.scope? o).isSome) : ReflTransGen ast.Up w o := by
  induction hc using ReflTransGen.head_induction_on with
  | refl =>
    rw [scopeOwner?, List.find?_cons, hs] at hw
    exact Option.some.inj hw ▸ .refl
  | @head x y hu hyo ih =>
    cases hx : (ast.scope? x).isSome with
    | false => exact ih (scopeOwner?_of_up hl hu hx ▸ hw)
    | true =>
      rw [scopeOwner?, List.find?_cons, hx] at hw
      exact Option.some.inj hw ▸ .head hu hyo

theorem mem_scopesFrom (hl : ast.Linked) {steps : Nat} (hx : x < steps) :
    o ∈ ast.scopesFrom steps x ↔ ReflTransGen ast.Up x o ∧ (ast.scope? o).isSome := by
  induction steps generalizing x with
  | zero => exact absurd hx (Nat.not_lt_zero x)
  | succ steps ih =>
    unfold scopesFrom
    cases hw : ast.scopeOwner? x with
    | none =>
      refine iff_of_false (List.not_mem_nil) ?_
      rintro ⟨hc, hs⟩
      have hmem : o ∈ x :: ast.ancestors x := by
        rcases reflTransGen_iff_eq_or_transGen.mp hc with rfl | hc
        · exact List.mem_cons_self
        · exact List.mem_cons_of_mem x ((mem_ancestors hl).mpr hc)
      exact List.find?_eq_none.mp hw o hmem hs
    | some w =>
      have hxw := chain_of_scopeOwner? hw
      have hscope : (ast.scope? w).isSome := by
        have hsome := List.find?_some hw
        exact hsome
      have hsplit : ReflTransGen ast.Up x o ∧ (ast.scope? o).isSome ↔
          o = w ∨ TransGen ast.Up w o ∧ (ast.scope? o).isSome := by
        constructor
        · rintro ⟨hc, hs⟩
          have hwo := chain_of_scopeOwner?_of_chain hl hw hc hs
          exact (reflTransGen_iff_eq_or_transGen.mp hwo).imp id fun h => ⟨h, hs⟩
        · rintro (rfl | ⟨hc, hs⟩)
          · exact ⟨hxw, hscope⟩
          · exact ⟨hxw.trans hc.to_reflTransGen, hs⟩
      rw [hsplit, List.mem_cons]
      apply or_congr_right
      -- behind the nearest scope the search goes on from its parent
      cases hp : ast.parent? w with
      | none => simp [TransGen.head'_iff, Up, hp]
      | some p =>
        have hlt : p < steps := Nat.lt_of_lt_of_le (hl.up_lt hp)
          (Nat.le_trans (hl.chain_le hxw) (Nat.le_of_lt_succ hx))
        rw [ih hlt, TransGen.head'_iff]
        simp [Up, hp]

theorem mem_enclosingScopes (hl : ast.Linked) :
    o ∈ ast.enclosingScopes x ↔ ReflTransGen ast.Up x o ∧ (ast.scope? o).isSome := by
  by_cases hx : x < ast.size
  · exact mem_scopesFrom hl (Nat.lt_succ_of_lt hx)
  · -- there is no such node, so there is nothing around it
    have hnode := node?_eq_none (Nat.le_of_not_lt hx)
    have hup : ast.parent? x = none := by rw [parent?, hnode]; rfl
    have hscope : ast.scope? x = none := by rw [scope?, hnode]; rfl
    have howner : ast.scopeOwner? x = none := by
      simp [scopeOwner?, ancestors, parents, hup, hscope]
    have hempty : ast.enclosingScopes x = [] := by
      rw [enclosingScopes, scopesFrom, howner]
    rw [hempty]
    refine iff_of_false List.not_mem_nil ?_
    rintro ⟨hc, hs⟩
    rcases hc.cases_head with rfl | ⟨p, hu, -⟩
    · simp [hscope] at hs
    · cases hup.symm.trans hu

theorem declares_iff : ast.declares source name o ↔
    ∃ d ∈ ast.declared o, ast.slice d source = name := by
  unfold declares declared
  cases ast.scope? o <;> simp

/-- A scope on the way from `x` to the root lists a declaration with the name for its text. -/
def Visible (ast : Ast) (source name : String) (x : NodeId) : Prop :=
  ∃ o, ReflTransGen ast.Up x o ∧ ∃ d ∈ ast.declared o, ast.slice d source = name

theorem isDeclared_iff (hl : ast.Linked) : ast.isDeclared source config name x ↔
    name ∈ config.builtinNames ∨ ast.Visible source name x := by
  rw [isDeclared, Bool.or_eq_true, List.any_eq_true, ScopeConfig.isBuiltin, List.contains_iff_mem]
  refine or_congr_right (exists_congr fun o => ?_)
  rw [mem_enclosingScopes hl, declares_iff, and_assoc]
  refine and_congr_right fun _ => and_iff_right_of_imp ?_
  rintro ⟨d, hd, -⟩
  -- a node without a scope lists nothing
  cases hs : ast.scope? o with
  | none => simp [declared, hs] at hd
  | some s => rfl

theorem Visible.below (h : ast.Visible source name x) (hc : ReflTransGen ast.Up y x) :
    ast.Visible source name y := by
  obtain ⟨o, hxo, hd⟩ := h
  exact ⟨o, hc.trans hxo, hd⟩

theorem Visible.mono (h : a.Visible source name x) (hs : SameNodes a b)
    (hd : ∀ o, ∀ d ∈ a.declared o, d ∈ b.declared o) : b.Visible source name x := by
  obtain ⟨o, hxo, d, hmem, htext⟩ := h
  have hup : b.Up = a.Up := by
    funext x y
    rw [Up, Up, hs.parent?]
  refine ⟨o, hup ▸ hxo, d, hd o d hmem, ?_⟩
  rw [slice, hs.span]
  exact htext

def withDeclarations (ast : Ast) (order : NodeId → List NodeId) : Ast :=
  { ast with nodes := ast.nodes.mapIdx fun o n =>
      { n with scope := n.scope.map fun s => { s with declarations := order o } } }

theorem node?_withDeclarations (order : NodeId → List NodeId) :
    (ast.withDeclarations order).node? x = (ast.node? x).map fun n =>
      { n with scope := n.scope.map fun s => { s with declarations := order x } } :=
  Array.getElem?_mapIdx

theorem sameNodes_withDeclarations (ast : Ast) (order : NodeId → List NodeId) :
    SameNodes ast (ast.withDeclarations order) := by
  refine ⟨Array.size_mapIdx, rfl, funext fun x => ?_, funext fun x => ?_, funext fun x => ?_,
    funext fun x => ?_⟩
  · rw [group_eq, group_eq, node?_withDeclarations]
    cases ast.node? x <;> rfl
  · rw [Ast.span, Ast.span, node?_withDeclarations]
    cases ast.node? x <;> rfl
  · rw [parent?, parent?, node?_withDeclarations]
    cases ast.node? x <;> rfl
  · rw [children, children, node?_withDeclarations]
    cases ast.node? x <;> rfl

theorem scope?_withDeclarations (order : NodeId → List NodeId) :
    (ast.withDeclarations order).scope? o =
      (ast.scope? o).map fun s => { s with declarations := order o } := by
  rw [scope?, scope?, node?_withDeclarations]
  cases ast.node? o <;> rfl

theorem declared_withDeclarations {order : NodeId → List NodeId}
    (h : (order o).Perm (ast.declared o)) : (ast.withDeclarations order).declared o = order o := by
  rw [declared, scope?_withDeclarations]
  cases hs : ast.scope? o with
  | none =>
    -- there is no list, and there is nothing to list
    have hnil : order o = [] := by simpa [declared, hs] using h
    rw [hnil]
    rfl
  | some s => rfl

theorem visible_withDeclarations {order : NodeId → List NodeId}
    (h : ∀ o, (order o).Perm (ast.declared o)) :
    (ast.withDeclarations order).Visible source name x ↔ ast.Visible source name x := by
  have hs := sameNodes_withDeclarations ast order
  constructor
  · refine fun hv => hv.mono hs.symm fun o d hd => ?_
    rw [declared_withDeclarations (h o)] at hd
    exact (h o).subset hd
  · refine fun hv => hv.mono hs fun o d hd => ?_
    rw [declared_withDeclarations (h o)]
    exact (h o).symm.subset hd

/-- The tree is linked once its imports are listed, which adding a node does not do. -/
def Linkable (ast : Ast) : Prop :=
  ∃ imports, Linked { ast with imports }

theorem Linkable.same (h : a.Linkable) (hs : SameNodes a b) : b.Linkable := by
  obtain ⟨imports, hl⟩ := h
  exact ⟨imports, hl.same ⟨hs.size, rfl, hs.group, hs.span, hs.parent?, hs.children⟩⟩

theorem Linkable.add (h : a.Linkable) (hp : p < a.size) : (a.add kind span p).Linkable := by
  obtain ⟨imports, hl⟩ := h
  have hadd : (Ast.addListed { a with imports } kind span p).Linked := hl.addListed hp
  unfold addListed at hadd
  split at hadd
  · exact ⟨_, hadd⟩
  · exact ⟨_, hadd⟩

theorem parents_withImports (imports : List NodeId) (steps : Nat) :
    ({ ast with imports } : Ast).parents steps x = ast.parents steps x := by
  induction steps generalizing x with
  | zero => rfl
  | succ steps ih =>
    have hp : ({ ast with imports } : Ast).parent? x = ast.parent? x := rfl
    rw [parents, parents, hp]
    cases ast.parent? x with
    | none => rfl
    | some p => exact congrArg (p :: ·) ih

theorem scopesFrom_withImports (imports : List NodeId) (steps : Nat) :
    ({ ast with imports } : Ast).scopesFrom steps x = ast.scopesFrom steps x := by
  induction steps generalizing x with
  | zero => rfl
  | succ steps ih =>
    have howner : ({ ast with imports } : Ast).scopeOwner? x = ast.scopeOwner? x := by
      rw [scopeOwner?, scopeOwner?, ancestors, ancestors, parents_withImports]
      rfl
    rw [scopesFrom, scopesFrom, howner]
    cases ast.scopeOwner? x with
    | none => rfl
    | some o =>
      have hp : ({ ast with imports } : Ast).parent? o = ast.parent? o := rfl
      simp only [hp]
      cases ast.parent? o with
      | none => rfl
      | some p => exact congrArg (o :: ·) ih

/-- The list of imports plays no part in the search for a name. -/
theorem isDeclared_withImports (imports : List NodeId) :
    ({ ast with imports } : Ast).isDeclared source config name x =
      ast.isDeclared source config name x := by
  rw [isDeclared, isDeclared, enclosingScopes, enclosingScopes, scopesFrom_withImports]
  rfl

theorem Linkable.isDeclared_iff (h : ast.Linkable) : ast.isDeclared source config name x ↔
    name ∈ config.builtinNames ∨ ast.Visible source name x := by
  obtain ⟨imports, hl⟩ := h
  rw [← isDeclared_withImports imports]
  exact Ast.isDeclared_iff hl

/-- The trees that are put together by adding nodes and by entering declarations and references, in
whatever order. -/
inductive Assembled : Ast → Prop
  | ofSpan (span : Span) : Assembled (ofSpan span)
  | add {ast : Ast} (h : Assembled ast) (kind : NodeKind) (span : Span) (parent : NodeId)
      (hp : parent < ast.size) : Assembled (ast.add kind span parent)
  | declare {ast : Ast} (h : Assembled ast) (start ident : NodeId) :
      Assembled (ast.declare start ident)
  | use {ast : Ast} (h : Assembled ast) (start ident : NodeId) : Assembled (ast.use start ident)

theorem Assembled.linkable (h : Assembled ast) : ast.Linkable := by
  induction h with
  | ofSpan span => exact ⟨[], linked_ofSpan span⟩
  | add _ _ _ _ hp ih => exact ih.add hp
  | declare _ start ident ih => exact ih.same (sameNodes_declare _ start ident)
  | use _ start ident ih => exact ih.same (sameNodes_use _ start ident)

open scoped Classical in
/-- However a tree is put together, the way up from each node ends in the root, and a name is
declared at a node if it is built in or a scope on that way lists it. So the order of declarations in
a scope does not matter, a name is declared below the nodes where it is declared, more declarations
take no name away, and the undeclared references of a scope are those that fail this test where they
stand. -/
theorem isDeclared_iff_visible (h : Assembled ast) (source : String) (config : ScopeConfig) :
    (∀ x < ast.size, ReflTransGen ast.Up x rootId) ∧
    (∀ name x, ast.isDeclared source config name x ↔
      name ∈ config.builtinNames ∨ ast.Visible source name x) ∧
    (∀ order : NodeId → List NodeId, (∀ o, (order o).Perm (ast.declared o)) → ∀ name x,
      (ast.withDeclarations order).isDeclared source config name x =
        ast.isDeclared source config name x) ∧
    (∀ name x y, ReflTransGen ast.Up y x → ast.isDeclared source config name x →
      ast.isDeclared source config name y) ∧
    (∀ (entries : List (NodeId × NodeId)) name x, ast.isDeclared source config name x →
      (entries.foldl (fun ast e => ast.declare e.1 e.2) ast).isDeclared source config name x) ∧
    ∀ o, ast.undeclared source config o = (ast.used o).filter fun u =>
      ¬ (ast.slice u source ∈ config.builtinNames ∨
        ast.Visible source (ast.slice u source) u) := by
  have hl := h.linkable
  refine ⟨?_, fun name x => hl.isDeclared_iff, ?_, ?_, ?_, ?_⟩
  · obtain ⟨imports, hlinked⟩ := hl
    intro x hx
    have hc := chain_root hlinked hx
    exact hc
  · intro order horder name x
    have hsame := hl.same (sameNodes_withDeclarations ast order)
    rw [Bool.eq_iff_iff, hsame.isDeclared_iff, hl.isDeclared_iff, visible_withDeclarations horder]
  · intro name x y hc hx
    rw [hl.isDeclared_iff] at hx ⊢
    exact hx.imp_right fun hv => hv.below hc
  · intro entries name x hx
    have hs := sameNodes_foldl (fun ast e => sameNodes_declare ast e.1 e.2) entries ast
    have hq := quiet_foldl (fun ast (e : NodeId × NodeId) => quiet_declare e.1 e.2) entries ast
    rw [hl.isDeclared_iff] at hx
    rw [(hl.same hs).isDeclared_iff]
    exact hx.imp_right fun hv => hv.mono hs hq.declared
  · intro o
    refine List.filter_congr fun u _ => ?_
    rw [Bool.eq_iff_iff, decide_eq_true_iff, ← hl.isDeclared_iff, Bool.not_eq_true',
      Bool.not_eq_true]

def lateNames : Ast :=
  let block := (ofSpan ⟨0, 7⟩).add .block ⟨0, 3⟩ 0
  let names := (block.addAll .identifier [⟨0, 1⟩, ⟨2, 3⟩] 1).addAll .identifier [⟨4, 5⟩, ⟨6, 7⟩] 0
  ((names.use 2 2).use 3 3).declareAll 0 [4, 5]

theorem lateNames_assembled : lateNames.Assembled :=
  have block := (Assembled.ofSpan ⟨0, 7⟩).add .block ⟨0, 3⟩ 0 (by decide)
  have inner := (block.add .identifier ⟨0, 1⟩ 1 (by decide)).add .identifier ⟨2, 3⟩ 1 (by decide)
  have names := (inner.add .identifier ⟨4, 5⟩ 0 (by decide)).add .identifier ⟨6, 7⟩ 0 (by decide)
  (((names.use 2 2).use 3 3).declare 0 4).declare 0 5

theorem lateNames_isDeclared : lateNames.Assembled ∧
    lateNames.isDeclared "x y x z" {} "x" 0 ∧ lateNames.isDeclared "x y x z" {} "x" 2 ∧
    (lateNames.withDeclarations fun o => (lateNames.declared o).reverse).isDeclared "x y x z" {}
      "x" 2 ∧
    (lateNames.declare 2 3).isDeclared "x y x z" {} "x" 2 ∧
    ¬ lateNames.Visible "x y x z" "y" 3 ∧ lateNames.undeclared "x y x z" {} 1 = [3] := by
  obtain ⟨hroot, hiff, horder, hbelow, hmore, -⟩ :=
    isDeclared_iff_visible lateNames_assembled "x y x z" {}
  have hx : lateNames.isDeclared "x y x z" {} "x" 0 := by decide +kernel
  have hx' := hbelow "x" 0 2 (hroot 2 (by decide)) hx
  have hy : ¬ lateNames.isDeclared "x y x z" {} "y" 3 := by decide +kernel
  refine ⟨lateNames_assembled, hx, hx', ?_, hmore [(2, 3)] "x" 2 hx', ?_, by decide +kernel⟩
  · rw [horder _ (fun o => List.reverse_perm _) "x" 2]
    exact hx'
  · exact fun hv => hy ((hiff "y" 3).mpr (.inr hv))

end ComponentCompiler.Ast
