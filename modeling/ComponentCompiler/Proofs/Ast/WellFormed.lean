import ComponentCompiler.Cst.Sketch
import ComponentCompiler.Proofs.Ast.Visits
import Mathlib.Data.List.Lattice

namespace ComponentCompiler.Ast

open Relation

variable {ast : Ast} {o p x y : NodeId}

/-- All nodes hang together as one tree, and every id stands for a node in the right place. -/
structure WellFormed (ast : Ast) : Prop where
  nonempty : rootId < ast.size
  root : ast.parent? rootId = none ∧ ∀ q, rootId ∉ ast.children q
  /-- Every other node is listed once, by its parent alone. -/
  parent : ∀ x, rootId < x → x < ast.size → ∃ p < x, ast.parent? x = some p ∧
    ∀ q, (ast.children q).count x = if q = p then 1 else 0
  children : ∀ p, (ast.children p).Pairwise (· < ·) ∧ ∀ c ∈ ast.children p, c < ast.size
  /-- The walk from the root comes to every node, once. -/
  descendants : (ast.descendants rootId).Perm (List.range ast.size)
  scope : ∀ x, (ast.scope? x).isSome = ast.isKind x NodeKind.bearsScope
  held : ∀ p, ∀ x ∈ ast.held p, TransGen ast.Up x p
  owner : ∀ x p, ast.ownerOf? x = some p → TransGen ast.Up x p
  declared : ∀ o, ∀ x ∈ ast.declared o, TransGen ast.Up x o ∨ ast.BodyParameter x o
  /-- A reference is entered once, in the nearest scope around it and in no other. -/
  used : ∀ o, ∀ x ∈ ast.used o, ast.nearestAncestor? x NodeKind.bearsScope = some o ∧
    (ast.used o).count x = 1 ∧ ∀ o', x ∈ ast.used o' → o' = o

theorem nodup_below (hl : ast.Linked) (depth : Nat) (y : NodeId) : (ast.below depth y).Nodup := by
  induction depth generalizing y with
  | zero => exact List.nodup_singleton y
  | succ depth ih =>
    refine List.nodup_cons.mpr ⟨fun hy => ?_, List.nodup_flatMap.mpr ⟨fun c _ => ih c, ?_⟩⟩
    · -- the node would stand below one of its children
      obtain ⟨c, hc, hmem⟩ := List.mem_flatMap.mp hy
      exact Nat.not_lt.mpr (hl.chain_le (chain_of_mem_below hl hmem))
        (hl.up_lt ((mem_children hl).mp hc))
    · apply List.Pairwise.imp_of_mem _ (nodup_children hl y)
      intro c c' hc hc' hne x hx hx'
      exact hne (child_unique hl ((mem_children hl).mp hc) ((mem_children hl).mp hc')
        (chain_of_mem_below hl hx) (chain_of_mem_below hl hx'))

theorem perm_descendants (hl : ast.Linked) :
    (ast.descendants rootId).Perm (List.range ast.size) := by
  apply (List.perm_ext_iff_of_nodup (nodup_below hl _ _) List.nodup_range).mpr
  intro x
  rw [List.mem_range]
  constructor
  · intro hx
    rcases (chain_of_mem_below hl hx).cases_head with rfl | ⟨y, hu, -⟩
    · exact hl.nonempty
    · exact lt_size_of_up hu
  · intro hx
    exact (mem_descendants hl hx).mpr (chain_root hl hx)

theorem count_children (hl : ast.Linked) (hu : ast.Up x p) (q : NodeId) :
    (ast.children q).count x = if q = p then 1 else 0 := by
  by_cases hq : q = p
  · rw [if_pos hq, hq]
    exact List.count_eq_one_of_mem (nodup_children hl p) ((mem_children hl).mpr hu)
  · rw [if_neg hq, List.count_eq_zero]
    intro hx
    exact hq (Option.some.inj (((mem_children hl).mp hx).symm.trans hu))

/-- The scope that a reference is entered in is the nearest one above it. -/
theorem Sound.nearest (ha : ast.Sound) (hx : x ∈ ast.used o) :
    ast.nearestAncestor? x NodeKind.bearsScope = some o := by
  obtain ⟨p, hu, hs⟩ := ha.used o x hx
  unfold nearestAncestor?
  rw [ancestors_of_up ha.linked hu, ← hs]
  exact List.find?_congr fun y _ => (ha.scope y).symm

theorem Sound.wellFormed (ha : ast.Sound) : ast.WellFormed where
  nonempty := ha.linked.nonempty
  root := by
    refine ⟨ha.linked.root, fun q hq => ?_⟩
    have hu := (mem_children ha.linked).mp hq
    cases ha.linked.root.symm.trans hu
  parent := by
    intro x h0 hx
    obtain ⟨p, hp, hu⟩ := ha.linked.parent x h0 hx
    exact ⟨p, hp, hu, count_children ha.linked hu⟩
  children := by
    intro p
    refine ⟨?_, fun c hc => lt_size_of_up ((mem_children ha.linked).mp hc)⟩
    rw [ha.linked.children p]
    exact List.pairwise_lt_range.filter _
  descendants := perm_descendants ha.linked
  scope := ha.scope
  held := ha.held
  owner := ha.owner
  declared := ha.declared
  used := by
    intro o x hx
    refine ⟨ha.nearest hx, List.count_eq_one_of_mem (ha.once o) hx, fun o' hx' => ?_⟩
    exact Option.some.inj ((ha.nearest hx').symm.trans (ha.nearest hx))

/-- A table without cycles and error nodes has a tree. It is built, and what is built is
well-formed. -/
theorem build_wellFormed {cst : Cst.Table} (ha : cst.Acyclic) (he : cst.ErrorFree)
    (name : String) : ∃ root ast, cst.tree? = some root ∧ build root name = .ok ast ∧
      ast.WellFormed := by
  obtain ⟨root, ast, ht, hb⟩ := build_ok ha he name
  exact ⟨root, ast, ht, hb, (build_sound hb).wellFormed⟩

def plainFunction : Cst.Table :=
  let parameters := Cst.Sketch.node "formal_parameters"
    [.token "(", .leaf "identifier" "x" true, .token ")"]
  let function := Cst.Sketch.node "function_declaration"
    [.token "function", .leaf "identifier" "f" true, parameters,
      .node "statement_block" [.token "\x7b", .token "\x7d"]]
  ((Cst.Sketch.node "program" [function]).layout "function f(x) \x7b\x7d").toOption.getD {}

theorem plainFunction_acyclic : plainFunction.Acyclic :=
  Cst.Table.acyclic_of_children_lt (by decide +kernel)

theorem plainFunction_errorFree : plainFunction.ErrorFree :=
  Cst.Table.errorFree_of_entries (by decide +kernel)

theorem plainFunction_built {root : Cst.Tree} {ast : Ast} (ht : plainFunction.tree? = some root)
    (hb : build root "App" = .ok ast) :
    ast.size = 6 ∧ ast.declared 5 = [4] ∧ ast.ancestors 4 = [3, 1, 0] := by
  apply of_build_of_decide ht hb
  decide +kernel

theorem plainFunction_wellFormed : plainFunction.Acyclic ∧ plainFunction.ErrorFree ∧
    ∃ root ast, plainFunction.tree? = some root ∧ build root "App" = .ok ast ∧ ast.size = 6 ∧
      ast.WellFormed := by
  obtain ⟨root, ast, ht, hb, h⟩ :=
    build_wellFormed plainFunction_acyclic plainFunction_errorFree "App"
  exact ⟨plainFunction_acyclic, plainFunction_errorFree, root, ast, ht, hb,
    (plainFunction_built ht hb).1, h⟩

/-- The scope of a body may hold an id that does not stand below the body. -/
theorem plainFunction_declares_outside : plainFunction.Acyclic ∧ plainFunction.ErrorFree ∧
    ∃ root ast, plainFunction.tree? = some root ∧ build root "App" = .ok ast ∧
      4 ∈ ast.declared 5 ∧ ¬ TransGen ast.Up 4 5 := by
  obtain ⟨root, ast, ht, hb⟩ := build_ok plainFunction_acyclic plainFunction_errorFree "App"
  obtain ⟨-, hdeclared, habove⟩ := plainFunction_built ht hb
  refine ⟨plainFunction_acyclic, plainFunction_errorFree, root, ast, ht, hb,
    by simp [hdeclared], ?_⟩
  rw [← mem_ancestors (build_linked hb), habove]
  decide

end ComponentCompiler.Ast
