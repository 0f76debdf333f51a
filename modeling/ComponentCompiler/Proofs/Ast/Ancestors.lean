import ComponentCompiler.Proofs.Ast.Nesting

namespace ComponentCompiler.Ast

open Relation

variable {ast : Ast} {id a x y z : NodeId}

/-- A step down is worth a step of the bound on the depth. -/
theorem Linked.step_le (hl : ast.Linked) (hu : ast.Up x y) (depth : Nat) :
    y + (depth + 1) ≤ x + depth := by
  rw [← Nat.succ_add_eq_add_succ]
  exact Nat.add_le_add_right (hl.up_lt hu) depth

theorem mem_parents (hl : ast.Linked) {steps : Nat} (hx : x ≤ steps) :
    a ∈ ast.parents steps x ↔ TransGen ast.Up x a := by
  induction steps generalizing x with
  | zero =>
    obtain rfl : x = rootId := Nat.le_zero.mp hx
    simp [parents, TransGen.head'_iff, Up, hl.root]
  | succ steps ih =>
    unfold parents
    cases hp : ast.parent? x with
    | none => simp [TransGen.head'_iff, Up, hp]
    | some p =>
      have hu : ast.Up x p := hp
      have hlt : p ≤ steps := Nat.le_of_lt_succ (Nat.lt_of_lt_of_le (hl.up_lt hu) hx)
      have hcons : TransGen ast.Up x a ↔ ReflTransGen ast.Up p a := by
        simp [TransGen.head'_iff, Up, hp]
      rw [List.mem_cons, ih hlt, hcons, reflTransGen_iff_eq_or_transGen]

theorem mem_ancestors (hl : ast.Linked) : a ∈ ast.ancestors x ↔ TransGen ast.Up x a := by
  by_cases hx : x < ast.size
  · exact mem_parents hl (Nat.le_succ_of_le (Nat.le_of_lt hx))
  · have hp : ast.parent? x = none := by
      simp [parent?, node?_eq_none (Nat.le_of_not_lt hx)]
    simp [ancestors, parents, hp, TransGen.head'_iff, Up]

theorem mem_children (hl : ast.Linked) : x ∈ ast.children y ↔ ast.Up x y := by
  rw [hl.children y, List.mem_filter, List.mem_range, beq_iff_eq]
  exact and_iff_right_of_imp lt_size_of_up

theorem chain_of_mem_below (hl : ast.Linked) {depth : Nat} (h : x ∈ ast.below depth y) :
    ReflTransGen ast.Up x y := by
  induction depth generalizing y with
  | zero => exact List.mem_singleton.mp h ▸ .refl
  | succ depth ih =>
    rcases List.mem_cons.mp h with rfl | h
    · exact .refl
    · obtain ⟨c, hc, hx⟩ := List.mem_flatMap.mp h
      exact (ih hx).tail ((mem_children hl).mp hc)

theorem mem_below_of_chain (hl : ast.Linked) {depth : Nat} (h : ReflTransGen ast.Up x y)
    (hd : x ≤ y + depth) : x ∈ ast.below depth y := by
  induction depth generalizing y with
  | zero =>
    have he : x = y := Nat.le_antisymm hd (hl.chain_le h)
    simp [below, he]
  | succ depth ih =>
    rcases h.cases_tail with rfl | ⟨c, hc, hu⟩
    · exact List.mem_cons_self
    · have hle : x ≤ c + depth := Nat.le_trans hd (hl.step_le hu depth)
      exact List.mem_cons_of_mem _ (List.mem_flatMap.mpr ⟨c, (mem_children hl).mpr hu, ih hc hle⟩)

theorem mem_descendants (hl : ast.Linked) (hx : x < ast.size) :
    x ∈ ast.descendants y ↔ ReflTransGen ast.Up x y :=
  ⟨chain_of_mem_below hl,
    fun h => mem_below_of_chain hl h (Nat.le_trans (Nat.le_of_lt hx) (Nat.le_add_left _ _))⟩

theorem chain_root (hl : ast.Linked) (hx : x < ast.size) : ReflTransGen ast.Up x rootId := by
  induction x using Nat.strong_induction_on with
  | _ x ih =>
    by_cases h0 : x = rootId
    · exact h0 ▸ .refl
    · obtain ⟨p, hp, hu⟩ := hl.parent x (Nat.pos_of_ne_zero h0) hx
      exact .head hu (ih p hp (Nat.lt_trans hp hx))

theorem chain_total (h : ReflTransGen ast.Up x y) (h' : ReflTransGen ast.Up x z) :
    ReflTransGen ast.Up y z ∨ ReflTransGen ast.Up z y := by
  refine h.total_of_right_unique ?_ h'
  intro a b c hb hc
  exact Option.some.inj (hb.symm.trans hc)

/-- No node stands below two children of one node. -/
theorem child_unique (hl : ast.Linked) (hy : ast.Up y a) (hz : ast.Up z a)
    (h : ReflTransGen ast.Up x y) (h' : ReflTransGen ast.Up x z) : y = z := by
  have hnot {y z : NodeId} (hy : ast.Up y a) (hz : ast.Up z a) (hc : ReflTransGen ast.Up y z) :
      z = y := by
    refine ((chain_cons hy).mp hc).resolve_right fun ha => ?_
    exact Nat.not_lt.mpr (hl.chain_le ha) (hl.up_lt hz)
  rcases chain_total h h' with hc | hc
  · exact (hnot hy hz hc).symm
  · exact hnot hz hy hc

end ComponentCompiler.Ast
