import ComponentCompiler.Proofs.Ast.Moments

namespace ComponentCompiler.Ast

open Cst (Tree)
open Relation

variable {a b c ast : Ast} {o owner x y : NodeId} {role : Role} {t : Tree} {ts : List Tree}
  {xs ys : List NodeId}

mutual

def completed (role : Role) (owner : NodeId) : Tree → Ast → List NodeId
  | .missing, _ => []
  | .node head slots, ast =>
    let rule := Rule.ofRole role (Cst.Kind.ofName head.kind)
    let inner := match rule.inside owner ast.size with
      | some (child, o) => completedAll child o slots (enter rule owner (.node head slots) ast)
      | none => []
    if (rule.opens? ast owner (.node head slots)).isSome then inner ++ [ast.size] else inner

def completedAll (role : Role) (owner : NodeId) : List Tree → Ast → List NodeId
  | [], _ => []
  | t :: rest, ast =>
    completed role owner t ast ++ completedAll (role.next t) owner rest (visit role owner t ast)

end

/-- The nodes that are opened from `a` to `b`, in the order in which they are left. -/
structure Completes (a b : Ast) (xs : List NodeId) : Prop where
  mem : ∀ x, x ∈ xs ↔ a.size ≤ x ∧ b.Opened x
  order : xs.Pairwise b.LeftBefore

namespace Completes

theorem leaves {start : NodeId} {refers : Prop} (h : Run (leafSite o start refers) a [] b) :
    Completes a b [] :=
  ⟨fun _ => ⟨nofun, fun ⟨hx, hopen⟩ => absurd hopen (h.leaf_of_new hx)⟩, .nil⟩

theorem refl (a : Ast) : Completes a a [] :=
  ⟨fun _ => ⟨nofun, fun ⟨hx, hopen⟩ => absurd hopen.lt (Nat.not_lt.mpr hx)⟩, .nil⟩

theorem order_of_extends (h : Completes a b xs) (hl : b.Linked) (hext : b.Extends c) :
    xs.Pairwise c.LeftBefore := by
  refine h.order.imp_of_mem fun hx hy hleft => ?_
  exact (hext.leftBefore_iff hl ((h.mem _).mp hx).2.lt ((h.mem _).mp hy).2.lt).mpr hleft

theorem append (h : Completes a b xs) (h' : Completes b c ys) (hl : b.Linked) (ho : owner < a.size)
    (hle : a.size ≤ b.size) {refers : Prop} {log : List Entry}
    (hrun : Run (visitSite owner b.size refers) b log c) : Completes a c (xs ++ ys) := by
  have hext := hrun.extension
  refine ⟨fun x => ?_, List.pairwise_append.mpr ⟨h.order_of_extends hl hext, h'.order, ?_⟩⟩
  · rw [List.mem_append, h.mem, h'.mem]
    constructor
    · rintro (⟨hx, hopen⟩ | ⟨hx, hopen⟩)
      · exact ⟨hx, (hext.opened_iff hopen.lt).mpr hopen⟩
      · exact ⟨Nat.le_trans hle hx, hopen⟩
    · rintro ⟨hx, hopen⟩
      by_cases hold : x < b.size
      · exact .inl ⟨hx, (hext.opened_iff hold).mp hopen⟩
      · exact .inr ⟨Nat.le_of_not_lt hold, hopen⟩
  · intro x hx y hy
    obtain ⟨hnew, hopen⟩ := (h.mem x).mp hx
    obtain ⟨hlater, -⟩ := (h'.mem y).mp hy
    have hlt := Nat.lt_of_lt_of_le ho hnew
    exact .inr ⟨Nat.lt_of_lt_of_le hopen.lt hlater,
      not_above_of_run hrun hl hlt hopen.lt hlater⟩

/-- A node is left behind all that was opened inside it. -/
theorem node {entered visited : Ast} (h : Completes entered visited xs)
    (hopening : Opening owner t a entered visited b) (ho : owner < a.size) (hl : visited.Linked)
    (hext : entered.Extends visited) (hself : b.Opened a.size)
    (hunder : ∀ x, entered.size ≤ x → visited.Opened x → TransGen visited.Up x a.size) :
    Completes a b (xs ++ [a.size]) := by
  have hlt : a.size < entered.size := hopening.lt ho
  have hleave := hopening.leave.extension
  refine ⟨fun x => ?_, List.pairwise_append.mpr
    ⟨h.order_of_extends hl hleave, List.pairwise_singleton _ _, ?_⟩⟩
  · rw [List.mem_append, List.mem_singleton, h.mem]
    constructor
    · rintro (⟨hx, hopen⟩ | rfl)
      · exact ⟨Nat.le_trans (Nat.le_of_lt hlt) hx, (hleave.opened_iff hopen.lt).mpr hopen⟩
      · exact ⟨Nat.le_refl _, hself⟩
    · rintro ⟨hx, hopen⟩
      exact (hopening.opened_cases hext hx hopen).symm
  · intro x hx y hy
    obtain ⟨hnew, hopen⟩ := (h.mem x).mp hx
    rw [List.mem_singleton.mp hy]
    exact .inl (hleave.above (hunder x hnew hopen))

end Completes

section

variable {kind : NodeKind} {child : Role} {head : Cst.Head} {slots : List Tree}

theorem completed_of_not_opened
    (ho : (Rule.ofRole role (Cst.Kind.ofName head.kind)).opens? ast owner (.node head slots) = none)
    (hi : (Rule.ofRole role (Cst.Kind.ofName head.kind)).inside owner ast.size = none) :
    completed role owner (.node head slots) ast = [] := by
  unfold completed
  dsimp only
  rw [ho, hi]
  rfl

theorem completed_of_pass (hp : Rule.ofRole role (Cst.Kind.ofName head.kind) = .pass) :
    completed role owner (.node head slots) ast = completedAll .plain owner slots ast := by
  unfold completed
  rw [hp]
  rfl

theorem completed_of_closed
    (ho : (Rule.ofRole role (Cst.Kind.ofName head.kind)).opens? ast owner (.node head slots) =
      some kind)
    (hi : (Rule.ofRole role (Cst.Kind.ofName head.kind)).inside owner ast.size = none) :
    completed role owner (.node head slots) ast = [ast.size] := by
  unfold completed
  dsimp only
  rw [ho, hi]
  rfl

theorem completed_of_opened
    (ho : (Rule.ofRole role (Cst.Kind.ofName head.kind)).opens? ast owner (.node head slots) =
      some kind)
    (hi : (Rule.ofRole role (Cst.Kind.ofName head.kind)).inside owner ast.size = some (child, o)) :
    completed role owner (.node head slots) ast = completedAll child o slots
      (enter (Rule.ofRole role (Cst.Kind.ofName head.kind)) owner (.node head slots) ast) ++
        [ast.size] := by
  unfold completed
  dsimp only
  rw [ho, hi]
  rfl

end

mutual

theorem visit_completes : (t : Tree) → {role : Role} → {ast : Ast} → {owner : NodeId} →
    Workplace role ast owner →
    Completes ast (visit role owner t ast) (completed role owner t ast)
  | .missing, _, ast, _, _ => .refl ast
  | .node head slots, role, ast, owner, hw => by
    have hsuits := (Rule.ofRole_serves hw.suits (Cst.Kind.ofName head.kind)).suits
    -- the node itself, once it is opened
    have hself {kind : NodeKind} (ho : (Rule.ofRole role (Cst.Kind.ofName head.kind)).opens? ast
        owner (.node head slots) = some kind) :
        (visit role owner (.node head slots) ast).Opened ast.size := by
      obtain ⟨-, hshape⟩ := hw.visit_opened ho
      rw [Opened, isKind_eq_shape? fun k => by rw [k.isLeaf_shape], hshape]
      simp [Rule.not_isLeaf_of_opens hsuits ho]
    cases hw.visitCase head slots with
    | leaves ho hi hrun =>
      rw [completed_of_not_opened ho hi]
      exact .leaves hrun
    | pass hp hplain hvisit =>
      rw [completed_of_pass hp, hvisit]
      exact visitAll_completes slots hplain
    | closed ho hi hopening =>
      rw [completed_of_closed ho hi]
      have hl := hopening.linked hw.lt hw.sound.linked
      refine (Completes.refl _).node hopening hw.lt hl (.refl _) (hself ho) fun x hx hopen => ?_
      exact absurd hopen.lt (Nat.not_lt.mpr hx)
    | node ho hi hinner hopening =>
      rw [completed_of_opened ho hi]
      obtain ⟨log, hv⟩ := hinner.visitsAll slots
      have hrun := hv.run hinner.lt
      exact (visitAll_completes slots hinner).node hopening hw.lt (hrun.sound hinner.sound).linked
        hrun.extension (hself ho) (hv.under_owner hinner.lt hinner.sound.linked)

theorem visitAll_completes : (ts : List Tree) → {role : Role} → {ast : Ast} → {owner : NodeId} →
    Workplace role ast owner →
    Completes ast (visitAll role owner ts ast) (completedAll role owner ts ast)
  | [], _, ast, _, _ => .refl ast
  | t :: rest, role, ast, owner, hw => by
    have hnext := hw.next t
    obtain ⟨log, hv⟩ := hw.visits t
    obtain ⟨log', hv'⟩ := hnext.visitsAll rest
    exact (visit_completes t hw).append (visitAll_completes rest hnext) hnext.sound.linked hw.lt
      (hv.run hw.lt).extension.size_le (hv'.run hnext.lt)

end

/-- The nodes of a built tree, apart from its root and from leaves, in the order in which their
visits are completed. -/
def finished (root : Tree) : List NodeId :=
  completedAll .plain rootId root.slots (ofSpan root.span)

theorem build_completes {root : Tree} {name : String} (h : build root name = .ok ast) :
    Completes (ofSpan root.span) ast (finished root) := by
  rw [eq_of_build h]
  exact visitAll_completes root.slots (workplace_ofSpan root.span)

end ComponentCompiler.Ast
