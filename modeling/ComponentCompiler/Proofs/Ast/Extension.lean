import ComponentCompiler.Proofs.Ast.Ancestors
import ComponentCompiler.Proofs.Ast.Payload
import Mathlib.Data.List.Find

namespace ComponentCompiler.Ast

open Relation

variable {a b c ast : Ast} {id o p x y : NodeId} {kind k : NodeKind} {span : Span}
  {f : NodeKind → NodeKind} {g : Scope → Scope} {q : NodeKind → Bool}

def shape? (ast : Ast) (id : NodeId) : Option NodeKind :=
  (ast.kind? id).map NodeKind.shape

def editScope (ast : Ast) (o : NodeId) (g : Scope → Scope) : Ast :=
  ast.modify o fun n => { n with scope := n.scope.map g }

theorem kind?_addListed (hp : p < ast.size) :
    (ast.addListed kind span p).kind? id = if id = ast.size then some kind else ast.kind? id := by
  rw [kind?, kind?, node?_addListed, node?_add ast kind span hp]
  split
  · rfl
  · split
    · cases ast.node? id <;> rfl
    · rfl

theorem scope?_addListed (hp : p < ast.size) :
    (ast.addListed kind span p).scope? id =
      if id = ast.size then (if kind.bearsScope then some {} else none) else ast.scope? id := by
  rw [scope?, scope?, node?_addListed, node?_add ast kind span hp]
  split
  · rfl
  · split
    · cases ast.node? id <;> rfl
    · rfl

theorem kind?_modifyKind :
    (ast.modifyKind p f).kind? id = if id = p then (ast.kind? id).map f else ast.kind? id := by
  rw [kind?, kind?, modifyKind, node?_modify]
  split
  · cases ast.node? id <;> rfl
  · rfl

@[simp] theorem scope?_modifyKind : (ast.modifyKind p f).scope? id = ast.scope? id := by
  rw [scope?, scope?, modifyKind, node?_modify]
  split
  · cases ast.node? id <;> rfl
  · rfl

@[simp] theorem kind?_editScope : (ast.editScope o g).kind? id = ast.kind? id := by
  rw [kind?, kind?, editScope, node?_modify]
  split
  · cases ast.node? id <;> rfl
  · rfl

theorem scope?_editScope :
    (ast.editScope o g).scope? id = if id = o then (ast.scope? id).map g else ast.scope? id := by
  rw [scope?, scope?, editScope, node?_modify]
  split
  · cases ast.node? id <;> rfl
  · rfl

theorem lt_size_of_kind? (h : ast.kind? id = some k) : id < ast.size := by
  obtain ⟨n, hn, -⟩ := Option.map_eq_some_iff.mp h
  exact lt_size_of_node? hn

theorem isKind_iff : ast.isKind id q ↔ ∃ k, ast.kind? id = some k ∧ q k := by
  unfold isKind
  cases ast.kind? id <;> simp

theorem isKind_beq : ast.isKind id (· == k) ↔ ast.kind? id = some k := by
  rw [isKind_iff]
  simp

theorem isKind_eq_shape? (hq : ∀ k, q k.shape = q k) :
    ast.isKind id q = (ast.shape? id).any q := by
  unfold isKind shape?
  cases ast.kind? id <;> simp [hq]

/-- Nodes are added, and what stays of the old ones is what `Grows` says, their shapes, and whether
they have scopes. -/
structure Extends (a b : Ast) : Prop where
  grows : Grows (fun _ => True) a b
  shape : ∀ x, x < a.size → b.shape? x = a.shape? x
  hasScope : ∀ x, x < a.size → (b.scope? x).isSome = (a.scope? x).isSome

theorem Extends.refl (a : Ast) : a.Extends a :=
  ⟨.refl, fun _ _ => rfl, fun _ _ => rfl⟩

theorem Extends.trans (h : a.Extends b) (h' : b.Extends c) : a.Extends c := by
  refine ⟨h.grows.trans h'.grows, fun x hx => ?_, fun x hx => ?_⟩
  · rw [h'.shape x (Nat.lt_of_lt_of_le hx h.grows.size_le), h.shape x hx]
  · rw [h'.hasScope x (Nat.lt_of_lt_of_le hx h.grows.size_le), h.hasScope x hx]

theorem extends_addListed (hp : p < ast.size) : ast.Extends (ast.addListed kind span p) := by
  refine ⟨Grows.refl.add trivial hp, fun x hx => ?_, fun x hx => ?_⟩
  · rw [shape?, kind?_addListed hp, if_neg (Nat.ne_of_lt hx)]
    rfl
  · rw [scope?_addListed hp, if_neg (Nat.ne_of_lt hx)]

theorem extends_modifyKind (hf : ∀ k, ast.kind? p = some k → (f k).shape = k.shape) :
    ast.Extends (ast.modifyKind p f) := by
  refine ⟨SameNodes.grows (sameNodes_modify ?_), fun x _ => ?_, fun x _ => ?_⟩
  · intro n hn
    refine ⟨?_, rfl, rfl, rfl⟩
    have hk : ast.kind? p = some n.kind := by rw [kind?, hn, Option.map_some]
    rw [← (f n.kind).group_shape, hf n.kind hk, n.kind.group_shape]
  · rw [shape?, shape?, kind?_modifyKind]
    split
    · next hx =>
      subst hx
      cases hk : ast.kind? x with
      | none => rfl
      | some k => simp [hf k hk]
    · rfl
  · rw [scope?_modifyKind]

theorem extends_editScope : ast.Extends (ast.editScope o g) := by
  refine ⟨SameNodes.grows (sameNodes_modify ?_), fun x _ => ?_, fun x _ => ?_⟩
  · exact fun _ _ => ⟨rfl, rfl, rfl, rfl⟩
  · rw [shape?, shape?, kind?_editScope]
  · rw [scope?_editScope]
    split
    · rw [Option.isSome_map]
    · rfl

theorem extends_of_nodes (hn : b.nodes = a.nodes) (hi : b.imports = a.imports) :
    a.Extends b := by
  have hnode : b.node? = a.node? := funext fun id => by rw [node?, node?, hn]
  have hkind : b.kind? = a.kind? := funext fun id => by rw [kind?, kind?, hnode]
  refine ⟨SameNodes.grows ⟨?_, hi, ?_, ?_, ?_, ?_⟩, fun x _ => ?_, fun x _ => ?_⟩
  · rw [size, size, hn]
  · funext id
    rw [group, group, hkind]
  · funext id
    rw [Ast.span, Ast.span, hnode]
  · funext id
    rw [parent?, parent?, hnode]
  · funext id
    rw [children, children, hnode]
  · rw [shape?, shape?, hkind]
  · rw [scope?, scope?, hnode]

namespace Extends

variable (h : a.Extends b)

include h

theorem size_le : a.size ≤ b.size :=
  h.grows.size_le

theorem parent?_eq (hx : x < a.size) : b.parent? x = a.parent? x :=
  (h.grows.keeps hx).2.2

theorem span_eq (hx : x < a.size) : b.span x = a.span x :=
  (h.grows.keeps hx).2.1

theorem up (hu : a.Up x y) : b.Up x y :=
  (h.parent?_eq (lt_size_of_up hu)).trans hu

theorem chain (hc : ReflTransGen a.Up x y) : ReflTransGen b.Up x y :=
  ReflTransGen.mono (fun _ _ => h.up) _ _ hc

theorem above (ha : TransGen a.Up x y) : TransGen b.Up x y :=
  TransGen.mono (fun _ _ => h.up) _ _ ha

theorem isKind_eq (hq : ∀ k, q k.shape = q k) (hx : x < a.size) :
    b.isKind x q = a.isKind x q := by
  rw [isKind_eq_shape? hq, isKind_eq_shape? hq, h.shape x hx]

theorem shape?_eq_some (hs : a.shape? x = some k) : b.shape? x = some k := by
  obtain ⟨k', hk, -⟩ := Option.map_eq_some_iff.mp hs
  exact (h.shape x (lt_size_of_kind? hk)).trans hs

theorem kind?_eq_some (hfix : ∀ k', k'.shape = k.shape → k' = k) (hk : a.kind? x = some k) :
    b.kind? x = some k := by
  have hs : b.shape? x = some k.shape := h.shape?_eq_some (by rw [shape?, hk, Option.map_some])
  obtain ⟨k', hk', he⟩ := Option.map_eq_some_iff.mp hs
  rw [hk', hfix k' he]

theorem parents_eq (hl : a.Linked) (steps : Nat) (hx : x < a.size) :
    b.parents steps x = a.parents steps x := by
  induction steps generalizing x with
  | zero => rfl
  | succ steps ih =>
    unfold parents
    rw [h.parent?_eq hx]
    cases hp : a.parent? x with
    | none => rfl
    | some p => exact congrArg (p :: ·) (ih (Nat.lt_trans (hl.up_lt hp) hx))

end Extends

/-- The bound on the walk to the root does not matter once it is long enough. -/
theorem parents_steps (hl : ast.Linked) {m n : Nat} (hm : x ≤ m) (hn : x ≤ n) :
    ast.parents m x = ast.parents n x := by
  induction m generalizing x n with
  | zero =>
    obtain rfl : x = rootId := Nat.le_zero.mp hm
    cases n <;> simp [parents, hl.root]
  | succ m ih =>
    cases n with
    | zero =>
      obtain rfl : x = rootId := Nat.le_zero.mp hn
      simp [parents, hl.root]
    | succ n =>
      unfold parents
      cases hp : ast.parent? x with
      | none => rfl
      | some p =>
        have hlt := hl.up_lt hp
        exact congrArg (p :: ·) (ih (Nat.le_of_lt_succ (Nat.lt_of_lt_of_le hlt hm))
          (Nat.le_of_lt_succ (Nat.lt_of_lt_of_le hlt hn)))

theorem above_of_mem_parents {steps : Nat} (h : y ∈ ast.parents steps x) :
    TransGen ast.Up x y := by
  induction steps generalizing x with
  | zero => cases h
  | succ steps ih =>
    unfold parents at h
    split at h
    · cases h
    · next p hp =>
      rcases List.mem_cons.mp h with rfl | h
      · exact .single hp
      · exact .head hp (ih h)

theorem chain_of_mem_ancestors (h : y ∈ x :: ast.ancestors x) : ReflTransGen ast.Up x y := by
  rcases List.mem_cons.mp h with rfl | h
  · exact .refl
  · exact (above_of_mem_parents h).to_reflTransGen

theorem chain_of_scopeOwner? (h : ast.scopeOwner? x = some o) : ReflTransGen ast.Up x o :=
  chain_of_mem_ancestors (List.mem_of_find?_eq_some h)

theorem Linked.lt_of_mem_ancestors (hl : ast.Linked) (hx : x < ast.size)
    (hy : y ∈ x :: ast.ancestors x) : y < ast.size :=
  Nat.lt_of_le_of_lt (hl.chain_le (chain_of_mem_ancestors hy)) hx

theorem ancestors_of_up (hl : ast.Linked) (hu : ast.Up x y) :
    ast.ancestors x = y :: ast.ancestors y := by
  have hx := lt_size_of_up hu
  have hle : y ≤ ast.size := Nat.le_of_lt (Nat.lt_trans (hl.up_lt hu) hx)
  rw [ancestors, parents, show ast.parent? x = some y from hu]
  exact congrArg (y :: ·) (parents_steps hl hle (Nat.le_succ_of_le hle))

theorem bodyOwner?_eq_some : ast.bodyOwner? x = some y ↔
    ast.kind? x = some .body ∧ ast.Up x y ∧ ast.isKind y fun k => k.members?.isSome := by
  rw [bodyOwner?]
  split
  · next h =>
    rw [Option.filter_eq_some_iff, and_iff_right (isKind_beq.mp h)]
    rfl
  · next h =>
    rw [isKind_beq] at h
    simp [h]

namespace Extends

variable (h : a.Extends b) (hl : a.Linked) (hx : x < a.size)

include h hl hx

theorem ancestors_eq : b.ancestors x = a.ancestors x := by
  have hle : x ≤ a.size + 1 := Nat.le_succ_of_le (Nat.le_of_lt hx)
  unfold ancestors
  rw [h.parents_eq hl _ hx, parents_steps hl (Nat.le_trans hle (Nat.succ_le_succ h.size_le)) hle]

theorem scopeOwner?_eq : b.scopeOwner? x = a.scopeOwner? x := by
  unfold scopeOwner?
  rw [h.ancestors_eq hl hx]
  exact List.find?_congr fun y hy => h.hasScope y (hl.lt_of_mem_ancestors hx hy)

theorem bodyOwner?_eq : b.bodyOwner? x = a.bodyOwner? x := by
  have hbody : b.isKind x (· == .body) = a.isKind x (· == .body) :=
    h.isKind_eq (fun k => by cases k <;> rfl) hx
  unfold bodyOwner?
  rw [hbody, h.parent?_eq hx]
  split
  · cases hp : a.parent? x with
    | none => rfl
    | some p =>
      have hlt : p < a.size := Nat.lt_trans (hl.up_lt hp) hx
      rw [Option.filter_some, Option.filter_some,
        h.isKind_eq NodeKind.isSome_members?_shape hlt]
  · rfl

theorem fedProperty?_eq : b.fedProperty? x = a.fedProperty? x := by
  unfold fedProperty? nearestAncestor?
  rw [h.ancestors_eq hl hx]
  refine List.find?_congr fun y hy => h.isKind_eq (fun k => ?_) ?_
  · rw [k.stopsBinding_shape, k.isProperty_shape]
  · exact hl.lt_of_mem_ancestors hx (List.mem_cons_of_mem x hy)

end Extends

end ComponentCompiler.Ast
