import ComponentCompiler.Ast.Build
import Mathlib.Data.List.Basic

namespace ComponentCompiler

inductive NodeGroup where
  | importStatement
  | declaration
  /-- An instance or a tagged text. -/
  | componentUse
  | variables
  | other
  deriving DecidableEq

namespace NodeKind

def group : NodeKind → NodeGroup
  | importStatement _ => .importStatement
  | declaration _ => .declaration
  | instance_ _ | tagged _ => .componentUse
  | variableList _ => .variables
  | _ => .other

variable (k : NodeKind)

@[simp] theorem group_mapDeclaration (f : DeclarationData → DeclarationData) :
    (k.mapDeclaration f).group = k.group := by
  cases k <;> rfl

@[simp] theorem group_mapInstance (f : InstanceData → InstanceData) :
    (k.mapInstance f).group = k.group := by
  cases k <;> rfl

@[simp] theorem group_mapMembers (f : Members → Members) : (k.mapMembers f).group = k.group := by
  cases k <;> rfl

@[simp] theorem group_mapProperty (f : PropertyData → PropertyData) :
    (k.mapProperty f).group = k.group := by
  cases k <;> rfl

@[simp] theorem group_mapAssignment (f : AssignmentData → AssignmentData) :
    (k.mapAssignment f).group = k.group := by
  cases k <;> rfl

@[simp] theorem group_mapFunction (f : FunctionData → FunctionData) :
    (k.mapFunction f).group = k.group := by
  cases k <;> rfl

@[simp] theorem group_mapTagged (f : TaggedData → TaggedData) :
    (k.mapTagged f).group = k.group := by
  cases k <;> rfl

@[simp] theorem group_withId (id : NodeId) : (k.withId id).group = k.group := by
  cases k <;> rfl

@[simp] theorem group_withBody (id : NodeId) : (k.withBody id).group = k.group := by
  cases k <;> rfl

@[simp] theorem group_withValue (value : PropertyValue) : (k.withValue value).group = k.group := by
  cases k <;> rfl

@[simp] theorem group_addBinding (id : NodeId) : (k.addBinding id).group = k.group := by
  cases k <;> rfl

end NodeKind

namespace Ast

variable {a b c ast : Ast} {id p : NodeId} {kind : NodeKind} {span : Span}

def group (ast : Ast) (id : NodeId) : NodeGroup :=
  (ast.kind? id).elim .other NodeKind.group

theorem node?_modify (ast : Ast) (i id : NodeId) (f : Node → Node) :
    (ast.modify i f).node? id = if id = i then (ast.node? id).map f else ast.node? id := by
  simp only [node?, modify, Array.getElem?_modify]
  by_cases h : i = id
  · simp [h]
  · simp [h, Ne.symm h]

theorem node?_add (ast : Ast) (kind : NodeKind) (span : Span) (hp : p < ast.size) :
    (ast.add kind span p).node? id =
      if id = ast.size then some (newNode kind span (some p))
      else if id = p then
        (ast.node? id).map fun n => { n with children := n.children ++ [ast.size] }
      else ast.node? id := by
  have hne : p ≠ ast.nodes.size := Nat.ne_of_lt hp
  simp only [node?, add, size, Array.getElem?_modify, Array.getElem?_push]
  by_cases hs : id = ast.nodes.size
  · subst hs
    simp [hne]
  · by_cases hi : p = id
    · subst hi
      simp [hs]
    · simp [hs, hi, Ne.symm hi]

theorem node?_eq_none (h : ast.size ≤ id) : ast.node? id = none :=
  Array.getElem?_eq_none h

theorem lt_size_of_node? {n : Node} (h : ast.node? id = some n) : id < ast.size :=
  (Array.getElem?_eq_some_iff.mp h).1

theorem lt_size_of_isKind {q : NodeKind → Bool} (h : ast.isKind id q) : id < ast.size := by
  unfold isKind kind? at h
  cases hn : ast.node? id with
  | none => simp [hn] at h
  | some n => exact lt_size_of_node? hn

@[simp] theorem size_add : (ast.add kind span p).size = ast.size + 1 := by
  simp [size, add]

/-- What does not depend on children is that of the new node, or as it was. -/
theorem observe_add {β : Type} (f : Node → β) (default : β)
    (hf : ∀ n children, f { n with children } = f n) (hp : p < ast.size) :
    ((ast.add kind span p).node? id).elim default f =
      if id = ast.size then f (newNode kind span (some p)) else (ast.node? id).elim default f := by
  rw [node?_add ast kind span hp]
  by_cases hs : id = ast.size
  · simp [hs]
  · by_cases hi : id = p
    · subst hi
      cases hn : ast.node? id <;> simp [hs, hf]
    · simp [hs, hi]

theorem group_eq (ast : Ast) (id : NodeId) :
    ast.group id = (ast.node? id).elim .other fun n => n.kind.group := by
  unfold group kind?
  cases ast.node? id <;> rfl

theorem kind?_of_import (h : ast.group id = .importStatement) :
    ∃ data, ast.kind? id = some (.importStatement data) := by
  unfold group at h
  cases hk : ast.kind? id with
  | none => simp [hk] at h
  | some k => cases k <;> simp_all [NodeKind.group]

theorem parent?_eq (ast : Ast) (id : NodeId) :
    ast.parent? id = (ast.node? id).elim none fun n => n.parent := by
  unfold parent?
  cases ast.node? id <;> rfl

theorem group_add (hp : p < ast.size) :
    (ast.add kind span p).group id = if id = ast.size then kind.group else ast.group id := by
  rw [group_eq, group_eq]
  exact observe_add (fun n => n.kind.group) _ (fun _ _ => rfl) hp

theorem span_add (hp : p < ast.size) :
    (ast.add kind span p).span id = if id = ast.size then span else ast.span id :=
  observe_add (fun n => n.span) _ (fun _ _ => rfl) hp

theorem parent?_add (hp : p < ast.size) :
    (ast.add kind span p).parent? id = if id = ast.size then some p else ast.parent? id := by
  rw [parent?_eq, parent?_eq]
  exact observe_add (fun n => n.parent) _ (fun _ _ => rfl) hp

theorem children_add (hp : p < ast.size) :
    (ast.add kind span p).children id =
      if id = p then ast.children id ++ [ast.size] else ast.children id := by
  simp only [children, node?_add ast kind span hp]
  by_cases hs : id = ast.size
  · have hne : ast.size ≠ p := Nat.ne_of_gt hp
    simp [hs, hne, newNode, node?_eq_none (Nat.le_refl ast.size)]
  · by_cases hi : id = p
    · obtain ⟨n, hn⟩ : ∃ n, ast.node? id = some n := ⟨_, Array.getElem?_eq_getElem (hi ▸ hp)⟩
      subst hi
      simp [hs, hn]
    · simp [hs, hi]

/-- Both trees have the same nodes in the same places; what their kinds record may differ. -/
structure SameNodes (a b : Ast) : Prop where
  size : b.size = a.size
  imports : b.imports = a.imports
  group : b.group = a.group
  span : b.span = a.span
  parent? : b.parent? = a.parent?
  children : b.children = a.children

theorem SameNodes.refl (a : Ast) : SameNodes a a :=
  ⟨rfl, rfl, rfl, rfl, rfl, rfl⟩

theorem SameNodes.symm (h : SameNodes a b) : SameNodes b a :=
  ⟨h.size.symm, h.imports.symm, h.group.symm, h.span.symm, h.parent?.symm, h.children.symm⟩

theorem SameNodes.trans (h : SameNodes a b) (h' : SameNodes b c) : SameNodes a c :=
  ⟨h'.size.trans h.size, h'.imports.trans h.imports, h'.group.trans h.group,
    h'.span.trans h.span, h'.parent?.trans h.parent?, h'.children.trans h.children⟩

theorem observe_modify {β : Type} (f : Node → β) (default : β) {m : Node → Node}
    (hf : ∀ n, ast.node? p = some n → f (m n) = f n) :
    ((ast.modify p m).node? id).elim default f = (ast.node? id).elim default f := by
  rw [node?_modify]
  by_cases hi : id = p
  · subst hi
    cases hn : ast.node? id with
    | none => simp
    | some n => simp [hf n hn]
  · simp [hi]

theorem sameNodes_modify {m : Node → Node} (hm : ∀ n, ast.node? p = some n →
    (m n).kind.group = n.kind.group ∧ (m n).span = n.span ∧ (m n).parent = n.parent ∧
      (m n).children = n.children) : SameNodes ast (ast.modify p m) := by
  refine ⟨Array.size_modify, rfl, funext fun id => ?_, funext fun id => ?_, funext fun id => ?_,
    funext fun id => ?_⟩
  · rw [group_eq, group_eq]
    exact observe_modify (fun n => n.kind.group) _ fun n hn => (hm n hn).1
  · exact observe_modify (fun n => n.span) _ fun n hn => (hm n hn).2.1
  · rw [parent?_eq, parent?_eq]
    exact observe_modify (fun n => n.parent) _ fun n hn => (hm n hn).2.2.1
  · exact observe_modify (fun n => n.children) _ fun n hn => (hm n hn).2.2.2

theorem sameNodes_modifyKind {f : NodeKind → NodeKind} (hf : ∀ k, (f k).group = k.group) :
    SameNodes ast (ast.modifyKind p f) :=
  sameNodes_modify fun n _ => ⟨hf n.kind, rfl, rfl, rfl⟩

theorem sameNodes_modifyScope (ast : Ast) (start : NodeId) (f : Scope → Scope) :
    SameNodes ast (ast.modifyScope start f) := by
  unfold modifyScope
  split
  · exact .refl ast
  · exact sameNodes_modify fun _ _ => ⟨rfl, rfl, rfl, rfl⟩

theorem sameNodes_declare (ast : Ast) (start ident : NodeId) :
    SameNodes ast (ast.declare start ident) :=
  sameNodes_modifyScope ast start _

theorem sameNodes_use (ast : Ast) (start ident : NodeId) : SameNodes ast (ast.use start ident) :=
  sameNodes_modifyScope ast start _

theorem sameNodes_foldl {α : Type} {f : Ast → α → Ast} (hf : ∀ ast x, SameNodes ast (f ast x))
    (xs : List α) (ast : Ast) : SameNodes ast (xs.foldl f ast) := by
  induction xs generalizing ast with
  | nil => exact .refl ast
  | cons x rest ih => exact (hf ast x).trans (ih (f ast x))

theorem sameNodes_declareAll (ast : Ast) (start : NodeId) (idents : List NodeId) :
    SameNodes ast (ast.declareAll start idents) :=
  sameNodes_foldl (fun ast ident => sameNodes_declare ast start ident) idents ast

theorem sameNodes_addMember (ast : Ast) (body : NodeId) (f : Members → Members) :
    SameNodes ast (ast.addMember body f) := by
  unfold addMember
  split
  · exact .refl ast
  · exact sameNodes_modifyKind fun k => k.group_mapMembers f

def addListed (ast : Ast) (kind : NodeKind) (span : Span) (parent : NodeId) : Ast :=
  if kind.group = .importStatement then
    { ast.add kind span parent with imports := ast.imports ++ [ast.size] }
  else
    ast.add kind span parent

theorem addListed_eq_add (h : kind.group ≠ .importStatement) :
    ast.addListed kind span p = ast.add kind span p :=
  if_neg h

@[simp] theorem nodes_addListed :
    (ast.addListed kind span p).nodes = (ast.add kind span p).nodes := by
  unfold addListed
  split <;> rfl

@[simp] theorem size_addListed : (ast.addListed kind span p).size = ast.size + 1 := by
  simp [size, add]

/-- `b` comes from `a` by adding nodes of kinds that satisfy `P`. -/
inductive Grows (P : NodeKind → Prop) (a : Ast) : Ast → Prop
  | refl : Grows P a a
  | add {b : Ast} {kind : NodeKind} {span : Span} {parent : NodeId} (h : Grows P a b)
      (hk : P kind) (hp : parent < b.size) : Grows P a (b.addListed kind span parent)
  | same {b c : Ast} (h : Grows P a b) (hs : SameNodes b c) : Grows P a c

abbrev Plain (kind : NodeKind) : Prop :=
  kind.group = .other

variable {P : NodeKind → Prop}

theorem SameNodes.grows (h : SameNodes a b) : Grows P a b :=
  .same .refl h

theorem Grows.trans (h : Grows P a b) (h' : Grows P b c) : Grows P a c := by
  induction h' with
  | refl => exact h
  | add _ hk hp ih => exact .add ih hk hp
  | same _ hs ih => exact .same ih hs

theorem Grows.mono {Q : NodeKind → Prop} (h : Grows P a b) (hPQ : ∀ k, P k → Q k) :
    Grows Q a b := by
  induction h with
  | refl => exact .refl
  | add _ hk hp ih => exact .add ih (hPQ _ hk) hp
  | same _ hs ih => exact .same ih hs

theorem Grows.size_le (h : Grows P a b) : a.size ≤ b.size := by
  induction h with
  | refl => exact Nat.le_refl _
  | add _ _ _ ih => exact Nat.le_trans ih (by simp)
  | same _ hs ih => exact hs.size.symm ▸ ih

theorem Grows.addPlain (h : Grows Plain a b) (hk : Plain kind) (hp : p < b.size) :
    Grows Plain a (b.add kind span p) := by
  rw [← addListed_eq_add (by rw [show kind.group = .other from hk]; exact nofun)]
  exact .add h hk hp

theorem Grows.addAll (h : Grows Plain a b) (hk : Plain kind) (spans : List Span)
    (hp : p < b.size) : Grows Plain a (b.addAll kind spans p) := by
  induction spans generalizing b with
  | nil => exact h
  | cons span rest ih =>
    have hp' : p < (b.add kind span p).size := by
      rw [size_add]
      exact Nat.lt_succ_of_lt hp
    exact ih (h.addPlain hk hp) hp'

theorem node?_addListed :
    (ast.addListed kind span p).node? id = (ast.add kind span p).node? id := by
  simp [node?]

theorem group_addListed (hp : p < ast.size) :
    (ast.addListed kind span p).group id = if id = ast.size then kind.group else ast.group id := by
  rw [group, kind?, node?_addListed]
  exact group_add hp

theorem span_addListed (hp : p < ast.size) :
    (ast.addListed kind span p).span id = if id = ast.size then span else ast.span id := by
  rw [Ast.span, node?_addListed]
  exact span_add hp

theorem parent?_addListed (hp : p < ast.size) :
    (ast.addListed kind span p).parent? id =
      if id = ast.size then some p else ast.parent? id := by
  rw [parent?, node?_addListed]
  exact parent?_add hp

theorem children_addListed (hp : p < ast.size) :
    (ast.addListed kind span p).children id =
      if id = p then ast.children id ++ [ast.size] else ast.children id := by
  rw [children, node?_addListed]
  exact children_add hp

/-- Parents come before their nodes, and the lists of children and of imports are what the parents
and the groups of the nodes say. -/
structure Linked (ast : Ast) : Prop where
  root : ast.parent? rootId = none
  nonempty : 0 < ast.size
  parent : ∀ id, rootId < id → id < ast.size → ∃ p < id, ast.parent? id = some p
  children : ∀ p, ast.children p = (List.range ast.size).filter fun c => ast.parent? c == some p
  imports : ast.imports =
    (List.range ast.size).filter fun id => ast.group id == .importStatement

theorem linked_ofSpan (span : Span) : Linked (ofSpan span) := by
  refine ⟨rfl, Nat.one_pos, ?_, ?_, rfl⟩
  · intro id h0 h1
    have h1' : id < 1 := h1
    exact absurd h0 (Nat.not_lt.mpr (Nat.le_of_lt_succ h1'))
  · intro p
    cases p <;> rfl

theorem Linked.same (h : a.Linked) (hs : SameNodes a b) : b.Linked := by
  refine ⟨?_, ?_, ?_, ?_, ?_⟩
  · rw [hs.parent?]
    exact h.root
  · rw [hs.size]
    exact h.nonempty
  · rw [hs.parent?, hs.size]
    exact h.parent
  · rw [hs.parent?, hs.size, hs.children]
    exact h.children
  · rw [hs.imports, hs.size, hs.group]
    exact h.imports

theorem Linked.addListed (h : a.Linked) (hp : p < a.size) :
    (a.addListed kind span p).Linked := by
  have hroot : rootId ≠ a.size := Nat.ne_of_lt h.nonempty
  refine ⟨?_, by simp, ?_, ?_, ?_⟩
  · rw [parent?_addListed hp, if_neg hroot]
    exact h.root
  · intro id h0 hlt
    rw [size_addListed] at hlt
    rw [parent?_addListed hp]
    split
    · next hid => exact ⟨p, hid ▸ hp, rfl⟩
    · next hid => exact h.parent id h0 (Nat.lt_of_le_of_ne (Nat.le_of_lt_succ hlt) hid)
  · intro q
    have hold : (List.range a.size).filter
        (fun c => (a.addListed kind span p).parent? c == some q) =
        (List.range a.size).filter fun c => a.parent? c == some q := by
      apply List.filter_congr
      intro c hc
      rw [parent?_addListed hp, if_neg (Nat.ne_of_lt (List.mem_range.mp hc))]
    rw [children_addListed hp, h.children q, size_addListed, List.range_succ, List.filter_append,
      hold, List.filter_singleton, parent?_addListed hp, if_pos rfl]
    by_cases hq : q = p
    · simp [hq]
    · have hpq : (p == q) = false := by simpa using Ne.symm hq
      simp [hq, hpq]
  · have hold : (List.range a.size).filter
        (fun c => (a.addListed kind span p).group c == .importStatement) =
        (List.range a.size).filter fun c => a.group c == .importStatement := by
      apply List.filter_congr
      intro c hc
      rw [group_addListed hp, if_neg (Nat.ne_of_lt (List.mem_range.mp hc))]
    rw [size_addListed, List.range_succ, List.filter_append, hold, ← h.imports,
      List.filter_singleton, group_addListed hp, if_pos rfl]
    unfold Ast.addListed
    split
    · next hk => simp [hk]
    · next hk =>
      have hb : (kind.group == .importStatement) = false := by simpa using hk
      simp [hb, add]

theorem Linked.grows (h : a.Linked) (hg : Grows P a b) : b.Linked := by
  induction hg with
  | refl => exact h
  | add _ _ hp ih => exact ih.addListed hp
  | same _ hs ih => exact ih.same hs

theorem Grows.keeps (hg : Grows P a b) {id : NodeId} (hid : id < a.size) :
    b.group id = a.group id ∧ b.span id = a.span id ∧ b.parent? id = a.parent? id := by
  induction hg with
  | refl => exact ⟨rfl, rfl, rfl⟩
  | add hg _ hp ih =>
    have hne : id ≠ _ := Nat.ne_of_lt (Nat.lt_of_lt_of_le hid hg.size_le)
    rw [group_addListed hp, span_addListed hp, parent?_addListed hp, if_neg hne, if_neg hne,
      if_neg hne]
    exact ih
  | same _ hs ih =>
    rw [hs.group, hs.span, hs.parent?]
    exact ih

theorem Grows.group_cases (hg : Grows P a b) (id : NodeId) :
    b.group id = a.group id ∨ ∃ kind, P kind ∧ b.group id = kind.group := by
  induction hg with
  | refl => exact .inl rfl
  | add _ hk hp ih =>
    rw [group_addListed hp]
    split
    · exact .inr ⟨_, hk, rfl⟩
    · exact ih
  | same _ hs ih =>
    rw [hs.group]
    exact ih

/-- Nodes of plain kinds are added, so each node with edits of its own was there before. -/
theorem Grows.old_of_group (hg : Grows Plain a b) {id : NodeId} (h : b.group id ≠ .other) :
    id < a.size := by
  induction hg with
  | refl =>
    apply Decidable.byContradiction
    intro hn
    exact h (by simp [group_eq, node?_eq_none (Nat.le_of_not_lt hn)])
  | add _ hk hp ih =>
    rw [group_addListed hp] at h
    split at h
    · exact absurd hk h
    · exact ih h
  | same _ hs ih =>
    rw [hs.group] at h
    exact ih h

end Ast

end ComponentCompiler
