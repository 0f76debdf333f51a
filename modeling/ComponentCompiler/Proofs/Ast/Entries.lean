import ComponentCompiler.Proofs.Ast.Steps

namespace ComponentCompiler

def Callable.slot? : Callable → Option Slot
  | .event => some .events
  | .listener => some .listeners
  | .method | .typedFunction => some .functions
  | .function | .arrow | .ctor => none

def NodeKind.isUnlisted : NodeKind → Bool
  | property _ | assignment _ | tagged _ | instance_ _ | member => false
  | callable form _ => form.slot?.isNone
  | _ => true

theorem NodeKind.isUnlisted_shape (k : NodeKind) : k.shape.isUnlisted = k.isUnlisted := by
  cases k <;> rfl

theorem NodeKind.isUnlisted_of_isLeaf {k : NodeKind} (h : k.isLeaf) : k.isUnlisted := by
  cases k <;> simp [isLeaf, isUnlisted] at h ⊢

theorem NodeKind.isUnlisted_of_isWrapper {k : NodeKind} (h : k.isWrapper) : k.isUnlisted := by
  cases k <;> simp [isWrapper, isUnlisted] at h ⊢

def NodeKind.hasId : NodeKind → Bool
  | instance_ i => i.id.isSome
  | _ => false

def NodeKind.isInstance : NodeKind → Bool
  | instance_ _ => true
  | _ => false

def NodeKind.isRoot : NodeKind → Bool
  | instance_ i => i.isRoot
  | _ => false

theorem NodeKind.isRoot_shape (k : NodeKind) : k.shape.isRoot = k.isRoot := by
  cases k <;> rfl

theorem NodeKind.isInstance_of_hasId {k : NodeKind} (h : k.hasId) : k.shape.isInstance := by
  cases k with
  | instance_ _ => rfl
  | _ => cases h

/-- The list that a finished node is meant for; of a member expression it matters how it starts. -/
def NodeKind.slot? (named : Bool) : NodeKind → Option Slot
  | property _ => some .properties
  | assignment _ => some .assignments
  | callable form _ => form.slot?
  | tagged _ => some .defaultSlot
  | instance_ i =>
    if i.id.isNone then some .defaultSlot else if i.isRoot then none else some .idComponents
  | member => if named then some .bindings else none
  | _ => none

theorem NodeKind.slot?_eq_shape (named : Bool) (k : NodeKind) : k.slot? named =
    if k.hasId then if k.isRoot then none else some .idComponents else k.shape.slot? named := by
  cases k with
  | instance_ i =>
    cases h : i.id <;> cases hr : i.isRoot <;> simp [slot?, hasId, isRoot, shape, h, hr]
  | _ => rfl

theorem NodeKind.slot?_of_isUnlisted {k : NodeKind} (h : k.isUnlisted) (named : Bool) :
    k.slot? named = none := by
  cases k with
  | callable form _ => exact Option.isNone_iff_eq_none.mp h
  | property | assignment | tagged | instance_ | member => cases h
  | _ => rfl

namespace Ast

open Relation

variable {a b ast : Ast} {c p x : NodeId} {slot : Slot}

def startsNamed (ast : Ast) (x : NodeId) : Bool :=
  (ast.children x).head?.any fun c =>
    ast.isKind c (· == .identifier) || ast.isKind c (· == .member)

def slot? (ast : Ast) (x : NodeId) : Option Slot :=
  (ast.kind? x).bind (NodeKind.slot? (ast.startsNamed x))

def holder? (ast : Ast) (x : NodeId) : Slot → Option NodeId
  | .idComponents => (ast.parent? x).bind ast.exposingOwner?
  | .bindings => (ast.fedProperty? x).filter fun p => ast.isKind p NodeKind.isProperty
  | _ => (ast.parent? x).bind ast.bodyOwner?

def listing? (ast : Ast) (x : NodeId) : Option Entry :=
  (ast.slot? x).bind fun slot => (ast.holder? x slot).map fun p => ⟨slot, p, x⟩

theorem slot?_of_kind? {k : NodeKind} (h : ast.kind? x = some k) :
    ast.slot? x = k.slot? (ast.startsNamed x) := by
  rw [slot?, h, Option.bind_some]

theorem slot?_eq_shape? (ast : Ast) (x : NodeId) : ast.slot? x =
    if ast.isKind x NodeKind.hasId then
      if ast.isKind x NodeKind.isRoot then none else some .idComponents
    else (ast.shape? x).bind (NodeKind.slot? (ast.startsNamed x)) := by
  unfold slot? isKind shape?
  cases ast.kind? x with
  | none => rfl
  | some k => exact k.slot?_eq_shape _

theorem listing?_eq_none (h : ast.slot? x = none) : ast.listing? x = none := by
  rw [listing?, h, Option.bind_none]

theorem listing?_of_slot? (h : ast.slot? x = some slot) :
    ast.listing? x = (ast.holder? x slot).map fun p => ⟨slot, p, x⟩ := by
  rw [listing?, h, Option.bind_some]

theorem holder?_member (hi : slot ≠ .idComponents) (hb : slot ≠ .bindings) (hu : ast.Up x p) :
    ast.holder? x slot = ast.bodyOwner? p := by
  have hp : ast.parent? x = some p := hu
  rw [holder?, hp]
  · rfl
  · exact hi
  · exact hb

def exposed? (ast : Ast) (p : NodeId) : Option NodeId :=
  match ast.kind? p with
  | some .body => (ast.parent? p).filter fun owner =>
    ast.isKind owner fun | .declaration _ => true | _ => false
  | some (.instance_ i) => if i.isRoot then some p else none
  | _ => none

theorem exposingOwner?_eq (ast : Ast) (x : NodeId) :
    ast.exposingOwner? x = (x :: ast.ancestors x).findSome? ast.exposed? :=
  rfl

theorem isKind_declaration : (ast.isKind p fun | .declaration _ => true | _ => false) ↔
    ∃ d, ast.kind? p = some (.declaration d) := by
  rw [isKind_iff]
  constructor
  · rintro ⟨k, hk, hd⟩
    cases k with
    | declaration d => exact ⟨d, hk⟩
    | _ => cases hd
  · rintro ⟨d, hk⟩
    exact ⟨_, hk, rfl⟩

/-- What stands below `p` and has an id is an id of component `c`: this is the declaration that `p`
is the body of, or `p` itself if it is a root instance. -/
def Shows (ast : Ast) (p c : NodeId) : Prop :=
  (ast.kind? p = some .body ∧ ast.Up p c ∧ ∃ d, ast.kind? c = some (.declaration d)) ∨
    p = c ∧ ∃ i, ast.kind? p = some (.instance_ i) ∧ i.isRoot

theorem exposed?_eq_some : ast.exposed? p = some c ↔ ast.Shows p c := by
  unfold exposed? Shows
  split
  · next hk =>
    rw [Option.filter_eq_some_iff, isKind_declaration, hk]
    simp [Up]
  · next i hk =>
    rw [hk]
    simp [and_comm]
  · next hbody hinst =>
    constructor
    · intro h
      cases h
    · rintro (⟨hk, -⟩ | ⟨-, i, hk, -⟩)
      · exact absurd hk hbody
      · exact absurd hk (hinst i)

theorem exposingOwner?_above (h : ast.exposingOwner? x = some c) : ReflTransGen ast.Up x c := by
  obtain ⟨p, hp, he⟩ := List.exists_of_findSome?_eq_some h
  have hc := chain_of_mem_ancestors hp
  rcases exposed?_eq_some.mp he with ⟨-, hu, -⟩ | ⟨rfl, -⟩
  · exact hc.tail hu
  · exact hc

theorem exposingOwner?_keeps (h : ast.exposingOwner? x = some c) :
    ast.isKind c (NodeKind.keeps .idComponents) := by
  obtain ⟨p, -, he⟩ := List.exists_of_findSome?_eq_some h
  rw [isKind_iff]
  rcases exposed?_eq_some.mp he with ⟨-, -, d, hd⟩ | ⟨rfl, i, hi, -⟩
  · exact ⟨_, hd, rfl⟩
  · exact ⟨_, hi, rfl⟩

theorem fedProperty?_above (h : ast.fedProperty? x = some p) : TransGen ast.Up x p :=
  above_of_mem_parents (List.mem_of_find?_eq_some h)

theorem not_hasId {kind : NodeKind} (hs : ast.shape? x = some kind) (hk : ¬ kind.isInstance) :
    ast.isKind x NodeKind.hasId = false := by
  rw [Bool.eq_false_iff]
  intro h
  obtain ⟨k, hkind, hid⟩ := isKind_iff.mp h
  obtain ⟨k', hkind', rfl⟩ := Option.map_eq_some_iff.mp hs
  cases hkind.symm.trans hkind'
  exact hk (NodeKind.isInstance_of_hasId hid)

theorem exposed?_eq_ite (ast : Ast) (p : NodeId) : ast.exposed? p =
    if ast.isKind p (· == .body) then (ast.parent? p).filter fun owner =>
      ast.isKind owner fun | .declaration _ => true | _ => false
    else if ast.isKind p NodeKind.isRoot then some p else none := by
  unfold exposed? isKind
  cases ast.kind? p with
  | none => rfl
  | some k => cases k <;> rfl

namespace Extends

variable (h : a.Extends b) (hl : a.Linked) (hx : x < a.size)

include h hl hx

theorem exposed?_eq : b.exposed? x = a.exposed? x := by
  rw [exposed?_eq_ite, exposed?_eq_ite, h.parent?_eq hx, h.isKind_eq NodeKind.isRoot_shape hx,
    h.isKind_eq (q := (· == .body)) (fun k => by cases k <;> rfl) hx]
  split
  · cases hp : a.parent? x with
    | none => rfl
    | some p =>
      have hlt : p < a.size := Nat.lt_trans (hl.up_lt hp) hx
      rw [Option.filter_some, Option.filter_some,
        h.isKind_eq (fun k => by cases k <;> rfl) hlt]
  · rfl

theorem exposingOwner?_eq : b.exposingOwner? x = a.exposingOwner? x := by
  rw [Ast.exposingOwner?_eq, Ast.exposingOwner?_eq, h.ancestors_eq hl hx]
  rw [← List.head?_filterMap, ← List.head?_filterMap]
  refine congrArg List.head? (List.filterMap_congr fun y hy => ?_)
  exact h.exposed?_eq hl (hl.lt_of_mem_ancestors hx hy)

theorem holder?_eq (slot : Slot) : b.holder? x slot = a.holder? x slot := by
  have hparent (find find' : NodeId → Option NodeId) (hf : ∀ p < a.size, find' p = find p) :
      (b.parent? x).bind find' = (a.parent? x).bind find := by
    rw [h.parent?_eq hx]
    cases hp : a.parent? x with
    | none => rfl
    | some p => exact hf p (Nat.lt_trans (hl.up_lt hp) hx)
  cases slot with
  | idComponents => exact hparent _ _ fun p hp => h.exposingOwner?_eq hl hp
  | bindings =>
    unfold holder?
    rw [h.fedProperty?_eq hl hx]
    cases hp : a.fedProperty? x with
    | none => rfl
    | some p =>
      have hlt : p < a.size := Nat.lt_trans (hl.above_lt (fedProperty?_above hp)) hx
      rw [Option.filter_some, Option.filter_some, h.isKind_eq NodeKind.isProperty_shape hlt]
  | _ => exact hparent _ _ fun p hp => h.bodyOwner?_eq hl hp

omit hx in
theorem startsNamed_eq (hc : b.children x = a.children x) : b.startsNamed x = a.startsNamed x := by
  unfold startsNamed
  rw [hc]
  cases hr : (a.children x).head? with
  | none => rfl
  | some r =>
    have hlt : r < a.size := lt_size_of_up ((mem_children hl).mp (List.mem_of_head? hr))
    rw [Option.any_some, Option.any_some, h.isKind_eq (fun k => by cases k <;> rfl) hlt,
      h.isKind_eq (fun k => by cases k <;> rfl) hlt]

/-- The list of a node stays, if its children do and it does not get an id. -/
theorem listing?_eq (hc : b.children x = a.children x)
    (hi : b.isKind x NodeKind.hasId = a.isKind x NodeKind.hasId) : b.listing? x = a.listing? x := by
  have hslot : b.slot? x = a.slot? x := by
    rw [slot?_eq_shape?, slot?_eq_shape?, hi, h.isKind_eq NodeKind.isRoot_shape hx, h.shape x hx,
      h.startsNamed_eq hl hc]
  unfold listing?
  rw [hslot]
  exact Option.bind_congr fun slot _ => by rw [h.holder?_eq hl hx]

end Extends

end Ast

end ComponentCompiler
