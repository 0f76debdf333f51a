import ComponentCompiler.Cst.Sketch
import ComponentCompiler.Proofs.Ast.LeavingOrder

namespace ComponentCompiler

def Slot.admits : Slot → NodeKind → Bool
  | .properties, .property _ => true
  | .assignments, .assignment _ => true
  | .events, .callable .event _ => true
  | .listeners, .callable .listener _ => true
  | .functions, .callable .method _ | .functions, .callable .typedFunction _ => true
  | .defaultSlot, .tagged _ => true
  | .defaultSlot, .instance_ i => i.id.isNone
  | _, _ => false

theorem NodeKind.slot?_eq_some {k : NodeKind} {named : Bool} {slot : Slot}
    (hi : slot ≠ .idComponents) (hb : slot ≠ .bindings) :
    k.slot? named = some slot ↔ slot.admits k := by
  cases k with
  | callable form _ => cases form <;> cases slot <;> simp_all [slot?, Callable.slot?, Slot.admits]
  | instance_ i =>
    cases h : i.id <;> cases hr : i.isRoot <;> cases slot <;> simp_all [slot?, Slot.admits]
  | member => cases named <;> cases slot <;> simp_all [slot?, Slot.admits]
  | _ => cases slot <;> simp_all [slot?, Slot.admits]

theorem NodeKind.slot?_eq_idComponents {k : NodeKind} {named : Bool} :
    k.slot? named = some .idComponents ↔
      ∃ i, k = .instance_ i ∧ i.isRoot = false ∧ i.id.isSome := by
  cases k with
  | callable form _ => cases form <;> simp [slot?, Callable.slot?]
  | instance_ i => cases h : i.id <;> cases hr : i.isRoot <;> simp [slot?, h, hr]
  | member => cases named <;> simp [slot?]
  | _ => simp [slot?]

namespace Ast

open Relation

variable {ast : Ast} {c c' p x y : NodeId} {slot : Slot} {m : Members} {log : List Entry}

def members? (ast : Ast) (c : NodeId) : Option Members :=
  (ast.kind? c).bind NodeKind.members?

def MemberOf (ast : Ast) (x c : NodeId) : Prop :=
  ∃ body, ast.Up x body ∧ ast.kind? body = some .body ∧ ast.Up body c

/-- `c` is the nearest component above `x` that exposes what has an id. -/
def Exposes (ast : Ast) (c x : NodeId) : Prop :=
  ∃ p, TransGen ast.Up x p ∧ ast.Shows p c ∧
    ∀ q, TransGen ast.Up x q → TransGen ast.Up q p → ∀ c', ¬ ast.Shows q c'

structure Classified (ast : Ast) : Prop where
  /-- Each list of members has the nodes of its kinds in the body, once and in order. -/
  members : ∀ c m, ast.members? c = some m → ∀ slot, slot ≠ .idComponents →
    (m.list slot).Pairwise (· < ·) ∧
      ∀ x, x ∈ m.list slot ↔ ast.MemberOf x c ∧ ast.isKind x slot.admits
  /-- The list of instances with ids has those that the component exposes, once. -/
  idComponents : ∀ c m, ast.members? c = some m → m.idComponents.Nodup ∧
    ∀ x, x ∈ m.idComponents ↔ ∃ i, ast.kind? x = some (.instance_ i) ∧ i.isRoot = false ∧
      i.id.isSome ∧ ast.Exposes c x
  /-- An instance is exposed by one component at most, and this one has lists. -/
  exposing : ∀ x c, ast.Exposes c x → (ast.members? c).isSome ∧ ∀ c', ast.Exposes c' x → c' = c
  owner : ∀ x i, ast.kind? x = some (.instance_ i) →
    ∀ c, i.owner = some c ↔ i.isRoot = false ∧ i.id.isSome ∧ ast.Exposes c x

theorem entries_of_members? (h : ast.members? c = some m) (slot : Slot) :
    ast.entries slot c = m.list slot := by
  obtain ⟨k, hk, hm⟩ := Option.bind_eq_some_iff.mp h
  rw [entries, hk]
  cases k <;> cases hm <;> rfl

theorem isSome_members? : (ast.members? c).isSome ↔ ast.isKind c fun k => k.members?.isSome := by
  rw [members?, isKind]
  cases ast.kind? c <;> simp

theorem above_cons (hu : ast.Up x y) {z : NodeId} :
    TransGen ast.Up x z ↔ z = y ∨ TransGen ast.Up y z := by
  rw [← reflTransGen_iff_eq_or_transGen, TransGen.head'_iff]
  constructor
  · rintro ⟨p, hp, hchain⟩
    obtain rfl : p = y := Option.some.inj (hp.symm.trans hu)
    exact hchain
  · exact fun hchain => ⟨y, hu, hchain⟩

theorem findSome?_ancestors {β : Type} {f : NodeId → Option β} {v : β} (hl : ast.Linked) :
    (ast.ancestors x).findSome? f = some v ↔ ∃ p, TransGen ast.Up x p ∧ f p = some v ∧
      ∀ q, TransGen ast.Up x q → TransGen ast.Up q p → f q = none := by
  induction x using Nat.strong_induction_on with
  | _ x ih =>
    cases hp : ast.parent? x with
    | none =>
      have hnot (p : NodeId) : ¬ TransGen ast.Up x p := by
        simp [TransGen.head'_iff, Up, hp]
      have hnil : ast.ancestors x = [] := by simp [ancestors, parents, hp]
      simp [hnil, hnot]
    | some y =>
      have hu : ast.Up x y := hp
      rw [ancestors_of_up hl hu, List.findSome?_cons]
      cases hf : f y with
      | some w =>
        constructor
        · intro hw
          refine ⟨y, .single hu, hf.trans hw, fun q hq hqy => ?_⟩
          have hlt := hl.above_lt hqy
          rcases (above_cons hu).mp hq with rfl | hyq
          · exact absurd hlt (Nat.lt_irrefl q)
          · exact absurd hlt (Nat.lt_asymm (hl.above_lt hyq))
        · rintro ⟨p, hxp, hfp, hno⟩
          rcases (above_cons hu).mp hxp with rfl | hyp
          · exact hf.symm.trans hfp
          · rw [hno y (.single hu) hyp] at hf
            cases hf
      | none =>
        dsimp only
        rw [ih y (hl.up_lt hu)]
        constructor
        · rintro ⟨p, hyp, hfp, hno⟩
          refine ⟨p, .head hu hyp, hfp, fun q hq hqp => ?_⟩
          rcases (above_cons hu).mp hq with rfl | hyq
          · exact hf
          · exact hno q hyq hqp
        · rintro ⟨p, hxp, hfp, hno⟩
          rcases (above_cons hu).mp hxp with rfl | hyp
          · rw [hf] at hfp
            cases hfp
          · exact ⟨p, hyp, hfp, fun q hq hqp => hno q (.head hu hq) hqp⟩

theorem findSome?_exposed? (hl : ast.Linked) :
    (ast.ancestors x).findSome? ast.exposed? = some c ↔ ast.Exposes c x := by
  rw [findSome?_ancestors hl]
  refine exists_congr fun p => and_congr_right fun _ => and_congr exposed?_eq_some ?_
  refine forall₃_congr fun q _ _ => ?_
  rw [Option.eq_none_iff_forall_ne_some]
  exact forall_congr' fun c' => not_congr exposed?_eq_some

theorem holder?_eq_exposes (hl : ast.Linked) :
    ast.holder? x .idComponents = some c ↔ ast.Exposes c x := by
  have hfind : ast.holder? x .idComponents = (ast.ancestors x).findSome? ast.exposed? := by
    unfold holder?
    cases hp : ast.parent? x with
    | none => simp [ancestors, parents, hp]
    | some y => rw [ancestors_of_up hl hp, Option.bind_some, exposingOwner?_eq]
  rw [hfind, findSome?_exposed? hl]

theorem holder?_eq_memberOf (hi : slot ≠ .idComponents) (hb : slot ≠ .bindings) :
    ast.holder? x slot = some c ↔
      ast.MemberOf x c ∧ ast.isKind c fun k => k.members?.isSome := by
  have hparent : ast.holder? x slot = (ast.parent? x).bind ast.bodyOwner? := by
    cases slot <;> simp_all [holder?]
  rw [hparent, Option.bind_eq_some_iff]
  simp only [bodyOwner?_eq_some]
  constructor
  · rintro ⟨body, hu, hk, hc, hm⟩
    exact ⟨⟨body, hu, hk, hc⟩, hm⟩
  · rintro ⟨⟨body, hu, hk, hc⟩, hm⟩
    exact ⟨body, hu, hk, hc, hm⟩

/-- Members of one component do not stand below each other. -/
theorem not_above_of_memberOf (hl : ast.Linked) (hx : ast.MemberOf x c) (hy : ast.MemberOf y c) :
    ¬ TransGen ast.Up x y := by
  obtain ⟨p, hxp, -, hpc⟩ := hx
  obtain ⟨q, hyq, -, hqc⟩ := hy
  intro habove
  rcases (above_cons hxp).mp habove with rfl | habove
  · -- `y` would be the body, so the component would stand below itself
    obtain rfl : c = q := Option.some.inj (hpc.symm.trans hyq)
    exact Nat.lt_irrefl c (hl.up_lt hqc)
  · have hle : y ≤ c := by
      rcases (above_cons hpc).mp habove with rfl | habove
      · exact Nat.le_refl y
      · exact Nat.le_of_lt (hl.above_lt habove)
    exact Nat.not_lt.mpr hle (Nat.lt_trans (hl.up_lt hqc) (hl.up_lt hyq))

namespace Logged

variable (h : ast.Logged log)

include h

theorem mem_members (hi : slot ≠ .idComponents) (hb : slot ≠ .bindings)
    (hm : ast.members? c = some m) :
    x ∈ m.list slot ↔ ast.MemberOf x c ∧ ast.isKind x slot.admits := by
  have hc : ast.isKind c fun k => k.members?.isSome := isSome_members?.mp (by simp [hm])
  have hslot : ast.slot? x = some slot ↔ ast.isKind x slot.admits := by
    rw [isKind_iff, slot?, Option.bind_eq_some_iff]
    exact exists_congr fun k => and_congr_right fun _ => NodeKind.slot?_eq_some hi hb
  rw [← entries_of_members? hm, h.mem_entries, hslot, holder?_eq_memberOf hi hb, and_iff_left hc,
    and_comm]

theorem mem_idComponents (hl : ast.Linked) : x ∈ ast.entries .idComponents c ↔
    ∃ i, ast.kind? x = some (.instance_ i) ∧ i.isRoot = false ∧ i.id.isSome ∧
      ast.Exposes c x := by
  rw [h.mem_entries, holder?_eq_exposes hl, slot?, Option.bind_eq_some_iff]
  simp only [NodeKind.slot?_eq_idComponents]
  constructor
  · rintro ⟨⟨_, hk, i, rfl, hr, hid⟩, he⟩
    exact ⟨i, hk, hr, hid, he⟩
  · rintro ⟨i, hk, hr, hid, he⟩
    exact ⟨⟨_, hk, i, rfl, hr, hid⟩, he⟩

theorem increasing (hl : ast.Linked) (hi : slot ≠ .idComponents) (hb : slot ≠ .bindings)
    (hm : ast.members? c = some m) : (m.list slot).Pairwise (· < ·) := by
  rw [← entries_of_members? hm slot]
  refine (h.pairwise slot c).imp_of_mem fun hx hy hleft => ?_
  rw [entries_of_members? hm, h.mem_members hi hb hm] at hx hy
  exact (hleft.resolve_left (not_above_of_memberOf hl hx.1 hy.1)).1

end Logged

theorem isSome_members?_of_exposes (h : ast.Exposes c x) : (ast.members? c).isSome := by
  obtain ⟨p, -, hshows, -⟩ := h
  rcases hshows with ⟨-, -, d, hd⟩ | ⟨rfl, i, hi, -⟩
  · rw [members?, hd]
    rfl
  · rw [members?, hi]
    rfl

theorem Logged.classified (h : ast.Logged log) (hl : ast.Linked) : ast.Classified where
  members := by
    intro c m hm slot hi
    by_cases hb : slot = .bindings
    · subst hb
      refine ⟨.nil, fun x => ⟨nofun, fun ⟨_, hx⟩ => ?_⟩⟩
      obtain ⟨k, -, hk⟩ := isKind_iff.mp hx
      cases hk
    · exact ⟨h.increasing hl hi hb hm, fun x => h.mem_members hi hb hm⟩
  idComponents := by
    intro c m hm
    have hlist : ast.entries .idComponents c = m.idComponents := entries_of_members? hm _
    rw [← hlist]
    exact ⟨(h.pairwise _ c).imp fun hleft => hleft.ne hl, fun x => h.mem_idComponents hl⟩
  exposing := by
    intro x c hc
    refine ⟨isSome_members?_of_exposes hc, fun c' hc' => ?_⟩
    rw [← holder?_eq_exposes hl] at hc hc'
    exact Option.some.inj (hc'.symm.trans hc)
  owner := by
    intro x i hk c
    have howner : ast.ownerOf? x = i.owner := by
      rw [ownerOf?, hk]
      rfl
    rw [← howner, h.ownerOf?_iff, h.mem_idComponents hl, hk]
    constructor
    · rintro ⟨_, ⟨⟩, hi⟩
      exact hi
    · intro hi
      exact ⟨i, rfl, hi⟩

/-- Every tree without error nodes is built, with all members of components in their lists. -/
theorem build_classified {cst : Cst.Table} (ha : cst.Acyclic) (he : cst.ErrorFree)
    (name : String) : ∃ root ast, cst.tree? = some root ∧ build root name = .ok ast ∧
      ast.Classified := by
  obtain ⟨root, ast, ht, hb⟩ := build_ok ha he name
  obtain ⟨log, h⟩ := build_logged hb
  exact ⟨root, ast, ht, hb, h.classified (build_linked hb)⟩

section

open Cst (Sketch)

def wordSketch (text : String) : Sketch :=
  .leaf "identifier" text true

def bodySketch (parts : List Sketch) : Sketch :=
  .node "component_body" ([.token "\x7b"] ++ parts ++ [.token "\x7d"])

def idSketch (text : String) : Sketch :=
  .node "component_identifier" [.token "#", wordSketch text]

def instanceSketch (parts : List Sketch) : Sketch :=
  .node "new_component_expression" parts

def declarationSketch (name : String) (parts : List Sketch) : Sketch :=
  .node "program" [.node "component_declaration"
    [.token "component", wordSketch name, bodySketch parts]]

/-- A component with a property and two instances in its body. The first instance has no id, but
holds one that has, and the second gets its id from its own body. -/
def mixedMembers : Cst.Table :=
  let prop := Sketch.node "property_declaration" [wordSketch "int",
    .leaf "property_identifier" "w" true, .token ":",
    .node "expression_statement" [.leaf "number" "1" true]]
  let inner := instanceSketch [wordSketch "C", idSketch "c", bodySketch []]
  let late := Sketch.node "identifier_property_assignment" [.token "id", .token ":", wordSketch "d"]
  let sketch := declarationSketch "A" [prop, instanceSketch [wordSketch "B", bodySketch [inner]],
    instanceSketch [wordSketch "D", bodySketch [late]]]
  (sketch.layout
    "component A \x7b int w: 1 B \x7b C #c \x7b \x7d \x7d D \x7b id: d \x7d \x7d").toOption.getD {}

theorem mixedMembers_acyclic : mixedMembers.Acyclic :=
  Cst.Table.acyclic_of_children_lt (by decide +kernel)

theorem mixedMembers_errorFree : mixedMembers.ErrorFree :=
  Cst.Table.errorFree_of_entries (by decide +kernel)

theorem mixedMembers_classified : mixedMembers.Acyclic ∧ mixedMembers.ErrorFree ∧
    ∃ root ast, mixedMembers.tree? = some root ∧ build root "App" = .ok ast ∧ ast.Classified ∧
      (ast.members? 1).map (fun m => (m.properties, m.defaultSlot, m.idComponents)) =
        some ([4], [9], [12, 16]) := by
  obtain ⟨root, ast, ht, hb, h⟩ :=
    build_classified mixedMembers_acyclic mixedMembers_errorFree "App"
  refine ⟨mixedMembers_acyclic, mixedMembers_errorFree, root, ast, ht, hb, h, ?_⟩
  apply of_build_of_decide ht hb
  decide +kernel

end

end Ast

end ComponentCompiler
