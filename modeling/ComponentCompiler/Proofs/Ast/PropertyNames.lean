import ComponentCompiler.ImportTypes.Collect
import ComponentCompiler.Proofs.Ast.Bindings
import ComponentCompiler.Proofs.Ast.Moments

namespace ComponentCompiler.Ast

open Cst (Tree)
open Relation

variable {ast : Ast} {c id o owner p x : NodeId} {head : Cst.Head} {slots : List Tree} {t : Tree}

mutual

def silent : Tree → Bool
  | .missing => true
  | .node head slots =>
    match Rule.ofKind (Cst.Kind.ofName head.kind) with
    | .pass => silentAll slots
    | .idAssignment => true
    | _ => false

def silentAll : List Tree → Bool
  | [] => true
  | t :: rest => silent t && silentAll rest

end

mutual

theorem visit_silent (hb : ast.bodyOwner? owner = none) : (t : Tree) → silent t →
    visit .plain owner t ast = ast
  | .missing, _ => rfl
  | .node head slots, hs => by
    unfold silent at hs
    unfold visit
    rw [Rule.ofRole]
    split at hs
    · next hr =>
      rw [hr]
      exact visitAll_silent hb slots hs
    · next hr =>
      rw [hr]
      simp [Rule.inside, leave, enter, enterIdAssignment, hb]
    · cases hs

theorem visitAll_silent (hb : ast.bodyOwner? owner = none) : (ts : List Tree) → silentAll ts →
    visitAll .plain owner ts ast = ast
  | [], _ => rfl
  | t :: rest, hs => by
    unfold silentAll at hs
    rw [Bool.and_eq_true] at hs
    unfold visitAll
    rw [visit_silent hb t hs.1]
    exact visitAll_silent hb rest hs.2

end

theorem Rule.ofKind_cases (k : Cst.Kind) : ofKind k = .pass ∨ ofKind k = .idAssignment ∨
    (∃ kind, ofKind k = .leaf kind) ∨
      ∀ a owner t, ∃ kind, (ofKind k).opens? a owner t = some kind := by
  cases k <;> simp [ofKind, opens?]

theorem visit_leaf {kind : NodeKind} (hr : Rule.ofKind (Cst.Kind.ofName head.kind) = .leaf kind) :
    visit .plain owner (.node head slots) ast = ast.add kind head.span owner := by
  unfold visit
  rw [Rule.ofRole, hr]
  rfl

mutual

-- only a tree that passes on to its slots leaves the question open
theorem visit_heard : (t : Tree) → {ast : Ast} → Workplace .plain ast owner → ¬ silent t →
    ∃ c, (visit .plain owner t ast).Up c owner
  | .missing, _, _, hs => absurd rfl hs
  | .node head slots, ast, hw, hs => by
    rcases Rule.ofKind_cases (Cst.Kind.ofName head.kind) with hr | hr | ⟨kind, hr⟩ | hopens
    · have hslots : ¬ silentAll slots := by
        unfold silent at hs
        rwa [hr] at hs
      have hvisit : visit .plain owner (.node head slots) ast =
          visitAll .plain owner slots ast := by
        unfold visit
        rw [Rule.ofRole, hr]
        rfl
      rw [hvisit]
      exact visitAll_heard slots hw hslots
    · unfold silent at hs
      rw [hr] at hs
      exact absurd rfl hs
    · rw [visit_leaf hr]
      exact ⟨ast.size, up_add ast kind head.span hw.lt⟩
    · obtain ⟨kind, ho⟩ := hopens ast owner (.node head slots)
      obtain ⟨hu, -⟩ := hw.visit_opened ho
      exact ⟨ast.size, hu⟩

theorem visitAll_heard : (ts : List Tree) → {ast : Ast} → Workplace .plain ast owner →
    ¬ silentAll ts → ∃ c, (visitAll .plain owner ts ast).Up c owner
  | [], _, _, hs => absurd rfl hs
  | t :: rest, ast, hw, hs => by
    have hnext : Workplace .plain (visit .plain owner t ast) owner := hw.next t
    unfold visitAll
    by_cases ht : silent t
    · refine visitAll_heard rest hnext fun hrest => hs ?_
      unfold silentAll
      rw [ht, hrest]
      rfl
    · obtain ⟨c, hu⟩ := visit_heard t hw ht
      obtain ⟨log, hv⟩ := hnext.visitsAll rest
      exact ⟨c, (hv.run hnext.lt).extension.up hu⟩

end

theorem visitAll_filter_isPresent (ts : List Tree) (ast : Ast) :
    visitAll .plain owner (ts.filter Tree.isPresent) ast = visitAll .plain owner ts ast := by
  induction ts generalizing ast with
  | nil => rfl
  | cons t rest ih =>
    cases t with
    | missing => exact ih ast
    | node head slots => exact ih (visit .plain owner (.node head slots) ast)

theorem visitAll_append (ts ts' : List Tree) (ast : Ast) :
    visitAll .plain owner (ts ++ ts') ast =
      visitAll .plain owner ts' (visitAll .plain owner ts ast) := by
  induction ts generalizing ast with
  | nil => rfl
  | cons t rest ih => exact ih (visit .plain owner t ast)

theorem exists_scopeOwner? (ha : ast.Sound) (hroot : ast.kind? rootId = some .program)
    (hx : x < ast.size) : ∃ o, ast.scopeOwner? x = some o := by
  have hmem : rootId ∈ x :: ast.ancestors x := by
    rcases reflTransGen_iff_eq_or_transGen.mp (chain_root ha.linked hx) with he | hu
    · exact he ▸ List.mem_cons_self
    · exact List.mem_cons_of_mem x ((mem_ancestors ha.linked).mpr hu)
  have hscope : (ast.scope? rootId).isSome := by
    rw [ha.scope, isKind, hroot]
    rfl
  exact Option.isSome_iff_exists.mp (List.find?_isSome.mpr ⟨rootId, hmem, hscope⟩)

theorem mem_used_use_self (h : ast.scopeOwner? id = some o) : x ∈ (ast.use id x).used o := by
  have hscope := List.find?_some h
  obtain ⟨scope, hs⟩ := Option.isSome_iff_exists.mp hscope
  have huse : ast.use id x = ast.editScope o fun s => { s with used := s.used ++ [x] } := by
    rw [use, modifyScope, h]
    rfl
  rw [huse, used, scope?_editScope, if_pos rfl, hs]
  exact List.mem_append_right _ (List.mem_singleton_self x)

theorem used_leaveMember_eq (hr : (ast.children id).head? = some c) : (ast.leaveMember id).used o =
    (if ast.isKind c (· == .identifier) then ast.use id c else ast).used o := by
  unfold leaveMember
  rw [hr]
  dsimp only
  generalize (if ast.isKind c (· == .identifier) then ast.use id c else ast) = referred
  split
  · split
    · exact used_modifyKind
    · rfl
  · rfl

theorem used_leaveMember (ha : ast.Sound) (hroot : ast.kind? rootId = some .program)
    (hid : id < ast.size) (hfree : ∀ o, x ∉ ast.used o) :
    (∃ o, x ∈ (ast.leaveMember id).used o) ↔
      (ast.children id).head? = some x ∧ ast.kind? x = some .identifier := by
  cases hr : (ast.children id).head? with
  | none =>
    have hsame : ast.leaveMember id = ast := by
      unfold leaveMember
      rw [hr]
    simp [hsame, hfree]
  | some c =>
    simp only [used_leaveMember_eq hr, Option.some.injEq]
    by_cases hk : ast.kind? c = some .identifier
    · rw [if_pos (isKind_beq.mpr hk)]
      constructor
      · rintro ⟨o, ho⟩
        obtain rfl := (mem_used_use ho).resolve_left (hfree o)
        exact ⟨rfl, hk⟩
      · rintro ⟨rfl, -⟩
        obtain ⟨o, ho⟩ := exists_scopeOwner? ha hroot hid
        exact ⟨o, mem_used_use_self ho⟩
    · rw [if_neg fun h => hk (isKind_beq.mp h)]
      constructor
      · rintro ⟨o, ho⟩
        exact absurd ho (hfree o)
      · rintro ⟨rfl, hx⟩
        exact absurd hx hk

theorem mem_externalReferences {source : String} {config : ScopeConfig} (ha : ast.Sound)
    (hu : ast.Up x p) : x ∈ ast.externalReferences source config ↔
      (∃ o, x ∈ ast.used o) ∧ ast.isDeclared source config (ast.slice x source) x = false ∧
        ∃ e ∈ ast.exports, ∃ o ∈ ast.descendants e, ast.scopeOwner? p = some o := by
  have hscope {o : NodeId} (ho : x ∈ ast.used o) : ast.scopeOwner? p = some o := by
    obtain ⟨q, hq, hs⟩ := ha.used o x ho
    cases hq.symm.trans hu
    exact hs
  have hundeclared (o : NodeId) : x ∈ ast.undeclared source config o ↔
      x ∈ ast.used o ∧ ast.isDeclared source config (ast.slice x source) x = false := by
    rw [undeclared, List.mem_filter, Bool.not_eq_true']
    rfl
  simp only [externalReferences, List.mem_flatMap, hundeclared]
  constructor
  · rintro ⟨e, he, o, ho, hmem, hd⟩
    exact ⟨⟨o, hmem⟩, hd, e, he, o, ho, hscope hmem⟩
  · rintro ⟨⟨o, hmem⟩, hd, e, he, o', ho', hs⟩
    obtain rfl : o = o' := Option.some.inj ((hscope hmem).symm.trans hs)
    exact ⟨e, he, o, ho', hmem, hd⟩

namespace Moment

variable {m : Moment}

def built (m : Moment) (ts : List Tree) : Ast :=
  visitAll .plain m.ast.size ts (enter .member m.owner m.tree m.ast)

theorem after_of_member (hm : m.rule? = some .member) :
    m.after = (m.built m.tree.children).leaveMember m.ast.size := by
  unfold after built
  rw [Tree.children, visitAll_filter_isPresent]
  obtain ⟨role, owner, tree, ast⟩ := m
  cases tree with
  | missing => cases hm
  | node head slots =>
    have hrule : Rule.ofRole role (Cst.Kind.ofName head.kind) = .member := Option.some.inj hm
    dsimp only
    rw [visit, hrule]
    rfl

section

variable (hw : Workplace m.role m.ast m.owner)

include hw

theorem entered_member : m.ast.Extends (m.built []) ∧ Workplace .plain (m.built []) m.ast.size ∧
    (m.built []).kind? m.ast.size = some .member := by
  have hr : Rule.member.Suits m.ast m.owner := trivial
  have ho : Rule.member.opens? m.ast m.owner m.tree = some .member := rfl
  obtain ⟨hext, -, -, -⟩ := Ast.opened hw.sound hr hw.lt ho
  exact ⟨hext, (hw.inside hr ho rfl).2, kind?_add_self nofun hw.lt⟩

theorem built_run (ts : List Tree) :
    ∃ log, Run (visitSite m.ast.size (m.built []).size False) (m.built []) log (m.built ts) := by
  obtain ⟨-, hinner, -⟩ := entered_member hw
  obtain ⟨log, hv⟩ := hinner.visitsAll ts
  exact ⟨log, hv.run hinner.lt⟩

theorem built_sound (ts : List Tree) : (m.built ts).Sound ∧ m.ast.size < (m.built ts).size := by
  obtain ⟨-, hinner, -⟩ := entered_member hw
  obtain ⟨log, hrun⟩ := built_run hw ts
  exact ⟨hrun.sound hinner.sound, Nat.lt_of_lt_of_le hinner.lt hrun.extension.size_le⟩

theorem kind?_built (ts : List Tree) : (m.built ts).kind? m.ast.size = some .member := by
  obtain ⟨-, -, hkind⟩ := entered_member hw
  obtain ⟨log, hrun⟩ := built_run hw ts
  refine hrun.extension.kind?_eq_some (fun k hk => ?_) hkind
  cases k <;> cases hk
  rfl

theorem built_free (ts : List Tree) (hu : (m.built ts).Up x m.ast.size) (o : NodeId) :
    x ∉ (m.built ts).used o := by
  obtain ⟨hext, hinner, -⟩ := entered_member hw
  obtain ⟨log, hv⟩ := hinner.visitsAll ts
  refine hv.unused id hw.sound hext hinner.lt (fun o => ?_) hu o
  have hk : NodeKind.member.group ≠ .importStatement := nofun
  change (m.ast.add .member m.tree.span m.owner).used o = m.ast.used o
  rw [← addListed_eq_add hk, used_addListed hw.lt]

theorem children_built_eq_nil {front : List Tree} :
    (m.built front).children m.ast.size = [] ↔ silentAll front := by
  obtain ⟨-, hinner, hkind⟩ := entered_member hw
  constructor
  · intro hnil
    refine by_contra fun hs => ?_
    obtain ⟨c, hu⟩ := visitAll_heard front hinner hs
    obtain ⟨hsound, -⟩ := built_sound hw front
    have hmem := (mem_children hsound.linked).mpr hu
    rw [hnil] at hmem
    cases hmem
  · intro hs
    have hbody : (m.built []).bodyOwner? m.ast.size = none := by
      rw [Option.eq_none_iff_forall_ne_some]
      intro o ho
      cases hkind.symm.trans (bodyOwner?_eq_some.mp ho).1
    rw [show m.built front = m.built [] from visitAll_silent hbody front hs]
    -- the new node has no number behind it that a child could have
    rw [List.eq_nil_iff_forall_not_mem]
    intro c hc
    have hu := (mem_children hinner.sound.linked).mp hc
    have hlt := lt_size_of_up hu
    rw [show (m.built []).size = m.ast.size + 1 from size_add ..] at hlt
    exact Nat.not_lt.mpr (Nat.le_of_lt_succ hlt) (hinner.sound.linked.up_lt hu)

end

theorem built_name {name : Tree} (hn : name.kind = some .propertyIdentifier) (front : List Tree) :
    m.built (front ++ [name]) = (m.built front).add .identifier name.span m.ast.size := by
  unfold built
  rw [visitAll_append]
  cases name with
  | missing => cases hn
  | node head slots =>
    have hk : Cst.Kind.ofName head.kind = .propertyIdentifier := Option.some.inj hn
    exact visit_leaf (by rw [hk]; rfl)

def nameNode (m : Moment) (receiver dot : Tree) : NodeId :=
  (m.built [receiver, dot]).size

end Moment

structure Access (t receiver dot name : Tree) : Prop where
  children : t.children = [receiver, dot, name]
  dot : dot.kind = some .dot
  name : name.kind = some .propertyIdentifier

/-- Among the children of member expression `p`, the first one is a reference, if it is a name. -/
def UsesReceiver (ast : Ast) (p : NodeId) : Prop :=
  ∀ c, ast.Up c p → ((∃ o, c ∈ ast.used o) ↔
    (ast.children p).head? = some c ∧ ast.kind? c = some .identifier)

structure NameBuilt (ast : Ast) (p x : NodeId) (receiver dot name : Tree) : Prop where
  up : ast.Up x p
  kind : ast.kind? x = some .identifier
  span : ast.span x = name.span
  /-- The name is a reference if nothing is built before it. -/
  used : (∃ o, x ∈ ast.used o) ↔ silent receiver ∧ silent dot
  external : ∀ source config, x ∈ ast.externalReferences source config ↔
    (silent receiver ∧ silent dot) ∧ ast.isDeclared source config (ast.slice x source) x = false ∧
      ∃ e ∈ ast.exports, ∃ o ∈ ast.descendants e, ast.scopeOwner? p = some o

section

variable {root receiver dot name : Tree} {unitName : String} {m : Moment}
  (hb : build root unitName = .ok ast) (hm : m.Of root) (hr : m.rule? = some .member)

include hb hm hr

theorem member_settled : (m.built m.tree.children).Extends ast ∧
    ast.children m.ast.size = (m.built m.tree.children).children m.ast.size ∧
    ∀ c, ast.Up c m.ast.size → ((∃ o, c ∈ ast.used o) ↔
      ∃ o, c ∈ ((m.built m.tree.children).leaveMember m.ast.size).used o) := by
  have hw := workplace_ofSpan root.span
  obtain ⟨hplace, -⟩ := hm.workplace hw
  obtain ⟨hsound, hlt⟩ := m.built_sound hplace m.tree.children
  have hleave := leaveMember_run hsound (m.kind?_built hplace _) fun x => m.built_free hplace _
  have hsame := leave_same .member m.owner m.ast.size (m.built m.tree.children)
  have hset := hm.settled hw
  rw [← eq_of_build hb, Moment.after_of_member hr] at hset
  have hlt' := Nat.lt_of_lt_of_le hlt hleave.extension.size_le
  have hchildren := hset.children m.ast.size (Nat.le_refl _) hlt'
  refine ⟨hleave.extension.trans hset.extension, hchildren.trans (congrFun hsame.children _), ?_⟩
  intro c hu
  have hc := (mem_children (build_linked hb)).mpr hu
  rw [hchildren] at hc
  exact exists_congr fun o => hset.used m.ast.size (Nat.le_refl _) hlt' c hc o

theorem usesReceiver_of_build : ast.UsesReceiver m.ast.size := by
  have hw := workplace_ofSpan root.span
  obtain ⟨hplace, hext⟩ := hm.workplace hw
  obtain ⟨hbuilt, hchildren, hused⟩ := member_settled hb hm hr
  obtain ⟨hsound, hlt⟩ := m.built_sound hplace m.tree.children
  have hroot : (m.built m.tree.children).kind? rootId = some .program := by
    obtain ⟨hentered, -, -⟩ := m.entered_member hplace
    obtain ⟨log, hrun⟩ := m.built_run hplace m.tree.children
    refine ((hext.trans hentered).trans hrun.extension).kind?_eq_some (fun k hk => ?_) rfl
    cases k <;> cases hk
    rfl
  intro c hu
  have hc : (m.built m.tree.children).Up c m.ast.size := by
    rw [← mem_children hsound.linked, ← hchildren]
    exact (mem_children (build_linked hb)).mpr hu
  have hkind : ast.kind? c = some .identifier ↔
      (m.built m.tree.children).kind? c = some .identifier := by
    rw [← isKind_beq, ← isKind_beq,
      hbuilt.isKind_eq (fun k => by cases k <;> rfl) (lt_size_of_up hc)]
  rw [hused c hu, used_leaveMember hsound hroot hlt (m.built_free hplace _ hc), hchildren, hkind]

theorem access_settled (hacc : Access m.tree receiver dot name) :
    ((m.built [receiver, dot]).add .identifier name.span m.ast.size).Extends ast ∧
      ast.children m.ast.size =
        (m.built [receiver, dot]).children m.ast.size ++ [m.nameNode receiver dot] := by
  obtain ⟨hplace, -⟩ := hm.workplace (workplace_ofSpan root.span)
  obtain ⟨-, hlt⟩ := m.built_sound hplace [receiver, dot]
  obtain ⟨hbuilt, hchildren, -⟩ := member_settled hb hm hr
  have hadd : m.built m.tree.children =
      (m.built [receiver, dot]).add .identifier name.span m.ast.size := by
    rw [hacc.children]
    exact Moment.built_name hacc.name [receiver, dot]
  rw [hadd] at hbuilt hchildren
  rw [children_add hlt, if_pos rfl] at hchildren
  exact ⟨hbuilt, hchildren⟩

theorem head?_children_eq_name (hacc : Access m.tree receiver dot name) :
    (ast.children m.ast.size).head? = some (m.nameNode receiver dot) ↔
      silent receiver ∧ silent dot := by
  obtain ⟨hplace, -⟩ := hm.workplace (workplace_ofSpan root.span)
  obtain ⟨hsound, -⟩ := m.built_sound hplace [receiver, dot]
  obtain ⟨-, hchildren⟩ := access_settled hb hm hr hacc
  have hsilent : silentAll [receiver, dot] ↔ silent receiver ∧ silent dot := by simp [silentAll]
  rw [← hsilent, ← m.children_built_eq_nil hplace, hchildren]
  cases hfront : (m.built [receiver, dot]).children m.ast.size with
  | nil => simp
  | cons c rest =>
    -- what was built before has a smaller number
    have hc : c ∈ (m.built [receiver, dot]).children m.ast.size := hfront ▸ List.mem_cons_self
    have hne : c ≠ m.nameNode receiver dot :=
      Nat.ne_of_lt (lt_size_of_up ((mem_children hsound.linked).mp hc))
    simp [hne]

theorem nameBuilt_of_build (hacc : Access m.tree receiver dot name) :
    ast.NameBuilt m.ast.size (m.nameNode receiver dot) receiver dot name := by
  obtain ⟨hplace, -⟩ := hm.workplace (workplace_ofSpan root.span)
  obtain ⟨-, hlt⟩ := m.built_sound hplace [receiver, dot]
  obtain ⟨hbuilt, -⟩ := access_settled hb hm hr hacc
  have hup : ast.Up (m.nameNode receiver dot) m.ast.size := hbuilt.up (up_add _ _ _ hlt)
  have hkind : ast.kind? (m.nameNode receiver dot) = some .identifier :=
    hbuilt.kind?_eq_some (fun _ => NodeKind.shape_eq_of_isLeaf rfl) (kind?_add_self nofun hlt)
  have hused : (∃ o, m.nameNode receiver dot ∈ ast.used o) ↔ silent receiver ∧ silent dot := by
    rw [usesReceiver_of_build hb hm hr _ hup, head?_children_eq_name hb hm hr hacc,
      and_iff_left hkind]
  refine ⟨hup, hkind, ?_, hused, fun source config => ?_⟩
  · rw [hbuilt.span_eq (by simp [Moment.nameNode]), span_add hlt]
    exact if_pos rfl
  · rw [mem_externalReferences (build_sound hb) hup, hused]

end

/-- In every tree that is built, member expressions use their receivers only, but a property name
passes for the receiver if nothing is built before it. -/
theorem build_propertyNames {cst : Cst.Table} (ha : cst.Acyclic) (he : cst.ErrorFree)
    (unitName : String) : ∃ root ast, cst.tree? = some root ∧ build root unitName = .ok ast ∧
      ∀ m : Moment, m.Of root → m.rule? = some .member → ast.UsesReceiver m.ast.size ∧
        ∀ receiver dot name, Access m.tree receiver dot name →
          ast.NameBuilt m.ast.size (m.nameNode receiver dot) receiver dot name := by
  obtain ⟨root, ast, ht, hb⟩ := build_ok ha he unitName
  refine ⟨root, ast, ht, hb, fun m hm hr => ⟨usesReceiver_of_build hb hm hr, ?_⟩⟩
  intro receiver dot name hacc
  exact nameBuilt_of_build hb hm hr hacc

section

open Cst (Sketch)

def access? (t : Tree) : Option (Tree × Tree × Tree) :=
  match t.children with
  | [receiver, dot, name] =>
    if dot.kind = some .dot ∧ name.kind = some .propertyIdentifier then some (receiver, dot, name)
    else none
  | _ => none

theorem access_of_access? {receiver dot name : Tree} (h : access? t = some (receiver, dot, name)) :
    Access t receiver dot name := by
  unfold access? at h
  split at h
  · next hc =>
    split at h
    · next hkinds =>
      cases h
      exact ⟨hc, hkinds.1, hkinds.2⟩
    · cases h
  · cases h

def literalSource : String :=
  "component A \x7b T w: \"s\".length.x \x7d"

def literalAccess : Cst.Table :=
  let literal := Sketch.leaf "string" "\"s\"" true
  let sketch := declarationSketch "A"
    [valueSketch "w" (memberSketch (memberSketch literal "length") "x")]
  (sketch.layout literalSource).toOption.getD {}

theorem literalAccess_acyclic : literalAccess.Acyclic :=
  Cst.Table.acyclic_of_children_lt (by decide +kernel)

theorem literalAccess_errorFree : literalAccess.ErrorFree :=
  Cst.Table.errorFree_of_entries (by decide +kernel)

theorem exists_access {cst : Cst.Table} {root : Tree} (ht : cst.tree? = some root)
    (q : Moment → Tree → Tree → Bool) (h : cst.tree?.any fun root =>
      (Moment.list .plain rootId root.slots (ofSpan root.span)).any fun m =>
        m.rule? == some .member && (access? m.tree).any fun parts => q m parts.1 parts.2.1) :
    ∃ (m : Moment) (receiver dot name : Tree), m.Of root ∧ m.rule? = some .member ∧
      Access m.tree receiver dot name ∧ q m receiver dot := by
  rw [ht, Option.any_some] at h
  obtain ⟨m, hm, hq⟩ := List.any_eq_true.mp h
  rw [Bool.and_eq_true, beq_iff_eq, Option.any_eq_true] at hq
  obtain ⟨hr, ⟨receiver, dot, name⟩, hacc, hq⟩ := hq
  exact ⟨m, receiver, dot, name, Moment.mem_list.mp hm, hr, access_of_access? hacc, hq⟩

theorem literalAccess_propertyNames : literalAccess.Acyclic ∧ literalAccess.ErrorFree ∧
    ∃ root ast, literalAccess.tree? = some root ∧ build root "App" = .ok ast ∧
      ∃ (m : Moment) (receiver dot name : Tree), m.Of root ∧
        m.rule? = some .member ∧ Access m.tree receiver dot name ∧ silent receiver = false ∧
        ast.UsesReceiver m.ast.size ∧
        ast.NameBuilt m.ast.size (m.nameNode receiver dot) receiver dot name := by
  obtain ⟨root, ast, ht, hb, h⟩ :=
    build_propertyNames literalAccess_acyclic literalAccess_errorFree "App"
  obtain ⟨m, receiver, dot, name, hm, hr, hacc, hs⟩ :=
    exists_access ht (fun _ receiver _ => !silent receiver) (by decide +kernel)
  obtain ⟨huses, hnames⟩ := h m hm hr
  have hloud : silent receiver = false := by simpa using hs
  exact ⟨literalAccess_acyclic, literalAccess_errorFree, root, ast, ht, hb, m, receiver, dot, name,
    hm, hr, hacc, hloud, huses, hnames receiver dot name hacc⟩

/-- The name of the literal's property is a reference that the unit does not declare. -/
theorem literalAccess_uses_name : ∃ (ast : Ast) (m : Moment) (root receiver dot name : Tree),
    literalAccess.tree? = some root ∧ build root "App" = .ok ast ∧ m.Of root ∧
      m.rule? = some .member ∧ Access m.tree receiver dot name ∧
      (∃ o, m.nameNode receiver dot ∈ ast.used o) ∧
      m.nameNode receiver dot ∈ ast.externalReferences literalSource {} := by
  obtain ⟨root, ast, ht, hb⟩ := build_ok literalAccess_acyclic literalAccess_errorFree "App"
  obtain ⟨m, receiver, dot, name, hm, hr, hacc, hnode⟩ :=
    exists_access ht (fun m receiver dot => m.nameNode receiver dot == 10) (by decide +kernel)
  obtain ⟨hused, hexternal⟩ :
      ast.used 1 = [10] ∧ ast.externalReferences literalSource {} = [10] := by
    apply of_build_of_decide ht hb
    decide +kernel
  refine ⟨ast, m, root, receiver, dot, name, ht, hb, hm, hr, hacc, ?_⟩
  rw [beq_iff_eq.mp hnode, hexternal]
  exact ⟨⟨1, hused ▸ List.mem_singleton_self 10⟩, List.mem_singleton_self 10⟩

end

end ComponentCompiler.Ast
