import ComponentCompiler.Proofs.Ast.Members
import ComponentCompiler.Proofs.Ast.Moments
import ComponentCompiler.Script.Edits
import Mathlib.Data.List.Infix

namespace ComponentCompiler

namespace Text

variable {part text text' : String}

def Occurs (part text : String) : Prop :=
  part.toList <:+: text.toList

theorem occurs_self (text : String) : Occurs text text :=
  List.infix_refl _

theorem Occurs.trans (h : Occurs part text) (h' : Occurs text text') : Occurs part text' :=
  List.IsInfix.trans h h'

theorem Occurs.append_right (h : Occurs part text) : Occurs part (text ++ text') := by
  rw [Occurs, String.toList_append]
  exact List.infix_append_of_infix_left h

theorem Occurs.append_left (h : Occurs part text') : Occurs part (text ++ text') := by
  rw [Occurs, String.toList_append]
  exact List.infix_append_of_infix_right h

theorem occurs_join {texts : List String} (h : text ∈ texts) : Occurs text (String.join texts) := by
  rw [Occurs, String.toList_join, List.flatMap]
  exact List.infix_of_mem_flatten (List.mem_map_of_mem h)

end Text

open Text (Occurs)

namespace ScriptInput

variable {s : ScriptInput} {c id x : NodeId} {d : DeclarationData} {i : InstanceData}
  {m : Members} {depth : Nat}

def constructionLine (s : ScriptInput) (depth : Nat) (i : InstanceData) (id : NodeId) : String :=
  s.line depth ("var " ++ s.text id ++ " = " ++
    ("new " ++ s.dotted i.name ++ i.arguments.elim "()" s.text))

def Constructs (s : ScriptInput) (c : NodeId) (i : InstanceData) (id : NodeId) : Prop :=
  ∀ convert depth, ∃ text level, s.replacement? convert c depth = some text ∧
    Occurs (s.constructionLine level i id) text

/-- The text of instance `x` ends with setting up the object that is known under the id. -/
def BindsTo (s : ScriptInput) (x id : NodeId) : Prop :=
  ∀ convert depth, ∃ front parent, (parent = "this" ∨ parent = "null") ∧
    s.replacement? convert x depth =
      some (front ++ "\x7d.bind(" ++ s.text id ++ ")(" ++ parent ++ "))")

theorem construction?_of_kind? (hx : s.ast.kind? x = some (.instance_ i)) (hid : i.id = some id) :
    s.construction? x =
      some (s.text id, "new " ++ s.dotted i.name ++ i.arguments.elim "()" s.text) := by
  rw [construction?, hx]
  dsimp only
  rw [hid]
  rfl

section

variable (hx : s.ast.kind? x = some (.instance_ i)) (hid : i.id = some id)
  (hmem : x ∈ m.idComponents)

include hx hid hmem

theorem occurs_declarationHead (own : Option NodeId) :
    Occurs (s.constructionLine depth i id) (s.declarationHead m own depth) := by
  have hline : Occurs (s.constructionLine depth i id)
      (s.registerId depth (s.text id)
        ("new " ++ s.dotted i.name ++ i.arguments.elim "()" s.text)) :=
    (Text.occurs_self _).append_right.append_right
  unfold declarationHead
  apply Occurs.append_right
  apply Occurs.append_right
  apply Occurs.append_left
  refine hline.trans (Text.occurs_join (List.mem_map.mpr ⟨x, hmem, ?_⟩))
  rw [construction?_of_kind? hx hid]
  rfl

theorem constructs_declaration (hc : s.ast.kind? c = some (.declaration d)) (hm : d.members = m) :
    s.Constructs c i id := by
  intro convert depth
  refine ⟨s.classText convert c d depth, depth + 2, ?_, ?_⟩
  · rw [replacement?, hc]
  · unfold classText
    -- the text ends with the rest of the class
    iterate 6 apply Occurs.append_right
    apply Occurs.append_left
    rw [hm]
    exact occurs_declarationHead hx hid hmem d.id

theorem occurs_instanceHead {j : InstanceData} (hr : j.isRoot) (hm : j.members = m) :
    Occurs (s.constructionLine depth i id) (s.instanceHead j depth) := by
  unfold instanceHead
  apply Occurs.append_right
  apply Occurs.append_right
  apply Occurs.append_left
  rw [if_pos hr, hm]
  refine Text.occurs_join (List.mem_map.mpr ⟨x, hmem, ?_⟩)
  rw [construction?_of_kind? hx hid]
  rfl

theorem constructs_instance {j : InstanceData} (hc : s.ast.kind? c = some (.instance_ j))
    (hr : j.isRoot) (hm : j.members = m) : s.Constructs c i id := by
  intro convert depth
  refine ⟨s.instanceText convert c j depth, depth + 1, ?_, ?_⟩
  · rw [replacement?, hc]
  · unfold instanceText
    iterate 9 apply Occurs.append_right
    apply Occurs.append_left
    exact occurs_instanceHead hx hid hmem hr hm

end

/-- The object of a nested instance with an id is the one under the id, constructed or not. -/
theorem bindsTo_id (hx : s.ast.kind? x = some (.instance_ i)) (hid : i.id = some id)
    (hr : i.isRoot = false) : s.BindsTo x id := by
  intro convert depth
  have htarget : s.instanceTarget convert i = s.text id := by
    rw [instanceTarget, hid, hr]
  have hparent : (if s.hasEnclosingParent x then "this" else "null") = "this" ∨
      (if s.hasEnclosingParent x then "this" else "null") = "null" := by
    split
    · exact .inl rfl
    · exact .inr rfl
  have htext : s.replacement? convert x depth = some (s.instanceText convert x i depth) := by
    rw [replacement?, hx]
  rw [htext, instanceText, htarget]
  exact ⟨_, _, hparent, rfl⟩

end ScriptInput

namespace Ast

open Relation

variable {ast : Ast} {c e id x : NodeId} {i : InstanceData} {root : Cst.Tree} {name : String}

/-- A component that constructs the instances with ids that stand in it. -/
def IsHost (ast : Ast) (c : NodeId) : Prop :=
  (∃ d, ast.kind? c = some (.declaration d)) ∨ ∃ i, ast.kind? c = some (.instance_ i) ∧ i.isRoot

theorem Exposes.isHost (h : ast.Exposes c x) : TransGen ast.Up x c ∧ ast.IsHost c := by
  obtain ⟨p, hup, hshows, -⟩ := h
  rcases hshows with ⟨-, hu, hd⟩ | ⟨rfl, hi⟩
  · exact ⟨hup.tail hu, .inl hd⟩
  · exact ⟨hup, .inr hi⟩

theorem opened_of_above (hb : build root name = .ok ast) (hx : ast.Opened x)
    (hu : TransGen ast.Up x e) : ast.Opened e := by
  induction hu with
  | single hu => exact (housed_of_build hb hx hu).1
  | tail _ hu ih => exact (housed_of_build hb ih hu).1

theorem shows_of_isHost (hb : build root name = .ok ast) (hx : ast.kind? x = some (.instance_ i))
    (hu : TransGen ast.Up x e) (he : ast.IsHost e) : ∃ p, TransGen ast.Up x p ∧ ast.Shows p e := by
  rcases he with ⟨d, hd⟩ | hi
  · have hopen : ast.Opened x := isKind_iff.mpr ⟨_, hx, rfl⟩
    have hdecl : ast.isKind e NodeKind.isDeclaration := isKind_iff.mpr ⟨_, hd, rfl⟩
    obtain ⟨y, hxy, hye⟩ := TransGen.tail'_iff.mp hu
    -- what stands right below a declaration is a body, so it is not the instance
    rcases reflTransGen_iff_eq_or_transGen.mp hxy with rfl | hxy
    · cases hx.symm.trans ((housed_of_build hb hopen hye).2 hdecl)
    · have hbody := (housed_of_build hb (opened_of_above hb hopen hxy) hye).2 hdecl
      exact ⟨y, hxy, .inl ⟨hbody, hye, d, hd⟩⟩
  · exact ⟨e, hu, .inr ⟨rfl, hi⟩⟩

/-- The nearest host is the one that exposes an instance. -/
theorem exists_exposes (hb : build root name = .ok ast) (hx : ast.kind? x = some (.instance_ i))
    (hu : TransGen ast.Up x e) (he : ast.IsHost e) : ∃ c, ast.Exposes c x := by
  have hl := build_linked hb
  obtain ⟨p, hp, hshows⟩ := shows_of_isHost hb hx hu he
  have hfound : ((ast.ancestors x).findSome? ast.exposed?).isSome := by
    rw [List.findSome?_isSome_iff]
    exact ⟨p, (mem_ancestors hl).mpr hp, by rw [exposed?_eq_some.mpr hshows]; rfl⟩
  obtain ⟨c, hc⟩ := Option.isSome_iff_exists.mp hfound
  exact ⟨c, (findSome?_exposed? hl).mp hc⟩

structure IdInstance (ast : Ast) (x : NodeId) (i : InstanceData) (id : NodeId) : Prop where
  /-- It is listed if there is a component around it that can construct it. -/
  listed : (∃ c m, ast.members? c = some m ∧ x ∈ m.idComponents) ↔
    ∃ e, TransGen ast.Up x e ∧ ast.IsHost e
  /-- A component that lists it is of this sort and constructs it. -/
  constructed : ∀ c m, ast.members? c = some m → x ∈ m.idComponents →
    TransGen ast.Up x c ∧ ast.IsHost c ∧ ∀ s : ScriptInput, s.ast = ast → s.Constructs c i id
  /-- It is taken to be constructed, whether it is listed or not. -/
  bound : ∀ s : ScriptInput, s.ast = ast → s.BindsTo x id

theorem constructs_of_isHost {m : Members} (hc : ast.IsHost c) (hm : ast.members? c = some m)
    (hmem : x ∈ m.idComponents) (hx : ast.kind? x = some (.instance_ i)) (hid : i.id = some id)
    (s : ScriptInput) (hs : s.ast = ast) : s.Constructs c i id := by
  subst hs
  rcases hc with ⟨d, hd⟩ | ⟨j, hj, hr⟩
  · rw [members?, hd] at hm
    exact ScriptInput.constructs_declaration hx hid hmem hd (Option.some.inj hm)
  · rw [members?, hj] at hm
    exact ScriptInput.constructs_instance hx hid hmem hj hr (Option.some.inj hm)

theorem Classified.idInstance (h : ast.Classified) (hb : build root name = .ok ast)
    (hx : ast.kind? x = some (.instance_ i)) (hr : i.isRoot = false) (hid : i.id = some id) :
    ast.IdInstance x i id := by
  have hexposes {c : NodeId} {m : Members} (hm : ast.members? c = some m) :
      x ∈ m.idComponents ↔ ast.Exposes c x := by
    rw [(h.idComponents c m hm).2 x]
    constructor
    · rintro ⟨_, _, _, _, he⟩
      exact he
    · intro he
      exact ⟨i, hx, hr, by rw [hid]; rfl, he⟩
  refine ⟨⟨?_, ?_⟩, ?_, ?_⟩
  · rintro ⟨c, m, hm, hmem⟩
    exact ⟨c, ((hexposes hm).mp hmem).isHost⟩
  · rintro ⟨e, hu, he⟩
    obtain ⟨c, hc⟩ := exists_exposes hb hx hu he
    obtain ⟨m, hm⟩ := Option.isSome_iff_exists.mp (h.exposing x c hc).1
    exact ⟨c, m, hm, (hexposes hm).mpr hc⟩
  · intro c m hm hmem
    obtain ⟨hu, hc⟩ := ((hexposes hm).mp hmem).isHost
    exact ⟨hu, hc, constructs_of_isHost hc hm hmem hx hid⟩
  · rintro s rfl
    exact ScriptInput.bindsTo_id hx hid hr

/-- In every tree that is built, nested instances with ids are constructed exactly where a component
declaration or a root instance stands around them. -/
theorem build_idInstances {cst : Cst.Table} (ha : cst.Acyclic) (he : cst.ErrorFree)
    (name : String) : ∃ root ast, cst.tree? = some root ∧ build root name = .ok ast ∧
      ∀ x i id, ast.kind? x = some (.instance_ i) → i.isRoot = false → i.id = some id →
        ast.IdInstance x i id := by
  obtain ⟨root, ast, ht, hb⟩ := build_ok ha he name
  obtain ⟨log, h⟩ := build_logged hb
  refine ⟨root, ast, ht, hb, fun x i id hx hr hid => ?_⟩
  exact (h.classified (build_linked hb)).idInstance hb hx hr hid

section

open Cst (Sketch)

def hasNestedId (ast : Ast) (x : NodeId) : Bool :=
  ast.isKind x fun
    | .instance_ i => !i.isRoot && i.id.isSome
    | _ => false

theorem exists_of_hasNestedId (h : ast.hasNestedId x) :
    ∃ i id, ast.kind? x = some (.instance_ i) ∧ i.isRoot = false ∧ i.id = some id := by
  obtain ⟨k, hk, hi⟩ := isKind_iff.mp h
  cases k with
  | instance_ i =>
    rw [Bool.and_eq_true, Bool.not_eq_true'] at hi
    obtain ⟨id, hid⟩ := Option.isSome_iff_exists.mp hi.2
    exact ⟨i, id, hk, hi.1, hid⟩
  | _ => cases hi

theorem mixedMembers_idInstance : mixedMembers.Acyclic ∧ mixedMembers.ErrorFree ∧
    ∃ root ast i id, mixedMembers.tree? = some root ∧ build root "App" = .ok ast ∧
      ast.kind? 12 = some (.instance_ i) ∧ i.isRoot = false ∧ i.id = some id ∧
      ast.IdInstance 12 i id ∧ ∃ m, ast.members? 1 = some m ∧ 12 ∈ m.idComponents := by
  obtain ⟨root, ast, ht, hb, h⟩ :=
    build_idInstances mixedMembers_acyclic mixedMembers_errorFree "App"
  have hfacts : ast.hasNestedId 12 ∧ (ast.members? 1).any fun m => m.idComponents.contains 12 := by
    apply of_build_of_decide ht hb
    decide +kernel
  obtain ⟨hnested, hlisted⟩ := hfacts
  obtain ⟨m, hm, hmem⟩ := (Option.any_eq_true _ _).mp hlisted
  obtain ⟨i, id, hx, hr, hid⟩ := exists_of_hasNestedId hnested
  exact ⟨mixedMembers_acyclic, mixedMembers_errorFree, root, ast, i, id, ht, hb, hx, hr, hid,
    h 12 i id hx hr hid, m, hm, List.contains_iff_mem.mp hmem⟩

def variableInstance : Cst.Table :=
  let declarator := Sketch.node "variable_declarator" [wordSketch "w", .token "=",
    instanceSketch [wordSketch "B", idSketch "b", bodySketch []]]
  let sketch := Sketch.node "program" [.node "lexical_declaration" [.token "let", declarator]]
  (sketch.layout "let w = B #b \x7b \x7d").toOption.getD {}

theorem variableInstance_acyclic : variableInstance.Acyclic :=
  Cst.Table.acyclic_of_children_lt (by decide +kernel)

theorem variableInstance_errorFree : variableInstance.ErrorFree :=
  Cst.Table.errorFree_of_entries (by decide +kernel)

/-- The script takes the object under the id, and no component constructs it. -/
theorem variableInstance_unconstructed : ∃ root ast i id,
    variableInstance.tree? = some root ∧ build root "App" = .ok ast ∧
      ast.kind? 4 = some (.instance_ i) ∧ i.isRoot = false ∧ i.id = some id ∧
      (∀ c m, ast.members? c = some m → 4 ∉ m.idComponents) ∧
      ∀ s : ScriptInput, s.ast = ast → s.BindsTo 4 id := by
  obtain ⟨root, ast, ht, hb⟩ := build_ok variableInstance_acyclic variableInstance_errorFree "App"
  have hfacts : ast.hasNestedId 4 ∧ (List.range ast.size).all fun c =>
      (ast.members? c).all fun m => !m.idComponents.contains 4 := by
    apply of_build_of_decide ht hb
    decide +kernel
  obtain ⟨hnested, hnone⟩ := hfacts
  obtain ⟨i, id, hx, hr, hid⟩ := exists_of_hasNestedId hnested
  refine ⟨root, ast, i, id, ht, hb, hx, hr, hid, fun c m hm hmem => ?_, fun s hs => ?_⟩
  · obtain ⟨k, hk, -⟩ := Option.bind_eq_some_iff.mp hm
    have hc := List.all_eq_true.mp hnone c (List.mem_range.mpr (lt_size_of_kind? hk))
    rw [hm, Option.all_some, Bool.not_eq_true'] at hc
    exact Bool.eq_false_iff.mp hc (List.contains_iff_mem.mpr hmem)
  · subst hs
    exact ScriptInput.bindsTo_id hx hid hr

end

end Ast

end ComponentCompiler
