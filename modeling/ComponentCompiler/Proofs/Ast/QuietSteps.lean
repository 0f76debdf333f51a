import ComponentCompiler.Proofs.Ast.LeavingOrder

namespace ComponentCompiler

namespace NodeKind

def leader? (children : List NodeId) : NodeKind → Option NodeId
  | heritage => children.head?
  | instance_ i => i.name.head?
  | _ => none

def declaredName? : NodeKind → Option NodeId
  | declaration d => d.name
  | _ => none

structure SameNames (k k' : NodeKind) : Prop where
  shape : k'.shape = k.shape
  leader : ∀ children, k'.leader? children = k.leader? children
  name : k'.declaredName? = k.declaredName?

variable {k : NodeKind} {x : NodeId}

theorem SameNames.refl (k : NodeKind) : k.SameNames k :=
  ⟨rfl, fun _ => rfl, rfl⟩

theorem sameNames_mapDeclaration {f : DeclarationData → DeclarationData}
    (hf : ∀ d, (f d).name = d.name) : k.SameNames (k.mapDeclaration f) := by
  cases k with
  | declaration d => exact ⟨rfl, fun _ => rfl, hf d⟩
  | _ => exact .refl _

theorem sameNames_mapInstance {f : InstanceData → InstanceData}
    (hf : ∀ i, (f i).name = i.name ∧ (f i).isRoot = i.isRoot) : k.SameNames (k.mapInstance f) := by
  cases k with
  | instance_ i =>
    obtain ⟨hn, hr⟩ := hf i
    refine ⟨?_, fun _ => ?_, rfl⟩
    · simp only [mapInstance, NodeKind.shape, hr]
    · simp only [mapInstance, leader?, hn]
  | _ => exact .refl _

theorem sameNames_mapMembers {f : Members → Members} : k.SameNames (k.mapMembers f) := by
  cases k <;> exact ⟨rfl, fun _ => rfl, rfl⟩

theorem sameNames_mapProperty {f : PropertyData → PropertyData} :
    k.SameNames (k.mapProperty f) := by
  cases k <;> exact ⟨rfl, fun _ => rfl, rfl⟩

theorem sameNames_mapAssignment {f : AssignmentData → AssignmentData} :
    k.SameNames (k.mapAssignment f) := by
  cases k <;> exact ⟨rfl, fun _ => rfl, rfl⟩

theorem sameNames_mapFunction {f : FunctionData → FunctionData} :
    k.SameNames (k.mapFunction f) := by
  cases k <;> exact ⟨rfl, fun _ => rfl, rfl⟩

theorem sameNames_mapTagged {f : TaggedData → TaggedData} : k.SameNames (k.mapTagged f) := by
  cases k <;> exact ⟨rfl, fun _ => rfl, rfl⟩

theorem sameNames_withId : k.SameNames (k.withId x) := by
  cases k <;> exact ⟨rfl, fun _ => rfl, rfl⟩

theorem sameNames_withBody : k.SameNames (k.withBody x) := by
  cases k <;> exact ⟨rfl, fun _ => rfl, rfl⟩

theorem sameNames_withValue {v : PropertyValue} : k.SameNames (k.withValue v) := by
  cases k <;> exact ⟨rfl, fun _ => rfl, rfl⟩

theorem sameNames_addBinding : k.SameNames (k.addBinding x) := by
  cases k <;> exact ⟨rfl, fun _ => rfl, rfl⟩

theorem isInstance_shape (k : NodeKind) : k.shape.isInstance = k.isInstance := by
  cases k <;> rfl

theorem leader?_congr (hk : k ≠ heritage) (cs cs' : List NodeId) : k.leader? cs = k.leader? cs' := by
  cases k with
  | heritage => exact absurd rfl hk
  | _ => rfl

theorem Bare.leader? (h : k.Bare) : k.leader? [] = none := by
  rw [← show k.shape = k from h]
  cases k <;> rfl

theorem Bare.declaredName? (h : k.Bare) : k.declaredName? = none := by
  rw [← show k.shape = k from h]
  cases k <;> rfl

end NodeKind

namespace Ast

open Cst (Tree)

variable {a b c ast : Ast} {o owner p start x : NodeId} {kind : NodeKind} {span : Span}
  {f : NodeKind → NodeKind} {rule : Rule} {t : Tree}

def leader? (ast : Ast) (p : NodeId) : Option NodeId :=
  (ast.kind? p).elim none (NodeKind.leader? (ast.children p))

def declaredName? (ast : Ast) (p : NodeId) : Option NodeId :=
  (ast.kind? p).elim none NodeKind.declaredName?

/-- From `a` to `b` the tree is built on without types, names of declarations or exports. -/
structure Quiet (a b : Ast) : Prop where
  extension : a.Extends b
  used : ∀ o, ∀ x ∈ a.used o, x ∈ b.used o
  declared : ∀ o, ∀ x ∈ a.declared o, x ∈ b.declared o
  leader : ∀ p, b.leader? p = a.leader? p
  name : ∀ p, b.declaredName? p = a.declaredName? p
  exports : b.exports = a.exports

theorem Quiet.refl (a : Ast) : Quiet a a :=
  ⟨.refl a, fun _ _ => id, fun _ _ => id, fun _ => rfl, fun _ => rfl, rfl⟩

theorem Quiet.trans (h : Quiet a b) (h' : Quiet b c) : Quiet a c :=
  ⟨h.extension.trans h'.extension, fun o x hx => h'.used o x (h.used o x hx),
    fun o x hx => h'.declared o x (h.declared o x hx), fun p => (h'.leader p).trans (h.leader p),
    fun p => (h'.name p).trans (h.name p), h'.exports.trans h.exports⟩

theorem kind?_eq_none (hx : ast.size ≤ x) : ast.kind? x = none := by
  rw [kind?, node?_eq_none hx]
  rfl

theorem children_eq_nil (hx : ast.size ≤ x) : ast.children x = [] := by
  rw [children, node?_eq_none hx]
  rfl

theorem kind?_add_of_lt (kind : NodeKind) (span : Span) (hg : kind.group ≠ .importStatement)
    (hp : p < a.size) (hx : x < a.size) : (a.add kind span p).kind? x = a.kind? x := by
  rw [← addListed_eq_add hg, kind?_addListed hp, if_neg (Nat.ne_of_lt hx)]

theorem leader?_addListed {q : NodeId} (hb : kind.Bare) (hp : p < a.size)
    (hq : q = p → a.kind? p ≠ some .heritage) :
    (a.addListed kind span p).leader? q = a.leader? q := by
  rw [leader?, leader?, kind?_addListed hp, children_addListed hp]
  by_cases hnew : q = a.size
  · subst hnew
    rw [if_pos rfl, if_neg (Nat.ne_of_gt hp), kind?_eq_none (Nat.le_refl _),
      children_eq_nil (Nat.le_refl _)]
    exact hb.leader?
  · rw [if_neg hnew]
    split
    · next hqp =>
      cases hk : a.kind? q with
      | none => rfl
      | some k => exact NodeKind.leader?_congr (fun he => hq hqp (by rw [← hqp, hk, he])) _ _
    · rfl

theorem declaredName?_addListed {q : NodeId} (hb : kind.Bare) (hp : p < a.size) :
    (a.addListed kind span p).declaredName? q = a.declaredName? q :=
  view_addListed none _ hp hb.declaredName?

theorem exports_addListed : (a.addListed kind span p).exports = a.exports := by
  unfold addListed
  split <;> rfl

theorem quiet_addListed (hb : kind.Bare) (hp : p < a.size) (hh : a.kind? p ≠ some .heritage) :
    Quiet a (a.addListed kind span p) := by
  refine ⟨extends_addListed hp, fun o x hx => ?_, fun o x hx => ?_, fun q => ?_, fun q => ?_, ?_⟩
  · rwa [used_addListed hp]
  · rwa [declared_addListed hp]
  · exact leader?_addListed hb hp fun _ => hh
  · exact declaredName?_addListed hb hp
  · exact exports_addListed

theorem quiet_add (hb : kind.Bare) (hg : kind.group ≠ .importStatement) (hp : p < a.size)
    (hh : a.kind? p ≠ some .heritage) : Quiet a (a.add kind span p) :=
  addListed_eq_add hg ▸ quiet_addListed hb hp hh

theorem quiet_leaf (hk : kind.isLeaf) (hp : p < a.size) (hh : a.kind? p ≠ some .heritage) :
    Quiet a (a.add kind span p) :=
  quiet_add (NodeKind.bare_of_isLeaf hk) (group_of_isLeaf hk) hp hh

theorem children_modifyKind : (a.modifyKind p f).children x = a.children x :=
  observe_modify (fun n => n.children) [] fun _ _ => rfl

theorem leader?_modifyKind (hx : x ≠ p) : (a.modifyKind p f).leader? x = a.leader? x := by
  rw [leader?, leader?, children_modifyKind, kind?_modifyKind, if_neg hx]

theorem declaredName?_modifyKind (hx : x ≠ p) :
    (a.modifyKind p f).declaredName? x = a.declaredName? x := by
  rw [declaredName?, declaredName?, kind?_modifyKind, if_neg hx]

theorem quiet_modifyKind (hf : ∀ k, a.kind? p = some k → k.SameNames (f k)) :
    Quiet a (a.modifyKind p f) := by
  refine ⟨extends_modifyKind fun k hk => (hf k hk).shape, fun o x hx => ?_, fun o x hx => ?_,
    fun q => ?_, fun q => ?_, rfl⟩
  · rwa [used_modifyKind]
  · rwa [declared, scope?_modifyKind]
  · rw [leader?, leader?, children_modifyKind]
    exact view_modifyKind none _ fun k hk => (hf k hk).leader _
  · exact view_modifyKind none _ fun k hk => (hf k hk).name

/-- Scopes say nothing of types and names, so only what scopes hold must not get lost. -/
theorem quiet_modifyScope {g : Scope → Scope} (hu : ∀ s, ∀ x ∈ s.used, x ∈ (g s).used)
    (hd : ∀ s, ∀ x ∈ s.declarations, x ∈ (g s).declarations) :
    Quiet a (a.modifyScope start g) := by
  unfold modifyScope
  split
  · exact .refl a
  · next q _ =>
    change Quiet a (a.editScope q g)
    have hchildren (p : NodeId) : (a.editScope q g).children p = a.children p :=
      observe_modify (fun n => n.children) [] fun _ _ => rfl
    refine ⟨extends_editScope, fun o x hx => ?_, fun o x hx => ?_, fun p => ?_, fun p => ?_, rfl⟩
    · unfold Ast.used at hx ⊢
      rw [scope?_editScope]
      split
      · cases hs : a.scope? o with
        | none => simp [hs] at hx
        | some s => exact hu s x (by simpa [hs] using hx)
      · exact hx
    · unfold Ast.declared at hx ⊢
      rw [scope?_editScope]
      split
      · cases hs : a.scope? o with
        | none => simp [hs] at hx
        | some s => exact hd s x (by simpa [hs] using hx)
      · exact hx
    · rw [leader?, leader?, kind?_editScope, hchildren]
    · rw [declaredName?, declaredName?, kind?_editScope]

theorem quiet_declare (start x : NodeId) : Quiet a (a.declare start x) :=
  quiet_modifyScope (fun _ _ => id) fun _ _ => List.mem_append_left _

theorem quiet_use (start x : NodeId) : Quiet a (a.use start x) :=
  quiet_modifyScope (fun _ _ => List.mem_append_left _) fun _ _ => id

theorem quiet_foldl {α : Type} {g : Ast → α → Ast} (hg : ∀ ast x, Quiet ast (g ast x))
    (xs : List α) (ast : Ast) : Quiet ast (xs.foldl g ast) := by
  induction xs generalizing ast with
  | nil => exact .refl ast
  | cons x rest ih => exact (hg ast x).trans (ih (g ast x))

theorem quiet_declareAll (start : NodeId) (xs : List NodeId) : Quiet a (a.declareAll start xs) :=
  quiet_foldl (fun _ x => quiet_declare start x) xs a

theorem quiet_addMember (m : Members → Members) : Quiet a (a.addMember p m) := by
  unfold addMember
  split
  · exact .refl a
  · exact quiet_modifyKind fun _ _ => NodeKind.sameNames_mapMembers

theorem Extends.not_heritage (h : a.Extends b) (hx : x < a.size)
    (hh : a.kind? x ≠ some .heritage) : b.kind? x ≠ some .heritage := by
  rw [Ne, ← isKind_beq] at hh ⊢
  rwa [h.isKind_eq (fun k => by cases k <;> rfl) hx]

theorem quiet_addAll (hp : p < a.size) (hh : a.kind? p ≠ some .heritage) (spans : List Span) :
    Quiet a (a.addAll .identifier spans p) := by
  induction spans generalizing a with
  | nil => exact .refl a
  | cons span rest ih =>
    have hadd : Quiet a (a.add .identifier span p) := quiet_leaf rfl hp hh
    have hext := hadd.extension
    exact hadd.trans (ih (Nat.lt_of_lt_of_le hp hext.size_le) (hext.not_heritage hp hh))

theorem quiet_list (kind : NodeKind) (hk : kind.isLeaf) (hne : kind ≠ .heritage) (hp : p < a.size)
    (hh : a.kind? p ≠ some .heritage) (spans : List Span) :
    Quiet a ((a.add kind span p).addAll .identifier spans a.size) := by
  have hlist : (a.add kind span p).kind? a.size ≠ some .heritage := by
    rw [kind?_add_self (group_of_isLeaf hk) hp]
    exact fun he => hne (Option.some.inj he)
  exact (quiet_leaf hk hp hh).trans (quiet_addAll (by simp) hlist spans)

theorem quiet_foldl_addTypedParameter (list : NodeId) (pairs : List (Tree × Tree))
    (state : List Parameter × Ast) (hlt : list < state.2.size)
    (hh : state.2.kind? list ≠ some .heritage) :
    Quiet state.2 (pairs.foldl (addTypedParameter list) state).2 := by
  induction pairs generalizing state with
  | nil => exact .refl _
  | cons pair rest ih =>
    obtain ⟨params, ast⟩ := state
    have htype : Quiet ast (ast.add .identifier pair.1.span list) := quiet_leaf rfl hlt hh
    have hname : Quiet (ast.add .identifier pair.1.span list)
        ((ast.add .identifier pair.1.span list).add .identifier pair.2.span list) :=
      quiet_leaf rfl (Nat.lt_of_lt_of_le hlt htype.extension.size_le)
        (htype.extension.not_heritage hlt hh)
    have hext := (htype.trans hname).extension
    have hrest := ih (addTypedParameter list (params, ast) pair)
      (Nat.lt_of_lt_of_le hlt hext.size_le) (hext.not_heritage hlt hh)
    exact (htype.trans hname).trans hrest

theorem quiet_foldl_addImportPart (id : NodeId) (parts : List Tree) (state : Ast × ImportData)
    (hlt : id < state.1.size) (hh : state.1.kind? id ≠ some .heritage) :
    Quiet state.1 (parts.foldl (addImportPart id) state).1 := by
  induction parts generalizing state with
  | nil => exact .refl _
  | cons part rest ih =>
    obtain ⟨ast, data⟩ := state
    have hstep : Quiet ast (addImportPart id (ast, data) part).1 := by
      dsimp only [addImportPart]
      split
      · split
        · exact quiet_leaf rfl hlt hh
        · exact .refl ast
      · exact .refl ast
      · exact quiet_list .importPath rfl nofun hlt hh _
      · exact .refl ast
    have hext := hstep.extension
    have hrest := ih (addImportPart id (ast, data) part)
      (Nat.lt_of_lt_of_le hlt hext.size_le) (hext.not_heritage hlt hh)
    exact hstep.trans hrest

theorem Opened.not_heritage (h : ast.Opened x) : ast.kind? x ≠ some .heritage := by
  intro hk
  rw [Opened, isKind, hk] at h
  cases h

section

variable (ho : owner < a.size) (hh : a.kind? owner ≠ some .heritage)

include ho hh

theorem quiet_part (hk : kind.isLeaf) (hf : ∀ k : NodeKind, k.SameNames (f k)) :
    Quiet a ((a.add kind span owner).modifyKind owner f) :=
  (quiet_leaf hk ho hh).trans (quiet_modifyKind fun k _ => hf k)

theorem quiet_identify :
    Quiet a (((a.add .identifier span owner).modifyKind owner (.withId a.size)).declare owner
      a.size) :=
  (quiet_part ho hh rfl fun _ => NodeKind.sameNames_withId).trans (quiet_declare _ _)

theorem quiet_enterExplicitId : Quiet a (a.enterExplicitId owner t) := by
  unfold enterExplicitId
  split
  · exact .refl a
  · exact quiet_identify ho hh

theorem quiet_enterBoundName : Quiet a (a.enterBoundName owner t) := by
  unfold enterBoundName
  split
  · exact .refl a
  · exact quiet_part ho hh rfl fun _ => NodeKind.sameNames_mapInstance fun _ => ⟨rfl, rfl⟩

theorem quiet_enterCallableName : Quiet a (a.enterCallableName owner t) := by
  unfold enterCallableName
  split
  · exact .refl a
  · exact quiet_part ho hh rfl fun _ => NodeKind.sameNames_mapFunction

theorem quiet_addParameters : Quiet a (a.addParameters owner t).2 :=
  quiet_list .formalParameters rfl nofun ho hh _

theorem quiet_enterTypedParameters : Quiet a (a.enterTypedParameters owner t) := by
  have hopen : Quiet a (a.add .formalParameters t.span owner) := quiet_leaf rfl ho hh
  have hlist : (a.add .formalParameters t.span owner).kind? a.size = some .formalParameters :=
    kind?_add_self nofun ho
  have hparams := quiet_foldl_addTypedParameter a.size (typedPairs t)
    ([], a.add .formalParameters t.span owner) (by simp) (by rw [hlist]; nofun)
  exact (hopen.trans hparams).trans (quiet_modifyKind fun _ _ => NodeKind.sameNames_mapFunction)

theorem quiet_enterImport : Quiet a (a.enterImport owner t) := by
  generalize hstate : t.children.foldl (addImportPart a.size)
    (a.addListed (.importStatement {}) t.span owner, {}) = state
  have hopen : Quiet a (a.addListed (.importStatement {}) t.span owner) :=
    quiet_addListed rfl ho hh
  have hkind : (a.addListed (.importStatement {}) t.span owner).kind? a.size =
      some (.importStatement {}) := by rw [kind?_addListed ho, if_pos rfl]
  have hparts := quiet_foldl_addImportPart a.size t.children
    (a.addListed (.importStatement {}) t.span owner, {}) (by simp) (by rw [hkind]; nofun)
  rw [hstate] at hparts
  have he : a.enterImport owner t = state.1.modifyKind a.size fun _ =>
      .importStatement state.2 := by
    rw [← hstate]
    rfl
  rw [he]
  refine (hopen.trans hparts).trans (quiet_modifyKind fun k hk => ?_)
  -- the statement is of the kind that it was opened with
  have hshape := hparts.extension.shape?_eq_some (x := a.size) (k := .importStatement {})
    (by rw [shape?, hkind]; rfl)
  rw [shape?, hk] at hshape
  cases k <;> cases hshape
  exact ⟨rfl, fun _ => rfl, rfl⟩

theorem quiet_enterCallableBody : Quiet a (a.enterCallableBody owner t) := by
  have hopen : Quiet a (a.add .block t.span owner) := quiet_add rfl nofun ho hh
  exact (hopen.trans (quiet_declareAll _ _)).trans
    (quiet_modifyKind fun _ _ => NodeKind.sameNames_mapFunction)

end

theorem quiet_enterIdAssignment : Quiet a (a.enterIdAssignment p t) := by
  unfold enterIdAssignment
  split
  · next owner _ hb _ =>
    refine quiet_identify (lt_size_of_bodyOwner? hb) fun hk => ?_
    obtain ⟨-, -, hm⟩ := bodyOwner?_eq_some.mp hb
    rw [isKind, hk] at hm
    cases hm
  · exact .refl a

theorem quiet_enterSuperCall {statement : NodeId} : Quiet a (a.enterSuperCall p statement) := by
  unfold enterSuperCall
  dsimp only
  generalize hf : (fun k : NodeKind => _) = f
  have hmark : Quiet a (a.modifyKind p f) := by
    refine quiet_modifyKind fun k _ => ?_
    rw [← hf]
    cases k <;> exact ⟨rfl, fun _ => rfl, rfl⟩
  split
  · exact hmark
  · exact hmark.trans (quiet_modifyKind fun _ _ => NodeKind.sameNames_mapFunction)

theorem quiet_leaveInstance : Quiet a (a.leaveInstance p x) := by
  unfold leaveInstance
  split
  · unfold exposeIdComponent
    split
    · exact .refl a
    · refine ((quiet_modifyKind fun _ _ => NodeKind.sameNames_mapMembers).trans
        (quiet_modifyKind fun _ _ => ?_)).trans (quiet_declare _ _)
      exact NodeKind.sameNames_mapInstance fun _ => ⟨rfl, rfl⟩
  · exact quiet_addMember _
  · exact .refl a

theorem quiet_leaveMember : Quiet a (a.leaveMember x) := by
  unfold leaveMember
  split
  · exact .refl a
  · next receiver _ =>
    dsimp only
    have huse : Quiet a
        (if a.isKind receiver (· == .identifier) then a.use x receiver else a) :=
      iteInduction (motive := Quiet a) (fun _ => quiet_use _ _) fun _ => .refl a
    split
    · split
      · exact huse.trans (quiet_modifyKind fun _ _ => NodeKind.sameNames_addBinding)
      · exact huse
    · exact huse

theorem quiet_leaveCallable {form : Callable} : Quiet a (a.leaveCallable form p x) := by
  have hlist : Quiet a (a.addMember p (addToList form x)) := quiet_addMember _
  unfold leaveCallable
  dsimp only
  split
  · refine hlist.trans ?_
    unfold declareFunction
    split
    · exact quiet_declare _ _
    · exact .refl _
  · refine hlist.trans ?_
    unfold keepConstructor
    split
    · exact .refl _
    · next owner _ =>
      have hkeep : Quiet (a.addMember p (addToList .ctor x)) _ :=
        quiet_modifyKind (p := owner) (f := .mapDeclaration fun d => { d with ctor := some x })
          fun _ _ => NodeKind.sameNames_mapDeclaration fun _ => rfl
      dsimp only
      split
      · exact hkeep
      · exact hkeep.trans ⟨extends_of_nodes rfl rfl, fun _ _ => id, fun _ _ => id, fun _ => rfl,
          fun _ => rfl, rfl⟩
  · exact hlist

theorem quiet_leaveArguments : Quiet a (a.leaveArguments p x) :=
  (quiet_foldl (fun _ ident => quiet_use x ident) _ a).trans
    (quiet_modifyKind fun _ _ => NodeKind.sameNames_mapInstance fun _ => ⟨rfl, rfl⟩)

theorem quiet_leave (rule : Rule) (owner id : NodeId) (a : Ast) :
    Quiet a (leave rule owner id a) := by
  cases rule with
  | instance_ => exact quiet_leaveInstance
  | tagged | property | assignment => exact quiet_addMember _
  | member => exact quiet_leaveMember
  | callable form => exact quiet_leaveCallable
  | classDeclaration =>
    change Quiet a (a.leaveClass owner id)
    unfold leaveClass
    split
    · exact quiet_declare _ _
    · exact .refl a
  | body => exact quiet_modifyKind fun _ _ => NodeKind.sameNames_withBody
  | argumentList => exact quiet_leaveArguments
  | value form => exact quiet_modifyKind fun _ _ => NodeKind.sameNames_withValue
  | arrowBody => exact quiet_modifyKind fun _ _ => NodeKind.sameNames_mapFunction
  | _ => exact .refl a

def Rule.isNaming : Rule → Bool
  | declaration | value .component | instance_ | heritage | typeSegment | declarationName _ => true
  | _ => false

theorem quiet_enter (hr : rule.Suits a owner) (ho : owner < a.size)
    (hh : a.kind? owner ≠ some .heritage) (hn : rule.isNaming = false) :
    Quiet a (enter rule owner t a) := by
  cases rule with
  | skip | pass => exact .refl a
  | leaf kind => exact quiet_leaf hr ho hh
  | wrap kind =>
    exact quiet_add (NodeKind.bare_of_isWrapper hr) (NodeKind.group_of_isWrapper hr) ho hh
  | importStatement => exact quiet_enterImport ho hh
  | idAssignment => exact quiet_enterIdAssignment
  | explicitId => exact quiet_enterExplicitId ho hh
  | boundName => exact quiet_enterBoundName ho hh
  | tag =>
    exact ((quiet_leaf rfl ho hh).trans (quiet_use _ _)).trans
      (quiet_modifyKind fun _ _ => NodeKind.sameNames_mapTagged)
  | tagText => exact quiet_part ho hh rfl fun _ => NodeKind.sameNames_mapTagged
  | propertyType | propertyName =>
    exact quiet_part ho hh rfl fun _ => NodeKind.sameNames_mapProperty
  | assignmentPath =>
    exact (quiet_addAll ho hh _).trans
      (quiet_modifyKind fun _ _ => NodeKind.sameNames_mapAssignment)
  | callableName => exact quiet_enterCallableName ho hh
  | parameters =>
    exact (quiet_addParameters ho hh).trans
      (quiet_modifyKind fun _ _ => NodeKind.sameNames_mapFunction)
  | typedParameters => exact quiet_enterTypedParameters ho hh
  | callableBody => exact quiet_enterCallableBody ho hh
  | arrowParameters =>
    exact ((quiet_addParameters ho hh).trans (quiet_declareAll _ _)).trans
      (quiet_modifyKind fun _ _ => NodeKind.sameNames_mapFunction)
  | arrowParameter =>
    exact ((quiet_leaf rfl ho hh).trans (quiet_declare _ _)).trans
      (quiet_modifyKind fun _ _ => NodeKind.sameNames_mapFunction)
  | superCall statement => exact quiet_enterSuperCall
  | declaredName => exact (quiet_leaf rfl ho hh).trans (quiet_declare _ _)
  | reference => exact (quiet_leaf rfl ho hh).trans (quiet_use _ _)
  | value form =>
    cases form with
    | component => cases hn
    | expression | block => exact quiet_add rfl nofun ho hh
  | tagged | property | assignment | member | callable _ | arrow | call | newExpression
  | classDeclaration | variableList | declarator | body | argumentList | arrowBody =>
    exact quiet_add rfl nofun ho hh
  | declaration | instance_ | heritage | typeSegment | declarationName _ => cases hn

end Ast

end ComponentCompiler
