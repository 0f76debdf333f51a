import ComponentCompiler.Proofs.Ast.QuietSteps
import Mathlib.Data.Option.Basic

namespace ComponentCompiler

namespace NodeKind

/-- Whether the node is marked as a call of the base constructor, and the call that it keeps as a
constructor. -/
def superMark : NodeKind → Bool × Option NodeId
  | call isSuper => (isSuper, none)
  | callable _ f => (false, f.superCall)
  | _ => (false, none)

def isCall : NodeKind → Bool
  | call _ => true
  | _ => false

def isConstructor : NodeKind → Bool
  | callable .ctor _ => true
  | _ => false

def markSuper : NodeKind → NodeKind
  | call _ => call true
  | k => k

variable (k : NodeKind) {x : NodeId}

theorem isCall_shape : k.shape.isCall = k.isCall := by
  cases k <;> rfl

theorem isConstructor_shape : k.shape.isConstructor = k.isConstructor := by
  cases k with
  | callable form f => cases form <;> rfl
  | _ => rfl

@[simp] theorem superMark_mapDeclaration {f : DeclarationData → DeclarationData} :
    (k.mapDeclaration f).superMark = k.superMark := by
  cases k <;> rfl

@[simp] theorem superMark_mapInstance {f : InstanceData → InstanceData} :
    (k.mapInstance f).superMark = k.superMark := by
  cases k <;> rfl

@[simp] theorem superMark_mapMembers {f : Members → Members} :
    (k.mapMembers f).superMark = k.superMark := by
  cases k <;> rfl

@[simp] theorem superMark_mapProperty {f : PropertyData → PropertyData} :
    (k.mapProperty f).superMark = k.superMark := by
  cases k <;> rfl

@[simp] theorem superMark_mapAssignment {f : AssignmentData → AssignmentData} :
    (k.mapAssignment f).superMark = k.superMark := by
  cases k <;> rfl

@[simp] theorem superMark_mapTagged {f : TaggedData → TaggedData} :
    (k.mapTagged f).superMark = k.superMark := by
  cases k <;> rfl

@[simp] theorem superMark_withId : (k.withId x).superMark = k.superMark := by
  cases k <;> rfl

@[simp] theorem superMark_withBody : (k.withBody x).superMark = k.superMark := by
  cases k <;> rfl

@[simp] theorem superMark_withValue {v : PropertyValue} :
    (k.withValue v).superMark = k.superMark := by
  cases k <;> rfl

@[simp] theorem superMark_addBinding : (k.addBinding x).superMark = k.superMark := by
  cases k <;> rfl

@[simp] theorem superMark_mapFunction {f : FunctionData → FunctionData}
    (hf : ∀ d, (f d).superCall = d.superCall) : (k.mapFunction f).superMark = k.superMark := by
  cases k with
  | callable form d => exact congrArg (Prod.mk false) (hf d)
  | _ => rfl

theorem superMark_of_isLeaf {k : NodeKind} (h : k.isLeaf) : k.superMark = (false, none) := by
  cases k <;> first | rfl | cases h

theorem superMark_of_isWrapper {k : NodeKind} (h : k.isWrapper) : k.superMark = (false, none) := by
  cases k <;> first | rfl | cases h

end NodeKind

namespace Ast

open Cst (Tree)
open Relation

variable {a b ast : Ast} {o owner p start statement x y : NodeId} {kind : NodeKind} {span : Span}
  {f : NodeKind → NodeKind} {role : Role} {rule : Rule} {t : Tree} {ts : List Tree}

def superMark (ast : Ast) (x : NodeId) : Bool × Option NodeId :=
  (ast.kind? x).elim (false, none) NodeKind.superMark

theorem superMark_of_size_le (hx : ast.size ≤ x) : ast.superMark x = (false, none) := by
  rw [superMark, kind?_eq_none hx]
  rfl

theorem superMark_modifyKind (hf : ∀ k, a.kind? p = some k → (f k).superMark = k.superMark) :
    (a.modifyKind p f).superMark = a.superMark :=
  funext fun _ => view_modifyKind _ _ hf

@[simp] theorem superMark_note (hf : ∀ k : NodeKind, (f k).superMark = k.superMark) :
    (a.modifyKind p f).superMark = a.superMark :=
  superMark_modifyKind fun k _ => hf k

/-- What is read off the kinds of nodes does not change with a node of which the same is read as of
none. -/
theorem view_add {β : Type} (d : β) (v : NodeKind → β) (hv : v kind = d) :
    ((a.add kind span p).kind? x).elim d v = (a.kind? x).elim d v := by
  let pushed : Ast := { a with nodes := a.nodes.push (newNode kind span (some p)) }
  have hkind : (a.add kind span p).kind? x = pushed.kind? x := by
    change ((pushed.modify p _).node? x).map _ = (pushed.node? x).map _
    rw [node?_modify]
    split
    · rw [Option.map_map]
      rfl
    · rfl
  rw [hkind]
  simp only [pushed, kind?, node?, Array.getElem?_push]
  split
  · next hx =>
    rw [Array.getElem?_eq_none (Nat.le_of_eq hx.symm)]
    exact hv
  · rfl

theorem superMark_add (hk : kind.superMark = (false, none)) :
    (a.add kind span p).superMark = a.superMark :=
  funext fun _ => view_add _ _ hk

@[simp] theorem superMark_addName : (a.add .identifier span p).superMark = a.superMark :=
  superMark_add rfl

@[simp] theorem superMark_addParameterList :
    (a.add .formalParameters span p).superMark = a.superMark :=
  superMark_add rfl

theorem superMark_modifyScope {g : Scope → Scope} :
    (a.modifyScope start g).superMark = a.superMark := by
  unfold modifyScope
  split
  · rfl
  · next q _ =>
    change (a.editScope q g).superMark = a.superMark
    funext x
    rw [superMark, kind?_editScope]
    rfl

@[simp] theorem superMark_declare : (a.declare start x).superMark = a.superMark :=
  superMark_modifyScope

@[simp] theorem superMark_use : (a.use start x).superMark = a.superMark :=
  superMark_modifyScope

theorem view_foldl {α β γ : Type} {f : α → β → α} {v : α → γ} (hf : ∀ s y, v (f s y) = v s)
    (ys : List β) (s : α) : v (ys.foldl f s) = v s := by
  induction ys generalizing s with
  | nil => rfl
  | cons y rest ih => exact (ih (f s y)).trans (hf s y)

@[simp] theorem superMark_declareAll (xs : List NodeId) :
    (a.declareAll start xs).superMark = a.superMark :=
  view_foldl (v := superMark) (fun _ _ => superMark_declare) xs a

@[simp] theorem superMark_addAll (spans : List Span) :
    (a.addAll .identifier spans p).superMark = a.superMark :=
  view_foldl (v := superMark) (fun _ _ => superMark_add rfl) spans a

@[simp] theorem superMark_addMember (m : Members → Members) :
    (a.addMember p m).superMark = a.superMark := by
  unfold addMember
  split <;> simp

theorem superMark_enterImport : (a.enterImport owner t).superMark = a.superMark := by
  generalize hstate : t.children.foldl (addImportPart a.size)
    (a.addListed (.importStatement {}) t.span owner, {}) = state
  have hopen : (a.addListed (.importStatement {}) t.span owner).superMark = a.superMark :=
    superMark_add rfl
  have hparts : state.1.superMark = a.superMark := by
    rw [← hstate]
    refine (view_foldl (v := superMark ∘ Prod.fst) (fun state part => ?_) t.children _).trans hopen
    change (addImportPart a.size state part).1.superMark = state.1.superMark
    unfold addImportPart
    dsimp only
    split
    · split <;> simp
    · rfl
    · rw [superMark_addAll, superMark_add rfl]
    · rfl
  have he : a.enterImport owner t = state.1.modifyKind a.size fun _ =>
      .importStatement state.2 := by
    rw [← hstate]
    rfl
  rw [he, superMark_modifyKind, hparts]
  -- the statement had no mark before
  intro k hk
  have hnone := congrFun hparts a.size
  rw [superMark_of_size_le (Nat.le_refl a.size), superMark, hk] at hnone
  exact hnone.symm

theorem superMark_enterTypedParameters :
    (a.enterTypedParameters owner t).superMark = a.superMark := by
  unfold enterTypedParameters setParameters
  rw [superMark_note fun k => by simp]
  refine (view_foldl (v := superMark ∘ Prod.snd) (fun state pair => ?_) (typedPairs t) _).trans
    (superMark_add rfl)
  simp [addTypedParameter]

theorem superMark_enter (hr : rule.Suits a owner) (hs : ∀ st, rule ≠ .superCall st) :
    (enter rule owner t a).superMark = a.superMark := by
  cases rule with
  | skip | pass => rfl
  | leaf kind => exact superMark_add (NodeKind.superMark_of_isLeaf hr)
  | wrap kind => exact superMark_add (NodeKind.superMark_of_isWrapper hr)
  | superCall st => exact absurd rfl (hs st)
  | importStatement => exact superMark_enterImport
  | typedParameters => exact superMark_enterTypedParameters
  | declaration =>
    simp only [enter, enterDeclaration]
    split <;> exact superMark_add rfl
  | instance_ =>
    simp only [enter, enterInstance]
    split <;> exact superMark_add rfl
  | idAssignment =>
    simp only [enter, enterIdAssignment]
    split <;> simp
  | heritage =>
    simp only [enter, enterHeritage]
    rw [superMark_note fun k => by simp]
    split
    · rw [superMark_use, superMark_addAll, superMark_add rfl]
    · rw [superMark_addAll, superMark_add rfl]
  | explicitId =>
    simp only [enter, enterExplicitId]
    split <;> simp
  | boundName =>
    simp only [enter, enterBoundName]
    split <;> simp
  | typeSegment =>
    simp only [enter, enterTypeSegment]
    split <;> split <;> simp
  | callableName =>
    simp only [enter, enterCallableName]
    split <;> simp
  | value form =>
    cases form with
    | component =>
      simp only [enter, enterDeclaration]
      split <;> exact superMark_add rfl
    | expression | block => exact superMark_add rfl
  | declarationName outer => simp [enter, enterDeclarationName]
  | tag => simp [enter, enterTag]
  | propertyType => simp [enter, enterPropertyType]
  | propertyName => simp [enter, enterPropertyName]
  | assignmentPath => simp [enter, enterAssignmentPath]
  | parameters => simp [enter, enterParameters, addParameters, setParameters]
  | arrowParameters =>
    simp [enter, enterArrowParameters, addParameters, setParameters]
  | arrowParameter => simp [enter, enterArrowParameter]
  | tagText =>
    simp only [enter, enterTagText]
    rw [superMark_note fun k => by simp, superMark_add rfl]
  | callableBody =>
    simp only [enter, enterCallableBody]
    rw [superMark_note fun k => by simp, superMark_declareAll, superMark_add rfl]
  | declaredName | reference => simp [enter]
  | tagged | property | assignment | member | callable _ | arrow | call | newExpression
  | classDeclaration | variableList | declarator | body | argumentList | arrowBody =>
    exact superMark_add rfl

theorem superMark_leave (rule : Rule) (owner x : NodeId) (a : Ast) :
    (leave rule owner x a).superMark = a.superMark := by
  cases rule with
  | instance_ =>
    simp only [leave, leaveInstance]
    split
    · unfold exposeIdComponent
      split <;> simp
    · simp [addDefault]
    · rfl
  | tagged => simp [leave, addDefault]
  | property | assignment => simp [leave]
  | member =>
    simp only [leave, leaveMember]
    split
    · rfl
    · next receiver _ =>
      have huse : (if a.isKind receiver (· == .identifier) then a.use x receiver
          else a).superMark = a.superMark := by split <;> simp
      split
      · split
        · rw [superMark_note fun k => by simp, huse]
        · exact huse
      · exact huse
  | callable form =>
    simp only [leave, leaveCallable]
    split
    · unfold declareFunction
      split <;> simp
    · unfold keepConstructor
      split
      · simp
      · next q _ =>
        have hkeep : ((a.addMember owner (addToList .ctor x)).modifyKind q
            (.mapDeclaration fun d => { d with ctor := some x })).superMark = a.superMark := by
          simp
        dsimp only
        split <;> exact hkeep
    · simp
  | classDeclaration =>
    simp only [leave, leaveClass]
    split <;> simp
  | argumentList =>
    simp only [leave, leaveArguments]
    rw [superMark_note fun k => by simp]
    exact view_foldl (v := superMark) (fun _ _ => superMark_use) _ a
  | body | value form | arrowBody => simp [leave]
  | _ => rfl

theorem isKind_of_marked (h : (ast.superMark x).1) : ast.isKind x NodeKind.isCall := by
  unfold superMark at h
  cases hk : ast.kind? x with
  | none => simp [hk] at h
  | some k =>
    rw [hk, Option.elim_some] at h
    refine isKind_iff.mpr ⟨k, hk, ?_⟩
    cases k <;> first | rfl | cases h

theorem opened_of_marked (h : (ast.superMark x).1) : ast.Opened x := by
  obtain ⟨k, hk, hcall⟩ := isKind_iff.mp (isKind_of_marked h)
  refine isKind_iff.mpr ⟨k, hk, ?_⟩
  cases k <;> first | rfl | cases hcall

theorem constructorOf?_eq_some {c : NodeId} : ast.constructorOf? statement = some c ↔
    ast.kind? statement = some .expressionStatement ∧ ∃ block, ast.Up statement block ∧
      ast.kind? block = some .block ∧ ast.Up block c ∧ ast.isKind c NodeKind.isConstructor := by
  simp only [constructorOf?, Option.bind_eq_bind, Option.bind_eq_some_iff, Option.guard_eq_some',
    isKind_beq, Up, pure, Option.some.injEq]
  constructor
  · rintro ⟨_, hst, block, hblock, _, hkind, c, hc, _, hcons, rfl⟩
    exact ⟨hst, block, hblock, hkind, hc, hcons⟩
  · rintro ⟨hst, block, hblock, hkind, hc, hcons⟩
    exact ⟨⟨⟩, hst, block, hblock, ⟨⟩, hkind, c, hc, ⟨⟩, hcons, rfl⟩

/-- Marking a call hides no constructor. -/
theorem constructorOf?_marked {c : NodeId} :
    (a.modifyKind owner NodeKind.markSuper).constructorOf? statement = some c ↔
      a.constructorOf? statement = some c := by
  have hkind (q : NodeKind → Bool) (hq : ∀ b, q (.call b) = false) (x : NodeId) :
      (a.modifyKind owner NodeKind.markSuper).isKind x q = a.isKind x q :=
    isKind_modifyKind fun k => by cases k <;> simp [NodeKind.markSuper, hq]
  simp only [constructorOf?_eq_some, ← isKind_beq, up_modifyKind,
    hkind (· == .expressionStatement) fun _ => rfl, hkind (· == .block) fun _ => rfl,
    hkind NodeKind.isConstructor fun _ => rfl]

theorem superMark_marked (hk : a.isKind owner NodeKind.isCall) (y : NodeId) :
    (a.modifyKind owner NodeKind.markSuper).superMark y =
      ((a.superMark y).1 || y == owner, (a.superMark y).2) := by
  obtain ⟨k, hkind, hcall⟩ := isKind_iff.mp hk
  rw [superMark, kind?_modifyKind]
  split
  · next hy =>
    subst hy
    rw [superMark, hkind]
    cases k <;> cases hcall
    simp [NodeKind.markSuper, NodeKind.superMark]
  · next hy =>
    rw [beq_eq_false_iff_ne.mpr hy, Bool.or_false]
    rfl

theorem superMark_keep {c : NodeId} (hc : a.isKind c NodeKind.isConstructor) (y : NodeId) :
    (a.modifyKind c (.mapFunction fun f =>
      { f with superCall := f.superCall <|> some owner })).superMark y = ((a.superMark y).1,
        if c = y then (a.superMark y).2 <|> some owner else (a.superMark y).2) := by
  obtain ⟨k, hkind, hcons⟩ := isKind_iff.mp hc
  rw [superMark, kind?_modifyKind]
  by_cases hy : y = c
  · subst hy
    rw [if_pos rfl, if_pos rfl, superMark, hkind]
    cases k <;> first | rfl | cases hcons
  · rw [if_neg hy, if_neg (Ne.symm hy)]
    rfl

theorem superMark_enterSuperCall (hk : a.isKind owner NodeKind.isCall) (y : NodeId) :
    (a.enterSuperCall owner statement).superMark y = ((a.superMark y).1 || y == owner,
      if a.constructorOf? statement = some y then (a.superMark y).2 <|> some owner
      else (a.superMark y).2) := by
  unfold enterSuperCall
  generalize hb : a.modifyKind owner _ = b
  replace hb : a.modifyKind owner NodeKind.markSuper = b := hb
  have hmarked := hb ▸ superMark_marked hk y
  have hctor {c : NodeId} : b.constructorOf? statement = some c ↔
      a.constructorOf? statement = some c := hb ▸ constructorOf?_marked
  dsimp only
  split
  · next hnone =>
    have hno : a.constructorOf? statement ≠ some y := fun hy => by
      cases hnone.symm.trans (hctor.mpr hy)
    rw [hmarked, if_neg hno]
  · next c hc =>
    obtain ⟨-, _, -, -, -, hcons⟩ := constructorOf?_eq_some.mp hc
    rw [superMark_keep hcons, hmarked, hctor.mp hc]
    simp only [Option.some.injEq]

theorem superMark_visit (role : Role) (owner : NodeId) (head : Cst.Head) (slots : List Tree)
    (ast : Ast) : (visit role owner (.node head slots) ast).superMark =
      (match (Rule.ofRole role (Cst.Kind.ofName head.kind)).inside owner ast.size with
        | some (child, o) => visitAll child o slots
            (enter (Rule.ofRole role (Cst.Kind.ofName head.kind)) owner (.node head slots) ast)
        | none => enter (Rule.ofRole role (Cst.Kind.ofName head.kind)) owner (.node head slots)
            ast).superMark := by
  unfold visit
  exact superMark_leave _ _ _ _

end Ast

end ComponentCompiler
