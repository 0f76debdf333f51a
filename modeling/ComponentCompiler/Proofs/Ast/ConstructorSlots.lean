import ComponentCompiler.Proofs.Ast.Members
import ComponentCompiler.Proofs.Ast.Moments
import ComponentCompiler.Proofs.Ast.SuperMarks

namespace ComponentCompiler

def NodeKind.ctor? : NodeKind → Option NodeId
  | declaration d => d.ctor
  | _ => none

namespace Ast

open Cst (Tree)

variable {a b ast : Ast} {d o owner p start x : NodeId} {kind : NodeKind} {span : Span}
  {f : NodeKind → NodeKind} {rule : Rule} {t : Tree}

def ctor? (ast : Ast) (d : NodeId) : Option NodeId :=
  (ast.kind? d).elim none NodeKind.ctor?

/-- The constructors of all declarations, and what was reported. -/
@[ext] structure Ledger where
  ctor? : NodeId → Option NodeId
  diagnostics : List Diagnostic

def ledger (ast : Ast) : Ledger :=
  ⟨ast.ctor?, ast.diagnostics⟩

theorem ledger_modifyKind (hf : ∀ k, a.kind? p = some k → (f k).ctor? = k.ctor?) :
    (a.modifyKind p f).ledger = a.ledger :=
  Ledger.ext (funext fun _ => view_modifyKind _ _ hf) rfl

theorem ledger_note (hf : ∀ k : NodeKind, (f k).ctor? = k.ctor? := by intro k; cases k <;> rfl) :
    (a.modifyKind p f).ledger = a.ledger :=
  ledger_modifyKind fun k _ => hf k

theorem ledger_add (hk : kind.ctor? = none := by rfl) :
    (a.add kind span p).ledger = a.ledger :=
  Ledger.ext (funext fun _ => view_add _ _ hk) rfl

theorem ledger_modifyScope {g : Scope → Scope} : (a.modifyScope start g).ledger = a.ledger := by
  unfold modifyScope
  split
  · rfl
  · next q _ =>
    refine Ledger.ext (funext fun x => ?_) rfl
    change ((a.editScope q g).kind? x).elim none _ = (a.kind? x).elim none _
    rw [kind?_editScope]

theorem ledger_declareAll (xs : List NodeId) : (a.declareAll start xs).ledger = a.ledger :=
  view_foldl (v := ledger) (fun _ _ => ledger_modifyScope) xs a

theorem ledger_addAll (spans : List Span) :
    (a.addAll .identifier spans p).ledger = a.ledger :=
  view_foldl (v := ledger) (fun _ _ => ledger_add) spans a

theorem ledger_addMember (m : Members → Members) : (a.addMember p m).ledger = a.ledger := by
  unfold addMember
  split
  · rfl
  · exact ledger_note

theorem ledger_enterDeclaration : (a.enterDeclaration owner t).ledger = a.ledger := by
  unfold enterDeclaration
  dsimp only
  split
  · exact ledger_add
  · exact ledger_add

theorem ledger_enterImport : (a.enterImport owner t).ledger = a.ledger := by
  generalize hstate : t.children.foldl (addImportPart a.size)
    (a.addListed (.importStatement {}) t.span owner, {}) = state
  have hopen : (a.addListed (.importStatement {}) t.span owner).ledger = a.ledger := ledger_add
  have hparts : state.1.ledger = a.ledger := by
    rw [← hstate]
    refine (view_foldl (v := ledger ∘ Prod.fst) (fun state part => ?_) t.children _).trans hopen
    change (addImportPart a.size state part).1.ledger = state.1.ledger
    unfold addImportPart
    dsimp only
    split
    · split
      · exact ledger_add
      · rfl
    · rfl
    · exact .trans (ledger_addAll _) ledger_add
    · rfl
  have he : a.enterImport owner t = state.1.modifyKind a.size fun _ =>
      .importStatement state.2 := by
    rw [← hstate]
    rfl
  rw [he, ← hparts]
  refine ledger_modifyKind fun k hk => ?_
  -- the statement is no declaration, since there was no such node before
  have hnone : state.1.ctor? a.size = a.ctor? a.size := congrFun (congrArg Ledger.ctor? hparts) a.size
  rw [ctor?, ctor?, hk, kind?_eq_none (Nat.le_refl a.size)] at hnone
  exact hnone.symm

theorem ledger_enterSuperCall {statement : NodeId} :
    (a.enterSuperCall owner statement).ledger = a.ledger := by
  unfold enterSuperCall
  dsimp only
  split
  · exact ledger_note
  · exact .trans ledger_note ledger_note

theorem ledger_enterTypedParameters : (a.enterTypedParameters owner t).ledger = a.ledger := by
  refine .trans ledger_note ?_
  refine (view_foldl (v := ledger ∘ Prod.snd) (fun state pair => ?_) (typedPairs t) _).trans
    ledger_add
  exact .trans ledger_add ledger_add

theorem ledger_identify : (((a.add .identifier span owner).modifyKind owner
    (.withId x)).declare owner x).ledger = a.ledger :=
  .trans ledger_modifyScope (.trans ledger_note ledger_add)

theorem ledger_enter (hr : rule.Suits a owner) : (enter rule owner t a).ledger = a.ledger := by
  cases rule with
  | skip | pass => rfl
  | leaf kind =>
    refine ledger_add ?_
    cases kind <;> first | rfl | cases hr
  | wrap kind =>
    refine ledger_add ?_
    cases kind <;> first | rfl | cases hr
  | importStatement => exact ledger_enterImport
  | typedParameters => exact ledger_enterTypedParameters
  | declaration => exact ledger_enterDeclaration
  | instance_ =>
    simp only [enter, enterInstance]
    split
    · exact ledger_add
    · exact ledger_add
  | idAssignment =>
    simp only [enter, enterIdAssignment]
    split
    · exact ledger_identify
    · rfl
  | explicitId =>
    simp only [enter, enterExplicitId]
    split
    · rfl
    · exact ledger_identify
  | heritage =>
    simp only [enter, enterHeritage]
    refine .trans ledger_note ?_
    split
    · exact .trans ledger_modifyScope (.trans (ledger_addAll _) ledger_add)
    · exact .trans (ledger_addAll _) ledger_add
  | boundName =>
    simp only [enter, enterBoundName]
    split
    · rfl
    · exact .trans ledger_note ledger_add
  | typeSegment =>
    simp only [enter, enterTypeSegment]
    split
    · split
      · exact .trans ledger_modifyScope (.trans ledger_note ledger_add)
      · exact .trans ledger_note ledger_add
    · exact .trans ledger_note ledger_add
  | callableName =>
    simp only [enter, enterCallableName]
    split
    · rfl
    · exact .trans ledger_note ledger_add
  | value form =>
    cases form with
    | component => exact ledger_enterDeclaration
    | expression | block => exact ledger_add
  | superCall st => exact ledger_enterSuperCall
  | declarationName outer => exact .trans ledger_modifyScope (.trans ledger_note ledger_add)
  | tag => exact .trans ledger_note (.trans ledger_modifyScope ledger_add)
  | propertyType | propertyName | tagText => exact .trans ledger_note ledger_add
  | assignmentPath => exact .trans ledger_note (ledger_addAll _)
  | parameters => exact .trans ledger_note (.trans (ledger_addAll _) ledger_add)
  | arrowParameters =>
    exact .trans ledger_note (.trans (ledger_declareAll _) (.trans (ledger_addAll _) ledger_add))
  | arrowParameter => exact .trans ledger_note (.trans ledger_modifyScope ledger_add)
  | callableBody => exact .trans ledger_note (.trans (ledger_declareAll _) ledger_add)
  | declaredName | reference => exact .trans ledger_modifyScope ledger_add
  | tagged | property | assignment | member | callable _ | arrow | call | newExpression
  | classDeclaration | variableList | declarator | body | argumentList | arrowBody =>
    exact ledger_add

theorem ledger_leaveInstance : (a.leaveInstance owner x).ledger = a.ledger := by
  unfold leaveInstance
  split
  · unfold exposeIdComponent
    split
    · rfl
    · exact .trans ledger_modifyScope (.trans ledger_note ledger_note)
  · exact ledger_addMember _
  · rfl

theorem ledger_leaveMember : (a.leaveMember x).ledger = a.ledger := by
  unfold leaveMember
  split
  · rfl
  · next receiver _ =>
    have huse : (if a.isKind receiver (· == .identifier) then a.use x receiver else a).ledger =
        a.ledger := by
      split
      · exact ledger_modifyScope
      · rfl
    dsimp only
    split
    · split
      · exact .trans ledger_note huse
      · exact huse
    · exact huse

theorem ledger_leaveCallable {form : Callable} (hf : form ≠ .ctor) :
    (a.leaveCallable form owner x).ledger = a.ledger := by
  unfold leaveCallable
  dsimp only
  split
  · unfold declareFunction
    split
    · exact .trans ledger_modifyScope (ledger_addMember _)
    · exact ledger_addMember _
  · exact absurd rfl hf
  · exact ledger_addMember _

theorem ledger_leave (hr : rule ≠ .callable .ctor) : (leave rule owner x a).ledger = a.ledger := by
  cases rule with
  | instance_ => exact ledger_leaveInstance
  | tagged | property | assignment => exact ledger_addMember _
  | member => exact ledger_leaveMember
  | callable form => exact ledger_leaveCallable fun hf => hr (hf ▸ rfl)
  | classDeclaration =>
    simp only [leave, leaveClass]
    split
    · exact ledger_modifyScope
    · rfl
  | argumentList =>
    exact .trans ledger_note (view_foldl (v := ledger) (fun _ _ => ledger_modifyScope) _ a)
  | body | value form | arrowBody => exact ledger_note
  | _ => rfl

def declarationOf? (ast : Ast) (c : NodeId) : Option NodeId :=
  if ast.isKind c NodeKind.isConstructor then
    ((ast.parent? c).bind ast.bodyOwner?).filter fun d => ast.isKind d NodeKind.isDeclaration
  else
    none

theorem declarationOf?_eq_some : ast.declarationOf? x = some d ↔
    ast.isKind x NodeKind.isConstructor ∧ ast.MemberOf x d ∧
      ast.isKind d NodeKind.isDeclaration := by
  have hmembers : ast.isKind d NodeKind.isDeclaration →
      ast.isKind d fun k => k.members?.isSome := by
    intro hd
    obtain ⟨k, hk, hdecl⟩ := isKind_iff.mp hd
    refine isKind_iff.mpr ⟨k, hk, ?_⟩
    cases k <;> first | rfl | cases hdecl
  unfold declarationOf?
  split
  · next hc =>
    rw [Option.filter_eq_some_iff, Option.bind_eq_some_iff, and_iff_right hc]
    refine and_congr_left fun hd => exists_congr fun body => ?_
    rw [bodyOwner?_eq_some, and_iff_left (hmembers hd)]
    rfl
  · next hc => simp [hc]

theorem Extends.declarationOf?_eq (h : a.Extends b) (hl : a.Linked) (hx : x < a.size) :
    b.declarationOf? x = a.declarationOf? x := by
  unfold declarationOf?
  rw [h.isKind_eq NodeKind.isConstructor_shape hx, h.parent?_eq hx]
  split
  · cases hp : a.parent? x with
    | none => rfl
    | some body =>
      have hlt := Nat.lt_trans (hl.up_lt hp) hx
      rw [Option.bind_some, Option.bind_some, h.bodyOwner?_eq hl hlt]
      cases ho : a.bodyOwner? body with
      | none => rfl
      | some d =>
        obtain ⟨-, hu, -⟩ := bodyOwner?_eq_some.mp ho
        rw [Option.filter_some, Option.filter_some,
          h.isKind_eq NodeKind.isDeclaration_shape (Nat.lt_trans (hl.up_lt hu) hlt)]
  · rfl

theorem ctor?_eq_none (hd : ¬ a.isKind d NodeKind.isDeclaration) : a.ctor? d = none := by
  cases hk : a.kind? d with
  | none => rw [ctor?, hk, Option.elim_none]
  | some k =>
    rw [ctor?, hk, Option.elim_some]
    cases k with
    | declaration data => exact absurd (isKind_declaration.mpr ⟨data, hk⟩) hd
    | _ => rfl

theorem ctor?_replace (hd : a.isKind d NodeKind.isDeclaration) :
    (a.modifyKind d (.mapDeclaration fun data => { data with ctor := some x })).ctor? =
      Function.update a.ctor? d (some x) := by
  obtain ⟨data, hk⟩ := isKind_declaration.mp hd
  funext y
  rw [ctor?, kind?_modifyKind]
  split
  · next hy =>
    subst hy
    rw [hk, Function.update_self]
    rfl
  · next hy =>
    rw [Function.update_of_ne hy]
    rfl

theorem keepConstructor_eq (h : a.bodyOwner? owner = some d) :
    a.keepConstructor owner x =
      { a.modifyKind d (.mapDeclaration fun data => { data with ctor := some x }) with
        diagnostics := a.diagnostics ++
          (a.ctor? d).toList.map fun p => .duplicateConstructor (a.span d) (a.span p) } := by
  have hspan : (a.modifyKind d (.mapDeclaration fun data =>
      { data with ctor := some x })).span = a.span :=
    (sameNodes_modifyKind fun k => by cases k <;> rfl).span
  have hnone : a.diagnostics = a.diagnostics ++ [] := (List.append_nil _).symm
  unfold keepConstructor ctor?
  rw [h]
  dsimp only
  rw [hspan]
  cases a.kind? d with
  | none => exact congrArg (Ast.mk _ _ _) hnone
  | some k => cases k with
    | declaration data => cases data with
      | mk name heritage id body ctor members => cases ctor with
        | none => exact congrArg (Ast.mk _ _ _) hnone
        | some p => rfl
    | _ => exact congrArg (Ast.mk _ _ _) hnone

/-- A declaration gets the constructor, and the one that it had is reported. -/
theorem ledger_keepConstructor (hu : a.Up x owner) (hx : a.isKind x NodeKind.isConstructor) :
    (a.keepConstructor owner x).ledger = (a.declarationOf? x).elim a.ledger fun d =>
      ⟨Function.update a.ctor? d (some x), a.diagnostics ++
        (a.ctor? d).toList.map fun p => .duplicateConstructor (a.span d) (a.span p)⟩ := by
  have hdecl : a.declarationOf? x =
      (a.bodyOwner? owner).filter fun d => a.isKind d NodeKind.isDeclaration := by
    rw [declarationOf?, if_pos hx, show a.parent? x = some owner from hu, Option.bind_some]
  rw [hdecl]
  cases ho : a.bodyOwner? owner with
  | none =>
    rw [keepConstructor, ho]
    rfl
  | some d =>
    rw [keepConstructor_eq ho, Option.filter_some]
    split
    · next hd => exact Ledger.ext (ctor?_replace hd) rfl
    · next hd =>
      -- a body of an instance, where there is no slot
      have hslot : (a.modifyKind d (.mapDeclaration fun data =>
          { data with ctor := some x })).ledger = a.ledger := by
        refine ledger_modifyKind fun k hk => ?_
        cases k with
        | declaration data => exact absurd (isKind_declaration.mpr ⟨data, hk⟩) hd
        | _ => rfl
      rw [ctor?_eq_none hd]
      exact Ledger.ext (Ledger.mk.inj hslot).1 (List.append_nil _)

theorem ledger_leaveConstructor (hl : a.Linked) (hu : a.Up x owner)
    (hx : a.isKind x NodeKind.isConstructor) :
    (leave (.callable .ctor) owner x a).ledger = (a.declarationOf? x).elim a.ledger fun d =>
      ⟨Function.update a.ctor? d (some x), a.diagnostics ++
        (a.ctor? d).toList.map fun p => .duplicateConstructor (a.span d) (a.span p)⟩ := by
  have hlt := lt_size_of_up hu
  have hledger : (a.addMember owner (addToList .ctor x)).ledger = a.ledger := ledger_addMember _
  have hext : a.Extends (a.addMember owner (addToList .ctor x)) := (quiet_addMember _).extension
  have hspan : (a.addMember owner (addToList .ctor x)).span = a.span :=
    (sameNodes_addMember _ _ _).span
  obtain ⟨hctor, hdiagnostics⟩ := Ledger.mk.inj hledger
  have hkeep := ledger_keepConstructor (hext.up hu)
    ((hext.isKind_eq NodeKind.isConstructor_shape hlt).trans hx)
  rwa [hext.declarationOf?_eq hl hlt, hledger, hctor, hdiagnostics, hspan] at hkeep

end Ast

end ComponentCompiler
