import ComponentCompiler.Proofs.Ast.Growth
import ComponentCompiler.Proofs.Cst.Nesting

namespace ComponentCompiler

def Cst.Kind.group : Cst.Kind → NodeGroup
  | .importStatement => .importStatement
  | .componentDeclaration => .declaration
  | .newComponent | .newTagged => .componentUse
  | .variableDeclaration => .variables
  | _ => .other

namespace Ast

open Cst (Tree)

variable {ast : Ast} {owner : NodeId} {rule : Rule}

def Rule.head? : Rule → Option NodeGroup
  | .importStatement => some .importStatement
  | .declaration | .value .component => some .declaration
  | .instance_ | .tagged => some .componentUse
  | .variableList => some .variables
  | .wrap _ | .property | .assignment | .member | .callable _ | .arrow | .call | .newExpression
  | .classDeclaration | .declarator | .body | .argumentList | .value .expression | .value .block
  | .callableBody | .arrowBody => some .other
  | _ => none

def Rule.Proper : Rule → Prop
  | .leaf kind | .wrap kind => Plain kind
  | _ => True

theorem Rule.inside_cases {id o : NodeId} {role : Role}
    (h : rule.inside owner id = some (role, o)) :
    rule.head? = none ∧ o = owner ∨ ∃ g, rule.head? = some g ∧ g ≠ .importStatement ∧ o = id := by
  cases rule with
  | pass => simp_all [Rule.inside, Rule.head?]
  | value form => cases form <;> simp_all [Rule.inside, Rule.head?]
  | _ => simp_all [Rule.inside, Rule.head?]

theorem Grows.modifyKind {P : NodeKind → Prop} {a b : Ast} {p : NodeId}
    {f : NodeKind → NodeKind} (h : Grows P a b) (hf : ∀ k, (f k).group = k.group) :
    Grows P a (b.modifyKind p f) :=
  h.same (sameNodes_modifyKind hf)

theorem Grows.declare {P : NodeKind → Prop} {a b : Ast} (h : Grows P a b) (start ident : NodeId) :
    Grows P a (b.declare start ident) :=
  h.same (sameNodes_declare b start ident)

theorem Grows.use {P : NodeKind → Prop} {a b : Ast} (h : Grows P a b) (start ident : NodeId) :
    Grows P a (b.use start ident) :=
  h.same (sameNodes_use b start ident)

theorem grows_add {kind : NodeKind} {span : Span} (hk : Plain kind) (ho : owner < ast.size) :
    Grows Plain ast (ast.add kind span owner) :=
  Grows.refl.addPlain hk ho

theorem lt_size_of_bodyOwner? {body o : NodeId} (h : ast.bodyOwner? body = some o) :
    o < ast.size := by
  unfold bodyOwner? at h
  split at h
  · exact lt_size_of_isKind (Option.mem_filter_iff.mp h).2
  · cases h

theorem enterHeritage_grows (t : Tree) (ho : owner < ast.size) :
    Grows Plain ast (ast.enterHeritage owner t) := by
  have hid : ast.size < (ast.add .heritage t.span owner).size := by simp
  have h := (grows_add rfl ho).addAll (rfl : Plain .identifier)
    ((childrenOfKind t .identifier).map Tree.span) hid
  unfold enterHeritage
  refine Grows.modifyKind ?_ fun k => k.group_mapDeclaration _
  split
  · exact h.use _ _
  · exact h

theorem enterExplicitId_grows (t : Tree) (ho : owner < ast.size) :
    Grows Plain ast (ast.enterExplicitId owner t) := by
  unfold enterExplicitId
  split
  · exact .refl
  · exact ((grows_add rfl ho).modifyKind fun k => k.group_withId _).declare _ _

theorem enterIdAssignment_grows (parent : NodeId) (t : Tree) :
    Grows Plain ast (ast.enterIdAssignment parent t) := by
  unfold enterIdAssignment
  split
  · next o ident hb _ =>
    have ho := lt_size_of_bodyOwner? hb
    exact ((grows_add rfl ho).modifyKind fun k => k.group_withId _).declare _ _
  · exact .refl

theorem enterBoundName_grows (t : Tree) (ho : owner < ast.size) :
    Grows Plain ast (ast.enterBoundName owner t) := by
  unfold enterBoundName
  split
  · exact .refl
  · exact (grows_add rfl ho).modifyKind fun k => k.group_mapInstance _

theorem enterDeclarationName_grows (outer : NodeId) (t : Tree) (ho : owner < ast.size) :
    Grows Plain ast (ast.enterDeclarationName owner outer t) :=
  ((grows_add rfl ho).modifyKind fun k => k.group_mapDeclaration _).declare _ _

theorem enterTypeSegment_grows (t : Tree) (ho : owner < ast.size) :
    Grows Plain ast (ast.enterTypeSegment owner t) := by
  have h : Grows Plain ast ((ast.add .identifier t.span owner).modifyKind owner
      (.mapInstance fun i => { i with name := i.name ++ [ast.size] })) :=
    (grows_add rfl ho).modifyKind fun k => k.group_mapInstance _
  exact iteInduction (motive := Grows Plain ast) (fun _ => h.use _ _) fun _ => h

theorem enterTag_grows (t : Tree) (ho : owner < ast.size) :
    Grows Plain ast (ast.enterTag owner t) :=
  ((grows_add rfl ho).use _ _).modifyKind fun k => k.group_mapTagged _

theorem enterTagText_grows (t : Tree) (ho : owner < ast.size) :
    Grows Plain ast (ast.enterTagText owner t) :=
  (grows_add rfl ho).modifyKind fun k => k.group_mapTagged _

theorem enterPropertyType_grows (t : Tree) (ho : owner < ast.size) :
    Grows Plain ast (ast.enterPropertyType owner t) :=
  (grows_add rfl ho).modifyKind fun k => k.group_mapProperty _

theorem enterPropertyName_grows (t : Tree) (ho : owner < ast.size) :
    Grows Plain ast (ast.enterPropertyName owner t) :=
  (grows_add rfl ho).modifyKind fun k => k.group_mapProperty _

theorem enterAssignmentPath_grows (t : Tree) (ho : owner < ast.size) :
    Grows Plain ast (ast.enterAssignmentPath owner t) :=
  (Grows.refl.addAll rfl _ ho).modifyKind fun k => k.group_mapAssignment _

theorem enterCallableName_grows (t : Tree) (ho : owner < ast.size) :
    Grows Plain ast (ast.enterCallableName owner t) := by
  unfold enterCallableName
  split
  · exact .refl
  · exact (grows_add rfl ho).modifyKind fun k => k.group_mapFunction _

theorem addParameters_grows (t : Tree) (ho : owner < ast.size) :
    Grows Plain ast (ast.addParameters owner t).2 := by
  have hid : ast.size < (ast.add .formalParameters t.span owner).size := by simp
  exact (grows_add rfl ho).addAll rfl _ hid

theorem Grows.setParameters {a b : Ast} (h : Grows Plain a b) (owner list : NodeId)
    (params : List Parameter) : Grows Plain a (b.setParameters owner list params) :=
  h.modifyKind fun k => k.group_mapFunction _

theorem foldl_addTypedParameter_grows {list : NodeId} (pairs : List (Tree × Tree))
    (state : List Parameter × Ast) (hl : list < state.2.size) :
    Grows Plain state.2 (pairs.foldl (addTypedParameter list) state).2 := by
  induction pairs generalizing state with
  | nil => exact .refl
  | cons pair rest ih =>
    have h : Grows Plain state.2 (addTypedParameter list state pair).2 :=
      (grows_add rfl hl).addPlain rfl (by simpa using Nat.lt_succ_of_lt hl)
    exact h.trans (ih _ (Nat.lt_of_lt_of_le hl h.size_le))

theorem enterTypedParameters_grows (t : Tree) (ho : owner < ast.size) :
    Grows Plain ast (ast.enterTypedParameters owner t) := by
  have hid : ast.size < (ast.add .formalParameters t.span owner).size := by simp
  have h := foldl_addTypedParameter_grows (typedPairs t)
    ([], ast.add .formalParameters t.span owner) hid
  exact ((grows_add rfl ho).trans h).setParameters _ _ _

theorem enterArrowParameters_grows (t : Tree) (ho : owner < ast.size) :
    Grows Plain ast (ast.enterArrowParameters owner t) :=
  ((addParameters_grows t ho).same (sameNodes_declareAll _ _ _)).setParameters _ _ _

theorem enterArrowParameter_grows (t : Tree) (ho : owner < ast.size) :
    Grows Plain ast (ast.enterArrowParameter owner t) :=
  ((grows_add rfl ho).declare _ _).modifyKind fun k => k.group_mapFunction _

theorem enterSuperCall_grows (owner statement : NodeId) :
    Grows Plain ast (ast.enterSuperCall owner statement) := by
  unfold enterSuperCall
  dsimp only
  split
  · exact Grows.refl.modifyKind fun k => by cases k <;> rfl
  · refine Grows.modifyKind ?_ fun k => k.group_mapFunction _
    exact Grows.refl.modifyKind fun k => by cases k <;> rfl

theorem foldl_addImportPart_grows {importId : NodeId} (parts : List Tree) (state : Ast × ImportData)
    (hi : importId < state.1.size) :
    Grows Plain state.1 (parts.foldl (addImportPart importId) state).1 := by
  induction parts generalizing state with
  | nil => exact .refl
  | cons t rest ih =>
    obtain ⟨ast, data⟩ := state
    have h : Grows Plain ast (addImportPart importId (ast, data) t).1 := by
      have hpath : Grows Plain ast (ast.add .importPath t.span importId) := grows_add rfl hi
      dsimp only [addImportPart]
      split
      · split
        · exact grows_add rfl hi
        · exact .refl
      · exact .refl
      · exact hpath.addAll rfl _ (by simp)
      · exact .refl
    exact h.trans (ih _ (Nat.lt_of_lt_of_le hi h.size_le))

theorem enterImport_grows (t : Tree) (ho : owner < ast.size) :
    Grows Plain (ast.addListed (.importStatement {}) t.span owner) (ast.enterImport owner t) := by
  have hid : ast.size < (ast.addListed (.importStatement {}) t.span owner).size := by simp
  have h := foldl_addImportPart_grows t.children
    (ast.addListed (.importStatement {}) t.span owner, {}) hid
  refine h.same (sameNodes_modify fun n hn => ⟨?_, rfl, rfl, rfl⟩)
  have hg := (h.keeps hid).1
  rw [group_addListed ho, if_pos rfl, group_eq, hn] at hg
  exact hg.symm

theorem enterDeclaration_grows (t : Tree) :
    Grows Plain (ast.addListed (.declaration {}) t.span owner) (ast.enterDeclaration owner t) := by
  have hk : (NodeKind.declaration {}).group ≠ .importStatement := nofun
  rw [addListed_eq_add hk]
  unfold enterDeclaration
  dsimp only
  split
  · exact .same .refl ⟨rfl, rfl, rfl, rfl, rfl, rfl⟩
  · exact .refl

theorem enterInstance_grows (t : Tree) :
    Grows Plain (ast.addListed (.instance_ { isRoot := ast.isRootPlace owner }) t.span owner)
      (ast.enterInstance owner t) := by
  have hk (data : InstanceData) : (NodeKind.instance_ data).group ≠ .importStatement := nofun
  rw [addListed_eq_add (hk _)]
  unfold enterInstance
  dsimp only
  split
  · exact .same .refl ⟨rfl, rfl, rfl, rfl, rfl, rfl⟩
  · exact .refl

theorem enter_plain (hr : rule.Proper) (hh : rule.head? = none) (t : Tree)
    (ho : owner < ast.size) : Grows Plain ast (enter rule owner t ast) := by
  cases rule with
  | skip | pass => exact .refl
  | leaf kind => exact grows_add hr ho
  | idAssignment => exact enterIdAssignment_grows owner t
  | declarationName outer => exact enterDeclarationName_grows outer t ho
  | heritage => exact enterHeritage_grows t ho
  | explicitId => exact enterExplicitId_grows t ho
  | boundName => exact enterBoundName_grows t ho
  | typeSegment => exact enterTypeSegment_grows t ho
  | tag => exact enterTag_grows t ho
  | tagText => exact enterTagText_grows t ho
  | propertyType => exact enterPropertyType_grows t ho
  | propertyName => exact enterPropertyName_grows t ho
  | assignmentPath => exact enterAssignmentPath_grows t ho
  | callableName => exact enterCallableName_grows t ho
  | parameters => exact (addParameters_grows t ho).setParameters _ _ _
  | typedParameters => exact enterTypedParameters_grows t ho
  | arrowParameters => exact enterArrowParameters_grows t ho
  | arrowParameter => exact enterArrowParameter_grows t ho
  | superCall statement => exact enterSuperCall_grows owner statement
  | declaredName => exact (grows_add rfl ho).declare _ _
  | reference => exact (grows_add rfl ho).use _ _
  | value form => cases form <;> simp [Rule.head?] at hh
  | _ => simp [Rule.head?] at hh

/-- A rule with a node of its own opens it under the owner, with the span of the concrete node. -/
theorem enter_head {g : NodeGroup} (hr : rule.Proper) (hh : rule.head? = some g) (t : Tree)
    (ho : owner < ast.size) : ∃ kind, kind.group = g ∧
      Grows Plain (ast.addListed kind t.span owner) (enter rule owner t ast) := by
  -- all other rules with a node of their own add it and no more
  have hadd {kind : NodeKind} (hg : kind.group = g) (hne : g ≠ .importStatement)
      (he : Grows Plain (ast.add kind t.span owner) (enter rule owner t ast)) :
      ∃ kind, kind.group = g ∧
        Grows Plain (ast.addListed kind t.span owner) (enter rule owner t ast) :=
    ⟨kind, hg, by rwa [addListed_eq_add (hg ▸ hne)]⟩
  cases rule with
  | importStatement => cases hh; exact ⟨_, rfl, enterImport_grows t ho⟩
  | declaration => cases hh; exact ⟨_, rfl, enterDeclaration_grows t⟩
  | instance_ => cases hh; exact ⟨_, rfl, enterInstance_grows t⟩
  | value form =>
    cases form with
    | component => cases hh; exact ⟨_, rfl, enterDeclaration_grows t⟩
    | expression | block => cases hh; exact hadd rfl nofun .refl
  | callableBody =>
    cases hh
    refine hadd (rfl : NodeKind.block.group = .other) nofun ?_
    exact (Grows.refl.same (sameNodes_declareAll _ _ _)).modifyKind fun k => k.group_mapFunction _
  | wrap kind => cases hh; exact hadd hr nofun .refl
  | variableList | tagged | property | assignment | member | callable _ | arrow | call
  | newExpression | classDeclaration | declarator | body | argumentList | arrowBody =>
    cases hh
    exact hadd rfl nofun .refl
  | _ => simp [Rule.head?] at hh

theorem leaveInstance_same (parent inst : NodeId) :
    SameNodes ast (ast.leaveInstance parent inst) := by
  unfold leaveInstance
  split
  · unfold exposeIdComponent
    split
    · exact .refl ast
    · exact ((sameNodes_modifyKind fun k => k.group_mapMembers _).trans
        (sameNodes_modifyKind fun k => k.group_mapInstance _)).trans (sameNodes_declare _ _ _)
  · exact sameNodes_addMember ast parent _
  · exact .refl ast

theorem leaveMember_same (id : NodeId) : SameNodes ast (ast.leaveMember id) := by
  unfold leaveMember
  split
  · exact .refl ast
  · next receiver _ =>
    have huse : SameNodes ast
        (if ast.isKind receiver (· == .identifier) then ast.use id receiver else ast) :=
      iteInduction (motive := SameNodes ast) (fun _ => sameNodes_use ast id receiver)
        fun _ => .refl ast
    dsimp only
    split
    · split
      · exact huse.trans (sameNodes_modifyKind fun k => k.group_addBinding id)
      · exact huse
    · exact huse

theorem keepConstructor_same (parent id : NodeId) :
    SameNodes ast (ast.keepConstructor parent id) := by
  unfold keepConstructor
  split
  · exact .refl ast
  · next o _ =>
    have h : SameNodes ast
        (ast.modifyKind o (.mapDeclaration fun d => { d with ctor := some id })) :=
      sameNodes_modifyKind fun k => k.group_mapDeclaration _
    dsimp only
    split
    · exact h
    · exact h.trans ⟨rfl, rfl, rfl, rfl, rfl, rfl⟩

theorem declareFunction_same (parent id : NodeId) :
    SameNodes ast (ast.declareFunction parent id) := by
  unfold declareFunction
  split
  · exact sameNodes_declare _ _ _
  · exact .refl ast

theorem leaveCallable_same (form : Callable) (parent id : NodeId) :
    SameNodes ast (ast.leaveCallable form parent id) := by
  have h := sameNodes_addMember ast parent (addToList form id)
  cases form with
  | function => exact h.trans (declareFunction_same parent id)
  | ctor => exact h.trans (keepConstructor_same parent id)
  | event | listener | method | typedFunction | arrow => exact h

theorem leaveClass_same (parent id : NodeId) : SameNodes ast (ast.leaveClass parent id) := by
  unfold leaveClass
  split
  · exact sameNodes_declare _ _ _
  · exact .refl ast

theorem leaveArguments_same (owner id : NodeId) : SameNodes ast (ast.leaveArguments owner id) :=
  (sameNodes_foldl (fun ast ident => sameNodes_use ast id ident) _ ast).trans
    (sameNodes_modifyKind fun k => k.group_mapInstance _)

theorem leave_same (rule : Rule) (owner id : NodeId) (ast : Ast) :
    SameNodes ast (leave rule owner id ast) := by
  cases rule with
  | instance_ => exact leaveInstance_same owner id
  | tagged | property | assignment => exact sameNodes_addMember ast owner _
  | member => exact leaveMember_same id
  | callable form => exact leaveCallable_same form owner id
  | classDeclaration => exact leaveClass_same owner id
  | body => exact sameNodes_modifyKind fun k => k.group_withBody id
  | argumentList => exact leaveArguments_same owner id
  | value form => exact sameNodes_modifyKind fun k => k.group_withValue _
  | arrowBody => exact sameNodes_modifyKind fun k => k.group_mapFunction _
  | _ => exact .refl ast

/-- The rule opens a node of the group of the kind, if it opens one with edits of its own. -/
structure Rule.Fits (rule : Rule) (kind : Cst.Kind) : Prop where
  proper : rule.Proper
  head : ∀ g, rule.head? = some g → g = .other ∨ g = kind.group

theorem Rule.ofKind_fits (kind : Cst.Kind) : (Rule.ofKind kind).Fits kind := by
  constructor <;> cases kind <;>
    simp [ofKind, Proper, Plain, head?, NodeKind.group, Cst.Kind.group]

theorem Rule.ofValueKind_fits (kind : Cst.Kind) : (Rule.ofValueKind kind).Fits kind := by
  constructor <;> cases kind <;> simp [ofValueKind, Proper, head?, Cst.Kind.group]

theorem Rule.fits_leaf {kind : Cst.Kind} (hr : rule.Proper) (hh : rule.head? = none) :
    rule.Fits kind :=
  ⟨hr, fun _ hg => by simp [hh] at hg⟩

theorem Rule.fits_node {kind : Cst.Kind} (hr : rule.Proper) (hh : rule.head? = some .other) :
    rule.Fits kind :=
  ⟨hr, fun _ hg => .inl (Option.some.inj (hg.symm.trans hh))⟩

theorem Rule.ofRole_fits (role : Role) (kind : Cst.Kind) : (Rule.ofRole role kind).Fits kind := by
  have hk := Rule.ofKind_fits kind
  have hv := Rule.ofValueKind_fits kind
  cases role with
  | plain => exact hk
  | declarationPart outer =>
    dsimp only [ofRole, ofDeclarationPart]
    split
    · exact fits_leaf trivial rfl
    · exact fits_leaf trivial rfl
    · exact fits_leaf trivial rfl
    · exact fits_node trivial rfl
    · exact fits_leaf trivial rfl
  | instancePart =>
    dsimp only [ofRole, ofInstancePart]
    split
    · exact fits_leaf trivial rfl
    · exact fits_node trivial rfl
    · exact fits_node trivial rfl
    · exact fits_leaf trivial rfl
    · exact fits_leaf trivial rfl
    · exact fits_leaf trivial rfl
  | taggedPart =>
    dsimp only [ofRole, ofTaggedPart]
    split
    · exact fits_leaf trivial rfl
    · exact fits_leaf trivial rfl
    · exact hk
  | propertyPart =>
    dsimp only [ofRole, ofPropertyPart]
    split
    · exact fits_leaf trivial rfl
    · exact fits_leaf trivial rfl
    · exact hv
  | assignmentSlot place =>
    dsimp only [ofRole, ofAssignmentSlot]
    split
    · exact fits_leaf trivial rfl
    · exact hv
    · exact fits_leaf trivial rfl
  | callablePart =>
    dsimp only [ofRole, ofCallablePart]
    split
    · exact fits_leaf trivial rfl
    · exact fits_leaf trivial rfl
    · exact fits_leaf trivial rfl
    · exact fits_leaf trivial rfl
    · exact fits_node trivial rfl
    · exact fits_leaf trivial rfl
  | arrowPart behind =>
    cases behind with
    | false =>
      dsimp only [ofRole, beforeArrow]
      split <;> exact fits_leaf trivial rfl
    | true =>
      dsimp only [ofRole, behindArrow]
      split
      · exact fits_leaf trivial rfl
      · exact fits_node trivial rfl
      · exact hk
  | callPart statement =>
    dsimp only [ofRole, ofCallPart]
    split
    · exact fits_node trivial rfl
    · exact fits_leaf trivial rfl
    · exact hk
  | declarationList =>
    dsimp only [ofRole, ofDeclarationList]
    split
    · exact fits_node trivial rfl
    · exact hk
  | declaratorPart behind =>
    dsimp only [ofRole, ofDeclaratorPart]
    split
    · cases behind <;> exact fits_leaf trivial rfl
    · exact fits_leaf trivial rfl
    · exact hk
  | newPart =>
    dsimp only [ofRole, ofNewPart]
    split
    · exact fits_leaf trivial rfl
    · exact hk

/-- Kinds of nodes that are plain, or are built for concrete nodes of kinds that satisfy `S`. -/
def BuiltFor (S : Cst.Kind → Prop) (kind : NodeKind) : Prop :=
  Plain kind ∨ ∃ k, S k ∧ kind.group = k.group

theorem Rule.Fits.builtFor {S : Cst.Kind → Prop} {k : Cst.Kind} {g : NodeGroup} {kind : NodeKind}
    (hf : rule.Fits k) (hk : S k) (hh : rule.head? = some g) (hg : kind.group = g) :
    BuiltFor S kind := by
  rcases hf.head g hh with rfl | rfl
  · exact .inl hg
  · exact .inr ⟨k, hk, hg⟩

mutual

theorem visit_builds {S : Cst.Kind → Prop} (role : Role) : (t : Tree) → {ast : Ast} →
    {owner : NodeId} → t.All S → owner < ast.size →
      Grows (BuiltFor S) ast (visit role owner t ast)
  | .missing, _, _, _, _ => .refl
  | .node head slots, ast, owner, .node hk hbelow, ho => by
    have hf := Rule.ofRole_fits role (Cst.Kind.ofName head.kind)
    unfold visit
    generalize Rule.ofRole role (Cst.Kind.ofName head.kind) = rule at hf
    refine Grows.same ?_ (leave_same rule owner ast.size _)
    cases hh : rule.head? with
    | none =>
      have he := enter_plain hf.proper hh (.node head slots) ho
      refine (he.mono fun _ hp => .inl hp).trans ?_
      split
      · next childRole childOwner hi =>
        rcases Rule.inside_cases hi with ⟨-, rfl⟩ | ⟨g, hg, -, -⟩
        · exact visitAll_builds childRole slots hbelow (Nat.lt_of_lt_of_le ho he.size_le)
        · simp [hh] at hg
      · exact .refl
    | some g =>
      obtain ⟨kind, hg, he⟩ := enter_head hf.proper hh (.node head slots) ho
      have hid : ast.size < (enter rule owner (.node head slots) ast).size :=
        Nat.lt_of_lt_of_le (by simp) he.size_le
      have hadd : Grows (BuiltFor S) ast (ast.addListed kind head.span owner) :=
        Grows.refl.add (hf.builtFor hk hh hg) ho
      refine (hadd.trans (he.mono fun _ hp => .inl hp)).trans ?_
      split
      · next childRole childOwner hi =>
        rcases Rule.inside_cases hi with ⟨hn, -⟩ | ⟨_, -, -, rfl⟩
        · simp [hh] at hn
        · exact visitAll_builds childRole slots hbelow hid
      · exact .refl

theorem visitAll_builds {S : Cst.Kind → Prop} (role : Role) : (slots : List Tree) → {ast : Ast} →
    {owner : NodeId} → (∀ t ∈ slots, t.All S) → owner < ast.size →
      Grows (BuiltFor S) ast (visitAll role owner slots ast)
  | [], _, _, _, _ => .refl
  | t :: rest, _, _, hs, ho => by
    have h := visit_builds role t (hs t List.mem_cons_self) ho
    exact h.trans (visitAll_builds (role.next t) rest
      (fun s hr => hs s (List.mem_cons_of_mem t hr)) (Nat.lt_of_lt_of_le ho h.size_le))

end

theorem visitAll_grows (role : Role) (slots : List Tree) {owner : NodeId} (ho : owner < ast.size) :
    Grows (fun _ => True) ast (visitAll role owner slots ast) :=
  (visitAll_builds role slots (fun t _ => t.all_of_forall fun _ => trivial) ho).mono
    fun _ _ => trivial

theorem eq_of_build {root : Tree} {name : String} (h : build root name = .ok ast) :
    ast = visitAll .plain rootId root.slots (ofSpan root.span) := by
  unfold build at h
  split at h
  · cases h
  · exact (Except.ok.inj h).symm

theorem build_linked {root : Tree} {name : String} (h : build root name = .ok ast) :
    ast.Linked := by
  rw [eq_of_build h]
  exact (linked_ofSpan root.span).grows (visitAll_grows .plain root.slots Nat.one_pos)

end Ast

end ComponentCompiler
