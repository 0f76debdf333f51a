import ComponentCompiler.Proofs.Ast.Leaving

namespace ComponentCompiler.Ast

open Cst (Tree)
open Relation

variable {a b c ast : Ast} {id o owner p x : NodeId} {kind : NodeKind} {role : Role} {rule : Rule}
  {t : Tree} {ts : List Tree} {log log' : List Entry} {refers : Prop}

/-- The node of a tree is added under `o`, with leaves at most, and is left again when what is
inside has been visited. -/
structure Opening (o : NodeId) (t : Tree) (a entered visited b : Ast) : Prop where
  present : t.isPresent
  enter : ∃ kind : NodeKind, kind.Bare ∧
    Run (leafSite o a.size False) (a.addListed kind t.span o) [] entered
  leave : Run (leaveSite visited a.size) visited (visited.listing? a.size).toList b
  entry : b.listing? a.size = visited.listing? a.size

/-- The trees are visited under `o`, and the log holds what was entered in lists on the way. -/
inductive Visits : NodeId → Prop → List Tree → List Entry → Ast → Ast → Prop
  | nil {o : NodeId} {refers : Prop} {a : Ast} : Visits o refers [] [] a a
  | leaves {o : NodeId} {refers : Prop} {t : Tree} {ts : List Tree} {log : List Entry}
      {a b c : Ast} (h : Run (leafSite o a.size refers) a [] b)
      (hrest : Visits o refers ts log b c) : Visits o refers (t :: ts) log a c
  | pass {o : NodeId} {refers : Prop} {t : Tree} {ts : List Tree} {log log' : List Entry}
      {a b c : Ast} (ht : t.isPresent) (h : Visits o False t.slots log a b)
      (hrest : Visits o refers ts log' b c) : Visits o refers (t :: ts) (log ++ log') a c
  | node {o : NodeId} {refers refers' : Prop} {t : Tree} {ts slots : List Tree}
      {log log' : List Entry} {a entered visited b c : Ast} (h : Opening o t a entered visited b)
      (hslots : slots = t.slots ∨ slots = [])
      (hinner : Visits a.size refers' slots log entered visited)
      (hrest : Visits o refers ts log' b c) :
      Visits o refers (t :: ts) (log ++ (visited.listing? a.size).toList ++ log') a c

theorem Visits.append {ts' : List Tree} (h : Visits o refers ts log a b)
    (h' : Visits o refers ts' log' b c) : Visits o refers (ts ++ ts') (log ++ log') a c := by
  induction h with
  | nil => exact h'
  | leaves h _ ih => exact .leaves h (ih h')
  | pass ht h _ _ ih =>
    rw [List.append_assoc]
    exact .pass ht h (ih h')
  | node h hslots hinner _ _ ih =>
    rw [List.append_assoc]
    exact .node h hslots hinner (ih h')

def visitSite (owner start : NodeId) (refers : Prop) : Site :=
  ⟨owner, start, refers, fun _ => True⟩

theorem run_opened {entered : Ast} {span : Span} (ho : o < a.size) (hbare : kind.Bare)
    (henter : Run (leafSite o a.size False) (a.addListed kind span o) [] entered) :
    Run (visitSite o a.size refers) a [] entered :=
  (Run.refl.quiet (.add trivial hbare (.inr .refl) ho)).transQuiet
    (henter.widen rfl (Nat.le_refl _) (fun _ _ => trivial) nofun)

namespace Opening

variable {entered visited : Ast} (h : Opening o t a entered visited b) (ho : o < a.size)

include h ho

theorem up : entered.Up a.size o := by
  obtain ⟨_, -, hrun⟩ := h.enter
  exact hrun.extension.up (up_addListed ho)

theorem lt : a.size < entered.size :=
  lt_size_of_up (h.up ho)

theorem entering : Run (visitSite o a.size refers) a [] entered := by
  obtain ⟨_, hbare, hrun⟩ := h.enter
  exact run_opened ho hbare hrun

theorem run {refers' : Prop}
    (hinner : Run (visitSite a.size entered.size refers') entered log visited) :
    Run (visitSite o a.size refers) a (log ++ (visited.listing? a.size).toList) b := by
  have hup := h.up ho
  have hle := Nat.le_of_lt (h.lt ho)
  have hvisited : Run (visitSite o a.size refers) a log visited :=
    (h.entering ho).trans (hinner.under hup (Nat.le_refl _) hle fun _ hk => hk)
  exact hvisited.trans (h.leave.under (hinner.extension.up hup) (Nat.le_refl _)
    (Nat.le_trans hle hinner.extension.size_le) nofun)

end Opening

/-- A visit is a run of steps. -/
theorem Visits.run (h : Visits o refers ts log a b) (ho : o < a.size) :
    Run (visitSite o a.size refers) a log b := by
  -- what comes behind goes on at the same owner
  have hthen {o : NodeId} {refers : Prop} {log log' : List Entry} {a b c : Ast} (ho : o < a.size)
      (h : Run (visitSite o a.size refers) a log b)
      (ih : o < b.size → Run (visitSite o b.size refers) b log' c) :
      Run (visitSite o a.size refers) a (log ++ log') c := by
    have hle := h.extension.size_le
    exact h.trans ((ih (Nat.lt_of_lt_of_le ho hle)).widen rfl hle (fun _ h => h) fun hr => hr)
  induction h with
  | nil => exact .refl
  | leaves h _ ih =>
    exact hthen ho (h.widen rfl (Nat.le_refl _) (fun _ _ => trivial) fun hr => hr) ih
  | pass _ _ _ ih ih' =>
    exact hthen ho ((ih ho).widen rfl (Nat.le_refl _) (fun _ h => h) nofun) ih'
  | node h _ _ _ ih ih' => exact hthen ho (h.run ho (ih (h.lt ho))) ih'

def Role.Suits (role : Role) (ast : Ast) (owner : NodeId) : Prop :=
  match role with
  | .declarationPart outer => ast.Up owner outer
  | .callPart statement => ast.Up owner statement
  | .callablePart => ast.isKind owner NodeKind.isFunction
  | .arrowPart _ => ast.isKind owner NodeKind.isArrow
  | _ => True

def Role.Refers : Role → Prop
  | .instancePart | .taggedPart | .declaratorPart _ | .newPart => True
  | _ => False

theorem Role.Suits.grow (h : role.Suits a owner) (hext : a.Extends b) : role.Suits b owner := by
  cases role with
  | declarationPart | callPart => exact hext.up h
  | callablePart => exact (hext.isKind_eq NodeKind.isFunction_shape (lt_size_of_isKind h)).trans h
  | arrowPart => exact (hext.isKind_eq NodeKind.isArrow_shape (lt_size_of_isKind h)).trans h
  | _ => trivial

theorem Role.Suits.next (h : role.Suits ast owner) (t : Tree) : (role.next t).Suits ast owner := by
  cases role <;> exact h

theorem Role.refers_next (role : Role) (t : Tree) : (role.next t).Refers = role.Refers := by
  cases role <;> rfl

structure Rule.Serves (rule : Rule) (role : Role) (ast : Ast) (owner : NodeId) : Prop where
  suits : rule.Suits ast owner
  refers : rule.Refers → role.Refers

theorem Rule.ofKind_serves (kind : Cst.Kind) (role : Role) (ast : Ast) (owner : NodeId) :
    (Rule.ofKind kind).Serves role ast owner := by
  constructor <;> cases kind <;>
    simp [ofKind, Suits, Refers, NodeKind.isLeaf, NodeKind.isWrapper]

theorem Rule.ofValueKind_serves (kind : Cst.Kind) (role : Role) (ast : Ast) (owner : NodeId) :
    (Rule.ofValueKind kind).Serves role ast owner := by
  constructor <;> cases kind <;> simp [ofValueKind, Suits, Refers]

theorem Rule.ofRole_serves (h : role.Suits ast owner) (kind : Cst.Kind) :
    (Rule.ofRole role kind).Serves role ast owner := by
  have hk := Rule.ofKind_serves kind role ast owner
  have hv := Rule.ofValueKind_serves kind role ast owner
  cases role with
  | plain => exact hk
  | declarationPart outer =>
    dsimp only [ofRole, ofDeclarationPart]
    split
    · exact ⟨h, nofun⟩
    all_goals exact ⟨trivial, nofun⟩
  | instancePart =>
    dsimp only [ofRole, ofInstancePart]
    split
    all_goals exact ⟨trivial, fun _ => trivial⟩
  | taggedPart =>
    dsimp only [ofRole, ofTaggedPart]
    split
    · exact ⟨trivial, fun _ => trivial⟩
    · exact ⟨trivial, nofun⟩
    · exact hk
  | propertyPart =>
    dsimp only [ofRole, ofPropertyPart]
    split
    · exact ⟨trivial, nofun⟩
    · exact ⟨trivial, nofun⟩
    · exact hv
  | assignmentSlot place =>
    dsimp only [ofRole, ofAssignmentSlot]
    split
    · exact ⟨trivial, nofun⟩
    · exact hv
    · exact ⟨trivial, nofun⟩
  | callablePart =>
    dsimp only [ofRole, ofCallablePart]
    split
    · exact ⟨trivial, nofun⟩
    · exact ⟨trivial, nofun⟩
    · exact ⟨trivial, nofun⟩
    · exact ⟨trivial, nofun⟩
    · exact ⟨h, nofun⟩
    · exact ⟨trivial, nofun⟩
  | arrowPart behind =>
    cases behind with
    | false =>
      dsimp only [ofRole, beforeArrow]
      split
      · exact ⟨trivial, nofun⟩
      · exact ⟨h, nofun⟩
      · exact ⟨trivial, nofun⟩
    | true =>
      dsimp only [ofRole, behindArrow]
      split
      · exact ⟨trivial, nofun⟩
      · exact ⟨trivial, nofun⟩
      · exact hk
  | callPart statement =>
    dsimp only [ofRole, ofCallPart]
    split
    · exact ⟨trivial, nofun⟩
    · exact ⟨h, nofun⟩
    · exact hk
  | declarationList =>
    dsimp only [ofRole, ofDeclarationList]
    split
    · exact ⟨trivial, nofun⟩
    · exact hk
  | declaratorPart behind =>
    dsimp only [ofRole, ofDeclaratorPart]
    split
    · cases behind <;> exact ⟨trivial, fun _ => trivial⟩
    · exact ⟨trivial, nofun⟩
    · exact hk
  | newPart =>
    dsimp only [ofRole, ofNewPart]
    split
    · exact ⟨trivial, fun _ => trivial⟩
    · exact hk

/-- A rule without a node of its own does nothing in the end. What stands inside is not visited, or
is visited in its place. -/
theorem Rule.leaves_cases (h : rule.opens? a owner t = none) :
    (rule = .pass ∨ ∀ id, rule.inside owner id = none) ∧
      ∀ id ast, leave rule owner id ast = ast := by
  cases rule with
  | pass => exact ⟨.inl rfl, fun _ _ => rfl⟩
  | skip | leaf | idAssignment | declarationName | heritage | explicitId | boundName | typeSegment
  | tag | tagText | propertyType | propertyName | assignmentPath | callableName | parameters
  | typedParameters | arrowParameters | arrowParameter | superCall | declaredName | reference =>
    exact ⟨.inr fun _ => rfl, fun _ _ => rfl⟩
  | value form => cases form <;> cases h
  | _ => cases h

theorem Rule.inside_of_opened {entered : Ast} (hr : rule.Suits a owner)
    (h : rule.opens? a owner t = some kind) (hu : entered.Up id owner)
    (hs : entered.shape? id = some kind) : rule.inside owner id = none ∨
      ∃ role, rule.inside owner id = some (role, id) ∧ role.Suits entered id ∧
        (rule = .member ∨ rule = .argumentList → role = .plain) := by
  have hkind {q : NodeKind → Bool} (hq : ∀ k, q k.shape = q k) (hk : q kind) :
      entered.isKind id q := by rwa [isKind_eq_shape? hq, hs]
  cases rule with
  | importStatement => exact .inl rfl
  | callable form =>
    cases h
    refine .inr ⟨_, rfl, hkind NodeKind.isFunction_shape ?_, nofun⟩
    cases form with
    | arrow => exact absurd rfl hr
    | _ => rfl
  | arrow =>
    cases h
    exact .inr ⟨_, rfl, hkind NodeKind.isArrow_shape rfl, nofun⟩
  | declaration | call => exact .inr ⟨_, rfl, hu, nofun⟩
  | value form =>
    cases form with
    | component => exact .inr ⟨_, rfl, hu, nofun⟩
    | expression | block => exact .inr ⟨_, rfl, trivial, nofun⟩
  | member | argumentList => exact .inr ⟨_, rfl, trivial, fun _ => rfl⟩
  | instance_ | tagged | property | assignment | newExpression | variableList | declarator
  | wrap _ | classDeclaration | body | callableBody | arrowBody =>
    exact .inr ⟨_, rfl, trivial, nofun⟩
  | _ => cases h

theorem Rule.eq_instance (hr : rule.Suits a owner) (h : rule.opens? a owner t = some kind)
    (hk : kind.isInstance) : rule = .instance_ := by
  cases rule with
  | instance_ => rfl
  | wrap kind =>
    cases h
    cases kind with
    | instance_ => cases hr
    | _ => cases hk
  | value form => cases form <;> cases h <;> cases hk
  | _ => cases h <;> cases hk

theorem isKind_modifyKind {f : NodeKind → NodeKind} {q : NodeKind → Bool}
    (hf : ∀ k, q (f k) = q k) : (ast.modifyKind p f).isKind x q = ast.isKind x q := by
  unfold isKind
  rw [kind?_modifyKind]
  split
  · cases ast.kind? x <;> simp [hf]
  · rfl

theorem isKind_declare {q : NodeKind → Bool} : (ast.declare o id).isKind x q = ast.isKind x q := by
  unfold declare modifyScope
  split
  · rfl
  · next q _ =>
    change (ast.editScope q _).isKind x _ = _
    unfold isKind
    rw [kind?_editScope]

theorem leaveInstance_hasId (parent inst x : NodeId) :
    (ast.leaveInstance parent inst).isKind x NodeKind.hasId = ast.isKind x NodeKind.hasId := by
  have hmembers {p : NodeId} {f : Members → Members} :
      (ast.modifyKind p (.mapMembers f)).isKind x NodeKind.hasId = ast.isKind x NodeKind.hasId :=
    isKind_modifyKind fun k => by cases k <;> rfl
  unfold leaveInstance
  split
  · unfold exposeIdComponent
    split
    · rfl
    · rw [isKind_declare, isKind_modifyKind fun k => by cases k <;> rfl, hmembers]
  · unfold addDefault addMember
    split
    · rfl
    · exact hmembers
  · rfl

theorem leave_listing? (hl : ast.Linked) (hext : ast.Extends (leave rule owner id ast))
    (hr : rule.Suits a owner) (hopen : rule.opens? a owner t = some kind)
    (hs : ast.shape? id = some kind) (hid : id < ast.size) :
    (leave rule owner id ast).listing? id = ast.listing? id := by
  refine hext.listing?_eq hl hid (congrFun (leave_same rule owner id ast).children id) ?_
  by_cases hk : kind.isInstance
  · obtain rfl := Rule.eq_instance hr hopen hk
    exact leaveInstance_hasId owner id id
  · rw [not_hasId (hext.shape?_eq_some hs) hk, not_hasId hs hk]

/-- No child of a new node is a reference, if none was made one on the way. -/
theorem Visits.unused {entered visited : Ast} {slots : List Tree}
    (h : Visits a.size refers slots log entered visited) (hr : ¬ refers) (ha : a.Sound)
    (hext : a.Extends entered) (hid : a.size < entered.size)
    (hused : ∀ o, entered.used o = a.used o) (hu : visited.Up x a.size) (o : NodeId) :
    x ∉ visited.used o := by
  have hrun := h.run hid
  intro hmem
  rcases hrun.used hmem with hmem | ⟨p, hp, hplace⟩
  · rw [hused] at hmem
    obtain ⟨p, hp, -⟩ := ha.used o x hmem
    obtain rfl : p = a.size := Option.some.inj (((hext.trans hrun.extension).up hp).symm.trans hu)
    exact Nat.lt_asymm (ha.linked.up_lt hp) (lt_size_of_up hp)
  · obtain rfl : p = a.size := Option.some.inj (hp.symm.trans hu)
    rcases hplace with hle | ⟨-, hrefers⟩
    · exact Nat.not_lt.mpr hle hid
    · exact hr hrefers

theorem opened (ha : ast.Sound) (hr : rule.Suits ast owner) (ho : owner < ast.size)
    (hopen : rule.opens? ast owner t = some kind) :
    ast.Extends (enter rule owner t ast) ∧ (enter rule owner t ast).Sound ∧
      (enter rule owner t ast).Up ast.size owner ∧
      (enter rule owner t ast).shape? ast.size = some kind := by
  obtain ⟨hbare, henter⟩ := enter_opened ha hr ho hopen
  have hrun : Run (visitSite owner ast.size False) ast [] _ := run_opened ho hbare henter
  refine ⟨hrun.extension, hrun.sound ha, henter.extension.up (up_addListed ho), ?_⟩
  apply henter.extension.shape?_eq_some
  rw [shape?, kind?_addListed ho, if_pos rfl]
  exact congrArg some hbare

theorem opening {refers' : Prop} {slots : List Tree} {visited : Ast} (ht : t.isPresent)
    (ha : ast.Sound) (hr : rule.Suits ast owner) (ho : owner < ast.size)
    (hopen : rule.opens? ast owner t = some kind)
    (hinner : Visits ast.size refers' slots log (enter rule owner t ast) visited)
    (hplain : rule = .member ∨ rule = .argumentList → ¬ refers') :
    Opening owner t ast (enter rule owner t ast) visited (leave rule owner ast.size visited) := by
  obtain ⟨hbare, henter⟩ := enter_opened ha hr ho hopen
  obtain ⟨hext, hsound, hu, hs⟩ := opened ha hr ho hopen
  have hid := lt_size_of_up hu
  have hrun := hinner.run hid
  have hsound' := hrun.sound hsound
  have hs' := hrun.extension.shape?_eq_some hs
  have hfree (hrule : rule = .member ∨ rule = .argumentList) (x : NodeId)
      (hx : visited.Up x ast.size) (o : NodeId) : x ∉ visited.used o := by
    refine hinner.unused (hplain hrule) ha hext hid (fun o => ?_) hx o
    rcases hrule with rfl | rfl
    all_goals
      cases hopen
      dsimp only [enter]
      rw [← addListed_eq_add (by simp [NodeKind.group]), used_addListed ho]
  have hleave := leave_run hsound' (hrun.extension.up hu) hr hopen hs' hfree
  have hentry := leave_listing? hsound'.linked hleave.extension hr hopen hs'
    (Nat.lt_of_lt_of_le hid hrun.extension.size_le)
  exact ⟨ht, ⟨kind, hbare, henter⟩, hleave, hentry⟩

theorem visits_opened {refers' : Prop} {slots : List Tree} {visited : Ast} (ht : t.isPresent)
    (ha : ast.Sound) (hr : rule.Suits ast owner) (ho : owner < ast.size)
    (hopen : rule.opens? ast owner t = some kind) (hslots : slots = t.slots ∨ slots = [])
    (hinner : Visits ast.size refers' slots log (enter rule owner t ast) visited)
    (hplain : rule = .member ∨ rule = .argumentList → ¬ refers') :
    ∃ log, Visits owner refers [t] log ast (leave rule owner ast.size visited) :=
  ⟨_, .node (opening ht ha hr ho hopen hinner hplain) hslots hinner .nil⟩

mutual

theorem visit_visits (role : Role) : (t : Tree) → {ast : Ast} → {owner : NodeId} → ast.Sound →
    role.Suits ast owner → owner < ast.size →
    ∃ log, Visits owner role.Refers [t] log ast (visit role owner t ast)
  | .missing, _, _, _, _, _ => ⟨[], .leaves .refl .nil⟩
  | .node head slots, ast, owner, ha, hsuits, ho => by
    have hserves := Rule.ofRole_serves hsuits (Cst.Kind.ofName head.kind)
    unfold visit
    generalize Rule.ofRole role (Cst.Kind.ofName head.kind) = rule at hserves
    dsimp only
    cases hopen : rule.opens? ast owner (.node head slots) with
    | none =>
      obtain ⟨hinside, hleave⟩ := Rule.leaves_cases hopen
      rw [hleave]
      rcases hinside with rfl | hnone
      · obtain ⟨log, h⟩ := visitAll_visits .plain slots ha trivial ho
        exact ⟨_, .pass rfl h .nil⟩
      · rw [hnone ast.size]
        have hleaves := enter_leaves ha hserves.suits ho hopen
        exact ⟨_, .leaves (hleaves.widen rfl (Nat.le_refl _) (fun _ hk => hk) hserves.refers) .nil⟩
    | some kind =>
      obtain ⟨-, hsound, hu, hs⟩ := opened ha hserves.suits ho hopen
      rcases Rule.inside_of_opened hserves.suits hopen hu hs with hnone | ⟨child, hchild, hc, hp⟩
      · rw [hnone]
        have hinner {a : Ast} : Visits ast.size False [] [] a a := .nil
        exact visits_opened rfl ha hserves.suits ho hopen (.inr rfl) hinner fun _ => id
      · rw [hchild]
        obtain ⟨log, h⟩ := visitAll_visits child slots hsound hc (lt_size_of_up hu)
        refine visits_opened rfl ha hserves.suits ho hopen (.inl rfl) h fun hrule => ?_
        rw [hp hrule]
        exact id

theorem visitAll_visits (role : Role) : (slots : List Tree) → {ast : Ast} → {owner : NodeId} →
    ast.Sound → role.Suits ast owner → owner < ast.size →
    ∃ log, Visits owner role.Refers slots log ast (visitAll role owner slots ast)
  | [], _, _, _, _, _ => ⟨[], .nil⟩
  | t :: rest, _, owner, ha, hsuits, ho => by
    obtain ⟨log, h⟩ := visit_visits role t ha hsuits ho
    have hrun := h.run ho
    have hext := hrun.extension
    obtain ⟨log', h'⟩ := visitAll_visits (role.next t) rest (hrun.sound ha)
      ((hsuits.grow hext).next t) (Nat.lt_of_lt_of_le ho hext.size_le)
    rw [Role.refers_next] at h'
    exact ⟨log ++ log', h.append h'⟩

end

/-- Every table without cycles and error nodes has a tree, and it is built. -/
theorem build_ok {cst : Cst.Table} (ha : cst.Acyclic) (he : cst.ErrorFree) (name : String) :
    ∃ root ast, cst.tree? = some root ∧ build root name = .ok ast := by
  obtain ⟨root, ht⟩ := ha.exists_tree
  have hb : build root name = .ok (visitAll .plain rootId root.slots (ofSpan root.span)) := by
    rw [build, Cst.Table.tree?_firstError? ht he]
  exact ⟨root, _, ht, hb⟩

theorem of_build_of_decide {cst : Cst.Table} {root : Tree} {name : String} {P : Ast → Prop}
    [DecidablePred P] (ht : cst.tree? = some root) (hb : build root name = .ok ast)
    (h : cst.tree?.any fun root => (build root name).toOption.any fun ast => decide (P ast)) :
    P ast := by
  rw [ht, Option.any_some, hb] at h
  exact of_decide_eq_true h

theorem build_of_decide {cst : Cst.Table} {name : String} {P : Ast → Prop} [DecidablePred P]
    (h : cst.tree?.any fun root => (build root name).toOption.any fun ast => decide (P ast)) :
    ∃ root ast, cst.tree? = some root ∧ build root name = .ok ast ∧ P ast := by
  obtain ⟨root, ht, hany⟩ := (Option.any_eq_true _ _).mp h
  cases hb : build root name with
  | error e =>
    rw [hb] at hany
    cases hany
  | ok ast => exact ⟨root, ast, ht, hb, of_build_of_decide ht hb h⟩

theorem build_visits {root : Tree} {name : String} (h : build root name = .ok ast) :
    ∃ log, Visits rootId False root.slots log (ofSpan root.span) ast := by
  rw [eq_of_build h]
  exact visitAll_visits .plain root.slots (sound_ofSpan root.span) trivial Nat.one_pos

theorem build_sound {root : Tree} {name : String} (h : build root name = .ok ast) : ast.Sound := by
  obtain ⟨log, hv⟩ := build_visits h
  exact (hv.run Nat.one_pos).sound (sound_ofSpan root.span)

end ComponentCompiler.Ast
