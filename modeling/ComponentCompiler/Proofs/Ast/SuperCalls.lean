import ComponentCompiler.Proofs.Ast.Receivers
import ComponentCompiler.Proofs.Ast.SuperMarks
import Mathlib.Order.Bounds.Basic
import Mathlib.Order.WellFounded

namespace ComponentCompiler.Ast

open Cst (Tree)
open Relation

variable {a b ast : Ast} {o owner p statement x y : NodeId} {kind : NodeKind} {role : Role}
  {rule : Rule} {t : Tree} {ts : List Tree}

def StatementOf (ast : Ast) (c x : NodeId) : Prop :=
  ∃ statement block, ast.Up x statement ∧ ast.kind? statement = some .expressionStatement ∧
    ast.Up statement block ∧ ast.kind? block = some .block ∧ ast.Up block c ∧
    ast.isKind c NodeKind.isConstructor

theorem statementOf_iff {c : NodeId} (hu : ast.Up x statement) :
    ast.StatementOf c x ↔ ast.constructorOf? statement = some c := by
  rw [constructorOf?_eq_some]
  constructor
  · rintro ⟨st, block, hst, hkind, hrest⟩
    obtain rfl : st = statement := Option.some.inj (hst.symm.trans hu)
    exact ⟨hkind, block, hrest⟩
  · rintro ⟨hkind, block, hrest⟩
    exact ⟨statement, block, hu, hkind, hrest⟩

theorem Extends.statementOf_iff {c : NodeId} (h : a.Extends b) (hl : a.Linked) (hx : x < a.size) :
    b.StatementOf c x ↔ a.StatementOf c x := by
  have hkind {y : NodeId} {k : NodeKind} (hy : y < a.size)
      (hk : ∀ k' : NodeKind, (k'.shape == k) = (k' == k)) :
      b.kind? y = some k ↔ a.kind? y = some k := by
    rw [← isKind_beq, ← isKind_beq, h.isKind_eq hk hy]
  have hup {y z : NodeId} (hy : y < a.size) : b.Up y z ↔ a.Up y z := by
    rw [Up, Up, h.parent?_eq hy]
  refine exists_congr fun st => exists_congr fun block => ?_
  rw [hup hx]
  refine and_congr_right fun hst => ?_
  have hlt := Nat.lt_trans (hl.up_lt hst) hx
  rw [hkind hlt fun k => by cases k <;> rfl, hup hlt]
  refine and_congr_right fun _ => and_congr_right fun hblock => ?_
  have hlt := Nat.lt_trans (hl.up_lt hblock) hlt
  rw [hkind hlt fun k => by cases k <;> rfl, hup hlt]
  refine and_congr_right fun _ => and_congr_right fun hc => ?_
  rw [h.isKind_eq NodeKind.isConstructor_shape (Nat.lt_trans (hl.up_lt hc) hlt)]

/-- A call stands inside no other call of the same constructor. -/
theorem StatementOf.not_above {c : NodeId} (hl : ast.Linked) (hx : ast.StatementOf c x)
    (hy : ast.StatementOf c y) (hk : ast.isKind x NodeKind.isCall) : ¬ TransGen ast.Up y x := by
  obtain ⟨st, block, hst, hkst, hblock, hkblock, hc, hkc⟩ := hy
  have hcx : c < x := by
    obtain ⟨_, _, hst, -, hblock, -, hc, -⟩ := hx
    exact Nat.lt_trans (hl.up_lt hc) (Nat.lt_trans (hl.up_lt hblock) (hl.up_lt hst))
  obtain ⟨k, hkx, hcall⟩ := isKind_iff.mp hk
  -- the next node above, or one that is above it
  have hstep {z p : NodeId} (hu : ast.Up z p) (hz : TransGen ast.Up z x) :
      p = x ∨ TransGen ast.Up p x := by
    obtain ⟨q, hq, hchain⟩ := TransGen.head'_iff.mp hz
    obtain rfl : q = p := Option.some.inj (hq.symm.trans hu)
    exact (reflTransGen_iff_eq_or_transGen.mp hchain).imp_left Eq.symm
  intro hyx
  rcases hstep hst hyx with rfl | hyx
  · rw [hkst] at hkx
    cases hkx
    cases hcall
  rcases hstep hblock hyx with rfl | hyx
  · rw [hkblock] at hkx
    cases hkx
    cases hcall
  rcases hstep hc hyx with rfl | hyx
  · exact Nat.lt_irrefl _ hcx
  · exact Nat.lt_asymm hcx (hl.above_lt hyx)

def MarkedIn (ast : Ast) (c x : NodeId) : Prop :=
  (ast.superMark x).1 ∧ ast.StatementOf c x

def KeepsFirst (ast : Ast) : Prop :=
  ∀ c x, (ast.superMark c).2 = some x ↔ IsLeast {y | ast.MarkedIn c y} x

theorem KeepsFirst.same (h : a.KeepsFirst) (hl : a.Linked) (hext : a.Extends b)
    (hm : b.superMark = a.superMark) : b.KeepsFirst := by
  have hmarked (c y : NodeId) : b.MarkedIn c y ↔ a.MarkedIn c y := by
    rw [MarkedIn, MarkedIn, hm]
    exact and_congr_right fun hy =>
      hext.statementOf_iff hl (lt_size_of_isKind (isKind_of_marked hy))
  intro c x
  simp only [hm, hmarked]
  exact h c x

theorem exists_isLeast {s : Set NodeId} (h : s.Nonempty) : ∃ x, IsLeast s x := by
  obtain ⟨x, hx, hmin⟩ := WellFounded.has_min Nat.lt_wfRel.wf s h
  exact ⟨x, hx, fun y hy => Nat.le_of_not_lt (hmin y hy)⟩

theorem isLeast_insert {s : Set NodeId} {first : Option NodeId}
    (hs : ∀ x, first = some x ↔ IsLeast s x) (hle : ∀ y ∈ s, y ≤ owner) (x : NodeId) :
    (first <|> some owner) = some x ↔ IsLeast (insert owner s) x := by
  have hfirst : IsLeast (insert owner s) ((first <|> some owner).getD owner) := by
    cases hf : first with
    | none =>
      have hempty : s = ∅ := by
        refine Set.eq_empty_iff_forall_notMem.mpr fun y hy => ?_
        obtain ⟨z, hz⟩ := exists_isLeast ⟨y, hy⟩
        rw [← hs z, hf] at hz
        cases hz
      simp [hempty]
    | some z =>
      obtain ⟨hz, hleast⟩ := (hs z).mp hf
      exact ⟨.inr hz, fun y hy => hy.elim (fun he => he ▸ hle z hz) fun hy => hleast hy⟩
  constructor
  · intro hx
    rwa [hx] at hfirst
  · intro hx
    have he := hx.unique hfirst
    cases first <;> simpa using he.symm

structure CallPlace (role : Role) (ast : Ast) (owner : NodeId) : Prop where
  place : Workplace role ast owner
  call : ∀ st, role = .callPart st → ast.isKind owner NodeKind.isCall
  fresh : ∀ y, owner < y → ast.Opened y → TransGen ast.Up y owner

theorem Rule.inside_eq_callPart {id st : NodeId}
    (h : rule.inside owner id = some (.callPart st, o)) : rule = .call := by
  cases rule with
  | call => rfl
  | value form => cases form <;> cases h
  | _ => cases h

namespace CallPlace

variable {head : Cst.Head} {slots : List Tree} (h : CallPlace role ast owner)

include h

theorem next (t : Tree) : CallPlace (role.next t) (visit role owner t ast) owner := by
  obtain ⟨log, hv⟩ := h.place.visits t
  have hext := (hv.run h.place.lt).extension
  refine ⟨h.place.next t, fun st hst => ?_, fun y hy hopen => ?_⟩
  · rw [hext.isKind_eq NodeKind.isCall_shape h.place.lt]
    cases role <;> cases hst
    exact h.call st rfl
  · by_cases hold : y < ast.size
    · exact hext.above (h.fresh y hy ((hext.opened_iff hold).mp hopen))
    · exact hv.under_owner h.place.lt h.place.sound.linked y (Nat.le_of_not_lt hold) hopen

theorem pass {k : Cst.Kind} (hp : Rule.ofRole role k = .pass) : CallPlace .plain ast owner :=
  ⟨h.place.pass hp, nofun, h.fresh⟩

theorem inside {child : Role} (hr : rule.Suits ast owner)
    (hopen : rule.opens? ast owner t = some kind)
    (hi : rule.inside owner ast.size = some (child, o)) :
    o = ast.size ∧ CallPlace child (enter rule owner t ast) ast.size := by
  obtain ⟨ho, hw⟩ := h.place.inside hr hopen hi
  obtain ⟨-, -, -, hs⟩ := Ast.opened h.place.sound hr h.place.lt hopen
  obtain ⟨-, henter⟩ := enter_opened h.place.sound hr h.place.lt hopen
  refine ⟨ho, hw, fun st hst => ?_, fun y hy hnew => ?_⟩
  · subst hst
    obtain rfl := Rule.inside_eq_callPart hi
    cases hopen
    rw [isKind_eq_shape? NodeKind.isCall_shape, hs]
    rfl
  · refine absurd hnew (henter.leaf_of_new ?_)
    rw [size_addListed]
    exact hy

end CallPlace

theorem callPlace_ofSpan (span : Span) : CallPlace .plain (ofSpan span) rootId := by
  refine ⟨workplace_ofSpan span, nofun, fun y hy hopen => ?_⟩
  exact absurd hopen.lt (Nat.not_lt.mpr hy)

theorem markedIn_enterSuperCall {c : NodeId} (hl : ast.Linked)
    (hk : ast.isKind owner NodeKind.isCall) (hu : ast.Up owner statement) :
    (ast.enterSuperCall owner statement).MarkedIn c y ↔
      (y = owner ∧ ast.constructorOf? statement = some c) ∨ ast.MarkedIn c y := by
  have hrun : Run (leafSite owner ast.size False) ast [] _ := enterSuperCall_run hu
  have hstatement {y : NodeId} (hy : y < ast.size) :=
    hrun.extension.statementOf_iff (c := c) hl hy
  rw [MarkedIn, superMark_enterSuperCall hk, MarkedIn, Bool.or_eq_true, beq_iff_eq, or_comm,
    or_and_right]
  refine or_congr (and_congr_right fun hy => ?_) (and_congr_right fun hy => ?_)
  · rw [hy, hstatement (lt_size_of_up hu), statementOf_iff hu]
  · exact hstatement (lt_size_of_isKind (isKind_of_marked hy))

/-- A call that is read now comes behind the calls of its constructor that were read before. -/
theorem KeepsFirst.enterSuperCall (h : ast.KeepsFirst) (hw : CallPlace role ast owner)
    (hk : ast.isKind owner NodeKind.isCall) (hu : ast.Up owner statement) :
    (ast.enterSuperCall owner statement).KeepsFirst := by
  have hl := hw.place.sound.linked
  intro c x
  simp only [markedIn_enterSuperCall hl hk hu, superMark_enterSuperCall hk]
  by_cases hc : ast.constructorOf? statement = some c
  · simp only [hc, and_true, ↓reduceIte]
    have hself : ast.StatementOf c owner := (statementOf_iff hu).mpr hc
    refine isLeast_insert (h c) (fun y hy => Nat.le_of_not_lt fun hlt => ?_) x
    exact hself.not_above hl hy.2 hk (hw.fresh y hlt (opened_of_marked hy.1))
  · simp only [hc, and_false, false_or, ↓reduceIte]
    exact h c x

theorem Rule.ofRole_eq_superCall {k : Cst.Kind} :
    ofRole role k = .superCall statement ↔ role = .callPart statement ∧ k = .super := by
  cases role with
  | callPart st => cases k <;> simp [ofRole, ofCallPart, ofKind]
  | arrowPart behind => cases behind <;> cases k <;> simp [ofRole, beforeArrow, behindArrow, ofKind]
  | declaratorPart behind =>
    cases behind <;> cases k <;> simp [ofRole, ofDeclaratorPart, ofKind]
  | assignmentSlot place =>
    rcases place with _ | _ | _ | _ <;> cases k <;> simp [ofRole, ofAssignmentSlot, ofValueKind]
  | plain => cases k <;> simp [ofRole, ofKind]
  | declarationPart _ => cases k <;> simp [ofRole, ofDeclarationPart]
  | instancePart => cases k <;> simp [ofRole, ofInstancePart]
  | taggedPart => cases k <;> simp [ofRole, ofTaggedPart, ofKind]
  | propertyPart => cases k <;> simp [ofRole, ofPropertyPart, ofValueKind]
  | callablePart => cases k <;> simp [ofRole, ofCallablePart]
  | declarationList => cases k <;> simp [ofRole, ofDeclarationList, ofKind]
  | newPart => cases k <;> simp [ofRole, ofNewPart, ofKind]

theorem Rule.ne_superCall (h : rule.opens? a owner t = some kind) (st : NodeId) :
    rule ≠ .superCall st := by
  rintro rfl
  cases h

theorem Rule.eq_call_of_opens (h : (ofRole role .callExpression).opens? a owner t = some kind) :
    ofRole role .callExpression = .call := by
  cases role with
  | arrowPart behind =>
    cases behind with
    | false => cases h
    | true => rfl
  | assignmentSlot place => rcases place with _ | _ | _ | _ <;> cases h
  | declarationPart _ | instancePart | propertyPart | callablePart => cases h
  | _ => rfl

theorem Rule.eq_call (hr : rule.Suits a owner) (h : rule.opens? a owner t = some kind)
    (hk : kind.isCall) : rule = .call := by
  cases rule with
  | call => rfl
  | wrap kind =>
    cases h
    cases kind with
    | call => cases hr
    | _ => cases hk
  | value form => cases form <;> cases h <;> cases hk
  | _ => cases h <;> cases hk

theorem Rule.kind_of_ofRole {k : Cst.Kind} (h : ofRole role k = .call) : k = .callExpression := by
  cases k with
  | callExpression => rfl
  | _ => cases role with
    | arrowPart behind => cases behind <;> cases h
    | declaratorPart behind => cases behind <;> cases h
    | assignmentSlot place => rcases place with _ | _ | _ | _ <;> cases h
    | _ => cases h

mutual

theorem visit_keepsFirst : (t : Tree) → {role : Role} → {ast : Ast} → {owner : NodeId} →
    CallPlace role ast owner → ast.KeepsFirst → (visit role owner t ast).KeepsFirst
  | .missing, _, _, _, _, h => h
  | .node head slots, role, ast, owner, hw, h => by
    have hplace := hw.place
    have hsuits := (Rule.ofRole_serves hplace.suits (Cst.Kind.ofName head.kind)).suits
    have hmarks := superMark_visit role owner head slots ast
    obtain ⟨log, hv⟩ := hplace.visits (.node head slots)
    have hext := (hv.run hplace.lt).extension
    have hl := hplace.sound.linked
    cases hplace.visitCase head slots with
    | leaves ho hi hrun =>
      rw [hi] at hmarks
      rw [visit_of_not_opened ho hi]
      by_cases hsuper : ∃ st, Rule.ofRole role (Cst.Kind.ofName head.kind) = .superCall st
      · obtain ⟨st, hst⟩ := hsuper
        obtain ⟨rfl, -⟩ := Rule.ofRole_eq_superCall.mp hst
        rw [hst] at hsuits ⊢
        exact h.enterSuperCall hw (hw.call st rfl) hsuits
      · rw [visit_of_not_opened ho hi] at hext
        exact h.same hl hext (superMark_enter hsuits (not_exists.mp hsuper))
    | pass hp _ hvisit =>
      rw [hvisit]
      exact visitAll_keepsFirst slots (hw.pass hp) h
    | @closed kind ho hi hopening =>
      rw [hi] at hmarks
      exact h.same hl hext (hmarks.trans (superMark_enter hsuits (Rule.ne_superCall ho)))
    | @node kind child ho hi hinner hopening =>
      rw [hi] at hmarks
      obtain ⟨-, hcall⟩ := hw.inside hsuits ho hi
      obtain ⟨hent, -⟩ := Ast.opened hplace.sound hsuits hplace.lt ho
      have hentered := h.same hl hent (superMark_enter hsuits (Rule.ne_superCall ho))
      obtain ⟨log, hv⟩ := hinner.visitsAll slots
      have hlinked := ((hv.run hinner.lt).sound hinner.sound).linked
      exact (visitAll_keepsFirst slots hcall hentered).same hlinked hopening.leave.extension hmarks

theorem visitAll_keepsFirst : (ts : List Tree) → {role : Role} → {ast : Ast} → {owner : NodeId} →
    CallPlace role ast owner → ast.KeepsFirst → (visitAll role owner ts ast).KeepsFirst
  | [], _, _, _, _, h => h
  | t :: rest, _, _, _, hw, h => visitAll_keepsFirst rest (hw.next t) (visit_keepsFirst t hw h)

end

theorem build_keepsFirst {root : Tree} {name : String} (h : build root name = .ok ast) :
    ast.KeepsFirst := by
  rw [eq_of_build h]
  refine visitAll_keepsFirst root.slots (callPlace_ofSpan root.span) fun c x => ?_
  have hnone (y : NodeId) : (ofSpan root.span).superMark y = (false, none) := by cases y <;> rfl
  simp [IsLeast, MarkedIn, hnone]

def Role.isCallPart : Role → Bool
  | .callPart _ => true
  | _ => false

mutual

theorem marked_visit : (t : Tree) → {role : Role} → {ast : Ast} → {owner y : NodeId} →
    CallPlace role ast owner → y < ast.size → ((visit role owner t ast).superMark y).1 =
      ((ast.superMark y).1 || (y == owner && (role.isCallPart && t.kind == some .super)))
  | .missing, _, _, _, _, _, _ => by
    unfold visit
    simp [Tree.kind]
  | .node head slots, role, ast, owner, y, hw, hy => by
    have hplace := hw.place
    have hsuits := (Rule.ofRole_serves hplace.suits (Cst.Kind.ofName head.kind)).suits
    rw [superMark_visit]
    by_cases hsuper : ∃ st, Rule.ofRole role (Cst.Kind.ofName head.kind) = .superCall st
    · obtain ⟨st, hst⟩ := hsuper
      obtain ⟨rfl, hkind⟩ := Rule.ofRole_eq_superCall.mp hst
      rw [hst]
      simp only [Rule.inside, enter, superMark_enterSuperCall (hw.call st rfl), Role.isCallPart,
        Tree.kind, hkind, beq_self_eq_true, Bool.and_true]
    · have henter := superMark_enter (t := .node head slots) hsuits (not_exists.mp hsuper)
      have hquiet :
          (role.isCallPart && (Cst.Tree.node head slots).kind == some .super) = false := by
        refine Bool.eq_false_iff.mpr fun hboth => hsuper ?_
        rw [Bool.and_eq_true, beq_iff_eq] at hboth
        cases role <;> cases hboth.1
        exact ⟨_, Rule.ofRole_eq_superCall.mpr ⟨rfl, Option.some.inj hboth.2⟩⟩
      rw [hquiet, Bool.and_false, Bool.or_false, ← henter]
      cases hplace.visitCase head slots with
      | leaves _ hi _ | closed _ hi _ => rw [hi]
      | pass hp _ _ =>
        rw [hp]
        exact (marked_visitAll slots (hw.pass hp) hy).trans (by simp [Role.isCallPart, enter])
      | node ho hi _ _ =>
        obtain ⟨-, hcall⟩ := hw.inside hsuits ho hi
        have hlt : y < (enter (Rule.ofRole role (Cst.Kind.ofName head.kind)) owner
            (.node head slots) ast).size := Nat.lt_trans hy hcall.place.lt
        have hne : (y == ast.size) = false := beq_eq_false_iff_ne.mpr (Nat.ne_of_lt hy)
        rw [hi]
        exact (marked_visitAll slots hcall hlt).trans (by rw [hne, Bool.false_and, Bool.or_false])

theorem marked_visitAll : (ts : List Tree) → {role : Role} → {ast : Ast} → {owner y : NodeId} →
    CallPlace role ast owner → y < ast.size → ((visitAll role owner ts ast).superMark y).1 =
      ((ast.superMark y).1 ||
        (y == owner && (role.isCallPart && ts.any fun t => t.kind == some .super)))
  | [], _, _, _, _, _, _ => by
    unfold visitAll
    simp
  | t :: rest, role, ast, owner, y, hw, hy => by
    obtain ⟨log, hv⟩ := hw.place.visits t
    have hlt := Nat.lt_of_lt_of_le hy (hv.run hw.place.lt).extension.size_le
    have hrole : (role.next t).isCallPart = role.isCallPart := by cases role <;> rfl
    unfold visitAll
    rw [marked_visitAll rest (hw.next t) hlt, marked_visit t hw hy, hrole, List.any_cons,
      Bool.or_assoc, ← Bool.and_or_distrib_left, ← Bool.and_or_distrib_left]

end

namespace Moment

variable {m : Moment}

theorem In.callPlace (h : m.In role owner ts a) (hw : CallPlace role a owner) :
    CallPlace m.role m.ast m.owner := by
  induction h with
  | here => exact hw
  | later _ ih => exact ih (hw.next _)
  | @inside role child owner o head slots _ a hi _ ih =>
    have hsuits := (Rule.ofRole_serves hw.place.suits (Cst.Kind.ofName head.kind)).suits
    cases hw.place.visitCase head slots with
    | leaves _ hnone _ | closed _ hnone _ =>
      rw [hnone] at hi
      cases hi
    | pass hp _ _ =>
      rw [hp] at hi ih
      cases hi
      exact ih (hw.pass hp)
    | node ho _ _ _ =>
      obtain ⟨rfl, hcall⟩ := hw.inside hsuits ho hi
      exact ih hcall

/-- A call that was added at a moment is not marked any more behind it. -/
theorem In.marked (h : m.In role owner ts a) (hw : CallPlace role a owner) {y : NodeId}
    (hy : m.ast.size ≤ y) (hlt : y < m.after.size) :
    ((visitAll role owner ts a).superMark y).1 = (m.after.superMark y).1 := by
  have hbehind {role : Role} {owner : NodeId} {ts : List Tree} {b : Ast}
      (hw : CallPlace role b owner) (ho : owner < m.ast.size) (hyb : y < b.size) :
      ((visitAll role owner ts b).superMark y).1 = (b.superMark y).1 := by
    have hne : (y == owner) = false :=
      beq_eq_false_iff_ne.mpr (Nat.ne_of_gt (Nat.lt_of_lt_of_le ho hy))
    rw [marked_visitAll ts hw hyb, hne, Bool.false_and, Bool.or_false]
  induction h with
  | here => exact hbehind (hw.next _) hw.place.lt hlt
  | later _ ih => exact ih (hw.next _)
  | @inside role child owner o head slots ts a hi h ih =>
    have hin : m.In role owner [.node head slots] a := .inside hi h
    have hext := (hin.settled hw.place).extension
    obtain ⟨-, hext'⟩ := hin.workplace hw.place
    have hsuits := (Rule.ofRole_serves hw.place.suits (Cst.Kind.ofName head.kind)).suits
    refine (hbehind (hw.next _) (Nat.lt_of_lt_of_le hw.place.lt hext'.size_le)
      (Nat.lt_of_lt_of_le hlt hext.size_le)).trans ?_
    rw [superMark_visit, hi]
    cases hw.place.visitCase head slots with
    | leaves _ hnone _ | closed _ hnone _ =>
      rw [hnone] at hi
      cases hi
    | pass hp _ _ =>
      rw [hp] at hi ih ⊢
      cases hi
      exact ih (hw.pass hp)
    | node ho _ _ _ =>
      obtain ⟨rfl, hcall⟩ := hw.inside hsuits ho hi
      exact ih hcall

/-- A node is opened for a call expression that has the word for the base constructor among its
parts. -/
structure IsSuperCall (m : Moment) : Prop where
  opens : m.opens?.isSome
  call : m.tree.kind = some .callExpression
  word : ∃ t ∈ m.tree.slots, t.kind = some .super

theorem In.marked_iff (h : m.In role owner ts a) (hw : CallPlace role a owner)
    (ho : m.opens?.isSome) (hk : m.tree.kind = some .callExpression) :
    ((visitAll role owner ts a).superMark m.ast.size).1 ↔
      ∃ t ∈ m.tree.slots, t.kind = some .super := by
  have hcall := h.callPlace hw
  have hmarked := h.marked hw (Nat.le_refl m.ast.size)
  clear h
  obtain ⟨role', owner', tree, b⟩ := m
  cases tree with
  | missing => cases hk
  | node head slots =>
    have hkind : Cst.Kind.ofName head.kind = .callExpression := Option.some.inj hk
    obtain ⟨kind, ho⟩ := Option.isSome_iff_exists.mp ho
    change (Rule.ofRole role' (Cst.Kind.ofName head.kind)).opens? b owner' (.node head slots) =
      some kind at ho
    obtain ⟨hup, -⟩ := hcall.place.visit_opened ho
    have hserves := Rule.ofRole_serves hcall.place.suits (Cst.Kind.ofName head.kind)
    have hrule : Rule.ofRole role' (Cst.Kind.ofName head.kind) = .call := by
      rw [hkind] at ho ⊢
      exact Rule.eq_call_of_opens ho
    rw [hrule] at ho hserves
    obtain ⟨-, hinner⟩ := hcall.inside hserves.suits ho rfl
    have hnone : (enter .call owner' (.node head slots) b).superMark b.size = (false, none) := by
      rw [superMark_enter hserves.suits nofun, superMark_of_size_le (Nat.le_refl _)]
    rw [hmarked (lt_size_of_up hup)]
    dsimp only [after]
    rw [superMark_visit, hrule]
    dsimp only [Rule.inside]
    rw [marked_visitAll slots hinner hinner.place.lt, hnone]
    simp [Role.isCallPart, Tree.slots]

end Moment

/-- `x` is a call of the base constructor among the statements of the constructor `c`. -/
def SuperCallOf (ast : Ast) (root : Tree) (c x : NodeId) : Prop :=
  ∃ m : Moment, m.Of root ∧ m.ast.size = x ∧ m.IsSuperCall ∧ ast.StatementOf c x

theorem markedIn_iff {root : Tree} {name : String} (h : build root name = .ok ast) {c : NodeId} :
    ast.MarkedIn c x ↔ ast.SuperCallOf root c x := by
  have hw := callPlace_ofSpan root.span
  have hl := build_linked h
  obtain rfl := eq_of_build h
  constructor
  · rintro ⟨hmark, hst⟩
    have hpos : (ofSpan root.span).size ≤ x := by
      obtain ⟨st, -, hup, -⟩ := hst
      exact Nat.lt_of_le_of_lt (Nat.zero_le st) (hl.up_lt hup)
    obtain ⟨k, hkind, hcall⟩ := isKind_iff.mp (isKind_of_marked hmark)
    obtain ⟨m, hm, rfl, ho⟩ :=
      visitAll_moment root.slots hw.place x hpos (opened_of_marked hmark)
    obtain ⟨kind, ho'⟩ := Option.isSome_iff_exists.mp ho
    obtain ⟨hplace, -⟩ := hm.workplace hw.place
    obtain ⟨-, hs⟩ := hm.opened hw.place ho'
    rw [shape?, hkind] at hs
    cases hs
    obtain ⟨rule, hrule, hopens⟩ := Option.bind_eq_some_iff.mp ho'
    obtain ⟨k', hk', rfl⟩ := Option.map_eq_some_iff.mp hrule
    have hsuits := (Rule.ofRole_serves hplace.suits k').suits
    rw [← k.isCall_shape] at hcall
    have hcst : m.tree.kind = some .callExpression :=
      Rule.kind_of_ofRole (Rule.eq_call hsuits hopens hcall) ▸ hk'
    exact ⟨m, hm, rfl, ⟨ho, hcst, (hm.marked_iff hw ho hcst).mp hmark⟩, hst⟩
  · rintro ⟨m, hm, rfl, hsuper, hst⟩
    exact ⟨(hm.marked_iff hw hsuper.opens hsuper.call).mpr hsuper.word, hst⟩

/-- A constructor of a built tree keeps the first call of the base constructor among its
statements. -/
theorem build_superCall {root : Tree} {name : String} (h : build root name = .ok ast)
    (c x : NodeId) : (ast.superMark c).2 = some x ↔ IsLeast {y | ast.SuperCallOf root c y} x := by
  rw [build_keepsFirst h c x]
  simp only [markedIn_iff h]

end ComponentCompiler.Ast
