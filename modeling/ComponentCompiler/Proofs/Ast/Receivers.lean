import ComponentCompiler.Proofs.Ast.Naming
import ComponentCompiler.Proofs.Ast.SourceOrder

namespace ComponentCompiler

namespace Cst.Tree

inductive Within (t : Tree) : Tree → Prop
  | self : Within t t
  | slot {head : Head} {slots : List Tree} {s : Tree} (hs : s ∈ slots) (h : Within t s) :
      Within t (.node head slots)

variable {s t u : Tree}

theorem Within.trans (h : s.Within t) (h' : t.Within u) : s.Within u := by
  induction h' with
  | self => exact h
  | slot hs _ ih => exact .slot hs ih

theorem Within.spaced (h : s.Within t) (ht : t.Spaced) : s.Spaced := by
  induction h with
  | self => exact ht
  | slot hs _ ih => exact ih (ht.line.spaced _ hs)

theorem Within.isPresent (h : s.Within t) (hs : s.isPresent) : t.isPresent := by
  cases h with
  | self => exact hs
  | slot => rfl

theorem Within.contains (h : s.Within t) (ht : t.Spaced) (hs : s.isPresent) :
    t.span.start ≤ s.span.start ∧ s.span.stop ≤ t.span.stop := by
  induction h with
  | self => exact ⟨Nat.le_refl _, Nat.le_refl _⟩
  | @slot head slots u hmem h ih =>
    obtain ⟨hstart, hstop⟩ := ih (ht.line.spaced u hmem)
    have hin := ht.line.inside u hmem (h.isPresent hs)
    rw [Ast.contains_iff] at hin
    exact ⟨Nat.le_trans hin.1 hstart, Nat.le_trans hstop hin.2⟩

theorem within_of_mem_children (h : s ∈ t.children) : s.Within t := by
  have hs := (List.mem_filter.mp h).1
  cases t with
  | missing => cases hs
  | node head slots => exact .slot hs .self

end Cst.Tree

namespace Cst.Table

open Relation

variable {cst : Table} {root : Tree} {source : String}

theorem cuts_of_within (hroot : cst.tree? = some root) (hn : cst.WellNested source) {t : Tree}
    (h : t.Within root) (ht : t.isPresent) : t.span.Cuts source := by
  revert h
  refine tree?_induct (P := fun s => t.Within s → t.span.Cuts source) ?_ ?_ ?_ hroot
  · intro h
    cases h with
    | self => exact Span.cuts_empty source
    | slot hs => cases hs
  · intro h
    cases h
    cases ht
  · intro d i e slots hreach _ ih h
    cases h with
    | self => exact hn.span i e hreach
    | slot hs h => exact ih _ hs h

end Cst.Table

namespace Ast

open Cst (Tree)
open Relation

variable {a b c ast : Ast} {id o owner p q x : NodeId} {head : Cst.Head} {slots : List Tree}
  {t : Tree} {kind : NodeKind} {span : Span} {rule : Rule} {role : Role}

def Spares (p : NodeId) (a b : Ast) : Prop :=
  p < a.size → p < b.size ∧ b.children p = a.children p

theorem Spares.refl (p : NodeId) (a : Ast) : Spares p a a :=
  fun hp => ⟨hp, rfl⟩

theorem Spares.trans (h : Spares p a b) (h' : Spares p b c) : Spares p a c := by
  intro hp
  obtain ⟨hlt, hchildren⟩ := h hp
  obtain ⟨hlt', hchildren'⟩ := h' hlt
  exact ⟨hlt', hchildren'.trans hchildren⟩

theorem SameNodes.spares (h : SameNodes a b) : Spares p a b :=
  fun hp => ⟨h.size ▸ hp, congrFun h.children p⟩

theorem spares_modifyKind {f : NodeKind → NodeKind} : Spares p a (a.modifyKind q f) := by
  intro hp
  refine ⟨?_, observe_modify (fun n => n.children) _ fun _ _ => rfl⟩
  rw [modifyKind, modify, size, Array.size_modify]
  exact hp

theorem spares_add (hne : p ≠ q) : Spares p a (a.add kind span q) := by
  intro hp
  have hnode : (a.add kind span q).node? p = a.node? p := by
    have hsize : p ≠ a.nodes.size := Nat.ne_of_lt hp
    simp [node?, add, Array.getElem?_modify, Array.getElem?_push, hne.symm, hsize]
  refine ⟨?_, by rw [children, children, hnode]⟩
  rw [size_add]
  exact Nat.lt_succ_of_lt hp

theorem spares_foldl {α β : Type} {f : α → β → α} {g : α → Ast}
    (hf : ∀ s y, Spares p (g s) (g (f s y))) (ys : List β) (s : α) :
    Spares p (g s) (g (ys.foldl f s)) := by
  induction ys generalizing s with
  | nil => exact .refl p (g s)
  | cons y rest ih => exact (hf s y).trans (ih (f s y))

theorem spares_addAll (hne : p ≠ q) (spans : List Span) : Spares p a (a.addAll kind spans q) :=
  spares_foldl (g := id) (fun _ _ => spares_add hne) spans a

theorem spares_enterImport (hid : p ≠ a.size) :
    Spares p (a.addListed (.importStatement {}) t.span owner) (a.enterImport owner t) := by
  have hpart (state : Ast × ImportData) (t : Tree) :
      Spares p state.1 (addImportPart a.size state t).1 := by
    unfold addImportPart
    dsimp only
    split
    · split
      · exact spares_add hid
      · exact .refl p _
    · exact .refl p _
    · exact fun hp => (spares_add hid).trans (spares_addAll (Nat.ne_of_lt hp) _) hp
    · exact .refl p _
  have hparts := spares_foldl (g := Prod.fst) hpart t.children
    (a.addListed (.importStatement {}) t.span owner, {})
  exact hparts.trans spares_modifyKind

section

variable (hne : p ≠ owner)

include hne

theorem spares_part {f : NodeKind → NodeKind} :
    Spares p a ((a.add kind span owner).modifyKind q f) :=
  (spares_add hne).trans spares_modifyKind

theorem spares_list (spans : List Span) :
    Spares p a ((a.add kind span owner).addAll .identifier spans a.size) :=
  fun hp => (spares_add hne).trans (spares_addAll (Nat.ne_of_lt hp) spans) hp

theorem spares_identify : Spares p a
    (((a.add .identifier span owner).modifyKind owner (.withId a.size)).declare owner a.size) :=
  (spares_part hne).trans (sameNodes_declare _ _ _).spares

theorem spares_enterDeclaration : Spares p a (a.enterDeclaration owner t) :=
  iteInduction (motive := Spares p a) (fun _ => spares_add hne) fun _ => spares_add hne

theorem spares_enterInstance : Spares p a (a.enterInstance owner t) :=
  iteInduction (motive := Spares p a) (fun _ => spares_add hne) fun _ => spares_add hne

theorem spares_enterHeritage : Spares p a (a.enterHeritage owner t) := by
  unfold enterHeritage
  dsimp only
  refine Spares.trans ?_ spares_modifyKind
  split
  · exact (spares_list hne _).trans (sameNodes_use _ _ _).spares
  · exact spares_list hne _

theorem spares_enterExplicitId : Spares p a (a.enterExplicitId owner t) := by
  unfold enterExplicitId
  split
  · exact .refl p a
  · exact spares_identify hne

theorem spares_enterBoundName : Spares p a (a.enterBoundName owner t) := by
  unfold enterBoundName
  split
  · exact .refl p a
  · exact spares_part hne

theorem spares_enterTypeSegment : Spares p a (a.enterTypeSegment owner t) :=
  iteInduction (motive := Spares p a) (fun _ => (spares_part hne).trans (sameNodes_use _ _ _).spares)
    fun _ => spares_part hne

theorem spares_enterCallableName : Spares p a (a.enterCallableName owner t) :=
  iteInduction (motive := Spares p a) (fun _ => .refl p a) fun _ => spares_part hne

theorem spares_enterTypedParameters : Spares p a (a.enterTypedParameters owner t) := by
  intro hp
  have hid : p ≠ a.size := Nat.ne_of_lt hp
  have hparams : Spares p (a.add .formalParameters t.span owner) _ :=
    spares_foldl (f := addTypedParameter a.size) (g := Prod.snd)
      (fun _ _ => (spares_add hid).trans (spares_add hid)) (typedPairs t)
      ([], a.add .formalParameters t.span owner)
  exact (((spares_add hne).trans hparams).trans spares_modifyKind) hp

end

/-- What a rule does before the children are visited adds nothing to a node that is neither the
owner nor the component of its body. -/
theorem spares_enter (hne : p ≠ owner) (hb : a.bodyOwner? owner ≠ some p) :
    Spares p a (enter rule owner t a) := by
  cases rule with
  | skip | pass => exact .refl p a
  | importStatement =>
    intro hp
    have hopen : Spares p a (a.addListed (.importStatement {}) t.span owner) := spares_add hne
    exact (hopen.trans (spares_enterImport (Nat.ne_of_lt hp))) hp
  | declaration => exact spares_enterDeclaration hne
  | instance_ => exact spares_enterInstance hne
  | idAssignment =>
    change Spares p a (a.enterIdAssignment owner t)
    unfold enterIdAssignment
    split
    · next o _ ho _ => exact spares_identify fun he => hb (he ▸ ho)
    · exact .refl p a
  | declarationName outer => exact (spares_part hne).trans (sameNodes_declare _ _ _).spares
  | heritage => exact spares_enterHeritage hne
  | explicitId => exact spares_enterExplicitId hne
  | boundName => exact spares_enterBoundName hne
  | typeSegment => exact spares_enterTypeSegment hne
  | tag =>
    exact ((spares_add hne).trans (sameNodes_use _ _ _).spares).trans spares_modifyKind
  | assignmentPath => exact (spares_addAll hne _).trans spares_modifyKind
  | callableName => exact spares_enterCallableName hne
  | parameters => exact (spares_list hne _).trans spares_modifyKind
  | typedParameters => exact spares_enterTypedParameters hne
  | callableBody =>
    exact ((spares_add hne).trans (sameNodes_declareAll _ _ _).spares).trans spares_modifyKind
  | arrowParameters =>
    exact ((spares_list hne _).trans (sameNodes_declareAll _ _ _).spares).trans spares_modifyKind
  | arrowParameter =>
    exact ((spares_add hne).trans (sameNodes_declare _ _ _).spares).trans spares_modifyKind
  | superCall statement => 
    change Spares p a (a.enterSuperCall owner statement)
    unfold enterSuperCall
    dsimp only
    split
    · exact spares_modifyKind
    · exact spares_modifyKind.trans spares_modifyKind
  | declaredName => exact (spares_add hne).trans (sameNodes_declare _ _ _).spares
  | reference => exact (spares_add hne).trans (sameNodes_use _ _ _).spares
  | value form =>
    cases form with
    | component => exact spares_enterDeclaration hne
    | expression | block => exact spares_add hne
  | tagText | propertyType | propertyName => exact spares_part hne
  | leaf _ | wrap _ | tagged | property | assignment | member | callable _ | arrow | call
  | newExpression | classDeclaration | variableList | declarator | body | argumentList
  | arrowBody => exact spares_add hne

theorem children_enter_opened (ho : owner < a.size) (h : rule.opens? a owner t = some kind) :
    (enter rule owner t a).children owner = a.children owner ++ [a.size] := by
  suffices hadd : ∃ kind, Spares owner (a.add kind t.span owner) (enter rule owner t a) by
    obtain ⟨kind, hspares⟩ := hadd
    have hlt : owner < (a.add kind t.span owner).size := by
      rw [size_add]
      exact Nat.lt_succ_of_lt ho
    rw [(hspares hlt).2, children_add ho, if_pos rfl]
  have hexports {e : Ast} (hc : Prop) [Decidable hc] :
      Spares owner e (if hc then { e with exports := e.exports ++ [a.size] } else e) :=
    iteInduction (motive := Spares owner e) (fun _ => .refl owner e) fun _ => .refl owner e
  cases rule with
  | importStatement => exact ⟨_, spares_enterImport (Nat.ne_of_lt ho)⟩
  | declaration => exact ⟨_, hexports _⟩
  | instance_ => exact ⟨_, hexports _⟩
  | callableBody => exact ⟨_, (sameNodes_declareAll _ _ _).spares.trans spares_modifyKind⟩
  | value form =>
    cases form with
    | component => exact ⟨_, hexports _⟩
    | expression | block => exact ⟨_, .refl owner _⟩
  | wrap _ | tagged | property | assignment | member | callable _ | arrow | call | newExpression
  | classDeclaration | variableList | declarator | body | argumentList | arrowBody =>
    exact ⟨_, .refl owner _⟩
  | _ => cases h

theorem visit_of_not_opened
    (ho : (Rule.ofRole role (Cst.Kind.ofName head.kind)).opens? ast owner (.node head slots) = none)
    (hi : (Rule.ofRole role (Cst.Kind.ofName head.kind)).inside owner ast.size = none) :
    visit role owner (.node head slots) ast =
      enter (Rule.ofRole role (Cst.Kind.ofName head.kind)) owner (.node head slots) ast := by
  unfold visit
  dsimp only
  rw [hi]
  exact (Rule.leaves_cases ho).2 _ _

theorem visit_spares_of_inside (hw : Workplace role ast owner)
    (ho : (Rule.ofRole role (Cst.Kind.ofName head.kind)).opens? ast owner (.node head slots) =
      some kind)
    (hinner : ∀ child entered, ast.Extends entered → Workplace child entered ast.size →
      Spares p entered (visitAll child ast.size slots entered)) :
    Spares p (enter (Rule.ofRole role (Cst.Kind.ofName head.kind)) owner (.node head slots) ast)
      (visit role owner (.node head slots) ast) := by
  have hserves := Rule.ofRole_serves hw.suits (Cst.Kind.ofName head.kind)
  unfold visit
  generalize Rule.ofRole role (Cst.Kind.ofName head.kind) = rule at ho hserves
  obtain ⟨hext, -, hu, hs⟩ := Ast.opened hw.sound hserves.suits hw.lt ho
  refine Spares.trans ?_ (leave_same _ _ _ _).spares
  rcases Rule.inside_of_opened hserves.suits ho hu hs with hnone | ⟨child, hchild, -, -⟩
  · rw [hnone]
    exact .refl p _
  · rw [hchild]
    exact hinner child _ hext (hw.inside hserves.suits ho hchild).2

theorem Extends.kind?_member (h : a.Extends b) (hk : a.kind? p = some .member) :
    b.kind? p = some .member := by
  refine h.kind?_eq_some (fun k hk => ?_) hk
  cases k <;> cases hk
  rfl

mutual

/-- A member expression gets no children while something is visited under another node. -/
theorem visit_spares : (t : Tree) → {role : Role} → {ast : Ast} → {owner : NodeId} →
    Workplace role ast owner → ast.kind? p = some .member → p ≠ owner →
    Spares p ast (visit role owner t ast)
  | .missing, _, ast, _, _, _, _ => .refl p ast
  | .node head slots, role, ast, owner, hw, hk, hne => by
    have hbody : ast.bodyOwner? owner ≠ some p := by
      intro hb
      obtain ⟨-, -, hm⟩ := bodyOwner?_eq_some.mp hb
      rw [isKind, hk] at hm
      cases hm
    have hentered : Spares p ast (enter (Rule.ofRole role (Cst.Kind.ofName head.kind)) owner
        (.node head slots) ast) := spares_enter hne hbody
    cases hw.visitCase head slots with
    | leaves ho hi _ =>
      rw [visit_of_not_opened ho hi]
      exact hentered
    | pass _ hplain hvisit =>
      rw [hvisit]
      exact visitAll_spares slots hplain hk hne
    | closed ho _ _ | node ho _ _ _ =>
      refine hentered.trans (visit_spares_of_inside hw ho fun child entered hext hinner => ?_)
      exact visitAll_spares slots hinner (hext.kind?_member hk)
        (Nat.ne_of_lt (lt_size_of_kind? hk))

theorem visitAll_spares : (ts : List Tree) → {role : Role} → {ast : Ast} → {owner : NodeId} →
    Workplace role ast owner → ast.kind? p = some .member → p ≠ owner →
    Spares p ast (visitAll role owner ts ast)
  | [], _, ast, _, _, _, _ => .refl p ast
  | t :: rest, _, _, _, hw, hk, hne => by
    obtain ⟨log, hv⟩ := hw.visits t
    have hnext := (hv.run hw.lt).extension.kind?_member hk
    exact (visit_spares t hw hk hne).trans (visitAll_spares rest (hw.next t) hnext hne)

end

mutual

/-- The outermost trees that a tree has nodes for inside an expression. -/
def heads : Tree → List Tree
  | .missing => []
  | .node head slots =>
    match Rule.ofKind (Cst.Kind.ofName head.kind) with
    | .pass => headsAll slots
    | .idAssignment => []
    | _ => [.node head slots]

def headsAll : List Tree → List Tree
  | [] => []
  | t :: rest => heads t ++ headsAll rest

end

def childSpans (ast : Ast) (p : NodeId) : List Span :=
  (ast.children p).map ast.span

theorem childSpans_of_added (hext : a.Extends b) (hl : a.Linked)
    (hc : b.children p = a.children p ++ [a.size]) (hs : b.span a.size = span) :
    b.childSpans p = a.childSpans p ++ [span] := by
  unfold childSpans
  rw [hc, List.map_append, List.map_singleton, hs]
  refine congrArg (· ++ [span]) (List.map_congr_left fun x hx => ?_)
  exact hext.span_eq (lt_size_of_up ((mem_children hl).mp hx))

theorem Workplace.span_visit_opened (hw : Workplace role ast owner)
    (ho : (Rule.ofRole role (Cst.Kind.ofName head.kind)).opens? ast owner (.node head slots) =
      some kind) : (visit role owner (.node head slots) ast).span ast.size = head.span := by
  suffices hadded : ∃ kind : NodeKind, (ast.addListed kind head.span owner).Extends
      (visit role owner (.node head slots) ast) by
    obtain ⟨kind, hext⟩ := hadded
    have hlt : ast.size < (ast.addListed kind head.span owner).size := by simp
    rw [hext.span_eq hlt, span_addListed hw.lt, if_pos rfl]
  cases hw.visitCase head slots with
  | leaves hnone _ _ =>
    rw [hnone] at ho
    cases ho
  | pass hp _ _ =>
    rw [hp] at ho
    cases ho
  | closed _ _ hopening =>
    obtain ⟨kind, -, hrun⟩ := hopening.enter
    exact ⟨kind, hrun.extension.trans hopening.leave.extension⟩
  | node _ _ hinner hopening =>
    obtain ⟨kind, -, hrun⟩ := hopening.enter
    obtain ⟨log, hv⟩ := hinner.visitsAll slots
    exact ⟨kind, (hrun.extension.trans (hv.run hinner.lt).extension).trans
      hopening.leave.extension⟩

theorem childSpans_visit_opened (hw : Workplace role ast owner)
    (hk : ast.kind? owner = some .member)
    (ho : (Rule.ofRole role (Cst.Kind.ofName head.kind)).opens? ast owner (.node head slots) =
      some kind) :
    (visit role owner (.node head slots) ast).childSpans owner =
      ast.childSpans owner ++ [head.span] := by
  have hserves := Rule.ofRole_serves hw.suits (Cst.Kind.ofName head.kind)
  obtain ⟨hext, -⟩ := Ast.opened hw.sound hserves.suits hw.lt ho
  have hspares : Spares owner _ (visit role owner (.node head slots) ast) :=
    visit_spares_of_inside hw ho fun child entered hext hinner =>
      visitAll_spares slots hinner (hext.kind?_member hk) (Nat.ne_of_lt hw.lt)
  obtain ⟨log, hv⟩ := hw.visits (.node head slots)
  refine childSpans_of_added (hv.run hw.lt).extension hw.sound.linked ?_ (hw.span_visit_opened ho)
  rw [(hspares (Nat.lt_of_lt_of_le hw.lt hext.size_le)).2]
  exact children_enter_opened hw.lt ho

theorem visit_pass (hr : Rule.ofKind (Cst.Kind.ofName head.kind) = .pass) :
    visit .plain owner (.node head slots) ast = visitAll .plain owner slots ast := by
  unfold visit
  rw [Rule.ofRole, hr]
  rfl

mutual

theorem visit_heads : (t : Tree) → {ast : Ast} → Workplace .plain ast owner →
    ast.kind? owner = some .member →
    (visit .plain owner t ast).childSpans owner =
      ast.childSpans owner ++ (heads t).map Tree.span
  | .missing, ast, _, _ => (List.append_nil _).symm
  | .node head slots, ast, hw, hk => by
    unfold heads
    rcases Rule.ofKind_cases (Cst.Kind.ofName head.kind) with hr | hr | ⟨kind, hr⟩ | hopens
    · rw [hr, visit_pass hr]
      exact visitAll_heads slots hw hk
    · -- a member expression is no body, so the id is passed over
      have hbody : ast.bodyOwner? owner = none := by
        rw [Option.eq_none_iff_forall_ne_some]
        intro o ho
        cases hk.symm.trans (bodyOwner?_eq_some.mp ho).1
      have hsilent : silent (.node head slots) := by
        unfold silent
        rw [hr]
      rw [hr, visit_silent hbody _ hsilent]
      exact (List.append_nil _).symm
    · obtain ⟨log, hv⟩ := hw.visits (.node head slots)
      have hext := (hv.run hw.lt).extension
      rw [visit_leaf hr] at hext
      rw [hr, visit_leaf hr]
      refine childSpans_of_added hext hw.sound.linked ?_ ?_
      · rw [children_add hw.lt, if_pos rfl]
      · rw [span_add hw.lt, if_pos rfl]
        rfl
    · obtain ⟨kind, ho⟩ := hopens ast owner (.node head slots)
      rw [childSpans_visit_opened hw hk ho]
      split
      · next hr => rw [hr] at ho; cases ho
      · next hr => rw [hr] at ho; cases ho
      · rfl

theorem visitAll_heads : (ts : List Tree) → {ast : Ast} → Workplace .plain ast owner →
    ast.kind? owner = some .member →
    (visitAll .plain owner ts ast).childSpans owner =
      ast.childSpans owner ++ (headsAll ts).map Tree.span
  | [], ast, _, _ => (List.append_nil _).symm
  | t :: rest, ast, hw, hk => by
    obtain ⟨log, hv⟩ := hw.visits t
    have hnext := (hv.run hw.lt).extension.kind?_member hk
    unfold visitAll headsAll
    have hrest := visitAll_heads rest (hw.next t) hnext
    rw [List.map_append, ← List.append_assoc, ← visit_heads t hw hk]
    exact hrest

end

/-- The children of a member expression are built for the heads of its parts. -/
theorem childSpans_member {root : Tree} {unitName : String} {m : Moment}
    (hb : build root unitName = .ok ast) (hm : m.Of root) (hr : m.rule? = some .member) :
    ast.childSpans m.ast.size = (headsAll m.tree.children).map Tree.span := by
  obtain ⟨hplace, -⟩ := hm.workplace (workplace_ofSpan root.span)
  obtain ⟨-, hinner, hkind⟩ := m.entered_member hplace
  obtain ⟨hext, hchildren, -⟩ := member_settled hb hm hr
  have hnone : (m.built []).childSpans m.ast.size = [] := by
    rw [childSpans, (m.children_built_eq_nil hplace).mpr rfl, List.map_nil]
  have hbuilt : (m.built m.tree.children).childSpans m.ast.size =
      (m.built []).childSpans m.ast.size ++ (headsAll m.tree.children).map Tree.span :=
    visitAll_heads m.tree.children hinner hkind
  rw [hnone, List.nil_append] at hbuilt
  rw [← hbuilt, childSpans, hchildren]
  refine List.map_congr_left fun x hx => ?_
  obtain ⟨hsound, -⟩ := m.built_sound hplace m.tree.children
  exact hext.span_eq (lt_size_of_up ((mem_children hsound.linked).mp hx))

mutual

theorem within_of_mem_heads : (t : Tree) → {f : Tree} → f ∈ heads t → f.isPresent ∧ f.Within t
  | .missing, _, hf => by
    unfold heads at hf
    cases hf
  | .node head slots, f, hf => by
    unfold heads at hf
    split at hf
    · obtain ⟨s, hs, hpresent, hin⟩ := within_of_mem_headsAll slots hf
      exact ⟨hpresent, .slot hs hin⟩
    · cases hf
    · obtain rfl := List.mem_singleton.mp hf
      exact ⟨rfl, .self⟩

theorem within_of_mem_headsAll : (ts : List Tree) → {f : Tree} → f ∈ headsAll ts →
    ∃ t ∈ ts, f.isPresent ∧ f.Within t
  | [], _, hf => by
    unfold headsAll at hf
    cases hf
  | t :: rest, f, hf => by
    unfold headsAll at hf
    rcases List.mem_append.mp hf with hf | hf
    · exact ⟨t, List.mem_cons_self, within_of_mem_heads t hf⟩
    · obtain ⟨s, hs, hin⟩ := within_of_mem_headsAll rest hf
      exact ⟨s, List.mem_cons_of_mem t hs, hin⟩

end

mutual

theorem ordered_heads : (t : Tree) → t.Spaced →
    (heads t).Pairwise fun f g => f.span.stop ≤ g.span.start
  | .missing, _ => .nil
  | .node head slots, ht => by
    unfold heads
    split
    · exact ordered_headsAll slots ht.line.ordered ht.line.spaced
    · exact .nil
    · exact List.pairwise_singleton _ _

theorem ordered_headsAll : (ts : List Tree) →
    ts.Pairwise (fun s t => s.isPresent → t.isPresent → s.span.stop ≤ t.span.start) →
    (∀ t ∈ ts, t.Spaced) → (headsAll ts).Pairwise fun f g => f.span.stop ≤ g.span.start
  | [], _, _ => .nil
  | t :: rest, ho, hs => by
    obtain ⟨hbehind, ho⟩ := List.pairwise_cons.mp ho
    have ht := hs t List.mem_cons_self
    have hrest := fun s hmem => hs s (List.mem_cons_of_mem t hmem)
    unfold headsAll
    refine List.pairwise_append.mpr ⟨ordered_heads t ht, ordered_headsAll rest ho hrest, ?_⟩
    intro f hf g hg
    obtain ⟨hpf, hinf⟩ := within_of_mem_heads t hf
    obtain ⟨s, hmem, hpg, hing⟩ := within_of_mem_headsAll rest hg
    calc f.span.stop ≤ t.span.stop := (hinf.contains ht hpf).2
      _ ≤ s.span.start := hbehind s hmem (hinf.isPresent hpf) (hing.isPresent hpg)
      _ ≤ g.span.start := (hing.contains (hrest s hmem) hpg).1

end

theorem Moment.In.within {m : Moment} {ts : List Tree} (h : m.In role owner ts a) :
    ∃ t ∈ ts, m.tree.Within t := by
  induction h with
  | here => exact ⟨m.tree, List.mem_cons_self, .self⟩
  | later _ ih =>
    obtain ⟨t, ht, hin⟩ := ih
    exact ⟨t, List.mem_cons_of_mem _ ht, hin⟩
  | inside _ _ ih =>
    obtain ⟨t, ht, hin⟩ := ih
    exact ⟨_, List.mem_cons_self, .slot ht hin⟩

theorem Moment.Of.within {m : Moment} {root : Tree} (h : m.Of root) : m.tree.Within root := by
  obtain ⟨t, ht, hin⟩ := In.within h
  cases root with
  | missing => cases ht
  | node head slots => exact .slot ht hin

end Ast

end ComponentCompiler
