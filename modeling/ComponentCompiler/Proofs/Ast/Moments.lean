import ComponentCompiler.Proofs.Ast.LeavingOrder

namespace ComponentCompiler

def NodeKind.isDeclaration : NodeKind → Bool
  | declaration _ => true
  | _ => false

theorem NodeKind.isDeclaration_shape (k : NodeKind) : k.shape.isDeclaration = k.isDeclaration := by
  cases k <;> rfl

namespace Ast

open Cst (Tree)
open Relation

variable {a b c ast : Ast} {o owner p start x : NodeId} {kind : NodeKind} {role : Role}
  {rule : Rule} {head : Cst.Head} {slots ts : List Tree} {t : Tree} {s : Site} {log : List Entry}

theorem Rule.not_isLeaf_of_opens (hr : rule.Suits a owner)
    (h : rule.opens? a owner t = some kind) : kind.isLeaf = false := by
  cases rule with
  | wrap kind =>
    cases h
    cases kind with
    | identifier | importPath | heritage | taggedString | number | formalParameters => cases hr
    | _ => rfl
  | value form => cases form <;> cases h <;> rfl
  | _ => cases h <;> rfl

theorem Rule.inside_of_isDeclaration (hr : rule.Suits a owner)
    (h : rule.opens? a owner t = some kind) (hk : kind.isDeclaration) (id : NodeId) :
    rule.inside owner id = some (.declarationPart owner, id) := by
  cases rule with
  | wrap kind =>
    cases h
    cases kind with
    | declaration _ => cases hr
    | _ => cases hk
  | declaration => rfl
  | value form =>
    cases form with
    | component => rfl
    | expression | block =>
      cases h
      cases hk
  | _ => cases h <;> cases hk

theorem Rule.ofDeclarationPart_ne_pass (outer : NodeId) (k : Cst.Kind) :
    ofDeclarationPart outer k ≠ .pass := by
  cases k <;> simp [ofDeclarationPart]

theorem Rule.eq_body_of_ofDeclarationPart {outer : NodeId} {k : Cst.Kind}
    (h : (ofDeclarationPart outer k).opens? a owner t = some kind) : kind = .body := by
  cases k <;> simp [ofDeclarationPart, opens?] at h
  exact h.symm

structure Workplace (role : Role) (ast : Ast) (owner : NodeId) : Prop where
  sound : ast.Sound
  suits : role.Suits ast owner
  opened : ast.Opened owner
  declaration : ast.isKind owner NodeKind.isDeclaration → ∃ outer, role = .declarationPart outer

namespace Workplace

variable (h : Workplace role ast owner)

include h

theorem lt : owner < ast.size :=
  h.opened.lt

theorem visits (t : Tree) :
    ∃ log, Visits owner role.Refers [t] log ast (visit role owner t ast) :=
  visit_visits role t h.sound h.suits h.lt

theorem visitsAll (ts : List Tree) :
    ∃ log, Visits owner role.Refers ts log ast (visitAll role owner ts ast) :=
  visitAll_visits role ts h.sound h.suits h.lt

theorem next (t : Tree) : Workplace (role.next t) (visit role owner t ast) owner := by
  obtain ⟨log, hv⟩ := h.visits t
  have hrun := hv.run h.lt
  have hext := hrun.extension
  refine ⟨hrun.sound h.sound, (h.suits.grow hext).next t, (hext.opened_iff h.lt).mpr h.opened, ?_⟩
  rw [hext.isKind_eq NodeKind.isDeclaration_shape h.lt]
  intro hd
  obtain ⟨outer, rfl⟩ := h.declaration hd
  exact ⟨outer, rfl⟩

theorem pass {k : Cst.Kind} (hp : Rule.ofRole role k = .pass) : Workplace .plain ast owner := by
  refine ⟨h.sound, trivial, h.opened, fun hd => ?_⟩
  obtain ⟨outer, rfl⟩ := h.declaration hd
  exact absurd hp (Rule.ofDeclarationPart_ne_pass outer k)

theorem inside {child : Role} (hr : rule.Suits ast owner)
    (hopen : rule.opens? ast owner t = some kind)
    (hi : rule.inside owner ast.size = some (child, o)) :
    o = ast.size ∧ Workplace child (enter rule owner t ast) ast.size := by
  obtain ⟨-, hsound, hu, hs⟩ := Ast.opened h.sound hr h.lt hopen
  rcases Rule.inside_of_opened hr hopen hu hs with hnone | ⟨child', hchild, hsuits, -⟩
  · rw [hnone] at hi
    cases hi
  · obtain ⟨rfl, rfl⟩ := Prod.mk.inj (Option.some.inj (hchild.symm.trans hi))
    refine ⟨rfl, hsound, hsuits, ?_, fun hd => ?_⟩
    · rw [Opened, isKind_eq_shape? fun k => by rw [k.isLeaf_shape], hs]
      simp [Rule.not_isLeaf_of_opens hr hopen]
    · rw [isKind_eq_shape? NodeKind.isDeclaration_shape, hs] at hd
      rw [Rule.inside_of_isDeclaration hr hopen hd] at hchild
      cases hchild
      exact ⟨owner, rfl⟩

end Workplace

theorem workplace_ofSpan (span : Span) : Workplace .plain (ofSpan span) rootId :=
  ⟨sound_ofSpan span, trivial, rfl, nofun⟩

inductive VisitCase (rule : Rule) (owner : NodeId) (head : Cst.Head) (slots : List Tree)
    (ast after : Ast) : Prop
  | leaves {refers : Prop} (ho : rule.opens? ast owner (.node head slots) = none)
      (hi : rule.inside owner ast.size = none)
      (h : Run (leafSite owner ast.size refers) ast [] after)
  | pass (hp : rule = .pass) (hw : Workplace .plain ast owner)
      (h : after = visitAll .plain owner slots ast)
  | closed {kind : NodeKind} (ho : rule.opens? ast owner (.node head slots) = some kind)
      (hi : rule.inside owner ast.size = none)
      (h : Opening owner (.node head slots) ast (enter rule owner (.node head slots) ast)
        (enter rule owner (.node head slots) ast) after)
  | node {kind : NodeKind} {child : Role}
      (ho : rule.opens? ast owner (.node head slots) = some kind)
      (hi : rule.inside owner ast.size = some (child, ast.size))
      (hw : Workplace child (enter rule owner (.node head slots) ast) ast.size)
      (h : Opening owner (.node head slots) ast (enter rule owner (.node head slots) ast)
        (visitAll child ast.size slots (enter rule owner (.node head slots) ast)) after)

theorem Workplace.visitCase (h : Workplace role ast owner) (head : Cst.Head) (slots : List Tree) :
    VisitCase (Rule.ofRole role (Cst.Kind.ofName head.kind)) owner head slots ast
      (visit role owner (.node head slots) ast) := by
  have hserves := Rule.ofRole_serves h.suits (Cst.Kind.ofName head.kind)
  have hpass := h.pass (k := Cst.Kind.ofName head.kind)
  unfold visit
  generalize Rule.ofRole role (Cst.Kind.ofName head.kind) = rule at hserves hpass
  dsimp only
  cases hopen : rule.opens? ast owner (.node head slots) with
  | none =>
    obtain ⟨hinside, hleave⟩ := Rule.leaves_cases hopen
    rw [hleave]
    rcases hinside with rfl | hnone
    · exact .pass rfl (hpass rfl) rfl
    · rw [hnone ast.size]
      exact .leaves hopen (hnone ast.size) (enter_leaves h.sound hserves.suits h.lt hopen)
  | some kind =>
    obtain ⟨-, hsound, hu, hs⟩ := Ast.opened h.sound hserves.suits h.lt hopen
    rcases Rule.inside_of_opened hserves.suits hopen hu hs with hnone | ⟨child, hchild, -, hplain⟩
    · rw [hnone]
      have hinner {a : Ast} : Visits ast.size False [] [] a a := .nil
      exact .closed hopen hnone (opening rfl h.sound hserves.suits h.lt hopen hinner fun _ => id)
    · rw [hchild]
      obtain ⟨-, hw⟩ := h.inside hserves.suits hopen hchild
      obtain ⟨log, hinner⟩ := hw.visitsAll slots
      refine .node hopen hchild hw (opening rfl h.sound hserves.suits h.lt hopen hinner ?_)
      intro hrule
      rw [hplain hrule]
      exact id

/-- What every rule keeps when a tree is entered by it and when it is left. -/
structure Kept (P : Ast → Prop) : Prop where
  enter : ∀ {rule : Rule} {a : Ast} {owner : NodeId} {t : Tree}, P a → a.Sound →
    rule.Suits a owner → a.Opened owner → P (enter rule owner t a)
  leave : ∀ {a : Ast} (rule : Rule) (owner id : NodeId), P a → a.Linked →
    P (leave rule owner id a)

mutual

theorem Kept.visit {P : Ast → Prop} (hk : Kept P) : (t : Tree) → {role : Role} → {ast : Ast} →
    {owner : NodeId} → Workplace role ast owner → P ast → P (visit role owner t ast)
  | .missing, _, _, _, _, h => h
  | .node head slots, role, ast, owner, hw, h => by
    have hsuits := (Rule.ofRole_serves hw.suits (Cst.Kind.ofName head.kind)).suits
    have hentered := hk.enter (t := .node head slots) h hw.sound hsuits hw.opened
    cases hw.visitCase head slots with
    | leaves ho hi _ =>
      rw [Ast.visit, hi]
      exact hk.leave _ _ _ hentered ((enter_leaves hw.sound hsuits hw.lt ho).sound hw.sound).linked
    | pass _ hplain hvisit =>
      rw [hvisit]
      exact hk.visitAll slots hplain h
    | closed _ hi hopening =>
      rw [Ast.visit, hi]
      exact hk.leave _ _ _ hentered (hopening.linked hw.lt hw.sound.linked)
    | node _ hi hinner _ =>
      obtain ⟨log, hv⟩ := hinner.visitsAll slots
      rw [Ast.visit, hi]
      exact hk.leave _ _ _ (hk.visitAll slots hinner hentered)
        ((hv.run hinner.lt).sound hinner.sound).linked

theorem Kept.visitAll {P : Ast → Prop} (hk : Kept P) : (ts : List Tree) → {role : Role} →
    {ast : Ast} → {owner : NodeId} → Workplace role ast owner → P ast → P (visitAll role owner ts ast)
  | [], _, _, _, _, h => h
  | t :: rest, _, _, _, hw, h => hk.visitAll rest (hw.next t) (hk.visit t hw h)

end

theorem Kept.build {P : Ast → Prop} (hk : Kept P) {root : Tree} {name : String}
    (h0 : P (ofSpan root.span)) (hb : build root name = .ok ast) : P ast := by
  rw [eq_of_build hb]
  exact hk.visitAll root.slots (workplace_ofSpan root.span) h0

theorem Workplace.visit_opened (h : Workplace role ast owner)
    (ho : (Rule.ofRole role (Cst.Kind.ofName head.kind)).opens? ast owner (.node head slots) =
      some kind) : (visit role owner (.node head slots) ast).Up ast.size owner ∧
        (visit role owner (.node head slots) ast).shape? ast.size = some kind := by
  have hserves := Rule.ofRole_serves h.suits (Cst.Kind.ofName head.kind)
  obtain ⟨-, -, hu, hs⟩ := Ast.opened h.sound hserves.suits h.lt ho
  suffices hext : (enter (Rule.ofRole role (Cst.Kind.ofName head.kind)) owner (.node head slots)
      ast).Extends (visit role owner (.node head slots) ast) from
    ⟨hext.up hu, hext.shape?_eq_some hs⟩
  cases h.visitCase head slots with
  | leaves hnone _ _ =>
    rw [hnone] at ho
    cases ho
  | pass hp _ _ =>
    rw [hp] at ho
    cases ho
  | closed _ _ hopening => exact hopening.leave.extension
  | node _ _ hinner hopening =>
    obtain ⟨log, hv⟩ := hinner.visitsAll slots
    exact (hv.run hinner.lt).extension.trans hopening.leave.extension

/-- From `a` to `b`, nothing is done any more at the nodes that `a` has from `start` on. -/
structure Settled (start : NodeId) (a b : Ast) : Prop where
  extension : a.Extends b
  children : ∀ p, start ≤ p → p < a.size → b.children p = a.children p
  used : ∀ p, start ≤ p → p < a.size → ∀ x ∈ a.children p, ∀ o, x ∈ b.used o ↔ x ∈ a.used o

theorem Settled.trans (h : Settled start a b) (h' : Settled start b c) : Settled start a c := by
  have hlt {p : NodeId} (hp : p < a.size) : p < b.size :=
    Nat.lt_of_lt_of_le hp h.extension.size_le
  refine ⟨h.extension.trans h'.extension, fun p hs hp => ?_, fun p hs hp x hx o => ?_⟩
  · rw [h'.children p hs (hlt hp), h.children p hs hp]
  · rw [h'.used p hs (hlt hp) x (h.children p hs hp ▸ hx), h.used p hs hp x hx]

theorem Run.used_mono (h : Run s a log b) (hx : x ∈ a.used o) : x ∈ b.used o := by
  induction h with
  | refl => exact hx
  | step _ hs ih =>
    rcases hs.used o with he | ⟨y, p, he, -⟩
    · exact he ▸ ih
    · rw [he]
      exact List.mem_append_left _ ih

/-- A run leaves alone what is behind its owner and was there before. -/
theorem Run.settled (h : Run s a log b) (hl : a.Linked) (ho : s.owner < a.size)
    (hs : a.size ≤ s.start) (hstart : s.owner < start) : Settled start a b := by
  refine ⟨h.extension, fun p hp hlt => ?_, fun p hp hlt x hx o => ⟨fun hmem => ?_, h.used_mono⟩⟩
  · have hout : ¬ s.Around a p := by
      rintro (hle | hchain)
      · exact Nat.not_lt.mpr (Nat.le_trans hs hle) hlt
      · exact Nat.not_lt.mpr (Nat.le_trans hp (hl.chain_le hchain)) hstart
    rw [Ast.children, Ast.children, h.frame hl ho hlt hout]
  · have hu := h.extension.up ((mem_children hl).mp hx)
    refine (h.used hmem).resolve_right ?_
    rintro ⟨q, hq, hplace⟩
    obtain rfl : q = p := Option.some.inj (hq.symm.trans hu)
    rcases hplace with hle | ⟨rfl, -⟩
    · exact Nat.not_lt.mpr (Nat.le_trans hs hle) hlt
    · exact Nat.not_lt.mpr hp hstart

theorem Workplace.settled (h : Workplace role a owner) (hstart : owner < start) (ts : List Tree) :
    Settled start a (visitAll role owner ts a) := by
  obtain ⟨log, hv⟩ := h.visitsAll ts
  exact (hv.run h.lt).settled h.sound.linked h.lt (Nat.le_refl _) hstart

/-- A tree is visited in a role under a node, when a part of the tree has been built already. -/
structure Moment where
  role : Role
  owner : NodeId
  tree : Tree
  ast : Ast

namespace Moment

def after (m : Moment) : Ast :=
  visit m.role m.owner m.tree m.ast

def rule? (m : Moment) : Option Rule :=
  m.tree.kind.map (Rule.ofRole m.role)

def opens? (m : Moment) : Option NodeKind :=
  m.rule?.bind fun rule => rule.opens? m.ast m.owner m.tree

inductive In (m : Moment) : Role → NodeId → List Tree → Ast → Prop
  | here {ts : List Tree} : m.In m.role m.owner (m.tree :: ts) m.ast
  | later {role : Role} {owner : NodeId} {t : Tree} {ts : List Tree} {a : Ast}
      (h : m.In (role.next t) owner ts (visit role owner t a)) : m.In role owner (t :: ts) a
  | inside {role child : Role} {owner o : NodeId} {head : Cst.Head} {slots ts : List Tree} {a : Ast}
      (hi : (Rule.ofRole role (Cst.Kind.ofName head.kind)).inside owner a.size = some (child, o))
      (h : m.In child o slots
        (enter (Rule.ofRole role (Cst.Kind.ofName head.kind)) owner (.node head slots) a)) :
      m.In role owner (.node head slots :: ts) a

def Of (m : Moment) (root : Tree) : Prop :=
  m.In .plain rootId root.slots (ofSpan root.span)

variable {m : Moment}

theorem In.append (h : m.In role owner ts a) (ts' : List Tree) : m.In role owner (ts ++ ts') a := by
  induction h with
  | here => exact .here
  | later _ ih => exact .later ih
  | inside hi h _ => exact .inside hi h

theorem In.workplace (h : m.In role owner ts a) (hw : Workplace role a owner) :
    Workplace m.role m.ast m.owner ∧ a.Extends m.ast := by
  induction h with
  | here => exact ⟨hw, .refl _⟩
  | @later role owner t _ a _ ih =>
    obtain ⟨log, hv⟩ := hw.visits t
    obtain ⟨hplace, hext⟩ := ih (hw.next t)
    exact ⟨hplace, (hv.run hw.lt).extension.trans hext⟩
  | @inside role child owner o head slots _ a hi _ ih =>
    cases hw.visitCase head slots with
    | leaves _ hnone _ | closed _ hnone _ =>
      rw [hnone] at hi
      cases hi
    | pass hp hplain _ =>
      rw [hp] at hi ih
      cases hi
      exact ih hplain
    | node _ hi' hinner hopening =>
      rw [hi'] at hi
      cases hi
      obtain ⟨hplace, hext⟩ := ih hinner
      have hentering : Run (visitSite owner a.size True) a [] _ := hopening.entering hw.lt
      exact ⟨hplace, hentering.extension.trans hext⟩

/-- What is done at a moment stays. -/
theorem In.settled (h : m.In role owner ts a) (hw : Workplace role a owner) :
    Settled m.ast.size m.after (visitAll role owner ts a) := by
  induction h with
  | here => exact (hw.next _).settled hw.lt _
  | later _ ih => exact ih (hw.next _)
  | @inside role child owner o head slots ts a hi h ih =>
    have hin : m.In role owner (.node head slots :: ts) a := .inside hi h
    obtain ⟨-, hext⟩ := hin.workplace hw
    have howner : owner < m.ast.size := Nat.lt_of_lt_of_le hw.lt hext.size_le
    suffices hvisit : Settled m.ast.size m.after (visit role owner (.node head slots) a) from
      hvisit.trans ((hw.next _).settled howner ts)
    cases hw.visitCase head slots with
    | leaves _ hnone _ | closed _ hnone _ =>
      rw [hnone] at hi
      cases hi
    | pass hp hplain hvisit =>
      rw [hp] at hi ih
      cases hi
      rw [hvisit]
      exact ih hplain
    | node _ hi' hinner hopening =>
      rw [hi'] at hi
      cases hi
      obtain ⟨-, hext⟩ := h.workplace hinner
      obtain ⟨log, hv⟩ := hinner.visitsAll slots
      have hrun := hv.run hinner.lt
      refine (ih hinner).trans (hopening.leave.settled (hrun.sound hinner.sound).linked ?_
        (Nat.le_refl _) ?_)
      · exact Nat.lt_of_lt_of_le hinner.lt hrun.extension.size_le
      · exact Nat.lt_of_lt_of_le hinner.lt hext.size_le

theorem extends_after (m : Moment) (hw : Workplace m.role m.ast m.owner) :
    m.ast.Extends m.after := by
  obtain ⟨log, hv⟩ := hw.visits m.tree
  exact (hv.run hw.lt).extension

theorem In.opened (h : m.In role owner ts a) (hw : Workplace role a owner)
    (ho : m.opens? = some kind) : (visitAll role owner ts a).Up m.ast.size m.owner ∧
      (visitAll role owner ts a).shape? m.ast.size = some kind := by
  obtain ⟨hplace, -⟩ := h.workplace hw
  have hext := (h.settled hw).extension
  obtain ⟨role', owner', tree, ast⟩ := m
  cases tree with
  | missing => cases ho
  | node head slots =>
    obtain ⟨hu, hs⟩ := hplace.visit_opened ho
    exact ⟨hext.up hu, hext.shape?_eq_some hs⟩

mutual

def listAt (role : Role) (owner : NodeId) : Tree → Ast → List Moment
  | .missing, ast => [⟨role, owner, .missing, ast⟩]
  | .node head slots, ast =>
    let rule := Rule.ofRole role (Cst.Kind.ofName head.kind)
    ⟨role, owner, .node head slots, ast⟩ ::
      match rule.inside owner ast.size with
      | some (child, o) => list child o slots (enter rule owner (.node head slots) ast)
      | none => []

def list (role : Role) (owner : NodeId) : List Tree → Ast → List Moment
  | [], _ => []
  | t :: rest, ast =>
    listAt role owner t ast ++ list (role.next t) owner rest (visit role owner t ast)

end

mutual

theorem in_of_mem_listAt : (t : Tree) → {role : Role} → {owner : NodeId} → {ast : Ast} →
    m ∈ listAt role owner t ast → m.In role owner [t] ast
  | .missing, _, _, _, h => by
    unfold listAt at h
    obtain rfl := List.mem_singleton.mp h
    exact .here
  | .node head slots, role, owner, ast, h => by
    unfold listAt at h
    rcases List.mem_cons.mp h with rfl | h
    · exact .here
    · split at h
      · next child o hi => exact .inside hi (in_of_mem_list slots h)
      · cases h

theorem in_of_mem_list : (ts : List Tree) → {role : Role} → {owner : NodeId} → {ast : Ast} →
    m ∈ list role owner ts ast → m.In role owner ts ast
  | [], _, _, _, h => by
    unfold list at h
    cases h
  | t :: rest, _, _, _, h => by
    unfold list at h
    rcases List.mem_append.mp h with h | h
    · exact (in_of_mem_listAt t h).append rest
    · exact .later (in_of_mem_list rest h)

end

theorem mem_list_of_in (h : m.In role owner ts a) : m ∈ list role owner ts a := by
  induction h with
  | here =>
    unfold list
    refine List.mem_append_left _ ?_
    obtain ⟨_, _, tree, _⟩ := m
    cases tree <;> exact List.mem_cons_self
  | later _ ih =>
    unfold list
    exact List.mem_append_right _ ih
  | inside hi _ ih =>
    unfold list listAt
    refine List.mem_append_left _ (List.mem_cons_of_mem _ ?_)
    rw [hi]
    exact ih

theorem mem_list : m ∈ list role owner ts a ↔ m.In role owner ts a :=
  ⟨in_of_mem_list ts, mem_list_of_in⟩

end Moment

mutual

/-- Every node that is no leaf was opened at some moment. -/
theorem visit_moment : (t : Tree) → {role : Role} → {ast : Ast} → {owner : NodeId} →
    Workplace role ast owner → ∀ x, ast.size ≤ x → (visit role owner t ast).Opened x →
    ∃ m : Moment, m.In role owner [t] ast ∧ m.ast.size = x ∧ m.opens?.isSome
  | .missing, _, _, _, _, x, hx, hopen => absurd hopen.lt (Nat.not_lt.mpr hx)
  | .node head slots, role, ast, owner, hw, x, hx, hopen => by
    have hhere (kind : NodeKind) (ho : (Rule.ofRole role (Cst.Kind.ofName head.kind)).opens? ast
        owner (.node head slots) = some kind) : ∃ m : Moment,
          m.In role owner [.node head slots] ast ∧ m.ast.size = ast.size ∧ m.opens?.isSome :=
      ⟨⟨role, owner, .node head slots, ast⟩, .here, rfl, Option.isSome_of_eq_some ho⟩
    cases hw.visitCase head slots with
    | leaves _ _ hrun => exact absurd hopen (hrun.leaf_of_new hx)
    | pass hp hplain hvisit =>
      rw [hvisit] at hopen
      obtain ⟨m, hm, hsize, ho⟩ := visitAll_moment slots hplain x hx hopen
      have hi : (Rule.ofRole role (Cst.Kind.ofName head.kind)).inside owner ast.size =
          some (.plain, owner) := by rw [hp]; rfl
      refine ⟨m, .inside hi ?_, hsize, ho⟩
      rw [hp]
      exact hm
    | @closed kind ho _ hopening =>
      rcases hopening.opened_cases (.refl _) hx hopen with rfl | ⟨hle, hin⟩
      · exact hhere kind ho
      · exact absurd hin.lt (Nat.not_lt.mpr hle)
    | @node kind _ ho hi hinner hopening =>
      obtain ⟨log, hv⟩ := hinner.visitsAll slots
      rcases hopening.opened_cases (hv.run hinner.lt).extension hx hopen with rfl | ⟨hle, hin⟩
      · exact hhere kind ho
      · obtain ⟨m, hm, hsize, ho⟩ := visitAll_moment slots hinner x hle hin
        exact ⟨m, .inside hi hm, hsize, ho⟩

theorem visitAll_moment : (ts : List Tree) → {role : Role} → {ast : Ast} → {owner : NodeId} →
    Workplace role ast owner → ∀ x, ast.size ≤ x → (visitAll role owner ts ast).Opened x →
    ∃ m : Moment, m.In role owner ts ast ∧ m.ast.size = x ∧ m.opens?.isSome
  | [], _, _, _, _, x, hx, hopen => absurd hopen.lt (Nat.not_lt.mpr hx)
  | t :: ts, role, ast, owner, hw, x, hx, hopen => by
    have hnext := hw.next t
    obtain ⟨log, hv⟩ := hnext.visitsAll ts
    by_cases hold : x < (visit role owner t ast).size
    · have hopen' := ((hv.run hnext.lt).extension.opened_iff hold).mp hopen
      obtain ⟨m, hm, hm'⟩ := visit_moment t hw x hx hopen'
      exact ⟨m, hm.append ts, hm'⟩
    · obtain ⟨m, hm, hm'⟩ := visitAll_moment ts hnext x (Nat.le_of_not_lt hold) hopen
      exact ⟨m, .later hm, hm'⟩

end

theorem housed_of_build {root : Tree} {name : String} (h : build root name = .ok ast)
    (hopen : ast.Opened x) (hu : ast.Up x p) :
    ast.Opened p ∧ (ast.isKind p NodeKind.isDeclaration → ast.kind? x = some .body) := by
  have hw := workplace_ofSpan root.span
  have hx : (ofSpan root.span).size ≤ x :=
    Nat.lt_of_le_of_lt (Nat.zero_le p) ((build_linked h).up_lt hu)
  obtain rfl := eq_of_build h
  obtain ⟨m, hm, rfl, ho⟩ := visitAll_moment root.slots hw x hx hopen
  obtain ⟨kind, ho⟩ := Option.isSome_iff_exists.mp ho
  obtain ⟨hplace, -⟩ := hm.workplace hw
  obtain ⟨hup, hs⟩ := hm.opened hw ho
  obtain rfl : m.owner = p := Option.some.inj (hup.symm.trans hu)
  have hext := m.extends_after hplace |>.trans (hm.settled hw).extension
  refine ⟨(hext.opened_iff hplace.lt).mpr hplace.opened, fun hd => ?_⟩
  rw [hext.isKind_eq NodeKind.isDeclaration_shape hplace.lt] at hd
  obtain ⟨outer, hrole⟩ := hplace.declaration hd
  obtain ⟨rule, hrule, hopens⟩ := Option.bind_eq_some_iff.mp ho
  obtain ⟨k, -, rfl⟩ := Option.map_eq_some_iff.mp hrule
  rw [hrole] at hopens
  obtain rfl := Rule.eq_body_of_ofDeclarationPart hopens
  obtain ⟨k', hk', hshape⟩ := Option.map_eq_some_iff.mp hs
  cases k' <;> cases hshape
  exact hk'

end Ast

end ComponentCompiler
