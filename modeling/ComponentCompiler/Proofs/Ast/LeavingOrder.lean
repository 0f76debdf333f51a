import ComponentCompiler.Proofs.Ast.Visits

namespace ComponentCompiler.Ast

open Cst (Tree)
open Relation

variable {a b c ast : Ast} {o p x y : NodeId} {s : Site} {t : Tree} {ts : List Tree}
  {log log' : List Entry} {refers : Prop} {e : Entry}

/-- A node that was opened, and not added as a leaf. -/
def Opened (ast : Ast) (x : NodeId) : Prop :=
  ast.isKind x fun k => !k.isLeaf

theorem Opened.lt (h : ast.Opened x) : x < ast.size :=
  lt_size_of_isKind h

theorem Extends.opened_iff (h : a.Extends b) (hx : x < a.size) : b.Opened x ↔ a.Opened x := by
  unfold Opened
  rw [h.isKind_eq (fun k => by rw [k.isLeaf_shape]) hx]

theorem listing?_eq_some : ast.listing? x = some e ↔
    ast.slot? x = some e.slot ∧ ast.holder? x e.slot = some e.holder ∧ e.node = x := by
  rw [listing?, Option.bind_eq_some_iff]
  constructor
  · rintro ⟨slot, hs, he⟩
    obtain ⟨p, hp, rfl⟩ := Option.map_eq_some_iff.mp he
    exact ⟨hs, hp, rfl⟩
  · rintro ⟨hs, hp, rfl⟩
    exact ⟨e.slot, hs, by rw [hp]; rfl⟩

theorem opened_of_listing? (h : ast.listing? x = some e) : ast.Opened x := by
  obtain ⟨hs, -⟩ := listing?_eq_some.mp h
  obtain ⟨k, hk, hslot⟩ := Option.bind_eq_some_iff.mp hs
  rw [Opened, isKind_iff]
  refine ⟨k, hk, ?_⟩
  rw [Bool.not_eq_true']
  apply Bool.eq_false_iff.mpr
  intro hleaf
  rw [NodeKind.slot?_of_isUnlisted (NodeKind.isUnlisted_of_isLeaf hleaf)] at hslot
  cases hslot

namespace Run

theorem leaf_of_new {start : NodeId} (h : Run (leafSite o start refers) a log b)
    (hx : a.size ≤ x) : ¬ b.Opened x := by
  intro hopen
  obtain ⟨_, kind, -, -, hleaf, hshape⟩ := h.added hx hopen.lt
  rw [Opened, isKind_eq_shape? fun k => by rw [k.isLeaf_shape], hshape] at hopen
  simp [show kind.isLeaf from hleaf] at hopen

theorem size_eq (h : Run s a log b) (hs : ∀ k, ¬ s.adds k) : b.size = a.size := by
  apply Nat.le_antisymm _ h.extension.size_le
  apply Nat.le_of_not_lt
  intro hlt
  obtain ⟨_, kind, -, -, hk, -⟩ := h.added (Nat.le_refl _) hlt
  exact hs kind hk

theorem listing?_eq (h : Run s a log b) (hl : a.Linked) (ho : s.owner < a.size) (hx : x < a.size)
    (hout : ¬ s.Around a x) : b.listing? x = a.listing? x := by
  have hnode := h.frame hl ho hx hout
  apply h.extension.listing?_eq hl hx
  · rw [children, children, hnode]
  · rw [isKind, isKind, kind?, kind?, hnode]

theorem above_new (h : Run s a log b) (hs : a.size ≤ s.start) (hx : a.size ≤ x)
    (hu : TransGen b.Up x y) : a.size ≤ y ∨ ReflTransGen b.Up s.owner y := by
  have hstep {x y : NodeId} (hx : a.size ≤ x) (hu : b.Up x y) :
      a.size ≤ y ∨ ReflTransGen b.Up s.owner y := by
    obtain ⟨p, _, hp, haround, -⟩ := h.added hx (lt_size_of_up hu)
    obtain rfl : p = y := Option.some.inj (hp.symm.trans hu)
    exact haround.imp_left (Nat.le_trans hs)
  induction hu with
  | single hu => exact hstep hx hu
  | tail _ hu ih =>
    rcases ih with hnew | hchain
    · exact hstep hnew hu
    · exact .inr (hchain.tail hu)

end Run

/-- The nodes that a visit finds, other than those around its owner, stay in their lists. -/
theorem listing?_of_run (h : Run (visitSite o a.size refers) a log b) (hl : a.Linked)
    (ho : o < x) (hx : x < a.size) : b.listing? x = a.listing? x := by
  apply h.listing?_eq hl (Nat.lt_trans ho hx) hx
  rintro (hle | hchain)
  · exact Nat.not_lt.mpr hle hx
  · exact Nat.not_lt.mpr (hl.chain_le hchain) ho

theorem not_above_of_run (h : Run (visitSite o a.size refers) a log b) (hl : a.Linked)
    (ho : o < x) (hx : x < a.size) (hy : a.size ≤ y) : ¬ TransGen b.Up y x := by
  intro hu
  rcases h.above_new (Nat.le_refl _) hy hu with hle | hchain
  · exact Nat.not_lt.mpr hle hx
  · exact Nat.not_lt.mpr ((hl.grows h.extension.grows).chain_le hchain) ho

namespace Opening

variable {entered visited : Ast} (h : Opening o t a entered visited b)

include h

theorem linked (ho : o < a.size) (hl : a.Linked) : entered.Linked := by
  have hrun : Run (visitSite o a.size True) a [] entered := h.entering ho
  exact hl.grows hrun.extension.grows

theorem size_eq : b.size = visited.size :=
  h.leave.size_eq fun _ hk => hk

theorem opened_cases (hext : entered.Extends visited) (hx : a.size ≤ x) (hopen : b.Opened x) :
    x = a.size ∨ entered.size ≤ x ∧ visited.Opened x := by
  have hlt : x < visited.size := h.size_eq ▸ hopen.lt
  rw [h.leave.extension.opened_iff hlt] at hopen
  by_cases hold : x < entered.size
  · refine .inl (Nat.le_antisymm (Nat.le_of_not_lt fun hnew => ?_) hx)
    obtain ⟨_, -, hrun⟩ := h.enter
    refine hrun.leaf_of_new ?_ ((hext.opened_iff hold).mp hopen)
    rw [size_addListed]
    exact hnew
  · exact .inr ⟨Nat.le_of_not_lt hold, hopen⟩

theorem listing?_eq (hl : visited.Linked) (hx : a.size < x) (hlt : x < visited.size) :
    b.listing? x = visited.listing? x := by
  apply h.leave.listing?_eq hl (Nat.lt_trans hx hlt) hlt
  rintro (hle | hchain)
  · exact Nat.not_lt.mpr hle hlt
  · exact Nat.not_lt.mpr (hl.chain_le hchain) hx

end Opening

/-- Visits are made of leaves, of opened nodes with a visit inside, and of parts one after another. -/
theorem Visits.parts {motive : NodeId → List Entry → Ast → Ast → Prop}
    (leaves : ∀ {o a b refers}, Run (leafSite o a.size refers) a [] b → motive o [] a b)
    (node : ∀ {o t a entered visited b log refers slots}, o < a.size → a.Linked →
      Opening o t a entered visited b → Visits a.size refers slots log entered visited →
      motive a.size log entered visited → motive o (log ++ (visited.listing? a.size).toList) a b)
    (append : ∀ {o a b c log log' refers refers' ts ts'}, o < a.size → a.Linked →
      Visits o refers ts log a b → Visits o refers' ts' log' b c →
      motive o log a b → motive o log' b c → motive o (log ++ log') a c)
    (h : Visits o refers ts log a b) (ho : o < a.size) (hl : a.Linked) : motive o log a b := by
  induction h with
  | nil => exact leaves (.refl (s := leafSite _ _ True))
  | @leaves o refers t _ _ a b _ h hrest ih =>
    have hfirst : Visits o refers [t] [] a b := .leaves h .nil
    have ho' := Nat.lt_of_lt_of_le ho h.extension.size_le
    exact append ho hl hfirst hrest (leaves h) (ih ho' (hl.grows h.extension.grows))
  | pass _ h hrest ih ih' =>
    have hext := (h.run ho).extension
    have ho' := Nat.lt_of_lt_of_le ho hext.size_le
    exact append ho hl h hrest (ih ho hl) (ih' ho' (hl.grows hext.grows))
  | @node o refers _ t _ _ log _ a _ visited b _ h hslots hinner hrest ih ih' =>
    have hfirst : Visits o refers [t] (log ++ (visited.listing? a.size).toList) a b :=
      List.append_nil (log ++ (visited.listing? a.size).toList) ▸ .node h hslots hinner .nil
    have hext := (hfirst.run ho).extension
    have ho' := Nat.lt_of_lt_of_le ho hext.size_le
    exact append ho hl hfirst hrest (node ho hl h hinner (ih (h.lt ho) (h.linked ho hl)))
      (ih' ho' (hl.grows hext.grows))

theorem Visits.under_owner (h : Visits o refers ts log a b) (ho : o < a.size) (hl : a.Linked) :
    ∀ x, a.size ≤ x → b.Opened x → TransGen b.Up x o := by
  refine h.parts (motive := fun o _ a b => ∀ x, a.size ≤ x → b.Opened x → TransGen b.Up x o)
    ?_ ?_ ?_ ho hl
  · intro o a b refers hrun x hx hopen
    exact absurd hopen (hrun.leaf_of_new hx)
  · intro o t a entered visited b log refers slots ho _ h hinner ih x hx hopen
    have hext := (hinner.run (h.lt ho)).extension
    have hup := h.leave.extension.up (hext.up (h.up ho))
    rcases h.opened_cases hext hx hopen with rfl | ⟨hnew, hopen⟩
    · exact .single hup
    · exact (h.leave.extension.above (ih x hnew hopen)).tail hup
  · intro o a b c log log' refers refers' ts ts' ho _ hfirst hrest ih ih' x hx hopen
    have hle := (hfirst.run ho).extension.size_le
    have hext := (hrest.run (Nat.lt_of_lt_of_le ho hle)).extension
    by_cases hold : x < b.size
    · exact hext.above (ih x hx ((hext.opened_iff hold).mp hopen))
    · exact ih' x (Nat.le_of_not_lt hold) hopen

theorem Visits.mem_log (h : Visits o refers ts log a b) (ho : o < a.size) (hl : a.Linked) :
    ∀ e, e ∈ log ↔ a.size ≤ e.node ∧ b.listing? e.node = some e := by
  refine h.parts (motive := fun _ log a b =>
    ∀ e, e ∈ log ↔ a.size ≤ e.node ∧ b.listing? e.node = some e) ?_ ?_ ?_ ho hl
  · intro o a b refers hrun e
    refine ⟨nofun, fun ⟨hnew, he⟩ => ?_⟩
    exact absurd (opened_of_listing? he) (hrun.leaf_of_new hnew)
  · intro o t a entered visited b log refers slots ho hl h hinner ih e
    have hlt := h.lt ho
    have hext := (hinner.run hlt).extension
    have hlinked := (h.linked ho hl).grows hext.grows
    rw [List.mem_append, ih e, Option.mem_toList, ← h.entry]
    constructor
    · rintro (⟨hnew, he⟩ | he)
      · refine ⟨Nat.le_trans (Nat.le_of_lt hlt) hnew, ?_⟩
        rwa [h.listing?_eq hlinked (Nat.lt_of_lt_of_le hlt hnew) (opened_of_listing? he).lt]
      · obtain ⟨-, -, hnode⟩ := listing?_eq_some.mp he
        exact ⟨Nat.le_of_eq hnode.symm, hnode ▸ he⟩
    · rintro ⟨hnew, he⟩
      rcases h.opened_cases hext hnew (opened_of_listing? he) with hnode | ⟨hin, hopen⟩
      · exact .inr (hnode ▸ he)
      · refine .inl ⟨hin, ?_⟩
        rwa [← h.listing?_eq hlinked (Nat.lt_of_lt_of_le hlt hin) hopen.lt]
  · intro o a b c log log' refers refers' ts ts' ho hl hfirst hrest ih ih' e
    have hext := (hfirst.run ho).extension
    have hrun := hrest.run (Nat.lt_of_lt_of_le ho hext.size_le)
    rw [List.mem_append, ih e, ih' e]
    by_cases hold : e.node < b.size
    · -- a node of the first part keeps its list in the second
      have hstay (hnew : a.size ≤ e.node) : c.listing? e.node = b.listing? e.node :=
        listing?_of_run hrun (hl.grows hext.grows) (Nat.lt_of_lt_of_le ho hnew) hold
      constructor
      · rintro (⟨hnew, he⟩ | ⟨hnew, -⟩)
        · exact ⟨hnew, (hstay hnew).trans he⟩
        · exact absurd hold (Nat.not_lt.mpr hnew)
      · rintro ⟨hnew, he⟩
        exact .inl ⟨hnew, (hstay hnew).symm.trans he⟩
    · have hge := Nat.le_of_not_lt hold
      constructor
      · rintro (⟨-, he⟩ | ⟨-, he⟩)
        · exact absurd (opened_of_listing? he).lt hold
        · exact ⟨Nat.le_trans hext.size_le hge, he⟩
      · rintro ⟨-, he⟩
        exact .inr ⟨hge, he⟩

/-- Node `x` is left before `y`: it stands below `y`, or it comes before `y` and not around it. -/
def LeftBefore (ast : Ast) (x y : NodeId) : Prop :=
  TransGen ast.Up x y ∨ x < y ∧ ¬ TransGen ast.Up y x

theorem Extends.leftBefore_iff (h : a.Extends b) (hl : a.Linked) (hx : x < a.size)
    (hy : y < a.size) : b.LeftBefore x y ↔ a.LeftBefore x y := by
  unfold LeftBefore
  rw [h.grows.above_iff hl hx, h.grows.above_iff hl hy]

theorem LeftBefore.ne (hl : ast.Linked) (h : ast.LeftBefore x y) : x ≠ y := by
  rintro rfl
  rcases h with h | ⟨h, -⟩
  · exact Nat.lt_irrefl x (hl.above_lt h)
  · exact Nat.lt_irrefl x h

/-- Nodes are logged in the order in which they are left. -/
theorem Visits.order (h : Visits o refers ts log a b) (ho : o < a.size) (hl : a.Linked) :
    log.Pairwise fun e e' => b.LeftBefore e.node e'.node := by
  -- a longer tree has the logged nodes in the same order
  have hgrow {o : NodeId} {refers : Prop} {ts : List Tree} {log : List Entry} {a b c : Ast}
      (h : Visits o refers ts log a b) (ho : o < a.size) (hl : a.Linked) (hext : b.Extends c)
      (hp : log.Pairwise fun e e' => b.LeftBefore e.node e'.node) :
      log.Pairwise fun e e' => c.LeftBefore e.node e'.node := by
    have hlt {e : Entry} (he : e ∈ log) : e.node < b.size :=
      (opened_of_listing? ((h.mem_log ho hl e).mp he).2).lt
    refine hp.imp_of_mem fun he he' hleft => ?_
    exact (hext.leftBefore_iff (hl.grows (h.run ho).extension.grows) (hlt he) (hlt he')).mpr hleft
  refine h.parts (motive := fun _ log _ b =>
    log.Pairwise fun e e' => b.LeftBefore e.node e'.node) ?_ ?_ ?_ ho hl
  · intro o a b refers _
    exact .nil
  · intro o t a entered visited b log refers slots ho hl h hinner ih
    have hlt := h.lt ho
    have hl' := h.linked ho hl
    refine List.pairwise_append.mpr ⟨hgrow hinner hlt hl' h.leave.extension ih, ?_, ?_⟩
    · cases visited.listing? a.size with
      | none => exact .nil
      | some e => exact List.pairwise_singleton _ e
    · intro e he e' he'
      obtain ⟨hnew, hentry⟩ := (hinner.mem_log hlt hl' e).mp he
      obtain ⟨-, -, hnode⟩ := listing?_eq_some.mp (Option.mem_toList.mp he')
      rw [hnode]
      exact .inl (h.leave.extension.above
        (hinner.under_owner hlt hl' e.node hnew (opened_of_listing? hentry)))
  · intro o a b c log log' refers refers' ts ts' ho hl hfirst hrest ih ih'
    have hext := (hfirst.run ho).extension
    have ho' := Nat.lt_of_lt_of_le ho hext.size_le
    have hl' := hl.grows hext.grows
    have hrun := hrest.run ho'
    refine List.pairwise_append.mpr ⟨hgrow hfirst ho hl hrun.extension ih, ih', ?_⟩
    intro e he e' he'
    obtain ⟨hnew, hentry⟩ := (hfirst.mem_log ho hl e).mp he
    obtain ⟨hnew', -⟩ := (hrest.mem_log ho' hl' e').mp he'
    have hold := (opened_of_listing? hentry).lt
    refine .inr ⟨Nat.lt_of_lt_of_le hold hnew', ?_⟩
    exact not_above_of_run hrun hl' (Nat.lt_of_lt_of_le ho hnew) hold hnew'

theorem mem_listed {slot : Slot} : x ∈ listed log slot p ↔ ⟨slot, p, x⟩ ∈ log := by
  unfold listed
  rw [List.mem_map]
  constructor
  · rintro ⟨e, he, rfl⟩
    obtain ⟨hmem, hp⟩ := List.mem_filter.mp he
    obtain ⟨rfl, rfl⟩ := of_decide_eq_true hp
    exact hmem
  · intro h
    exact ⟨_, List.mem_filter.mpr ⟨h, by simp⟩, rfl⟩

structure Logged (ast : Ast) (log : List Entry) : Prop where
  entries : ∀ slot p, ast.entries slot p = listed log slot p
  mem : ∀ e, e ∈ log ↔ ast.listing? e.node = some e
  order : log.Pairwise fun e e' => ast.LeftBefore e.node e'.node
  owner : ∀ x p, ast.ownerOf? x = some p ↔ ⟨.idComponents, p, x⟩ ∈ log

theorem build_logged {root : Tree} {name : String} (h : build root name = .ok ast) :
    ∃ log, ast.Logged log := by
  obtain ⟨log, hv⟩ := build_visits h
  have hrun := hv.run Nat.one_pos
  have hmem (e : Entry) : e ∈ log ↔ ast.listing? e.node = some e := by
    rw [hv.mem_log Nat.one_pos (linked_ofSpan root.span) e]
    refine and_iff_right_of_imp fun he => Nat.pos_of_ne_zero fun h0 => ?_
    have hprogram : ast.shape? e.node = some .program :=
      h0 ▸ hrun.extension.shape rootId Nat.one_pos
    rw [listing?_eq_none (slot?_eq_none hprogram rfl)] at he
    cases he
  refine ⟨log, fun slot p => ?_, hmem, hv.order Nat.one_pos (linked_ofSpan root.span), ?_⟩
  · have hnone : (ofSpan root.span).entries slot p = [] := by
      cases p <;> rfl
    rw [hrun.entries, hnone, List.nil_append]
  · intro x p
    have hnone : (ofSpan root.span).ownerOf? x = none := by
      cases x <;> rfl
    rcases hrun.ownerOf? x with ⟨he, hno⟩ | ⟨q, hq, he⟩
    · rw [he, hnone]
      exact ⟨nofun, fun hp => absurd hp (hno p)⟩
    · rw [he]
      constructor
      · rintro ⟨⟩
        exact hq
      · intro hp
        have heq : ast.listing? x = some ⟨.idComponents, q, x⟩ := (hmem _).mp hq
        have hep : ast.listing? x = some ⟨.idComponents, p, x⟩ := (hmem _).mp hp
        exact congrArg (Option.map Entry.holder) (heq.symm.trans hep)

namespace Logged

variable (h : ast.Logged log)

include h

theorem mem_entries {slot : Slot} : x ∈ ast.entries slot p ↔
    ast.slot? x = some slot ∧ ast.holder? x slot = some p := by
  rw [h.entries, mem_listed, h.mem, listing?_eq_some]
  simp

theorem pairwise (slot : Slot) (p : NodeId) : (ast.entries slot p).Pairwise ast.LeftBefore := by
  rw [h.entries, listed, List.pairwise_map]
  exact h.order.filter _

theorem ownerOf?_iff : ast.ownerOf? x = some p ↔ x ∈ ast.entries .idComponents p := by
  rw [h.owner, h.entries, mem_listed]

end Logged

end ComponentCompiler.Ast
