import ComponentCompiler.Proofs.Ast.Members

namespace ComponentCompiler.Ast

open Cst (Tree)
open Relation

variable {a b c ast : Ast} {o x y : NodeId} {range range' whole : Span} {t : Tree}
  {ts : List Tree} {log : List Entry} {refers : Prop}

/-- The nodes opened between `a` and `b` lie in the range. Of two of them, one stands below the
other and inside it, or the older one ends before the newer one starts. -/
structure Arranged (range : Span) (a b : Ast) : Prop where
  forward : ∀ x, a.size ≤ x → b.Opened x → (b.span x).start ≤ (b.span x).stop
  inside : ∀ x, a.size ≤ x → b.Opened x → range.contains (b.span x)
  apart : ∀ x y, a.size ≤ x → x < y → b.Opened x → b.Opened y →
    (TransGen b.Up y x ∧ (b.span x).contains (b.span y)) ∨
      (¬ TransGen b.Up y x ∧ (b.span x).stop ≤ (b.span y).start)

theorem contains_iff : range.contains range' ↔
    range.start ≤ range'.start ∧ range'.stop ≤ range.stop := by
  simp [Span.contains]

theorem arranged_leaves (h : Run (leafSite o a.size refers) a log b) : Arranged range a b :=
  ⟨fun _ hx hopen => absurd hopen (h.leaf_of_new hx),
    fun _ hx hopen => absurd hopen (h.leaf_of_new hx),
    fun _ _ hx _ hopen => absurd hopen (h.leaf_of_new hx)⟩

theorem Arranged.append (h : Arranged range a b) (h' : Arranged range' b c) (ho : o < a.size)
    (hl : b.Linked) (hrun : Run (visitSite o b.size refers) b log c)
    (hin : whole.contains range) (hin' : whole.contains range') (hord : range.stop ≤ range'.start) :
    Arranged whole a c := by
  have hext := hrun.extension
  rw [contains_iff] at hin hin'
  -- what holds in the first part holds in the end
  have hold {x : NodeId} (hx : a.size ≤ x) (hlt : x < b.size) (hopen : c.Opened x) :
      b.Opened x ∧ c.span x = b.span x ∧ range.contains (c.span x) := by
    have hopen' := (hext.opened_iff hlt).mp hopen
    refine ⟨hopen', hext.span_eq hlt, ?_⟩
    rw [hext.span_eq hlt]
    exact h.inside x hx hopen'
  refine ⟨?_, ?_, ?_⟩
  · intro x hx hopen
    by_cases hlt : x < b.size
    · obtain ⟨hopen', hspan, -⟩ := hold hx hlt hopen
      rw [hspan]
      exact h.forward x hx hopen'
    · exact h'.forward x (Nat.le_of_not_lt hlt) hopen
  · intro x hx hopen
    rw [contains_iff]
    by_cases hlt : x < b.size
    · obtain ⟨-, -, hspan⟩ := hold hx hlt hopen
      rw [contains_iff] at hspan
      omega
    · have hspan := h'.inside x (Nat.le_of_not_lt hlt) hopen
      rw [contains_iff] at hspan
      omega
  · intro x y hx hxy hopen hopen'
    by_cases hlt : y < b.size
    · obtain ⟨hox, hsx, -⟩ := hold hx (Nat.lt_trans hxy hlt) hopen
      obtain ⟨hoy, hsy, -⟩ := hold (Nat.le_of_lt (Nat.lt_of_le_of_lt hx hxy)) hlt hopen'
      rw [hsx, hsy, hext.grows.above_iff hl hlt]
      exact h.apart x y hx hxy hox hoy
    · have hge := Nat.le_of_not_lt hlt
      by_cases hltx : x < b.size
      · obtain ⟨-, -, hspan⟩ := hold hx hltx hopen
        have hspan' := h'.inside y hge hopen'
        rw [contains_iff] at hspan hspan'
        refine .inr ⟨not_above_of_run hrun hl (Nat.lt_of_lt_of_le ho hx) hltx hge, ?_⟩
        omega
      · exact h'.apart x y (Nat.le_of_not_lt hltx) hxy hopen hopen'

theorem Arranged.node {entered visited : Ast} {slots : List Tree}
    (h : Arranged t.span entered visited) (hopening : Opening o t a entered visited b)
    (hinner : Visits a.size refers slots log entered visited) (ho : o < a.size) (hl : a.Linked)
    (hforward : t.span.start ≤ t.span.stop) : Arranged t.span a b := by
  have hlt := hopening.lt ho
  have hext := (hinner.run hlt).extension
  have hleave := hopening.leave.extension
  have hspan : b.span a.size = t.span := by
    obtain ⟨kind, -, hrun⟩ := hopening.enter
    rw [hleave.span_eq (Nat.lt_of_lt_of_le hlt hext.size_le), hext.span_eq hlt,
      hrun.extension.span_eq (by simp), span_addListed ho, if_pos rfl]
  have hin {x : NodeId} (hx : entered.size ≤ x) (hopen : visited.Opened x) :
      t.span.contains (b.span x) := by
    rw [hleave.span_eq hopen.lt]
    exact h.inside x hx hopen
  refine ⟨?_, ?_, ?_⟩
  · intro x hx hopen
    rcases hopening.opened_cases hext hx hopen with rfl | ⟨hnew, hopen⟩
    · rwa [hspan]
    · rw [hleave.span_eq hopen.lt]
      exact h.forward x hnew hopen
  · intro x hx hopen
    rcases hopening.opened_cases hext hx hopen with rfl | ⟨hnew, hopen⟩
    · rw [hspan, contains_iff]
      exact ⟨Nat.le_refl _, Nat.le_refl _⟩
    · exact hin hnew hopen
  · intro x y hx hxy hopen hopen'
    have hy : a.size < y := Nat.lt_of_le_of_lt hx hxy
    obtain ⟨hnew', hopen'⟩ :=
      (hopening.opened_cases hext (Nat.le_of_lt hy) hopen').resolve_left (Nat.ne_of_gt hy)
    rcases hopening.opened_cases hext hx hopen with rfl | ⟨hnew, hopen⟩
    · refine .inl ⟨?_, hspan ▸ hin hnew' hopen'⟩
      exact hleave.above (hinner.under_owner hlt (hopening.linked ho hl) y hnew' hopen')
    · have hlinked := (hopening.linked ho hl).grows hext.grows
      rw [hleave.span_eq hopen.lt, hleave.span_eq hopen'.lt,
        hleave.grows.above_iff hlinked hopen'.lt]
      exact h.apart x y hnew hxy hopen hopen'

theorem Arranged.behind {log' : List Entry} (h : Arranged t.span a b) (ho : o < a.size)
    (hl : a.Linked) (hline : Tree.Line range (t :: ts)) (ht : t.isPresent)
    (hrun : Run (visitSite o a.size refers) a log b) (hrest : Visits o refers ts log' b c)
    (hnext : ∀ range, o < b.size → b.Linked → Tree.Line range ts → Arranged range b c) :
    Arranged range a c := by
  have hext := hrun.extension
  have ho' := Nat.lt_of_lt_of_le ho hext.size_le
  have hl' := hl.grows hext.grows
  obtain ⟨hin, hbehind⟩ := hline.behind ht
  have hforward := (hline.spaced t List.mem_cons_self).line.forward
  refine h.append (hnext _ ho' hl' hbehind) ho hl' (hrest.run ho') hin ?_ (Nat.le_refl _)
  rw [contains_iff] at hin ⊢
  exact ⟨Nat.le_trans hin.1 hforward, Nat.le_refl _⟩

/-- A visit arranges its nodes as the visited trees are arranged. -/
theorem Visits.arranged (h : Visits o refers ts log a b) (ho : o < a.size) (hl : a.Linked)
    (hline : Tree.Line range ts) : Arranged range a b := by
  induction h generalizing range with
  | @nil o _ a =>
    have hrun : Run (leafSite o a.size True) a [] a := .refl
    exact arranged_leaves hrun
  | @leaves o _ _ _ _ a b _ h hrest ih =>
    have hext := h.extension
    have ho' := Nat.lt_of_lt_of_le ho hext.size_le
    have hl' := hl.grows hext.grows
    have hfirst : Arranged ⟨range.start, range.start⟩ a b := arranged_leaves h
    refine hfirst.append (ih ho' hl' hline.tail) ho hl' (hrest.run ho') ?_ ?_ (Nat.le_refl _)
    · exact contains_iff.mpr ⟨Nat.le_refl _, hline.forward⟩
    · exact contains_iff.mpr ⟨Nat.le_refl _, Nat.le_refl _⟩
  | @pass o refers t _ _ _ a b _ ht h hrest ih ih' =>
    have hrun : Run (visitSite o a.size refers) a _ b :=
      (h.run ho).widen rfl (Nat.le_refl _) (fun _ hk => hk) nofun
    have hfirst := ih ho hl (hline.spaced t List.mem_cons_self).line
    exact hfirst.behind ho hl hline ht hrun hrest fun _ => ih'
  | @node o refers _ t _ slots _ _ a _ _ _ _ h hslots hinner hrest ih ih' =>
    have hspaced := (hline.spaced t List.mem_cons_self).line
    have hslotsLine : Tree.Line t.span slots := by
      rcases hslots with rfl | rfl
      · exact hspaced
      · exact ⟨hspaced.forward, nofun, .nil, nofun⟩
    have hrun : Run (visitSite o a.size refers) a _ _ := h.run ho (hinner.run (h.lt ho))
    have hfirst := (ih (h.lt ho) (h.linked ho hl) hslotsLine).node h hinner ho hl hspaced.forward
    exact hfirst.behind ho hl hline h.present hrun hrest fun _ => ih'

theorem build_arranged {root : Tree} {name : String} (hs : root.Spaced)
    (h : build root name = .ok ast) : Arranged root.span (ofSpan root.span) ast := by
  obtain ⟨log, hv⟩ := build_visits h
  exact hv.arranged Nat.one_pos (linked_ofSpan root.span) hs.line

/-- `x` starts no later than `y`, and does not stand inside it. -/
def SourceBefore (ast : Ast) (x y : NodeId) : Prop :=
  (ast.span x).start ≤ (ast.span y).start ∧ ¬ TransGen ast.Up x y

/-- `x` stands inside `y`, or before it and apart from it. -/
def InnerFirst (ast : Ast) (x y : NodeId) : Prop :=
  (TransGen ast.Up x y ∧ (ast.span y).contains (ast.span x)) ∨
    (x < y ∧ ¬ TransGen ast.Up y x ∧ (ast.span x).stop ≤ (ast.span y).start)

theorem InnerFirst.not_above (hl : ast.Linked) (h : ast.InnerFirst x y) :
    ¬ TransGen ast.Up y x := by
  rcases h with ⟨hxy, -⟩ | ⟨-, hyx, -⟩
  · exact fun hyx => Nat.lt_asymm (hl.above_lt hxy) (hl.above_lt hyx)
  · exact hyx

theorem Arranged.innerFirst {s : Span} (h : Arranged range (ofSpan s) ast) (hl : ast.Linked)
    (hx : rootId < x) (hy : rootId < y) (hox : ast.Opened x) (hoy : ast.Opened y)
    (hleft : ast.LeftBefore x y) : ast.InnerFirst x y := by
  rcases hleft with habove | ⟨hlt, hnot⟩
  · refine .inl ⟨habove, ?_⟩
    rcases h.apart y x hy (hl.above_lt habove) hoy hox with ⟨-, hin⟩ | ⟨hnot, -⟩
    · exact hin
    · exact absurd habove hnot
  · refine .inr ⟨hlt, hnot, ?_⟩
    rcases h.apart x y hx hlt hox hoy with ⟨habove, -⟩ | ⟨-, hstop⟩
    · exact absurd habove hnot
    · exact hstop

def Apart (ast : Ast) (x y : NodeId) : Prop :=
  ¬ TransGen ast.Up x y ∧ ¬ TransGen ast.Up y x

instance (ast : Ast) : Std.Symm ast.Apart :=
  ⟨fun _ _ => And.symm⟩

/-- A list with the inner nodes first is in an order that puts the outer ones first only if no node
in it stands inside another. -/
theorem pairwise_iff_not_inside {ids : List NodeId} {R : NodeId → NodeId → Prop}
    (hl : ast.Linked) (h : ids.Pairwise ast.InnerFirst)
    (houter : ∀ x y, R x y → ¬ TransGen ast.Up x y)
    (hbehind : ∀ x ∈ ids, ∀ y, x < y → (ast.span x).stop ≤ (ast.span y).start →
      ¬ TransGen ast.Up x y → R x y) :
    ids.Pairwise R ↔ ∀ x ∈ ids, ∀ y ∈ ids, ¬ TransGen ast.Up x y := by
  constructor
  · intro hR x hx y hy habove
    have hne : x ≠ y := fun he => Nat.lt_irrefl x (hl.above_lt (he ▸ habove))
    have hapart : ids.Pairwise ast.Apart := by
      refine (h.and hR).imp fun ⟨hinner, hxy⟩ => ?_
      exact ⟨houter _ _ hxy, hinner.not_above hl⟩
    exact (hapart.forall hx hy hne).1 habove
  · intro hnone
    refine h.imp_of_mem fun {x y} hx hy hinner => ?_
    have hnot := hnone x hx y hy
    rcases hinner with ⟨habove, -⟩ | ⟨hlt, -, hstop⟩
    · exact absurd habove hnot
    · exact hbehind x hx y hlt hstop hnot

/-- Instances with ids are listed in the order in which they are left. This is their order in the
source exactly if none of them stands inside another one of the list. -/
theorem build_idComponents_innerFirst {cst : Cst.Table} {source : String} (ha : cst.Acyclic)
    (hn : cst.WellNested source) (he : cst.ErrorFree) (name : String) :
    ∃ root ast, cst.tree? = some root ∧ build root name = .ok ast ∧
    ∀ c m, ast.members? c = some m →
      m.idComponents.Pairwise ast.InnerFirst ∧
      (m.idComponents.Pairwise ast.SourceBefore ↔
        ∀ x ∈ m.idComponents, ∀ y ∈ m.idComponents, ¬ TransGen ast.Up x y) ∧
      (m.idComponents.Pairwise (· < ·) ↔
        ∀ x ∈ m.idComponents, ∀ y ∈ m.idComponents, ¬ TransGen ast.Up x y) := by
  obtain ⟨root, ast, ht, hb⟩ := build_ok ha he name
  obtain ⟨log, hlog⟩ := build_logged hb
  have hl := build_linked hb
  have harr := build_arranged (Cst.Table.tree?_spaced ht hn) hb
  refine ⟨root, ast, ht, hb, fun c m hm => ?_⟩
  have hlist : ast.entries .idComponents c = m.idComponents := entries_of_members? hm _
  rw [← hlist]
  have hmem {x : NodeId} (hx : x ∈ ast.entries .idComponents c) : rootId < x ∧ ast.Opened x := by
    obtain ⟨i, hk, -, -, p, habove, -⟩ := (hlog.mem_idComponents hl).mp hx
    refine ⟨Nat.lt_of_le_of_lt (Nat.zero_le p) (hl.above_lt habove), ?_⟩
    exact isKind_iff.mpr ⟨_, hk, rfl⟩
  have hinner : (ast.entries .idComponents c).Pairwise ast.InnerFirst := by
    refine (hlog.pairwise .idComponents c).imp_of_mem fun hx hy hleft => ?_
    exact harr.innerFirst hl (hmem hx).1 (hmem hy).1 (hmem hx).2 (hmem hy).2 hleft
  refine ⟨hinner, pairwise_iff_not_inside hl hinner (fun _ _ h => h.2) ?_,
    pairwise_iff_not_inside hl hinner ?_ fun _ _ _ hlt _ _ => hlt⟩
  · intro x hx y _ hstop hnot
    have hforward := harr.forward x (hmem hx).1 (hmem hx).2
    exact ⟨Nat.le_trans hforward hstop, hnot⟩
  · intro x y hlt habove
    exact Nat.lt_asymm hlt (hl.above_lt habove)

def nestedIdsSource : String :=
  "component A \x7b B #b \x7b C #c \x7b \x7d \x7d \x7d"

def nestedIds : Cst.Table :=
  let inner := instanceSketch [wordSketch "C", idSketch "c", bodySketch []]
  let outer := instanceSketch [wordSketch "B", idSketch "b", bodySketch [inner]]
  ((declarationSketch "A" [outer]).layout nestedIdsSource).toOption.getD {}

theorem nestedIds_entries : ∀ e ∈ nestedIds.entries,
    (e.head.span.start ≤ e.head.span.stop ∧ e.head.span.stop ≤ 33) ∧
      (∀ c ∈ nestedIds.childrenOf e, e.head.span.contains c.head.span) ∧
      ((nestedIds.childrenOf e).IsChain fun a b => a.head.span.stop ≤ b.head.span.start) ∧
      Cst.Kind.ofName e.head.kind ≠ .error := by
  decide +kernel

theorem nestedIds_wellNested : nestedIds.WellNested nestedIdsSource := by
  have hb : ∀ n < 34, Text.IsBoundary nestedIdsSource n := by
    intro n hn
    refine ⟨nestedIdsSource.toList.take n, nestedIdsSource.toList.drop n,
      (List.take_append_drop n _).symm, ?_⟩
    revert n
    decide +kernel
  have hsize : Text.byteSize nestedIdsSource = 33 := by decide +kernel
  have hentry {i : Nat} {e : Cst.Entry} (h : nestedIds.Reached i e) :=
    nestedIds_entries e (Array.mem_of_getElem? h.entry)
  refine ⟨fun i e h => ?_, fun i e h => (hentry h).2.1, fun i e h => (hentry h).2.2.1⟩
  obtain ⟨⟨h1, h2⟩, -⟩ := hentry h
  exact ⟨h1, hsize ▸ h2, hb _ (by omega), hb _ (by omega)⟩

theorem nestedIds_acyclic : nestedIds.Acyclic :=
  Cst.Table.acyclic_of_children_lt (by decide +kernel)

theorem nestedIds_errorFree : nestedIds.ErrorFree :=
  fun _ e h => (nestedIds_entries e (Array.mem_of_getElem? h.entry)).2.2.2

theorem nestedIds_built {root : Cst.Tree} {ast : Ast} (ht : nestedIds.tree? = some root)
    (hb : build root "App" = .ok ast) :
    ∃ m, ast.members? 1 = some m ∧ m.idComponents = [8, 4] ∧ TransGen ast.Up 8 4 := by
  have hbuilt : (ast.members? 1).map (·.idComponents) = some [8, 4] ∧
      ast.ancestors 8 = [7, 4, 3, 1, 0] := by
    apply of_build_of_decide ht hb
    decide +kernel
  obtain ⟨m, hm, hids⟩ := Option.map_eq_some_iff.mp hbuilt.1
  refine ⟨m, hm, hids, ?_⟩
  rw [← mem_ancestors (build_linked hb), hbuilt.2]
  decide

theorem nestedIds_innerFirst : nestedIds.Acyclic ∧ nestedIds.WellNested nestedIdsSource ∧
    nestedIds.ErrorFree ∧
    ∃ root ast m, nestedIds.tree? = some root ∧ build root "App" = .ok ast ∧
      ast.members? 1 = some m ∧ m.idComponents = [8, 4] ∧
      m.idComponents.Pairwise ast.InnerFirst := by
  obtain ⟨root, ast, ht, hb, h⟩ :=
    build_idComponents_innerFirst nestedIds_acyclic nestedIds_wellNested nestedIds_errorFree "App"
  obtain ⟨m, hm, hids, -⟩ := nestedIds_built ht hb
  exact ⟨nestedIds_acyclic, nestedIds_wellNested, nestedIds_errorFree, root, ast, m, ht, hb, hm,
    hids, (h 1 m hm).1⟩

/-- The list is not in source order: the instance inside comes before the one around it. -/
theorem nestedIds_not_in_source_order :
    nestedIds.Acyclic ∧ nestedIds.WellNested nestedIdsSource ∧ nestedIds.ErrorFree ∧
    ∃ root ast m, nestedIds.tree? = some root ∧ build root "App" = .ok ast ∧
      ast.members? 1 = some m ∧ m.idComponents = [8, 4] ∧ TransGen ast.Up 8 4 ∧
      ¬ m.idComponents.Pairwise ast.SourceBefore := by
  refine ⟨nestedIds_acyclic, nestedIds_wellNested, nestedIds_errorFree, ?_⟩
  obtain ⟨root, ast, ht, hb⟩ := build_ok nestedIds_acyclic nestedIds_errorFree "App"
  obtain ⟨m, hm, hids, hinside⟩ := nestedIds_built ht hb
  refine ⟨root, ast, m, ht, hb, hm, hids, hinside, fun hsource => ?_⟩
  rw [hids] at hsource
  exact ((List.pairwise_cons.mp hsource).1 4 (by simp)).2 hinside

end ComponentCompiler.Ast
