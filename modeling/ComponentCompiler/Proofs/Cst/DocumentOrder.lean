import ComponentCompiler.Ast.Build
import ComponentCompiler.Proofs.Cst.Unfolding

namespace ComponentCompiler.Cst

open Relation

theorem Kind.ofName_eq_error {name : String} : Kind.ofName name = .error ↔ name = "ERROR" := by
  constructor
  · intro h
    rcases Option.eq_none_or_eq_some (names.lookup name) with hnone | ⟨kind, hsome⟩
    · simp [ofName, hnone] at h
    · have hkind : kind = error := by simpa [ofName, hsome] using h
      subst hkind
      obtain ⟨before, behind, hnames, -⟩ := List.lookup_eq_some_iff.mp hsome
      have hall : ∀ p ∈ names, p.2 = error → p.1 = "ERROR" := by decide
      exact hall (name, error) (hnames ▸ by simp) rfl
  · rintro rfl
    rfl

namespace Table

variable {t : Table} {i j : Nat} {e : Entry} {root : Tree} {pending order : List Nat}

/-- The pending entries and what they lead to, in document order. -/
inductive Walks (t : Table) : List Nat → List Nat → Prop
  | done : Walks t [] []
  | outside {i : Nat} {pending order : List Nat} (here : t.entries[i]? = none)
      (behind : Walks t pending order) : Walks t (i :: pending) order
  | entry {i : Nat} {e : Entry} {pending below order : List Nat} (here : t.entries[i]? = some e)
      (children : Walks t e.children below) (behind : Walks t pending order) :
      Walks t (i :: pending) (i :: below ++ order)

def FirstError (t : Table) (e : Entry) : Prop :=
  ∃ before i behind, t.Walks [t.root] (before ++ i :: behind) ∧ t.entries[i]? = some e ∧
    e.head.kind = "ERROR" ∧
      ∀ j ∈ before, ∀ e', t.entries[j]? = some e' → e'.head.kind ≠ "ERROR"

namespace Walks

theorem unique {order' : List Nat} (h : t.Walks pending order) (h' : t.Walks pending order') :
    order = order' := by
  induction h generalizing order' with
  | done => cases h' with
    | done => rfl
  | outside here _ ih => cases h' with
    | outside _ behind => exact ih behind
    | entry here' _ _ => cases here.symm.trans here'
  | entry here _ _ ihc ihb => cases h' with
    | outside here' _ => cases here.symm.trans here'
    | entry here' children behind =>
      cases here.symm.trans here'
      rw [ihc children, ihb behind]

theorem cons {order' : List Nat} (h : t.Walks [i] order) (h' : t.Walks pending order') :
    t.Walks (i :: pending) (order ++ order') := by
  cases h with
  | outside here behind => cases behind with
    | done => exact .outside here h'
  | entry here children behind => cases behind with
    | done =>
      rw [List.append_nil]
      exact .entry here children h'

theorem mem_iff (h : t.Walks pending order) :
    j ∈ order ↔ ∃ i ∈ pending, ReflTransGen t.Lists i j ∧ ∃ e, t.entries[j]? = some e := by
  induction h with
  | done => simp
  | @outside i pending order here _ ih =>
    have hi : ¬ (ReflTransGen t.Lists i j ∧ ∃ e, t.entries[j]? = some e) := by
      rintro ⟨hpath, e, he⟩
      rcases ReflTransGen.cases_head_iff.mp hpath with rfl | ⟨_, ⟨e', he', -⟩, -⟩
      · cases here.symm.trans he
      · cases here.symm.trans he'
    rw [ih, List.exists_mem_cons_iff, or_iff_right hi]
  | @entry i e pending below order here _ _ ihc ihb =>
    rw [List.cons_append, List.mem_cons, List.mem_append, ihc, ihb, List.exists_mem_cons_iff,
      ← or_assoc]
    refine or_congr_left ?_
    constructor
    · rintro (rfl | ⟨c, hc, hpath, hentry⟩)
      · exact ⟨.refl, e, here⟩
      · exact ⟨.head ⟨e, here, hc⟩ hpath, hentry⟩
    · rintro ⟨hpath, hentry⟩
      rcases ReflTransGen.cases_head_iff.mp hpath with rfl | ⟨c, ⟨e', he', hc⟩, hpath⟩
      · exact .inl rfl
      · cases here.symm.trans he'
        exact .inr ⟨c, hc, hpath, hentry⟩

end Walks

def error? (t : Table) (i : Nat) : Option Head :=
  t.entries[i]?.bind fun e => if Kind.ofName e.head.kind = .error then some e.head else none

theorem error?_eq_some {head : Head} : t.error? i = some head ↔
    ∃ e, t.entries[i]? = some e ∧ e.head.kind = "ERROR" ∧ e.head = head := by
  simp [error?, Option.bind_eq_some_iff, Kind.ofName_eq_error]

theorem error?_eq_none :
    t.error? i = none ↔ ∀ e, t.entries[i]? = some e → e.head.kind ≠ "ERROR" := by
  simp [error?, Option.bind_eq_none_iff, Kind.ofName_eq_error]

/-- Entries whose trees are searched in document order are searched in that order together. -/
theorem walks_children {depth : Nat} {slots : List Tree}
    (hslots : pending.map (t.treeAt? depth) = slots.map some)
    (h : ∀ i ∈ pending, ∀ s, t.treeAt? depth i = some s → ∃ order, t.Walks [i] order ∧
      s.firstError? = order.findSome? t.error?) :
    ∃ order, t.Walks pending order ∧
      Tree.firstErrorIn? slots = order.findSome? t.error? := by
  induction pending generalizing slots with
  | nil =>
    obtain rfl : slots = [] := List.map_eq_nil_iff.mp hslots.symm
    exact ⟨[], .done, rfl⟩
  | cons i pending ih =>
    obtain ⟨s, slots, rfl, hs, hrest⟩ := List.map_eq_cons_iff.mp hslots.symm
    obtain ⟨first, hfirst, he⟩ := h i List.mem_cons_self s hs.symm
    obtain ⟨rest, hwalks, he'⟩ := ih hrest.symm fun j hj => h j (List.mem_cons_of_mem i hj)
    refine ⟨first ++ rest, hfirst.cons hwalks, ?_⟩
    rw [Tree.firstErrorIn?, he, he', List.findSome?_append]
    cases first.findSome? t.error? <;> rfl

/-- The tree shows everything that the root leads to, in document order. -/
theorem walks_tree? (ht : t.tree? = some root) : ∃ order, t.Walks [t.root] order ∧
    root.firstError? = order.findSome? t.error? := by
  rcases tree?_cases ht with ⟨rfl, hnone⟩ | hroot
  · exact ⟨[], .outside hnone .done, rfl⟩
  · refine treeAt?_induct (P := fun i s => ∃ order, t.Walks [i] order ∧
      s.firstError? = order.findSome? t.error?) (fun i hi => ⟨[], .outside hi .done, rfl⟩) ?_
      .refl hroot
    intro d i e slots hreach hslots ih
    obtain ⟨order, hwalks, he⟩ := walks_children hslots ih
    refine ⟨i :: order, ?_, ?_⟩
    · simpa using Walks.entry hreach.entry hwalks .done
    · rw [Tree.firstError?, he, List.findSome?_cons, error?, hreach.entry]
      by_cases herror : Kind.ofName e.head.kind = .error <;> simp [herror]

theorem Walks.exists_error_iff (h : t.Walks [t.root] order) :
    (∃ head, order.findSome? t.error? = some head) ↔
      ∃ i e, t.Reached i e ∧ e.head.kind = "ERROR" := by
  constructor
  · rintro ⟨head, hfind⟩
    obtain ⟨i, hi, herror⟩ := List.exists_of_findSome?_eq_some hfind
    obtain ⟨e, he, hkind, -⟩ := error?_eq_some.mp herror
    obtain ⟨_, hroot, hpath, -⟩ := h.mem_iff.mp hi
    cases List.mem_singleton.mp hroot
    exact ⟨i, e, ⟨hpath, he⟩, hkind⟩
  · rintro ⟨i, e, hr, hkind⟩
    have hi : i ∈ order := h.mem_iff.mpr ⟨_, List.mem_singleton_self _, hr.path, e, hr.entry⟩
    have herror : t.error? i = some e.head := error?_eq_some.mpr ⟨e, hr.entry, hkind, rfl⟩
    exact Option.isSome_iff_exists.mp
      (List.findSome?_isSome_iff.mpr ⟨i, hi, Option.isSome_iff_exists.mpr ⟨_, herror⟩⟩)

theorem Walks.firstError_iff {head : Head} (h : t.Walks [t.root] order) :
    (∃ e, t.FirstError e ∧ e.head = head) ↔ order.findSome? t.error? = some head := by
  rw [List.findSome?_eq_some_iff]
  constructor
  · rintro ⟨e, ⟨before, i, behind, hwalks, he, hkind, hbefore⟩, rfl⟩
    refine ⟨before, i, behind, h.unique hwalks, error?_eq_some.mpr ⟨e, he, hkind, rfl⟩, ?_⟩
    exact fun j hj => error?_eq_none.mpr (hbefore j hj)
  · rintro ⟨before, i, behind, rfl, herror, hbefore⟩
    obtain ⟨e, he, hkind, rfl⟩ := error?_eq_some.mp herror
    exact ⟨e, ⟨before, i, behind, h, he, hkind, fun j hj => error?_eq_none.mp (hbefore j hj)⟩, rfl⟩

theorem build_eq_error {root : Tree} {name : String} {err : CompileError} :
    Ast.build root name = .error err ↔ ∃ head, root.firstError? = some head ∧
      err = .malformed ⟨head.point.row, head.point.column, head.span.start, name⟩ := by
  unfold Ast.build
  split
  · next head hfirst => simp [hfirst, eq_comm]
  · next hfirst => simp [hfirst]

/-- A table without cycles has a tree. Building a unit from it fails just if the table leads to an
error, at the first one in document order. -/
theorem build_fails_at_first_error (h : t.Acyclic) (name : String) :
    ∃ root, t.tree? = some root ∧
      ((∃ err, Ast.build root name = .error err) ↔
        ∃ i e, t.Reached i e ∧ e.head.kind = "ERROR") ∧
      (∀ err, Ast.build root name = .error err ↔ ∃ e, t.FirstError e ∧
        err = .malformed ⟨e.head.point.row, e.head.point.column, e.head.span.start, name⟩) ∧
      ((¬ ∃ i e, t.Reached i e ∧ e.head.kind = "ERROR") →
        ∃ ast, Ast.build root name = .ok ast) := by
  obtain ⟨root, ht⟩ := h.exists_tree
  obtain ⟨order, hwalks, hfirst⟩ := walks_tree? ht
  have hfails : (∃ err, Ast.build root name = .error err) ↔
      ∃ i e, t.Reached i e ∧ e.head.kind = "ERROR" := by
    rw [← hwalks.exists_error_iff]
    simp only [build_eq_error, hfirst]
    exact ⟨fun ⟨_, head, hfind, _⟩ => ⟨head, hfind⟩, fun ⟨head, hfind⟩ => ⟨_, head, hfind, rfl⟩⟩
  refine ⟨root, ht, hfails, fun err => ?_, fun hnone => ?_⟩
  · simp only [build_eq_error, hfirst, ← hwalks.firstError_iff]
    constructor
    · rintro ⟨_, ⟨e, he, rfl⟩, herr⟩
      exact ⟨e, he, herr⟩
    · rintro ⟨e, he, herr⟩
      exact ⟨e.head, ⟨e, he, rfl⟩, herr⟩
  · cases hbuild : Ast.build root name with
    | error err => exact absurd (hfails.mp ⟨err, hbuild⟩) hnone
    | ok ast => exact ⟨ast, rfl⟩

/-- A hole in the table, and an error below a number, where no rule looks. It is found before the
error that stands at the front of the table. -/
theorem build_fails_at_first_error_shared :
    let t : Table := {
      entries := #[
        { head := { kind := "ERROR", span := ⟨9, 10⟩ } },
        { head := { kind := "ERROR", span := ⟨4, 5⟩, point := ⟨1, 2⟩ } },
        { head := { kind := "number", span := ⟨3, 6⟩ }, children := [8, 1] },
        { head := { kind := "expression_statement", span := ⟨3, 6⟩ }, children := [2, 0] },
        { head := { kind := "program", span := ⟨0, 10⟩ }, children := [5, 3, 2, 0] }]
      root := 4 }
    t.Acyclic ∧ (∃ e, t.FirstError e ∧ e.head.span.start = 4) ∧
      ∃ root, t.tree? = some root ∧
        Ast.build root "main" = .error (.malformed ⟨1, 2, 4, "main"⟩) := by
  intro t
  have hacyclic : t.Acyclic := acyclic_of_children_lt (by decide)
  obtain ⟨root, ht, -, herror, -⟩ := build_fails_at_first_error hacyclic "main"
  have hbuild : Ast.build root "main" = .error (.malformed ⟨1, 2, 4, "main"⟩) := by
    have heval : t.tree?.map (Ast.build · "main") =
        some (.error (.malformed ⟨1, 2, 4, "main"⟩)) := rfl
    rw [ht] at heval
    exact Option.some.inj heval
  obtain ⟨e, he, herr⟩ := (herror _).mp hbuild
  have hplace : e.head.point.row = 1 ∧ e.head.point.column = 2 ∧ e.head.span.start = 4 := by
    simpa using herr.symm
  exact ⟨hacyclic, ⟨e, he, hplace.2.2⟩, root, ht, hbuild⟩

end Table

end ComponentCompiler.Cst
