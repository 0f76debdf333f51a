import ComponentCompiler.Proofs.Ast.Ancestors
import ComponentCompiler.Proofs.Edit
import ComponentCompiler.SourceUnit
import Mathlib.Data.List.Nodup

namespace ComponentCompiler

open Relation

namespace Ast

variable {source : String} {ast : Ast} {id x y : NodeId}

def holdsUse (ast : Ast) (id : NodeId) : Bool :=
  (List.range ast.size).any fun d =>
    (ast.ancestors d).contains id && ast.group d == .componentUse

/-- Declarations, instances and tagged texts are replaced as a whole, and declarations of variables
that hold an instance or a tagged text. -/
def isReplaced (ast : Ast) (id : NodeId) : Bool :=
  match ast.group id with
  | .declaration | .componentUse => true
  | .variables => ast.holdsUse id
  | .importStatement | .other => false

def isOutermost (ast : Ast) (id : NodeId) : Bool :=
  ast.isReplaced id && (ast.ancestors id).all fun a => !ast.isReplaced a

def importNodes (ast : Ast) : List NodeId :=
  (List.range ast.size).filter fun id => ast.group id == .importStatement

def outermostNodes (ast : Ast) : List NodeId :=
  (List.range ast.size).filter ast.isOutermost

/-- The replaced nodes that the conversion of `id` comes to first. -/
def tops (ast : Ast) : Nat → NodeId → List NodeId
  | 0, _ => []
  | levels + 1, id =>
    if ast.isReplaced id then [id]
    else if ast.group id = .importStatement then []
    else (ast.children id).flatMap (ast.tops levels)

theorem group_ne_other (h : ast.isReplaced id) : ast.group id ≠ .other := by
  intro hg
  simp [isReplaced, hg] at h

theorem group_ne_import (h : ast.isReplaced id) : ast.group id ≠ .importStatement := by
  intro hg
  simp [isReplaced, hg] at h

theorem lt_size_of_group (h : ast.group id ≠ .other) : id < ast.size :=
  Grows.old_of_group .refl h

theorem tops_spec (hl : ast.Linked) {levels : Nat} (h : x ∈ ast.tops levels id) :
    ast.isReplaced x ∧ ReflTransGen ast.Up x id ∧
      ∀ a, TransGen ast.Up x a → ReflTransGen ast.Up a id → ¬ ast.isReplaced a := by
  induction levels generalizing id with
  | zero => simp [tops] at h
  | succ levels ih =>
    unfold tops at h
    split at h
    · next hr =>
      obtain rfl := List.mem_singleton.mp h
      refine ⟨hr, .refl, fun a ha hc => ?_⟩
      exact absurd (hl.above_lt ha) (Nat.not_lt.mpr (hl.chain_le hc))
    · next hr =>
      split at h
      · cases h
      · obtain ⟨c, hc, hx⟩ := List.mem_flatMap.mp h
        have hu := (mem_children hl).mp hc
        obtain ⟨hrx, hchain, hbetween⟩ := ih hx
        refine ⟨hrx, hchain.tail hu, fun a ha hai => ?_⟩
        rcases hai.cases_tail with rfl | ⟨d, had, hdi⟩
        · exact hr
        · obtain rfl := child_unique hl hdi hu (ha.to_reflTransGen.trans had) hchain
          exact hbetween a ha had

theorem mem_tops (hl : ast.Linked) {levels : Nat} (hr : ast.isReplaced x)
    (hc : ReflTransGen ast.Up x id) (hlt : x < id + levels)
    (hb : ∀ a, TransGen ast.Up x a → ReflTransGen ast.Up a id →
      ¬ ast.isReplaced a ∧ ast.group a ≠ .importStatement) : x ∈ ast.tops levels id := by
  induction levels generalizing id with
  | zero => exact absurd hlt (Nat.not_lt.mpr (hl.chain_le hc))
  | succ levels ih =>
    unfold tops
    rcases hc.cases_tail with rfl | ⟨c, hxc, hu⟩
    · simp [hr]
    · have habove : TransGen ast.Up x id := TransGen.tail' hxc hu
      obtain ⟨hni, hii⟩ := hb id habove .refl
      rw [if_neg hni, if_neg hii]
      have hlt' : x < c + levels := Nat.lt_of_lt_of_le hlt (hl.step_le hu levels)
      refine List.mem_flatMap.mpr ⟨c, (mem_children hl).mpr hu, ih hxc hlt' fun a ha hac => ?_⟩
      exact hb a ha (hac.tail hu)

theorem nodup_tops (hl : ast.Linked) (levels : Nat) (id : NodeId) : (ast.tops levels id).Nodup := by
  induction levels generalizing id with
  | zero => exact List.nodup_nil
  | succ levels ih =>
    unfold tops
    split
    · exact List.nodup_singleton id
    · split
      · exact List.nodup_nil
      · refine List.nodup_flatMap.mpr ⟨fun c _ => ih c, ?_⟩
        have hn : (ast.children id).Nodup := by
          rw [hl.children id]
          exact List.nodup_range.filter _
        refine hn.pairwise_of_forall_ne fun c hc d hd hne x hxc hxd => hne ?_
        exact child_unique hl ((mem_children hl).mp hc) ((mem_children hl).mp hd)
          (tops_spec hl hxc).2.1 (tops_spec hl hxd).2.1

theorem isOutermost_iff (hl : ast.Linked) : ast.isOutermost x ↔
    ast.isReplaced x ∧ ∀ a, TransGen ast.Up x a → ¬ ast.isReplaced a := by
  simp [isOutermost, mem_ancestors hl]

theorem mem_importNodes : x ∈ ast.importNodes ↔ ast.group x = .importStatement := by
  rw [importNodes, List.mem_filter, List.mem_range, beq_iff_eq]
  exact and_iff_right_of_imp fun h => lt_size_of_group (by simp [h])

theorem mem_outermostNodes : x ∈ ast.outermostNodes ↔ ast.isOutermost x := by
  rw [outermostNodes, List.mem_filter, List.mem_range]
  refine and_iff_right_of_imp fun h => lt_size_of_group (group_ne_other ?_)
  exact (Bool.and_eq_true_iff.mp h).1

theorem nodup_outermostNodes (ast : Ast) : ast.outermostNodes.Nodup :=
  List.nodup_range.filter _

theorem nodup_importNodes (ast : Ast) : ast.importNodes.Nodup :=
  List.nodup_range.filter _

/-- The conversion of the root comes to the outermost nodes that are replaced. -/
theorem tops_perm_outermost (hn : Nested source ast) :
    (ast.tops (ast.size + 1) rootId).Perm ast.outermostNodes := by
  have hl := hn.linked
  refine (List.perm_ext_iff_of_nodup (nodup_tops hl _ _) (nodup_outermostNodes ast)).mpr ?_
  intro x
  rw [mem_outermostNodes, isOutermost_iff hl]
  constructor
  · intro hx
    obtain ⟨hr, -, hb⟩ := tops_spec hl hx
    refine ⟨hr, fun a ha => hb a ha ?_⟩
    exact chain_root hl (Nat.lt_trans (hl.above_lt ha) (lt_size_of_group (group_ne_other hr)))
  · rintro ⟨hr, hb⟩
    have hlt := lt_size_of_group (group_ne_other hr)
    have hfuel : x < rootId + (ast.size + 1) := by
      unfold rootId
      exact Nat.lt_of_lt_of_le hlt (by omega)
    refine mem_tops hl hr (chain_root hl hlt) hfuel fun a ha _ => ⟨hb a ha, fun hi => ?_⟩
    exact group_ne_other hr (hn.belowImport a x ha hi)

theorem not_above (hn : Nested source ast) (hx : x ∈ ast.importNodes ++ ast.outermostNodes)
    (hy : y ∈ ast.importNodes ++ ast.outermostNodes) : ¬ TransGen ast.Up y x := by
  intro hu
  rw [List.mem_append, mem_importNodes, mem_outermostNodes, isOutermost_iff hn.linked] at hx hy
  rcases hx with hx | hx
  · have ho := hn.belowImport x y hu hx
    rcases hy with hy | hy
    · simp [ho] at hy
    · exact group_ne_other hy.1 ho
  · rcases hy with hy | hy
    · exact group_ne_other hx.1 (hn.aboveImport x y hu hy)
    · exact hy.2 x hu hx.1

theorem group_of_mem (hn : Nested source ast) (hx : x ∈ ast.importNodes ++ ast.outermostNodes) :
    ast.group x ≠ .other := by
  rw [List.mem_append, mem_importNodes, mem_outermostNodes, isOutermost_iff hn.linked] at hx
  rcases hx with hx | hx
  · simp [hx]
  · exact group_ne_other hx.1

theorem pairwise_apart (hn : Nested source ast) :
    (ast.importNodes ++ ast.outermostNodes).Pairwise fun x y =>
      (ast.span x).Apart (ast.span y) := by
  have hnodup : (ast.importNodes ++ ast.outermostNodes).Nodup := by
    refine (nodup_importNodes ast).append (nodup_outermostNodes ast) ?_
    intro x hx hy
    rw [mem_importNodes] at hx
    rw [mem_outermostNodes, isOutermost_iff hn.linked] at hy
    exact group_ne_import hy.1 hx
  have hlt {x y : NodeId} (hx : x ∈ ast.importNodes ++ ast.outermostNodes)
      (hy : y ∈ ast.importNodes ++ ast.outermostNodes) (hxy : x < y) :
      (ast.span x).stop ≤ (ast.span y).start :=
    (hn.apart x y hxy (group_of_mem hn hx) (group_of_mem hn hy)).resolve_left
      (not_above hn hx hy)
  refine hnodup.pairwise_of_forall_ne fun x hx y hy hne => ?_
  rcases Nat.lt_or_gt_of_ne hne with h | h
  · exact .inl (hlt hx hy h)
  · exact .inr (hlt hy hx h)

theorem group_eq_componentUse :
    ast.isKind id ScriptInput.isComponentUse ↔ ast.group id = .componentUse := by
  unfold isKind group
  cases ast.kind? id with
  | none => simp
  | some k => cases k <;> simp [ScriptInput.isComponentUse, NodeKind.group]

theorem group_eq_import :
    ast.isKind id ScriptInput.isImport ↔ ast.group id = .importStatement := by
  unfold isKind group
  cases ast.kind? id with
  | none => simp
  | some k => cases k <;> simp [ScriptInput.isImport, NodeKind.group]

end Ast

namespace ScriptInput

variable {s : ScriptInput} {id : NodeId}

theorem holdsComponent_eq (hl : s.ast.Linked) (hg : s.ast.group id = .variables) :
    s.holdsComponent id = s.ast.holdsUse id := by
  rw [Bool.eq_iff_iff]
  simp only [holdsComponent, Ast.holdsUse, List.any_eq_true, Ast.group_eq_componentUse,
    Bool.and_eq_true, List.contains_iff_mem, Ast.mem_ancestors hl, beq_iff_eq, List.mem_range]
  constructor
  · rintro ⟨d, hd, hu⟩
    have hlt : d < s.ast.size := Ast.lt_size_of_group (by simp [hu])
    rw [Ast.mem_descendants hl hlt, reflTransGen_iff_eq_or_transGen] at hd
    rcases hd with rfl | hd
    · simp [hg] at hu
    · exact ⟨d, hlt, hd, hu⟩
  · rintro ⟨d, hlt, hd, hu⟩
    exact ⟨d, (Ast.mem_descendants hl hlt).mpr hd.to_reflTransGen, hu⟩

theorem isSome_replacement? (hl : s.ast.Linked) (convert : Conversion) (depth : Nat) :
    (s.replacement? convert id depth).isSome = s.ast.isReplaced id := by
  unfold replacement? Ast.isReplaced
  cases hk : s.ast.kind? id with
  | none => simp [Ast.group, hk]
  | some k =>
    have hg : s.ast.group id = k.group := by simp [Ast.group, hk]
    rw [hg]
    cases k with
    | variableList keyword =>
      dsimp only [NodeKind.group]
      rw [holdsComponent_eq hl hg]
      cases s.ast.holdsUse id <;> rfl
    | _ => rfl

/-- The conversion of a node edits the spans of the replaced nodes that it comes to first. -/
theorem convertWithin_spans (hl : s.ast.Linked) (levels : Nat) (id : NodeId) (depth : Nat) :
    (s.convertWithin levels id depth).map Edit.span = (s.ast.tops levels id).map s.ast.span := by
  induction levels generalizing id with
  | zero => rfl
  | succ levels ih =>
    have hr : _ = s.ast.isReplaced id := isSome_replacement? hl (s.convertWithin levels) depth
    unfold convertWithin convertNode Ast.tops
    cases h : s.replacement? (s.convertWithin levels) id depth with
    | some text =>
      rw [h] at hr
      simp [← hr]
    | none =>
      rw [h] at hr
      simp only [← hr, Option.isSome_none, Bool.false_eq_true, ↓reduceIte, Ast.group_eq_import]
      split
      · rfl
      · rw [List.map_flatMap, List.map_flatMap]
        exact List.flatMap_congr fun c _ => ih c

theorem importEdit?_spans {ids : List NodeId} (n : Nat)
    (h : ∀ id ∈ ids, s.ast.group id = .importStatement) :
    ((ids.zipIdx n).filterMap fun (id, index) => s.importEdit? index id).map Edit.span =
      ids.map s.ast.span := by
  induction ids generalizing n with
  | nil => rfl
  | cons id rest ih =>
    have hrest := ih (n + 1) fun x hx => h x (List.mem_cons_of_mem id hx)
    obtain ⟨d, hd⟩ := Ast.kind?_of_import (h id List.mem_cons_self)
    have he : s.importEdit? n id = some ⟨s.ast.span id, s.importText n d⟩ := by
      simp [importEdit?, hd]
    simp only [List.zipIdx_cons, List.filterMap_cons, he, List.map_cons, hrest]

theorem importEdits_spans (hl : s.ast.Linked) :
    s.importEdits.map Edit.span = s.ast.importNodes.map s.ast.span := by
  have himports : s.ast.imports = s.ast.importNodes := hl.imports
  unfold importEdits
  rw [himports]
  exact importEdit?_spans 0 fun id hid => Ast.mem_importNodes.mp hid

theorem edits_spans {source : String} (hn : s.ast.Nested source) :
    (s.edits.map Edit.span).Perm (s.header?.toList.map (fun _ => Span.empty) ++
      (s.ast.importNodes ++ s.ast.outermostNodes).map s.ast.span) := by
  have hsort : s.edits.Perm _ := List.mergeSort_perm _ _
  refine (hsort.map Edit.span).trans ?_
  rw [List.map_append, List.map_append, importEdits_spans hn.linked, List.append_assoc,
    List.map_append, List.map_map]
  refine .append_left _ (.append_left _ ?_)
  unfold convert
  rw [convertWithin_spans hn.linked]
  exact (Ast.tops_perm_outermost hn).map _

theorem edits_cuts {source : String} (hn : s.ast.Nested source) {e : Edit} (he : e ∈ s.edits) :
    e.span.Cuts source := by
  have hspan : e.span ∈ s.edits.map Edit.span := List.mem_map_of_mem he
  rw [(edits_spans hn).mem_iff, List.mem_append] at hspan
  rcases hspan with hspan | hspan
  · obtain ⟨_, -, hs⟩ := List.mem_map.mp hspan
    rw [← hs]
    exact Span.cuts_empty source
  · obtain ⟨id, hid, hs⟩ := List.mem_map.mp hspan
    rw [← hs]
    exact hn.span id (Ast.group_of_mem hn hid)

theorem edits_ordered {source : String} (hn : s.ast.Nested source) : Edit.Ordered s.edits := by
  have hspans : (s.edits.map Edit.span).Pairwise Span.Apart := by
    refine ((edits_spans hn).pairwise_iff Or.symm).mpr (List.pairwise_append.mpr ⟨?_, ?_, ?_⟩)
    · cases s.header? <;> simp
    · exact List.pairwise_map.mpr (Ast.pairwise_apart hn)
    · intro a ha b _
      obtain ⟨_, -, rfl⟩ := List.mem_map.mp ha
      exact .inl (Nat.zero_le _)
  exact Edit.ordered_of_apart (Edit.pairwise_sort _) (List.pairwise_map.mp hspans)
    fun e he => (edits_cuts hn he).ordered

end ScriptInput

namespace SourceUnit

def ofAst (name source : String) (ast : Ast) (config : Config) : SourceUnit where
  name := name
  source := source
  ast := ast
  config := config
  importTypes := ast.importTypes source config.scope
  importPaths := ast.imports.map fun _ => none

theorem build_eq_ofAst {root : Cst.Tree} {name : String} {ast : Ast}
    (h : Ast.build root name = .ok ast) (source : String) (config : Config) :
    build name source root config = .ok (ofAst name source ast config) := by
  rw [build, h]
  rfl

def withImports (u : SourceUnit) (paths : List (Option String)) (table : ImportTypes) :
    SourceUnit :=
  { u with importPaths := paths, importTypes := table }

/-- Over a well-nested concrete tree the edits of a unit stand one behind the other, on the head,
the import statements and the outermost replaced nodes, and the script is the source with their
spans replaced by their texts. -/
theorem script_replaces_nodes {cst : Cst.Table} {source : String} (ha : cst.Acyclic)
    (hn : cst.WellNested source) (he : cst.ErrorFree) (hi : cst.ImportsOutside) (name : String)
    (config : Config) : ∃ root u, cst.tree? = some root ∧
      build name source root config = .ok u ∧ ∀ paths table,
      (u.withImports paths table).edits.Pairwise (fun a b => a.le b) ∧
      Edit.Ordered (u.withImports paths table).edits ∧
      ((u.withImports paths table).edits.map Edit.span).Perm
        ((if table.isEmpty then [] else [Span.empty]) ++
          (u.ast.importNodes ++ u.ast.outermostNodes).map u.ast.span) ∧
      ∃ script, (u.withImports paths table).script = .ok script ∧
        Edit.Patched 0 source.toList (u.withImports paths table).edits script.toList := by
  obtain ⟨root, ht⟩ := ha.exists_tree
  obtain ⟨ast, hb, hnested⟩ := Ast.build_nested (Cst.Table.tree?_tidy ht hn he hi) name
  refine ⟨root, ofAst name source ast config, ht, build_eq_ofAst hb source config,
    fun paths table => ?_⟩
  let s := ((ofAst name source ast config).withImports paths table).scriptInput
  have hsorted : s.edits.Pairwise (fun a b => a.le b) := Edit.pairwise_sort _
  have hord : Edit.Ordered s.edits := ScriptInput.edits_ordered hnested
  refine ⟨hsorted, hord, ?_,
    Edit.apply_patched hsorted hord fun e => ScriptInput.edits_cuts hnested⟩
  have hheader : s.header?.toList.map (fun _ => Span.empty) =
      if table.isEmpty then [] else [Span.empty] := by
    have ht : s.importTypes = some table := rfl
    unfold ScriptInput.header?
    rw [ht]
    cases h : table.isEmpty <;> simp [Option.filter, h]
  rw [← hheader]
  exact ScriptInput.edits_spans (s := s) hnested

section

open Cst

def importingSource : String := "import m\nA B"

def importing : Table where
  entries := #[
    { head := { kind := "identifier", span := ⟨9, 10⟩ } },
    { head := { kind := "identifier", span := ⟨11, 12⟩ } },
    { head := { kind := "component_heritage", span := ⟨11, 12⟩ }, children := [1] },
    { head := { kind := "component_declaration", span := ⟨9, 12⟩ }, children := [0, 2] },
    { head := { kind := "import_statement", span := ⟨0, 8⟩ } },
    { head := { kind := "program", span := ⟨0, 12⟩ }, children := [4, 3] }]
  root := 5

theorem importing_wellNested : importing.WellNested importingSource := by
  have hb : ∀ n < 13, Text.IsBoundary importingSource n := by
    intro n hn
    refine ⟨importingSource.toList.take n, importingSource.toList.drop n,
      (List.take_append_drop n _).symm, ?_⟩
    revert n
    decide +kernel
  have hs : ∀ e ∈ importing.entries,
      e.head.span.start ≤ e.head.span.stop ∧ e.head.span.stop ≤ 12 := by
    decide
  have hsize : Text.byteSize importingSource = 12 := by decide +kernel
  refine ⟨fun i e h => ?_, fun i e h => ?_, fun i e h => ?_⟩
  · obtain ⟨h1, h2⟩ := hs e (Array.mem_of_getElem? h.entry)
    exact ⟨h1, hsize ▸ h2, hb _ (by omega), hb _ (by omega)⟩
  · have hin : ∀ e ∈ importing.entries, ∀ c ∈ importing.childrenOf e,
        e.head.span.contains c.head.span := by decide
    exact hin e (Array.mem_of_getElem? h.entry)
  · have hch : ∀ e ∈ importing.entries, (importing.childrenOf e).IsChain
        fun a b => a.head.span.stop ≤ b.head.span.start := by decide
    exact hch e (Array.mem_of_getElem? h.entry)

theorem importing_acyclic : importing.Acyclic :=
  Table.acyclic_of_children_lt (by decide)

theorem importing_errorFree : importing.ErrorFree :=
  Table.errorFree_of_entries (by decide)

theorem importing_importsOutside : importing.ImportsOutside := by
  have hchild : ∀ p ∈ importing.entries.zipIdx, ∀ j ∈ p.1.children, j < p.2 := by decide
  have hclosed : ∀ p ∈ importing.entries.zipIdx, (Kind.ofName p.1.head.kind).isClosed →
      p.2 = 3 := by decide
  have himport : ∀ p ∈ importing.entries.zipIdx, Kind.ofName p.1.head.kind = .importStatement →
      p.2 = 4 := by decide
  have hlists : ∀ i j, importing.Lists i j → j < i := by
    rintro i j ⟨e, he, hj⟩
    exact hchild (e, i) (Array.mem_zipIdx_iff_getElem?.mpr he) j hj
  have hbelow : ∀ i j, TransGen importing.Lists i j → j < i := by
    intro i j h
    induction h with
    | single h => exact hlists _ _ h
    | tail _ h ih => exact Nat.lt_trans (hlists _ _ h) ih
  intro i e hr hk j c hij hc hi
  have h3 := hclosed (e, i) (Array.mem_zipIdx_iff_getElem?.mpr hr.entry) hk
  have h4 := himport (c, j) (Array.mem_zipIdx_iff_getElem?.mpr hc) hi
  have hlt := hbelow i j hij
  simp only at h3 h4
  omega

theorem importing_script : ∃ root u, importing.tree? = some root ∧
    build "App" importingSource root {} = .ok u ∧
    ∀ paths table,
      ((u.withImports paths table).edits.map Edit.span).Perm
        ((if table.isEmpty then [] else [Span.empty]) ++ [⟨0, 8⟩, ⟨9, 12⟩]) ∧
      ∃ script, (u.withImports paths table).script = .ok script := by
  have hspans : importing.tree?.bind (fun root =>
      (build "App" importingSource root {}).toOption.map fun u =>
        (u.ast.importNodes ++ u.ast.outermostNodes).map u.ast.span) = some [⟨0, 8⟩, ⟨9, 12⟩] := by
    decide +kernel
  obtain ⟨root, u, ht, hu, h⟩ := script_replaces_nodes importing_acyclic importing_wellNested
    importing_errorFree importing_importsOutside "App" {}
  rw [ht, Option.bind_some, hu] at hspans
  have hnodes : (u.ast.importNodes ++ u.ast.outermostNodes).map u.ast.span =
      [⟨0, 8⟩, ⟨9, 12⟩] := Option.some.inj hspans
  refine ⟨root, u, ht, hu, fun paths table => ?_⟩
  obtain ⟨-, -, hperm, script, hs, -⟩ := h paths table
  rw [hnodes] at hperm
  exact ⟨hperm, script, hs⟩

end

end SourceUnit

end ComponentCompiler
