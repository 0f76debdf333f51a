import ComponentCompiler.Proofs.Ast.Extents
import ComponentCompiler.Proofs.Script.Edits
import ComponentCompiler.Proofs.Script.Levels

namespace ComponentCompiler

open Relation

namespace Ast

variable {ast : Ast} {source : String} {c d n x y : NodeId} {levels : Nat}

/-- The replaced nodes below `n` with no other replaced node between. -/
def outermostBelow (ast : Ast) (n : NodeId) : List NodeId :=
  (List.range ast.size).filter fun x =>
    ast.isReplaced x && (ast.ancestors x).contains n &&
      (ast.ancestors x).all fun a => !((ast.ancestors a).contains n && ast.isReplaced a)

theorem opened_of_isReplaced (h : ast.isReplaced x) : ast.Opened x := by
  have hg := group_ne_other h
  unfold group at hg
  cases hk : ast.kind? x with
  | none => simp [hk] at hg
  | some k =>
    refine isKind_iff.mpr ⟨k, hk, ?_⟩
    rw [hk, Option.elim_some] at hg
    cases k <;> first | rfl | exact absurd rfl hg

theorem mem_outermostBelow (hl : ast.Linked) : x ∈ ast.outermostBelow n ↔
    ast.isReplaced x ∧ TransGen ast.Up x n ∧
      ∀ a, TransGen ast.Up x a → TransGen ast.Up a n → ¬ ast.isReplaced a := by
  simp only [outermostBelow, List.mem_filter, List.mem_range, Bool.and_eq_true,
    List.contains_iff_mem, mem_ancestors hl, List.all_eq_true, Bool.not_eq_true',
    Bool.and_eq_false_imp, Bool.not_eq_true, and_assoc]
  exact and_iff_right_of_imp fun h => (opened_of_isReplaced h.1).lt

theorem pairwise_outermostBelow (ast : Ast) (n : NodeId) :
    (ast.outermostBelow n).Pairwise (· < ·) :=
  List.pairwise_lt_range.filter _

namespace Laid

variable (h : ast.Laid source)

include h

theorem above (hx : ast.Opened x) (hu : TransGen ast.Up x y) :
    ast.Opened y ∧ ast.group y ≠ .importStatement := by
  induction hu with
  | single hu => exact h.housed x _ hx hu
  | tail _ hu ih => exact h.housed _ _ ih.1 hu

theorem opened_of_chain (hx : ast.Opened x) (hu : ReflTransGen ast.Up x y) : ast.Opened y := by
  rcases reflTransGen_iff_eq_or_transGen.mp hu with rfl | hu
  · exact hx
  · exact (h.above hx hu).1

/-- What is opened below a child comes before what is opened below a later one. -/
theorem lt_of_siblings (hc : ast.Up c n) (hd : ast.Up d n) (hcd : c < d)
    (hxc : ReflTransGen ast.Up x c) (hyd : ReflTransGen ast.Up y d) (hx : ast.Opened x)
    (hy : ast.Opened y) : x < y := by
  have hl := h.sound.linked
  refine Nat.lt_of_lt_of_le (Nat.lt_of_not_le fun hdx => ?_) (hl.chain_le hyd)
  rcases reflTransGen_iff_eq_or_transGen.mp hxc with rfl | habove
  · exact Nat.not_lt.mpr hdx hcd
  · have hdc : TransGen ast.Up d c :=
      h.dense c d x hcd hdx (h.opened_of_chain hx hxc) (h.opened_of_chain hy hyd) habove
    obtain ⟨p, hup, hpc⟩ := TransGen.head'_iff.mp hdc
    obtain rfl : p = n := Option.some.inj (hup.symm.trans hd)
    exact Nat.not_lt.mpr (hl.chain_le hpc) (hl.up_lt hc)

theorem pairwise_children {f : NodeId → List NodeId} (hp : ∀ c, (f c).Pairwise (· < ·))
    (hf : ∀ c, ∀ x ∈ f c, ReflTransGen ast.Up x c ∧ ast.Opened x) (n : NodeId) :
    ((ast.children n).flatMap f).Pairwise (· < ·) := by
  have hl := h.sound.linked
  have hsorted : (ast.children n).Pairwise (· < ·) := by
    rw [hl.children n]
    exact List.pairwise_lt_range.filter _
  refine List.pairwise_flatMap.mpr ⟨fun c _ => hp c, hsorted.imp_of_mem ?_⟩
  intro c d hc hd hcd x hx y hy
  exact h.lt_of_siblings ((mem_children hl).mp hc) ((mem_children hl).mp hd) hcd (hf c x hx).1
    (hf d y hy).1 (hf c x hx).2 (hf d y hy).2

theorem pairwise_tops (levels : Nat) (id : NodeId) : (ast.tops levels id).Pairwise (· < ·) := by
  induction levels generalizing id with
  | zero => exact .nil
  | succ levels ih =>
    unfold tops
    split
    · exact List.pairwise_singleton _ id
    · split
      · exact .nil
      · refine h.pairwise_children ih (fun c x hx => ?_) id
        obtain ⟨hr, hchain, -⟩ := tops_spec h.sound.linked hx
        exact ⟨hchain, opened_of_isReplaced hr⟩

theorem flatMap_tops (n : NodeId) (hlevels : ast.size ≤ n + levels) :
    (ast.children n).flatMap (ast.tops levels) = ast.outermostBelow n := by
  have hl := h.sound.linked
  have hsorted : ((ast.children n).flatMap (ast.tops levels)).Pairwise (· < ·) := by
    refine h.pairwise_children (h.pairwise_tops levels) (fun c x hx => ?_) n
    obtain ⟨hr, hchain, -⟩ := tops_spec hl hx
    exact ⟨hchain, opened_of_isReplaced hr⟩
  have hmem : ∀ x, x ∈ (ast.children n).flatMap (ast.tops levels) ↔ x ∈ ast.outermostBelow n := by
    intro x
    rw [List.mem_flatMap, mem_outermostBelow hl]
    constructor
    · rintro ⟨c, hc, hx⟩
      have hup := (mem_children hl).mp hc
      obtain ⟨hr, hchain, hbetween⟩ := tops_spec hl hx
      refine ⟨hr, TransGen.tail' hchain hup, fun a hxa han => ?_⟩
      obtain ⟨d, had, hdn⟩ := TransGen.tail'_iff.mp han
      obtain rfl := child_unique hl hdn hup (hxa.to_reflTransGen.trans had) hchain
      exact hbetween a hxa had
    · rintro ⟨hr, hxn, hbetween⟩
      obtain ⟨c, hchain, hup⟩ := TransGen.tail'_iff.mp hxn
      have hopen := opened_of_isReplaced hr
      have hlt : x < c + levels := by
        have hcn : Nat.succ n ≤ c := hl.up_lt hup
        have hx : Nat.succ x ≤ ast.size := hopen.lt
        change Nat.succ x ≤ c + levels
        omega
      refine ⟨c, (mem_children hl).mpr hup, mem_tops hl hr hchain hlt fun a hxa hac => ?_⟩
      exact ⟨hbetween a hxa (TransGen.tail' hac hup), (h.above hopen hxa).2⟩
  have hirrefl {ids : List NodeId} (hids : ids.Pairwise (· < ·)) : ids.Nodup :=
    hids.imp Nat.ne_of_lt
  have hperm := (List.perm_ext_iff_of_nodup (hirrefl hsorted)
    (hirrefl (ast.pairwise_outermostBelow n))).mpr hmem
  exact hperm.eq_of_pairwise (fun _ _ _ _ hlt hgt => absurd hgt (Nat.lt_asymm hlt)) hsorted
    (ast.pairwise_outermostBelow n)

theorem stop_le_start (hx : x ∈ ast.outermostBelow n) (hy : y ∈ ast.outermostBelow n)
    (hxy : x < y) : (ast.span x).stop ≤ (ast.span y).start := by
  obtain ⟨hrx, hxn, -⟩ := (mem_outermostBelow h.sound.linked).mp hx
  obtain ⟨hry, -, hbetween⟩ := (mem_outermostBelow h.sound.linked).mp hy
  rcases h.apart x y hxy (opened_of_isReplaced hrx) (opened_of_isReplaced hry) with
    ⟨hyx, -⟩ | ⟨-, hle⟩
  · exact absurd hrx (hbetween x hyx hxn)
  · exact hle

theorem outermostBelow_of_leaf (hn : ¬ ast.Opened n) : ast.outermostBelow n = [] := by
  apply List.eq_nil_iff_forall_not_mem.mpr
  intro x hx
  obtain ⟨hr, hxn, -⟩ := (mem_outermostBelow h.sound.linked).mp hx
  exact hn (h.above (opened_of_isReplaced hr) hxn).1

theorem contains_outermost (hx : x ∈ ast.outermostBelow n) :
    (ast.span n).contains (ast.span x) := by
  obtain ⟨hr, hxn, -⟩ := (mem_outermostBelow h.sound.linked).mp hx
  have hopen := opened_of_isReplaced hr
  have hlt := h.sound.linked.above_lt hxn
  rcases h.apart n x hlt (h.above hopen hxn).1 hopen with ⟨-, hin⟩ | ⟨hnot, -⟩
  · exact hin
  · exact absurd hxn hnot

end Laid

end Ast

namespace ScriptInput

variable {s : ScriptInput} {n x : NodeId} {depth : Nat}

def conversion (s : ScriptInput) (depth : Nat) (x : NodeId) : Edit :=
  ⟨s.ast.span x, (s.replacement? s.convert x depth).getD ""⟩

theorem convert_of_isReplaced (hs : s.ast.Sound) (hr : s.ast.isReplaced x) (depth : Nat) :
    ∃ text, s.replacement? s.convert x depth = some text ∧
      s.convert x depth = [⟨s.ast.span x, text⟩] := by
  rw [← isSome_replacement? hs.linked s.convert depth] at hr
  obtain ⟨text, ht⟩ := Option.isSome_iff_exists.mp hr
  refine ⟨text, ht, ?_⟩
  rw [convert_eq hs, convertNode, ht]

theorem flatMap_conversion (hs : s.ast.Sound) {ids : List NodeId}
    (hids : ∀ x ∈ ids, s.ast.isReplaced x) (depth : Nat) :
    (ids.flatMap fun x => s.convert x depth) = ids.map (s.conversion depth) := by
  rw [List.map_eq_flatMap]
  refine List.flatMap_congr fun x hx => ?_
  obtain ⟨text, ht, hc⟩ := convert_of_isReplaced hs (hids x hx) depth
  rw [hc]
  simp [conversion, ht]

theorem convertWithin_eq_map (hs : s.ast.Sound) {levels : Nat} {id : NodeId}
    (hlevels : s.ast.size ≤ id + levels) :
    s.convertWithin levels id depth = (s.ast.tops levels id).map (s.conversion depth) := by
  induction levels generalizing id with
  | zero => rfl
  | succ levels ih =>
    have hbehind : Conversion.AgreeBehind id (s.convertWithin levels) s.convert := by
      intro x hx
      have hlt : Nat.succ id ≤ x := hx
      exact convertWithin_eq hs (by omega) (by omega)
    have hr : (s.replacement? s.convert id depth).isSome = _ :=
      isSome_replacement? hs.linked s.convert depth
    unfold convertWithin convertNode Ast.tops
    rw [replacement?_congr hs hbehind, ← hr]
    cases ht : s.replacement? s.convert id depth with
    | some text => simp [conversion, ht]
    | none =>
      simp only [Option.isSome_none, Bool.false_eq_true, ↓reduceIte, Ast.group_eq_import]
      split
      · rfl
      · rw [List.map_flatMap]
        refine List.flatMap_congr fun c hc => ih ?_
        have hlt : Nat.succ id ≤ c := hs.lt_child hc
        omega

section

variable (h : s.ast.Laid s.source)

include h

/-- What is collected for a node are the edits of the outermost replaced nodes below it. -/
theorem flatMap_convert (n : NodeId) (depth : Nat) :
    ((s.ast.children n).flatMap fun c => s.convert c depth) =
      (s.ast.outermostBelow n).map (s.conversion depth) := by
  have hsize : s.ast.size ≤ n + (s.ast.size + 1) := by omega
  rw [← h.flatMap_tops n hsize, List.map_flatMap]
  exact List.flatMap_congr fun c _ => convertWithin_eq_map h.sound (by omega)

/-- A part of the source is rendered with all outermost replaced nodes of the part converted, and
with no other change. -/
theorem renderRange_patched {range : Span} (hr : range.Cuts s.source) (n : NodeId) (depth : Nat) :
    Edit.Patched range.start (range.slice s.source).toList
      (((s.ast.outermostBelow n).map (s.conversion depth)).filter fun e => range.contains e.span)
      (s.renderRange s.convert range (s.ast.children n) depth).toList := by
  have hcuts : ∀ x ∈ s.ast.outermostBelow n, (s.ast.span x).Cuts s.source := fun x hx =>
    h.cuts x (Ast.opened_of_isReplaced ((Ast.mem_outermostBelow h.sound.linked).mp hx).1)
  rw [renderRange, flatMap_convert h]
  refine Edit.splice_patched hr ?_ ?_ ?_
  · refine List.pairwise_map.mpr ((s.ast.pairwise_outermostBelow n).imp_of_mem ?_)
    intro x y hx hy hxy
    have hle := h.stop_le_start hx hy hxy
    have hfx := (hcuts x hx).ordered
    have hfy := (hcuts y hy).ordered
    rw [Edit.le_iff]
    dsimp only [conversion]
    omega
  · refine List.pairwise_map.mpr ((s.ast.pairwise_outermostBelow n).imp_of_mem ?_)
    intro x y hx hy hxy
    exact h.stop_le_start hx hy hxy
  · intro e he
    obtain ⟨x, hx, rfl⟩ := List.mem_map.mp he
    exact hcuts x hx

theorem renderChildren_patched (n : NodeId) :
    Edit.Patched (s.ast.span n).start (s.text n).toList
      ((s.ast.outermostBelow n).map (s.conversion 0)) (s.renderChildren s.convert n).toList := by
  by_cases hopen : s.ast.Opened n
  · have hp := renderRange_patched h (h.cuts n hopen) n 0
    rw [List.filter_eq_self.mpr] at hp
    · exact hp
    · intro e he
      obtain ⟨x, hx, rfl⟩ := List.mem_map.mp he
      exact h.contains_outermost hx
  · -- below a leaf there is nothing to convert
    have hnone : Edit.splice s.source (s.ast.span n) [] = s.text n := by
      simp [Edit.splice, Edit.sort, Edit.spliceFrom, text, Ast.slice]
    rw [renderChildren, renderRange, flatMap_convert h, h.outermostBelow_of_leaf hopen,
      List.map_nil, hnone]
    exact .keep

end

/-- For each node of the tree of a well-nested concrete tree, what is collected below it are the
conversions of its outermost replaced nodes, and its source is rendered with all of them in their
places and every other byte kept. Conversions are made from the conversions of the nodes below. -/
theorem renderChildren_replaces {cst : Cst.Table} {source : String} (ha : cst.Acyclic)
    (hn : cst.WellNested source) (he : cst.ErrorFree) (name : String) :
    ∃ root ast, cst.tree? = some root ∧ Ast.build root name = .ok ast ∧
      ∀ s : ScriptInput, s.ast = ast → s.source = source →
        (∀ id depth, s.convert id depth = s.convertNode s.convert id depth) ∧
        ∀ n, (∀ x ∈ ast.outermostBelow n, ∃ text,
            s.replacement? s.convert x 0 = some text ∧ s.convert x 0 = [⟨ast.span x, text⟩]) ∧
          ((ast.children n).flatMap fun c => s.convert c 0) =
            ((ast.outermostBelow n).flatMap fun x => s.convert x 0) ∧
          Edit.Patched (ast.span n).start (s.text n).toList
            ((ast.outermostBelow n).flatMap fun x => s.convert x 0)
            (s.renderChildren s.convert n).toList := by
  obtain ⟨root, ast, ht, hb⟩ := Ast.build_ok ha he name
  refine ⟨root, ast, ht, hb, ?_⟩
  rintro s rfl rfl
  have h : s.ast.Laid s.source := Ast.build_laid ht hn hb
  refine ⟨convert_eq h.sound, fun n => ?_⟩
  have hreplaced : ∀ x ∈ s.ast.outermostBelow n, s.ast.isReplaced x := fun x hx =>
    ((Ast.mem_outermostBelow h.sound.linked).mp hx).1
  rw [flatMap_conversion h.sound hreplaced, flatMap_convert h]
  exact ⟨fun x hx => convert_of_isReplaced h.sound (hreplaced x hx) 0, rfl,
    renderChildren_patched h n⟩

theorem nestedIds_rendered : ∃ (root : Cst.Tree) (s : ScriptInput),
    Ast.nestedIds.tree? = some root ∧ Ast.build root "App" = .ok s.ast ∧
    s.ast.outermostBelow 3 = [4] ∧ s.ast.outermostBelow 4 = [8] ∧
    Edit.Patched (s.ast.span 4).start (s.text 4).toList (s.convert 8 0)
      (s.renderChildren s.convert 4).toList := by
  obtain ⟨root, ast, ht, hb, h⟩ := renderChildren_replaces Ast.nestedIds_acyclic
    Ast.nestedIds_wellNested Ast.nestedIds_errorFree "App"
  obtain ⟨hbody, hinner⟩ : ast.outermostBelow 3 = [4] ∧ ast.outermostBelow 4 = [8] := by
    apply Ast.of_build_of_decide ht hb
    decide +kernel
  let s : ScriptInput := { ast, source := Ast.nestedIdsSource, unitName := "App" }
  obtain ⟨-, hr⟩ := h s rfl rfl
  obtain ⟨-, -, hp⟩ := hr 4
  rw [hinner, List.flatMap_singleton] at hp
  exact ⟨root, s, ht, hb, hbody, hinner, hp⟩

end ScriptInput

end ComponentCompiler
