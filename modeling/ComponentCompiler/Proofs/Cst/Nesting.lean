import ComponentCompiler.Proofs.Cst.Unfolding
import Mathlib.Data.List.Chain

namespace ComponentCompiler

def Text.IsBoundary (source : String) (n : Nat) : Prop :=
  ∃ before behind, source.toList = before ++ behind ∧ byteLength before = n

/-- The span is a range of whole characters of the source. -/
structure Span.Cuts (source : String) (s : Span) : Prop where
  ordered : s.start ≤ s.stop
  inside : s.stop ≤ Text.byteSize source
  start : Text.IsBoundary source s.start
  stop : Text.IsBoundary source s.stop

namespace Text

variable {source : String} {cs : List Char} {n : Nat}

theorem byteLength_of_ascii (h : cs.all fun c => c.utf8Size == 1) : byteLength cs = cs.length := by
  induction cs with
  | nil => rfl
  | cons c cs ih =>
    rw [List.all_cons, Bool.and_eq_true, beq_iff_eq] at h
    rw [byteLength, h.1, ih h.2, List.length_cons]
    omega

theorem isBoundary_of_ascii (h : source.toList.all fun c => c.utf8Size == 1)
    (hn : n ≤ source.toList.length) : IsBoundary source n := by
  have hparts := List.take_append_drop n source.toList
  rw [← hparts, List.all_append, Bool.and_eq_true] at h
  refine ⟨_, _, hparts.symm, ?_⟩
  rw [byteLength_of_ascii h.1, List.length_take]
  omega

end Text

theorem Span.cuts_empty (source : String) : Span.empty.Cuts source :=
  ⟨Nat.le_refl 0, Nat.zero_le _, ⟨[], _, rfl, rfl⟩, ⟨[], _, rfl, rfl⟩⟩

namespace Cst

open Relation

def Kind.isClosed : Kind → Bool
  | .componentDeclaration | .newComponent | .newTagged | .variableDeclaration => true
  | _ => false

/-- A well-nested tree without error nodes, with no import statement below a closed node. The flag
says whether the tree itself stands below one. -/
inductive Tree.Tidy (source : String) : Bool → Tree → Prop
  | missing {closed : Bool} : Tidy source closed .missing
  | node {closed : Bool} {head : Head} {slots : List Tree} (span : head.span.Cuts source)
      (error : Kind.ofName head.kind ≠ .error)
      (imports : closed → Kind.ofName head.kind ≠ .importStatement)
      (inside : ∀ t ∈ slots, t.isPresent → head.span.contains t.span)
      (ordered : slots.Pairwise fun a b =>
        a.isPresent → b.isPresent → a.span.stop ≤ b.span.start)
      (below : ∀ t ∈ slots, Tidy source (closed || (Kind.ofName head.kind).isClosed) t) :
      Tidy source closed (.node head slots)

structure Tree.Row (source : String) (closed : Bool) (range : Span) (slots : List Tree) : Prop where
  forward : range.start ≤ range.stop
  inside : ∀ t ∈ slots, t.isPresent → range.contains t.span
  ordered : slots.Pairwise fun a b => a.isPresent → b.isPresent → a.span.stop ≤ b.span.start
  tidy : ∀ t ∈ slots, t.Tidy source closed

theorem Tree.Tidy.row {source : String} {closed : Bool} {head : Head} {slots : List Tree}
    (h : (Tree.node head slots).Tidy source closed) :
    Row source (closed || (Kind.ofName head.kind).isClosed) head.span slots := by
  cases h with
  | node span error imports inside ordered below => exact ⟨span.ordered, inside, ordered, below⟩

theorem Tree.Row.tail {source : String} {closed : Bool} {range : Span} {t : Tree}
    {slots : List Tree} (h : Row source closed range (t :: slots)) :
    Row source closed range slots :=
  ⟨h.forward, fun s hs => h.inside s (List.mem_cons_of_mem t hs),
    (List.pairwise_cons.mp h.ordered).2, fun s hs => h.tidy s (List.mem_cons_of_mem t hs)⟩

theorem Tree.contains_behind {range : Span} {t : Tree} {slots : List Tree} (ht : t.isPresent)
    (inside : ∀ s ∈ t :: slots, s.isPresent → range.contains s.span)
    (ordered : (t :: slots).Pairwise fun a b =>
      a.isPresent → b.isPresent → a.span.stop ≤ b.span.start) :
    range.contains t.span ∧
      ∀ s ∈ slots, s.isPresent → Span.contains ⟨t.span.stop, range.stop⟩ s.span := by
  refine ⟨inside t List.mem_cons_self ht, fun s hs hp => ?_⟩
  have hbehind := (List.pairwise_cons.mp ordered).1 s hs ht hp
  have hrange := inside s (List.mem_cons_of_mem t hs) hp
  simp only [Span.contains, Bool.and_eq_true, decide_eq_true_eq] at hrange ⊢
  exact ⟨hbehind, hrange.2⟩

theorem Tree.Row.behind {source : String} {closed : Bool} {range : Span} {t : Tree}
    {slots : List Tree} (h : Row source closed range (t :: slots)) (ht : t.isPresent) :
    range.start ≤ t.span.start ∧ Row source closed ⟨t.span.stop, range.stop⟩ slots := by
  obtain ⟨hin, hbehind⟩ := contains_behind ht h.inside h.ordered
  simp only [Span.contains, Bool.and_eq_true, decide_eq_true_eq] at hin
  exact ⟨hin.1, hin.2, hbehind, h.tail.ordered, h.tail.tidy⟩

inductive Tree.All (P : Kind → Prop) : Tree → Prop
  | missing : All P .missing
  | node {head : Head} {slots : List Tree} (here : P (Kind.ofName head.kind))
      (below : ∀ t ∈ slots, All P t) : All P (.node head slots)

theorem Tree.all_of_forall {P : Kind → Prop} (h : ∀ k, P k) : (t : Tree) → t.All P
  | .missing => .missing
  | .node _ slots => .node (h _) fun t _ => all_of_forall h t

theorem Tree.All.slots {P : Kind → Prop} {t : Tree} (h : t.All P) : ∀ s ∈ t.slots, s.All P := by
  cases h with
  | missing => exact nofun
  | node here below => exact below

inductive Tree.Spaced : Tree → Prop
  | missing : Spaced .missing
  | node {head : Head} {slots : List Tree} (forward : head.span.start ≤ head.span.stop)
      (inside : ∀ t ∈ slots, t.isPresent → head.span.contains t.span)
      (ordered : slots.Pairwise fun a b =>
        a.isPresent → b.isPresent → a.span.stop ≤ b.span.start)
      (below : ∀ t ∈ slots, Spaced t) : Spaced (.node head slots)

structure Tree.Line (range : Span) (slots : List Tree) : Prop where
  forward : range.start ≤ range.stop
  inside : ∀ t ∈ slots, t.isPresent → range.contains t.span
  ordered : slots.Pairwise fun a b => a.isPresent → b.isPresent → a.span.stop ≤ b.span.start
  spaced : ∀ t ∈ slots, t.Spaced

theorem Tree.Spaced.line {t : Tree} (h : t.Spaced) : Line t.span t.slots := by
  cases h with
  | missing => exact ⟨Nat.le_refl 0, nofun, .nil, nofun⟩
  | node forward inside ordered below => exact ⟨forward, inside, ordered, below⟩

theorem Tree.Line.tail {range : Span} {t : Tree} {slots : List Tree}
    (h : Line range (t :: slots)) : Line range slots :=
  ⟨h.forward, fun s hs => h.inside s (List.mem_cons_of_mem t hs),
    (List.pairwise_cons.mp h.ordered).2, fun s hs => h.spaced s (List.mem_cons_of_mem t hs)⟩

theorem Tree.Line.behind {range : Span} {t : Tree} {slots : List Tree}
    (h : Line range (t :: slots)) (ht : t.isPresent) :
    range.contains t.span ∧ Line ⟨t.span.stop, range.stop⟩ slots := by
  obtain ⟨hin, hbehind⟩ := contains_behind ht h.inside h.ordered
  refine ⟨hin, ?_, hbehind, h.tail.ordered, h.tail.spaced⟩
  simp only [Span.contains, Bool.and_eq_true, decide_eq_true_eq] at hin
  exact hin.2

mutual

theorem Tree.Tidy.firstError? {source : String} {closed : Bool} :
    {t : Tree} → t.Tidy source closed → t.firstError? = none
  | .missing, _ => rfl
  | .node _ _, .node _ error _ _ _ below => by
    rw [Tree.firstError?, if_neg error]
    exact firstErrorIn?_of_tidy below

theorem firstErrorIn?_of_tidy {source : String} {closed : Bool} :
    {slots : List Tree} → (∀ t ∈ slots, t.Tidy source closed) → Tree.firstErrorIn? slots = none
  | [], _ => rfl
  | t :: rest, h => by
    have ht := (h t List.mem_cons_self).firstError?
    have hr := firstErrorIn?_of_tidy fun s hs => h s (List.mem_cons_of_mem t hs)
    rw [Tree.firstErrorIn?, ht, hr]

end

theorem Tree.firstErrorIn?_eq_none {slots : List Tree} (h : ∀ t ∈ slots, t.firstError? = none) :
    firstErrorIn? slots = none := by
  induction slots with
  | nil => rfl
  | cons t rest ih =>
    rw [firstErrorIn?, h t List.mem_cons_self]
    exact ih fun s hs => h s (List.mem_cons_of_mem t hs)

namespace Table

variable {t : Table} {root : Tree} {source : String}

def childrenOf (t : Table) (e : Entry) : List Entry :=
  e.children.filterMap fun j => t.entries[j]?

structure WellNested (t : Table) (source : String) : Prop where
  span : ∀ i e, t.Reached i e → e.head.span.Cuts source
  inside : ∀ i e, t.Reached i e → ∀ c ∈ t.childrenOf e, e.head.span.contains c.head.span
  ordered : ∀ i e, t.Reached i e →
    (t.childrenOf e).IsChain fun a b => a.head.span.stop ≤ b.head.span.start

def ErrorFree (t : Table) : Prop :=
  ∀ i e, t.Reached i e → Kind.ofName e.head.kind ≠ .error

def ImportsOutside (t : Table) : Prop :=
  ∀ i e, t.Reached i e → (Kind.ofName e.head.kind).isClosed → ∀ j c, TransGen t.Lists i j →
    t.entries[j]? = some c → Kind.ofName c.head.kind ≠ .importStatement

theorem errorFree_of_entries (h : ∀ e ∈ t.entries, Kind.ofName e.head.kind ≠ .error) :
    t.ErrorFree :=
  fun _ e hr => h e (Array.mem_of_getElem? hr.entry)

theorem wellNested_of_entries {source : String} (hs : source.toList.all fun c => c.utf8Size == 1)
    (h : ∀ e ∈ t.entries, (e.head.span.start ≤ e.head.span.stop ∧
        e.head.span.stop ≤ source.toList.length) ∧
      (∀ c ∈ t.childrenOf e, e.head.span.contains c.head.span) ∧
      (t.childrenOf e).IsChain fun a b => a.head.span.stop ≤ b.head.span.start) :
    t.WellNested source := by
  have hentry {i : Nat} {e : Entry} (hr : t.Reached i e) := h e (Array.mem_of_getElem? hr.entry)
  refine ⟨fun i e hr => ?_, fun i e hr => (hentry hr).2.1, fun i e hr => (hentry hr).2.2⟩
  obtain ⟨⟨hle, hstop⟩, -⟩ := hentry hr
  refine ⟨hle, ?_, Text.isBoundary_of_ascii hs (Nat.le_trans hle hstop),
    Text.isBoundary_of_ascii hs hstop⟩
  rw [Text.byteSize, Text.byteLength_of_ascii hs]
  exact hstop

theorem tree?_firstError? (ht : t.tree? = some root) (he : t.ErrorFree) :
    root.firstError? = none := by
  refine tree?_induct (P := fun s => s.firstError? = none) rfl rfl ?_ ht
  intro d i e slots hreach _ ih
  rw [Tree.firstError?, if_neg (he i e hreach)]
  exact Tree.firstErrorIn?_eq_none ih

/-- The tree shows only entries that the root leads to, or it is an empty program. -/
theorem tree?_all {P : Kind → Prop} (ht : t.tree? = some root)
    (h : ∀ i e, t.Reached i e → P (Kind.ofName e.head.kind)) (hother : P .other) : root.All P := by
  refine tree?_induct (P := fun s => s.All P) (.node hother nofun) .missing ?_ ht
  intro d i e slots hreach _ ih
  exact .node (h i e hreach) ih

theorem pairwise_of_isChain {entries : List Entry}
    (hs : ∀ e ∈ entries, e.head.span.start ≤ e.head.span.stop)
    (h : entries.IsChain fun a b => a.head.span.stop ≤ b.head.span.start) :
    entries.Pairwise fun a b => a.head.span.stop ≤ b.head.span.start := by
  induction entries with
  | nil => exact .nil
  | cons a rest ih =>
    cases rest with
    | nil => exact List.pairwise_singleton _ a
    | cons b rest =>
      obtain ⟨hab, hrest⟩ := List.isChain_cons_cons.mp h
      have hp := ih (fun e he => hs e (List.mem_cons_of_mem a he)) hrest
      have hb := hs b (by simp)
      refine List.pairwise_cons.mpr ⟨fun c hc => ?_, hp⟩
      rcases List.mem_cons.mp hc with rfl | hc
      · exact hab
      · have hbc := (List.pairwise_cons.mp hp).1 c hc
        omega

theorem entry_of_isPresent {depth j : Nat} {s : Tree} (hs : t.treeAt? depth j = some s)
    (h : s.isPresent) : ∃ c, t.entries[j]? = some c ∧ s.span = c.head.span := by
  cases hj : t.entries[j]? with
  | none =>
    rw [treeAt?_of_none hj] at hs
    cases hs
    cases h
  | some c =>
    obtain ⟨_, slots, -, rfl, -⟩ := treeAt?_eq_some hj hs
    exact ⟨c, rfl, rfl⟩

namespace WellNested

variable {depth i : Nat} {e : Entry} {slots : List Tree} (hn : t.WellNested source)
  (hr : t.Reached i e) (hslots : e.children.map (t.treeAt? depth) = slots.map some)

include hn hr hslots

theorem slots_inside : ∀ s ∈ slots, s.isPresent → e.head.span.contains s.span := by
  intro s hs hp
  obtain ⟨j, hj, hjs⟩ := exists_child_of_slot hslots hs
  obtain ⟨c, hcj, hspan⟩ := entry_of_isPresent hjs hp
  rw [hspan]
  exact hn.inside i e hr c (List.mem_filterMap.mpr ⟨j, hj, hcj⟩)

theorem slots_ordered : slots.Pairwise fun a b =>
    a.isPresent → b.isPresent → a.span.stop ≤ b.span.start := by
  have hvalid : ∀ c ∈ t.childrenOf e, c.head.span.start ≤ c.head.span.stop := by
    intro c hmem
    obtain ⟨j, hj, hcj⟩ := List.mem_filterMap.mp hmem
    exact (hn.span j c ⟨hr.path.tail ⟨e, hr.entry, hj⟩, hcj⟩).ordered
  have hp := pairwise_of_isChain hvalid (hn.ordered i e hr)
  have hmap : (e.children.map (t.treeAt? depth)).Pairwise fun x y => ∀ a ∈ x, ∀ b ∈ y,
      a.isPresent → b.isPresent → a.span.stop ≤ b.span.start := by
    refine List.pairwise_map.mpr ((List.pairwise_filterMap.mp hp).imp ?_)
    intro j k hjk a ha b hb hpa hpb
    obtain ⟨cj, hcj, hsj⟩ := entry_of_isPresent ha hpa
    obtain ⟨ck, hck, hsk⟩ := entry_of_isPresent hb hpb
    rw [hsj, hsk]
    exact hjk cj hcj ck hck
  rw [hslots, List.pairwise_map] at hmap
  exact hmap.imp fun h => h _ rfl _ rfl

end WellNested

theorem tree?_spaced (ht : t.tree? = some root) (hn : t.WellNested source) : root.Spaced := by
  refine tree?_induct (P := fun s => s.Spaced) (.node (Nat.le_refl 0) nofun .nil nofun) .missing
    ?_ ht
  intro d i e slots hreach hslots ih
  exact .node (hn.span i e hreach).ordered (hn.slots_inside hreach hslots)
    (hn.slots_ordered hreach hslots) ih

theorem tree?_tidy (ht : t.tree? = some root) (hn : t.WellNested source) (he : t.ErrorFree)
    (hi : t.ImportsOutside) : root.Tidy source false := by
  rcases tree?_cases ht with ⟨rfl, -⟩ | hroot
  · exact .node (Span.cuts_empty source) (by decide) nofun (by simp) .nil (by simp)
  -- a tree is below a closed node if an entry above its own is closed
  · refine treeAt?_induct (P := fun i s => ∀ closed : Bool, (closed → ∃ o e, t.Reached o e ∧
      (Kind.ofName e.head.kind).isClosed ∧ TransGen t.Lists o i) → s.Tidy source closed)
      (fun _ _ _ _ => .missing) ?_ .refl hroot false nofun
    intro d i e slots hreach hslots ih closed hc
    have hchild : ∀ j ∈ e.children, t.Lists i j := fun j hj => ⟨e, hreach.entry, hj⟩
    refine .node (hn.span i e hreach) (he i e hreach) ?_ (hn.slots_inside hreach hslots)
      (hn.slots_ordered hreach hslots) ?_
    · intro hclosed
      obtain ⟨o, eo, ho, hk, hp⟩ := hc hclosed
      exact hi o eo ho hk i e hp hreach.entry
    · intro s hs
      obtain ⟨j, hj, hjs⟩ := exists_child_of_slot hslots hs
      refine ih j hj s hjs _ fun hclosed => ?_
      rcases Bool.or_eq_true_iff.mp hclosed with hclosed | hk
      · obtain ⟨o, eo, ho, hk, hp⟩ := hc hclosed
        exact ⟨o, eo, ho, hk, hp.tail (hchild j hj)⟩
      · exact ⟨i, e, hreach, hk, .single (hchild j hj)⟩

end Table

end Cst

end ComponentCompiler
