import ComponentCompiler.Proofs.Graph.Acyclic

namespace ComponentCompiler

namespace Search

open Relation

variable {next : Nat → List Nat} {edges : List (Nat × Nat)} {pending rest : List Nat} {n : Nat}
  {f f' f'' : Finish}

abbrev Step (next : Nat → List Nat) (a b : Nat) : Prop :=
  b ∈ next a

def Finish.IsOpen (f : Finish) (n : Nat) : Prop :=
  n ∈ f.entered ∧ n ∉ f.left

structure Finish.Sound (next : Nat → List Nat) (f : Finish) : Prop where
  nodup : f.left.Nodup
  entered : f.left ⊆ f.entered
  closed : ∀ before n, before ++ [n] <+: f.left → next n ⊆ before

/-- What a search over the nodes of a list does: it leaves them and what they lead to, and no node
that was open before. -/
structure Finish.Extends (next : Nat → List Nat) (pending : List Nat) (f f' : Finish) : Prop where
  sound : f'.Sound next
  kept : f.left <+: f'.left
  isOpen : ∀ n, f'.IsOpen n ↔ f.IsOpen n
  covers : pending ⊆ f'.left
  stems : ∀ n ∈ f'.left, n ∈ f.left ∨ ∃ m ∈ pending, ReflTransGen (Step next) m n

theorem Finish.Sound.enter (h : f.Sound next) (n : Nat) :
    Finish.Sound next { f with entered := n :: f.entered } :=
  ⟨h.nodup, fun _ hm => List.mem_cons_of_mem n (h.entered hm), h.closed⟩

theorem Finish.Sound.leave (h : f.Sound next) (hn : f.IsOpen n) (hl : next n ⊆ f.left) :
    Finish.Sound next { f with left := f.left ++ [n] } := by
  refine ⟨?_, ?_, ?_⟩
  · have hd : ∀ a ∈ f.left, ∀ b ∈ [n], a ≠ b := by
      intro a ha b hb hab
      rw [hab, List.mem_singleton.mp hb] at ha
      exact hn.2 ha
    exact List.nodup_append.mpr ⟨h.nodup, by simp, hd⟩
  · apply List.append_subset.mpr
    exact ⟨h.entered, by simpa using hn.1⟩
  · intro before m hm
    cases List.prefix_concat_iff.mp hm with
    | inl he =>
      obtain ⟨hb, hmn⟩ := List.append_inj' he rfl
      cases hmn
      exact hb ▸ hl
    | inr hp => exact h.closed before m hp

theorem Finish.Extends.entered (h : Extends next pending f f') : f.entered ⊆ f'.entered := by
  intro n hn
  by_cases hl : n ∈ f.left
  · exact h.sound.entered (h.kept.subset hl)
  · exact ((h.isOpen n).mpr ⟨hn, hl⟩).1

theorem Finish.Extends.refl (h : f.Sound next) : Extends next [] f f :=
  ⟨h, List.prefix_refl _, fun _ => Iff.rfl, List.nil_subset _, fun _ hn => .inl hn⟩

theorem Finish.Extends.pass (h : Extends next rest f f') (hn : n ∈ f.left) :
    Extends next (n :: rest) f f' := by
  refine ⟨h.sound, h.kept, h.isOpen, List.cons_subset.mpr ⟨h.kept.subset hn, h.covers⟩, ?_⟩
  intro k hk
  apply (h.stems k hk).imp_right
  rintro ⟨m, hm, hr⟩
  exact ⟨m, List.mem_cons_of_mem n hm, hr⟩

theorem Finish.Extends.openSelf
    (h : Extends next (next n) { f with entered := n :: f.entered } f') (hn : n ∉ f.left) :
    f'.IsOpen n :=
  (h.isOpen n).mpr ⟨List.mem_cons_self, hn⟩

theorem Finish.Extends.leave (hn : n ∉ f.entered) (hl : n ∉ f.left)
    (h : Extends next (next n) { f with entered := n :: f.entered } f') :
    Extends next [n] f { f' with left := f'.left ++ [n] } := by
  refine ⟨h.sound.leave (h.openSelf hl) h.covers, h.kept.trans (List.prefix_append _ _), ?_, ?_, ?_⟩
  · intro k
    have hk := h.isOpen k
    by_cases hkn : k = n
    · subst hkn
      simp [IsOpen, hn]
    · simpa [IsOpen, hkn] using hk
  · simp
  · intro k hk
    by_cases hkn : k = n
    · exact .inr ⟨n, List.mem_singleton_self n, hkn ▸ .refl⟩
    · have hk' : k ∈ f'.left := by simpa [hkn] using hk
      apply (h.stems k hk').imp_right
      rintro ⟨m, hm, hr⟩
      exact ⟨n, List.mem_singleton_self n, hr.head hm⟩

theorem Finish.Extends.trans (h : Extends next [n] f f') (h' : Extends next rest f' f'') :
    Extends next (n :: rest) f f'' := by
  refine ⟨h'.sound, h.kept.trans h'.kept, fun k => (h'.isOpen k).trans (h.isOpen k), ?_, ?_⟩
  · exact List.cons_subset.mpr ⟨h'.kept.subset (h.covers List.mem_cons_self), h'.covers⟩
  · intro k hk
    cases h'.stems k hk with
    | inl hk =>
      apply (h.stems k hk).imp_right
      rintro ⟨m, hm, hr⟩
      exact ⟨m, List.mem_singleton.mp hm ▸ List.mem_cons_self, hr⟩
    | inr hk =>
      obtain ⟨m, hm, hr⟩ := hk
      exact .inr ⟨m, List.mem_cons_of_mem n hm, hr⟩

/-- The open nodes lead to all nodes looked at, so without a cycle none of them is open. -/
theorem finish_extends (hf : Follows next edges) (ha : ∀ n, ¬ TransGen (Step next) n n) {fuel : Nat}
    (hfuel : pending.length + unseen edges f.entered < fuel) (hs : f.Sound next)
    (ho : ∀ k, f.IsOpen k → ∀ m ∈ pending, TransGen (Step next) k m) :
    Finish.Extends next pending f (finish next fuel pending f) := by
  fun_induction finish next fuel pending f with
  | case1 => omega
  | case2 => exact .refl hs
  | case3 fuel n rest f hn ih =>
    have hl : n ∈ f.left := by
      by_contra hl
      exact ha n (ho n ⟨by simpa using hn, hl⟩ n List.mem_cons_self)
    simp only [List.length_cons] at hfuel
    exact (ih (by omega) hs fun k hk m hm => ho k hk m (List.mem_cons_of_mem n hm)).pass hl
  | case4 fuel n rest f hn below ihb ihr =>
    have hn : n ∉ f.entered := by simpa using hn
    have hl : n ∉ f.left := fun hl => hn (hs.entered hl)
    have hu := length_next_add_unseen hf hn
    simp only [List.length_cons] at hfuel
    have hb : Finish.Extends next (next n) { f with entered := n :: f.entered } below := by
      refine ihb (by dsimp only; omega) (hs.enter n) fun k hk m hm => ?_
      by_cases hkn : k = n
      · exact .single (hkn ▸ hm)
      · have hko : f.IsOpen k := by simpa [Finish.IsOpen, hkn] using hk
        exact (ho k hko n List.mem_cons_self).tail hm
    have hself := hb.leave hn hl
    have hm : unseen edges below.entered ≤ unseen edges (n :: f.entered) := unseen_anti hb.entered
    apply hself.trans
    refine ihr (by dsimp only; omega) hself.sound fun k hk m hm => ?_
    exact ho k ((hself.isOpen k).mp hk) m (List.mem_cons_of_mem n hm)

end Search

namespace ModuleGraph

open Relation

variable {g : ModuleGraph} {k : UnitId} {order : List UnitId}

/-- The list holds every unit once, exporters before their importers. -/
structure IsCompileOrder (g : ModuleGraph) (order : List UnitId) : Prop where
  nodup : order.Nodup
  live : ∀ k, k ∈ order ↔ (g.unit? k).isSome
  ordered : ∀ e ∈ g.edges, order.idxOf e.2 < order.idxOf e.1

theorem mem_unitIds : k ∈ g.unitIds ↔ (g.unit? k).isSome := by
  simp only [unitIds, units, List.mem_map, List.mem_filterMap, List.mem_zipIdx_iff_getElem?]
  constructor
  · rintro ⟨⟨_, u⟩, ⟨⟨slot, i⟩, hs, hu⟩, rfl⟩
    obtain ⟨v, rfl, hv⟩ := Option.map_eq_some_iff.mp hu
    cases hv
    have hi : g.slots[i]? = some (some u) := by simpa using hs
    simp [unit?, hi]
  · intro h
    obtain ⟨u, hu⟩ := Option.isSome_iff_exists.mp h
    have hs : g.slots[k]? = some (some u) := Option.join_eq_some_iff.mp hu
    exact ⟨(k, u), ⟨(some u, k), by simpa using hs, rfl⟩, rfl⟩

theorem Reaches.live {a b : UnitId} (h : g.SoundEdges) (hr : Reaches g.edges a b)
    (ha : (g.unit? a).isSome) : (g.unit? b).isSome := by
  induction hr with
  | refl => exact ha
  | tail _ he _ => exact (h.live _ he).2

theorem idxOf_lt_of_closed {next : Nat → List Nat} {f : Search.Finish} {a b : Nat}
    (h : f.Sound next) (ha : a ∈ f.left) (hb : b ∈ next a) :
    f.left.idxOf b < f.left.idxOf a := by
  obtain ⟨before, behind, hl⟩ := List.append_of_mem ha
  have hp : before ++ [a] <+: f.left := ⟨behind, by simp [hl]⟩
  have hin : b ∈ before := h.closed before a hp hb
  have hout : a ∉ before := by
    intro hm
    have hd := h.nodup
    rw [hl] at hd
    exact (List.nodup_append.mp hd).2.2 a hm a List.mem_cons_self rfl
  rw [hl, List.idxOf_append_of_mem hin, List.idxOf_append_of_notMem hout, List.idxOf_cons_self]
  exact List.idxOf_lt_length_of_mem hin

theorem finishOrder_isCompileOrder (h : g.SoundEdges) : g.IsCompileOrder g.finishOrder := by
  let next : UnitId → List UnitId := fun id => (g.next id).reverse
  have hnext (a b : UnitId) : b ∈ next a ↔ (a, b) ∈ g.edges := by simp [next, mem_next]
  have hstep : Search.Step next = Leads g.edges := by
    funext a b
    exact propext (hnext a b)
  have hf : Search.Follows next g.edges := by
    intro n
    rw [List.length_reverse]
    exact follows_next g n
  have ha : ∀ n, ¬ TransGen (Search.Step next) n n := by
    rw [hstep]
    exact h.acyclic
  have hfuel : g.unitIds.length + Search.unseen g.edges [] < g.searchFuel + g.unitIds.length := by
    have hle := Search.unseen_le g.edges []
    unfold searchFuel
    omega
  have hempty : Search.Finish.Sound next {} :=
    ⟨List.nodup_nil, List.nil_subset _, by simp⟩
  have hx : Search.Finish.Extends next g.unitIds {}
      (Search.finish next (g.searchFuel + g.unitIds.length) g.unitIds {}) :=
    Search.finish_extends hf ha hfuel hempty fun k hk => by simp [Search.Finish.IsOpen] at hk
  have hlive (k : UnitId) : k ∈ g.finishOrder ↔ (g.unit? k).isSome := by
    constructor
    · intro hk
      cases hx.stems k hk with
      | inl hk => simp at hk
      | inr hk =>
        obtain ⟨m, hm, hr⟩ := hk
        rw [hstep] at hr
        exact Reaches.live h hr (mem_unitIds.mp hm)
    · intro hk
      exact hx.covers (mem_unitIds.mpr hk)
  refine ⟨hx.sound.nodup, hlive, fun e he => ?_⟩
  exact idxOf_lt_of_closed hx.sound ((hlive e.1).mpr (h.live e he).1) ((hnext e.1 e.2).mpr he)

theorem SoundEdges.compileOrder (h : g.SoundEdges) :
    g.compileOrder = .ok g.finishOrder := by
  have hnone : g.edges.find? (fun e => !isOrdered g.finishOrder e) = none := by
    apply List.find?_eq_none.mpr
    intro e he
    simpa [isOrdered] using (finishOrder_isCompileOrder h).ordered e he
  simp only [ModuleGraph.compileOrder, hnone]

/-- Every graph that a run reaches has a compile order, and that is what is returned. -/
theorem compileOrder_dependencies_first (hg : g.Reachable) :
    ∃ order, g.compileOrder = .ok order ∧ g.IsCompileOrder order :=
  ⟨g.finishOrder, hg.soundEdges.compileOrder, finishOrder_isCompileOrder hg.soundEdges⟩

def emptyProgram : Cst.Tree :=
  .node { kind := "program", span := ⟨0, 0⟩ } []

def gappedLine : ModuleGraph :=
  run {} [
    .addModule "app",
    .addModule "old",
    .addUnit 0 "A.lv" "" emptyProgram,
    .addUnit 1 "B.lv" "" emptyProgram,
    .addUnit 0 "C.lv" "" emptyProgram,
    .addUnit 0 "D.lv" "" emptyProgram,
    .addUnit 0 "E.lv" "" emptyProgram,
    .addDependency 0 1,
    .addDependency 0 3,
    .addDependency 3 2,
    .addDependency 2 4,
    .addDependency 4 0,
    .removeModule 1]

theorem gappedLine_compileOrder : gappedLine.edges = [(2, 4), (3, 2), (0, 3)] ∧
    (gappedLine.unit? 1).isNone ∧ gappedLine.compileOrder = .ok [4, 2, 3, 0] ∧
    gappedLine.IsCompileOrder [4, 2, 3, 0] := by
  have hg : gappedLine.Reachable := ⟨{}, _, rfl⟩
  have ho : gappedLine.compileOrder = .ok [4, 2, 3, 0] := by decide +kernel
  obtain ⟨order, hc, hi⟩ := compileOrder_dependencies_first hg
  rw [ho] at hc
  cases hc
  exact ⟨by decide +kernel, by decide +kernel, ho, hi⟩

end ModuleGraph

end ComponentCompiler
