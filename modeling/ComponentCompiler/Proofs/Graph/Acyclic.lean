import ComponentCompiler.Proofs.Graph.Change
import ComponentCompiler.Proofs.Graph.Search

namespace ComponentCompiler.ModuleGraph

open Relation

variable {g g' : ModuleGraph} {edges : List (UnitId × UnitId)} {a b : UnitId}

abbrev Leads (edges : List (UnitId × UnitId)) (a b : UnitId) : Prop :=
  (a, b) ∈ edges

abbrev Reaches (edges : List (UnitId × UnitId)) : UnitId → UnitId → Prop :=
  ReflTransGen (Leads edges)

def Acyclic (edges : List (UnitId × UnitId)) : Prop :=
  ∀ a, ¬ TransGen (Leads edges) a a

theorem Acyclic.mono {edges' : List (UnitId × UnitId)} (h : Acyclic edges')
    (hs : edges ⊆ edges') : Acyclic edges :=
  fun a ha => h a (TransGen.mono (p := Leads edges') (fun _ _ he => hs he) a a ha)

theorem acyclic_nil : Acyclic [] := by
  intro a h
  obtain ⟨b, hb, -⟩ := TransGen.head'_iff.mp h
  simp [Leads] at hb

/-- A path over one more edge either does without it, or leads to its start and on from its end. -/
theorem transGen_cons {x y : UnitId} (h : TransGen (Leads ((a, b) :: edges)) x y) :
    TransGen (Leads edges) x y ∨ Reaches edges x a ∧ Reaches edges b y := by
  induction h with
  | single he =>
    rcases List.mem_cons.mp he with he | he
    · cases he
      exact .inr ⟨.refl, .refl⟩
    · exact .inl (.single he)
  | tail _ he ih =>
    rcases List.mem_cons.mp he with he | he
    · cases he
      rcases ih with ih | ih
      · exact .inr ⟨ih.to_reflTransGen, .refl⟩
      · exact .inr ⟨ih.1, .refl⟩
    · rcases ih with ih | ih
      · exact .inl (ih.tail he)
      · exact .inr ⟨ih.1, ih.2.tail he⟩

theorem acyclic_cons : Acyclic ((a, b) :: edges) ↔ Acyclic edges ∧ ¬ Reaches edges b a := by
  constructor
  · intro h
    refine ⟨h.mono (List.subset_cons_self _ _), fun hr => h a ?_⟩
    exact TransGen.head' List.mem_cons_self
      (ReflTransGen.mono (fun _ _ he => List.mem_cons_of_mem _ he) b a hr)
  · rintro ⟨h, hr⟩ x hx
    rcases transGen_cons hx with hx | ⟨hxa, hbx⟩
    · exact h x hx
    · exact hr (hbx.trans hxa)

theorem mem_next : b ∈ g.next a ↔ (a, b) ∈ g.edges := by
  simp [next]

theorem follows_next (g : ModuleGraph) : Search.Follows g.next g.edges := by
  intro n
  simp [next, List.countP_eq_length_filter]

theorem length_edges_lt_searchFuel (g : ModuleGraph) : g.edges.length < g.searchFuel := by
  unfold searchFuel
  omega

theorem path?_isSome : (g.path? a b).isSome ↔ Reaches g.edges a b := by
  have h : (Search.path? g.next g.searchFuel a b).isSome ↔ _ :=
    Search.path?_isSome_iff (follows_next g) g.length_edges_lt_searchFuel
  simp only [mem_next] at h
  exact h

structure SoundEdges (g : ModuleGraph) : Prop where
  acyclic : Acyclic g.edges
  nodup : g.edges.Nodup
  live : ∀ e ∈ g.edges, (g.unit? e.1).isSome ∧ (g.unit? e.2).isSome

theorem SoundEdges.ne (h : g.SoundEdges) (he : (a, b) ∈ g.edges) : a ≠ b := by
  rintro rfl
  exact h.acyclic a (.single he)

theorem SoundEdges.of_edges_eq (h : g.SoundEdges) (he : g'.edges = g.edges)
    (hu : ∀ k, (g.unit? k).isSome → (g'.unit? k).isSome) : g'.SoundEdges := by
  refine ⟨he ▸ h.acyclic, he ▸ h.nodup, ?_⟩
  intro e hm
  obtain ⟨h1, h2⟩ := h.live e (he ▸ hm)
  exact ⟨hu _ h1, hu _ h2⟩

theorem SoundEdges.modifyUnit (h : g.SoundEdges) (id : UnitId) (f : ModuleUnit → ModuleUnit) :
    (g.modifyUnit id f).SoundEdges := by
  have he : (g.modifyUnit id f).edges = g.edges := rfl
  refine h.of_edges_eq he fun k hk => ?_
  rw [unit?_modifyUnit]
  split <;> simpa using hk

theorem SoundEdges.removeModule {module : ModuleId} {removed : List UnitId} (h : g.SoundEdges)
    (hr : g.removeModule module = .ok (removed, g')) : g'.SoundEdges := by
  obtain ⟨m, registry, -, -, rfl⟩ := removeModule_eq_ok.mp hr
  have he : (removed.foldl removeUnit { g with registry }).edges =
      g.edges.filter fun e => !removed.contains e.1 && !removed.contains e.2 :=
    edges_foldl_removeUnit removed h.live
  refine ⟨?_, ?_, ?_⟩
  · dsimp only
    rw [he]
    exact h.acyclic.mono fun _ hm => List.mem_of_mem_filter hm
  · dsimp only
    rw [he]
    exact h.nodup.filter _
  · intro e hm
    dsimp only at hm
    rw [he, List.mem_filter] at hm
    obtain ⟨hm, hk⟩ := hm
    have hn : e.1 ∉ removed ∧ e.2 ∉ removed := by simpa using hk
    rw [unit?_mapSlots, unit?_mapSlots, unit?_foldl_removeUnit, unit?_foldl_removeUnit,
      if_neg hn.1, if_neg hn.2]
    simpa [unit?] using h.live e hm

theorem SoundEdges.addDependency {new : Bool} (h : g.SoundEdges)
    (hd : g.addDependency a b = .ok (new, g')) : g'.SoundEdges := by
  obtain ⟨ha, hb, hd⟩ := addDependency_eq_ok.mp hd
  split at hd
  · rw [hd.2]
    exact h
  · next hnew =>
    obtain ⟨hpath, -, rfl⟩ := hd
    have hr : ¬ Reaches g.edges b a := by
      rw [← path?_isSome, hpath]
      simp
    refine ⟨acyclic_cons.mpr ⟨h.acyclic, hr⟩, ?_, ?_⟩
    · exact List.nodup_cons.mpr ⟨fun hm => hnew (.inr hm), h.nodup⟩
    · intro e hm
      rcases List.mem_cons.mp hm with rfl | hm
      · exact ⟨ha, hb⟩
      · exact h.live e hm

theorem SoundEdges.update (h : g.SoundEdges) (hc : Update g g') : g'.SoundEdges := by
  cases hc with
  | bindImport hb =>
    obtain ⟨m, u, -, -, -, rfl⟩ := bindImport_eq_ok.mp hb
    exact h.modifyUnit _ _
  | addDependency hd => exact h.addDependency hd
  | record _ _ | parse _ | emit _ _ => exact h.modifyUnit _ _

theorem SoundEdges.change (h : g.SoundEdges) (hc : Change g g') : g'.SoundEdges := by
  cases hc with
  | addModule ha =>
    obtain ⟨registry, -, rfl⟩ := addModule_eq_ok.mp ha
    exact h.of_edges_eq rfl fun _ hk => hk
  | addUnit ha =>
    obtain ⟨m, unit, -, -, -, rfl⟩ := addUnit_eq_ok.mp ha
    exact h.of_edges_eq (place_edges _ _) fun _ hk => isSome_unit?_place _ hk
  | removeModule hr => exact h.removeModule hr
  | update hu => exact h.update hu

theorem Reachable.soundEdges (h : g.Reachable) : g.SoundEdges := by
  refine h.induct (P := SoundEdges) (fun config => ?_) fun _ _ hg hc => hg.change hc
  exact ⟨acyclic_nil, List.nodup_nil, by simp⟩

/-- Whatever is called on an empty graph, in whatever order and with whatever success: the edges
form no cycle, none leads from a unit to itself, none is there twice, and they join live units. -/
theorem run_edges_acyclic (config : Config) (calls : List GraphCall) :
    Acyclic (run { config } calls).edges ∧
      (∀ e ∈ (run { config } calls).edges, e.1 ≠ e.2) ∧
      (run { config } calls).edges.Nodup ∧
      ∀ e ∈ (run { config } calls).edges, ((run { config } calls).unit? e.1).isSome ∧
        ((run { config } calls).unit? e.2).isSome := by
  have h : SoundEdges (run { config } calls) := Reachable.soundEdges ⟨config, calls, rfl⟩
  exact ⟨h.acyclic, fun e he => h.ne he, h.nodup, h.live⟩

end ComponentCompiler.ModuleGraph
