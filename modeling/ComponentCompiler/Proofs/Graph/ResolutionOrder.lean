import ComponentCompiler.Proofs.Graph.Resolution

namespace ComponentCompiler.ModuleGraph

variable {g g' : ModuleGraph} {id : UnitId} {u : ModuleUnit} {ids done : List UnitId}

/-- Resolves units one after the other, also behind one that fails. -/
def resolveEach : List UnitId → ModuleGraph →
    List (UnitId × Except GraphError ResolveSummary) × ModuleGraph
  | [], g => ([], g)
  | id :: rest, g =>
    let (outcome, g) := g.resolveTypes id
    let (outcomes, g) := resolveEach rest g
    ((id, outcome) :: outcomes, g)

def AllSucceed (outcomes : List (UnitId × Except GraphError ResolveSummary)) : Prop :=
  ∀ o ∈ outcomes, ∃ summary, o.2 = .ok summary

def neededEdges (g : ModuleGraph) (id : UnitId) : List (UnitId × UnitId) :=
  (g.unit? id).elim [] fun u => g.edgesTo id u u.source.importTypes.entries

def summaryOf (g : ModuleGraph) (id : UnitId) : ResolveSummary :=
  (g.unit? id).elim {} fun u => g.summarize u u.source.importTypes.entries

/-- A graph comes from `g` by resolving some units, as `g` itself has their symbols found. -/
structure Settled (g : ModuleGraph) (done : List UnitId) (g' : ModuleGraph) : Prop where
  registry : g'.registry = g.registry
  units : ∀ k, g'.unit? k = if k ∈ done then (g.unit? k).map g.settle else g.unit? k
  edges : ∀ e, e ∈ g'.edges ↔ e ∈ g.edges ++ done.flatMap g.neededEdges
  acyclic : Acyclic g'.edges

theorem face_settle (g : ModuleGraph) (u : ModuleUnit) : face (g.settle u) = face u := by
  unfold settle markParsed
  split <;> rfl

theorem entries_settle (g : ModuleGraph) (u : ModuleUnit) :
    (g.settle u).source.importTypes.entries = u.source.importTypes.entries.map (g.found u) := by
  rw [← ImportTypes.entries_mapEntries]
  unfold settle markParsed
  split <;> rfl

theorem wellPlaced_settle (hw : u.source.importTypes.WellPlaced) :
    (g.settle u).source.importTypes.WellPlaced := by
  have h : (mapNeeds (g.found u) u).source.importTypes.WellPlaced :=
    hw.mapEntries (found_qualifier_name g u)
  unfold settle markParsed
  split <;> exact h

theorem settle_congr (hs : SameSearch g g') : g'.settle = g.settle := by
  funext u
  unfold settle
  rw [hs.found rfl]

theorem markParsed_settle (g : ModuleGraph) (u : ModuleUnit) (f : ImportType → ImportType) :
    markParsed (mapNeeds f (g.settle u)) = markParsed (mapNeeds (f ∘ g.found u) u) := by
  rw [← mapNeeds_mapNeeds]
  unfold settle markParsed mapNeeds
  by_cases h : u.state = .initialized <;> simp [h]

theorem settle_settle (g : ModuleGraph) (u : ModuleUnit) : g.settle (g.settle u) = g.settle u := by
  have hf : g.found (g.settle u) = g.found u := (SameSearch.refl g).found (face_settle g u)
  have hc : g.found u ∘ g.found u = g.found u := funext (found_found g u)
  calc g.settle (g.settle u)
      = markParsed (mapNeeds (g.found u) (g.settle u)) := by rw [← hf, settle]
    _ = markParsed (mapNeeds (g.found u) u) := by rw [markParsed_settle, hc]
    _ = g.settle u := rfl

theorem hit?_comp_found (g : ModuleGraph) (u : ModuleUnit) :
    g.hit? u ∘ g.found u = g.hit? u := by
  funext t
  obtain ⟨hq, hn⟩ := found_qualifier_name g u t
  exact hit?_key g u hq hn

theorem edgesTo_map_found (g : ModuleGraph) (id : UnitId) (u : ModuleUnit)
    (needs : List ImportType) :
    g.edgesTo id u (needs.map (g.found u)) = g.edgesTo id u needs := by
  unfold edgesTo
  rw [List.filterMap_map, hit?_comp_found]

theorem summarize_map_found (g : ModuleGraph) (u : ModuleUnit) (needs : List ImportType) :
    g.summarize u (needs.map (g.found u)) = g.summarize u needs := by
  have hh (t : ImportType) : g.hit? u (g.found u t) = g.hit? u t :=
    congrFun (hit?_comp_found g u) t
  have hkey (t : ImportType) := found_qualifier_name g u t
  simp [summarize, List.countP_map, List.filter_map, Function.comp_def, hh, hkey]

theorem Settled.refl (h : Acyclic g.edges) : Settled g [] g :=
  ⟨rfl, by simp, by simp, h⟩

theorem Settled.sameSearch (h : Settled g done g') : SameSearch g g' := by
  refine ⟨h.registry, fun k => ?_⟩
  rw [h.units k]
  split
  · cases g.unit? k with
    | none => rfl
    | some u => simp [face_settle]
  · rfl

/-- In a settled graph a unit needs the edges and gives the summary that it does in the first
graph, and settles as it does there. -/
theorem Settled.unit (h : Settled g done g') (hr : g.Resolvable id u) :
    ∃ u', g'.Resolvable id u' ∧ g'.settle u' = g.settle u ∧
      g'.edgesTo id u' u'.source.importTypes.entries = g.neededEdges id ∧
      g'.summarize u' u'.source.importTypes.entries = g.summaryOf id := by
  have hs := h.sameSearch
  have hk := h.units id
  rw [hr.unit] at hk
  simp only [neededEdges, summaryOf, hr.unit, Option.elim_some, settle_congr hs]
  split at hk
  · have hm : (g.settle u).module = u.module := congrArg (·.1) (face_settle g u)
    refine ⟨g.settle u, ⟨hk, ?_, wellPlaced_settle hr.wellPlaced⟩, settle_settle g u, ?_, ?_⟩
    · rw [hm, hs.module?]
      exact hr.registered
    · rw [hs.edgesTo (face_settle g u), entries_settle, edgesTo_map_found]
    · rw [hs.summarize (face_settle g u), entries_settle, summarize_map_found]
  · refine ⟨u, ⟨hk, ?_, hr.wellPlaced⟩, rfl, hs.edgesTo rfl id _, hs.summarize rfl _⟩
    rw [hs.module?]
    exact hr.registered

theorem Settled.resolveTypes (h : Settled g done g') (hr : g.Resolvable id u) :
    (Acyclic (g.edges ++ (id :: done).flatMap g.neededEdges) ∧
      ∃ g'', g'.resolveTypes id = (.ok (g.summaryOf id), g'') ∧ Settled g (id :: done) g'') ∨
    (¬ Acyclic (g.edges ++ (id :: done).flatMap g.neededEdges) ∧
      ∃ path, (g'.resolveTypes id).1 = .error (.dependencyCycle path)) := by
  obtain ⟨u', hr', hsettle, hedges, hsummary⟩ := h.unit hr
  have hmem : ∀ e, e ∈ g'.edges ++ g.neededEdges id ↔
      e ∈ g.edges ++ (id :: done).flatMap g.neededEdges := by
    intro e
    have he := h.edges e
    simp only [List.mem_append, List.flatMap_cons] at he ⊢
    rw [he]
    grind
  have hc := resolveTypes_cases hr' h.acyclic
  rw [hedges, hsummary, hsettle] at hc
  rw [← Acyclic.congr hmem]
  rcases hc with ⟨ha, edges, he, hok⟩ | hn
  · refine .inl ⟨ha, _, hok, h.registry, fun k => ?_, fun e => (he e).trans (hmem e), ?_⟩
    · have hm : unit? { g'.modifyUnit id (fun _ => g.settle u) with edges } k =
          (g'.modifyUnit id fun _ => g.settle u).unit? k := rfl
      rw [hm, unit?_modifyUnit]
      by_cases hk : k = id
      · subst hk
        simp [hr.unit, hr'.unit]
      · simp [hk, h.units k]
    · exact (Acyclic.congr he).mpr ha
  · exact .inr hn

/-- The passes all succeed, with the summaries that the first graph fixes and a settled graph
behind them; or one fails, and the edges that are needed close a cycle. -/
theorem Settled.resolveEach (h : Settled g done g')
    (hl : ∀ id ∈ ids, ∃ u, g.Resolvable id u) :
    (Acyclic (g.edges ++ (ids.reverse ++ done).flatMap g.neededEdges) ∧
      (resolveEach ids g').1 = ids.map (fun id => (id, .ok (g.summaryOf id))) ∧
      Settled g (ids.reverse ++ done) (resolveEach ids g').2) ∨
    (¬ Acyclic (g.edges ++ (ids.reverse ++ done).flatMap g.neededEdges) ∧
      ¬ AllSucceed (resolveEach ids g').1) := by
  induction ids generalizing done g' with
  | nil => exact .inl ⟨(Acyclic.congr h.edges).mp h.acyclic, rfl, h⟩
  | cons id rest ih =>
    obtain ⟨u, hu⟩ := hl id List.mem_cons_self
    have hsplit : (id :: rest).reverse ++ done = rest.reverse ++ id :: done := by simp
    rw [hsplit]
    unfold ModuleGraph.resolveEach
    rcases h.resolveTypes hu with ⟨-, g'', hr, hd⟩ | ⟨hn, path, hr⟩
    · rw [hr]
      dsimp only
      rcases ih hd (fun k hk => hl k (List.mem_cons_of_mem _ hk)) with ⟨ha, ho, hs⟩ | ⟨ha, ho⟩
      · exact .inl ⟨ha, by rw [ho, List.map_cons], hs⟩
      · exact .inr ⟨ha, fun hall => ho fun o hm => hall o (List.mem_cons_of_mem _ hm)⟩
    · refine .inr ⟨fun ha => hn (ha.mono ?_), fun hall => ?_⟩
      · intro e he
        simp only [List.mem_append, List.flatMap_append] at he ⊢
        exact he.imp_right .inr
      · obtain ⟨summary, hs⟩ := hall _ List.mem_cons_self
        rw [hr] at hs
        cases hs

theorem Settled.congr {done' : List UnitId} {g'' : ModuleGraph} (h : Settled g done g')
    (h' : Settled g done' g'') (hd : ∀ k, k ∈ done ↔ k ∈ done') :
    (∀ k, g'.unit? k = g''.unit? k) ∧ ∀ e, e ∈ g'.edges ↔ e ∈ g''.edges := by
  refine ⟨fun k => ?_, fun e => ?_⟩
  · simp only [h.units k, h'.units k, hd k]
  · rw [h.edges e, h'.edges e]
    simp only [List.mem_append, List.mem_flatMap, hd]

theorem Reachable.resolveEach (hg : g.Reachable) (hl : ∀ id ∈ ids, (g.unit? id).isSome) :
    (Acyclic (g.edges ++ ids.flatMap g.neededEdges) ∧
      (resolveEach ids g).1 = ids.map (fun id => (id, .ok (g.summaryOf id))) ∧
      Settled g ids.reverse (resolveEach ids g).2) ∨
    (¬ Acyclic (g.edges ++ ids.flatMap g.neededEdges) ∧
      ¬ AllSucceed (resolveEach ids g).1) := by
  have hlive : ∀ id ∈ ids, ∃ u, g.Resolvable id u := by
    intro id hid
    obtain ⟨u, hu⟩ := Option.isSome_iff_exists.mp (hl id hid)
    exact ⟨u, hg.resolvable hu⟩
  have hmem : ∀ e, e ∈ g.edges ++ ids.reverse.flatMap g.neededEdges ↔
      e ∈ g.edges ++ ids.flatMap g.neededEdges := by
    simp
  have h := (Settled.refl hg.soundEdges.acyclic).resolveEach hlive
  rw [List.append_nil, Acyclic.congr hmem] at h
  exact h

theorem Reachable.allSucceed_iff (hg : g.Reachable) (hl : ∀ id ∈ ids, (g.unit? id).isSome) :
    AllSucceed (ModuleGraph.resolveEach ids g).1 ↔
      Acyclic (g.edges ++ ids.flatMap g.neededEdges) := by
  rcases hg.resolveEach hl with ⟨ha, ho, -⟩ | ⟨ha, ho⟩
  · refine iff_of_true ?_ ha
    rw [ho]
    intro o hm
    obtain ⟨id, -, rfl⟩ := List.mem_map.mp hm
    exact ⟨_, rfl⟩
  · exact iff_of_false ho ha

/-- Units can be resolved in any order: all succeed exactly if the edges they need and the old edges
form no cycle, and then the summaries, the units and the edges come out the same. -/
theorem resolveEach_order_irrelevant {ids' : List UnitId} (hg : g.Reachable)
    (hl : ∀ id ∈ ids, (g.unit? id).isSome) (hp : ids.Perm ids') :
    (AllSucceed (resolveEach ids g).1 ↔ Acyclic (g.edges ++ ids.flatMap g.neededEdges)) ∧
    (AllSucceed (resolveEach ids g).1 ↔ AllSucceed (resolveEach ids' g).1) ∧
    (AllSucceed (resolveEach ids g).1 →
      (resolveEach ids g).1.Perm (resolveEach ids' g).1 ∧
      (∀ k, (resolveEach ids g).2.unit? k = (resolveEach ids' g).2.unit? k) ∧
      ∀ e, e ∈ (resolveEach ids g).2.edges ↔ e ∈ (resolveEach ids' g).2.edges) := by
  have hl' : ∀ id ∈ ids', (g.unit? id).isSome := fun id hid => hl id (hp.mem_iff.mpr hid)
  have hmem : ∀ e, e ∈ g.edges ++ ids.flatMap g.neededEdges ↔
      e ∈ g.edges ++ ids'.flatMap g.neededEdges := by
    intro e
    simp only [List.mem_append, List.mem_flatMap, hp.mem_iff]
  have hs := hg.allSucceed_iff hl
  have hs' := hg.allSucceed_iff hl'
  refine ⟨hs, ?_, fun hall => ?_⟩
  · rw [hs, hs', Acyclic.congr hmem]
  · have ha := hs.mp hall
    rcases hg.resolveEach hl with ⟨-, ho, hd⟩ | ⟨hn, -⟩
    · rcases hg.resolveEach hl' with ⟨-, ho', hd'⟩ | ⟨hn, -⟩
      · refine ⟨?_, hd.congr hd' fun k => ?_⟩
        · rw [ho, ho']
          exact hp.map _
        · rw [List.mem_reverse, List.mem_reverse, hp.mem_iff]
      · exact absurd ((Acyclic.congr hmem).mp ha) hn
    · exact absurd ha hn

def derivedPair : ModuleGraph :=
  run {} [
    .addModule "app",
    .addUnit 0 "A.lv" "A B" (.node { kind := "program", span := ⟨0, 3⟩ } [
      .node { kind := "component_declaration", span := ⟨0, 3⟩ } [
        .node { kind := "identifier", span := ⟨0, 1⟩ } [],
        .node { kind := "component_heritage", span := ⟨2, 3⟩ } [
          .node { kind := "identifier", span := ⟨2, 3⟩ } []]]]),
    .addUnit 0 "B.lv" "B" (.node { kind := "program", span := ⟨0, 1⟩ } [
      .node { kind := "component_declaration", span := ⟨0, 1⟩ } [
        .node { kind := "identifier", span := ⟨0, 1⟩ } []]])]

theorem derivedPair_resolveEach : derivedPair.neededEdges 0 = [(0, 1)] ∧
    (resolveEach [0, 1] derivedPair).1 = [(0, .ok ⟨1, []⟩), (1, .ok ⟨0, []⟩)] ∧
    AllSucceed (resolveEach [1, 0] derivedPair).1 ∧
    (∀ k, (resolveEach [0, 1] derivedPair).2.unit? k =
      (resolveEach [1, 0] derivedPair).2.unit? k) ∧
    (0, 1) ∈ (resolveEach [1, 0] derivedPair).2.edges := by
  have hg : derivedPair.Reachable := ⟨{}, _, rfl⟩
  have hl : ∀ id ∈ [0, 1], (derivedPair.unit? id).isSome := by decide +kernel
  have ho : (resolveEach [0, 1] derivedPair).1 = [(0, .ok ⟨1, []⟩), (1, .ok ⟨0, []⟩)] := by
    rfl
  have hall : AllSucceed (resolveEach [0, 1] derivedPair).1 := by
    simp [ho, AllSucceed]
  have he : (0, 1) ∈ (resolveEach [0, 1] derivedPair).2.edges := by decide +kernel
  obtain ⟨-, hs, hr⟩ := resolveEach_order_irrelevant hg hl (.swap 1 0 [])
  obtain ⟨-, hu, hedges⟩ := hr hall
  exact ⟨by decide +kernel, ho, hs.mp hall, hu, (hedges _).mp he⟩

end ComponentCompiler.ModuleGraph
