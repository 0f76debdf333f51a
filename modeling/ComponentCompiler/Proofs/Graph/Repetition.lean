import ComponentCompiler.Proofs.Graph.CompileStates
import ComponentCompiler.Proofs.Graph.Handles
import ComponentCompiler.Proofs.Graph.Ordinals
import ComponentCompiler.Proofs.Graph.ResolutionOrder

namespace ComponentCompiler.ModuleGraph

variable {g g' : ModuleGraph} {id : UnitId} {u : ModuleUnit} {t : ImportType}
  {ids order : List UnitId}

theorem modifyUnit_fixed {f : ModuleUnit → ModuleUnit} (hu : g.unit? id = some u)
    (hf : f u = u) : g.modifyUnit id f = g := by
  apply modifyUnit_eq_self
  intro v hv
  cases hu.symm.trans hv
  exact hf

/-- A unit that is as resolving it leaves it, with its edges in the graph. -/
structure AtRest (g : ModuleGraph) (id : UnitId) (u : ModuleUnit) : Prop
    extends g.Resolvable id u where
  settled : g.settle u = u
  edges : g.edgesTo id u u.source.importTypes.entries ⊆ g.edges

theorem found_of_settled (h : g.settle u = u) (ht : t ∈ u.source.importTypes.entries) :
    g.found u t = t := by
  have he := entries_settle g u
  rw [h, ← List.map_id' u.source.importTypes.entries, List.map_map] at he
  exact (List.map_inj_left.mp he t ht).symm

theorem markParsed_markParsed (u : ModuleUnit) : markParsed (markParsed u) = markParsed u := by
  by_cases hs : u.state = .initialized <;> simp [markParsed, hs]

theorem AtRest.recordPath (h : g.AtRest id u) {hit : Hit} (hh : g.hit? u t = some hit) :
    recordPath t hit.path u = u := by
  rw [recordPath_eq h.wellPlaced]
  calc mapNeeds (ImportTypes.withPath t.qualifier t.name hit.path) u
      = mapNeeds (fun e => e) u := by
        apply mapNeeds_congr
        intro e he
        by_cases hk : e.qualifier = t.qualifier ∧ e.name = t.name
        · rw [found_withPath hh hk.1 hk.2, found_of_settled h.settled he]
        · simp [ImportTypes.withPath, hk]
    _ = u := mapNeeds_self u

theorem addDependency_present {a b : UnitId} (ha : (g.unit? a).isSome) (hb : (g.unit? b).isSome)
    (he : a = b ∨ (a, b) ∈ g.edges) : g.addDependency a b = .ok (false, g) := by
  refine addDependency_eq_ok.mpr ⟨ha, hb, ?_⟩
  rw [if_pos he]
  exact ⟨rfl, rfl⟩

theorem AtRest.resolveEntries (h : g.AtRest id u) {needs : List ImportType}
    (hn : needs ⊆ u.source.importTypes.entries) (summary : ResolveSummary) :
    resolveEntries id needs summary g = (.ok (summary.append (g.summarize u needs)), g) := by
  induction needs generalizing summary with
  | nil => rw [append_summarize_nil, ModuleGraph.resolveEntries]
  | cons t rest ih =>
    obtain ⟨ht, hrest⟩ := List.cons_subset.mp hn
    unfold ModuleGraph.resolveEntries
    rw [findExporter_eq h.unit h.registered]
    cases hh : g.hit? u t with
    | none =>
      rw [append_summarize_none summary hh]
      exact ih hrest _
    | some hit =>
      have hedge : id = hit.exporter ∨ (id, hit.exporter) ∈ g.edges := by
        by_cases hid : id = hit.exporter
        · exact .inl hid
        · exact .inr (h.edges (mem_edgesTo.mpr ⟨rfl, Ne.symm hid, t, ht, hit, hh, rfl⟩))
      dsimp only
      rw [addDependency_present (by simp [h.unit]) (isSome_of_hit? hh) hedge]
      dsimp only
      rw [modifyUnit_fixed h.unit (h.recordPath hh), append_summarize_some summary hh]
      exact ih hrest _

theorem AtRest.resolveTypes (h : g.AtRest id u) :
    g.resolveTypes id = (.ok (g.summarize u u.source.importTypes.entries), g) := by
  have hparsed : markParsed u = u := by
    rw [← h.settled]
    exact markParsed_markParsed _
  unfold ModuleGraph.resolveTypes
  rw [h.unit]
  dsimp only
  rw [h.resolveEntries (List.Subset.refl _)]
  dsimp only
  rw [modifyUnit_fixed h.unit hparsed]
  simp [ResolveSummary.append]

/-- Resolving a unit puts it at rest, where it finds again what it found. -/
theorem Resolvable.atRest_of_resolveTypes {summary : ResolveSummary} (hr : g.Resolvable id u)
    (hg : Acyclic g.edges) (h : g.resolveTypes id = (.ok summary, g')) :
    ∃ u', g'.AtRest id u' ∧ g'.summarize u' u'.source.importTypes.entries = summary := by
  cases (Settled.refl hg).resolveTypes hr with
  | inl hok =>
    obtain ⟨-, g'', hok, hs⟩ := hok
    cases h.symm.trans hok
    obtain ⟨u', hr', hsettle, hedges, hsummary⟩ := hs.unit hr
    have hu' : u' = g.settle u := by
      have hunit := hs.units id
      rw [if_pos (List.mem_singleton_self id), hr.unit, hr'.unit] at hunit
      exact Option.some.inj hunit
    refine ⟨u', ⟨hr', hsettle.trans hu'.symm, ?_⟩, hsummary⟩
    rw [hedges]
    intro e he
    exact (hs.edges e).mpr (by simp [he])
  | inr herr =>
    obtain ⟨-, path, hn⟩ := herr
    rw [h] at hn
    cases hn

theorem compile_of_written {text : String} (hu : g.unit? id = some u) (hs : u.state = .compiled)
    (ht : u.source.script = .ok text) (ho : u.output = some text) :
    g.compile id = (.ok text, g) := by
  have hfixed : setOutput text u = u := by
    unfold setOutput
    rw [← hs, ← ho]
  rw [compile_of_resolved hu (by simp [hs]), ht]
  dsimp only
  rw [modifyUnit_fixed hu hfixed]

theorem emitted_of_compile {text : String} (h : g.compile id = (.ok text, g')) :
    ∃ (g₁ : ModuleGraph) (u : ModuleUnit), g₁.unit? id = some u ∧ u.source.script = .ok text ∧
      g' = g₁.modifyUnit id (setOutput text) := by
  unfold compile at h
  split at h
  · cases h
  · next g₁ _ =>
    split at h
    · cases h
    · next u hu =>
      split at h
      · cases h
      · next text' ht =>
        cases h
        exact ⟨g₁, u, hu, ht, rfl⟩

theorem compile_again {text : String} (h : g.compile id = (.ok text, g')) :
    g'.compile id = (.ok text, g') := by
  obtain ⟨g₁, u, hu, ht, rfl⟩ := emitted_of_compile h
  have hu' : (g₁.modifyUnit id (setOutput text)).unit? id = some (setOutput text u) := by
    rw [unit?_modifyUnit, if_pos rfl, hu, Option.map_some]
  exact compile_of_written hu' rfl ht rfl

theorem forEach_self {α : Type} {f : ModuleGraph → UnitId → Except GraphError α × ModuleGraph}
    (h : ∀ id ∈ ids, ∃ a, f g id = (.ok a, g)) : forEach f ids g = (.ok (), g) := by
  induction ids with
  | nil => rfl
  | cons id rest ih =>
    obtain ⟨a, ha⟩ := h id List.mem_cons_self
    unfold forEach
    rw [ha]
    exact ih fun k hk => h k (List.mem_cons_of_mem id hk)

theorem compileAll_eq_ok : g.compileAll = (.ok order, g') ↔
    ∃ g₁, forEach ensureResolved g.unitIds g = (.ok (), g₁) ∧ g₁.compileOrder = .ok order ∧
      forEach compile order g₁ = (.ok (), g') := by
  unfold compileAll
  constructor
  · intro h
    split at h
    · cases h
    · next g₁ hr =>
      split at h
      · cases h
      · next order' ho =>
        split at h
        · cases h
        · next g₂ hc =>
          cases h
          exact ⟨g₁, hr, ho, hc⟩
  · rintro ⟨g₁, hr, ho, hc⟩
    simp only [hr, ho, hc]

theorem finishOrder_congr (he : g'.edges = g.edges) (hs : g'.slots.size = g.slots.size)
    (hl : ∀ k, (g'.unit? k).isSome = (g.unit? k).isSome) : g'.finishOrder = g.finishOrder := by
  have hnext : g'.next = g.next := by
    funext k
    unfold next
    rw [he]
  unfold finishOrder searchFuel
  rw [hnext, he, hs, unitIds_congr hs hl]

theorem Emitted.isSome (h : g.Emitted ids g') (k : UnitId) :
    (g'.unit? k).isSome = (g.unit? k).isSome := by
  by_cases hk : k ∈ ids
  · obtain ⟨u, text, hu, -, hu'⟩ := h.written k hk
    rw [hu, hu']
    rfl
  · rw [h.others k hk]

theorem Reachable.compileAll_written (hg : g.Reachable) (h : g.compileAll = (.ok order, g')) :
    g'.compileOrder = .ok order ∧ (∀ k, k ∈ order ↔ (g'.unit? k).isSome) ∧
      ∀ k u, g'.unit? k = some u →
        u.state = .compiled ∧ ∃ text, u.source.script = .ok text ∧ u.output = some text := by
  obtain ⟨g₁, hr, ho, hc⟩ := compileAll_eq_ok.mp h
  have hp := hg.forEach_ensureResolved fun id hid => mem_unitIds.mp hid
  rw [hr] at hp
  have hsound := hp.reachable.soundEdges
  have horder := finishOrder_isCompileOrder hsound
  cases hsound.compileOrder.symm.trans ho
  have hsize : g'.slots.size = g₁.slots.size := by
    have hu := forEach_updates compile_updates g₁.finishOrder g₁
    rw [hc] at hu
    exact hu.keeps.2.2
  cases forEach_compile horder.nodup fun id hid => hp.exists_resolved ((horder.live id).mp hid) with
  | inl hok =>
    obtain ⟨g'', hc', hem⟩ := hok
    cases hc.symm.trans hc'
    have hsound' : g'.SoundEdges := hsound.of_edges_eq hem.edges fun k hk => by
      rw [hem.isSome]
      exact hk
    refine ⟨?_, (hem.isCompileOrder horder).live, fun k u hu => hem.compiled horder hu⟩
    rw [hsound'.compileOrder, finishOrder_congr hem.edges hsize hem.isSome]
  | inr herr =>
    obtain ⟨e, g'', hc'⟩ := herr
    cases hc.symm.trans hc'

theorem Reachable.compileAll_again (hg : g.Reachable) (h : g.compileAll = (.ok order, g')) :
    g'.compileAll = (.ok order, g') := by
  obtain ⟨horder, hlive, hwritten⟩ := hg.compileAll_written h
  have hresolve : forEach ModuleGraph.ensureResolved g'.unitIds g' = (.ok (), g') := by
    apply forEach_self
    intro id hid
    obtain ⟨u, hu⟩ := Option.isSome_iff_exists.mp (mem_unitIds.mp hid)
    have hs := (hwritten id u hu).1
    exact ⟨(), ensureResolved_of_resolved hu (by simp [hs])⟩
  have hcompile : forEach compile order g' = (.ok (), g') := by
    apply forEach_self
    intro id hid
    obtain ⟨u, hu⟩ := Option.isSome_iff_exists.mp ((hlive id).mp hid)
    obtain ⟨hs, text, ht, hout⟩ := hwritten id u hu
    exact ⟨text, compile_of_written hu hs ht hout⟩
  exact compileAll_eq_ok.mpr ⟨g', hresolve, horder, hcompile⟩

/-- What succeeded once succeeds again, with the same outcome, and leaves the whole graph as the
first call left it. -/
theorem repeated_call_changes_nothing (hg : g.Reachable) :
    (∀ id summary g', g.resolveTypes id = (.ok summary, g') →
      g'.resolveTypes id = (.ok summary, g')) ∧
    (∀ id text g', g.compile id = (.ok text, g') → g'.compile id = (.ok text, g')) ∧
    ∀ order g', g.compileAll = (.ok order, g') → g'.compileAll = (.ok order, g') := by
  refine ⟨fun id summary g' h => ?_, fun id text g' => compile_again,
    fun order g' => hg.compileAll_again⟩
  cases hu : g.unit? id with
  | none => simp [ModuleGraph.resolveTypes, hu] at h
  | some u =>
    obtain ⟨u', hrest, rfl⟩ :=
      (hg.resolvable hu).atRest_of_resolveTypes hg.soundEdges.acyclic h
    exact hrest.resolveTypes

theorem derivedPair_repeated :
    (∃ g', derivedPair.resolveTypes 0 = (.ok ⟨1, []⟩, g') ∧ g'.edges = [(0, 1)] ∧
      g'.resolveTypes 0 = (.ok ⟨1, []⟩, g')) ∧
    (∃ text g', derivedPair.compile 1 = (.ok text, g') ∧ g'.compile 1 = (.ok text, g')) ∧
    ∃ g', gappedLine.compileAll = (.ok [4, 2, 3, 0], g') ∧
      g'.compileAll = (.ok [4, 2, 3, 0], g') := by
  have hpair : derivedPair.Reachable := ⟨{}, _, rfl⟩
  have hline : gappedLine.Reachable := ⟨{}, _, rfl⟩
  obtain ⟨hresolve, hcompile, -⟩ := repeated_call_changes_nothing hpair
  obtain ⟨-, -, hall⟩ := repeated_call_changes_nothing hline
  have hsummary : (derivedPair.resolveTypes 0).1 = .ok ⟨1, []⟩ := by decide +kernel
  have hedges : (derivedPair.resolveTypes 0).2.edges = [(0, 1)] := by decide +kernel
  have htext : (derivedPair.compile 1).1.isOk := by decide +kernel
  have horder : gappedLine.compileAll.1 = .ok [4, 2, 3, 0] := by decide +kernel
  refine ⟨?_, ?_, ?_⟩
  · cases h : derivedPair.resolveTypes 0 with
    | mk outcome g' =>
      rw [h] at hsummary hedges
      cases hsummary
      exact ⟨g', rfl, hedges, hresolve _ _ _ h⟩
  · cases h : derivedPair.compile 1 with
    | mk outcome g' =>
      rw [h] at htext
      cases outcome with
      | error e => cases htext
      | ok text => exact ⟨text, g', rfl, hcompile _ _ _ h⟩
  · cases h : gappedLine.compileAll with
    | mk outcome g' =>
      rw [h] at horder
      cases horder
      exact ⟨g', rfl, hall _ _ h⟩

end ComponentCompiler.ModuleGraph
