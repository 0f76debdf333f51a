import ComponentCompiler.Graph.Drawing
import ComponentCompiler.Proofs.Graph.Agreement
import ComponentCompiler.Proofs.Graph.Ordinals

namespace ComponentCompiler

/-- The record of a unit that belongs to the module `owner`. An import names its module only if that
is there. -/
def ModuleGraph.ownedRecord (g : ModuleGraph) (owner : ModuleEntry) (n : Nat) (u : ModuleUnit) :
    UnitRecord where
  id := n
  name := u.name
  module := owner.importId
  file := u.targetFileName
  state := u.state
  exports := u.exports
  imports := u.imports.map fun i =>
    { entry := i.entry, module := i.module.bind fun id => (g.module? id).map (·.importId) }

/-- What a manifest says of a graph in which `ids` are the places of the units: the unit at the
place `ids[n]` has the number `n`. -/
structure Manifest.Shows (m : Manifest) (g : ModuleGraph) (ids : List UnitId) : Prop where
  increasing : ids.Pairwise (· < ·)
  live : ∀ k, k ∈ ids ↔ (g.unit? k).isSome
  numbers : m.units.map (·.id) = List.range ids.length
  units : ∀ n k, ids[n]? = some k → ∃ u owner, g.unit? k = some u ∧
    g.module? u.module = some owner ∧ m.units[n]? = some (g.ownedRecord owner n u)
  modules : ∀ importId, importId ∈ m.modules.map (·.importId) ↔
    ∃ id entry, g.module? id = some entry ∧ entry.importId = importId
  listed : (m.modules.flatMap (·.units)).Perm (List.range ids.length)
  owners : ∀ r ∈ m.modules, ∀ n, n ∈ r.units ↔
    ∃ record, m.units[n]? = some record ∧ record.module = r.importId
  edges : (m.edges.map fun e => (ids[e.1]?, ids[e.2]?)).Perm
    (g.edges.map fun e => (some e.1, some e.2))
  ordered : m.edges.Pairwise fun a b => a.1 < b.1 ∨ a.1 = b.1 ∧ a.2 < b.2

def UnitRecord.element (r : UnitRecord) : String :=
  let state := match r.state with
    | .initialized => "initialized"
    | .parsed => "parsed"
    | .compiled => "compiled"
  s!"<node id=\"n{r.id}\">\n" ++
  "  <data key=\"d0\">" ++ Markup.escape r.name ++ "</data>\n" ++
  "  <data key=\"d1\">" ++ Markup.escape r.module ++ "</data>\n" ++
  "  <data key=\"d2\">" ++ state ++ "</data>\n" ++
  "</node>\n"

def Manifest.drawing (m : Manifest) : String :=
  "<?xml version=\"1.0\" encoding=\"UTF-8\"?>\n" ++
  "<graphml xmlns=\"http://graphml.graphdrawing.org/xmlns\"\n" ++
  "    xmlns:xsi=\"http://www.w3.org/2001/XMLSchema-instance\"\n" ++
  "    xsi:schemaLocation=\"http://graphml.graphdrawing.org/xmlns\n" ++
  "     http://graphml.graphdrawing.org/xmlns/1.0/graphml.xsd\">\n" ++
  "<key id=\"d0\" for=\"node\" attr.name=\"name\" attr.type=\"string\"/>\n" ++
  "<key id=\"d1\" for=\"node\" attr.name=\"module\" attr.type=\"string\"/>\n" ++
  "<key id=\"d2\" for=\"node\" attr.name=\"state\" attr.type=\"string\"/>\n" ++
  "<graph edgedefault=\"directed\">\n" ++
  String.join (m.units.map UnitRecord.element) ++
  String.join (m.edges.zipIdx.map fun (e, number) =>
    s!"<edge id=\"e{number}\" source=\"n{e.1}\" target=\"n{e.2}\"/>\n") ++
  "</graph>\n</graphml>\n"

theorem Registry.entries_eq (r : Registry) :
    r.entries = (List.range r.modules.size).filterMap r.get? := by
  have h := congrArg (List.filterMap fun p : Option (Option ModuleEntry) × Nat => p.1.join)
    (zipIdx_map_some r.modules.toList)
  have hz : r.modules.toList.zipIdx.filterMap (fun p => p.1) = r.entries := by
    rw [entries, ← List.zipIdx_map_fst 0 r.modules.toList]
    simp [List.filterMap_map]
  change r.entries = (List.range r.modules.size).filterMap fun id => (r.modules[id]?).join
  simpa [List.filterMap_map, Function.comp_def, hz] using h

theorem map_idxOf_self {xs : List Nat} (h : xs.Nodup) : xs.map xs.idxOf = List.range xs.length := by
  apply List.ext_getElem
  · simp
  · intro i hi _
    have hi : i < xs.length := by simpa using hi
    simp [h.idxOf_getElem i hi]

namespace ModuleGraph

variable {g : ModuleGraph} {k : UnitId} {u : ModuleUnit} {m : ModuleEntry} {e : UnitId × UnitId}

theorem mem_entries : m ∈ g.registry.entries ↔ ∃ id, g.module? id = some m := by
  rw [Registry.entries_eq, List.mem_filterMap]
  constructor
  · rintro ⟨id, -, hm⟩
    exact ⟨id, hm⟩
  · rintro ⟨id, hm⟩
    refine ⟨id, List.mem_range.mpr (Nat.lt_of_not_le fun hle => ?_), hm⟩
    simp [module?, Registry.get?, Array.getElem?_eq_none hle] at hm

theorem Filed.nodup_listed (h : g.Filed) : (g.registry.entries.flatMap (·.units)).Nodup := by
  rw [List.nodup_flatMap]
  constructor
  · intro m hm
    obtain ⟨id, hid⟩ := mem_entries.mp hm
    exact h.nodup id m hid
  · rw [Registry.entries_eq, List.pairwise_filterMap]
    apply List.nodup_range.imp
    intro i j hij m hm m' hm' k hk hk'
    obtain ⟨u, hu, hi⟩ := h.listed i m k hm hk
    obtain ⟨v, hv, hj⟩ := h.listed j m' k hm' hk'
    cases hu.symm.trans hv
    exact hij (hi.symm.trans hj)

theorem Registered.listed_perm (h : g.Registered) (hf : g.Filed) :
    (g.registry.entries.flatMap (·.units)).Perm g.unitIds := by
  rw [List.perm_ext_iff_of_nodup hf.nodup_listed (nodup_unitIds g)]
  intro k
  rw [List.mem_flatMap, mem_unitIds, Option.isSome_iff_exists]
  constructor
  · rintro ⟨m, hm, hk⟩
    obtain ⟨id, hid⟩ := mem_entries.mp hm
    obtain ⟨u, hu, -⟩ := hf.listed id m k hid hk
    exact ⟨u, hu⟩
  · rintro ⟨u, hu⟩
    obtain ⟨m, hm, hk⟩ := h.units k u hu
    exact ⟨m, mem_entries.mpr ⟨_, hm⟩, hk⟩

theorem manifest_units (g : ModuleGraph) :
    g.manifest.units = g.units.map fun p => g.unitRecord (g.unitIds.idxOf p.1) p.2 := by
  apply List.ext_getElem?
  intro n
  simp only [manifest, List.getElem?_map, List.getElem?_zipIdx, Option.map_map]
  cases hn : g.units[n]? with
  | none => rfl
  | some p => simp [idxOf_unitIds (getElem?_units.mp hn).1]

theorem manifest_modules (h : g.Filed) : g.manifest.modules =
    g.registry.entries.map fun m => ⟨m.importId, m.units.map g.unitIds.idxOf⟩ := by
  apply List.map_congr_left
  intro m hm
  obtain ⟨id, hid⟩ := mem_entries.mp hm
  have hunits : m.units.filterMap g.ordinal? = m.units.map g.unitIds.idxOf := by
    rw [List.filterMap_eq_map_iff_forall_eq_some]
    intro k hk
    obtain ⟨u, hu, -⟩ := h.listed id m k hid hk
    exact ordinal?_of_unit? hu
  rw [hunits]

theorem SoundEdges.edgeRecord? (h : g.SoundEdges) (he : e ∈ g.sortedEdges) :
    g.edgeRecord? e = some (g.unitIds.idxOf e.1, g.unitIds.idxOf e.2) := by
  obtain ⟨h₁, h₂⟩ := h.live e (List.mem_mergeSort.mp he)
  obtain ⟨u, hu⟩ := Option.isSome_iff_exists.mp h₁
  obtain ⟨v, hv⟩ := Option.isSome_iff_exists.mp h₂
  simp [ModuleGraph.edgeRecord?, ordinal?_of_unit? hu, ordinal?_of_unit? hv]

theorem manifest_edges (h : g.SoundEdges) : g.manifest.edges =
    g.sortedEdges.map fun e => (g.unitIds.idxOf e.1, g.unitIds.idxOf e.2) :=
  List.filterMap_eq_map_iff_forall_eq_some.mpr fun _ he => h.edgeRecord? he

theorem SoundEdges.mem_unitIds (h : g.SoundEdges) (he : e ∈ g.sortedEdges) :
    e.1 ∈ g.unitIds ∧ e.2 ∈ g.unitIds := by
  obtain ⟨h₁, h₂⟩ := h.live e (List.mem_mergeSort.mp he)
  exact ⟨ModuleGraph.mem_unitIds.mpr h₁, ModuleGraph.mem_unitIds.mpr h₂⟩

/-- Nothing is lost on the way from edges to records and back. -/
theorem SoundEdges.manifest_edges_perm (h : g.SoundEdges) :
    (g.manifest.edges.map fun e => (g.unitIds[e.1]?, g.unitIds[e.2]?)).Perm
      (g.edges.map fun e => (some e.1, some e.2)) := by
  have hback : (g.manifest.edges.map fun e => (g.unitIds[e.1]?, g.unitIds[e.2]?)) =
      g.sortedEdges.map fun e => (some e.1, some e.2) := by
    rw [manifest_edges h, List.map_map]
    apply List.map_congr_left
    intro e he
    obtain ⟨h₁, h₂⟩ := h.mem_unitIds he
    simp [List.getElem?_idxOf h₁, List.getElem?_idxOf h₂]
  rw [hback]
  exact (List.mergeSort_perm g.edges edgeLe).map _

theorem sortedEdges_increasing (h : g.SoundEdges) :
    g.sortedEdges.Pairwise fun a b => a.1 < b.1 ∨ a.1 = b.1 ∧ a.2 < b.2 := by
  have hle : g.sortedEdges.Pairwise fun a b => edgeLe a b = true := by
    apply List.pairwise_mergeSort
    · grind [edgeLe]
    · grind [edgeLe]
  have hne : g.sortedEdges.Nodup := (List.mergeSort_perm g.edges edgeLe).nodup_iff.mpr h.nodup
  apply hle.imp₂ _ hne
  intro a b hab hne
  simp only [edgeLe, Bool.or_eq_true, Bool.and_eq_true, decide_eq_true_eq, beq_iff_eq] at hab
  exact hab.imp_right fun h => ⟨h.1, Nat.lt_of_le_of_ne h.2 fun he => hne (Prod.ext h.1 he)⟩

theorem SoundEdges.manifest_edges_increasing (h : g.SoundEdges) :
    g.manifest.edges.Pairwise fun a b => a.1 < b.1 ∨ a.1 = b.1 ∧ a.2 < b.2 := by
  rw [manifest_edges h, List.pairwise_map]
  apply (sortedEdges_increasing h).imp_of_mem
  intro a b ha hb hab
  obtain ⟨ha₁, ha₂⟩ := h.mem_unitIds ha
  obtain ⟨hb₁, hb₂⟩ := h.mem_unitIds hb
  cases hab with
  | inl hlt => exact .inl (idxOf_unitIds_lt ha₁ hb₁ hlt)
  | inr hlt => exact .inr ⟨congrArg g.unitIds.idxOf hlt.1, idxOf_unitIds_lt ha₂ hb₂ hlt.2⟩

theorem getElem?_manifest_units {n : Nat} {record : UnitRecord} :
    g.manifest.units[n]? = some record ↔
      ∃ k u, g.unitIds[n]? = some k ∧ g.unit? k = some u ∧ g.unitRecord n u = record := by
  rw [manifest_units, List.getElem?_map, Option.map_eq_some_iff]
  constructor
  · rintro ⟨⟨k, u⟩, hp, rfl⟩
    obtain ⟨hk, hu⟩ := getElem?_units.mp hp
    exact ⟨k, u, hk, hu, by rw [idxOf_unitIds hk]⟩
  · rintro ⟨k, u, hk, hu, rfl⟩
    exact ⟨(k, u), getElem?_units.mpr ⟨hk, hu⟩, by rw [idxOf_unitIds hk]⟩

theorem unitRecord_module (hm : g.module? u.module = some m) (n : Nat) :
    (g.unitRecord n u).module = m.importId := by
  simp [unitRecord, importIdOf, hm]

theorem Registered.mem_record (h : g.Registered) (hf : g.Filed) {id : ModuleId}
    (hm : g.module? id = some m) (n : Nat) : n ∈ m.units.map g.unitIds.idxOf ↔
      ∃ record, g.manifest.units[n]? = some record ∧ record.module = m.importId := by
  rw [List.mem_map]
  constructor
  · rintro ⟨k, hk, rfl⟩
    obtain ⟨u, hu, rfl⟩ := hf.listed id m k hm hk
    exact ⟨_, getElem?_manifest_units.mpr ⟨k, u, getElem?_idxOf_unitIds hu, hu, rfl⟩,
      unitRecord_module hm _⟩
  · rintro ⟨record, hr, hname⟩
    obtain ⟨k, u, hk, hu, rfl⟩ := getElem?_manifest_units.mp hr
    obtain ⟨m', hm', hin⟩ := h.units k u hu
    rw [unitRecord_module hm'] at hname
    -- the index leads from the import id to one module only
    have hid : u.module = id := by
      have hi := hf.index u.module m' hm'
      rw [hname, hf.index id m hm] at hi
      exact (Option.some.inj hi).symm
    cases hm.symm.trans (hid ▸ hm')
    exact ⟨k, hin, idxOf_unitIds hk⟩

theorem Reachable.unitRecord_eq (hg : g.Reachable) (hu : g.unit? k = some u)
    (hm : g.module? u.module = some m) (n : Nat) : g.unitRecord n u = g.ownedRecord m n u := by
  have himports : (g.unitRecord n u).imports = (g.ownedRecord m n u).imports := by
    apply List.map_congr_left
    intro i hi
    obtain ⟨index, hindex⟩ := List.getElem?_of_mem hi
    cases hid : i.module with
    | none => rfl
    | some id =>
      obtain ⟨target, ht, -⟩ := (hg.bound k u hu).paths index i id hindex hid
      simp [importIdOf, ht]
  have hmodule := unitRecord_module hm n
  unfold unitRecord ownedRecord at *
  dsimp only at himports hmodule
  rw [himports, hmodule]

theorem Reachable.shows (hg : g.Reachable) : g.manifest.Shows g g.unitIds := by
  have hr := hg.registered
  have hf := hg.filed
  have hs := hg.soundEdges
  refine ⟨unitIds_increasing g, fun _ => mem_unitIds, ?_, ?_, ?_, ?_, ?_, hs.manifest_edges_perm,
    hs.manifest_edges_increasing⟩
  · have hids : g.manifest.units.map (·.id) = g.unitIds.map g.unitIds.idxOf := by
      simp [manifest_units, unitIds, unitRecord]
    rw [hids, map_idxOf_self (nodup_unitIds g)]
  · intro n k hk
    obtain ⟨u, hu⟩ := Option.isSome_iff_exists.mp (mem_unitIds.mp (List.mem_of_getElem? hk))
    obtain ⟨owner, ho, -⟩ := hr.units k u hu
    refine ⟨u, owner, hu, ho, ?_⟩
    rw [← hg.unitRecord_eq hu ho n]
    exact getElem?_manifest_units.mpr ⟨k, u, hk, hu, rfl⟩
  · intro importId
    simp only [manifest_modules hf, List.map_map, List.mem_map, mem_entries, Function.comp_apply]
    constructor
    · rintro ⟨entry, ⟨id, hid⟩, rfl⟩
      exact ⟨id, entry, hid, rfl⟩
    · rintro ⟨id, entry, hid, rfl⟩
      exact ⟨entry, ⟨id, hid⟩, rfl⟩
  · have hlists : g.manifest.modules.flatMap (·.units) =
        (g.registry.entries.flatMap (·.units)).map g.unitIds.idxOf := by
      rw [manifest_modules hf, List.flatMap_map, List.map_flatMap]
    rw [hlists, ← map_idxOf_self (nodup_unitIds g)]
    exact (hr.listed_perm hf).map _
  · intro r hrecord
    rw [manifest_modules hf, List.mem_map] at hrecord
    obtain ⟨m, hm, rfl⟩ := hrecord
    obtain ⟨id, hid⟩ := mem_entries.mp hm
    exact hr.mem_record hf hid

theorem nodeElement_eq (g : ModuleGraph) (n : Nat) (u : ModuleUnit) :
    g.nodeElement n u = (g.unitRecord n u).element := by
  unfold nodeElement UnitRecord.element unitRecord UnitState.name
  cases u.state <;> rfl

/-- No number is looked up in vain. -/
theorem SoundEdges.drawing? (h : g.SoundEdges) : g.drawing? = some g.manifest.drawing := by
  have hnodes : g.units.mapM g.drawnUnit? =
      some (g.manifest.units.map UnitRecord.element) := by
    rw [manifest_units, List.map_map]
    apply mapM_eq_some_map
    intro p hp
    rw [drawnUnit?, ordinal?_of_unit? (mem_units.mp hp), Option.map_some, nodeElement_eq]
    rfl
  have hedges : g.sortedEdges.zipIdx.mapM g.drawnEdge? =
      some (g.manifest.edges.zipIdx.map fun p => edgeElement p.2 p.1) := by
    rw [manifest_edges h, List.zipIdx_map, List.map_map]
    apply mapM_eq_some_map
    intro p hp
    rw [drawnEdge?, h.edgeRecord? (List.fst_mem_of_mem_zipIdx hp), Option.map_some]
    rfl
  unfold ModuleGraph.drawing?
  rw [hnodes, hedges]
  rfl

/-- Whatever was unloaded and loaded before, the manifest shows the units, the modules and the edges
of the graph, and there is a drawing, with the units and the edges of the manifest in their order. -/
theorem manifest_and_drawing_show_graph (hg : g.Reachable) :
    (∃ ids, g.manifest.Shows g ids) ∧ g.drawing? = some g.manifest.drawing :=
  ⟨⟨_, hg.shows⟩, hg.soundEdges.drawing?⟩

/-- Three units: behind an unloaded module one place is empty and one is taken again. -/
def recycledPlaces : ModuleGraph :=
  run {} [
    .addModule "app",
    .addModule "old",
    .addUnit 0 "A.lv" "" emptyProgram,
    .addUnit 1 "B.lv" "" emptyProgram,
    .addUnit 0 "C.lv" "" emptyProgram,
    .addUnit 1 "D.lv" "" emptyProgram,
    .addDependency 2 1,
    .removeModule 1,
    .addModule "a&b",
    .addUnit 2 "E.lv" "" emptyProgram,
    .addDependency 3 0,
    .addDependency 0 2]

theorem recycledPlaces_shown : recycledPlaces.edges = [(0, 2), (3, 0)] ∧
    recycledPlaces.manifest.modules = [⟨"app", [0, 1]⟩, ⟨"a&b", [2]⟩] ∧
    recycledPlaces.manifest.edges = [(0, 1), (2, 0)] ∧
    (∃ ids, recycledPlaces.manifest.Shows recycledPlaces ids) ∧
    recycledPlaces.drawing? = some recycledPlaces.manifest.drawing := by
  have hg : recycledPlaces.Reachable := ⟨{}, _, rfl⟩
  have hedges : recycledPlaces.edges = [(0, 2), (3, 0)] := by decide +kernel
  have hids : recycledPlaces.unitIds = [0, 2, 3] := by decide +kernel
  have hsorted : recycledPlaces.sortedEdges = [(0, 2), (3, 0)] := by
    rw [sortedEdges, hedges]
    exact List.mergeSort_of_pairwise (by decide)
  have hrecords : recycledPlaces.manifest.edges = [(0, 1), (2, 0)] := by
    rw [manifest_edges hg.soundEdges, hsorted, hids]
    rfl
  exact ⟨hedges, by decide +kernel, hrecords, manifest_and_drawing_show_graph hg⟩

end ModuleGraph

end ComponentCompiler
