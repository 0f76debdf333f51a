import ComponentCompiler.Proofs.Graph.Acyclic
import ComponentCompiler.Proofs.Graph.Agreement

namespace ComponentCompiler.ModuleGraph

variable {g g' : ModuleGraph} {u : ModuleUnit} {module : ModuleId} {m : ModuleEntry}

/-- The import statement is the same, and so is its binding, unless that was to the module. -/
structure Released (module : ModuleId) (b b' : BoundImport) : Prop where
  entry : b'.entry = b.entry
  binding : ∀ id, b'.module = some id ↔ b.module = some id ∧ id ≠ module

structure Kept (module : ModuleId) (u u' : ModuleUnit) : Prop where
  imports : List.Forall₂ (Released module) u.imports u'.imports
  owner : u'.module = u.module
  source : u'.source = u.source
  state : u'.state = u.state
  exports : u'.exports = u.exports
  output : u'.output = u.output

/-- From `g` to `g'` the module `m` was unloaded, and nothing else happened. -/
structure Unloaded (g : ModuleGraph) (module : ModuleId) (m : ModuleEntry) (g' : ModuleGraph) :
    Prop where
  /-- The units that go are those of the module. -/
  own : ∀ k u, g.unit? k = some u → (k ∈ m.units ↔ u.module = module)
  live : ∀ k, (g'.unit? k).isSome ↔ (g.unit? k).isSome ∧ k ∉ m.units
  kept : ∀ k u', g'.unit? k = some u' → ∃ u, g.unit? k = some u ∧ Kept module u u'
  edges : g'.edges = g.edges.filter fun e => (g'.unit? e.1).isSome && (g'.unit? e.2).isSome
  gone : g'.module? module = none
  modules : ∀ id, id ≠ module → g'.module? id = g.module? id
  free : g'.registry.find? m.importId = none ∧ ∃ id h, g'.addModule m.importId = .ok (id, h)
  index : ∀ importId, importId ≠ m.importId →
    g'.registry.find? importId = g.registry.find? importId
  config : g'.config = g.config

theorem kept_unbind : Kept module u (unbind module u) := by
  refine ⟨?_, rfl, rfl, rfl, rfl, rfl⟩
  refine List.forall₂_map_right_iff.mpr (List.forall₂_same.mpr fun b _ => ?_)
  split
  · next hb => exact ⟨rfl, by simp [hb, eq_comm]⟩
  · next hb =>
    refine ⟨rfl, fun id => (and_iff_left_of_imp fun hid => ?_).symm⟩
    rintro rfl
    exact hb hid

theorem mem_units_iff (hf : g.Filed) (hr : g.Registered) (hm : g.module? module = some m)
    {k : UnitId} (hu : g.unit? k = some u) : k ∈ m.units ↔ u.module = module := by
  constructor
  · intro hk
    obtain ⟨v, hv, hmodule⟩ := hf.listed module m k hm hk
    cases hu.symm.trans hv
    exact hmodule
  · rintro rfl
    obtain ⟨m', hm', hk⟩ := hr.units k u hu
    cases hm.symm.trans hm'
    exact hk

theorem edges_removeModule (he : g.SoundEdges) {removed : List UnitId}
    (h : g.removeModule module = .ok (removed, g'))
    (hlive : ∀ k, (g'.unit? k).isSome ↔ (g.unit? k).isSome ∧ k ∉ removed) :
    g'.edges = g.edges.filter fun e => (g'.unit? e.1).isSome && (g'.unit? e.2).isSome := by
  have hedges : g'.edges =
      g.edges.filter fun e => !removed.contains e.1 && !removed.contains e.2 := by
    obtain ⟨m, registry, -, -, rfl⟩ := removeModule_eq_ok.mp h
    exact edges_foldl_removeUnit (g := { g with registry }) removed he.live
  rw [hedges]
  refine List.filter_congr fun e hmem => ?_
  obtain ⟨hstart, hend⟩ := he.live e hmem
  rw [Bool.eq_iff_iff]
  simp [hlive, hstart, hend]

theorem addModule_of_free {importId : String} (h : g.registry.find? importId = none) :
    ∃ id h, g.addModule importId = .ok (id, h) := by
  have hfree : g.registry.index.contains importId = false := by
    rw [Dictionary.contains, ← Registry.find?, h, Option.isSome_none]
  rw [addModule, Registry.add?, hfree]
  exact ⟨_, _, rfl⟩

theorem unloaded (hg : g.Reachable) {removed : List UnitId}
    (h : g.removeModule module = .ok (removed, g')) :
    ∃ m, m.units = removed ∧ g.module? module = some m ∧ g.Unloaded module m g' := by
  obtain ⟨m, rfl, hr⟩ := moduleRemoved h
  have hlive (k : UnitId) : (g'.unit? k).isSome ↔ (g.unit? k).isSome ∧ k ∉ m.units := by
    rw [hr.units]
    by_cases hk : k ∈ m.units <;> simp [hk]
  have hfree : g'.registry.find? m.importId = none := by rw [hr.index, if_pos rfl]
  refine ⟨m, rfl, hr.entry, ?_⟩
  constructor
  case own => exact fun k u hu => mem_units_iff hg.filed hg.registered hr.entry hu
  case live => exact hlive
  case kept =>
    intro k u' hu'
    rw [hr.units] at hu'
    split at hu'
    · cases hu'
    · obtain ⟨u, hu, rfl⟩ := Option.map_eq_some_iff.mp hu'
      exact ⟨u, hu, kept_unbind⟩
  case edges => exact edges_removeModule hg.soundEdges h hlive
  case gone => rw [hr.modules, if_pos rfl]
  case modules => exact fun id hid => by rw [hr.modules, if_neg hid]
  case free => exact ⟨hfree, addModule_of_free hfree⟩
  case index => exact fun importId hid => by rw [hr.index, if_neg hid]
  case config =>
    obtain ⟨m, registry, -, -, rfl⟩ := removeModule_eq_ok.mp h
    exact (registry_foldl_removeUnit _ _).2

theorem removeModule_of_none (h : g.module? module = none) :
    g.removeModule module = .error (.unknownModule module) := by
  rw [removeModule, Registry.remove?, ← module?, h, Option.map_none]

theorem removeModule_of_some (h : g.module? module = some m) :
    ∃ g', g.removeModule module = .ok (m.units, g') := by
  rw [removeModule, Registry.remove?, ← module?, h, Option.map_some]
  exact ⟨_, rfl⟩

/-- Unloading fails for a module that is not there, and changes nothing. Otherwise it returns the
units of the module, in their order, and does no more than unload it. -/
theorem removeModule_exact (hg : g.Reachable) (module : ModuleId) :
    (g.module? module = none → g.removeModule module = .error (.unknownModule module) ∧
      g.perform (.removeModule module) = g) ∧
    ∀ m, g.module? module = some m → ∃ g', g.removeModule module = .ok (m.units, g') ∧
      g.perform (.removeModule module) = g' ∧ g.Unloaded module m g' := by
  refine ⟨fun hm => ?_, fun m hm => ?_⟩
  · have hfail := removeModule_of_none hm
    exact ⟨hfail, by rw [perform, hfail, orKeep]⟩
  · obtain ⟨g', hok⟩ := removeModule_of_some hm
    obtain ⟨m', -, hm', hunloaded⟩ := unloaded hg hok
    cases hm.symm.trans hm'
    exact ⟨g', hok, by rw [perform, hok, orKeep], hunloaded⟩

def neighbours : ModuleGraph :=
  run {} [
    .addModule "app",
    .addModule "lib",
    .addModule "base",
    .addUnit 0 "A.lv" "import lib\nimport base" (.node { kind := "program", span := ⟨0, 22⟩ } [
      .node { kind := "import_statement", span := ⟨0, 10⟩ } [
        .node { kind := "import", span := ⟨0, 6⟩, named := false } [],
        .node { kind := "import_path", span := ⟨7, 10⟩ } [
          .node { kind := "identifier", span := ⟨7, 10⟩ } []]],
      .node { kind := "import_statement", span := ⟨11, 22⟩ } [
        .node { kind := "import", span := ⟨11, 17⟩, named := false } [],
        .node { kind := "import_path", span := ⟨18, 22⟩ } [
          .node { kind := "identifier", span := ⟨18, 22⟩ } []]]]),
    .addUnit 1 "L.lv" "" (.node { kind := "program", span := ⟨0, 0⟩ } []),
    .addUnit 2 "B.lv" "" (.node { kind := "program", span := ⟨0, 0⟩ } []),
    .linkImports 0,
    .addDependency 0 1,
    .addDependency 1 2,
    .addDependency 0 2]

theorem neighbours_unloaded :
    neighbours.edges = [(0, 2), (1, 2), (0, 1)] ∧
    (neighbours.unit? 0).map ModuleUnit.imports =
      some [⟨⟨"lib", "", false⟩, some 1⟩, ⟨⟨"base", "", false⟩, some 2⟩] ∧
    ∃ g', neighbours.removeModule 1 = .ok ([1], g') ∧ neighbours.Unloaded 1 ⟨"lib", [1]⟩ g' ∧
      g'.edges = [(0, 2)] ∧ (g'.unit? 0).map ModuleUnit.imports =
        some [⟨⟨"lib", "", false⟩, none⟩, ⟨⟨"base", "", false⟩, some 2⟩] := by
  have hm : neighbours.module? 1 = some ⟨"lib", [1]⟩ := by decide +kernel
  have hreach : neighbours.Reachable := ⟨{}, _, rfl⟩
  obtain ⟨g', hok, -, hunloaded⟩ := (removeModule_exact hreach 1).2 _ hm
  have hleft : (neighbours.removeModule 1).toOption.map
      (fun r => (r.2.edges, (r.2.unit? 0).map ModuleUnit.imports)) = some ([(0, 2)],
        some [⟨⟨"lib", "", false⟩, none⟩, ⟨⟨"base", "", false⟩, some 2⟩]) := by decide +kernel
  rw [hok] at hleft
  obtain ⟨hedges, himports⟩ := Prod.mk.inj (Option.some.inj hleft)
  exact ⟨by decide +kernel, by decide +kernel, g', hok, hunloaded, hedges, himports⟩

end ComponentCompiler.ModuleGraph
