import ComponentCompiler.Project.Build
import ComponentCompiler.Proofs.Graph.CompileStates
import ComponentCompiler.Proofs.Graph.Handles
import Mathlib.Data.List.Nodup

namespace ComponentCompiler

namespace Project

abbrev Listing := String × UnitFiles

def listings (p : Project) : List Listing :=
  p.modules.flatMap fun m => m.units.map fun f => (m.importId, f)

def unitName (root : String) (config : Config) (f : UnitFiles) : String :=
  config.modules.unitName (Volume.fileName (Volume.join root f.source))

/-- The unit is what its files hold. -/
def LoadedFrom (v : Volume) (root : String) (config : Config) (f : UnitFiles) (u : ModuleUnit) :
    Prop :=
  ∃ source treeText table tree unit, v.textAt? (Volume.join root f.source) = some source ∧
    v.textAt? (Volume.join root f.tree) = some treeText ∧
    Cst.Table.parse? treeText = some table ∧ table.tree? = some tree ∧
    SourceUnit.build (unitName root config f) source tree config = .ok unit ∧
    u.origin = (ModuleUnit.ofSource u.module unit).origin

def Holds (v : Volume) (root : String) (config : Config) (g : ModuleGraph) (l : Listing)
    (id : UnitId) : Prop :=
  ∃ u m, g.unit? id = some u ∧ g.module? u.module = some m ∧ m.importId = l.1 ∧
    LoadedFrom v root config l.2 u

/-- Units and modules of a graph are found again in another one. -/
structure Continues (g g' : ModuleGraph) : Prop where
  units : ∀ k u, g.unit? k = some u → ∃ u', g'.unit? k = some u' ∧ u'.origin = u.origin
  modules : ∀ i m, g.module? i = some m →
    ∃ m', g'.module? i = some m' ∧ m'.importId = m.importId

variable {v : Volume} {root : String} {config : Config} {g g' : ModuleGraph} {module : ModuleId}
  {id : UnitId} {ids : List UnitId} {l : Listing} {ls : List Listing} {f : UnitFiles}
  {importId : String} {importIds : List String} {loaded loaded' : Loaded} {order : List UnitId}

theorem Holds.continues (h : Holds v root config g l id) (hc : Continues g g') :
    Holds v root config g' l id := by
  obtain ⟨u, m, hu, hm, himport, source, treeText, table, tree, unit, hs, ht, hp,
    htree, hb, ho⟩ := h
  obtain ⟨u', hu', hsame⟩ := hc.units id u hu
  obtain ⟨m', hm', himport'⟩ := hc.modules u.module m hm
  have hmodule : u'.module = u.module := congrArg (·.1) hsame
  refine ⟨u', m', hu', hmodule ▸ hm', himport'.trans himport, source, treeText, table, tree,
    unit, hs, ht, hp, htree, hb, ?_⟩
  rw [hsame, ho, hmodule]

theorem continues_of_moduleAdded (ha : g.ModuleAdded importId module g') : Continues g g' :=
  ⟨fun k u hu => ⟨u, (ha.unit?_eq k).trans hu, rfl⟩,
    fun _ m hm => ⟨m, ha.module?_of_some hm, rfl⟩⟩

theorem continues_of_unitAdded {m : ModuleEntry} {u : ModuleUnit}
    (ha : g.UnitAdded module m id u g') : Continues g g' := by
  refine ⟨fun k w hw => ⟨w, ?_, rfl⟩, fun i e he => ?_⟩
  · rw [ha.units, if_neg (ha.ne hw), hw]
  · obtain ⟨e', he', himport, -⟩ := ha.module?_of_some he
    exact ⟨e', he', himport⟩

theorem continues_of_updates (h : ModuleGraph.Updates g g') : Continues g g' := by
  refine ⟨fun k u hu => ?_, fun i m hm => ⟨m, ?_, rfl⟩⟩
  · have hk := h.origin_eq k
    rw [hu] at hk
    exact Option.map_eq_some_iff.mp hk
  · rw [ModuleGraph.module?, h.keeps.1]
    exact hm

structure Loads (v : Volume) (root : String) (config : Config) (ls : List Listing)
    (importIds : List String) (ids : List UnitId) (g : ModuleGraph) : Prop where
  reachable : g.Reachable
  config_eq : g.config = config
  units : List.Forall₂ (Holds v root config g) ls ids
  nodup : ids.Nodup
  live : ∀ k, k ∈ ids ↔ (g.unit? k).isSome
  distinct : importIds.Nodup
  registered : ∀ i ∈ importIds, (g.registry.find? i).isSome

theorem loads_nil (v : Volume) (root : String) (config : Config) :
    Loads v root config [] [] [] { config } :=
  ⟨⟨config, [], rfl⟩, rfl, .nil, List.nodup_nil, by simp [ModuleGraph.unit?], List.nodup_nil,
    by simp⟩

theorem Loads.addModule (h : Loads v root config ls importIds ids g)
    (ha : g.addModule importId = .ok (module, g')) :
    Loads v root config ls (importIds ++ [importId]) ids g' ∧
      ∃ m, g'.module? module = some m ∧ m.importId = importId := by
  have hadded := ModuleGraph.moduleAdded ha
  have hreachable : g'.Reachable := by
    have hcall := h.reachable.perform (.addModule importId)
    rwa [ModuleGraph.perform, ha] at hcall
  -- The registry refuses an import id that it has.
  have hnew : importId ∉ importIds := by
    intro hin
    have hfound := h.registered importId hin
    rw [hadded.isFree.2] at hfound
    cases hfound
  refine ⟨⟨hreachable, ?_, ?_, h.nodup, fun k => ?_, ?_, fun i hi => ?_⟩,
    _, by rw [hadded.modules, if_pos rfl], rfl⟩
  · obtain ⟨registry, -, rfl⟩ := ModuleGraph.addModule_eq_ok.mp ha
    exact h.config_eq
  · exact h.units.imp fun _ _ hl => hl.continues (continues_of_moduleAdded hadded)
  · rw [hadded.unit?_eq]
    exact h.live k
  · exact h.distinct.append (List.nodup_singleton _) (by simpa using hnew)
  · rw [hadded.index]
    split
    · rfl
    · next hne =>
      cases List.mem_append.mp hi with
      | inl hi => exact h.registered i hi
      | inr hi => exact absurd (List.mem_singleton.mp hi) hne

theorem addUnit_of_loadUnit (h : loadUnit v root module g f = .ok (id, g')) :
    ∃ source treeText table tree, v.textAt? (Volume.join root f.source) = some source ∧
      v.textAt? (Volume.join root f.tree) = some treeText ∧
      Cst.Table.parse? treeText = some table ∧ table.tree? = some tree ∧
      g.addUnit module (Volume.fileName (Volume.join root f.source)) source tree =
        .ok (id, g') := by
  unfold loadUnit at h
  dsimp only at h
  split at h
  · next source hs =>
    split at h
    · next treeText ht =>
      split at h
      · next table hp =>
        split at h
        · next tree htree =>
          exact ⟨source, treeText, table, tree, hs, ht, hp, htree, ok_of_mapError.mp h⟩
        · cases h
      · cases h
    · cases h
  · cases h

theorem Loads.addUnit {m : ModuleEntry} (h : Loads v root config ls importIds ids g)
    (hm : g.module? module = some m) (hu : loadUnit v root module g f = .ok (id, g')) :
    Loads v root config (ls ++ [(m.importId, f)]) importIds (ids ++ [id]) g' ∧
      ∃ m', g'.module? module = some m' ∧ m'.importId = m.importId := by
  obtain ⟨source, treeText, table, tree, hs, ht, hp, htree, ha⟩ := addUnit_of_loadUnit hu
  have hfiled := h.reachable.filed
  have hreachable : g'.Reachable := by
    have hcall := h.reachable.perform
      (.addUnit module (Volume.fileName (Volume.join root f.source)) source tree)
    rwa [ModuleGraph.perform, ha] at hcall
  obtain ⟨m', unit, hb, hadded⟩ := ModuleGraph.unitAdded hfiled.vacant hfiled.freed ha
  have hcontinues := continues_of_unitAdded hadded
  have hid : id ∉ ids := by
    intro hin
    have hfull := (h.live id).mp hin
    rw [hadded.isFree.1] at hfull
    cases hfull
  obtain ⟨e, he, himport⟩ := hcontinues.modules module m hm
  refine ⟨⟨hreachable, ?_, ?_, ?_, fun k => ?_, h.distinct, fun i hi => ?_⟩, e, he, himport⟩
  · obtain ⟨_, _, -, -, -, rfl⟩ := ModuleGraph.addUnit_eq_ok.mp ha
    rw [← h.config_eq]
    unfold ModuleGraph.place
    cases g.free <;> rfl
  · refine List.rel_append (h.units.imp fun _ _ hl => hl.continues hcontinues) (.cons ?_ .nil)
    refine ⟨.ofSource module unit, e, by rw [hadded.units, if_pos rfl], he, himport, source,
      treeText, table, tree, unit, hs, ht, hp, htree, ?_, rfl⟩
    rw [unitName, ← h.config_eq]
    exact hb
  · exact h.nodup.append (List.nodup_singleton _) (by simpa using hid)
  · rw [hadded.units, List.mem_append, List.mem_singleton, h.live k]
    by_cases hk : k = id <;> simp [hk]
  · rw [hadded.index]
    exact h.registered i hi

theorem Loads.loadModule {m : ModuleFiles} (h : Loads v root config ls importIds loaded.1 loaded.2)
    (hl : loadModule v root loaded m = .ok loaded') :
    Loads v root config (ls ++ m.units.map fun f => (m.importId, f)) (importIds ++ [m.importId])
      loaded'.1 loaded'.2 := by
  unfold Project.loadModule at hl
  rw [bind_eq_ok] at hl
  obtain ⟨⟨module, g⟩, ha, hunits⟩ := hl
  obtain ⟨hadded, hm⟩ := h.addModule (ok_of_mapError.mp ha)
  -- The module stays registered while its units are added.
  refine (foldlM_induct (P := fun done (state : Loaded) =>
    Loads v root config (ls ++ done.map fun f => (m.importId, f)) (importIds ++ [m.importId])
      state.1 state.2 ∧ ∃ e, state.2.module? module = some e ∧ e.importId = m.importId)
    hunits ⟨by simpa using hadded, hm⟩ ?_).1
  rintro done f ⟨ids, g⟩ acc' ⟨hstate, e, he, himport⟩ hstep
  obtain ⟨⟨id, g'⟩, hu, hok⟩ := bind_eq_ok.mp hstep
  cases hok
  obtain ⟨hnext, e', he', himport'⟩ := hstate.addUnit he hu
  refine ⟨?_, e', he', himport'.trans himport⟩
  rw [himport, List.append_assoc] at hnext
  rwa [List.map_append, List.map_singleton]

/-- Every unit listed is loaded, and no module is listed twice. -/
theorem loads_of_loadModules {p : Project} (h : p.loadModules v root config = .ok loaded) :
    Loads v root config p.listings (p.modules.map (·.importId)) loaded.1 loaded.2 := by
  refine foldlM_induct (P := fun (done : List ModuleFiles) (state : Loaded) =>
    Loads v root config (done.flatMap fun m => m.units.map fun f => (m.importId, f))
      (done.map (·.importId)) state.1 state.2) h (loads_nil v root config) ?_
  intro done m state state' hstate hstep
  simpa using hstate.loadModule hstep

theorem updates_of_link (hg : g.Reachable) (h : ids.foldlM (fun g id => do
      return (← (g.linkImports id).mapError BuildError.graph).2) g = .ok g') :
    g'.Reachable ∧ ModuleGraph.Updates g g' := by
  refine foldlM_induct (P := fun _ g' => g'.Reachable ∧ ModuleGraph.Updates g g') h ⟨hg, .refl⟩ ?_
  rintro - id b b' ⟨hb, hupdates⟩ hstep
  obtain ⟨⟨missing, c⟩, hlink, hok⟩ := bind_eq_ok.mp hstep
  cases hok
  have hl := ok_of_mapError.mp hlink
  have hcall := hb.perform (.linkImports id)
  rw [ModuleGraph.perform, hl] at hcall
  exact ⟨hcall, hupdates.trans (ModuleGraph.linkImports_updates hl)⟩

theorem compileUnits_eq_ok : compileUnits loaded = .ok (order, g) ↔ ∃ g₁,
    loaded.1.foldlM (fun g id => do
      return (← (g.linkImports id).mapError BuildError.graph).2) loaded.2 = .ok g₁ ∧
    g₁.compileAll = (.ok order, g) := by
  unfold compileUnits
  rw [bind_eq_ok]
  refine exists_congr fun g₁ => and_congr_right fun _ => ?_
  split
  · next h =>
    rw [h, pure_eq_ok]
    simp
  · next h =>
    rw [h]
    simp [throw, throwThe, MonadExceptOf.throw]

/-- Each unit that is listed is compiled, and nothing else is. -/
theorem Loads.compileUnits (h : Loads v root config ls importIds loaded.1 loaded.2)
    (hc : compileUnits loaded = .ok (order, g)) :
    order.Perm loaded.1 ∧ List.Forall₂ (Holds v root config g) ls loaded.1 ∧
      ∀ k u, g.unit? k = some u → ∃ code, u.source.script = .ok code ∧ u.output = some code := by
  obtain ⟨g₁, hlink, hcompile⟩ := compileUnits_eq_ok.mp hc
  obtain ⟨hreachable, hlinked⟩ := updates_of_link h.reachable hlink
  have hcompiled : ModuleGraph.Updates g₁ g := by
    have hu := ModuleGraph.compileAll_updates g₁
    rwa [hcompile] at hu
  have hupdates : ModuleGraph.Updates loaded.2 g := hlinked.trans hcompiled
  obtain ⟨g₂, hresolved, hemitted⟩ : ∃ g₂ : ModuleGraph, g₂.IsCompileOrder order ∧
      g₂.Emitted order g := by
    cases hreachable.compileAll_cases with
    | inl hcycle =>
      obtain ⟨path, g', he, -⟩ := hcycle
      cases hcompile.symm.trans he
    | inr hrest =>
      cases hrest with
      | inl hok =>
        obtain ⟨order', g', g₂, he, ho, hem⟩ := hok
        cases hcompile.symm.trans he
        exact ⟨g₂, ho, hem⟩
      | inr hfail =>
        obtain ⟨e, g', he⟩ := hfail
        cases hcompile.symm.trans he
  have horder := hemitted.isCompileOrder hresolved
  refine ⟨?_, h.units.imp fun _ _ hl => hl.continues (continues_of_updates hupdates),
    fun k u hu => (hemitted.compiled hresolved hu).2⟩
  -- Both lists name the units of the graph once each.
  rw [List.perm_ext_iff_of_nodup horder.nodup h.nodup]
  intro k
  have hsame := congrArg Option.isSome (hupdates.origin_eq k)
  rw [Option.isSome_map, Option.isSome_map] at hsame
  rw [horder.live, h.live, hsame]

end Project

end ComponentCompiler
