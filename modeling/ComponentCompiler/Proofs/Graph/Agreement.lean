import ComponentCompiler.Proofs.Graph.Registration

namespace ComponentCompiler.ModuleGraph

variable {g g' : ModuleGraph} {k : UnitId} {u : ModuleUnit} {id module : ModuleId} {m : ModuleEntry}

/-- Every import statement has a place for its path, and one that is bound has the import id of a
registered module there. -/
structure Bindings (g : ModuleGraph) (u : ModuleUnit) : Prop where
  length : u.imports.length = u.source.importPaths.length
  paths : ∀ (i : Nat) (b : BoundImport) id, u.imports[i]? = some b → b.module = some id →
    ∃ m, g.module? id = some m ∧ u.source.importPaths[i]? = some (some m.importId)

def Bound (g : ModuleGraph) : Prop :=
  ∀ k u, g.unit? k = some u → g.Bindings u

theorem Bindings.congr {u' : ModuleUnit} (h : g.Bindings u) (hi : u'.imports = u.imports)
    (hp : u'.source.importPaths = u.source.importPaths) : g.Bindings u' := by
  refine ⟨?_, fun i b id => ?_⟩
  · rw [hi, hp]
    exact h.length
  · rw [hi, hp]
    exact h.paths i b id

theorem Bindings.mono (h : g.Bindings u) (hm : ∀ id m, g.module? id = some m →
    ∃ m', g'.module? id = some m' ∧ m'.importId = m.importId) : g'.Bindings u := by
  refine ⟨h.length, fun i b id hb hid => ?_⟩
  obtain ⟨m, hold, hp⟩ := h.paths i b id hb hid
  obtain ⟨m', hm', he⟩ := hm id m hold
  exact ⟨m', hm', by rw [hp, he]⟩

theorem Bindings.of_registry_eq (h : g.Bindings u) (hr : g'.registry = g.registry) :
    g'.Bindings u := by
  refine h.mono fun id m hm => ⟨m, ?_, rfl⟩
  unfold module? at hm ⊢
  rw [hr]
  exact hm

theorem Bindings.unbind (h : g.Bindings u) (hm : ∀ id, id ≠ module → g'.module? id = g.module? id) :
    g'.Bindings (unbind module u) := by
  refine ⟨(UnitChange.unbind module).length_imports h.length, fun i b' id hb' hid => ?_⟩
  obtain ⟨b, hb, rfl⟩ : ∃ b, u.imports[i]? = some b ∧
      (if b.module = some module then { b with module := none } else b) = b' := by
    simpa [ModuleGraph.unbind] using hb'
  split at hid
  · cases hid
  · next hne =>
    have hother : id ≠ module := fun he => hne (he ▸ hid)
    rw [hm id hother]
    exact h.paths i b id hb hid

theorem Bindings.bind (h : g.Bindings u) (hm : g.module? module = some m) (uri : String) :
    g.Bindings (bindUnit uri module m.importId u) := by
  refine ⟨(UnitChange.bind uri module m.importId).length_imports h.length, ?_⟩
  intro i b' id hb' hid
  obtain ⟨importPaths, hs, -, hp⟩ := bindUnit_source uri module m.importId u
  obtain ⟨b, hb, rfl⟩ : ∃ b, u.imports[i]? = some b ∧
      (if b.entry.uri = uri then { b with module := some module } else b) = b' := by
    simpa [bindUnit] using hb'
  have hmem : i ∈ importsOf u uri ↔ b.entry.uri = uri := by
    rw [mem_importsOf, hb]
    simp
  rw [hs, hp i]
  simp only [hmem]
  split at hid
  · next he =>
    cases hid
    have hlt : i < u.source.importPaths.length := by
      rw [← h.length]
      exact (List.getElem?_eq_some_iff.mp hb).1
    exact ⟨m, hm, by rw [if_pos he, List.getElem?_eq_getElem hlt, Option.map_some]⟩
  · next he =>
    rw [if_neg he]
    exact h.paths i b id hb hid

theorem bindings_ofSource {name source : String} {root : Cst.Tree} {config : Config}
    {unit : SourceUnit} (hb : SourceUnit.build name source root config = .ok unit) :
    g.Bindings (.ofSource module unit) := by
  refine ⟨by simpa [ModuleUnit.ofSource] using length_imports_build hb, fun i b id hb hid => ?_⟩
  obtain ⟨entry, -, rfl⟩ : ∃ entry, unit.imports[i]? = some entry ∧ { entry } = b := by
    simpa [ModuleUnit.ofSource] using hb
  cases hid

theorem Bound.modifyUnit {id : UnitId} {f : ModuleUnit → ModuleUnit} (h : g.Bound)
    (hf : ∀ u, g.Bindings u → g.Bindings (f u)) : (g.modifyUnit id f).Bound := by
  intro k u' hu'
  rw [unit?_modifyUnit] at hu'
  split at hu'
  · obtain ⟨u, hu, rfl⟩ := Option.map_eq_some_iff.mp hu'
    exact (hf u (h k u hu)).of_registry_eq rfl
  · exact (h k u' hu').of_registry_eq rfl

theorem Bound.update (h : g.Bound) (hu : Update g g') : g'.Bound := by
  cases hu with
  | bindImport hb =>
    obtain ⟨m, u, hm, -, -, rfl⟩ := bindImport_eq_ok.mp hb
    exact h.modifyUnit fun u hu => hu.bind hm _
  | addDependency hd =>
    obtain ⟨edges, rfl⟩ := addDependency_keeps_units hd
    exact fun k u hu => (h k u hu).of_registry_eq rfl
  | record _ _ =>
    exact h.modifyUnit fun u hu => hu.congr rfl (importPaths_recordPath _ _ u)
  | parse _ =>
    refine h.modifyUnit fun u hu => ?_
    unfold markParsed
    split
    · exact hu.congr rfl rfl
    · exact hu
  | emit _ _ => exact h.modifyUnit fun u hu => hu.congr rfl rfl

theorem Bound.change (h : g.Bound) (hf : g.Filed) (hc : Change g g') : g'.Bound := by
  cases hc with
  | addModule ha =>
    have ha := moduleAdded ha
    intro k u hu
    rw [ha.unit?_eq] at hu
    exact (h k u hu).mono fun id m hm => ⟨m, ha.module?_of_some hm, rfl⟩
  | addUnit ha =>
    obtain ⟨m, unit, hb, ha⟩ := unitAdded hf.vacant hf.freed ha
    intro k u hu
    rw [ha.units] at hu
    split at hu
    · cases hu
      exact bindings_ofSource hb
    · refine (h k u hu).mono fun id e he => ?_
      obtain ⟨e', he', himport, -⟩ := ha.module?_of_some he
      exact ⟨e', he', himport⟩
  | removeModule hr =>
    obtain ⟨m, -, hr⟩ := moduleRemoved hr
    intro k u' hu'
    rw [hr.units] at hu'
    split at hu'
    · cases hu'
    · obtain ⟨u, hu, rfl⟩ := Option.map_eq_some_iff.mp hu'
      refine (h k u hu).unbind fun id hid => ?_
      rw [hr.modules, if_neg hid]
  | update hu => exact h.update hu

theorem Reachable.bound (h : g.Reachable) : g.Bound := by
  have hboth : g.Filed ∧ g.Bound := by
    refine h.induct (P := fun g => g.Filed ∧ g.Bound) (fun config => ?_) fun _ _ hg hc =>
      ⟨hg.1.change hc, hg.2.change hg.1 hc⟩
    refine ⟨Reachable.filed ⟨config, [], rfl⟩, fun k u hu => ?_⟩
    simp [unit?] at hu
  exact hboth.2

/-- The index leads from import ids to modules and back, every unit is listed once, by its own
module, and import statements are bound to modules that are there. -/
structure Agrees (g : ModuleGraph) : Prop where
  index : ∀ importId id, g.registry.find? importId = some id ↔
    ∃ m, g.module? id = some m ∧ m.importId = importId
  unique : ∀ id id' m m', g.module? id = some m → g.module? id' = some m' →
    m.importId = m'.importId → id = id'
  nodup : ∀ id m, g.module? id = some m → m.units.Nodup
  live : ∀ id m k, g.module? id = some m → k ∈ m.units → (g.unit? k).isSome
  partition : ∀ k u, g.unit? k = some u →
    ∀ id, (∃ m, g.module? id = some m ∧ k ∈ m.units) ↔ u.module = id
  bindings : ∀ k u, g.unit? k = some u →
    ∀ b ∈ u.imports, ∀ id, b.module = some id → (g.module? id).isSome
  length : ∀ k u, g.unit? k = some u → u.imports.length = u.source.importPaths.length
  paths : ∀ k u, g.unit? k = some u → ∀ (i : Nat) (b : BoundImport) id m,
    u.imports[i]? = some b → b.module = some id → g.module? id = some m →
      u.source.importPaths[i]? = some (some m.importId)

/-- Whatever is called on an empty graph, in whatever order and with whatever success, the registry
and the units agree. -/
theorem run_registry_agrees (config : Config) (calls : List GraphCall) :
    Agrees (run { config } calls) := by
  have hg : Reachable (run { config } calls) := ⟨config, calls, rfl⟩
  have hr := hg.registered
  have hf := hg.filed
  have hb := hg.bound
  refine ⟨?_, ?_, hf.nodup, ?_, ?_, ?_, fun k u hu => (hb k u hu).length, ?_⟩
  · intro importId id
    refine ⟨hr.index importId id, ?_⟩
    rintro ⟨m, hm, rfl⟩
    exact hf.index id m hm
  · intro id id' m m' hm hm' he
    have h := hf.index id m hm
    rw [he, hf.index id' m' hm'] at h
    exact (Option.some.inj h).symm
  · intro id m k hm hk
    obtain ⟨u, hu, -⟩ := hf.listed id m k hm hk
    simp [hu]
  · intro k u hu id
    constructor
    · rintro ⟨m, hm, hk⟩
      obtain ⟨v, hv, hmod⟩ := hf.listed id m k hm hk
      cases hu.symm.trans hv
      exact hmod
    · rintro rfl
      exact hr.units k u hu
  · intro k u hu b hb' id hid
    obtain ⟨i, hi⟩ := List.getElem?_of_mem hb'
    obtain ⟨m, hm, -⟩ := (hb k u hu).paths i b id hi hid
    simp [hm]
  · intro k u hu i b id m hi hid hm
    obtain ⟨m', hm', hp⟩ := (hb k u hu).paths i b id hi hid
    cases hm.symm.trans hm'
    exact hp

end ComponentCompiler.ModuleGraph
