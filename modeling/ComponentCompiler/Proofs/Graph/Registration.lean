import ComponentCompiler.Proofs.Ast.Construction
import ComponentCompiler.Proofs.Graph.Loading

namespace ComponentCompiler

namespace ModuleGraph

variable {g g' : ModuleGraph} {k : UnitId} {u : ModuleUnit} {id module : ModuleId} {m : ModuleEntry}

theorem UnitChange.module_eq {u' : ModuleUnit} (h : UnitChange u u') : u'.module = u.module := by
  cases h with
  | keep | unbind _ | bind _ _ _ | record _ _ | emit _ => rfl
  | parse =>
    unfold markParsed
    split <;> rfl

/-- Modules are found by their import ids and list units that name them; free slots are empty. -/
structure Filed (g : ModuleGraph) : Prop where
  index : ∀ id m, g.module? id = some m → g.registry.find? m.importId = some id
  listed : ∀ id m k, g.module? id = some m → k ∈ m.units → ∃ u, g.unit? k = some u ∧ u.module = id
  nodup : ∀ id m, g.module? id = some m → m.units.Nodup
  vacant : ∀ k ∈ g.free, k < g.slots.size ∧ g.unit? k = none
  freed : g.free.Nodup

theorem Filed.moduleAdded {importId : String} (h : g.Filed) (ha : g.ModuleAdded importId id g') :
    g'.Filed := by
  refine ⟨fun k m hm => ?_, fun k m i hm hin => ?_, fun k m hm => ?_, fun k hk => ?_, ?_⟩
  · rw [ha.modules] at hm
    rw [ha.index]
    split at hm
    · next hk =>
      cases hm
      rw [if_pos rfl, hk]
    · have hf := h.index k m hm
      have hne : m.importId ≠ importId := by
        intro he
        rw [he, ha.isFree.2] at hf
        cases hf
      rw [if_neg hne]
      exact hf
  · rw [ha.modules] at hm
    rw [ha.unit?_eq]
    split at hm
    · cases hm
      cases hin
    · exact h.listed k m i hm hin
  · rw [ha.modules] at hm
    split at hm
    · cases hm
      exact List.nodup_nil
    · exact h.nodup k m hm
  · rw [ha.unit?_eq, ha.slots.1]
    exact h.vacant k (ha.slots.2 ▸ hk)
  · rw [ha.slots.2]
    exact h.freed

theorem Filed.unitAdded {id : UnitId} {v : ModuleUnit} (h : g.Filed)
    (ha : g.UnitAdded module m id v g') (hv : v.module = module) : g'.Filed := by
  refine ⟨fun i e he => ?_, fun i e k he hin => ?_, fun i e he => ?_, fun k hk => ?_, ?_⟩
  · obtain ⟨m', hm', himport, -⟩ := ha.module_cases he
    rw [ha.index, ← himport]
    exact h.index i m' hm'
  · obtain ⟨m', hm', -, hunits⟩ := ha.module_cases he
    rw [ha.units]
    by_cases hk : k ∈ m'.units
    · obtain ⟨u, hu, hmod⟩ := h.listed i m' k hm' hk
      exact ⟨u, (if_neg (ha.ne hu)).trans hu, hmod⟩
    · cases hunits with
      | inl he => exact absurd (he ▸ hin) hk
      | inr he =>
        have hnew : k = id := by
          rw [he.2] at hin
          simpa [hk] using hin
        exact ⟨v, if_pos hnew, hv.trans he.1.symm⟩
  · obtain ⟨m', hm', -, hunits⟩ := ha.module_cases he
    have hd := h.nodup i m' hm'
    cases hunits with
    | inl he => exact he ▸ hd
    | inr he =>
      rw [he.2]
      refine List.nodup_append.mpr ⟨hd, by simp, fun a hin b hb => ?_⟩
      obtain ⟨u, hu, -⟩ := h.listed i m' a hm' hin
      rw [List.mem_singleton.mp hb]
      exact ha.ne hu
  · have hne : k ≠ id := fun he => ha.isFree.2 (he ▸ hk)
    rw [ha.slots.1] at hk
    obtain ⟨hlt, hnone⟩ := h.vacant k (List.mem_of_mem_tail hk)
    rw [ha.units, if_neg hne]
    exact ⟨Nat.lt_of_lt_of_le hlt ha.slots.2, hnone⟩
  · rw [ha.slots.1]
    exact h.freed.sublist (List.tail_sublist _)

/-- The units of a module are live, so their slots are all freed. -/
theorem Filed.free_moduleRemoved (h : g.Filed) (hr : g.ModuleRemoved module m g') :
    g'.free = m.units.reverse ++ g.free := by
  refine hr.free (h.nodup module m hr.entry) fun k hk => ?_
  obtain ⟨u, hu, -⟩ := h.listed module m k hr.entry hk
  simp [hu]

theorem Filed.moduleRemoved (h : g.Filed) (hr : g.ModuleRemoved module m g') : g'.Filed := by
  have hfree := h.free_moduleRemoved hr
  refine ⟨fun i e he => ?_, fun i e k he hin => ?_, fun i e he => ?_, fun k hk => ?_, ?_⟩
  · obtain ⟨hne, hold⟩ := hr.module_cases he
    have hf := h.index i e hold
    have himport : e.importId ≠ m.importId := by
      intro hc
      rw [hc, h.index module m hr.entry] at hf
      exact hne (Option.some.inj hf).symm
    rw [hr.index, if_neg himport]
    exact hf
  · obtain ⟨hne, hold⟩ := hr.module_cases he
    obtain ⟨u, hu, hmod⟩ := h.listed i e k hold hin
    -- the units that go name the module that goes
    have hout : k ∉ m.units := by
      intro hk
      obtain ⟨v, hv, hvm⟩ := h.listed module m k hr.entry hk
      cases hu.symm.trans hv
      exact hne (hmod.symm.trans hvm)
    refine ⟨unbind module u, ?_, hmod⟩
    rw [hr.units, if_neg hout, hu, Option.map_some]
  · exact h.nodup i e (hr.module_cases he).2
  · rw [hfree, List.mem_append, List.mem_reverse] at hk
    rw [hr.units, hr.size]
    cases hk with
    | inl hk =>
      obtain ⟨u, hu, -⟩ := h.listed module m k hr.entry hk
      exact ⟨lt_size_of_unit? hu, if_pos hk⟩
    | inr hk =>
      obtain ⟨hlt, hnone⟩ := h.vacant k hk
      exact ⟨hlt, by simp [hnone]⟩
  · rw [hfree]
    have hd := (List.reverse_perm m.units).symm.nodup (h.nodup module m hr.entry)
    refine List.nodup_append.mpr ⟨hd, h.freed, ?_⟩
    rintro a ha b hb rfl
    obtain ⟨u, hu, -⟩ := h.listed module m a hr.entry (List.mem_reverse.mp ha)
    rw [(h.vacant a hb).2] at hu
    cases hu

theorem Filed.update (h : g.Filed) (hu : Update g g') : g'.Filed := by
  obtain ⟨hregistry, hfree, hsize⟩ := hu.keeps
  have hm (id : ModuleId) : g'.module? id = g.module? id := by
    unfold module?
    rw [hregistry]
  refine ⟨fun id m hid => ?_, fun id m k hid hin => ?_, fun id m hid => ?_, fun k hk => ?_, ?_⟩
  · rw [hregistry]
    exact h.index id m (hm id ▸ hid)
  · obtain ⟨u, hold, hmod⟩ := h.listed id m k (hm id ▸ hid) hin
    have hk := hu.units k
    rw [hold] at hk
    generalize g'.unit? k = v at hk
    cases hk with
    | some hch => exact ⟨_, rfl, hch.module_eq.trans hmod⟩
  · exact h.nodup id m (hm id ▸ hid)
  · rw [hfree] at hk
    obtain ⟨hlt, hnone⟩ := h.vacant k hk
    have hk := hu.units k
    rw [hnone] at hk
    generalize g'.unit? k = v at hk
    cases hk with
    | none => exact ⟨hsize ▸ hlt, rfl⟩
  · rw [hfree]
    exact h.freed

theorem Filed.change (h : g.Filed) (hc : Change g g') : g'.Filed := by
  cases hc with
  | addModule ha => exact h.moduleAdded (ModuleGraph.moduleAdded ha)
  | addUnit ha =>
    obtain ⟨m, unit, -, ha⟩ := ModuleGraph.unitAdded h.vacant h.freed ha
    exact h.unitAdded ha rfl
  | removeModule hr =>
    obtain ⟨m, -, hr⟩ := ModuleGraph.moduleRemoved hr
    exact h.moduleRemoved hr
  | update hu => exact h.update hu

theorem Reachable.filed (h : g.Reachable) : g.Filed := by
  refine h.induct (P := Filed) (fun config => ?_) fun _ _ hg hc => hg.change hc
  have hnone (k : ModuleId) : module? { config } k = none := by simp [module?, Registry.get?]
  refine ⟨fun id m hm => ?_, fun id m k hm => ?_, fun id m hm => ?_, by simp, List.nodup_nil⟩
  · rw [hnone] at hm
    cases hm
  · rw [hnone] at hm
    cases hm
  · rw [hnone] at hm
    cases hm

structure Registered (g : ModuleGraph) : Prop where
  index : ∀ importId id, g.registry.find? importId = some id →
    ∃ m, g.module? id = some m ∧ m.importId = importId
  units : ∀ k u, g.unit? k = some u → ∃ m, g.module? u.module = some m ∧ k ∈ m.units

theorem Registered.of_registry_eq (h : g.Registered) (hr : g'.registry = g.registry)
    (hu : ∀ k u', g'.unit? k = some u' → ∃ u, g.unit? k = some u ∧ u'.module = u.module) :
    g'.Registered := by
  have hm (id : ModuleId) : g'.module? id = g.module? id := by
    unfold module?
    rw [hr]
  refine ⟨fun importId id hf => ?_, fun k u' hk => ?_⟩
  · rw [hm]
    exact h.index importId id (hr ▸ hf)
  · obtain ⟨u, hu, he⟩ := hu k u' hk
    rw [hm, he]
    exact h.units k u hu

theorem Registered.moduleAdded {importId : String} (h : g.Registered)
    (ha : g.ModuleAdded importId id g') : g'.Registered := by
  refine ⟨fun other i hf => ?_, fun k u hu => ?_⟩
  · rw [ha.index] at hf
    split at hf
    · next he =>
      cases hf
      exact ⟨{ importId }, by rw [ha.modules, if_pos rfl], he.symm⟩
    · obtain ⟨m, hm, hid⟩ := h.index other i hf
      exact ⟨m, ha.module?_of_some hm, hid⟩
  · rw [ha.unit?_eq] at hu
    obtain ⟨m, hm, hin⟩ := h.units k u hu
    exact ⟨m, ha.module?_of_some hm, hin⟩

theorem Registered.unitAdded {id : UnitId} {v : ModuleUnit} (h : g.Registered)
    (ha : g.UnitAdded module m id v g') (hv : v.module = module) : g'.Registered := by
  refine ⟨fun other i hf => ?_, fun k u hu => ?_⟩
  · rw [ha.index] at hf
    obtain ⟨e, he, hid⟩ := h.index other i hf
    obtain ⟨e', he', himport, -⟩ := ha.module?_of_some he
    exact ⟨e', he', himport.trans hid⟩
  · rw [ha.units] at hu
    split at hu
    · next hk =>
      cases hu
      exact ⟨_, by rw [ha.modules, if_pos hv], by simp [hk]⟩
    · obtain ⟨e, he, hin⟩ := h.units k u hu
      obtain ⟨e', he', -, hsub⟩ := ha.module?_of_some he
      exact ⟨e', he', hsub hin⟩

theorem Registered.moduleRemoved (h : g.Registered) (hr : g.ModuleRemoved module m g') :
    g'.Registered := by
  refine ⟨fun other i hf => ?_, fun k u' hu => ?_⟩
  · rw [hr.index] at hf
    split at hf
    · cases hf
    · next hother =>
      obtain ⟨e, he, hid⟩ := h.index other i hf
      have hne : i ≠ module := by
        rintro rfl
        cases hr.entry.symm.trans he
        exact hother hid.symm
      exact ⟨e, by rw [hr.modules, if_neg hne, he], hid⟩
  · rw [hr.units] at hu
    split at hu
    · cases hu
    · next hout =>
      obtain ⟨u, hold, rfl⟩ := Option.map_eq_some_iff.mp hu
      obtain ⟨e, he, hin⟩ := h.units k u hold
      -- a unit of the removed module would have been removed with it
      have hne : u.module ≠ module := by
        intro hc
        rw [hc, hr.entry] at he
        cases he
        exact hout hin
      exact ⟨e, by rw [hr.modules]; exact (if_neg hne).trans he, hin⟩

theorem Registered.change (h : g.Registered) (hf : g.Filed) (hc : Change g g') : g'.Registered := by
  cases hc with
  | addModule ha => exact h.moduleAdded (ModuleGraph.moduleAdded ha)
  | addUnit ha =>
    obtain ⟨m, unit, -, ha⟩ := ModuleGraph.unitAdded hf.vacant hf.freed ha
    exact h.unitAdded ha rfl
  | removeModule hr =>
    obtain ⟨m, -, hr⟩ := ModuleGraph.moduleRemoved hr
    exact h.moduleRemoved hr
  | update hu =>
    refine h.of_registry_eq hu.keeps.1 fun k u' hu' => ?_
    obtain ⟨u, hold, hch⟩ := hu.unit?_cases hu'
    exact ⟨u, hold, hch.module_eq⟩

theorem Reachable.registered (h : g.Reachable) : g.Registered := by
  have hboth : g.Filed ∧ g.Registered := by
    refine h.induct (P := fun g => g.Filed ∧ g.Registered) (fun config => ?_) fun _ _ hg hc =>
      ⟨hg.1.change hc, hg.2.change hg.1 hc⟩
    refine ⟨Reachable.filed ⟨config, [], rfl⟩, fun _ _ hf => ?_, fun _ _ hu => ?_⟩
    · cases hf
    · simp [unit?] at hu
  exact hboth.2

theorem importPaths_recordPath (t : ImportType) (path : String) (u : ModuleUnit) :
    (recordPath t path u).source.importPaths = u.source.importPaths := by
  unfold recordPath SourceUnit.resolveImportType?
  cases u.source.importTypes.resolve? t.qualifier t.name path <;> rfl

theorem length_imports_build {name source : String} {root : Cst.Tree} {config : Config}
    {unit : SourceUnit} (h : SourceUnit.build name source root config = .ok unit) :
    unit.imports.length = unit.importPaths.length := by
  obtain ⟨ast, hast, hb⟩ := bind_eq_ok.mp h
  cases pure_eq_ok.mp hb
  have hl := Ast.build_linked hast
  dsimp only [SourceUnit.imports]
  rw [List.length_map, List.filterMap_length_eq_length]
  intro id hid
  rw [hl.imports, List.mem_filter, beq_iff_eq] at hid
  obtain ⟨data, hk⟩ := Ast.kind?_of_import hid.2
  simp [SourceUnit.import?, hk]

theorem UnitChange.length_imports {u' : ModuleUnit} (h : UnitChange u u')
    (hl : u.imports.length = u.source.importPaths.length) :
    u'.imports.length = u'.source.importPaths.length := by
  cases h with
  | keep | emit _ => exact hl
  | unbind module => simpa [ModuleGraph.unbind] using hl
  | parse =>
    unfold markParsed
    split <;> exact hl
  | record t path =>
    rw [importPaths_recordPath]
    exact hl
  | bind uri module importId =>
    obtain ⟨importPaths, hs, hlen, -⟩ := bindUnit_source uri module importId u
    rw [hs]
    simpa [bindUnit, hlen] using hl

theorem Reachable.length_imports (h : g.Reachable) (hu : g.unit? k = some u) :
    u.imports.length = u.source.importPaths.length := by
  refine h.unit_induct (P := fun u => u.imports.length = u.source.importPaths.length) ?_ ?_ hu
  · intro module name source root config unit hb
    simpa [ModuleUnit.ofSource] using length_imports_build hb
  · exact fun u u' hl hc => hc.length_imports hl

end ModuleGraph

end ComponentCompiler
