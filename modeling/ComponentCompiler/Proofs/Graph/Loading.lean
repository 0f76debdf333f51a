import ComponentCompiler.Proofs.Graph.Change

namespace ComponentCompiler

namespace Registry

variable {r r' : Registry} {importId : String} {id k : ModuleId} {m : ModuleEntry}

theorem isFree_of_add (h : r.add? importId = some (id, r')) : r.get? id = none := by
  unfold add? at h
  split at h
  · cases h
  · cases h
    simp [get?]

theorem find?_none_of_add (h : r.add? importId = some (id, r')) : r.find? importId = none := by
  unfold add? at h
  split at h
  · cases h
  · next hc => simpa [Dictionary.contains, find?] using hc

theorem get?_of_add (h : r.add? importId = some (id, r')) :
    r'.get? k = if k = id then some { importId } else r.get? k := by
  unfold add? at h
  split at h
  · cases h
  · cases h
    simp only [get?, Array.getElem?_push]
    split <;> rfl

theorem find?_of_add (h : r.add? importId = some (id, r')) (other : String) :
    r'.find? other = if other = importId then some id else r.find? other := by
  unfold add? at h
  split at h
  · cases h
  · cases h
    exact Dictionary.get?_insert r.index importId other _

theorem isTaken_of_remove (h : r.remove? id = some (m, r')) : r.get? id = some m := by
  obtain ⟨m', hm, he⟩ := Option.map_eq_some_iff.mp h
  cases he
  exact hm

theorem get?_of_remove (h : r.remove? id = some (m, r')) :
    r'.get? k = if k = id then none else r.get? k := by
  obtain ⟨m', -, he⟩ := Option.map_eq_some_iff.mp h
  cases he
  exact join_getElem?_modify rfl r.modules id k

theorem find?_of_remove (h : r.remove? id = some (m, r')) (other : String) :
    r'.find? other = if other = m.importId then none else r.find? other := by
  obtain ⟨m', hm, he⟩ := Option.map_eq_some_iff.mp h
  cases he
  exact Dictionary.get?_erase r.index m.importId other

theorem get?_addUnit (r : Registry) (id k : ModuleId) (unit : UnitId) :
    (r.addUnit id unit).get? k =
      if k = id then (r.get? k).map fun m => { m with units := m.units ++ [unit] }
      else r.get? k :=
  join_getElem?_modify rfl r.modules id k

end Registry

namespace ModuleGraph

variable {g g' : ModuleGraph} {k : UnitId} {u : ModuleUnit} {id module : ModuleId} {m : ModuleEntry}

theorem lt_size_of_unit? (h : g.unit? k = some u) : k < g.slots.size := by
  apply Nat.lt_of_not_le
  intro hk
  simp [unit?, Array.getElem?_eq_none hk] at h

theorem unit?_place_fst (hf : ∀ k ∈ g.free, k < g.slots.size ∧ g.unit? k = none) (u : ModuleUnit) :
    g.unit? (g.place u).1 = none := by
  unfold place
  cases h : g.free with
  | nil => simp [unit?]
  | cons id free => exact (hf id (h ▸ List.mem_cons_self)).2

theorem unit?_place (hf : ∀ k ∈ g.free, k < g.slots.size ∧ g.unit? k = none) (u : ModuleUnit)
    (k : UnitId) : (g.place u).2.unit? k = if k = (g.place u).1 then some u else g.unit? k := by
  by_cases hk : k = (g.place u).1
  · rw [if_pos hk, hk]
    unfold place
    cases h : g.free with
    | nil => simp [unit?]
    | cons id free =>
      have hlt : id < g.slots.size := (hf id (h ▸ List.mem_cons_self)).1
      simp only [unit?, Array.getElem?_modify, ↓reduceIte, Array.getElem?_eq_getElem hlt,
        Option.map_some, Option.join_some]
  · rw [if_neg hk, unit?_place_of_ne hk]

theorem place_free (g : ModuleGraph) (u : ModuleUnit) : (g.place u).2.free = g.free.tail := by
  unfold place
  cases g.free <;> rfl

theorem place_fst_notMem (hf : g.free.Nodup) (u : ModuleUnit) : (g.place u).1 ∉ g.free.tail := by
  unfold place
  cases h : g.free with
  | nil => simp
  | cons id free =>
    rw [h] at hf
    exact (List.nodup_cons.mp hf).1

theorem size_place (g : ModuleGraph) (u : ModuleUnit) :
    g.slots.size ≤ (g.place u).2.slots.size := by
  unfold place
  cases g.free <;> simp

/-- The slots of live units are freed, the last one to be used first. -/
theorem free_foldl_removeUnit {ids : List UnitId} (hd : ids.Nodup)
    (hl : ∀ k ∈ ids, (g.unit? k).isSome) :
    (ids.foldl removeUnit g).free = ids.reverse ++ g.free := by
  induction ids generalizing g with
  | nil => rfl
  | cons id rest ih =>
    obtain ⟨hnew, hd⟩ := List.nodup_cons.mp hd
    obtain ⟨u, hu⟩ := Option.isSome_iff_exists.mp (hl id List.mem_cons_self)
    have hfree : (g.removeUnit id).free = id :: g.free := by simp [removeUnit, hu]
    have hrest : ∀ k ∈ rest, ((g.removeUnit id).unit? k).isSome := by
      intro k hk
      have hne : k ≠ id := fun he => hnew (he ▸ hk)
      rw [unit?_removeUnit, if_neg hne]
      exact hl k (List.mem_cons_of_mem id hk)
    rw [List.foldl_cons, ih hd hrest, hfree]
    simp

theorem size_foldl_removeUnit (ids : List UnitId) (g : ModuleGraph) :
    (ids.foldl removeUnit g).slots.size = g.slots.size := by
  induction ids generalizing g with
  | nil => rfl
  | cons id rest ih =>
    rw [List.foldl_cons, ih]
    unfold removeUnit
    split <;> simp

structure ModuleAdded (g : ModuleGraph) (importId : String) (id : ModuleId) (g' : ModuleGraph) :
    Prop where
  isFree : g.module? id = none ∧ g.registry.find? importId = none
  modules : ∀ k, g'.module? k = if k = id then some { importId } else g.module? k
  index : ∀ other, g'.registry.find? other =
    if other = importId then some id else g.registry.find? other
  slots : g'.slots = g.slots ∧ g'.free = g.free

theorem moduleAdded {importId : String} (h : g.addModule importId = .ok (id, g')) :
    g.ModuleAdded importId id g' := by
  obtain ⟨registry, hr, rfl⟩ := addModule_eq_ok.mp h
  exact ⟨⟨Registry.isFree_of_add hr, Registry.find?_none_of_add hr⟩,
    fun k => Registry.get?_of_add hr, Registry.find?_of_add hr, rfl, rfl⟩

theorem ModuleAdded.module?_of_some {importId : String} {i : ModuleId}
    (ha : g.ModuleAdded importId id g') (hm : g.module? i = some m) : g'.module? i = some m := by
  have hne : i ≠ id := by
    rintro rfl
    rw [ha.isFree.1] at hm
    cases hm
  rw [ha.modules, if_neg hne]
  exact hm

theorem ModuleAdded.unit?_eq {importId : String} (ha : g.ModuleAdded importId id g') (k : UnitId) :
    g'.unit? k = g.unit? k := by
  unfold unit?
  rw [ha.slots.1]

/-- What loading a unit does to a graph whose free slots are empty. -/
structure UnitAdded (g : ModuleGraph) (module : ModuleId) (m : ModuleEntry) (id : UnitId)
    (u : ModuleUnit) (g' : ModuleGraph) : Prop where
  entry : g.module? module = some m
  isFree : g.unit? id = none ∧ id ∉ g'.free
  modules : ∀ k, g'.module? k =
    if k = module then some { m with units := m.units ++ [id] } else g.module? k
  index : ∀ other, g'.registry.find? other = g.registry.find? other
  units : ∀ k, g'.unit? k = if k = id then some u else g.unit? k
  slots : g'.free = g.free.tail ∧ g.slots.size ≤ g'.slots.size

theorem unitAdded {fileName source : String} {root : Cst.Tree} {id : UnitId}
    (hf : ∀ k ∈ g.free, k < g.slots.size ∧ g.unit? k = none) (hd : g.free.Nodup)
    (h : g.addUnit module fileName source root = .ok (id, g')) :
    ∃ m unit,
      SourceUnit.build (g.config.modules.unitName fileName) source root g.config = .ok unit ∧
      g.UnitAdded module m id (.ofSource module unit) g' := by
  obtain ⟨m, unit, hm, hb, rfl, rfl⟩ := addUnit_eq_ok.mp h
  refine ⟨m, unit, hb, hm, ⟨unit?_place_fst hf _, ?_⟩, ?_, ?_, unit?_place hf _, ?_⟩
  · dsimp only
    rw [place_free]
    exact place_fst_notMem hd _
  · intro k
    unfold module?
    dsimp only
    rw [Registry.get?_addUnit, place_registry]
    by_cases hk : k = module
    · have hget : g.registry.get? k = some m := hk ▸ hm
      rw [if_pos hk, if_pos hk, hget, Option.map_some]
    · rw [if_neg hk, if_neg hk]
  · intro other
    dsimp only
    rw [place_registry]
    rfl
  · exact ⟨place_free g _, size_place g _⟩

theorem UnitAdded.ne {id : UnitId} {v : ModuleUnit} (ha : g.UnitAdded module m id v g')
    (hu : g.unit? k = some u) : k ≠ id := by
  rintro rfl
  rw [ha.isFree.1] at hu
  cases hu

theorem UnitAdded.module_cases {id : UnitId} {v : ModuleUnit} {i : ModuleId} {e : ModuleEntry}
    (ha : g.UnitAdded module m id v g') (he : g'.module? i = some e) :
    ∃ m', g.module? i = some m' ∧ m'.importId = e.importId ∧
      (e.units = m'.units ∨ i = module ∧ e.units = m'.units ++ [id]) := by
  rw [ha.modules] at he
  split at he
  · next hi =>
    cases he
    exact ⟨m, hi ▸ ha.entry, rfl, .inr ⟨hi, rfl⟩⟩
  · exact ⟨e, he, rfl, .inl rfl⟩

theorem UnitAdded.module?_of_some {id : UnitId} {v : ModuleUnit} {i : ModuleId} {e : ModuleEntry}
    (ha : g.UnitAdded module m id v g') (he : g.module? i = some e) :
    ∃ e', g'.module? i = some e' ∧ e'.importId = e.importId ∧ e.units ⊆ e'.units := by
  rw [ha.modules]
  split
  · next hi =>
    cases ha.entry.symm.trans (hi ▸ he)
    exact ⟨_, rfl, rfl, List.subset_append_left _ _⟩
  · exact ⟨e, he, rfl, fun _ hx => hx⟩

structure ModuleRemoved (g : ModuleGraph) (module : ModuleId) (m : ModuleEntry)
    (g' : ModuleGraph) : Prop where
  entry : g.module? module = some m
  modules : ∀ k, g'.module? k = if k = module then none else g.module? k
  index : ∀ other, g'.registry.find? other =
    if other = m.importId then none else g.registry.find? other
  units : ∀ k, g'.unit? k = if k ∈ m.units then none else (g.unit? k).map (unbind module)
  free : m.units.Nodup → (∀ k ∈ m.units, (g.unit? k).isSome) → g'.free = m.units.reverse ++ g.free
  size : g'.slots.size = g.slots.size

theorem moduleRemoved {removed : List UnitId}
    (h : g.removeModule module = .ok (removed, g')) :
    ∃ m, m.units = removed ∧ g.ModuleRemoved module m g' := by
  obtain ⟨m, registry, hr, rfl, rfl⟩ := removeModule_eq_ok.mp h
  have hregistry := (registry_foldl_removeUnit m.units { g with registry }).1
  refine ⟨m, rfl, Registry.isTaken_of_remove hr, ?_, ?_, ?_, ?_, ?_⟩
  · intro k
    unfold module?
    dsimp only
    rw [hregistry, Registry.get?_of_remove hr]
  · intro other
    dsimp only
    rw [hregistry, Registry.find?_of_remove hr]
  · intro k
    rw [unit?_mapSlots, unit?_foldl_removeUnit]
    split <;> rfl
  · exact fun hd hl => free_foldl_removeUnit (g := { g with registry }) hd hl
  · dsimp only
    rw [Array.size_map, size_foldl_removeUnit]

theorem ModuleRemoved.module_cases {i : ModuleId} {e : ModuleEntry}
    (hr : g.ModuleRemoved module m g') (he : g'.module? i = some e) :
    i ≠ module ∧ g.module? i = some e := by
  rw [hr.modules] at he
  split at he
  · cases he
  · next hi => exact ⟨hi, he⟩

end ModuleGraph

end ComponentCompiler
