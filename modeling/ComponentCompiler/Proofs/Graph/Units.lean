import ComponentCompiler.Graph.Compilation
import ComponentCompiler.Graph.Linking
import Mathlib.Data.List.Induction

namespace ComponentCompiler

theorem bind_eq_ok {ε α β : Type} {x : Except ε α} {f : α → Except ε β} {b : β} :
    x >>= f = .ok b ↔ ∃ a, x = .ok a ∧ f a = .ok b := by
  cases x <;> simp [bind, Except.bind]

theorem pure_eq_ok {ε α : Type} {a b : α} : (pure a : Except ε α) = .ok b ↔ a = b := by
  simp [pure, Except.pure]

theorem ok_of_mapError {ε δ α : Type} {f : ε → δ} {outcome : Except ε α} {a : α} :
    outcome.mapError f = .ok a ↔ outcome = .ok a := by
  cases outcome with
  | error e =>
    change Except.error (f e) = .ok a ↔ _
    simp
  | ok b =>
    change (Except.ok b : Except δ α) = .ok a ↔ _
    simp

theorem foldlM_induct {ε α β : Type} {step : β → α → Except ε β} {P : List α → β → Prop}
    {xs : List α} {acc acc' : β} (h : xs.foldlM step acc = .ok acc') (nil : P [] acc)
    (snoc : ∀ done x b b', P done b → step b x = .ok b' → P (done ++ [x]) b') : P xs acc' := by
  induction xs using List.reverseRecOn generalizing acc' with
  | nil =>
    rw [List.foldlM_nil, pure_eq_ok] at h
    exact h ▸ nil
  | append_singleton done x ih =>
    rw [List.foldlM_append, bind_eq_ok] at h
    obtain ⟨b, hdone, hx⟩ := h
    rw [List.foldlM_cons, bind_eq_ok] at hx
    obtain ⟨b', hstep, hend⟩ := hx
    rw [List.foldlM_nil, pure_eq_ok] at hend
    exact hend ▸ snoc done x b b' (ih hdone) hstep

theorem join_getElem?_modify {α : Type} {f : Option α → Option α} (hf : f none = none)
    (slots : Array (Option α)) (i k : Nat) :
    ((slots.modify i f)[k]?).join = if k = i then f (slots[k]?).join else (slots[k]?).join := by
  rw [Array.getElem?_modify]
  by_cases h : i = k
  · subst h
    cases slots[i]? <;> simp [hf]
  · simp [h, Ne.symm h]

namespace ModuleGraph

variable {g g' : ModuleGraph} {id k : UnitId} {u : ModuleUnit}

theorem requireUnit_eq_ok : g.requireUnit id = .ok u ↔ g.unit? id = some u := by
  unfold requireUnit
  cases g.unit? id <;> simp

theorem requireModule_eq_ok {id : ModuleId} {m : ModuleEntry} :
    g.requireModule id = .ok m ↔ g.module? id = some m := by
  unfold requireModule
  cases g.module? id <;> simp

@[simp] theorem unit?_modifyUnit (g : ModuleGraph) (id k : UnitId) (f : ModuleUnit → ModuleUnit) :
    (g.modifyUnit id f).unit? k = if k = id then (g.unit? k).map f else g.unit? k :=
  join_getElem?_modify rfl g.slots id k

theorem modifyUnit_congr {f h : ModuleUnit → ModuleUnit}
    (hf : ∀ u, g.unit? id = some u → f u = h u) : g.modifyUnit id f = g.modifyUnit id h := by
  have hs : g.slots.modify id (fun slot => slot.map f) =
      g.slots.modify id fun slot => slot.map h := by
    apply Array.ext_getElem?
    intro i
    simp only [Array.getElem?_modify]
    split
    · next hi =>
      subst hi
      cases hg : g.slots[id]? with
      | none => rfl
      | some slot =>
        cases slot with
        | none => rfl
        | some u => simp [hf u (by simp [unit?, hg])]
    · rfl
  unfold modifyUnit
  rw [hs]

theorem modifyUnit_modifyUnit (g : ModuleGraph) (id : UnitId) (f h : ModuleUnit → ModuleUnit) :
    (g.modifyUnit id f).modifyUnit id h = g.modifyUnit id (h ∘ f) := by
  have hs : (g.slots.modify id fun slot => slot.map f).modify id (fun slot => slot.map h) =
      g.slots.modify id fun slot => slot.map (h ∘ f) := by
    apply Array.ext_getElem?
    intro i
    simp only [Array.getElem?_modify]
    split <;> simp
  unfold modifyUnit
  rw [hs]

theorem modifyUnit_id (g : ModuleGraph) (id : UnitId) : g.modifyUnit id (fun u => u) = g := by
  have hs : g.slots.modify id (fun slot => slot.map fun u => u) = g.slots := by
    apply Array.ext_getElem?
    intro i
    simp only [Array.getElem?_modify]
    split <;> simp
  unfold modifyUnit
  rw [hs]

theorem modifyUnit_eq_self {f : ModuleUnit → ModuleUnit}
    (hf : ∀ u, g.unit? id = some u → f u = u) : g.modifyUnit id f = g :=
  (modifyUnit_congr hf).trans (modifyUnit_id g id)

@[simp] theorem unit?_removeUnit (g : ModuleGraph) (id k : UnitId) :
    (g.removeUnit id).unit? k = if k = id then none else g.unit? k := by
  unfold removeUnit
  split
  · next h =>
    split
    · next hk => rw [hk, h]
    · rfl
  · exact join_getElem?_modify rfl g.slots id k

theorem registry_removeUnit (g : ModuleGraph) (id : UnitId) :
    (g.removeUnit id).registry = g.registry ∧ (g.removeUnit id).config = g.config := by
  unfold removeUnit
  split <;> exact ⟨rfl, rfl⟩

/-- Where edges join live units, none is at an empty slot. -/
theorem edges_removeUnit (h : ∀ e ∈ g.edges, (g.unit? e.1).isSome ∧ (g.unit? e.2).isSome)
    (id : UnitId) : (g.removeUnit id).edges = g.edges.filter fun e => e.1 != id && e.2 != id := by
  unfold removeUnit
  split
  · next hnone =>
    refine (List.filter_eq_self.mpr fun e he => ?_).symm
    have hne {k : UnitId} (hk : (g.unit? k).isSome) : k ≠ id := by
      rintro rfl
      simp [hnone] at hk
    simp [hne (h e he).1, hne (h e he).2]
  · rfl

theorem unit?_foldl_removeUnit (ids : List UnitId) (g : ModuleGraph) (k : UnitId) :
    (ids.foldl removeUnit g).unit? k = if k ∈ ids then none else g.unit? k := by
  induction ids generalizing g with
  | nil => simp
  | cons id rest ih =>
    rw [List.foldl_cons, ih, unit?_removeUnit]
    by_cases hr : k ∈ rest <;> by_cases hk : k = id <;> simp [hr, hk]

theorem edges_foldl_removeUnit (ids : List UnitId)
    (h : ∀ e ∈ g.edges, (g.unit? e.1).isSome ∧ (g.unit? e.2).isSome) :
    (ids.foldl removeUnit g).edges =
      g.edges.filter fun e => !ids.contains e.1 && !ids.contains e.2 := by
  induction ids generalizing g with
  | nil => exact (List.filter_eq_self.mpr (by simp)).symm
  | cons id rest ih =>
    have hedges := edges_removeUnit h id
    have hlive : ∀ e ∈ (g.removeUnit id).edges,
        ((g.removeUnit id).unit? e.1).isSome ∧ ((g.removeUnit id).unit? e.2).isSome := by
      intro e he
      rw [hedges, List.mem_filter] at he
      have hne : e.1 ≠ id ∧ e.2 ≠ id := by simpa using he.2
      rw [unit?_removeUnit, unit?_removeUnit, if_neg hne.1, if_neg hne.2]
      exact h e he.1
    rw [List.foldl_cons, ih hlive, hedges, List.filter_filter]
    apply List.filter_congr
    intro e _
    by_cases h1 : e.1 = id <;> by_cases h2 : e.2 = id <;> simp [h1, h2]

theorem registry_foldl_removeUnit (ids : List UnitId) (g : ModuleGraph) :
    (ids.foldl removeUnit g).registry = g.registry ∧
      (ids.foldl removeUnit g).config = g.config := by
  induction ids generalizing g with
  | nil => exact ⟨rfl, rfl⟩
  | cons id rest ih =>
    obtain ⟨hregistry, hconfig⟩ := registry_removeUnit g id
    rw [List.foldl_cons, (ih _).1, (ih _).2, hregistry, hconfig]
    exact ⟨rfl, rfl⟩

theorem unit?_mapSlots (g : ModuleGraph) (f : ModuleUnit → ModuleUnit) (k : UnitId) :
    unit? { g with slots := g.slots.map fun slot => slot.map f } k = (g.unit? k).map f := by
  simp only [unit?, Array.getElem?_map]
  cases g.slots[k]? <;> simp

theorem unit?_place_of_ne (h : k ≠ (g.place u).1) : (g.place u).2.unit? k = g.unit? k := by
  unfold place at h ⊢
  cases hf : g.free with
  | nil =>
    simp only [hf] at h
    simp only [unit?, Array.getElem?_push, h, ↓reduceIte]
  | cons id free =>
    simp only [hf] at h
    simp only [unit?, Array.getElem?_modify, Ne.symm h, ↓reduceIte]

theorem unit?_place_self {v : ModuleUnit} (h : (g.place u).2.unit? (g.place u).1 = some v) :
    v = u := by
  unfold place at h
  cases hf : g.free with
  | nil => simpa [hf, unit?, eq_comm] using h
  | cons id free =>
    simp only [hf, unit?, Array.getElem?_modify, ↓reduceIte] at h
    cases hs : g.slots[id]? with
    | none => simp [hs] at h
    | some slot => simpa [hs, eq_comm] using h

theorem isSome_unit?_place (u : ModuleUnit) (h : (g.unit? k).isSome) :
    ((g.place u).2.unit? k).isSome := by
  unfold place
  cases g.free with
  | nil =>
    by_cases hk : k = g.slots.size
    · simp [hk, unit?]
    · simpa only [unit?, Array.getElem?_push, hk, ↓reduceIte] using h
  | cons id free =>
    simp only [unit?, Array.getElem?_modify] at h ⊢
    cases hs : g.slots[k]? with
    | none => simp [hs] at h
    | some slot =>
      rw [hs] at h
      by_cases hk : id = k
      · simp [hk]
      · simpa [hk] using h

@[simp] theorem place_edges (g : ModuleGraph) (u : ModuleUnit) : (g.place u).2.edges = g.edges := by
  unfold place
  split <;> rfl

@[simp] theorem place_registry (g : ModuleGraph) (u : ModuleUnit) :
    (g.place u).2.registry = g.registry := by
  unfold place
  split <;> rfl

theorem addModule_eq_ok {importId : String} {id : ModuleId} :
    g.addModule importId = .ok (id, g') ↔ ∃ registry,
      g.registry.add? importId = some (id, registry) ∧ g' = { g with registry } := by
  unfold addModule
  cases h : g.registry.add? importId with
  | none => simp
  | some p =>
    constructor
    · intro he
      cases he
      exact ⟨p.2, rfl, rfl⟩
    · rintro ⟨registry, hr, rfl⟩
      cases hr
      rfl

theorem addUnit_eq_ok {module : ModuleId} {fileName source : String} {root : Cst.Tree} :
    g.addUnit module fileName source root = .ok (id, g') ↔ ∃ m unit,
      g.module? module = some m ∧
      SourceUnit.build (g.config.modules.unitName fileName) source root g.config = .ok unit ∧
      (g.place (.ofSource module unit)).1 = id ∧
      { (g.place (.ofSource module unit)).2 with
        registry := (g.place (.ofSource module unit)).2.registry.addUnit module id } = g' := by
  simp only [addUnit, bind_eq_ok, requireModule_eq_ok, ok_of_mapError, pure_eq_ok, Prod.mk.injEq]
  constructor
  · rintro ⟨m, hm, unit, hu, rfl, rfl⟩
    exact ⟨m, unit, hm, hu, rfl, rfl⟩
  · rintro ⟨m, unit, hm, hu, rfl, rfl⟩
    exact ⟨m, hm, unit, hu, rfl, rfl⟩

theorem removeModule_eq_ok {module : ModuleId} {removed : List UnitId} :
    g.removeModule module = .ok (removed, g') ↔ ∃ m registry,
      g.registry.remove? module = some (m, registry) ∧ m.units = removed ∧
      { removed.foldl removeUnit { g with registry } with
        slots := (removed.foldl removeUnit { g with registry }).slots.map
          fun slot => slot.map (unbind module) } = g' := by
  unfold removeModule
  cases h : g.registry.remove? module with
  | none => simp
  | some p =>
    constructor
    · intro he
      cases he
      exact ⟨p.1, p.2, rfl, rfl, rfl⟩
    · rintro ⟨m, registry, hr, rfl, rfl⟩
      cases hr
      rfl

theorem resolveImport_getD (source : SourceUnit) (index : Nat) (path : String) :
    (source.resolveImport? index path).getD source =
      { source with importPaths := source.importPaths.set index (some path) } := by
  unfold SourceUnit.resolveImport?
  split
  · rfl
  · next h => rw [List.set_eq_of_length_le (Nat.le_of_not_lt h), Option.getD_none]

theorem foldl_resolveImport (indices : List Nat) (source : SourceUnit) (path : String) :
    ∃ importPaths, indices.foldl (fun source index =>
        (source.resolveImport? index path).getD source) source = { source with importPaths } ∧
      importPaths.length = source.importPaths.length ∧
      ∀ i, importPaths[i]? = if i ∈ indices then (source.importPaths[i]?).map fun _ => some path
        else source.importPaths[i]? := by
  induction indices generalizing source with
  | nil => exact ⟨source.importPaths, rfl, rfl, fun i => by simp⟩
  | cons index rest ih =>
    obtain ⟨importPaths, hf, hl, hi⟩ :=
      ih { source with importPaths := source.importPaths.set index (some path) }
    refine ⟨importPaths, ?_, hl.trans List.length_set, fun i => ?_⟩
    · rw [List.foldl_cons, resolveImport_getD, hf]
    · rw [hi i]
      by_cases hx : index = i
      · subst hx
        by_cases hl : index < source.importPaths.length <;> simp [hl]
      · have hx' : i ≠ index := Ne.symm hx
        simp [hx, hx']

theorem mem_importsOf {uri : String} {i : Nat} :
    i ∈ importsOf u uri ↔ ∃ b, u.imports[i]? = some b ∧ b.entry.uri = uri := by
  simp only [importsOf, List.mem_map, List.mem_filter, List.mem_zipIdx_iff_getElem?]
  constructor
  · rintro ⟨⟨b, j⟩, ⟨hb, huri⟩, rfl⟩
    exact ⟨b, hb, by simpa using huri⟩
  · rintro ⟨b, hb, huri⟩
    exact ⟨(b, i), ⟨hb, by simpa using huri⟩, rfl⟩

theorem bindUnit_source (uri : String) (module : ModuleId) (importId : String) (u : ModuleUnit) :
    ∃ importPaths, (bindUnit uri module importId u).source = { u.source with importPaths } ∧
      importPaths.length = u.source.importPaths.length ∧
      ∀ i, importPaths[i]? = if i ∈ importsOf u uri
        then (u.source.importPaths[i]?).map fun _ => some importId
        else u.source.importPaths[i]? :=
  foldl_resolveImport (importsOf u uri) u.source importId

theorem bindImport_eq_ok {unit : UnitId} {uri : String} {module : ModuleId} {bound : Nat} :
    g.bindImport unit uri module = .ok (bound, g') ↔ ∃ m u, g.module? module = some m ∧
      g.unit? unit = some u ∧ (importsOf u uri).length = bound ∧
      g.modifyUnit unit (bindUnit uri module m.importId) = g' := by
  simp only [bindImport, bind_eq_ok, requireModule_eq_ok, requireUnit_eq_ok, pure_eq_ok,
    Prod.mk.injEq, exists_and_left]

theorem linkImports_eq_ok {unit : UnitId} {missing : List String} :
    g.linkImports unit = .ok (missing, g') ↔ ∃ u m, g.unit? unit = some u ∧
      g.module? u.module = some m ∧
      (u.imports.map (·.entry)).foldlM (linkImport unit m.importId) ([], g) =
        .ok (missing, g') := by
  simp only [linkImports, bind_eq_ok, requireUnit_eq_ok, requireModule_eq_ok, exists_and_left]

theorem addDependency_eq_ok {importer exporter : UnitId} {new : Bool} :
    g.addDependency importer exporter = .ok (new, g') ↔
      (g.unit? importer).isSome ∧ (g.unit? exporter).isSome ∧
      if importer = exporter ∨ (importer, exporter) ∈ g.edges then new = false ∧ g' = g
      else g.path? exporter importer = none ∧ new = true ∧
        g' = { g with edges := (importer, exporter) :: g.edges } := by
  simp only [addDependency, bind_eq_ok, requireUnit_eq_ok, Option.isSome_iff_exists,
    List.contains_eq_mem, decide_eq_true_eq, exists_and_right]
  refine and_congr_right fun _ => and_congr_right fun _ => ?_
  split
  · rw [pure_eq_ok, Prod.mk.injEq, eq_comm, @eq_comm _ g]
  · cases h : g.path? exporter importer with
    | none =>
      rw [pure_eq_ok, Prod.mk.injEq, eq_comm, @eq_comm _ g']
      simp
    | some back => simp [throw, throwThe, MonadExceptOf.throw]

end ModuleGraph

end ComponentCompiler
