import ComponentCompiler.Proofs.Graph.Units

namespace ComponentCompiler.ModuleGraph

variable {g : ModuleGraph} {id k : UnitId} {u : ModuleUnit} {t : ImportType}

def ownHit? (g : ModuleGraph) (u : ModuleUnit) (name : String) : Option Hit := do
  let exporter ← g.findExport? u.module name
  return { exporter, path := "./" ++ (← g.unit? exporter).targetFileName }

def importHit? (g : ModuleGraph) (u : ModuleUnit) (name : String) (i : BoundImport) :
    Option Hit := do
  let module ← i.module
  let exporter ← g.findExport? module name
  let importer ← g.module? u.module
  let target ← g.module? module
  let file := (← g.unit? exporter).targetFileName
  return {
    exporter
    path := ModulePath.filePath importer.importId target.importId file i.entry.isRelative }

def hit? (g : ModuleGraph) (u : ModuleUnit) (t : ImportType) : Option Hit :=
  let own := if t.qualifier = "" then g.ownHit? u t.name else none
  own <|> (u.imports.filter fun i => i.entry.localName == t.qualifier).findSome?
    (g.importHit? u t.name)

theorem findExport?_live {module : ModuleId} {name : String}
    (h : g.findExport? module name = some k) :
    (∃ m, g.module? module = some m) ∧ ∃ u, g.unit? k = some u := by
  obtain ⟨m, hm, hf⟩ := Option.bind_eq_some_iff.mp h
  have hk := List.find?_some hf
  refine ⟨⟨m, hm⟩, ?_⟩
  cases hu : g.unit? k with
  | none => simp [hu] at hk
  | some u => exact ⟨u, rfl⟩

theorem ownExporter_eq (g : ModuleGraph) (u : ModuleUnit) (t : ImportType) :
    g.ownExporter u t = .ok (if t.qualifier = "" then g.ownHit? u t.name else none) := by
  unfold ownExporter ownHit?
  split
  · cases h : g.findExport? u.module t.name with
    | none => rfl
    | some exporter =>
      obtain ⟨-, v, hv⟩ := findExport?_live h
      simp only [Option.bind_eq_bind, Option.bind_some, hv, requireUnit_eq_ok.mpr hv]
      rfl
  · rfl

theorem importedExporter_eq {m : ModuleEntry} (hm : g.module? u.module = some m) (name : String)
    (i : BoundImport) : g.importedExporter m.importId name i = .ok (g.importHit? u name i) := by
  unfold importedExporter importHit?
  cases hi : i.module with
  | none => rfl
  | some module =>
    cases h : g.findExport? module name with
    | none => simp [h]
    | some exporter =>
      obtain ⟨⟨target, ht⟩, v, hv⟩ := findExport?_live h
      simp only [Option.bind_eq_bind, Option.bind_some, Option.map_some, h, hm, ht, hv,
        requireUnit_eq_ok.mpr hv, requireModule_eq_ok.mpr ht]
      rfl

theorem findSomeM?_importedExporter {m : ModuleEntry} (hm : g.module? u.module = some m)
    (name : String) (imports : List BoundImport) :
    imports.findSomeM? (g.importedExporter m.importId name) =
      .ok (imports.findSome? (g.importHit? u name)) := by
  have hf : g.importedExporter m.importId name = fun i => pure (g.importHit? u name i) :=
    funext (importedExporter_eq hm name)
  rw [hf, List.findSomeM?_pure]
  rfl

/-- The search fails only for a unit whose own module does not export the symbol and is not
registered. -/
theorem findExporter_of_unit (hu : g.unit? id = some u) (t : ImportType) :
    g.findExporter id t =
      match if t.qualifier = "" then g.ownHit? u t.name else none with
      | some hit => .ok (some hit)
      | none => (g.requireModule u.module).map fun _ => g.hit? u t := by
  simp only [findExporter, requireUnit_eq_ok.mpr hu, ownExporter_eq, hit?, bind, Except.bind]
  cases if t.qualifier = "" then g.ownHit? u t.name else none with
  | some hit => rfl
  | none =>
    cases hm : g.module? u.module with
    | none => simp [requireModule, hm, Except.map]
    | some m =>
      have hf := findSomeM?_importedExporter hm t.name
        (u.imports.filter fun i => i.entry.localName == t.qualifier)
      simp [requireModule, hm, Except.map, hf]

theorem hit?_of_own {hit : Hit}
    (h : (if t.qualifier = "" then g.ownHit? u t.name else none) = some hit) :
    g.hit? u t = some hit := by
  simp [hit?, h]

theorem findExporter_eq (hu : g.unit? id = some u) (hm : (g.module? u.module).isSome)
    (t : ImportType) : g.findExporter id t = .ok (g.hit? u t) := by
  obtain ⟨m, hm⟩ := Option.isSome_iff_exists.mp hm
  rw [findExporter_of_unit hu]
  split
  · next hit h => rw [hit?_of_own h]
  · rw [requireModule_eq_ok.mpr hm]
    rfl

theorem hit?_of_findExporter {found : Option Hit} (h : g.findExporter id t = .ok found) :
    ∃ u, g.unit? id = some u ∧ g.hit? u t = found := by
  obtain ⟨u, hu, -⟩ := bind_eq_ok.mp h
  rw [requireUnit_eq_ok] at hu
  refine ⟨u, hu, ?_⟩
  rw [findExporter_of_unit hu] at h
  split at h
  · next hit ho =>
    cases h
    exact hit?_of_own ho
  · cases hm : g.requireModule u.module with
    | error e => simp [hm, Except.map] at h
    | ok m => simpa [hm, Except.map] using h

end ComponentCompiler.ModuleGraph
