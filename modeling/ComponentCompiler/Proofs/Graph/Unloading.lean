import ComponentCompiler.Proofs.Graph.CompileStates

namespace ComponentCompiler.ModuleGraph

variable {g g' : ModuleGraph} {k : UnitId} {u u' : ModuleUnit} {module : ModuleId} {m : ModuleEntry}
  {removed : List UnitId} {origin : ImportType → Option UnitId}

def LoadedFrom (m : ModuleEntry) (origin : ImportType → Option UnitId) (t : ImportType) : Prop :=
  t.resolvedPath ≠ none ∧ ∃ k ∈ m.units, origin t = some k

/-- From `u` to `u'`, every import statement that was bound to the module lost the module's import
id as its path, and every symbol whose path was taken from a unit of the module lost that path. -/
structure Forgets (module : ModuleId) (m : ModuleEntry) (origin : ImportType → Option UnitId)
    (u u' : ModuleUnit) : Prop where
  imports : ∀ (i : Nat) (b : BoundImport), u.imports[i]? = some b → b.module = some module →
    u'.source.importPaths[i]? ≠ some (some m.importId)
  symbols : ∀ (i : Nat) (t : ImportType), (symbolsOf u)[i]? = some t → LoadedFrom m origin t →
    ∃ t', (symbolsOf u')[i]? = some t' ∧ t'.resolvedPath = none

theorem unbind_imports {i : Nat} {b : BoundImport} (hb : u.imports[i]? = some b)
    (hm : b.module = some module) :
    (unbind module u).imports[i]? = some { b with module := none } := by
  simp [unbind, hb, hm]

/-- A unit whose source stays forgets a module only if there was nothing to forget. -/
theorem forgets_iff (hb : g.Bindings u) (hm : g.module? module = some m)
    (hs : u'.source = u.source) : Forgets module m origin u u' ↔
      (∀ b ∈ u.imports, b.module ≠ some module) ∧ ∀ t ∈ symbolsOf u, ¬ LoadedFrom m origin t := by
  have hsymbols : symbolsOf u' = symbolsOf u := by rw [symbolsOf, hs]
  constructor
  · intro h
    refine ⟨fun b hmem hbound => ?_, fun t hmem hload => ?_⟩
    · obtain ⟨i, hi⟩ := List.getElem?_of_mem hmem
      obtain ⟨m', hm', hp⟩ := hb.paths i b module hi hbound
      cases hm.symm.trans hm'
      exact h.imports i b hi hbound (hs ▸ hp)
    · obtain ⟨i, hi⟩ := List.getElem?_of_mem hmem
      obtain ⟨t', ht', hnone⟩ := h.symbols i t hi hload
      rw [hsymbols, hi] at ht'
      cases ht'
      exact hload.1 hnone
  · rintro ⟨himports, hload⟩
    refine ⟨fun i b hi hbound => ?_, fun i t hi ht => ?_⟩
    · exact absurd hbound (himports b (List.mem_of_getElem? hi))
    · exact absurd ht (hload t (List.mem_of_getElem? hi))

/-- What a resolved unit is compiled to depends on its source only. -/
theorem compile_congr (hu : g.unit? k = some u) (hu' : g'.unit? k = some u')
    (hsource : u'.source = u.source) (hstate : u'.state = u.state)
    (hs : u.state ≠ .initialized) : (g'.compile k).1 = (g.compile k).1 := by
  rw [compile_of_resolved hu hs, compile_of_resolved hu' (hstate ▸ hs), hsource]
  cases u.source.script <;> rfl

/-- Unloading a module clears the bindings to it, but the units that are left keep their sources:
every path to the module stays, and units that were resolved are compiled to the same scripts. So a
unit forgets the module exactly if no import statement of it was bound to the module and none of its
symbols has a path that was taken from a unit of the module. -/
theorem removeModule_keeps_paths (hg : g.Reachable)
    (h : g.removeModule module = .ok (removed, g')) :
    ∃ m, g.module? module = some m ∧ m.units = removed ∧
      ∀ k u, g.unit? k = some u → k ∉ removed →
        ∃ u', g'.unit? k = some u' ∧ u'.source = u.source ∧ u'.state = u.state ∧
          (∀ (i : Nat) (b : BoundImport), u.imports[i]? = some b → b.module = some module →
            u'.imports[i]? = some { b with module := none } ∧
            u'.source.importPaths[i]? = some (some m.importId)) ∧
          (u.state ≠ .initialized → (g'.compile k).1 = (g.compile k).1) ∧
          ∀ origin, Forgets module m origin u u' ↔
            (∀ b ∈ u.imports, b.module ≠ some module) ∧
              ∀ t ∈ symbolsOf u, ¬ LoadedFrom m origin t := by
  obtain ⟨m, hunits, hr⟩ := moduleRemoved h
  refine ⟨m, hr.entry, hunits, fun k u hu hk => ?_⟩
  have hleft : g'.unit? k = some (unbind module u) := by
    rw [hr.units, if_neg (hunits ▸ hk), hu, Option.map_some]
  refine ⟨_, hleft, rfl, rfl, fun i b hi hbound => ?_, compile_congr hu hleft rfl rfl,
    fun origin => forgets_iff (hg.bound k u hu) hr.entry rfl⟩
  obtain ⟨m', hm', hp⟩ := (hg.bound k u hu).paths i b module hi hbound
  cases hr.entry.symm.trans hm'
  exact ⟨unbind_imports hi hbound, hp⟩

def libraryUser : ModuleGraph :=
  run {} [
    .addModule "app",
    .addModule "lib",
    .addUnit 0 "A.lv" "import lib\nA L" (.node { kind := "program", span := ⟨0, 14⟩ } [
      .node { kind := "import_statement", span := ⟨0, 10⟩ } [
        .node { kind := "import", span := ⟨0, 6⟩, named := false } [],
        .node { kind := "import_path", span := ⟨7, 10⟩ } [
          .node { kind := "identifier", span := ⟨7, 10⟩ } []]],
      .node { kind := "component_declaration", span := ⟨11, 14⟩ } [
        .node { kind := "identifier", span := ⟨11, 12⟩ } [],
        .node { kind := "component_heritage", span := ⟨13, 14⟩ } [
          .node { kind := "identifier", span := ⟨13, 14⟩ } []]]]),
    .addUnit 1 "L.lv" "L" (.node { kind := "program", span := ⟨0, 1⟩ } [
      .node { kind := "component_declaration", span := ⟨0, 1⟩ } [
        .node { kind := "identifier", span := ⟨0, 1⟩ } []]]),
    .linkImports 0,
    .resolveTypes 0]

theorem libraryUser_unit : (libraryUser.unit? 0).map (fun u =>
    (u.state, u.imports, u.source.importPaths, symbolsOf u)) =
      some (.parsed, [⟨⟨"lib", "", false⟩, some 1⟩], [some "lib"],
        [⟨"L", "", some "lib/L.lv.js"⟩]) := by
  decide +kernel

theorem libraryUser_unloaded : ∃ g' m u u', libraryUser.removeModule 1 = .ok ([1], g') ∧
    libraryUser.module? 1 = some m ∧ libraryUser.unit? 0 = some u ∧ g'.unit? 0 = some u' ∧
    (g'.compile 0).1 = (libraryUser.compile 0).1 ∧
    ¬ Forgets 1 m (fun t => (libraryUser.hit? u t).map Hit.exporter) u u' := by
  have hreach : libraryUser.Reachable := ⟨{}, _, rfl⟩
  have hremoved : (libraryUser.removeModule 1).toOption.map (·.1) = some [1] := by decide +kernel
  obtain ⟨u, hu, hparts⟩ := Option.map_eq_some_iff.mp libraryUser_unit
  obtain ⟨hstate, himports, -⟩ : _ ∧ _ ∧ _ := by simpa using hparts
  cases h : libraryUser.removeModule 1 with
  | error e => simp [h, Except.toOption] at hremoved
  | ok result =>
    obtain ⟨removed, g'⟩ := result
    rw [h] at hremoved
    cases hremoved
    obtain ⟨m, hm, -, hkept⟩ := removeModule_keeps_paths hreach h
    obtain ⟨u', hu', -, -, -, hcompile, hforgets⟩ := hkept 0 u hu (by simp)
    refine ⟨g', m, u, u', rfl, hm, hu, hu', hcompile (by simp [hstate]), ?_⟩
    rw [hforgets]
    rintro ⟨hb, -⟩
    exact hb ⟨⟨"lib", "", false⟩, some 1⟩ (by simp [himports]) rfl

/-- After `lib` is unloaded, the import statement of `A` is not bound any more, but it still has the
path `lib` and `L` the path of the script that is gone, and these are what the head of the script and
the loader call say. -/
theorem libraryUser_dangles :
    ((libraryUser.removeModule 1).toOption.bind fun r => r.2.unit? 0).map (fun u =>
        (u.imports, u.source.importPaths, symbolsOf u)) =
      some ([⟨⟨"lib", "", false⟩, none⟩], [some "lib"], [⟨"L", "", some "lib/L.lv.js"⟩]) ∧
    ((libraryUser.removeModule 1).toOption.bind fun r => r.2.unit? 0).map (fun u =>
        (u.source.scriptInput.header?, u.source.scriptInput.importEdits.map Edit.text)) =
      some (some "import \x7bL\x7d from 'lib/L.lv.js'\n\n", ["imports.require('lib')\n"]) := by
  decide +kernel

end ComponentCompiler.ModuleGraph
