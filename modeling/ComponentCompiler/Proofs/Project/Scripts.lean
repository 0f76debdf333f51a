import ComponentCompiler.Proofs.Project.Loading
import ComponentCompiler.Proofs.Volume
import Mathlib.Data.Prod.Basic

namespace ComponentCompiler.Project

variable {v v' : Volume} {path root outDir drawing : String} {named : Option String} {config : Config}
  {g : ModuleGraph} {id : UnitId} {order : List UnitId} {report : BuildReport}
  {project : Project} {loaded : Loaded} {importId name : String} {place : Place}

def scriptPath (outDir : String) (config : Config) (key : String × String) : String :=
  Volume.join (Volume.join outDir (moduleDirectory key.1)) (config.modules.targetFileName key.2)

/-- What the file of a listed unit's script depends on: the import id and the unit's name. -/
def Listing.key (root : String) (config : Config) (l : Listing) : String × String :=
  (l.1, unitName root config l.2)

theorem scriptPath_key (outDir root : String) (config : Config) (l : Listing) :
    scriptPath outDir config (l.key root config) =
      Volume.join (Volume.join outDir (moduleDirectory l.1))
        (config.modules.targetFileName (unitName root config l.2)) := by
  simp only [scriptPath, Listing.key]

def scriptOf (outDir : String) (g : ModuleGraph) (id : UnitId) : String × String :=
  ((g.unit? id).map fun u =>
    (Volume.join (scriptDirectory outDir g u) u.targetFileName, u.output.getD "")).getD ("", "")

def scripts (outDir : String) (g : ModuleGraph) (order : List UnitId) : List (String × String) :=
  order.map (scriptOf outDir g)

/-- All files that a build writes: the manifest and the drawing come behind the scripts. -/
def outputs (outDir : String) (g : ModuleGraph) (order : List UnitId) (drawing : String) :
    List (String × String) :=
  scripts outDir g order ++ [
    (Volume.join outDir "modules.json", g.manifest.render),
    (Volume.join outDir "modules.graphml", drawing)]

theorem writeScript_written {written written' : List String × Volume}
    (h : writeScript outDir g written id = .ok written') :
    written'.1 = written.1 ++ [(scriptOf outDir g id).1] ∧
      Volume.Written written.2 [scriptOf outDir g id] written'.2 := by
  unfold writeScript at h
  obtain ⟨u, hu, h⟩ := bind_eq_ok.mp h
  have hscript : scriptOf outDir g id =
      (Volume.join (scriptDirectory outDir g u) u.targetFileName, u.output.getD "") := by
    rw [scriptOf, ModuleGraph.requireUnit_eq_ok.mp (ok_of_mapError.mp hu)]
    rfl
  dsimp only at h
  split at h
  · next v₁ hmake =>
    split at h
    · next v₂ hwrite =>
      cases h
      rw [hscript]
      exact ⟨rfl, .make hmake (.write hwrite (.nil v₂))⟩
    · cases h
  · cases h

theorem write?_of_create {text : String} (h : create v path text = .ok v') :
    v.write? path text = some v' := by
  unfold create at h
  split at h
  · next hw => exact hw.trans (congrArg some (Except.ok.inj h))
  · cases h

theorem writeAll_written (h : writeAll outDir g order v = .ok (report, v')) :
    report.outDir = outDir ∧ report.files = (scripts outDir g order).map (·.1) ∧
      ∃ drawing, g.drawing? = some drawing ∧
        Volume.Written v (outputs outDir g order drawing) v' := by
  unfold writeAll at h
  obtain ⟨⟨files, v₁⟩, hscripts, h⟩ := bind_eq_ok.mp h
  obtain ⟨v₂, hmanifest, h⟩ := bind_eq_ok.mp h
  dsimp only at h
  split at h
  case h_2 => cases h
  next drawing hdrawn =>
  obtain ⟨v₃, hdrawing, h⟩ := bind_eq_ok.mp h
  cases h
  obtain ⟨hfiles, hwritten⟩ : files = (scripts outDir g order).map (·.1) ∧
      Volume.Written v (scripts outDir g order) v₁ := by
    refine foldlM_induct (P := fun done (state : List String × Volume) =>
      state.1 = (scripts outDir g done).map (·.1) ∧
        Volume.Written v (scripts outDir g done) state.2) hscripts ⟨rfl, .nil v⟩ ?_
    rintro done id b b' ⟨hb, hw⟩ hstep
    obtain ⟨hb', hw'⟩ := writeScript_written hstep
    rw [scripts, List.map_append, List.map_append]
    exact ⟨hb ▸ hb', hw.append hw'⟩
  exact ⟨rfl, hfiles, drawing, hdrawn, hwritten.append (.write (write?_of_create hmanifest)
    (.write (write?_of_create hdrawing) (.nil v')))⟩

theorem stages_of_build (h : build v path named = .ok (report, v')) :
    ∃ project config loaded order g,
      load v path = .ok project ∧ project.config v named = .ok config ∧
      project.loadModules v (Volume.parent path) config = .ok loaded ∧
      compileUnits loaded = .ok (order, g) ∧
      writeAll (Volume.join (Volume.parent path) project.outDir) g order v = .ok (report, v') := by
  unfold build at h
  obtain ⟨project, hp, h⟩ := bind_eq_ok.mp h
  obtain ⟨config, hc, h⟩ := bind_eq_ok.mp h
  obtain ⟨loaded, hl, h⟩ := bind_eq_ok.mp h
  obtain ⟨⟨order, g⟩, ho, h⟩ := bind_eq_ok.mp h
  exact ⟨project, config, loaded, order, g, hp, hc, hl, ho, h⟩

def Compiled (v : Volume) (root : String) (config : Config) (outDir : String) (g : ModuleGraph)
    (l : Listing) (id : UnitId) : Prop :=
  Holds v root config g l id ∧ ∃ u code, g.unit? id = some u ∧ u.source.script = .ok code ∧
    scriptOf outDir g id = (scriptPath outDir config (l.key root config), code)

theorem LoadedFrom.name_config {f : UnitFiles} {u : ModuleUnit}
    (h : LoadedFrom v root config f u) :
    u.name = unitName root config f ∧ u.source.config = config := by
  obtain ⟨source, treeText, table, tree, unit, -, -, -, -, hb, ho⟩ := h
  rw [SourceUnit.build, bind_eq_ok] at hb
  obtain ⟨ast, -, hunit⟩ := hb
  rw [pure_eq_ok] at hunit
  simp only [ModuleUnit.origin, ModuleUnit.ofSource, ← hunit, Prod.mk.injEq] at ho
  exact ⟨ho.2.1, ho.2.2.2.2⟩

theorem Holds.compiled {l : Listing} (h : Holds v root config g l id)
    (hcode : ∀ k u, g.unit? k = some u →
      ∃ code, u.source.script = .ok code ∧ u.output = some code) :
    Compiled v root config outDir g l id := by
  refine ⟨h, ?_⟩
  obtain ⟨u, m, hu, hm, himport, hfrom⟩ := h
  obtain ⟨code, hscript, houtput⟩ := hcode id u hu
  obtain ⟨hname, hconfig⟩ := hfrom.name_config
  refine ⟨u, code, hu, hscript, ?_⟩
  have hdirectory : scriptDirectory outDir g u =
      Volume.join outDir (moduleDirectory l.1) := by
    rw [scriptDirectory, ModuleGraph.importIdOf, hm, ← himport]
    rfl
  rw [scriptOf, hu, Option.map_some, Option.getD_some, hdirectory, ModuleUnit.targetFileName, hname,
    hconfig, houtput, Option.getD_some, scriptPath_key]

/-- Import ids are names between dots, and extensions have no slash. -/
structure Regular (p : Project) (config : Config) : Prop where
  importIds : ∀ m ∈ p.modules, '/' ∉ m.importId.toList ∧ "" ∉ Text.split '.' m.importId
  extensions : '/' ∉ config.modules.sourceExtension.toList ∧
    '/' ∉ config.modules.targetExtension.toList

theorem steps_moduleDirectory (hslash : '/' ∉ importId.toList) :
    Volume.steps (moduleDirectory importId) = Text.split '.' importId := by
  rw [Volume.steps, Text.split, moduleDirectory, String.toList_ofList, Text.splitChars_map hslash]
  rfl

theorem isPlain_moduleDirectory (hslash : '/' ∉ importId.toList)
    (hparts : "" ∉ Text.split '.' importId) : Volume.IsPlain (moduleDirectory importId) := by
  intro step hs
  rw [steps_moduleDirectory hslash] at hs
  have hdot : '.' ∉ step.toList := Text.notMem_of_mem_split hs
  have hempty : step ≠ "" := fun he => hparts (he ▸ hs)
  have hone : step ≠ "." := fun he => hdot (by simp [he])
  exact ⟨by simp [Volume.stays, hempty, hone], fun he => hdot (by simp [he])⟩

theorem slash_notMem_unitName (root : String) (config : Config) (f : UnitFiles) :
    '/' ∉ (unitName root config f).toList := by
  have hfile := Volume.slash_notMem_fileName (Volume.join root f.source)
  unfold unitName ModuleConfig.unitName ModuleConfig.dropTail?
  split
  · next stem hstem =>
    split at hstem
    · cases hstem
      rw [String.toList_ofList]
      exact fun hin => hfile (List.mem_of_mem_take hin)
    · cases hstem
  · exact hfile

theorem fault?_of_config (h : project.config v named = .ok config) : config.fault? = none := by
  have checked {c c' : Config} (hc : (c.validate.map fun _ => c) = .ok c') : c'.fault? = none := by
    unfold Config.validate at hc
    cases hf : c.fault? with
    | none =>
      rw [hf] at hc
      cases hc
      exact hf
    | some fault =>
      rw [hf] at hc
      cases hc
  unfold Project.config at h
  have hc := ok_of_mapError.mp h
  split at hc
  · exact checked hc
  · unfold environmentConfig at hc
    split at hc
    · exact checked hc
    · split at hc
      · cases hc
      · unfold Config.parse at hc
        split at hc
        · cases hc
        · exact checked hc

theorem extension_ne_empty (h : config.fault? = none) :
    config.modules.sourceExtension ≠ "" ∧ config.modules.targetExtension ≠ "" := by
  have hnamed : config.namedTexts.find? (fun t => Text.isBlankText t.2) = none := by
    unfold Config.fault? at h
    split at h
    · cases h
    · next hn => exact hn
  rw [List.find?_eq_none] at hnamed
  constructor
  · intro he
    exact hnamed ("modules.source_extension", config.modules.sourceExtension)
      (by simp [Config.namedTexts]) (by simp [he, Text.isBlankText])
  · intro he
    exact hnamed ("modules.target_extension", config.modules.targetExtension)
      (by simp [Config.namedTexts]) (by simp [he, Text.isBlankText])

theorem Regular.isPlain_targetFileName (h : project.Regular config) (hvalid : config.fault? = none)
    (hname : '/' ∉ name.toList) :
    Volume.steps (config.modules.targetFileName name) = [config.modules.targetFileName name] ∧
      Volume.IsPlain (config.modules.targetFileName name) := by
  have hslash : '/' ∉ (config.modules.targetFileName name).toList := by
    simp [ModuleConfig.targetFileName, hname, h.extensions.1, h.extensions.2]
  have hlong : 2 < (config.modules.targetFileName name).length := by
    obtain ⟨hs, ht⟩ := extension_ne_empty hvalid
    rw [ne_eq, ← String.length_eq_zero_iff] at hs ht
    simp only [ModuleConfig.targetFileName, String.length_append]
    have hdot : ".".length = 1 := rfl
    omega
  have hne (text : String) (ht : text.length ≤ 2) : config.modules.targetFileName name ≠ text := by
    rintro rfl
    omega
  refine ⟨Text.split_of_notMem hslash,
    Volume.isPlain_of_notMem hslash ?_ (hne ".." (by decide))⟩
  simp [Volume.stays, hne "" (by decide), hne "." (by decide)]

theorem importId_of_listing {l : Listing} (h : l ∈ project.listings) :
    ∃ m ∈ project.modules, m.importId = l.1 := by
  obtain ⟨m, hm, hl⟩ := List.mem_flatMap.mp h
  obtain ⟨f, -, rfl⟩ := List.mem_map.mp hl
  exact ⟨m, hm, rfl⟩

theorem Regular.place_eq (h : project.Regular config) (hvalid : config.fault? = none) {l : Listing}
    (hl : l ∈ project.listings)
    (hp : v.locate? (scriptPath outDir config (l.key root config)) = some place) :
    ∃ here, v.walk (Volume.start outDir) (Volume.steps outDir) = some here ∧
      place = here ++ (Text.split '.' l.1 ++
        [config.modules.targetFileName (unitName root config l.2)]) := by
  obtain ⟨m, hm, himport⟩ := importId_of_listing hl
  obtain ⟨hslash, hparts⟩ := h.importIds m hm
  rw [himport] at hslash hparts
  obtain ⟨hfile, hplain⟩ := h.isPlain_targetFileName hvalid (slash_notMem_unitName root config l.2)
  rw [scriptPath_key] at hp
  obtain ⟨there, hthere, rfl⟩ := Volume.walk_join hplain (Volume.walk_of_locate? hp)
  obtain ⟨here, hhere, rfl⟩ := Volume.walk_join (isPlain_moduleDirectory hslash hparts) hthere
  refine ⟨here, hhere, ?_⟩
  rw [steps_moduleDirectory hslash, hfile, List.append_assoc]

/-- Scripts at one place have units of one name in one module. -/
theorem Regular.key_inj (h : project.Regular config) (hvalid : config.fault? = none)
    {l l' : Listing} (hl : l ∈ project.listings) (hl' : l' ∈ project.listings)
    (hp : v.locate? (scriptPath outDir config (l.key root config)) = some place)
    (hp' : v.locate? (scriptPath outDir config (l'.key root config)) = some place) :
    l.key root config = l'.key root config := by
  obtain ⟨here, hhere, rfl⟩ := h.place_eq hvalid hl hp
  obtain ⟨here', hhere', hsame⟩ := h.place_eq hvalid hl' hp'
  cases hhere.symm.trans hhere'
  obtain ⟨hparts, hfile⟩ := List.append_inj' (List.append_cancel_left hsame) (by simp)
  have hname : unitName root config l.2 = unitName root config l'.2 := by
    simpa [ModuleConfig.targetFileName] using hfile
  simp only [Listing.key, Text.split_inj.mp hparts, hname]

/-- A file in the output directory itself is not at the place of a script. -/
theorem Regular.place_ne (h : project.Regular config) (hvalid : config.fault? = none)
    {l : Listing} {file : String} (hplain : Volume.IsPlain file) (hone : Volume.steps file = [file])
    (hl : l ∈ project.listings)
    (hp : v.locate? (scriptPath outDir config (l.key root config)) = some place) :
    v.locate? (Volume.join outDir file) ≠ some place := by
  intro hfile
  obtain ⟨here, hhere, rfl⟩ := h.place_eq hvalid hl hp
  obtain ⟨here', hhere', hsame⟩ := Volume.walk_join hplain (Volume.walk_of_locate? hfile)
  cases hhere.symm.trans hhere'
  -- At least one part of the import id stands between the directory and the script.
  have hlength := congrArg List.length (List.append_cancel_left hsame)
  rw [hone, List.length_append, List.length_singleton, List.length_singleton] at hlength
  have hnone : Text.split '.' l.1 = [] := List.eq_nil_of_length_eq_zero (by omega)
  simp [Text.split, Text.splitChars_ne_nil] at hnone

theorem kept_behind_scripts (h : Volume.Written v (outputs outDir g order drawing) v') :
    v'.textAt? (Volume.join outDir "modules.json") = some g.manifest.render ∧
      v'.textAt? (Volume.join outDir "modules.graphml") = some drawing := by
  have hplain : Volume.IsPlain "modules.json" ∧ Volume.IsPlain "modules.graphml" ∧
      Volume.steps "modules.json" ≠ Volume.steps "modules.graphml" := by decide +kernel
  obtain ⟨place, hmanifest⟩ :=
    h.locate? (w := (Volume.join outDir "modules.json", g.manifest.render)) (by simp [outputs])
  have hne : v'.locate? (Volume.join outDir "modules.json") ≠
      v'.locate? (Volume.join outDir "modules.graphml") := fun hsame =>
    hplain.2.2 (Volume.steps_eq_of_locate?_join hplain.1 hplain.2.1 hmanifest
      (hsame.symm.trans hmanifest))
  unfold outputs at h
  constructor
  · refine h.kept fun w hw hplace => ?_
    rw [List.mem_singleton.mp hw] at hplace
    exact absurd hplace hne
  · -- Nothing is written behind the drawing.
    rw [List.append_cons] at h
    exact h.kept fun w hw => absurd hw List.not_mem_nil

/-- All scripts are kept exactly if nothing else is written to the place of any of them. -/
theorem scripts_kept_iff (h : Volume.Written v (outputs outDir g order drawing) v') :
    (∀ s ∈ scripts outDir g order, v'.textAt? s.1 = some s.2) ↔
      ∀ s ∈ scripts outDir g order, ∀ w ∈ outputs outDir g order drawing,
        v'.locate? s.1 = v'.locate? w.1 → s.2 = w.2 := by
  constructor
  · intro hkept s hs w hw hplace
    have hw' : v'.textAt? w.1 = some w.2 := by
      cases List.mem_append.mp hw with
      | inl hw => exact hkept w hw
      | inr hw =>
        cases hw with
        | head => exact (kept_behind_scripts h).1
        | tail _ hdrawing =>
          obtain rfl := List.mem_singleton.mp hdrawing
          exact (kept_behind_scripts h).2
    have hs' := hkept s hs
    rw [Volume.textAt?, hplace, ← Volume.textAt?, hw'] at hs'
    exact (Option.some.inj hs').symm
  · intro hagree s hs
    obtain ⟨before, behind, hsplit⟩ := List.append_of_mem hs
    have hall : outputs outDir g order drawing = before ++ s :: (behind ++ [
        (Volume.join outDir "modules.json", g.manifest.render),
        (Volume.join outDir "modules.graphml", drawing)]) := by
      rw [outputs, hsplit, List.append_assoc, List.cons_append]
    refine (hall ▸ h).kept fun w hw hplace => hagree s hs w ?_ hplace
    rw [hall]
    exact List.mem_append_right before (List.mem_cons_of_mem s hw)

theorem Regular.kept (h : project.Regular config) (hvalid : config.fault? = none)
    (hlisted : ∀ s ∈ scripts outDir g order, ∃ l ∈ project.listings,
      s.1 = scriptPath outDir config (l.key root config))
    (hw : Volume.Written v (outputs outDir g order drawing) v')
    (hnodup : ((scripts outDir g order).map (·.1)).Nodup) :
    ∀ s ∈ scripts outDir g order, v'.textAt? s.1 = some s.2 := by
  rw [scripts_kept_iff hw]
  intro s hs w hmem hplace
  obtain ⟨place, hp⟩ := hw.locate? (List.mem_append_left _ hs)
  obtain ⟨l, hl, hpath⟩ := hlisted s hs
  have hp' := hpath ▸ hp
  cases List.mem_append.mp hmem with
  | inl hscript =>
    obtain ⟨l', hl', hpath'⟩ := hlisted w hscript
    -- Two scripts at one place have one file, and the files are different.
    have hkey := h.key_inj hvalid hl hl' hp' (hpath' ▸ hplace.symm.trans hp)
    rw [List.inj_on_of_nodup_map hnodup hs hscript (by rw [hpath, hpath', hkey])]
  | inr hbehind =>
    have away {file : String} (hplain : Volume.IsPlain file)
        (hone : Volume.steps file = [file]) : v'.locate? (Volume.join outDir file) ≠ some place :=
      h.place_ne hvalid hplain hone hl hp'
    cases hbehind with
    | head => exact absurd (hplace.symm.trans hp) (away (by decide +kernel) (by decide +kernel))
    | tail _ hdrawing =>
      obtain rfl := List.mem_singleton.mp hdrawing
      exact absurd (hplace.symm.trans hp) (away (by decide +kernel) (by decide +kernel))

theorem nodup_keys_iff (hdistinct : (project.modules.map (·.importId)).Nodup) :
    (project.listings.map (Listing.key root config)).Nodup ↔
      ∀ m ∈ project.modules, (m.units.map (unitName root config)).Nodup := by
  rw [listings, List.map_flatMap, List.nodup_flatMap]
  have hdisjoint : project.modules.Pairwise fun m m' =>
      List.Disjoint ((m.units.map fun f => (m.importId, f)).map (Listing.key root config))
        ((m'.units.map fun f => (m'.importId, f)).map (Listing.key root config)) := by
    refine (List.pairwise_map.mp hdistinct).imp fun hne key hk hk' => ?_
    simp only [List.mem_map, Listing.key] at hk hk'
    obtain ⟨_, ⟨f, -, rfl⟩, rfl⟩ := hk
    obtain ⟨_, ⟨f', -, rfl⟩, hkey⟩ := hk'
    exact hne (congrArg Prod.fst hkey).symm
  have hmodule (m : ModuleFiles) :
      ((m.units.map fun f => (m.importId, f)).map (Listing.key root config)).Nodup ↔
        (m.units.map (unitName root config)).Nodup := by
    have hkeys : (m.units.map fun f => (m.importId, f)).map (Listing.key root config) =
        (m.units.map (unitName root config)).map (Prod.mk m.importId) := by
      simp [Listing.key, Function.comp_def]
    rw [hkeys, List.nodup_map_iff (Prod.mk_right_injective m.importId)]
  exact ⟨fun h m hm => (hmodule m).mp (h.1 m hm),
    fun h => ⟨fun m hm => (hmodule m).mpr (h m hm), hdisjoint⟩⟩

theorem Regular.nodup_files_iff (h : project.Regular config) (hvalid : config.fault? = none)
    (hdistinct : (project.modules.map (·.importId)).Nodup)
    (hplaces : ∀ l ∈ project.listings,
      ∃ place, v.locate? (scriptPath outDir config (l.key root config)) = some place) :
    (project.listings.map fun l => scriptPath outDir config (l.key root config)).Nodup ↔
      ∀ m ∈ project.modules, (m.units.map (unitName root config)).Nodup := by
  rw [← nodup_keys_iff hdistinct]
  have hmap : (project.listings.map fun l => scriptPath outDir config (l.key root config)) =
      (project.listings.map (Listing.key root config)).map (scriptPath outDir config) := by simp
  rw [hmap]
  refine ⟨.of_map _, fun hkeys => hkeys.map_on fun key hk key' hk' hsame => ?_⟩
  obtain ⟨l, hl, rfl⟩ := List.mem_map.mp hk
  obtain ⟨l', hl', rfl⟩ := List.mem_map.mp hk'
  obtain ⟨place, hp⟩ := hplaces l hl
  exact h.key_inj hvalid hl hl' hp (hsame ▸ hp)

/-- The files of the scripts, in any order of their units, are those that the listings say. -/
theorem files_perm {ids : List UnitId} (hperm : order.Perm ids)
    (h : List.Forall₂ (Compiled v root config outDir g) project.listings ids) :
    ((scripts outDir g order).map (·.1)).Perm
      (project.listings.map fun l => scriptPath outDir config (l.key root config)) := by
  have hpaths : (project.listings.map fun l => scriptPath outDir config (l.key root config)) =
      (scripts outDir g ids).map (·.1) := by
    rw [scripts, List.map_map, ← List.forall₂_eq_eq_eq, List.forall₂_map_left_iff,
      List.forall₂_map_right_iff]
    refine h.imp fun l id hl => ?_
    obtain ⟨-, u, code, -, -, hscript⟩ := hl
    rw [Function.comp_apply, hscript]
  rw [hpaths]
  exact (hperm.map _).map _

/-- What a build leaves in the files it writes. Every unit that is listed is compiled, and its
script is written to the file that its listing says. A file holds what was written last to the
place that its path leads to, so all scripts are kept exactly if no other text is written to the
place of one of them. If import ids are names between dots, the report names a file twice exactly
if two units of a module have one name, and otherwise all scripts are kept. -/
theorem build_keeps_scripts (h : build v path named = .ok (report, v')) :
    ∃ project config loaded order g drawing,
      load v path = .ok project ∧ project.config v named = .ok config ∧
      project.loadModules v (Volume.parent path) config = .ok loaded ∧
      compileUnits loaded = .ok (order, g) ∧ g.drawing? = some drawing ∧
      report.outDir = Volume.join (Volume.parent path) project.outDir ∧
      order.Perm loaded.1 ∧
      List.Forall₂ (Compiled v (Volume.parent path) config report.outDir g) project.listings
        loaded.1 ∧
      report.files = (scripts report.outDir g order).map (·.1) ∧
      (∀ w ∈ outputs report.outDir g order drawing,
        v'.textAt? w.1 = v'.last? (outputs report.outDir g order drawing) (v'.locate? w.1)) ∧
      ((∀ s ∈ scripts report.outDir g order, v'.textAt? s.1 = some s.2) ↔
        ∀ s ∈ scripts report.outDir g order, ∀ w ∈ outputs report.outDir g order drawing,
          v'.locate? s.1 = v'.locate? w.1 → s.2 = w.2) ∧
      (project.Regular config →
        (report.files.Nodup ↔
          ∀ m ∈ project.modules, (m.units.map (unitName (Volume.parent path) config)).Nodup) ∧
        (report.files.Nodup →
          ∀ s ∈ scripts report.outDir g order, v'.textAt? s.1 = some s.2)) := by
  obtain ⟨project, config, loaded, order, g, hp, hc, hl, ho, hwrite⟩ := stages_of_build h
  obtain ⟨houtDir, hfiles, drawing, hdrawn, hwritten⟩ := writeAll_written hwrite
  rw [← houtDir] at hfiles hwritten
  have hloads := loads_of_loadModules hl
  obtain ⟨hperm, hholds, hcode⟩ := hloads.compileUnits ho
  have hcompiled : List.Forall₂ (Compiled v (Volume.parent path) config report.outDir g)
      project.listings loaded.1 := hholds.imp fun _ _ hl => hl.compiled hcode
  have hvalid := fault?_of_config hc
  have hpaths := files_perm hperm hcompiled
  have hlisted : ∀ s ∈ scripts report.outDir g order, ∃ l ∈ project.listings,
      s.1 = scriptPath report.outDir config (l.key (Volume.parent path) config) := by
    intro s hs
    obtain ⟨l, hl, hpath⟩ := List.mem_map.mp (hpaths.subset (List.mem_map_of_mem hs))
    exact ⟨l, hl, hpath.symm⟩
  have hplaces : ∀ l ∈ project.listings, ∃ place, v'.locate?
      (scriptPath report.outDir config (l.key (Volume.parent path) config)) = some place := by
    intro l hl
    obtain ⟨s, hs, hpath⟩ := List.mem_map.mp (hpaths.symm.subset (List.mem_map_of_mem hl))
    exact hpath ▸ hwritten.locate? (List.mem_append_left _ hs)
  refine ⟨project, config, loaded, order, g, drawing, hp, hc, hl, ho, hdrawn, houtDir, hperm, hcompiled, hfiles,
    fun w hw => (hwritten.textAt? hw).1, scripts_kept_iff hwritten, fun hregular => ⟨?_, ?_⟩⟩
  · rw [hfiles, hpaths.nodup_iff]
    exact hregular.nodup_files_iff hvalid hloads.distinct hplaces
  · rw [hfiles]
    exact hregular.kept hvalid hlisted hwritten

def sameNames (project : String) : Volume where
  files := [
    (["project.yaml"], project),
    (["a", "X"], "1"),
    (["b", "X"], "2"),
    (["t"], "\x7b\"nodes\": [], \"root\": 0\x7d")]
  directories := [["a"], ["b"]]

def apart : Volume :=
  sameNames <|
    "modules:\n" ++
    "- import_id: app\n  units:\n  - source: a/X\n    cst: t\n" ++
    "- import_id: app.ui\n  units:\n  - source: b/X\n    cst: t\n"

def together : Volume :=
  sameNames <|
    "modules:\n" ++
    "- import_id: app\n  units:\n" ++
    "  - source: a/X\n    cst: t\n" ++
    "  - source: b/X\n    cst: t\n"

theorem apart_kept : ∃ report v' order g,
    build apart "project.yaml" none = .ok (report, v') ∧
    report.files = ["build/app/X.lv.js", "build/app/ui/X.lv.js"] ∧
    (scripts report.outDir g order).map (·.1) = report.files ∧
    ∀ s ∈ scripts report.outDir g order, v'.textAt? s.1 = some s.2 := by
  have hload : load apart "project.yaml" = .ok { modules := [
      ⟨"app", [⟨"a/X", "t"⟩]⟩, ⟨"app.ui", [⟨"b/X", "t"⟩]⟩] } := by decide +kernel
  have hconfig : environmentConfig apart none = .ok {} := by decide +kernel
  have hfiles : (build apart "project.yaml" none).map (fun r => r.1.files) =
      .ok ["build/app/X.lv.js", "build/app/ui/X.lv.js"] := by
    rw [build, hload]
    decide +kernel
  cases h : build apart "project.yaml" none with
  | error e =>
    rw [h] at hfiles
    cases hfiles
  | ok r =>
    obtain ⟨report, v'⟩ := r
    rw [h] at hfiles
    have hreport : report.files = ["build/app/X.lv.js", "build/app/ui/X.lv.js"] :=
      Except.ok.inj hfiles
    obtain ⟨project, config, loaded, order, g, -, hp, hc, -, -, -, -, -, -, hscripts, -, -, hkept⟩ :=
      build_keeps_scripts h
    cases hp.symm.trans hload
    rw [Project.config, hconfig] at hc
    cases Except.ok.inj hc
    refine ⟨report, v', order, g, rfl, hreport, hscripts.symm, (hkept ⟨?_, by decide⟩).2 ?_⟩
    · decide
    · rw [hreport]
      decide

theorem together_overwritten :
    (do
      let project ← load together "project.yaml"
      let config ← project.config together none
      let (order, g) ← compileUnits (← project.loadModules together "" config)
      return scripts "build" g order) =
        .ok [("build/app/X.lv.js", "1"), ("build/app/X.lv.js", "2")] ∧
    (build together "project.yaml" none).map (fun (report, v') =>
      (report.files, v'.textAt? "build/app/X.lv.js")) =
        .ok (["build/app/X.lv.js", "build/app/X.lv.js"], some "2") := by
  decide +kernel

end ComponentCompiler.Project
