import ComponentCompiler.Proofs.Graph.Acyclic
import ComponentCompiler.Proofs.Graph.Registration
import ComponentCompiler.Proofs.ImportTypes.Table

namespace ComponentCompiler.ModuleGraph

variable {g g' : ModuleGraph} {id k : UnitId} {u u' : ModuleUnit} {t t' : ImportType}

/-- What the search for exporters reads of a unit. -/
def face (u : ModuleUnit) : ModuleId × List Export × List BoundImport × String :=
  (u.module, u.exports, u.imports, u.targetFileName)

structure SameSearch (g g' : ModuleGraph) : Prop where
  registry : g'.registry = g.registry
  units : ∀ k, (g'.unit? k).map face = (g.unit? k).map face

theorem SameSearch.refl (g : ModuleGraph) : SameSearch g g :=
  ⟨rfl, fun _ => rfl⟩

theorem SameSearch.trans {g'' : ModuleGraph} (h : SameSearch g g') (h' : SameSearch g' g'') :
    SameSearch g g'' :=
  ⟨h'.registry.trans h.registry, fun k => (h'.units k).trans (h.units k)⟩

theorem SameSearch.module? (h : SameSearch g g') (id : ModuleId) :
    g'.module? id = g.module? id := by
  unfold ModuleGraph.module?
  rw [h.registry]

theorem SameSearch.exportsName (h : SameSearch g g') (k : UnitId) (name : String) :
    ((g'.unit? k).any fun u => u.exportsName name) =
      (g.unit? k).any fun u => u.exportsName name := by
  have hk := congrArg (Option.any fun f => f.2.1.any fun e => e.name == name) (h.units k)
  simp only [Option.any_map] at hk
  exact hk

theorem SameSearch.bind_targetFileName {α : Type} (h : SameSearch g g') (k : UnitId)
    (f : String → Option α) :
    ((g'.unit? k).bind fun u => f u.targetFileName) =
      (g.unit? k).bind fun u => f u.targetFileName := by
  have hk := congrArg (fun o => o.bind fun a : ModuleId × List Export × List BoundImport × String =>
    f a.2.2.2) (h.units k)
  simp only [Option.bind_map] at hk
  exact hk

theorem SameSearch.findExport? (h : SameSearch g g') (module : ModuleId) (name : String) :
    g'.findExport? module name = g.findExport? module name := by
  unfold ModuleGraph.findExport?
  rw [h.module?]
  simp only [h.exportsName]

theorem SameSearch.ownHit? (h : SameSearch g g') (hu : face u' = face u) (name : String) :
    g'.ownHit? u' name = g.ownHit? u name := by
  have hm : u'.module = u.module := congrArg (·.1) hu
  unfold ModuleGraph.ownHit?
  rw [h.findExport?, hm]
  refine congrArg _ (funext fun exporter => ?_)
  exact h.bind_targetFileName exporter fun file =>
    some ({ exporter, path := "./" ++ file } : Hit)

theorem SameSearch.importHit? (h : SameSearch g g') (hu : face u' = face u) (name : String) :
    g'.importHit? u' name = g.importHit? u name := by
  have hm : u'.module = u.module := congrArg (·.1) hu
  funext i
  unfold ModuleGraph.importHit?
  refine congrArg _ (funext fun module => ?_)
  rw [h.findExport?]
  refine congrArg _ (funext fun exporter => ?_)
  rw [hm, h.module?, h.module?]
  refine congrArg _ (funext fun importer => congrArg _ (funext fun target => ?_))
  exact h.bind_targetFileName exporter fun file => some ({
    exporter
    path := ModulePath.filePath importer.importId target.importId file i.entry.isRelative } : Hit)

theorem SameSearch.hit? (h : SameSearch g g') (hu : face u' = face u)
    (hq : t'.qualifier = t.qualifier) (hn : t'.name = t.name) : g'.hit? u' t' = g.hit? u t := by
  have hi : u'.imports = u.imports := congrArg (·.2.2.1) hu
  unfold ModuleGraph.hit?
  rw [hq, hn, hi, h.ownHit? hu, h.importHit? hu]

theorem SameSearch.hit?_eq (h : SameSearch g g') (hu : face u' = face u) :
    g'.hit? u' = g.hit? u :=
  funext fun _ => h.hit? hu rfl rfl

theorem isSome_of_hit? {hit : Hit} (h : g.hit? u t = some hit) :
    (g.unit? hit.exporter).isSome := by
  unfold ModuleGraph.hit? at h
  simp only [Option.orElse_eq_orElse, Option.orElse_eq_or] at h
  rcases Option.or_eq_some_iff.mp h with h | ⟨-, h⟩
  · split at h
    · simp only [ModuleGraph.ownHit?, Option.bind_eq_bind, Option.bind_eq_some_iff] at h
      obtain ⟨exporter, he, u', -, hh⟩ := h
      cases hh
      obtain ⟨-, v, hv⟩ := findExport?_live he
      simp [hv]
    · cases h
  · obtain ⟨i, -, hi⟩ := List.exists_of_findSome?_eq_some h
    simp only [ModuleGraph.importHit?, Option.bind_eq_bind, Option.bind_eq_some_iff] at hi
    obtain ⟨module, -, exporter, he, importer, -, target, -, u', -, hh⟩ := hi
    cases hh
    obtain ⟨-, v, hv⟩ := findExport?_live he
    simp [hv]

def edgesTo (g : ModuleGraph) (id : UnitId) (u : ModuleUnit) (needs : List ImportType) :
    List (UnitId × UnitId) :=
  ((needs.filterMap (g.hit? u)).map fun hit => (id, hit.exporter)).filter fun e => e.1 != e.2

/-- The symbol with the path to where it is found; as it is, if it is found nowhere. -/
def found (g : ModuleGraph) (u : ModuleUnit) (t : ImportType) : ImportType :=
  match g.hit? u t with
  | some hit => { t with resolvedPath := some hit.path }
  | none => t

def mapNeeds (f : ImportType → ImportType) (u : ModuleUnit) : ModuleUnit :=
  { u with source := { u.source with importTypes := u.source.importTypes.mapEntries f } }

def recorded (g : ModuleGraph) (u : ModuleUnit) (needs : List ImportType) : ModuleUnit :=
  mapNeeds (fun t => if ∃ n ∈ needs, n.qualifier = t.qualifier ∧ n.name = t.name then g.found u t
    else t) u

/-- The summary of a pass over a list of symbols. What is found nowhere is listed as `Name`, or as
`Qualifier.Name`. -/
def summarize (g : ModuleGraph) (u : ModuleUnit) (needs : List ImportType) : ResolveSummary where
  resolved := needs.countP fun t => (g.hit? u t).isSome
  unresolved := (needs.filter fun t => (g.hit? u t).isNone).map fun t =>
    if t.qualifier = "" then t.name else t.qualifier ++ "." ++ t.name

def ResolveSummary.append (a b : ResolveSummary) : ResolveSummary :=
  ⟨a.resolved + b.resolved, a.unresolved ++ b.unresolved⟩

theorem addDependency_cases {a b : UnitId} (ha : (g.unit? a).isSome) (hb : (g.unit? b).isSome) :
    (∃ new edges, g.addDependency a b = .ok (new, { g with edges }) ∧
      (Acyclic g.edges → Acyclic edges) ∧ ∀ e, e ∈ edges ↔ e ∈ g.edges ∨ e = (a, b) ∧ a ≠ b) ∨
    ∃ path, g.addDependency a b = .error (.dependencyCycle path) ∧ a ≠ b ∧ Reaches g.edges b a := by
  by_cases hold : a = b ∨ (a, b) ∈ g.edges
  · refine .inl ⟨false, g.edges, addDependency_eq_ok.mpr ⟨ha, hb, ?_⟩, fun h => h, fun e => ?_⟩
    · rw [if_pos hold]
      exact ⟨rfl, rfl⟩
    · constructor
      · exact .inl
      · rintro (he | ⟨rfl, hne⟩)
        · exact he
        · exact hold.resolve_left hne
  · cases hp : g.path? b a with
    | none =>
      refine .inl ⟨true, (a, b) :: g.edges, addDependency_eq_ok.mpr ⟨ha, hb, ?_⟩, fun h => ?_,
        fun e => ?_⟩
      · rw [if_neg hold]
        exact ⟨hp, rfl, rfl⟩
      · refine acyclic_cons.mpr ⟨h, ?_⟩
        rw [← path?_isSome, hp]
        simp
      · have hne : a ≠ b := fun he => hold (.inl he)
        simp [hne, or_comm]
    | some back =>
      obtain ⟨ua, hua⟩ := Option.isSome_iff_exists.mp ha
      obtain ⟨ub, hub⟩ := Option.isSome_iff_exists.mp hb
      refine .inr ⟨(a :: back).map g.nameOf, ?_, fun he => hold (.inl he), ?_⟩
      · have hc : ¬ (a = b ∨ g.edges.contains (a, b) = true) := by simpa using hold
        simp only [addDependency, requireUnit_eq_ok.mpr hua, requireUnit_eq_ok.mpr hub, hp, hc]
        rfl
      · exact path?_isSome.mp (by simp [hp])

theorem mem_edgesTo_cons {needs : List ImportType} {hit : Hit} (h : g.hit? u t = some hit)
    {e : UnitId × UnitId} : e ∈ g.edgesTo id u (t :: needs) ↔
      (e = (id, hit.exporter) ∧ id ≠ hit.exporter) ∨ e ∈ g.edgesTo id u needs := by
  simp only [edgesTo, List.filterMap_cons, h, List.map_cons, List.filter_cons]
  by_cases hne : id = hit.exporter
  · simp [hne]
  · simp [hne]

theorem SameSearch.edgesTo (h : SameSearch g g') (hu : face u' = face u) (id : UnitId)
    (needs : List ImportType) : g'.edgesTo id u' needs = g.edgesTo id u needs := by
  unfold ModuleGraph.edgesTo
  rw [h.hit?_eq hu]

theorem SameSearch.summarize (h : SameSearch g g') (hu : face u' = face u)
    (needs : List ImportType) : g'.summarize u' needs = g.summarize u needs := by
  unfold ModuleGraph.summarize
  rw [h.hit?_eq hu]

theorem SameSearch.found (h : SameSearch g g') (hu : face u' = face u) :
    g'.found u' = g.found u := by
  funext t
  unfold ModuleGraph.found
  rw [h.hit?_eq hu]

theorem recordPath_eq (hw : u.source.importTypes.WellPlaced) (t : ImportType) (path : String) :
    recordPath t path u = mapNeeds (ImportTypes.withPath t.qualifier t.name path) u := by
  unfold mapNeeds
  rw [← ImportTypes.resolve?_eq_mapEntries hw]
  unfold recordPath SourceUnit.resolveImportType?
  cases u.source.importTypes.resolve? t.qualifier t.name path <;> rfl

theorem mapNeeds_mapNeeds (f h : ImportType → ImportType) (u : ModuleUnit) :
    mapNeeds h (mapNeeds f u) = mapNeeds (h ∘ f) u := by
  simp [mapNeeds, ImportTypes.mapEntries_mapEntries]

theorem mapNeeds_congr {f h : ImportType → ImportType}
    (hf : ∀ t ∈ u.source.importTypes.entries, f t = h t) : mapNeeds f u = mapNeeds h u := by
  unfold mapNeeds
  rw [ImportTypes.mapEntries_congr hf]

theorem mapNeeds_self (u : ModuleUnit) : mapNeeds (fun t => t) u = u := by
  have h : u.source.importTypes.mapEntries (fun t => t) = u.source.importTypes :=
    ImportTypes.mapEntries_id _
  simp [mapNeeds, h]

theorem face_mapNeeds (f : ImportType → ImportType) (u : ModuleUnit) :
    face (mapNeeds f u) = face u :=
  rfl

theorem face_recordPath (hw : u.source.importTypes.WellPlaced) (t : ImportType) (path : String) :
    face (recordPath t path u) = face u := by
  rw [recordPath_eq hw, face_mapNeeds]

theorem found_qualifier_name (g : ModuleGraph) (u : ModuleUnit) (t : ImportType) :
    (g.found u t).qualifier = t.qualifier ∧ (g.found u t).name = t.name := by
  unfold found
  split <;> exact ⟨rfl, rfl⟩

theorem hit?_key (g : ModuleGraph) (u : ModuleUnit) (hq : t'.qualifier = t.qualifier)
    (hn : t'.name = t.name) : g.hit? u t' = g.hit? u t :=
  (SameSearch.refl g).hit? rfl hq hn

theorem found_found (g : ModuleGraph) (u : ModuleUnit) (t : ImportType) :
    g.found u (g.found u t) = g.found u t := by
  obtain ⟨hq, hn⟩ := found_qualifier_name g u t
  have hh := hit?_key g u hq hn
  cases h : g.hit? u t with
  | none => simp [found, h]
  | some hit =>
    rw [h] at hh
    simp only [found, h] at hh ⊢
    rw [hh]

theorem found_withPath {hit : Hit} (h : g.hit? u t = some hit) {e : ImportType}
    (hq : e.qualifier = t.qualifier) (hn : e.name = t.name) :
    ImportTypes.withPath t.qualifier t.name hit.path e = g.found u e := by
  unfold found ImportTypes.withPath
  rw [if_pos ⟨hq, hn⟩, hit?_key g u hq hn, h]

theorem recorded_recordPath (hw : u.source.importTypes.WellPlaced) {hit : Hit}
    (h : g.hit? u t = some hit) (needs : List ImportType) (hs : SameSearch g g') :
    g'.recorded (recordPath t hit.path u) needs = g.recorded u (t :: needs) := by
  unfold recorded
  rw [hs.found (face_recordPath hw t hit.path), recordPath_eq hw, mapNeeds_mapNeeds]
  congr 1
  funext e
  dsimp only [Function.comp_apply]
  by_cases he : e.qualifier = t.qualifier ∧ e.name = t.name
  · have hm : ∃ n ∈ t :: needs, n.qualifier = e.qualifier ∧ n.name = e.name :=
      ⟨t, List.mem_cons_self, he.1.symm, he.2.symm⟩
    rw [found_withPath h he.1 he.2, found_found, ite_self, if_pos hm]
  · have hp : ImportTypes.withPath t.qualifier t.name hit.path e = e := by
      simp [ImportTypes.withPath, he]
    have hm : (∃ n ∈ t :: needs, n.qualifier = e.qualifier ∧ n.name = e.name) ↔
        ∃ n ∈ needs, n.qualifier = e.qualifier ∧ n.name = e.name := by
      have hne : ¬ (t.qualifier = e.qualifier ∧ t.name = e.name) :=
        fun hc => he ⟨hc.1.symm, hc.2.symm⟩
      simp [hne]
    simp only [hp, hm]

theorem recorded_nil (g : ModuleGraph) (u : ModuleUnit) : g.recorded u [] = u := by
  simp [recorded, mapNeeds_self]

theorem sameSearch_modifyUnit {f : ModuleUnit → ModuleUnit}
    (hf : ∀ u, g.unit? id = some u → face (f u) = face u) : SameSearch g (g.modifyUnit id f) := by
  refine ⟨rfl, fun k => ?_⟩
  rw [unit?_modifyUnit]
  split
  · next hk =>
    subst hk
    cases hu : g.unit? k with
    | none => rfl
    | some u => simp [hf u hu]
  · rfl

/-- Neither a new edge nor a recorded path changes where symbols are found. -/
theorem sameSearch_record (hu : g.unit? id = some u) (hw : u.source.importTypes.WellPlaced)
    (edges : List (UnitId × UnitId)) (t : ImportType) (path : String) :
    SameSearch g (modifyUnit { g with edges } id (recordPath t path)) := by
  have h : SameSearch g { g with edges } := ⟨rfl, fun _ => rfl⟩
  refine h.trans (sameSearch_modifyUnit fun v hv => ?_)
  cases hu.symm.trans hv
  exact face_recordPath hw t path

theorem wellPlaced_recordPath (hw : u.source.importTypes.WellPlaced) (t : ImportType)
    (path : String) : (recordPath t path u).source.importTypes.WellPlaced := by
  rw [recordPath_eq hw]
  apply hw.mapEntries
  intro e
  unfold ImportTypes.withPath
  split <;> exact ⟨rfl, rfl⟩

theorem Acyclic.congr {es es' : List (UnitId × UnitId)} (h : ∀ e, e ∈ es ↔ e ∈ es') :
    Acyclic es ↔ Acyclic es' :=
  ⟨fun ha => ha.mono fun e he => (h e).mpr he, fun ha => ha.mono fun e he => (h e).mp he⟩

theorem append_summarize_nil (a : ResolveSummary) (g : ModuleGraph) (u : ModuleUnit) :
    a.append (g.summarize u []) = a := by
  simp [ResolveSummary.append, summarize]

theorem append_summarize_none (a : ResolveSummary) (h : g.hit? u t = none)
    (needs : List ImportType) : a.append (g.summarize u (t :: needs)) =
      ResolveSummary.append { a with unresolved := a.unresolved ++ [t.written] }
        (g.summarize u needs) := by
  simp [ResolveSummary.append, summarize, ImportType.written, h]

theorem append_summarize_some (a : ResolveSummary) {hit : Hit} (h : g.hit? u t = some hit)
    (needs : List ImportType) : a.append (g.summarize u (t :: needs)) =
      ResolveSummary.append { a with resolved := a.resolved + 1 } (g.summarize u needs) := by
  simp only [ResolveSummary.append, summarize, h, List.countP_cons, List.filter_cons,
    Option.isSome_some, Option.isNone_some, ↓reduceIte, Bool.false_eq_true]
  congr 1
  omega

theorem recorded_cons_none (h : g.hit? u t = none) (needs : List ImportType) :
    g.recorded u (t :: needs) = g.recorded u needs := by
  unfold recorded
  congr 1
  funext e
  by_cases he : t.qualifier = e.qualifier ∧ t.name = e.name
  · have hf : g.found u e = e := by
      simp [found, hit?_key g u he.1.symm he.2.symm, h]
    simp [hf]
  · simp [he]

structure Resolvable (g : ModuleGraph) (id : UnitId) (u : ModuleUnit) : Prop where
  unit : g.unit? id = some u
  registered : (g.module? u.module).isSome
  wellPlaced : u.source.importTypes.WellPlaced

theorem Resolvable.record (h : g.Resolvable id u) (edges : List (UnitId × UnitId)) (t : ImportType)
    (path : String) : Resolvable (modifyUnit { g with edges } id (recordPath t path)) id
      (recordPath t path u) := by
  have hu : unit? { g with edges } id = some u := h.unit
  refine ⟨?_, h.registered, wellPlaced_recordPath h.wellPlaced t path⟩
  rw [unit?_modifyUnit, if_pos rfl, hu, Option.map_some]

/-- A pass over some symbols of a unit succeeds exactly if the edges to where they are found close
no cycle. It then adds these edges, records the paths and sums up. -/
theorem resolveEntries_cases (h : g.Resolvable id u) (hg : Acyclic g.edges)
    (needs : List ImportType) (summary : ResolveSummary) :
    (Acyclic (g.edges ++ g.edgesTo id u needs) ∧
      ∃ edges, (∀ e, e ∈ edges ↔ e ∈ g.edges ++ g.edgesTo id u needs) ∧
        resolveEntries id needs summary g = (.ok (summary.append (g.summarize u needs)),
          { g.modifyUnit id (fun _ => g.recorded u needs) with edges })) ∨
    (¬ Acyclic (g.edges ++ g.edgesTo id u needs) ∧
      ∃ path, (resolveEntries id needs summary g).1 = .error (.dependencyCycle path)) := by
  induction needs generalizing g u summary with
  | nil =>
    have hm : g.modifyUnit id (fun _ => u) = g :=
      modifyUnit_eq_self fun v hv => Option.some.inj (h.unit.symm.trans hv)
    refine .inl ⟨by simpa [edgesTo] using hg, g.edges, by simp [edgesTo], ?_⟩
    rw [append_summarize_nil, recorded_nil, hm]
    rfl
  | cons t rest ih =>
    unfold resolveEntries
    rw [findExporter_eq h.unit h.registered]
    cases hh : g.hit? u t with
    | none =>
      have he : g.edgesTo id u (t :: rest) = g.edgesTo id u rest := by simp [edgesTo, hh]
      rw [he, recorded_cons_none hh, append_summarize_none summary hh]
      exact ih h hg _
    | some hit =>
      dsimp only
      have hmem : ∀ e, e ∈ g.edges ++ g.edgesTo id u (t :: rest) ↔
          (e ∈ g.edges ∨ e = (id, hit.exporter) ∧ id ≠ hit.exporter) ∨ e ∈ g.edgesTo id u rest := by
        intro e
        rw [List.mem_append, mem_edgesTo_cons hh, or_assoc]
      have hlive : (g.unit? id).isSome := by simp [h.unit]
      rcases addDependency_cases hlive (isSome_of_hit? hh) with
        ⟨new, edges, hd, hac, hed⟩ | ⟨path, hd, hne, hr⟩
      · rw [hd]
        dsimp only
        let g₁ : ModuleGraph := { g with edges }
        let g₂ := g₁.modifyUnit id (recordPath t hit.path)
        have hf := face_recordPath h.wellPlaced t hit.path
        have hs : SameSearch g g₂ := sameSearch_record h.unit h.wellPlaced edges t hit.path
        have hmem' : ∀ e, e ∈ g₂.edges ++ g₂.edgesTo id (recordPath t hit.path u) rest ↔
            e ∈ g.edges ++ g.edgesTo id u (t :: rest) := by
          intro e
          rw [hmem, hs.edgesTo hf, List.mem_append]
          exact or_congr_left (hed e)
        rw [← Acyclic.congr hmem', append_summarize_some summary hh]
        rcases ih (h.record edges t hit.path) (hac hg)
          { summary with resolved := summary.resolved + 1 } with ⟨ha, es, hes, heq⟩ | hn
        · refine .inl ⟨ha, es, fun e => (hes e).trans (hmem' e), ?_⟩
          rw [heq, hs.summarize hf, recorded_recordPath h.wellPlaced hh rest hs,
            modifyUnit_modifyUnit]
          rfl
        · exact .inr hn
      · rw [hd]
        refine .inr ⟨fun ha => ?_, path, rfl⟩
        have hcons : Acyclic ((id, hit.exporter) :: g.edges) := by
          apply ha.mono
          intro e he
          rcases List.mem_cons.mp he with rfl | he
          · exact (hmem _).mpr (.inl (.inr ⟨rfl, hne⟩))
          · exact (hmem _).mpr (.inl (.inl he))
        exact (acyclic_cons.mp hcons).2 hr

def settle (g : ModuleGraph) (u : ModuleUnit) : ModuleUnit :=
  markParsed (mapNeeds (g.found u) u)

theorem recorded_entries (g : ModuleGraph) (u : ModuleUnit) :
    g.recorded u u.source.importTypes.entries = mapNeeds (g.found u) u := by
  apply mapNeeds_congr
  intro t ht
  rw [if_pos ⟨t, ht, rfl, rfl⟩]

theorem resolveTypes_cases (h : g.Resolvable id u) (hg : Acyclic g.edges) :
    (Acyclic (g.edges ++ g.edgesTo id u u.source.importTypes.entries) ∧
      ∃ edges, (∀ e, e ∈ edges ↔ e ∈ g.edges ++ g.edgesTo id u u.source.importTypes.entries) ∧
        g.resolveTypes id = (.ok (g.summarize u u.source.importTypes.entries),
          { g.modifyUnit id (fun _ => g.settle u) with edges })) ∨
    (¬ Acyclic (g.edges ++ g.edgesTo id u u.source.importTypes.entries) ∧
      ∃ path, (g.resolveTypes id).1 = .error (.dependencyCycle path)) := by
  unfold resolveTypes
  rw [h.unit]
  dsimp only
  rcases resolveEntries_cases h hg u.source.importTypes.entries {} with
    ⟨ha, edges, he, hr⟩ | ⟨ha, path, hr⟩
  · refine .inl ⟨ha, edges, he, ?_⟩
    have hm : ({ g.modifyUnit id (fun _ => mapNeeds (g.found u) u) with edges } :
        ModuleGraph).modifyUnit id markParsed =
        { (g.modifyUnit id (fun _ => mapNeeds (g.found u) u)).modifyUnit id markParsed with
          edges } := rfl
    have hz (b : ResolveSummary) : ResolveSummary.append {} b = b := by
      simp [ResolveSummary.append]
    rw [hr, recorded_entries, hz]
    dsimp only
    rw [hm, modifyUnit_modifyUnit]
    rfl
  · refine .inr ⟨ha, path, ?_⟩
    split
    · next e g' h =>
      rw [h] at hr
      exact hr
    · next summary g' h =>
      rw [h] at hr
      cases hr

theorem Reachable.wellPlaced (h : g.Reachable) (hu : g.unit? id = some u) :
    u.source.importTypes.WellPlaced := by
  refine h.unit_induct (P := fun u => u.source.importTypes.WellPlaced) ?_ ?_ hu
  · intro module name source root config unit hb
    obtain ⟨ast, -, hb⟩ := bind_eq_ok.mp hb
    cases pure_eq_ok.mp hb
    exact ast.importTypes_wellPlaced source config.scope
  · intro u u' hw hc
    cases hc with
    | keep | unbind _ | emit _ => exact hw
    | parse =>
      unfold markParsed
      split <;> exact hw
    | record t path => exact wellPlaced_recordPath hw t path
    | bind uri module importId =>
      obtain ⟨importPaths, hs, -, -⟩ := bindUnit_source uri module importId u
      rw [hs]
      exact hw

theorem Reachable.resolvable (h : g.Reachable) (hu : g.unit? id = some u) : g.Resolvable id u := by
  obtain ⟨m, hm, -⟩ := h.registered.units id u hu
  exact ⟨hu, by simp [hm], h.wellPlaced hu⟩

end ComponentCompiler.ModuleGraph
