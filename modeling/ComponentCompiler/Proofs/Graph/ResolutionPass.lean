import ComponentCompiler.Proofs.Graph.Resolution

namespace ComponentCompiler

namespace ImportTypes

variable {t : ImportTypes}

theorem WellPlaced.distinct (h : t.WellPlaced) :
    t.entries.Pairwise fun a b => ¬ (a.qualifier = b.qualifier ∧ a.name = b.name) := by
  unfold entries Dictionary.values
  apply List.pairwise_flatMap.mpr
  constructor
  · intro d hd
    obtain ⟨g, hg, rfl⟩ := List.mem_map.mp hd
    apply List.pairwise_map.mpr
    apply (h.symbols g hg).imp_of_mem
    rintro a b ha hb hlt ⟨-, hn⟩
    rw [(h.keyed g hg a ha).2, (h.keyed g hg b hb).2] at hn
    exact String.lt_irrefl a.1 (hn ▸ hlt)
  · apply List.pairwise_map.mpr
    apply h.groups.imp_of_mem
    rintro g g' hg hg' hlt a ha b hb ⟨hq, -⟩
    obtain ⟨x, hx, rfl⟩ := List.mem_map.mp ha
    obtain ⟨y, hy, rfl⟩ := List.mem_map.mp hb
    rw [(h.keyed g hg x hx).1, (h.keyed g' hg' y hy).1] at hq
    exact String.lt_irrefl g.1 (hq ▸ hlt)

end ImportTypes

namespace ModuleGraph

variable {g g' : ModuleGraph} {id k : UnitId} {u : ModuleUnit} {t : ImportType}
  {needs before after : List ImportType}

abbrev symbolsOf (u : ModuleUnit) : List ImportType :=
  u.source.importTypes.entries

/-- The hit of `t` closes a cycle with the edges of the graph and those of the hits before it. -/
def ClosesCycle (g : ModuleGraph) (id : UnitId) (u : ModuleUnit) (before : List ImportType)
    (t : ImportType) : Prop :=
  ∃ hit, g.hit? u t = some hit ∧ hit.exporter ≠ id ∧
    Reaches (g.edges ++ g.edgesTo id u before) hit.exporter id

/-- From `g` to `g'`, the hits of the symbols in `needs` were recorded, with the edges to their
exporters, the symbols in `rest` kept what they had, and the unit got a state. -/
structure Passed (g : ModuleGraph) (id : UnitId) (u : ModuleUnit) (needs rest : List ImportType)
    (state : UnitState) (g' : ModuleGraph) : Prop where
  unit : g'.unit? id = some { g.recorded u needs with state }
  symbols : symbolsOf (g.recorded u needs) = needs.map (g.found u) ++ rest
  edges : ∀ e, e ∈ g'.edges ↔ e ∈ g.edges ∨
    e.1 = id ∧ e.2 ≠ id ∧ ∃ t ∈ needs, ∃ hit, g.hit? u t = some hit ∧ hit.exporter = e.2
  others : ∀ k, k ≠ id → g'.unit? k = g.unit? k
  registry : g'.registry = g.registry

theorem edgesTo_append (g : ModuleGraph) (id : UnitId) (u : ModuleUnit)
    (before after : List ImportType) :
    g.edgesTo id u (before ++ after) = g.edgesTo id u before ++ g.edgesTo id u after := by
  simp [edgesTo]

theorem mem_edgesTo {e : UnitId × UnitId} : e ∈ g.edgesTo id u needs ↔
    e.1 = id ∧ e.2 ≠ id ∧ ∃ t ∈ needs, ∃ hit, g.hit? u t = some hit ∧ hit.exporter = e.2 := by
  simp only [edgesTo, List.mem_filter, List.mem_map, List.mem_filterMap, bne_iff_ne, ne_eq]
  constructor
  · rintro ⟨⟨hit, ⟨t, ht, hh⟩, rfl⟩, hne⟩
    exact ⟨rfl, Ne.symm hne, t, ht, hit, hh, rfl⟩
  · rintro ⟨h1, hne, t, ht, hit, hh, h2⟩
    refine ⟨⟨hit, ⟨t, ht, hh⟩, ?_⟩, ?_⟩
    · rw [h2, ← h1]
    · rw [h1]
      exact Ne.symm hne

theorem acyclic_edgesTo_concat :
    Acyclic (g.edges ++ g.edgesTo id u (before ++ [t])) ↔
      Acyclic (g.edges ++ g.edgesTo id u before) ∧ ¬ g.ClosesCycle id u before t := by
  cases hh : g.hit? u t with
  | none =>
    have he : g.edgesTo id u (before ++ [t]) = g.edgesTo id u before := by
      simp [edgesTo, hh]
    have hc : ¬ g.ClosesCycle id u before t := by simp [ClosesCycle, hh]
    rw [he, and_iff_left hc]
  | some hit =>
    by_cases hid : hit.exporter = id
    · have he : g.edgesTo id u (before ++ [t]) = g.edgesTo id u before := by
        simp [edgesTo, hh, hid]
      have hc : ¬ g.ClosesCycle id u before t := by simp [ClosesCycle, hh, hid]
      rw [he, and_iff_left hc]
    · have he : ∀ e, e ∈ g.edges ++ g.edgesTo id u (before ++ [t]) ↔
          e ∈ (id, hit.exporter) :: (g.edges ++ g.edgesTo id u before) := by
        intro e
        have hne : ¬ id = hit.exporter := fun h => hid h.symm
        simp only [edgesTo_append, List.mem_append, mem_edgesTo_cons hh, List.mem_cons]
        simp only [edgesTo, List.filterMap_nil, List.map_nil, List.filter_nil, List.not_mem_nil]
        grind
      have hc : g.ClosesCycle id u before t ↔
          Reaches (g.edges ++ g.edgesTo id u before) hit.exporter id := by
        simp [ClosesCycle, hh, hid]
      rw [Acyclic.congr he, acyclic_cons, hc]

theorem not_closesCycle (h : Acyclic (g.edges ++ g.edgesTo id u (before ++ t :: after))) :
    ¬ g.ClosesCycle id u before t := by
  have hs : g.edges ++ g.edgesTo id u (before ++ [t]) ⊆
      g.edges ++ g.edgesTo id u (before ++ t :: after) := by
    have hl : before ++ t :: after = (before ++ [t]) ++ after := by simp
    rw [hl, edgesTo_append g id u (before ++ [t]), ← List.append_assoc]
    exact List.subset_append_left _ _
  exact (acyclic_edgesTo_concat.mp (h.mono hs)).2

theorem first_closesCycle (hg : Acyclic g.edges) (id : UnitId) (u : ModuleUnit)
    (needs : List ImportType) :
    Acyclic (g.edges ++ g.edgesTo id u needs) ∨ ∃ before t after, needs = before ++ t :: after ∧
      Acyclic (g.edges ++ g.edgesTo id u before) ∧ g.ClosesCycle id u before t := by
  induction needs using List.reverseRecOn with
  | nil => exact .inl (by simpa [edgesTo] using hg)
  | append_singleton needs t ih =>
    cases ih with
    | inl ha =>
      by_cases hc : g.ClosesCycle id u needs t
      · exact .inr ⟨needs, t, [], rfl, ha, hc⟩
      · exact .inl (acyclic_edgesTo_concat.mpr ⟨ha, hc⟩)
    | inr hf =>
      obtain ⟨before, s, after, rfl, ha, hc⟩ := hf
      exact .inr ⟨before, s, after ++ [t], by simp, ha, hc⟩

theorem acyclic_iff_none_closes (hg : Acyclic g.edges) :
    Acyclic (g.edges ++ g.edgesTo id u needs) ↔
      ∀ before t after, needs = before ++ t :: after → ¬ g.ClosesCycle id u before t := by
  constructor
  · rintro ha before t after rfl
    exact not_closesCycle ha
  · intro hn
    cases first_closesCycle hg id u needs with
    | inl ha => exact ha
    | inr hf =>
      obtain ⟨before, t, after, hs, -, hc⟩ := hf
      exact absurd hc (hn before t after hs)

theorem resolveEntries_append (id : UnitId) (before rest : List ImportType)
    (summary : ResolveSummary) (g : ModuleGraph) :
    resolveEntries id (before ++ rest) summary g =
      match resolveEntries id before summary g with
      | (.error e, g') => (.error e, g')
      | (.ok summary', g') => resolveEntries id rest summary' g' := by
  induction before generalizing summary g with
  | nil => rfl
  | cons t before ih =>
    simp only [List.cons_append, resolveEntries]
    cases g.findExporter id t with
    | error e => rfl
    | ok found =>
      cases found with
      | none => exact ih _ g
      | some hit =>
        dsimp only
        cases g.addDependency id hit.exporter with
        | error e => rfl
        | ok added => exact ih _ _

theorem symbolsOf_recorded (hw : u.source.importTypes.WellPlaced)
    (hs : symbolsOf u = before ++ after) :
    symbolsOf (g.recorded u before) = before.map (g.found u) ++ after := by
  have hd := hw.distinct
  have he : symbolsOf (g.recorded u before) = (symbolsOf u).map fun t =>
      if ∃ n ∈ before, n.qualifier = t.qualifier ∧ n.name = t.name then g.found u t else t :=
    ImportTypes.entries_mapEntries _ _
  rw [show u.source.importTypes.entries = before ++ after from hs] at hd
  rw [he, hs, List.map_append]
  congr 1
  · apply List.map_congr_left
    intro t ht
    rw [if_pos ⟨t, ht, rfl, rfl⟩]
  · conv_rhs => rw [← List.map_id after]
    apply List.map_congr_left
    intro t ht
    apply if_neg
    rintro ⟨n, hn, hk⟩
    exact (List.pairwise_append.mp hd).2.2 n hn t ht hk

theorem passed_recorded {edges : List (UnitId × UnitId)} {state : UnitState}
    {f : ModuleUnit → ModuleUnit} (h : g.Resolvable id u) (hs : symbolsOf u = before ++ after)
    (he : ∀ e, e ∈ edges ↔ e ∈ g.edges ++ g.edgesTo id u before)
    (hf : f u = { g.recorded u before with state }) :
    g.Passed id u before after state { g.modifyUnit id f with edges } := by
  have hunit (k : UnitId) : unit? { g.modifyUnit id f with edges } k =
      (g.modifyUnit id f).unit? k := rfl
  refine ⟨?_, symbolsOf_recorded h.wellPlaced hs, ?_, ?_, rfl⟩
  · rw [hunit, unit?_modifyUnit, if_pos rfl, h.unit, Option.map_some, hf]
  · intro e
    rw [he e, List.mem_append, mem_edgesTo]
  · intro k hk
    rw [hunit, unit?_modifyUnit, if_neg hk]

theorem Passed.sameSearch {rest : List ImportType} {state : UnitState}
    (h : g.Passed id u needs rest state g') (hu : g.unit? id = some u) : SameSearch g g' := by
  refine ⟨h.registry, fun k => ?_⟩
  by_cases hk : k = id
  · rw [hk, h.unit, hu]
    rfl
  · rw [h.others k hk]

theorem Passed.mem_edges {rest : List ImportType} {state : UnitState}
    (h : g.Passed id u needs rest state g') (e : UnitId × UnitId) :
    e ∈ g'.edges ↔ e ∈ g.edges ++ g.edgesTo id u needs := by
  rw [h.edges e, List.mem_append, mem_edgesTo]

theorem SameSearch.isSome (h : SameSearch g g') (k : UnitId) :
    (g'.unit? k).isSome = (g.unit? k).isSome := by
  simpa using congrArg Option.isSome (h.units k)

theorem Resolvable.passed_all (h : g.Resolvable id u) (hg : Acyclic g.edges)
    (ha : Acyclic (g.edges ++ g.edgesTo id u (symbolsOf u))) :
    ∃ g', g.resolveTypes id = (.ok (g.summarize u (symbolsOf u)), g') ∧
      g.Passed id u (symbolsOf u) []
        (if u.state = .initialized then .parsed else u.state) g' := by
  cases resolveTypes_cases h hg with
  | inr hn => exact absurd ha hn.1
  | inl hok =>
    obtain ⟨-, edges, he, hr⟩ := hok
    refine ⟨_, hr, passed_recorded h (List.append_nil _).symm he ?_⟩
    rw [recorded_entries]
    unfold settle markParsed
    by_cases hs : u.state = .initialized <;> simp [hs, mapNeeds]

theorem addDependency_closing {a b : UnitId} (hg : Acyclic g.edges) (ha : (g.unit? a).isSome)
    (hb : (g.unit? b).isSome) (hne : b ≠ a) (hr : Reaches g.edges b a) :
    ∃ path, g.addDependency a b = .error (.dependencyCycle path) := by
  cases addDependency_cases ha hb with
  | inl hok =>
    obtain ⟨new, edges, -, hac, hed⟩ := hok
    have he : (a, b) ∈ edges := (hed _).mpr (.inr ⟨rfl, Ne.symm hne⟩)
    have hback : Reaches edges b a :=
      Relation.ReflTransGen.mono (fun _ _ h => (hed _).mpr (.inl h)) b a hr
    exact absurd (Relation.TransGen.head' he hback) (hac hg a)
  | inr herr =>
    obtain ⟨path, hd, -, -⟩ := herr
    exact ⟨path, hd⟩

/-- The pass stops where the hit of a symbol closes a cycle. -/
theorem Resolvable.passed_until (h : g.Resolvable id u) (hg : Acyclic g.edges)
    (hs : symbolsOf u = before ++ t :: after) (ha : Acyclic (g.edges ++ g.edgesTo id u before))
    (hc : g.ClosesCycle id u before t) :
    ∃ path g', g.resolveTypes id = (.error (.dependencyCycle path), g') ∧
      g.Passed id u before (t :: after) u.state g' := by
  cases resolveEntries_cases h hg before {} with
  | inr hn => exact absurd ha hn.1
  | inl hok =>
    obtain ⟨-, edges, he, hr⟩ := hok
    obtain ⟨hit, hh, hne, hreach⟩ := hc
    have hp : g.Passed id u before (t :: after) u.state _ :=
      passed_recorded (f := fun _ => g.recorded u before) h hs he rfl
    generalize { g.modifyUnit id (fun _ => g.recorded u before) with edges } = g₁ at hr hp
    -- the symbol is found where it was found before the pass
    have hsame := hp.sameSearch h.unit
    have hhit : g₁.hit? { g.recorded u before with state := u.state } t = g.hit? u t :=
      hsame.hit? rfl rfl rfl
    have hfind : g₁.findExporter id t = .ok (some hit) := by
      rw [findExporter_eq hp.unit, hhit, hh]
      rw [hsame.module?]
      exact h.registered
    have hback : Reaches g₁.edges hit.exporter id :=
      Relation.ReflTransGen.mono (fun _ _ hl => (hp.mem_edges _).mpr hl) _ _ hreach
    have hlive : (g₁.unit? hit.exporter).isSome := by
      rw [hsame.isSome]
      exact isSome_of_hit? hh
    obtain ⟨path, hd⟩ := addDependency_closing ((Acyclic.congr hp.mem_edges).mpr ha)
      (by simp [hp.unit]) hlive hne hback
    refine ⟨path, g₁, ?_, hp⟩
    have hpass : resolveEntries id (symbolsOf u) {} g = (.error (.dependencyCycle path), g₁) := by
      rw [hs, resolveEntries_append, hr]
      simp only [resolveEntries, hfind, hd]
    simp only [resolveTypes, h.unit, hpass]

/-- A pass records all hits, or those before one that closes a cycle. -/
theorem Resolvable.passed_cases (h : g.Resolvable id u) (hg : Acyclic g.edges) :
    (∃ g', g.resolveTypes id = (.ok (g.summarize u (symbolsOf u)), g') ∧
      g.Passed id u (symbolsOf u) []
        (if u.state = .initialized then .parsed else u.state) g') ∨
    ∃ before after path g', g.resolveTypes id = (.error (.dependencyCycle path), g') ∧
      g.Passed id u before after u.state g' := by
  cases first_closesCycle hg id u (symbolsOf u) with
  | inl ha => exact .inl (h.passed_all hg ha)
  | inr hf =>
    obtain ⟨before, t, after, hs, ha, hc⟩ := hf
    exact .inr ⟨before, t :: after, h.passed_until hg hs ha hc⟩

/-- In a graph that a run reaches no lookup of the search fails. If no hit closes a cycle, the pass
records all of them and sums up; if one does, the pass fails with it and leaves the hits before the
first such one behind. It fails in no other way. -/
theorem resolveTypes_records_before_cycle (hg : g.Reachable) (hu : g.unit? id = some u) :
    (∀ t, g.findExporter id t = .ok (g.hit? u t)) ∧
    ((∀ before t after, symbolsOf u = before ++ t :: after → ¬ g.ClosesCycle id u before t) →
      ∃ g', g.resolveTypes id = (.ok (g.summarize u (symbolsOf u)), g') ∧
        g.Passed id u (symbolsOf u) []
          (if u.state = .initialized then .parsed else u.state) g') ∧
    (∀ before t after, symbolsOf u = before ++ t :: after → g.ClosesCycle id u before t →
      (∀ earlier s later, before = earlier ++ s :: later → ¬ g.ClosesCycle id u earlier s) →
      ∃ path g', g.resolveTypes id = (.error (.dependencyCycle path), g') ∧
        g.Passed id u before (t :: after) u.state g') ∧
    ∀ e, (g.resolveTypes id).1 = .error e → ∃ path, e = .dependencyCycle path := by
  have hr := hg.resolvable hu
  have hacyclic := hg.soundEdges.acyclic
  refine ⟨findExporter_eq hu hr.registered, ?_, ?_, ?_⟩
  · intro hn
    exact hr.passed_all hacyclic ((acyclic_iff_none_closes hacyclic).mpr hn)
  · intro before t after hs hc hfirst
    exact hr.passed_until hacyclic hs ((acyclic_iff_none_closes hacyclic).mpr hfirst) hc
  · intro e he
    cases hr.passed_cases hacyclic with
    | inl hok =>
      obtain ⟨g', hok, -⟩ := hok
      rw [hok] at he
      cases he
    | inr herr =>
      obtain ⟨before, after, path, g', herr, -⟩ := herr
      rw [herr] at he
      cases he
      exact ⟨path, rfl⟩

/-- `A` is derived from `C`, and `E` beside it from `D`. `D`, resolved, is derived from `A`. Of the
bases in the last unit only `C` is there: `Z` is nowhere, and `lib` is not loaded. -/
def derivedRound : ModuleGraph :=
  run {} [
    .addModule "app",
    .addUnit 0 "A.lv" "A C E D" (.node { kind := "program", span := ⟨0, 7⟩ } [
      .node { kind := "component_declaration", span := ⟨0, 3⟩ } [
        .node { kind := "identifier", span := ⟨0, 1⟩ } [],
        .node { kind := "component_heritage", span := ⟨2, 3⟩ } [
          .node { kind := "identifier", span := ⟨2, 3⟩ } []]],
      .node { kind := "component_declaration", span := ⟨4, 7⟩ } [
        .node { kind := "identifier", span := ⟨4, 5⟩ } [],
        .node { kind := "component_heritage", span := ⟨6, 7⟩ } [
          .node { kind := "identifier", span := ⟨6, 7⟩ } []]]]),
    .addUnit 0 "C.lv" "C" (.node { kind := "program", span := ⟨0, 1⟩ } [
      .node { kind := "component_declaration", span := ⟨0, 1⟩ } [
        .node { kind := "identifier", span := ⟨0, 1⟩ } []]]),
    .addUnit 0 "D.lv" "D A" (.node { kind := "program", span := ⟨0, 3⟩ } [
      .node { kind := "component_declaration", span := ⟨0, 3⟩ } [
        .node { kind := "identifier", span := ⟨0, 1⟩ } [],
        .node { kind := "component_heritage", span := ⟨2, 3⟩ } [
          .node { kind := "identifier", span := ⟨2, 3⟩ } []]]]),
    .addUnit 0 "F.lv" "lib as N F N X G C H Z" (.node { kind := "program", span := ⟨0, 22⟩ } [
      .node { kind := "import_statement", span := ⟨0, 8⟩ } [
        .node { kind := "import_path", span := ⟨0, 3⟩ } [
          .node { kind := "identifier", span := ⟨0, 3⟩ } []],
        .node { kind := "import_as", span := ⟨4, 8⟩ } [
          .node { kind := "as", span := ⟨4, 6⟩, named := false } [],
          .node { kind := "identifier", span := ⟨7, 8⟩ } []]],
      .node { kind := "component_declaration", span := ⟨9, 14⟩ } [
        .node { kind := "identifier", span := ⟨9, 10⟩ } [],
        .node { kind := "component_heritage", span := ⟨11, 14⟩ } [
          .node { kind := "identifier", span := ⟨11, 12⟩ } [],
          .node { kind := "identifier", span := ⟨13, 14⟩ } []]],
      .node { kind := "component_declaration", span := ⟨15, 18⟩ } [
        .node { kind := "identifier", span := ⟨15, 16⟩ } [],
        .node { kind := "component_heritage", span := ⟨17, 18⟩ } [
          .node { kind := "identifier", span := ⟨17, 18⟩ } []]],
      .node { kind := "component_declaration", span := ⟨19, 22⟩ } [
        .node { kind := "identifier", span := ⟨19, 20⟩ } [],
        .node { kind := "component_heritage", span := ⟨21, 22⟩ } [
          .node { kind := "identifier", span := ⟨21, 22⟩ } []]]]),
    .resolveTypes 2]

theorem derivedRound_edges : derivedRound.edges = [(2, 0)] := by
  decide +kernel

theorem derivedRound_not_closesCycle (hne : id ≠ 1)
    (hh : ∀ hit, derivedRound.hit? u t = some hit → hit.exporter = 1) (before : List ImportType) :
    ¬ derivedRound.ClosesCycle id u before t := by
  rintro ⟨hit, hhit, -, hr⟩
  rw [hh hit hhit] at hr
  cases Relation.ReflTransGen.cases_head hr with
  | inl h => exact hne h.symm
  | inr h =>
    obtain ⟨b, hb, -⟩ := h
    simp [Leads, derivedRound_edges, edgesTo, hne] at hb

theorem derivedRound_passed :
    (∃ u path g', derivedRound.unit? 0 = some u ∧
      symbolsOf u = [⟨"C", "", none⟩, ⟨"D", "", none⟩] ∧
      derivedRound.resolveTypes 0 = (.error (.dependencyCycle path), g') ∧
      derivedRound.Passed 0 u [⟨"C", "", none⟩] [⟨"D", "", none⟩] .initialized g' ∧
      (0, 1) ∈ g'.edges ∧ (0, 2) ∉ g'.edges) ∧
    ∃ u g', derivedRound.unit? 3 = some u ∧
      symbolsOf u = [⟨"C", "", none⟩, ⟨"Z", "", none⟩, ⟨"X", "N", none⟩] ∧
      derivedRound.resolveTypes 3 = (.ok ⟨1, ["Z", "N.X"]⟩, g') ∧
      derivedRound.Passed 3 u (symbolsOf u) [] .parsed g' ∧ (3, 1) ∈ g'.edges := by
  have hg : derivedRound.Reachable := ⟨{}, _, rfl⟩
  constructor
  · have hunit : (derivedRound.unit? 0).map (fun u => (u.state, symbolsOf u,
        derivedRound.hit? u ⟨"C", "", none⟩, derivedRound.hit? u ⟨"D", "", none⟩)) =
        some (.initialized, [⟨"C", "", none⟩, ⟨"D", "", none⟩], some ⟨1, "./C.lv.js"⟩,
          some ⟨2, "./D.lv.js"⟩) := by decide +kernel
    obtain ⟨u, hu, hparts⟩ := Option.map_eq_some_iff.mp hunit
    obtain ⟨hstate, hsymbols, hc, hd⟩ : _ ∧ _ ∧ _ ∧ _ := by simpa using hparts
    have hclose : derivedRound.ClosesCycle 0 u [⟨"C", "", none⟩] ⟨"D", "", none⟩ := by
      refine ⟨_, hd, by decide, .single ?_⟩
      simp [Leads, derivedRound_edges]
    have hopen : ∀ hit, derivedRound.hit? u ⟨"C", "", none⟩ = some hit → hit.exporter = 1 := by
      simp [hc]
    obtain ⟨-, -, herr, -⟩ := resolveTypes_records_before_cycle hg hu
    obtain ⟨path, g', hr, hp⟩ := herr [⟨"C", "", none⟩] ⟨"D", "", none⟩ [] hsymbols hclose (by
      intro earlier s later hs
      cases earlier with
      | nil =>
        cases hs
        exact derivedRound_not_closesCycle (by decide) hopen []
      | cons a rest => simp at hs)
    refine ⟨u, path, g', hu, hsymbols, hr, hstate ▸ hp, ?_, ?_⟩
    · rw [hp.mem_edges]
      simp [derivedRound_edges, edgesTo, hc]
    · rw [hp.mem_edges]
      simp [derivedRound_edges, edgesTo, hc]
  · have hunit : (derivedRound.unit? 3).map (fun u => (u.state, symbolsOf u,
        derivedRound.hit? u ⟨"C", "", none⟩, derivedRound.hit? u ⟨"Z", "", none⟩,
        derivedRound.hit? u ⟨"X", "N", none⟩)) =
        some (.initialized, [⟨"C", "", none⟩, ⟨"Z", "", none⟩, ⟨"X", "N", none⟩],
          some ⟨1, "./C.lv.js"⟩, none, none) := by decide +kernel
    obtain ⟨u, hu, hparts⟩ := Option.map_eq_some_iff.mp hunit
    obtain ⟨hstate, hsymbols, hc, hz, hx⟩ : _ ∧ _ ∧ _ ∧ _ ∧ _ := by simpa using hparts
    have hsummary : derivedRound.summarize u (symbolsOf u) = ⟨1, ["Z", "N.X"]⟩ := by
      simp [summarize, hsymbols, hc, hz, hx]
    have hhits : ∀ t ∈ symbolsOf u, ∀ hit, derivedRound.hit? u t = some hit →
        hit.exporter = 1 := by
      simp [hsymbols, hc, hz, hx]
    obtain ⟨-, hok, -⟩ := resolveTypes_records_before_cycle hg hu
    obtain ⟨g', hr, hp⟩ := hok fun before t after hs =>
      derivedRound_not_closesCycle (by decide) (hhits t (by simp [hs])) before
    refine ⟨u, g', hu, hsymbols, hsummary ▸ hr, by simpa [hstate] using hp, ?_⟩
    rw [hp.mem_edges]
    simp [derivedRound_edges, edgesTo, hsymbols, hc]

end ModuleGraph

end ComponentCompiler
