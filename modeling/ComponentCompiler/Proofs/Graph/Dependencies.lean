import ComponentCompiler.Proofs.Graph.CompileOrder

namespace ComponentCompiler.ModuleGraph

variable {g : ModuleGraph} {a b : UnitId} {back : List UnitId}

/-- A way along the edges from the exporter of an edge back to its importer. Together with the edge
it is a cycle that meets no unit twice. -/
structure WayBack (g : ModuleGraph) (importer exporter : UnitId) (back : List UnitId) : Prop where
  starts : back.head? = some exporter
  ends : back.getLast? = some importer
  steps : back.IsChain (Leads g.edges)
  simple : (importer :: back.dropLast).Nodup

def NamesOf (g : ModuleGraph) (ids : List UnitId) (names : List String) : Prop :=
  ids.map (fun id => (g.unit? id).map (·.name)) = names.map some

theorem wayBack_of_path? (h : g.path? b a = some back) : g.WayBack a b back := by
  obtain ⟨hstart, hsteps, hend⟩ := Search.path?_some h
  have hnodup : back.Nodup := Search.path?_nodup h
  refine ⟨hstart, hend, hsteps.imp fun _ _ => mem_next.mp, ?_⟩
  -- the importer is the last unit of the way, so in front of the others it is there once
  rw [← List.dropLast_append_getLast? a hend] at hnodup
  exact (List.perm_append_singleton a _).nodup_iff.mp hnodup

theorem WayBack.live (hg : g.SoundEdges) (h : g.WayBack a b back) (hb : (g.unit? b).isSome) :
    ∀ id ∈ back, (g.unit? id).isSome := by
  refine h.steps.induction (fun id => (g.unit? id).isSome) back ?_ ?_
  · intro x y he _
    exact (hg.live _ he).2
  · intro hne
    have hhead : back.head hne = b := by simpa [List.head?_eq_some_head hne] using h.starts
    rwa [hhead]

theorem namesOf_nameOf {ids : List UnitId} (h : ∀ id ∈ ids, (g.unit? id).isSome) :
    g.NamesOf ids (ids.map g.nameOf) := by
  rw [NamesOf, List.map_map]
  apply List.map_congr_left
  intro id hm
  obtain ⟨u, hu⟩ := Option.isSome_iff_exists.mp (h id hm)
  simp [nameOf, hu]

/-- The outcomes of adding an edge, each with what it takes. -/
inductive Outcome (g : ModuleGraph) (a b : UnitId) : Except GraphError (Bool × ModuleGraph) → Prop
  | noImporter (ha : ¬ (g.unit? a).isSome) : Outcome g a b (.error (.unknownUnit a))
  | noExporter (ha : (g.unit? a).isSome) (hb : ¬ (g.unit? b).isSome) :
      Outcome g a b (.error (.unknownUnit b))
  | present (ha : (g.unit? a).isSome) (hb : (g.unit? b).isSome)
      (h : a = b ∨ (a, b) ∈ g.edges) : Outcome g a b (.ok (false, g))
  | refused (ha : (g.unit? a).isSome) (hb : (g.unit? b).isSome) (hne : a ≠ b)
      (hm : (a, b) ∉ g.edges) (hr : Reaches g.edges b a) {back : List UnitId} {names : List String}
      (hw : g.WayBack a b back) (hn : g.NamesOf (a :: back) names) :
      Outcome g a b (.error (.dependencyCycle names))
  | added (ha : (g.unit? a).isSome) (hb : (g.unit? b).isSome) (hne : a ≠ b)
      (hm : (a, b) ∉ g.edges) (hr : ¬ Reaches g.edges b a) :
      Outcome g a b (.ok (true, { g with edges := (a, b) :: g.edges }))

theorem requireUnit_eq_error (h : g.unit? a = none) :
    g.requireUnit a = .error (.unknownUnit a) := by
  simp [requireUnit, h]

theorem addDependency_outcome (hg : g.SoundEdges) (a b : UnitId) :
    g.Outcome a b (g.addDependency a b) := by
  cases hua : g.unit? a with
  | none =>
    rw [addDependency, requireUnit_eq_error hua]
    exact .noImporter (by simp [hua])
  | some u =>
    have ha : (g.unit? a).isSome := by simp [hua]
    cases hub : g.unit? b with
    | none =>
      rw [addDependency, requireUnit_eq_ok.mpr hua, requireUnit_eq_error hub]
      exact .noExporter ha (by simp [hub])
    | some v =>
      have hb : (g.unit? b).isSome := by simp [hub]
      by_cases hold : a = b ∨ (a, b) ∈ g.edges
      · rw [addDependency_eq_ok.mpr ⟨ha, hb, by rw [if_pos hold]; exact ⟨rfl, rfl⟩⟩]
        exact .present ha hb hold
      · obtain ⟨hne, hm⟩ := not_or.mp hold
        cases hp : g.path? b a with
        | none =>
          rw [addDependency_eq_ok.mpr ⟨ha, hb, by rw [if_neg hold]; exact ⟨hp, rfl, rfl⟩⟩]
          exact .added ha hb hne hm (by rw [← path?_isSome, hp]; simp)
        | some back =>
          have hc : ¬ (a = b ∨ g.edges.contains (a, b) = true) := by simpa using hold
          simp only [addDependency, requireUnit_eq_ok.mpr hua, requireUnit_eq_ok.mpr hub, hp, hc]
          have hw : g.WayBack a b back := wayBack_of_path? hp
          refine .refused ha hb hne hm (path?_isSome.mp (by simp [hp])) hw (namesOf_nameOf ?_)
          exact List.forall_mem_cons.mpr ⟨ha, hw.live hg hb⟩

/-- An unknown unit is reported, that of the importer first. An edge from a unit to itself and one
that is there change nothing. An edge whose exporter reaches its importer is refused, with the names
along a cycle that it would close. All others are added. In every case but the last the graph stays
as it is. -/
theorem addDependency_answers (hg : g.Reachable) (importer exporter : UnitId) :
    (∀ id, g.addDependency importer exporter = .error (.unknownUnit id) ↔
      (¬ (g.unit? importer).isSome ∧ id = importer) ∨
      ((g.unit? importer).isSome ∧ ¬ (g.unit? exporter).isSome ∧ id = exporter)) ∧
    (∀ g', g.addDependency importer exporter = .ok (false, g') ↔
      (g.unit? importer).isSome ∧ (g.unit? exporter).isSome ∧
      (importer = exporter ∨ (importer, exporter) ∈ g.edges) ∧ g' = g) ∧
    ((∃ names, g.addDependency importer exporter = .error (.dependencyCycle names)) ↔
      (g.unit? importer).isSome ∧ (g.unit? exporter).isSome ∧ importer ≠ exporter ∧
      (importer, exporter) ∉ g.edges ∧ Reaches g.edges exporter importer) ∧
    (∀ names, g.addDependency importer exporter = .error (.dependencyCycle names) →
      ∃ back, g.WayBack importer exporter back ∧ g.NamesOf (importer :: back) names) ∧
    (∀ g', g.addDependency importer exporter = .ok (true, g') ↔
      (g.unit? importer).isSome ∧ (g.unit? exporter).isSome ∧ importer ≠ exporter ∧
      (importer, exporter) ∉ g.edges ∧ ¬ Reaches g.edges exporter importer ∧
      g' = { g with edges := (importer, exporter) :: g.edges }) ∧
    ((∀ g', g.addDependency importer exporter ≠ .ok (true, g')) →
      g.perform (.addDependency importer exporter) = g) := by
  have ho := addDependency_outcome hg.soundEdges importer exporter
  rw [perform]
  generalize g.addDependency importer exporter = answer at ho
  cases ho with
  | noImporter ha => exact ⟨fun id => by simpa [ha] using eq_comm, by simp [ha, orKeep]⟩
  | noExporter ha hb => exact ⟨fun id => by simpa [ha, hb] using eq_comm, by simp [ha, hb, orKeep]⟩
  | present ha hb h =>
    have hnot : importer ≠ exporter → (importer, exporter) ∈ g.edges := h.resolve_left
    simp +contextual [ha, hb, h, hnot, orKeep, eq_comm]
  | @refused ha hb hne hm hr back names hw hn =>
    have hway : ∃ back, g.WayBack importer exporter back ∧ g.NamesOf (importer :: back) names :=
      ⟨back, hw, hn⟩
    simp [ha, hb, hne, hm, hr, hway, orKeep]
  | added ha hb hne hm hr => simp [ha, hb, hne, hm, hr, eq_comm]

theorem gappedLine_ring : ∃ back, gappedLine.WayBack 4 0 back ∧
    gappedLine.NamesOf (4 :: back) ["E", "A", "D", "C", "E"] := by
  have hg : gappedLine.Reachable := ⟨{}, _, rfl⟩
  have he : (gappedLine.addDependency 4 0).map (·.1) =
      .error (.dependencyCycle ["E", "A", "D", "C", "E"]) := by decide +kernel
  apply (addDependency_answers hg 4 0).2.2.2.1
  cases hc : gappedLine.addDependency 4 0 with
  | ok _ => simp [hc, Except.map] at he
  | error e => simpa [hc, Except.map] using he

end ComponentCompiler.ModuleGraph
