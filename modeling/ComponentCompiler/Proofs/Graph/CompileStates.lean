import ComponentCompiler.Proofs.Graph.Agreement
import ComponentCompiler.Proofs.Graph.CompileOrder
import ComponentCompiler.Proofs.Graph.ResolutionPass

namespace ComponentCompiler

def UnitState.rank : UnitState → Nat
  | initialized => 0
  | parsed => 1
  | compiled => 2

namespace ModuleGraph

variable {g g' : ModuleGraph} {id k : UnitId} {u u' : ModuleUnit} {ids order : List UnitId}

theorem UnitChange.rank_le (h : UnitChange u u') : u.state.rank ≤ u'.state.rank := by
  cases h with
  | keep | unbind _ | bind _ _ _ | record _ _ => exact Nat.le_refl _
  | parse =>
    unfold markParsed
    split
    · next hs => simp [hs, UnitState.rank]
    · exact Nat.le_refl _
  | emit text => cases hs : u.state <;> simp [setOutput, UnitState.rank]

theorem UnitChange.output_iff (h : UnitChange u u') (hu : u.output.isSome ↔ u.state = .compiled) :
    u'.output.isSome ↔ u'.state = .compiled := by
  cases h with
  | keep | unbind _ | bind _ _ _ | record _ _ => exact hu
  | parse =>
    unfold markParsed
    split
    · next hs => simpa [hs] using hu
    · exact hu
  | emit text => simp [setOutput]

theorem Reachable.output_iff (h : g.Reachable) (hu : g.unit? k = some u) :
    u.output.isSome ↔ u.state = .compiled := by
  refine h.unit_induct (P := fun u => u.output.isSome ↔ u.state = .compiled) ?_ ?_ hu
  · intro module name source root config unit _
    simp [ModuleUnit.ofSource]
  · exact fun u u' hu hc => hc.output_iff hu

theorem Updates.rank_le (h : Updates g g') (hu' : g'.unit? k = some u') :
    ∃ u, g.unit? k = some u ∧ u.state.rank ≤ u'.state.rank := by
  induction h generalizing u' with
  | refl => exact ⟨u', hu', Nat.le_refl _⟩
  | tail _ hc ih =>
    obtain ⟨v, hv, hch⟩ := hc.unit?_cases hu'
    obtain ⟨u, hu, hle⟩ := ih hv
    exact ⟨u, hu, Nat.le_trans hle hch.rank_le⟩

theorem Change.rank_le (hf : g.Filed) (hc : Change g g') (hu : g.unit? k = some u)
    (hu' : g'.unit? k = some u') : u.state.rank ≤ u'.state.rank := by
  cases hc with
  | addModule ha =>
    obtain ⟨registry, -, rfl⟩ := addModule_eq_ok.mp ha
    cases hu.symm.trans hu'
    exact Nat.le_refl _
  | addUnit ha =>
    obtain ⟨m, unit, -, ha⟩ := unitAdded hf.vacant hf.freed ha
    -- a new unit takes no slot of another one
    rw [ha.units, if_neg (ha.ne hu), hu] at hu'
    cases hu'
    exact Nat.le_refl _
  | removeModule hr =>
    obtain ⟨m, -, hr⟩ := moduleRemoved hr
    rw [hr.units, hu] at hu'
    split at hu'
    · cases hu'
    · cases hu'
      exact Nat.le_refl _
  | update h =>
    obtain ⟨v, hv, hle⟩ := Updates.rank_le (.single h) hu'
    cases hu.symm.trans hv
    exact hle

theorem perform_rank_le (hf : g.Filed) (call : GraphCall) (hu : g.unit? k = some u)
    (hu' : (g.perform call).unit? k = some u') : u.state.rank ≤ u'.state.rank := by
  cases perform_cases g call with
  | inl hc => exact hc.rank_le hf hu hu'
  | inr hc =>
    obtain ⟨v, hv, hle⟩ := hc.rank_le hu'
    cases hu.symm.trans hv
    exact hle

theorem Reachable.perform (h : g.Reachable) (call : GraphCall) : (g.perform call).Reachable := by
  obtain ⟨config, calls, rfl⟩ := h
  exact ⟨config, calls ++ [call], by simp [run]⟩

def product (u : ModuleUnit) : Option String × Bool :=
  (u.output, u.state = .compiled)

def SameProducts (g g' : ModuleGraph) : Prop :=
  ∀ k, (g'.unit? k).map product = (g.unit? k).map product

def IsResolved (g : ModuleGraph) (id : UnitId) : Prop :=
  ∀ u, g.unit? id = some u → u.state ≠ .initialized

theorem SameProducts.trans {g'' : ModuleGraph} (h : SameProducts g g') (h' : SameProducts g' g'') :
    SameProducts g g'' :=
  fun k => (h' k).trans (h k)

theorem SameProducts.isSome (h : SameProducts g g') (k : UnitId) :
    (g'.unit? k).isSome = (g.unit? k).isSome := by
  simpa using congrArg Option.isSome (h k)

theorem IsResolved.updates (h : g.IsResolved id) (hc : Updates g g') : g'.IsResolved id := by
  intro u' hu' hs
  obtain ⟨u, hu, hle⟩ := hc.rank_le hu'
  have hne := h u hu
  rw [hs] at hle
  cases hstate : u.state <;> simp [hstate, UnitState.rank] at hle hne

theorem Passed.sameProducts {needs rest : List ImportType} {state : UnitState}
    (h : g.Passed id u needs rest state g') (hu : g.unit? id = some u)
    (hs : state = .compiled ↔ u.state = .compiled) : SameProducts g g' := by
  intro k
  by_cases hk : k = id
  · rw [hk, h.unit, hu]
    simp [product, recorded, mapNeeds, hs]
  · rw [h.others k hk]

/-- Resolving writes no output, whether it succeeds or not, and a cycle is all that can stop it. -/
theorem Reachable.resolveTypes_outcome (hg : g.Reachable) (hu : g.unit? id = some u) :
    (∃ summary g', g.resolveTypes id = (.ok summary, g') ∧ SameProducts g g' ∧
      g'.IsResolved id) ∨
    ∃ path g', g.resolveTypes id = (.error (.dependencyCycle path), g') ∧ SameProducts g g' := by
  cases (hg.resolvable hu).passed_cases hg.soundEdges.acyclic with
  | inl hok =>
    obtain ⟨g', hr, hp⟩ := hok
    refine .inl ⟨_, g', hr, hp.sameProducts hu ?_, fun v hv => ?_⟩
    · by_cases hs : u.state = .initialized <;> simp [hs]
    · rw [hp.unit] at hv
      cases hv
      by_cases hs : u.state = .initialized <;> simp [hs]
  | inr herr =>
    obtain ⟨before, after, path, g', hr, hp⟩ := herr
    exact .inr ⟨path, g', hr, hp.sameProducts hu Iff.rfl⟩

theorem ensureResolved_of_resolved (hu : g.unit? id = some u) (hs : u.state ≠ .initialized) :
    g.ensureResolved id = (.ok (), g) := by
  simp [ModuleGraph.ensureResolved, hu, hs]

structure Prepared (g : ModuleGraph) (ids : List UnitId)
    (outcome : Except GraphError Unit × ModuleGraph) : Prop where
  reachable : outcome.2.Reachable
  sameProducts : SameProducts g outcome.2
  resolved : outcome.1 = .ok () → ∀ id ∈ ids, outcome.2.IsResolved id
  cycle : ∀ e, outcome.1 = .error e → ∃ path, e = .dependencyCycle path

theorem Reachable.ensureResolved (hg : g.Reachable) (hu : g.unit? id = some u) :
    g.Prepared [id] (g.ensureResolved id) := by
  by_cases hs : u.state = .initialized
  · have hreach : (g.resolveTypes id).2.Reachable := hg.perform (.resolveTypes id)
    cases hg.resolveTypes_outcome hu with
    | inl hok =>
      obtain ⟨summary, g', hr, hsame, hres⟩ := hok
      have he : g.ensureResolved id = (.ok (), g') := by
        simp [ModuleGraph.ensureResolved, hu, hs, hr]
      rw [hr] at hreach
      rw [he]
      exact ⟨hreach, hsame, fun _ k hk => List.mem_singleton.mp hk ▸ hres, by simp⟩
    | inr herr =>
      obtain ⟨path, g', hr, hsame⟩ := herr
      have he : g.ensureResolved id = (.error (.dependencyCycle path), g') := by
        simp [ModuleGraph.ensureResolved, hu, hs, hr]
      rw [hr] at hreach
      rw [he]
      exact ⟨hreach, hsame, by simp, by simp⟩
  · rw [ensureResolved_of_resolved hu hs]
    refine ⟨hg, fun _ => rfl, fun _ k hk v hv => ?_, by simp⟩
    rw [List.mem_singleton.mp hk] at hv
    cases hu.symm.trans hv
    exact hs

theorem Reachable.forEach_ensureResolved (hg : g.Reachable)
    (hlive : ∀ id ∈ ids, (g.unit? id).isSome) :
    g.Prepared ids (forEach ModuleGraph.ensureResolved ids g) := by
  induction ids generalizing g with
  | nil => exact ⟨hg, fun _ => rfl, by simp, by simp [forEach]⟩
  | cons id rest ih =>
    obtain ⟨u, hu⟩ := Option.isSome_iff_exists.mp (hlive id List.mem_cons_self)
    have hfirst := hg.ensureResolved hu
    unfold forEach
    split
    · next e g' he =>
      rw [he] at hfirst
      exact ⟨hfirst.reachable, hfirst.sameProducts, by simp, hfirst.cycle⟩
    · next r g' he =>
      rw [he] at hfirst
      have hrest := ih hfirst.reachable fun k hk => by
        rw [hfirst.sameProducts.isSome]
        exact hlive k (List.mem_cons_of_mem id hk)
      refine ⟨hrest.reachable, hfirst.sameProducts.trans hrest.sameProducts, fun hok k hk => ?_,
        hrest.cycle⟩
      cases List.mem_cons.mp hk with
      | inl hk =>
        rw [hk]
        exact (hfirst.resolved rfl id List.mem_cons_self).updates
          (forEach_updates ensureResolved_updates rest g')
      | inr hk => exact hrest.resolved hok k hk

theorem Prepared.exists_resolved {r : Unit} (h : g.Prepared g.unitIds (.ok r, g'))
    (hlive : (g'.unit? id).isSome) : ∃ u, g'.unit? id = some u ∧ u.state ≠ .initialized := by
  obtain ⟨u, hu⟩ := Option.isSome_iff_exists.mp hlive
  have hmem : id ∈ g.unitIds := mem_unitIds.mpr (h.sameProducts.isSome id ▸ hlive)
  exact ⟨u, hu, h.resolved rfl id hmem u hu⟩

theorem compile_of_resolved (hu : g.unit? id = some u) (hs : u.state ≠ .initialized) :
    g.compile id = match u.source.script with
      | .error e => (.error (.compile e), g)
      | .ok text => (.ok text, g.modifyUnit id (setOutput text)) := by
  have he := ensureResolved_of_resolved hu hs
  cases hscript : u.source.script <;> simp only [ModuleGraph.compile, he, hu, hscript]

structure Emitted (g : ModuleGraph) (ids : List UnitId) (g' : ModuleGraph) : Prop where
  edges : g'.edges = g.edges
  written : ∀ k ∈ ids, ∃ u text, g.unit? k = some u ∧ u.source.script = .ok text ∧
    g'.unit? k = some (setOutput text u)
  others : ∀ k, k ∉ ids → g'.unit? k = g.unit? k

theorem Emitted.cons {text : String} (hu : g.unit? id = some u) (hs : u.source.script = .ok text)
    (hid : id ∉ ids) (h : (g.modifyUnit id (setOutput text)).Emitted ids g') :
    g.Emitted (id :: ids) g' := by
  have hunit (k : UnitId) (hk : k ≠ id) :
      (g.modifyUnit id (setOutput text)).unit? k = g.unit? k := by
    rw [unit?_modifyUnit, if_neg hk]
  refine ⟨h.edges, fun k hk => ?_, fun k hk => ?_⟩
  · by_cases hkid : k = id
    · subst hkid
      refine ⟨u, text, hu, hs, ?_⟩
      rw [h.others k hid, unit?_modifyUnit, if_pos rfl, hu, Option.map_some]
    · rw [← hunit k hkid]
      exact h.written k ((List.mem_cons.mp hk).resolve_left hkid)
  · rw [h.others k fun hm => hk (List.mem_cons_of_mem id hm)]
    exact hunit k fun he => hk (he ▸ List.mem_cons_self)

/-- Units that are resolved are compiled without being resolved again, so no cycle can turn up. -/
theorem forEach_compile (hd : ids.Nodup)
    (hl : ∀ id ∈ ids, ∃ u, g.unit? id = some u ∧ u.state ≠ .initialized) :
    (∃ g', forEach compile ids g = (.ok (), g') ∧ g.Emitted ids g') ∨
      ∃ e g', forEach compile ids g = (.error (.compile e), g') := by
  induction ids generalizing g with
  | nil => exact .inl ⟨g, rfl, rfl, by simp, fun _ _ => rfl⟩
  | cons id rest ih =>
    obtain ⟨hid, hrest⟩ := List.nodup_cons.mp hd
    obtain ⟨u, hu, hs⟩ := hl id List.mem_cons_self
    have hc := compile_of_resolved hu hs
    cases hscript : u.source.script with
    | error e =>
      rw [hscript] at hc
      exact .inr ⟨e, g, by simp only [forEach, hc]⟩
    | ok text =>
      rw [hscript] at hc
      have hl' : ∀ k ∈ rest, ∃ v, (g.modifyUnit id (setOutput text)).unit? k = some v ∧
          v.state ≠ .initialized := by
        intro k hk
        have hne : k ≠ id := fun he => hid (he ▸ hk)
        rw [unit?_modifyUnit, if_neg hne]
        exact hl k (List.mem_cons_of_mem id hk)
      have hstep : forEach compile (id :: rest) g =
          forEach compile rest (g.modifyUnit id (setOutput text)) := by
        simp only [forEach, hc]
      rw [hstep]
      cases ih hrest hl' with
      | inl hok =>
        obtain ⟨g', hr, he⟩ := hok
        exact .inl ⟨g', hr, he.cons hu hscript hid⟩
      | inr herr => exact .inr herr

theorem Emitted.isCompileOrder (h : g.Emitted order g') (ho : g.IsCompileOrder order) :
    g'.IsCompileOrder order := by
  refine ⟨ho.nodup, fun k => ?_, h.edges ▸ ho.ordered⟩
  by_cases hk : k ∈ order
  · obtain ⟨u, text, -, -, hu'⟩ := h.written k hk
    simp [hk, hu']
  · rw [h.others k hk]
    exact ho.live k

/-- Compiling all units ends in one of three ways: a cycle, before any output is written; all
units compiled, in compile order; or a unit whose script cannot be generated. -/
theorem Reachable.compileAll_cases (hg : g.Reachable) :
    (∃ path g', g.compileAll = (.error (.dependencyCycle path), g') ∧ SameProducts g g') ∨
    (∃ order g', ∃ g₁ : ModuleGraph, g.compileAll = (.ok order, g') ∧ g₁.IsCompileOrder order ∧
      g₁.Emitted order g') ∨
    ∃ e g', g.compileAll = (.error (.compile e), g') := by
  have hp := hg.forEach_ensureResolved fun id hid => mem_unitIds.mp hid
  unfold ModuleGraph.compileAll
  split
  · next e g₁ he =>
    rw [he] at hp
    obtain ⟨path, rfl⟩ := hp.cycle e rfl
    exact .inl ⟨path, g₁, rfl, hp.sameProducts⟩
  · next r g₁ he =>
    rw [he] at hp
    have hsound := hp.reachable.soundEdges
    have horder := finishOrder_isCompileOrder hsound
    have hl : ∀ id ∈ g₁.finishOrder, ∃ u, g₁.unit? id = some u ∧ u.state ≠ .initialized :=
      fun id hid => hp.exists_resolved ((horder.live id).mp hid)
    rw [hsound.compileOrder]
    dsimp only
    cases forEach_compile horder.nodup hl with
    | inl hok =>
      obtain ⟨g', hr, hem⟩ := hok
      rw [hr]
      exact .inr (.inl ⟨_, g', g₁, rfl, horder, hem⟩)
    | inr herr =>
      obtain ⟨e, g', hr⟩ := herr
      rw [hr]
      exact .inr (.inr ⟨e, g', rfl⟩)

theorem SameProducts.output (h : SameProducts g g') (k : UnitId) :
    (g'.unit? k).map (·.output) = (g.unit? k).map (·.output) := by
  simpa [product, Function.comp_def] using congrArg (Option.map Prod.fst) (h k)

theorem SameProducts.compiled (h : SameProducts g g') (hu' : g'.unit? k = some u')
    (hs : u'.state = .compiled) : ∃ u, g.unit? k = some u ∧ u.state = .compiled := by
  have hk := h k
  rw [hu', Option.map_some, eq_comm, Option.map_eq_some_iff] at hk
  obtain ⟨u, hu, hp⟩ := hk
  exact ⟨u, hu, by simpa [product, hs] using congrArg Prod.snd hp⟩

/-- Writing the output keeps the source, so what is written is the script of the unit as it ends. -/
theorem Emitted.compiled (h : g.Emitted order g') (ho : g.IsCompileOrder order)
    (hu' : g'.unit? k = some u') :
    u'.state = .compiled ∧ ∃ text, u'.source.script = .ok text ∧ u'.output = some text := by
  have hk : k ∈ order := ((h.isCompileOrder ho).live k).mpr (by simp [hu'])
  obtain ⟨u, text, -, hs, hw⟩ := h.written k hk
  cases hu'.symm.trans hw
  exact ⟨rfl, text, hs, rfl⟩

/-- States of units only move on, and output goes with the last one. Compiling all units is stopped
by a cycle before it writes anything; otherwise every unit has the script of its source, unless
there is one whose script cannot be generated. -/
theorem compileAll_output_by_state (hg : g.Reachable) :
    (∀ k u, g.unit? k = some u → (u.output.isSome ↔ u.state = .compiled)) ∧
    (∀ call k u u', g.unit? k = some u → (g.perform call).unit? k = some u' →
      u.state.rank ≤ u'.state.rank) ∧
    (∀ path g', g.compileAll = (.error (.dependencyCycle path), g') →
      (∀ k, (g'.unit? k).map (·.output) = (g.unit? k).map (·.output)) ∧
      ∀ k u', g'.unit? k = some u' → u'.state = .compiled →
        ∃ u, g.unit? k = some u ∧ u.state = .compiled) ∧
    (∀ order g', g.compileAll = (.ok order, g') →
      (∀ k u, g'.unit? k = some u →
        u.state = .compiled ∧ ∃ text, u.source.script = .ok text ∧ u.output = some text) ∧
      g'.IsCompileOrder order) ∧
    ∀ e g', g.compileAll = (.error e, g') →
      (∃ path, e = .dependencyCycle path) ∨ ∃ reason, e = .compile reason := by
  refine ⟨fun k u hu => hg.output_iff hu,
    fun call k u u' hu hu' => perform_rank_le hg.filed call hu hu', ?_⟩
  obtain ⟨path, g₁, he, hsame⟩ | ⟨order, g₁, g₀, he, ho, hem⟩ | ⟨reason, g₁, he⟩ :=
    hg.compileAll_cases
  · refine ⟨fun path' g' h => ?_, fun order g' h => ?_, fun e g' h => ?_⟩ <;> cases he.symm.trans h
    · exact ⟨hsame.output, fun k u' => hsame.compiled⟩
    · exact .inl ⟨path, rfl⟩
  · refine ⟨fun path' g' h => ?_, fun order' g' h => ?_, fun e g' h => ?_⟩ <;>
      cases he.symm.trans h
    exact ⟨fun k u hu => hem.compiled ho hu, hem.isCompileOrder ho⟩
  · refine ⟨fun path' g' h => ?_, fun order' g' h => ?_, fun e g' h => ?_⟩ <;>
      cases he.symm.trans h
    exact .inr ⟨reason, rfl⟩

def compiledRound : ModuleGraph :=
  derivedRound.perform (.compile 1)

theorem compiledRound_keeps_output :
    (∃ g', compiledRound.compileAll = (.error (.dependencyCycle ["A", "D", "A"]), g') ∧
      (compiledRound.unit? 1).any (·.output.isSome) ∧
      ∀ k, (g'.unit? k).map (·.output) = (compiledRound.unit? k).map (·.output)) ∧
    ∃ g', gappedLine.compileAll = (.ok [4, 2, 3, 0], g') ∧ g'.IsCompileOrder [4, 2, 3, 0] := by
  have hround : compiledRound.Reachable := Reachable.perform ⟨{}, _, rfl⟩ (.compile 1)
  have hline : gappedLine.Reachable := ⟨{}, _, rfl⟩
  obtain ⟨-, -, hcycle, -, -⟩ := compileAll_output_by_state hround
  obtain ⟨-, -, -, hok, -⟩ := compileAll_output_by_state hline
  have herr : compiledRound.compileAll.1 = .error (.dependencyCycle ["A", "D", "A"]) := by
    decide +kernel
  have horder : gappedLine.compileAll.1 = .ok [4, 2, 3, 0] := by decide +kernel
  constructor
  · cases hc : compiledRound.compileAll with
    | mk outcome g' =>
      rw [hc] at herr
      cases herr
      exact ⟨g', rfl, by decide +kernel, (hcycle _ g' hc).1⟩
  · cases hc : gappedLine.compileAll with
    | mk outcome g' =>
      rw [hc] at horder
      cases horder
      exact ⟨g', rfl, (hok _ g' hc).2⟩

end ModuleGraph

end ComponentCompiler
