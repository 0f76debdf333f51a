import ComponentCompiler.Proofs.Graph.Exporters
import Mathlib.Logic.Relation

namespace ComponentCompiler

open Relation

inductive GraphCall where
  | addModule (importId : String)
  | addUnit (module : ModuleId) (fileName source : String) (root : Cst.Tree)
  | removeModule (module : ModuleId)
  | bindImport (unit : UnitId) (uri : String) (module : ModuleId)
  | linkImports (unit : UnitId)
  | addDependency (importer exporter : UnitId)
  | resolveTypes (unit : UnitId)
  | compile (unit : UnitId)
  | compileAll

namespace ModuleGraph

/-- The graph that a call returns; the one before it, if it fails without one. -/
def orKeep {α : Type} (g : ModuleGraph) : Except GraphError (α × ModuleGraph) → ModuleGraph
  | .ok (_, g') => g'
  | .error _ => g

def perform (g : ModuleGraph) : GraphCall → ModuleGraph
  | .addModule importId => g.orKeep (g.addModule importId)
  | .addUnit module fileName source root => g.orKeep (g.addUnit module fileName source root)
  | .removeModule module => g.orKeep (g.removeModule module)
  | .bindImport unit uri module => g.orKeep (g.bindImport unit uri module)
  | .linkImports unit => g.orKeep (g.linkImports unit)
  | .addDependency importer exporter => g.orKeep (g.addDependency importer exporter)
  | .resolveTypes unit => (g.resolveTypes unit).2
  | .compile unit => (g.compile unit).2
  | .compileAll => g.compileAll.2

def run (g : ModuleGraph) (calls : List GraphCall) : ModuleGraph :=
  calls.foldl perform g

def Reachable (g : ModuleGraph) : Prop :=
  ∃ config calls, run { config } calls = g

/-- A change that neither loads nor unloads. -/
inductive Update (g : ModuleGraph) : ModuleGraph → Prop
  | bindImport {unit : UnitId} {uri : String} {module : ModuleId} {bound : Nat} {g' : ModuleGraph}
      (h : g.bindImport unit uri module = .ok (bound, g')) : Update g g'
  | addDependency {importer exporter : UnitId} {new : Bool} {g' : ModuleGraph}
      (h : g.addDependency importer exporter = .ok (new, g')) : Update g g'
  | record {id : UnitId} {u : ModuleUnit} {t : ImportType} {hit : Hit}
      (hu : g.unit? id = some u) (hh : g.hit? u t = some hit) :
      Update g (g.modifyUnit id (recordPath t hit.path))
  | parse {id : UnitId} {u : ModuleUnit} (hu : g.unit? id = some u) :
      Update g (g.modifyUnit id markParsed)
  | emit {id : UnitId} {u : ModuleUnit} {text : String} (hu : g.unit? id = some u)
      (hs : u.source.script = .ok text) : Update g (g.modifyUnit id (setOutput text))

inductive Change (g : ModuleGraph) : ModuleGraph → Prop
  | addModule {importId : String} {id : ModuleId} {g' : ModuleGraph}
      (h : g.addModule importId = .ok (id, g')) : Change g g'
  | addUnit {module : ModuleId} {fileName source : String} {root : Cst.Tree} {id : UnitId}
      {g' : ModuleGraph} (h : g.addUnit module fileName source root = .ok (id, g')) : Change g g'
  | removeModule {module : ModuleId} {removed : List UnitId} {g' : ModuleGraph}
      (h : g.removeModule module = .ok (removed, g')) : Change g g'
  | update {g' : ModuleGraph} (h : Update g g') : Change g g'

abbrev Updates : ModuleGraph → ModuleGraph → Prop :=
  ReflTransGen Update

abbrev Changes : ModuleGraph → ModuleGraph → Prop :=
  ReflTransGen Change

theorem Updates.changes {g g' : ModuleGraph} (h : Updates g g') : Changes g g' :=
  ReflTransGen.mono (fun _ _ => Change.update) g g' h

theorem orKeep_cases {α : Type} {g : ModuleGraph} {outcome : Except GraphError (α × ModuleGraph)}
    {P : ModuleGraph → Prop} (keep : P g) (ok : ∀ a g', outcome = .ok (a, g') → P g') :
    P (g.orKeep outcome) := by
  cases outcome with
  | error e => exact keep
  | ok p => exact ok p.1 p.2 rfl

theorem linkImport_updates {unit : UnitId} {importer : String}
    {state state' : List String × ModuleGraph} {i : Import}
    (h : linkImport unit importer state i = .ok state') : Updates state.2 state'.2 := by
  obtain ⟨missing, g⟩ := state
  unfold linkImport at h
  dsimp only at h
  split at h
  · cases h
    exact .refl
  · obtain ⟨⟨bound, g'⟩, hb, hend⟩ := bind_eq_ok.mp h
    cases hend
    exact .single (.bindImport hb)

theorem linkImports_updates {g g' : ModuleGraph} {unit : UnitId} {missing : List String}
    (h : g.linkImports unit = .ok (missing, g')) : Updates g g' := by
  obtain ⟨u, m, -, -, hl⟩ := linkImports_eq_ok.mp h
  exact foldlM_induct (P := fun _ state => Updates g state.2) hl .refl
    fun _ _ _ _ hdone hstep => hdone.trans (linkImport_updates hstep)

theorem addDependency_keeps_units {g g' : ModuleGraph} {importer exporter : UnitId} {new : Bool}
    (h : g.addDependency importer exporter = .ok (new, g')) : ∃ edges, g' = { g with edges } := by
  obtain ⟨-, -, h⟩ := addDependency_eq_ok.mp h
  split at h
  · exact ⟨g.edges, h.2⟩
  · exact ⟨_, h.2.2⟩

theorem resolveEntries_updates (id : UnitId) (entries : List ImportType) (summary : ResolveSummary)
    (g : ModuleGraph) : Updates g (resolveEntries id entries summary g).2 := by
  induction entries generalizing summary g with
  | nil => exact .refl
  | cons t rest ih =>
    unfold resolveEntries
    split
    · exact .refl
    · exact ih _ g
    · next hit hh =>
      split
      · exact .refl
      · next new g' hd =>
        obtain ⟨u, hu, hh⟩ := hit?_of_findExporter hh
        obtain ⟨edges, rfl⟩ := addDependency_keeps_units hd
        -- the search for an exporter does not look at edges, so its hit is still the one found
        exact (ReflTransGen.head (.addDependency hd) (.single (.record hu hh))).trans (ih _ _)

theorem markParsed_updates (g : ModuleGraph) (id : UnitId) :
    Updates g (g.modifyUnit id markParsed) := by
  cases hu : g.unit? id with
  | none => rw [modifyUnit_eq_self (by simp [hu])]
  | some u => exact .single (.parse hu)

theorem resolveTypes_updates (g : ModuleGraph) (id : UnitId) :
    Updates g (g.resolveTypes id).2 := by
  unfold resolveTypes
  split
  · exact .refl
  · next u hu =>
    have hc := resolveEntries_updates id u.source.importTypes.entries {} g
    split
    · next e g' he => rwa [he] at hc
    · next summary g' he =>
      rw [he] at hc
      exact hc.trans (markParsed_updates g' id)

theorem ensureResolved_updates (g : ModuleGraph) (id : UnitId) :
    Updates g (g.ensureResolved id).2 := by
  unfold ensureResolved
  split
  · exact .refl
  · split
    · have hc := resolveTypes_updates g id
      split
      · next e g' he => rwa [he] at hc
      · next summary g' he => rwa [he] at hc
    · exact .refl

theorem compile_updates (g : ModuleGraph) (id : UnitId) : Updates g (g.compile id).2 := by
  unfold compile
  have hc := ensureResolved_updates g id
  split
  · next e g' he => rwa [he] at hc
  · next _ g' he =>
    rw [he] at hc
    split
    · exact hc
    · next u hu =>
      split
      · exact hc
      · next text hs => exact hc.tail (.emit hu hs)

theorem forEach_updates {α : Type} {f : ModuleGraph → UnitId → Except GraphError α × ModuleGraph}
    (hf : ∀ g id, Updates g (f g id).2) (ids : List UnitId) (g : ModuleGraph) :
    Updates g (forEach f ids g).2 := by
  induction ids generalizing g with
  | nil => exact .refl
  | cons id rest ih =>
    unfold forEach
    have hc := hf g id
    split
    · next e g' he => rwa [he] at hc
    · next _ g' he =>
      rw [he] at hc
      exact hc.trans (ih g')

theorem compileAll_updates (g : ModuleGraph) : Updates g g.compileAll.2 := by
  unfold compileAll
  have hr := forEach_updates ensureResolved_updates g.unitIds g
  split
  · next e g' he => rwa [he] at hr
  · next _ g' he =>
    rw [he] at hr
    split
    · exact hr
    · next order _ =>
      have hc := forEach_updates compile_updates order g'
      split
      · next e g'' he => rw [he] at hc; exact hr.trans hc
      · next _ g'' he => rw [he] at hc; exact hr.trans hc

/-- A call loads or unloads at most once, and if it does it does nothing else. -/
theorem perform_cases (g : ModuleGraph) (call : GraphCall) :
    Change g (g.perform call) ∨ Updates g (g.perform call) := by
  have keep : Change g g ∨ Updates g g := .inr .refl
  cases call with
  | addModule importId =>
    exact orKeep_cases (P := fun g' => Change g g' ∨ Updates g g') keep
      fun _ _ h => .inl (.addModule h)
  | addUnit module fileName source root =>
    exact orKeep_cases (P := fun g' => Change g g' ∨ Updates g g') keep
      fun _ _ h => .inl (.addUnit h)
  | removeModule module =>
    exact orKeep_cases (P := fun g' => Change g g' ∨ Updates g g') keep
      fun _ _ h => .inl (.removeModule h)
  | bindImport unit uri module =>
    exact orKeep_cases (P := fun g' => Change g g' ∨ Updates g g') keep
      fun _ _ h => .inr (.single (.bindImport h))
  | linkImports unit =>
    exact orKeep_cases (P := fun g' => Change g g' ∨ Updates g g') keep
      fun _ _ h => .inr (linkImports_updates h)
  | addDependency importer exporter =>
    exact orKeep_cases (P := fun g' => Change g g' ∨ Updates g g') keep
      fun _ _ h => .inr (.single (.addDependency h))
  | resolveTypes unit => exact .inr (resolveTypes_updates g unit)
  | compile unit => exact .inr (compile_updates g unit)
  | compileAll => exact .inr (compileAll_updates g)

theorem perform_changes (g : ModuleGraph) (call : GraphCall) : Changes g (g.perform call) := by
  cases perform_cases g call with
  | inl h => exact .single h
  | inr h => exact h.changes

theorem run_changes (g : ModuleGraph) (calls : List GraphCall) : Changes g (g.run calls) := by
  induction calls generalizing g with
  | nil => exact .refl
  | cons call rest ih => exact (perform_changes g call).trans (ih (g.perform call))

theorem Changes.preserve {P : ModuleGraph → Prop} (step : ∀ g g', P g → Change g g' → P g')
    {g g' : ModuleGraph} (h : Changes g g') (hg : P g) : P g' := by
  induction h with
  | refl => exact hg
  | tail _ hc ih => exact step _ _ ih hc

/-- What holds of an empty graph and is kept by every change holds of every graph that a run
reaches. -/
theorem Reachable.induct {P : ModuleGraph → Prop} (empty : ∀ config, P { config })
    (step : ∀ g g', P g → Change g g' → P g') {g : ModuleGraph} (h : g.Reachable) : P g := by
  obtain ⟨config, calls, rfl⟩ := h
  exact (run_changes { config } calls).preserve step (empty config)

/-- What a change does to a unit that stays. -/
inductive UnitChange (u : ModuleUnit) : ModuleUnit → Prop
  | keep : UnitChange u u
  | unbind (module : ModuleId) : UnitChange u (unbind module u)
  | bind (uri : String) (module : ModuleId) (importId : String) :
      UnitChange u (bindUnit uri module importId u)
  | record (t : ImportType) (path : String) : UnitChange u (recordPath t path u)
  | parse : UnitChange u (markParsed u)
  | emit (text : String) : UnitChange u (setOutput text u)

theorem Update.eq_cases {g g' : ModuleGraph} (h : Update g g') :
    (∃ edges, g' = { g with edges }) ∨
      ∃ id f, (∀ u, UnitChange u (f u)) ∧ g' = g.modifyUnit id f := by
  cases h with
  | bindImport hb =>
    obtain ⟨m, u, -, -, -, rfl⟩ := bindImport_eq_ok.mp hb
    exact .inr ⟨_, _, fun u => .bind _ _ _, rfl⟩
  | addDependency hd => exact .inl (addDependency_keeps_units hd)
  | record _ _ => exact .inr ⟨_, _, fun u => .record _ _, rfl⟩
  | parse _ => exact .inr ⟨_, _, fun u => .parse, rfl⟩
  | emit _ _ => exact .inr ⟨_, _, fun u => .emit _, rfl⟩

theorem Update.units {g g' : ModuleGraph} (h : Update g g') (k : UnitId) :
    Option.Rel UnitChange (g.unit? k) (g'.unit? k) := by
  have hkeep (v : Option ModuleUnit) : Option.Rel UnitChange v v := by
    cases v with
    | none => exact .none
    | some u => exact .some .keep
  cases h.eq_cases with
  | inl he =>
    obtain ⟨edges, rfl⟩ := he
    exact hkeep (g.unit? k)
  | inr hm =>
    obtain ⟨id, f, hf, rfl⟩ := hm
    rw [unit?_modifyUnit]
    split
    · cases g.unit? k with
      | none => exact .none
      | some u => exact .some (hf u)
    · exact hkeep (g.unit? k)

theorem Update.keeps {g g' : ModuleGraph} (h : Update g g') :
    g'.registry = g.registry ∧ g'.free = g.free ∧ g'.slots.size = g.slots.size := by
  cases h.eq_cases with
  | inl he =>
    obtain ⟨edges, rfl⟩ := he
    exact ⟨rfl, rfl, rfl⟩
  | inr hm =>
    obtain ⟨id, f, -, rfl⟩ := hm
    exact ⟨rfl, rfl, Array.size_modify⟩

theorem Update.unit?_cases {g g' : ModuleGraph} (hc : Update g g') {k : UnitId} {u' : ModuleUnit}
    (h : g'.unit? k = some u') : ∃ u, g.unit? k = some u ∧ UnitChange u u' := by
  have hk := hc.units k
  rw [h] at hk
  generalize hu : g.unit? k = v at hk
  cases hk with
  | some hch => exact ⟨_, rfl, hch⟩

theorem Change.unit?_cases {g g' : ModuleGraph} (hc : Change g g') {k : UnitId} {u' : ModuleUnit}
    (h : g'.unit? k = some u') : (∃ u, g.unit? k = some u ∧ UnitChange u u') ∨
      ∃ module name source root config unit,
        SourceUnit.build name source root config = .ok unit ∧ u' = .ofSource module unit := by
  cases hc with
  | addModule ha =>
    obtain ⟨registry, -, rfl⟩ := addModule_eq_ok.mp ha
    exact .inl ⟨u', h, .keep⟩
  | @addUnit module _ _ _ _ _ ha =>
    obtain ⟨m, unit, -, hb, -, rfl⟩ := addUnit_eq_ok.mp ha
    by_cases hk : k = (g.place (.ofSource module unit)).1
    · subst hk
      exact .inr ⟨module, _, _, _, _, unit, hb, unit?_place_self h⟩
    · exact .inl ⟨u', (unit?_place_of_ne hk).symm.trans h, .keep⟩
  | @removeModule module _ _ hr =>
    obtain ⟨m, registry, -, -, rfl⟩ := removeModule_eq_ok.mp hr
    rw [unit?_mapSlots, unit?_foldl_removeUnit] at h
    obtain ⟨u, hu, rfl⟩ := Option.map_eq_some_iff.mp h
    split at hu
    · cases hu
    · exact .inl ⟨u, hu, .unbind module⟩
  | update hu => exact .inl (hu.unit?_cases h)

theorem Reachable.unit_induct {P : ModuleUnit → Prop}
    (new : ∀ module name source root config unit,
      SourceUnit.build name source root config = .ok unit → P (.ofSource module unit))
    (step : ∀ u u', P u → UnitChange u u' → P u') {g : ModuleGraph} (h : g.Reachable)
    {k : UnitId} {u : ModuleUnit} (hu : g.unit? k = some u) : P u := by
  revert k u
  refine h.induct (P := fun g => ∀ {k : UnitId} {u : ModuleUnit}, g.unit? k = some u → P u) ?_ ?_
  · intro config k u hu
    simp [unit?] at hu
  · intro g g' hg hc k u' hu'
    rcases hc.unit?_cases hu' with
      ⟨u, hu, huc⟩ | ⟨module, name, source, root, config, unit, hb, rfl⟩
    · exact step u u' (hg hu) huc
    · exact new module name source root config unit hb

end ModuleGraph

end ComponentCompiler
