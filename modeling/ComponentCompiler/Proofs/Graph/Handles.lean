import ComponentCompiler.Proofs.Graph.Registration

namespace ComponentCompiler

/-- What a unit was loaded from. No change of a unit touches it. -/
def ModuleUnit.origin (u : ModuleUnit) : ModuleId × String × String × Ast × Config :=
  (u.module, u.source.name, u.source.source, u.source.ast, u.source.config)

namespace ModuleGraph

variable {g g' : ModuleGraph} {k id : UnitId} {u : ModuleUnit} {module : ModuleId}
  {call : GraphCall} {calls : List GraphCall} {hs : List UnitId}

def given? (g : ModuleGraph) : GraphCall → Option UnitId
  | .addUnit module fileName source root =>
    (g.addUnit module fileName source root).toOption.map (·.1)
  | _ => none

def unloaded? (g : ModuleGraph) : GraphCall → Option ModuleId
  | .removeModule module => (g.removeModule module).toOption.map fun _ => module
  | _ => none

def outcomes {α : Type} (f : ModuleGraph → GraphCall → Option α) (g : ModuleGraph) :
    List GraphCall → List α
  | [] => []
  | call :: rest => (f g call).toList ++ outcomes f (g.perform call) rest

abbrev handles : ModuleGraph → List GraphCall → List UnitId :=
  outcomes given?

abbrev unloadings : ModuleGraph → List GraphCall → List ModuleId :=
  outcomes unloaded?

/-- No operation takes the handle. -/
structure Unknown (g : ModuleGraph) (k : UnitId) : Prop where
  require : g.requireUnit k = .error (.unknownUnit k)
  bind : ∀ uri module m, g.module? module = some m →
    g.bindImport k uri module = .error (.unknownUnit k)
  link : g.linkImports k = .error (.unknownUnit k)
  importer : ∀ exporter, g.addDependency k exporter = .error (.unknownUnit k)
  exporter : ∀ importer u, g.unit? importer = some u →
    g.addDependency importer k = .error (.unknownUnit k)
  resolve : g.resolveTypes k = (.error (.unknownUnit k), g)
  compile : g.compile k = (.error (.unknownUnit k), g)

theorem unknown_of_unit? (h : g.unit? k = none) : g.Unknown k := by
  have hreq : g.requireUnit k = .error (.unknownUnit k) := by rw [requireUnit, h]
  have hresolved : g.ensureResolved k = (.error (.unknownUnit k), g) := by rw [ensureResolved, h]
  refine ⟨hreq, fun uri module m hm => ?_, ?_, fun exporter => ?_, fun importer u hu => ?_, ?_, ?_⟩
  · rw [bindImport, requireModule_eq_ok.mpr hm, hreq]
    rfl
  · rw [linkImports, hreq]
    rfl
  · rw [addDependency, hreq]
    rfl
  · rw [addDependency, requireUnit_eq_ok.mpr hu, hreq]
    rfl
  · rw [resolveTypes, h]
  · rw [compile, hresolved]

theorem UnitChange.origin_eq {u' : ModuleUnit} (h : UnitChange u u') : u'.origin = u.origin := by
  cases h with
  | keep | unbind _ | emit _ => rfl
  | bind uri module importId =>
    obtain ⟨importPaths, hs, -⟩ := bindUnit_source uri module importId u
    rw [ModuleUnit.origin, hs]
    rfl
  | record t path =>
    unfold recordPath SourceUnit.resolveImportType?
    cases u.source.importTypes.resolve? t.qualifier t.name path <;> rfl
  | parse =>
    unfold markParsed
    split <;> rfl

theorem Updates.origin_eq (h : Updates g g') (k : UnitId) :
    (g'.unit? k).map ModuleUnit.origin = (g.unit? k).map ModuleUnit.origin := by
  induction h with
  | refl => rfl
  | @tail b c _ hu ih =>
    refine Eq.trans ?_ ih
    have hk := hu.units k
    generalize b.unit? k = v, c.unit? k = w at hk
    cases hk with
    | none => rfl
    | some hch => exact congrArg some hch.origin_eq

theorem Updates.keeps (h : Updates g g') :
    g'.registry = g.registry ∧ g'.free = g.free ∧ g'.slots.size = g.slots.size := by
  induction h with
  | refl => exact ⟨rfl, rfl, rfl⟩
  | tail _ hu ih =>
    obtain ⟨hr, hf, hs⟩ := hu.keeps
    exact ⟨hr.trans ih.1, hf.trans ih.2.1, hs.trans ih.2.2⟩

theorem place_fst (g : ModuleGraph) (u : ModuleUnit) :
    (g.place u).1 = g.free.headD g.slots.size := by
  unfold place
  cases g.free <;> rfl

theorem size_place_eq (g : ModuleGraph) (u : ModuleUnit) :
    (g.place u).2.slots.size = g.slots.size + if g.free = [] then 1 else 0 := by
  unfold place
  cases g.free <;> simp

inductive CallCase (g : ModuleGraph) (call : GraphCall) : Prop
  | load {module : ModuleId} {m : ModuleEntry} {id : UnitId} {v : ModuleUnit}
      (given : g.given? call = some id) (unloaded : g.unloaded? call = none)
      (added : g.UnitAdded module m id v (g.perform call))
      (place : id = g.free.headD g.slots.size)
      (size : (g.perform call).slots.size = g.slots.size + if g.free = [] then 1 else 0)
  | unload {module : ModuleId} {m : ModuleEntry} (given : g.given? call = none)
      (unloaded : g.unloaded? call = some module)
      (removed : g.ModuleRemoved module m (g.perform call))
  | stay (given : g.given? call = none) (unloaded : g.unloaded? call = none)
      (units : ∀ k, ((g.perform call).unit? k).map ModuleUnit.origin =
        (g.unit? k).map ModuleUnit.origin)
      (slots : (g.perform call).free = g.free ∧ (g.perform call).slots.size = g.slots.size)

theorem callCase_addUnit (hf : g.Filed) (module : ModuleId) (fileName source : String)
    (root : Cst.Tree) : g.CallCase (.addUnit module fileName source root) := by
  cases h : g.addUnit module fileName source root with
  | error e =>
    have hkeep : g.perform (.addUnit module fileName source root) = g := by
      rw [perform, h]
      rfl
    refine .stay (by rw [given?, h]; rfl) rfl (fun k => ?_) ?_
    · rw [hkeep]
    · rw [hkeep]
      exact ⟨rfl, rfl⟩
  | ok result =>
    obtain ⟨id, g'⟩ := result
    have hperform : g.perform (.addUnit module fileName source root) = g' := by
      rw [perform, h]
      rfl
    obtain ⟨m, unit, -, hadded⟩ := unitAdded hf.vacant hf.freed h
    obtain ⟨_, unit, -, -, rfl, rfl⟩ := addUnit_eq_ok.mp h
    refine .load (by rw [given?, h]; rfl) rfl (hperform ▸ hadded) (place_fst g _) ?_
    rw [hperform]
    exact size_place_eq g _

theorem callCase_removeModule (g : ModuleGraph) (module : ModuleId) :
    g.CallCase (.removeModule module) := by
  cases h : g.removeModule module with
  | error e =>
    have hkeep : g.perform (.removeModule module) = g := by
      rw [perform, h]
      rfl
    refine .stay rfl (by rw [unloaded?, h]; rfl) (fun k => ?_) ?_
    · rw [hkeep]
    · rw [hkeep]
      exact ⟨rfl, rfl⟩
  | ok result =>
    obtain ⟨removed, g'⟩ := result
    have hperform : g.perform (.removeModule module) = g' := by
      rw [perform, h]
      rfl
    obtain ⟨m, -, hremoved⟩ := moduleRemoved h
    exact .unload rfl (by rw [unloaded?, h]; rfl) (hperform ▸ hremoved)

theorem callCase (hf : g.Filed) (call : GraphCall) : g.CallCase call := by
  have stay {call : GraphCall} (hgiven : g.given? call = none)
      (hunloaded : g.unloaded? call = none) (h : Updates g (g.perform call)) : g.CallCase call :=
    .stay hgiven hunloaded h.origin_eq h.keeps.2
  cases call with
  | addModule importId =>
    refine .stay rfl rfl (fun k => ?_) ?_
    · exact orKeep_cases (P := fun g' => (g'.unit? k).map ModuleUnit.origin = _) rfl
        fun _ _ h => by rw [(moduleAdded h).unit?_eq]
    · exact orKeep_cases (P := fun g' => g'.free = g.free ∧ g'.slots.size = g.slots.size)
        ⟨rfl, rfl⟩ fun _ _ h => ⟨(moduleAdded h).slots.2, by rw [(moduleAdded h).slots.1]⟩
  | addUnit module fileName source root => exact callCase_addUnit hf module fileName source root
  | removeModule module => exact callCase_removeModule g module
  | bindImport unit uri module =>
    exact stay rfl rfl (orKeep_cases (P := Updates g) .refl fun _ _ h => .single (.bindImport h))
  | linkImports unit =>
    exact stay rfl rfl (orKeep_cases (P := Updates g) .refl fun _ _ h => linkImports_updates h)
  | addDependency importer exporter =>
    exact stay rfl rfl
      (orKeep_cases (P := Updates g) .refl fun _ _ h => .single (.addDependency h))
  | resolveTypes unit => exact stay rfl rfl (resolveTypes_updates g unit)
  | compile unit => exact stay rfl rfl (compile_updates g unit)
  | compileAll => exact stay rfl rfl (compileAll_updates g)

theorem Filed.perform (hf : g.Filed) (call : GraphCall) : (g.perform call).Filed :=
  (perform_changes g call).preserve (fun _ _ h hc => h.change hc) hf

/-- A unit keeps its handle as long as its module is loaded. -/
theorem unit?_perform (hf : g.Filed) (hu : g.unit? k = some u)
    (hm : g.unloaded? call ≠ some u.module) : g.given? call ≠ some k ∧
      ∃ u', (g.perform call).unit? k = some u' ∧ u'.origin = u.origin := by
  cases callCase hf call with
  | load given _ added _ _ =>
    have hne := added.ne hu
    refine ⟨fun he => hne (Option.some.inj (he.symm.trans given)), u, ?_, rfl⟩
    rw [added.units, if_neg hne, hu]
  | @unload module m given unloaded removed =>
    have hout : k ∉ m.units := by
      intro hk
      obtain ⟨v, hv, hmod⟩ := hf.listed module m k removed.entry hk
      cases hu.symm.trans hv
      exact hm (hmod ▸ unloaded)
    refine ⟨by simp [given], unbind module u, ?_, rfl⟩
    rw [removed.units, if_neg hout, hu, Option.map_some]
  | stay given _ units _ =>
    have hk := units k
    rw [hu] at hk
    exact ⟨by simp [given], Option.map_eq_some_iff.mp hk⟩

theorem unit?_perform_none (hf : g.Filed) (hu : g.unit? k = none) (hk : g.given? call ≠ some k) :
    (g.perform call).unit? k = none := by
  cases callCase hf call with
  | load given _ added _ _ =>
    have hne : k ≠ _ := fun he => hk (he ▸ given)
    rw [added.units, if_neg hne, hu]
  | unload _ _ removed =>
    rw [removed.units, hu]
    split <;> rfl
  | stay _ _ units _ =>
    have hnone := units k
    rwa [hu, Option.map_none, Option.map_eq_none_iff] at hnone

theorem unit?_run (hf : g.Filed) (hu : g.unit? k = some u) (hm : u.module ∉ g.unloadings calls) :
    k ∉ g.handles calls ∧ ∃ u', (g.run calls).unit? k = some u' ∧ u'.origin = u.origin := by
  induction calls generalizing g u with
  | nil => exact ⟨by simp [outcomes], u, hu, rfl⟩
  | cons call rest ih =>
    rw [unloadings, outcomes, List.mem_append, Option.mem_toList, not_or] at hm
    obtain ⟨hgiven, v, hv, hsame⟩ := unit?_perform hf hu hm.1
    have hmod : v.module = u.module := congrArg (·.1) hsame
    obtain ⟨hrest, u', hu', hsame'⟩ := ih (hf.perform call) hv (hmod ▸ hm.2)
    refine ⟨?_, u', hu', hsame'.trans hsame⟩
    rw [handles, outcomes, List.mem_append, Option.mem_toList, not_or]
    exact ⟨hgiven, hrest⟩

theorem unit?_run_none (hf : g.Filed) (hu : g.unit? k = none) (hk : k ∉ g.handles calls) :
    (g.run calls).unit? k = none := by
  induction calls generalizing g with
  | nil => exact hu
  | cons call rest ih =>
    rw [handles, outcomes, List.mem_append, Option.mem_toList, not_or] at hk
    exact ih (hf.perform call) (unit?_perform_none hf hu hk.1) hk.2

/-- `hs` are the handles that were given out for the slots of the graph, and the slots that are not
free are filled. -/
structure History (g : ModuleGraph) (hs : List UnitId) : Prop where
  given : ∀ k, k ∈ hs ↔ k < g.slots.size
  filled : ∀ k, k < g.slots.size → k ∈ g.free ∨ (g.unit? k).isSome

theorem history_empty (config : Config) : History { config } [] :=
  ⟨by simp, by simp⟩

theorem History.given_cases (hf : g.Filed) (h : g.History hs)
    (hid : id = g.free.headD g.slots.size) :
    (g.free = [] ∧ id ∉ hs ∧ id = g.slots.size) ∨ (g.free ≠ [] ∧ id ∈ hs ∧ id ∈ g.free) := by
  cases hfree : g.free with
  | nil =>
    rw [hfree] at hid
    have hsize : id = g.slots.size := hid
    exact .inl ⟨rfl, by rw [h.given, hsize]; exact Nat.lt_irrefl _, hsize⟩
  | cons first rest =>
    rw [hfree] at hid
    obtain rfl : id = first := hid
    have hmem : id ∈ g.free := hfree ▸ List.mem_cons_self
    exact .inr ⟨nofun, (h.given id).mpr (hf.vacant id hmem).1, List.mem_cons_self⟩

theorem History.perform (hf : g.Filed) (h : g.History hs) (call : GraphCall) :
    (g.perform call).History (hs ++ (g.given? call).toList) := by
  cases callCase hf call with
  | @load module m id v given _ added place size =>
    rw [given]
    -- The slots grow only if none of them was empty.
    have hlt (k : UnitId) : k < (g.perform call).slots.size ↔ k < g.slots.size ∨ k = id := by
      rw [size]
      rcases h.given_cases hf place with ⟨hnil, -, rfl⟩ | ⟨hne, hin, -⟩
      · rw [if_pos hnil]
        exact Nat.lt_succ_iff_lt_or_eq
      · rw [if_neg hne, Nat.add_zero]
        refine ⟨.inl, Or.rec (fun hk => hk) fun hk => ?_⟩
        exact hk ▸ (h.given id).mp hin
    refine ⟨fun k => ?_, fun k hk => ?_⟩
    · rw [hlt, List.mem_append, h.given, Option.toList_some, List.mem_singleton]
    · rw [added.slots.1, added.units]
      by_cases hself : k = id
      · simp [hself]
      · rw [if_neg hself]
        refine (h.filled k (((hlt k).mp hk).resolve_right hself)).imp_left fun hmem => ?_
        rw [place] at hself
        cases hfree : g.free with
        | nil => simp [hfree] at hmem
        | cons first rest => simpa [hfree, show k ≠ first by simpa [hfree] using hself] using hmem
  | @unload module m given _ removed =>
    rw [given, Option.toList_none, List.append_nil]
    refine ⟨fun k => by rw [h.given, removed.size], fun k hk => ?_⟩
    rw [removed.size] at hk
    rw [hf.free_moduleRemoved removed, removed.units, List.mem_append, List.mem_reverse]
    by_cases hin : k ∈ m.units
    · exact .inl (.inl hin)
    · rw [if_neg hin, Option.isSome_map]
      exact (h.filled k hk).imp_left .inr
  | stay given _ units slots =>
    rw [given, Option.toList_none, List.append_nil]
    refine ⟨fun k => by rw [h.given, slots.2], fun k hk => ?_⟩
    have hsome : ((g.perform call).unit? k).isSome = (g.unit? k).isSome := by
      rw [← Option.isSome_map, units k, Option.isSome_map]
    rw [slots.1, hsome]
    exact h.filled k (slots.2 ▸ hk)

theorem History.run (hf : g.Filed) (h : g.History hs) (calls : List GraphCall) :
    (g.run calls).History (hs ++ g.handles calls) := by
  induction calls generalizing g hs with
  | nil =>
    rw [show hs ++ g.handles [] = hs from List.append_nil hs]
    exact h
  | cons call rest ih =>
    have hrest := ih (hf.perform call) (h.perform hf call)
    rwa [List.append_assoc] at hrest

theorem place_of_given (hf : g.Filed) (hid : g.given? call = some id) :
    g.unit? id = none ∧ id = g.free.headD g.slots.size := by
  cases callCase hf call with
  | load given _ added place _ =>
    cases hid.symm.trans given
    exact ⟨added.isFree.1, place⟩
  | unload given _ _ | stay given _ _ _ => cases hid.symm.trans given

/-- A handle is given out again just if some handle denotes nothing. -/
theorem History.given_again (hf : g.Filed) (h : g.History hs) (hid : g.given? call = some id) :
    id ∈ hs ↔ ∃ k ∈ hs, g.unit? k = none := by
  obtain ⟨hnone, hplace⟩ := place_of_given hf hid
  refine ⟨fun hin => ⟨id, hin, hnone⟩, ?_⟩
  rintro ⟨k, hk, hdead⟩
  rcases h.given_cases hf hplace with ⟨hnil, -, -⟩ | ⟨-, hin, -⟩
  · rcases h.filled k ((h.given k).mp hk) with hfree | hsome
    · simp [hnil] at hfree
    · simp [hdead] at hsome
  · exact hin

/-- The unit that is added after a module was unloaded gets the handle of the module's last unit. -/
theorem given_after_unloading {removed : List UnitId} {last : UnitId} (hf : g.Filed)
    (h : g.removeModule module = .ok (removed, g')) (hlast : removed.getLast? = some last)
    (hid : g'.given? call = some id) : id = last := by
  obtain ⟨m, rfl, hr⟩ := moduleRemoved h
  obtain ⟨-, hplace⟩ := place_of_given (hf.moduleRemoved hr) hid
  rw [hplace, hf.free_moduleRemoved hr, List.headD_eq_head?_getD, List.head?_append, List.head?_reverse, hlast]
  rfl

theorem nodup_given_iff (hf : g.Filed) (h : g.History hs) (hd : hs.Nodup) (call : GraphCall) :
    (hs ++ (g.given? call).toList).Nodup ↔
      ((g.given? call).isSome → ∀ k ∈ hs, (g.unit? k).isSome) := by
  cases hid : g.given? call with
  | none => simp [hd]
  | some id =>
    have hnew : (hs ++ [id]).Nodup ↔ id ∉ hs := by
      rw [List.nodup_append]
      constructor
      · rintro ⟨-, -, hne⟩ hin
        exact hne id hin id (List.mem_singleton_self id) rfl
      · intro hout
        refine ⟨hd, by simp, fun k hk j hj he => hout ?_⟩
        rw [← List.mem_singleton.mp hj, ← he]
        exact hk
    rw [Option.toList_some, hnew, h.given_again hf hid]
    simp [Option.isSome_iff_ne_none]

theorem forall_split_cons {α : Type} {x : α} {xs : List α} {P : List α → α → Prop} :
    (∀ before y after, x :: xs = before ++ y :: after → P before y) ↔
      P [] x ∧ ∀ before y after, xs = before ++ y :: after → P (x :: before) y := by
  constructor
  · intro h
    exact ⟨h [] x xs rfl, fun before y after he => h (x :: before) y after (by rw [he]; rfl)⟩
  · rintro ⟨hhead, htail⟩ before y after he
    cases before with
    | nil =>
      cases he
      exact hhead
    | cons z before =>
      cases he
      exact htail before y after rfl

/-- No handle is given out twice just if all handles are good whenever one is given out. -/
theorem nodup_handles_iff (hf : g.Filed) (h : g.History hs) (hd : hs.Nodup) :
    (hs ++ g.handles calls).Nodup ↔ ∀ before call after, calls = before ++ call :: after →
      ((g.run before).given? call).isSome →
        ∀ k ∈ hs ++ g.handles before, ((g.run before).unit? k).isSome := by
  induction calls generalizing g hs with
  | nil => simp [outcomes, hd]
  | cons call rest ih =>
    rw [forall_split_cons]
    have hassoc (calls : List GraphCall) : hs ++ g.handles (call :: calls) =
        hs ++ (g.given? call).toList ++ (g.perform call).handles calls := by
      rw [List.append_assoc]
      rfl
    have hnil : hs ++ g.handles [] = hs := List.append_nil hs
    rw [hassoc, hnil]
    simp only [hassoc]
    by_cases hnew : (hs ++ (g.given? call).toList).Nodup
    · have hhead := (nodup_given_iff hf h hd call).mp hnew
      rw [ih (hf.perform call) (h.perform hf call) hnew]
      exact (and_iff_right hhead).symm
    · refine iff_of_false (fun hall => hnew (List.nodup_append.mp hall).1) fun hall => ?_
      exact hnew ((nodup_given_iff hf h hd call).mpr hall.1)

theorem filed_run (config : Config) (calls : List GraphCall) : (run { config } calls).Filed :=
  Reachable.filed ⟨config, calls, rfl⟩

/-- As long as the module of a unit is loaded, the handle of the unit denotes it and is not given
out again. From then on it is unknown to all operations until it is given out again. This happens: a
new unit gets an old handle exactly if some handle denotes nothing, and after a module was unloaded
it gets the handle of the last unit of this module. So a run gives out each handle once exactly if
it adds no unit while one that it added before is gone. -/
theorem handle_lifetimes (config : Config) (calls : List GraphCall) :
    (∀ k u more, (run { config } calls).unit? k = some u →
      u.module ∉ (run { config } calls).unloadings more →
        k ∉ (run { config } calls).handles more ∧
        ∃ u', (run { config } (calls ++ more)).unit? k = some u' ∧ u'.origin = u.origin) ∧
    (∀ k more, (run { config } calls).unit? k = none →
      k ∉ (run { config } calls).handles more → (run { config } (calls ++ more)).Unknown k) ∧
    (∀ call id, (run { config } calls).given? call = some id →
      (run { config } calls).unit? id = none ∧
        (id ∈ handles { config } calls ↔
          ∃ k ∈ handles { config } calls, (run { config } calls).unit? k = none)) ∧
    (∀ module removed last g' call id,
      (run { config } calls).removeModule module = .ok (removed, g') →
      removed.getLast? = some last → g'.given? call = some id → id = last) ∧
    ((handles { config } calls).Nodup ↔ ∀ before call after, calls = before ++ call :: after →
      ((run { config } before).given? call).isSome →
        ∀ k ∈ handles { config } before, ((run { config } before).unit? k).isSome) := by
  have hf := filed_run config calls
  have hrun (more : List GraphCall) :
      run { config } (calls ++ more) = (run { config } calls).run more := List.foldl_append
  have hhistory : (run { config } calls).History (handles { config } calls) :=
    (history_empty config).run (filed_run config []) calls
  refine ⟨fun k u more hu hm => ?_, fun k more hu hk => ?_, fun call id hid => ?_, ?_, ?_⟩
  · rw [hrun]
    exact unit?_run hf hu hm
  · rw [hrun]
    exact unknown_of_unit? (unit?_run_none hf hu hk)
  · exact ⟨(place_of_given hf hid).1, hhistory.given_again hf hid⟩
  · intro module removed last g' call id hr hlast hid
    exact given_after_unloading hf hr hlast hid
  · exact nodup_handles_iff (filed_run config []) (history_empty config) List.nodup_nil

def loadingCalls : List GraphCall := [
  .addModule "lib",
  .addUnit 0 "L.lv" "1" (.node { kind := "program", span := ⟨0, 1⟩ } []),
  .addModule "app"]

def loadApp : GraphCall :=
  .addUnit 1 "A.lv" "2" (.node { kind := "program", span := ⟨0, 1⟩ } [])

theorem loadingCalls_handle : 0 ∉ (run {} loadingCalls).handles [loadApp, .compileAll] ∧
    ∃ u', (run {} (loadingCalls ++ [loadApp, .compileAll])).unit? 0 = some u' ∧
      u'.name = "L" := by
  have hunit : ((run {} loadingCalls).unit? 0).map ModuleUnit.name = some "L" := by decide +kernel
  have hnone : (run {} loadingCalls).unloadings [loadApp, .compileAll] = [] := by decide +kernel
  obtain ⟨u, hu, hname⟩ := Option.map_eq_some_iff.mp hunit
  obtain ⟨hkeep, -⟩ := handle_lifetimes {} loadingCalls
  obtain ⟨hgiven, u', hu', horigin⟩ := hkeep 0 u [loadApp, .compileAll] hu (by simp [hnone])
  exact ⟨hgiven, u', hu', (congrArg (·.2.1) horigin).trans hname⟩

/-- After `lib` is unloaded, `A` is given the handle of `L`, and what is asked of the handle is
answered by `A`. -/
theorem loadingCalls_reused :
    handles {} (loadingCalls ++ [.removeModule 0, loadApp]) = [0, 0] ∧
    ((run {} loadingCalls).unit? 0).map ModuleUnit.name = some "L" ∧
    ((run {} (loadingCalls ++ [.removeModule 0])).unit? 0).isNone ∧
    ((run {} (loadingCalls ++ [.removeModule 0, loadApp])).compile 0).1.toOption = some "2" := by
  decide +kernel

end ModuleGraph

end ComponentCompiler
