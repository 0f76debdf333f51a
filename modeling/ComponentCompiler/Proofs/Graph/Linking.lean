import ComponentCompiler.Proofs.Graph.Registration

namespace ComponentCompiler.ModuleGraph

variable {g : ModuleGraph} {importer : String} {unit : UnitId} {i : Nat} {b : BoundImport}
  {u v w : ModuleUnit} {e : Import} {x y : Option ModuleId}

/-- The module named by the last import statement with a given uri that names a registered one. -/
def lastTarget? (g : ModuleGraph) (importer : String) (entries : List Import) (uri : String) :
    Option ModuleId :=
  entries.reverse.findSome? fun e =>
    if e.uri = uri then g.registry.find? (ModulePath.target importer e) else none

/-- From `u` to `v`, import statement `i` was bound to the module and got its import id as path;
without a module, it kept what it had. -/
def BoundTo (g : ModuleGraph) (i : Nat) (u v : ModuleUnit) : Option ModuleId → Prop
  | some id => v.imports[i]? = (u.imports[i]?).map (fun b => { b with module := some id }) ∧
    ∃ m, g.module? id = some m ∧ v.source.importPaths[i]? = some (some m.importId)
  | none => v.imports[i]? = u.imports[i]? ∧ v.source.importPaths[i]? = u.source.importPaths[i]?

def linkUnit (g : ModuleGraph) (importer : String) (u : ModuleUnit) (e : Import) : ModuleUnit :=
  match g.registry.find? (ModulePath.target importer e) with
  | none => u
  | some module => bindUnit e.uri module (ModulePath.target importer e) u

theorem lastTarget?_cons (g : ModuleGraph) (importer : String) (e : Import) (rest : List Import)
    (uri : String) : g.lastTarget? importer (e :: rest) uri = (g.lastTarget? importer rest uri).or
      (if e.uri = uri then g.registry.find? (ModulePath.target importer e) else none) := by
  unfold lastTarget?
  rw [List.reverse_cons, List.findSome?_append, List.findSome?_singleton]

theorem BoundTo.trans (h : g.BoundTo i u v x) (h' : g.BoundTo i v w y) :
    g.BoundTo i u w (y.or x) := by
  cases y with
  | none =>
    rw [Option.none_or]
    cases x with
    | none => exact ⟨h'.1.trans h.1, h'.2.trans h.2⟩
    | some id =>
      obtain ⟨hb, m, hm, hp⟩ := h
      exact ⟨h'.1.trans hb, m, hm, h'.2.trans hp⟩
  | some id =>
    obtain ⟨hb, m, hm, hp⟩ := h'
    refine ⟨?_, m, hm, hp⟩
    cases x with
    | none => rw [hb, h.1]
    | some _ =>
      rw [hb, h.1, Option.map_map]
      rfl

theorem length_linkUnit (g : ModuleGraph) (importer : String) (e : Import)
    (h : u.imports.length = u.source.importPaths.length) :
    (g.linkUnit importer u e).imports.length =
      (g.linkUnit importer u e).source.importPaths.length := by
  unfold linkUnit
  split
  · exact h
  · next module _ =>
    obtain ⟨importPaths, hs, hl, -⟩ :=
      bindUnit_source e.uri module (ModulePath.target importer e) u
    rw [hs]
    simpa [bindUnit, hl] using h

theorem boundTo_linkUnit (hr : g.Registered) (hl : u.imports.length = u.source.importPaths.length)
    (hb : u.imports[i]? = some b) (importer : String) (e : Import) :
    g.BoundTo i u (g.linkUnit importer u e) (if e.uri = b.entry.uri
      then g.registry.find? (ModulePath.target importer e) else none) := by
  unfold linkUnit
  cases hf : g.registry.find? (ModulePath.target importer e) with
  | none =>
    rw [ite_self]
    exact ⟨rfl, rfl⟩
  | some module =>
    obtain ⟨m, hm, hid⟩ := hr.index _ _ hf
    obtain ⟨importPaths, hs, -, hp⟩ :=
      bindUnit_source e.uri module (ModulePath.target importer e) u
    have hmem : i ∈ importsOf u e.uri ↔ e.uri = b.entry.uri := by
      rw [mem_importsOf, hb]
      simp [eq_comm]
    have hbound : (bindUnit e.uri module (ModulePath.target importer e) u).imports[i]? =
        some (if b.entry.uri = e.uri then { b with module := some module } else b) := by
      simp [bindUnit, hb]
    have hpath := hp i
    simp only [hmem] at hpath
    by_cases he : e.uri = b.entry.uri
    · rw [if_pos he]
      have hlt : i < u.source.importPaths.length := by
        rw [← hl]
        exact (List.getElem?_eq_some_iff.mp hb).1
      refine ⟨?_, m, hm, ?_⟩
      · rw [hbound, hb, if_pos he.symm, Option.map_some]
      · rw [hs, hpath, if_pos he, List.getElem?_eq_getElem hlt, Option.map_some, hid]
    · rw [if_neg he]
      refine ⟨?_, ?_⟩
      · rw [hbound, hb, if_neg (Ne.symm he)]
      · rw [hs, hpath, if_neg he]

theorem BoundTo.entry (h : g.BoundTo i u v x) (hb : u.imports[i]? = some b) :
    ∃ b', v.imports[i]? = some b' ∧ b'.entry = b.entry := by
  cases x with
  | none => exact ⟨b, h.1.trans hb, rfl⟩
  | some id => exact ⟨{ b with module := some id }, by rw [h.1, hb, Option.map_some], rfl⟩

theorem boundTo_foldl (hr : g.Registered) (importer : String) (entries : List Import)
    (hl : u.imports.length = u.source.importPaths.length) (hb : u.imports[i]? = some b) :
    g.BoundTo i u (entries.foldl (g.linkUnit importer) u)
      (g.lastTarget? importer entries b.entry.uri) := by
  induction entries generalizing u b with
  | nil => exact ⟨rfl, rfl⟩
  | cons e rest ih =>
    have hstep := boundTo_linkUnit hr hl hb importer e
    obtain ⟨b', hb', he⟩ := hstep.entry hb
    have hrest := ih (length_linkUnit g importer e hl) hb'
    rw [he] at hrest
    rw [lastTarget?_cons]
    exact hstep.trans hrest

/-- What the registry finds is there, so no step fails. -/
theorem foldlM_linkImport (hr : g.Registered) (hu : g.unit? unit = some u) (importer : String)
    (entries : List Import) (missing : List String) (v : ModuleUnit) :
    entries.foldlM (linkImport unit importer) (missing, g.modifyUnit unit fun _ => v) =
      .ok (missing ++ (entries.filter fun e =>
        (g.registry.find? (ModulePath.target importer e)).isNone).map (·.uri),
      g.modifyUnit unit fun _ => entries.foldl (g.linkUnit importer) v) := by
  induction entries generalizing missing v with
  | nil => simp [pure, Except.pure]
  | cons e rest ih =>
    have hreg : (g.modifyUnit unit fun _ => v).registry = g.registry := rfl
    rw [List.foldlM_cons, List.foldl_cons]
    cases hf : g.registry.find? (ModulePath.target importer e) with
    | none =>
      have hstep : linkImport unit importer (missing, g.modifyUnit unit fun _ => v) e =
          .ok (missing ++ [e.uri], g.modifyUnit unit fun _ => v) := by
        simp [linkImport, hreg, hf, pure, Except.pure]
      have hunit : g.linkUnit importer v e = v := by simp [linkUnit, hf]
      rw [hstep, hunit, List.filter_cons_of_pos (by simp [hf])]
      refine (ih _ _).trans ?_
      simp
    | some module =>
      obtain ⟨m, hm, hid⟩ := hr.index _ _ hf
      have hbind : (g.modifyUnit unit fun _ => v).bindImport unit e.uri module =
          .ok ((importsOf v e.uri).length, (g.modifyUnit unit fun _ => v).modifyUnit unit
            (bindUnit e.uri module m.importId)) :=
        bindImport_eq_ok.mpr ⟨m, v, hm, by simp [hu], rfl, rfl⟩
      have hstep : linkImport unit importer (missing, g.modifyUnit unit fun _ => v) e =
          .ok (missing, g.modifyUnit unit fun _ => g.linkUnit importer v e) := by
        simp only [linkImport, hreg, hf, hbind, modifyUnit_modifyUnit, linkUnit, hid]
        rfl
      rw [hstep, List.filter_cons_of_neg (by simp [hf])]
      exact ih _ _

theorem lastTarget?_ne_none {entries : List Import} (he : e ∈ entries) {id : ModuleId}
    (hf : g.registry.find? (ModulePath.target importer e) = some id) :
    g.lastTarget? importer entries e.uri ≠ none := by
  intro hn
  have hnone := List.findSome?_eq_none_iff.mp hn e (List.mem_reverse.mpr he)
  simp [hf] at hnone

/-- An import statement gets the module that it names itself if the last target with its uri is that
module, or if it names none and gets what it had. -/
theorem BoundTo.iff (h : g.BoundTo i u v x) (hb : u.imports[i]? = some b)
    (hy : ∀ id, y = some id → x ≠ none) :
    g.BoundTo i u v y ↔ x = y ∨ y = none ∧ g.BoundTo i u u x := by
  constructor
  · intro h'
    cases y with
    | none =>
      cases x with
      | none => exact .inl rfl
      | some id =>
        obtain ⟨hbx, m, hm, hp⟩ := h
        exact .inr ⟨rfl, h'.1.symm.trans hbx, m, hm, h'.2.symm.trans hp⟩
    | some id =>
      cases x with
      | none => exact absurd rfl (hy id rfl)
      | some id' =>
        have he := h.1.symm.trans h'.1
        rw [hb] at he
        cases he
        exact .inl rfl
  · rintro (rfl | ⟨rfl, hkeep⟩)
    · exact h
    · cases x with
      | none => exact h
      | some id =>
        obtain ⟨hbx, m, hm, hp⟩ := h
        obtain ⟨hbu, m', hm', hp'⟩ := hkeep
        rw [hm] at hm'
        cases hm'
        exact ⟨hbx.trans hbu.symm, hp.trans hp'.symm⟩

/-- Linking binds every import statement to the module of the last one with its uri that names a
registered module. It gets the module that it names itself exactly if these are the same, or if it
names none and gets what it had. The uris of those that name none are returned, and no other unit
changes. -/
theorem linkImports_binds_last_target (hg : g.Reachable) (hu : g.unit? unit = some u) :
    ∃ m missing g' v, g.module? u.module = some m ∧ g.linkImports unit = .ok (missing, g') ∧
      g'.unit? unit = some v ∧
      missing = ((u.imports.map (·.entry)).filter fun e =>
        (g.registry.find? (ModulePath.target m.importId e)).isNone).map (·.uri) ∧
      (∀ k, k ≠ unit → g'.unit? k = g.unit? k) ∧
      ∀ i b, u.imports[i]? = some b →
        g.BoundTo i u v (g.lastTarget? m.importId (u.imports.map (·.entry)) b.entry.uri) ∧
        (g.BoundTo i u v (g.registry.find? (ModulePath.target m.importId b.entry)) ↔
          g.lastTarget? m.importId (u.imports.map (·.entry)) b.entry.uri =
            g.registry.find? (ModulePath.target m.importId b.entry) ∨
          g.registry.find? (ModulePath.target m.importId b.entry) = none ∧
            g.BoundTo i u u (g.lastTarget? m.importId (u.imports.map (·.entry)) b.entry.uri)) := by
  have hr := hg.registered
  obtain ⟨m, hm, -⟩ := hr.units unit u hu
  have hself : g.modifyUnit unit (fun _ => u) = g :=
    modifyUnit_eq_self fun w hw => Option.some.inj (hu.symm.trans hw)
  have hfold := foldlM_linkImport hr hu m.importId (u.imports.map (·.entry)) [] u
  rw [hself, List.nil_append] at hfold
  refine ⟨m, _, _, (u.imports.map (·.entry)).foldl (g.linkUnit m.importId) u, hm,
    linkImports_eq_ok.mpr ⟨u, m, hu, hm, hfold⟩, by simp [hu], rfl, fun k hk => ?_,
    fun i b hb => ?_⟩
  · rw [unit?_modifyUnit, if_neg hk]
  · have hbound := boundTo_foldl hr m.importId (u.imports.map (·.entry)) (hg.length_imports hu) hb
    have hmem : b.entry ∈ u.imports.map (·.entry) :=
      List.mem_map_of_mem (List.mem_of_getElem? hb)
    exact ⟨hbound, hbound.iff hb fun id hf => lastTarget?_ne_none hmem hf⟩

/-- A unit of `app.ui` that imports `shared` twice, relative to its package and by its full id. Only
the first one names a module. -/
def sharedTwice : ModuleGraph :=
  run {} [
    .addModule "app.ui",
    .addModule "app.shared",
    .addUnit 0 "Main.lv" "import .shared\nimport shared"
      (.node { kind := "program", span := ⟨0, 28⟩ } [
        .node { kind := "import_statement", span := ⟨0, 14⟩ } [
          .node { kind := "import", span := ⟨0, 6⟩, named := false } [],
          .node { kind := ".", span := ⟨7, 8⟩, named := false } [],
          .node { kind := "import_path", span := ⟨8, 14⟩ } [
            .node { kind := "identifier", span := ⟨8, 14⟩ } []]],
        .node { kind := "import_statement", span := ⟨15, 28⟩ } [
          .node { kind := "import", span := ⟨15, 21⟩, named := false } [],
          .node { kind := "import_path", span := ⟨22, 28⟩ } [
            .node { kind := "identifier", span := ⟨22, 28⟩ } []]]])]

theorem sharedTwice_linked : ∃ u missing g' v, sharedTwice.unit? 0 = some u ∧
    sharedTwice.linkImports 0 = .ok (missing, g') ∧ g'.unit? 0 = some v ∧
    sharedTwice.BoundTo 1 u v (some 1) := by
  have hreach : sharedTwice.Reachable := ⟨{}, _, rfl⟩
  have hunit : (sharedTwice.unit? 0).map (fun u => (u.module, u.imports)) =
      some (0, [⟨⟨"shared", "", true⟩, none⟩, ⟨⟨"shared", "", false⟩, none⟩]) := by
    decide +kernel
  have hmodule : (sharedTwice.module? 0).map (·.importId) = some "app.ui" := by decide +kernel
  have htarget : sharedTwice.lastTarget? "app.ui" [⟨"shared", "", true⟩, ⟨"shared", "", false⟩]
      "shared" = some 1 := by decide +kernel
  obtain ⟨u, hu, hparts⟩ := Option.map_eq_some_iff.mp hunit
  obtain ⟨hmod, himports⟩ := Prod.mk.inj hparts
  obtain ⟨m, missing, g', v, hm, hl, hv, -, -, hb⟩ := linkImports_binds_last_target hreach hu
  rw [hmod] at hm
  rw [hm] at hmodule
  have hid : m.importId = "app.ui" := Option.some.inj hmodule
  have hbound := (hb 1 _ (by rw [himports]; rfl)).1
  rw [himports, hid] at hbound
  refine ⟨u, missing, g', v, hu, hl, hv, ?_⟩
  rw [← htarget]
  exact hbound

/-- The second import names no module and its uri is returned as missing, but it is bound to the
module of the first one. -/
theorem sharedTwice_misbound :
    sharedTwice.registry.find? (ModulePath.target "app.ui" ⟨"shared", "", false⟩) = none ∧
    (sharedTwice.unit? 0).map (fun u => (u.imports, u.source.importPaths)) =
      some ([⟨⟨"shared", "", true⟩, none⟩, ⟨⟨"shared", "", false⟩, none⟩], [none, none]) ∧
    (sharedTwice.linkImports 0).toOption.map (fun r =>
        (r.1, (r.2.unit? 0).map fun u => (u.imports, u.source.importPaths))) =
      some (["shared"], some ([⟨⟨"shared", "", true⟩, some 1⟩, ⟨⟨"shared", "", false⟩, some 1⟩],
        [some "app.shared", some "app.shared"])) := by
  decide +kernel

end ComponentCompiler.ModuleGraph
