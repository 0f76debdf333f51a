import ComponentCompiler.Proofs.Graph.ResolutionPass
import ComponentCompiler.Proofs.Script.Header

namespace ComponentCompiler

open Cst (Tree)
open Relation

namespace ModuleGraph

variable {g : ModuleGraph} {id k : UnitId} {u : ModuleUnit} {t : ImportType} {name : String}
  {module : ModuleId}

/-- The module that the import statements take a symbol from: of those with the symbol's qualifier
as local name, the first one whose module exports the symbol counts. -/
def supplier? (g : ModuleGraph) (u : ModuleUnit) (t : ImportType) : Option ModuleId :=
  (u.imports.filter fun i => i.entry.localName == t.qualifier).findSome? fun i =>
    i.module.filter fun module => (g.findExport? module t.name).isSome

theorem exporter_ownHit? (u : ModuleUnit) (name : String) :
    (g.ownHit? u name).map Hit.exporter = g.findExport? u.module name := by
  unfold ownHit?
  cases h : g.findExport? u.module name with
  | none => rfl
  | some exporter =>
    obtain ⟨-, v, hv⟩ := findExport?_live h
    simp [hv]

theorem exporter_importHit? (hm : (g.module? u.module).isSome) (name : String) (i : BoundImport) :
    (g.importHit? u name i).map Hit.exporter = i.module.bind (g.findExport? · name) := by
  obtain ⟨m, hm⟩ := Option.isSome_iff_exists.mp hm
  unfold importHit?
  cases i.module with
  | none => rfl
  | some module =>
    cases h : g.findExport? module name with
    | none => simp [h]
    | some exporter =>
      obtain ⟨⟨target, ht⟩, v, hv⟩ := findExport?_live h
      simp [h, hm, ht, hv]

theorem findSome?_bind {α β γ : Type} (f : α → Option β) (answer : β → Option γ) (l : List α) :
    l.findSome? (fun a => (f a).bind answer) =
      (l.findSome? fun a => (f a).filter fun b => (answer b).isSome).bind answer := by
  induction l with
  | nil => rfl
  | cons a rest ih =>
    rw [List.findSome?_cons, List.findSome?_cons]
    cases f a with
    | none => exact ih
    | some b => cases hb : answer b <;> simp [Option.filter, hb, ih]

theorem exporter_hit? (hm : (g.module? u.module).isSome) (t : ImportType) :
    (g.hit? u t).map Hit.exporter =
      ((if t.qualifier = "" then g.findExport? u.module t.name else none) <|>
        (g.supplier? u t).bind (g.findExport? · t.name)) := by
  have hown : (if t.qualifier = "" then g.ownHit? u t.name else none).map Hit.exporter =
      if t.qualifier = "" then g.findExport? u.module t.name else none := by
    split
    · exact exporter_ownHit? u t.name
    · rfl
  have himported (imports : List BoundImport) :
      (imports.findSome? (g.importHit? u t.name)).map Hit.exporter =
        imports.findSome? fun i => i.module.bind (g.findExport? · t.name) := by
    rw [List.map_findSome?]
    exact congrArg (List.findSome? · imports) (funext (exporter_importHit? hm t.name))
  unfold hit? supplier?
  rw [← hown, ← findSome?_bind, ← himported]
  cases if t.qualifier = "" then g.ownHit? u t.name else none <;> rfl

theorem Filed.of_findExport? (hf : g.Filed) (h : g.findExport? module name = some k) :
    ∃ u, g.unit? k = some u ∧ u.module = module ∧ u.exportsName name := by
  obtain ⟨m, hm, hfind⟩ := Option.bind_eq_some_iff.mp h
  obtain ⟨u, hu, hmodule⟩ := hf.listed module m k hm (List.mem_of_find?_eq_some hfind)
  have hexports := List.find?_some hfind
  rw [hu] at hexports
  exact ⟨u, hu, hmodule, hexports⟩

/-- A unit finds a symbol in itself if it is the first to export it in its module, and the symbol is
looked for there. -/
theorem exporter_eq_self_iff (hf : g.Filed) (hu : g.unit? id = some u)
    (hm : (g.module? u.module).isSome) :
    (g.hit? u t).map Hit.exporter = some id ↔ g.findExport? u.module t.name = some id ∧
      (t.qualifier = "" ∨ g.supplier? u t = some u.module) := by
  -- a module in which the unit is found is the unit's own
  have hself {module : ModuleId} (h : g.findExport? module t.name = some id) :
      module = u.module := by
    obtain ⟨v, hv, hmodule, -⟩ := hf.of_findExport? h
    cases hu.symm.trans hv
    exact hmodule.symm
  rw [exporter_hit? hm]
  constructor
  · intro h
    have himported (h : (g.supplier? u t).bind (g.findExport? · t.name) = some id) :
        g.findExport? u.module t.name = some id ∧ g.supplier? u t = some u.module := by
      obtain ⟨module, hs, hfind⟩ := Option.bind_eq_some_iff.mp h
      cases hself hfind
      exact ⟨hfind, hs⟩
    by_cases hq : t.qualifier = ""
    · rw [if_pos hq] at h
      cases hfind : g.findExport? u.module t.name with
      | some exporter =>
        rw [hfind] at h
        exact ⟨h, .inl hq⟩
      | none =>
        rw [hfind] at h
        cases hfind.symm.trans (himported h).1
    · rw [if_neg hq] at h
      exact (himported h).imp_right .inr
  · rintro ⟨hfind, hq | hs⟩
    · rw [if_pos hq, hfind]
      rfl
    · rw [hs, Option.bind_some, hfind]
      split <;> rfl

end ModuleGraph

namespace Ast

variable {ast : Ast} {e n : NodeId} {root : Tree} {unitName source name : String}
  {config : ScopeConfig} (hb : build root unitName = .ok ast)

include hb

theorem scopeOwner?_root : ast.scopeOwner? rootId = some rootId := by
  have hscope : (ast.scope? rootId).isSome = true := by
    rw [(build_sound hb).scope, isKind, (build_registered hb).root]
    rfl
  rw [scopeOwner?, List.find?_cons, hscope]

theorem declaredName_mem_root (he : e ∈ ast.exports) (hn : ast.declaredName? e = some n) :
    n ∈ ast.declared rootId := by
  have hreg := build_registered hb
  obtain ⟨outer, o, hup, howner, hmem⟩ := hreg.name e n hn
  cases hreg.exports e he with
  | inl hdeclaration =>
    cases Option.some.inj (hup.symm.trans hdeclaration.2)
    cases howner.symm.trans (scopeOwner?_root hb)
    exact hmem
  | inr hinstance =>
    unfold declaredName? at hn
    unfold isKind at hinstance
    cases hk : ast.kind? e with
    | none => simp [hk] at hn
    | some k =>
      rw [hk] at hn hinstance
      cases k with
      | declaration d => cases hinstance
      | _ => cases hn

/-- Nothing that is declared at the root has a plain name that is needed. -/
theorem ne_of_needs (h : ast.Needs source config "" name) (ha : ¬ ast.IsAlias source "")
    (hn : n ∈ ast.declared rootId) : ast.slice n source ≠ name := by
  obtain ⟨e, -, s, -, x, hx, -, hfree, hasks⟩ := h
  have hroot : ReflTransGen ast.Up x rootId := by
    obtain ⟨p, hup, -⟩ := (build_sound hb).used s x hx
    exact chain_root (build_linked hb) (lt_size_of_up hup)
  generalize hq : "" = qualifier at hasks
  cases hasks with
  | plain _ => exact hfree rootId hroot n hn
  | qualified h _ => exact absurd (hq ▸ h) ha

end Ast

/-- What a run of graph calls keeps of the source of a unit: the tree was built, the exports are
those of the tree, and the symbols are those that were collected from it, with more paths. -/
structure ModuleUnit.Sourced (u : ModuleUnit) : Prop where
  built : ∃ root, Ast.build root u.name = .ok u.source.ast
  exports : u.exports = u.source.exports
  symbols : ReflTransGen ImportTypes.Resolves
    (u.source.ast.importTypes u.source.source u.source.config.scope) u.source.importTypes

namespace ModuleGraph

variable {g : ModuleGraph} {id : UnitId} {u : ModuleUnit}

theorem sourced_recordPath (h : u.Sourced) (t : ImportType) (path : String) :
    (recordPath t path u).Sourced := by
  unfold recordPath SourceUnit.resolveImportType?
  cases hr : u.source.importTypes.resolve? t.qualifier t.name path with
  | none => exact h
  | some types => exact ⟨h.built, h.exports, h.symbols.tail ⟨_, _, _, hr⟩⟩

theorem Reachable.sourced (h : g.Reachable) (hu : g.unit? id = some u) : u.Sourced := by
  refine h.unit_induct (P := ModuleUnit.Sourced) ?_ ?_ hu
  · intro module name source root config unit hb
    obtain ⟨ast, hast, hb⟩ := bind_eq_ok.mp hb
    cases pure_eq_ok.mp hb
    exact ⟨⟨root, hast⟩, rfl, .refl⟩
  · intro u u' hs hc
    cases hc with
    | keep => exact hs
    | unbind _ | emit _ => exact ⟨hs.built, hs.exports, hs.symbols⟩
    | parse =>
      unfold markParsed
      split
      · exact ⟨hs.built, hs.exports, hs.symbols⟩
      · exact hs
    | record t path => exact sourced_recordPath hs t path
    | bind uri module importId =>
      obtain ⟨importPaths, hsource, -, -⟩ := bindUnit_source uri module importId u
      constructor
      · rw [ModuleUnit.name, hsource]
        exact hs.built
      · rw [hsource]
        exact hs.exports
      · rw [hsource]
        exact hs.symbols

end ModuleGraph

namespace SourceUnit

variable {u : SourceUnit} {e n : NodeId} {x : Export}

theorem declaredName?_of_exported? (h : u.exported? e = some (n, .component)) :
    u.ast.declaredName? e = some n := by
  unfold exported? at h
  unfold Ast.declaredName?
  split at h
  · next d hk =>
    obtain ⟨name, hname, heq⟩ := Option.map_eq_some_iff.mp h
    cases heq
    rw [hk]
    exact hname
  · next i hk =>
    obtain ⟨name, -, heq⟩ := Option.map_eq_some_iff.mp h
    cases heq
  · cases h

theorem exported?_of_export? (h : u.export? e = some x) : ∃ n, u.exported? e = some (n, x.kind) ∧
    x.name = if u.ast.slice n u.source = "default" then u.name else u.ast.slice n u.source := by
  obtain ⟨⟨n, kind⟩, hexported, hx⟩ := Option.bind_eq_some_iff.mp h
  refine ⟨n, ?_⟩
  dsimp only at hx
  generalize (if u.ast.slice n u.source = "default" then u.name else u.ast.slice n u.source) = name
    at hx ⊢
  split at hx
  · cases hx
  · cases hx
    exact ⟨hexported, rfl⟩

end SourceUnit

/-- A plain name that a unit needs and exports is the name of a root instance, or of a declaration
that is written `default`. -/
theorem ModuleUnit.Sourced.export_of_needed {u : ModuleUnit} {t : ImportType} (h : u.Sourced)
    (ht : t ∈ u.source.importTypes.entries) (hq : t.qualifier = "")
    (ha : ¬ u.source.ast.IsAlias u.source.source "") (he : u.exportsName t.name) :
    ∃ e ∈ u.source.ast.exports, ∃ n kind, u.source.exported? e = some (n, kind) ∧
      u.source.export? e = some ⟨t.name, kind⟩ ∧
      (kind = .component → u.source.ast.slice n u.source.source = "default") := by
  obtain ⟨root, hb⟩ := h.built
  obtain ⟨hplaced, hneeds⟩ := Ast.table_of_resolves hb h.symbols
  have hneeded : u.source.ast.Needs u.source.source u.source.config.scope "" t.name := by
    rw [← hneeds, ← hq, (ImportTypes.mem_entries_iff hplaced).mp ht]
    rfl
  obtain ⟨found, hfound, hname⟩ := List.any_eq_true.mp he
  rw [h.exports] at hfound
  obtain ⟨e, hmem, hexport⟩ := List.mem_filterMap.mp hfound
  obtain ⟨n, hexported, hwritten⟩ := SourceUnit.exported?_of_export? hexport
  rw [beq_iff_eq] at hname
  refine ⟨e, hmem, n, found.kind, hexported, hname ▸ hexport, fun hkind => ?_⟩
  by_contra hdefault
  rw [if_neg hdefault, hname] at hwritten
  have hdeclared := Ast.declaredName_mem_root hb hmem
    (SourceUnit.declaredName?_of_exported? (hkind ▸ hexported))
  exact Ast.ne_of_needs hb hneeded ha hdeclared hwritten.symm

namespace ModuleGraph

variable {g g' : ModuleGraph} {id : UnitId} {u : ModuleUnit} {t : ImportType}

theorem path_of_own (hu : g.unit? id = some u) (hq : t.qualifier = "")
    (h : g.findExport? u.module t.name = some id) :
    g.hit? u t = some ⟨id, "./" ++ u.targetFileName⟩ := by
  apply hit?_of_own
  rw [if_pos hq, ownHit?, h]
  simp [hu]

/-- A pass that succeeds records where each symbol is found. This is the unit itself exactly if it
is the first to export the symbol in its module, and the symbol is plain or comes from this module.
A plain symbol is then loaded from the file that the unit is written to, and the export is a root
instance or a declaration that is written `default`. -/
theorem resolved_to_itself_iff {summary : ResolveSummary} (hg : g.Reachable)
    (hu : g.unit? id = some u) (hr : g.resolveTypes id = (.ok summary, g')) :
    ∃ u', g'.unit? id = some u' ∧ symbolsOf u' = (symbolsOf u).map (g.found u) ∧
      ∀ t ∈ symbolsOf u,
        ((∃ hit, g.hit? u t = some hit ∧ hit.exporter = id) ↔
          g.findExport? u.module t.name = some id ∧
            (t.qualifier = "" ∨ g.supplier? u t = some u.module)) ∧
        ∀ hit, g.hit? u t = some hit → hit.exporter = id → t.qualifier = "" →
          hit.path = "./" ++ u.targetFileName ∧
          (¬ u.source.ast.IsAlias u.source.source "" →
            ∃ e ∈ u.source.ast.exports, ∃ n kind, u.source.exported? e = some (n, kind) ∧
              u.source.export? e = some ⟨t.name, kind⟩ ∧
              (kind = .component → u.source.ast.slice n u.source.source = "default")) := by
  have hresolvable := hg.resolvable hu
  have hself (t : ImportType) : (∃ hit, g.hit? u t = some hit ∧ hit.exporter = id) ↔ _ :=
    Option.map_eq_some_iff.symm.trans (exporter_eq_self_iff hg.filed hu hresolvable.registered)
  cases hresolvable.passed_cases hg.soundEdges.acyclic with
  | inr herr =>
    obtain ⟨before, after, path, g₁, herr, -⟩ := herr
    cases hr.symm.trans herr
  | inl hok =>
    obtain ⟨g₁, hok, hpassed⟩ := hok
    cases hr.symm.trans hok
    refine ⟨_, hpassed.unit, hpassed.symbols.trans (List.append_nil _), fun t ht =>
      ⟨hself t, fun hit hhit hid hq => ?_⟩⟩
    have hfind := ((hself t).mp ⟨hit, hhit, hid⟩).1
    cases hhit.symm.trans (path_of_own hu hq hfind)
    refine ⟨rfl, fun ha => (hg.sourced hu).export_of_needed ht hq ha ?_⟩
    obtain ⟨v, hv, -, hexports⟩ := hg.filed.of_findExport? hfind
    cases hu.symm.trans hv
    exact hexports

def derivedFromUnit : ModuleGraph :=
  run {} [
    .addModule "app",
    .addUnit 0 "App.lv" "default P App" (.node { kind := "program", span := ⟨0, 13⟩ } [
      .node { kind := "component_declaration", span := ⟨0, 7⟩ } [
        .node { kind := "identifier", span := ⟨0, 7⟩ } []],
      .node { kind := "component_declaration", span := ⟨8, 13⟩ } [
        .node { kind := "identifier", span := ⟨8, 9⟩ } [],
        .node { kind := "component_heritage", span := ⟨10, 13⟩ } [
          .node { kind := "identifier", span := ⟨10, 13⟩ } []]]])]

theorem derivedFromUnit_resolved :
    (derivedFromUnit.unit? 0).map (fun u => (symbolsOf u, u.targetFileName,
      u.source.ast.importAliases u.source.source, derivedFromUnit.hit? u ⟨"App", "", none⟩)) =
      some ([⟨"App", "", none⟩], "App.lv.js", [], some ⟨0, "./App.lv.js"⟩) ∧
    (derivedFromUnit.resolveTypes 0).1 = .ok { resolved := 1, unresolved := [] } ∧
    ((derivedFromUnit.resolveTypes 0).2.unit? 0).map symbolsOf =
      some [⟨"App", "", some "./App.lv.js"⟩] := by
  decide +kernel

theorem derivedFromUnit_exports : ∃ u g' u', derivedFromUnit.unit? 0 = some u ∧
    derivedFromUnit.resolveTypes 0 = (.ok { resolved := 1, unresolved := [] }, g') ∧
    g'.unit? 0 = some u' ∧ symbolsOf u' = [⟨"App", "", some "./App.lv.js"⟩] ∧
    derivedFromUnit.findExport? u.module "App" = some 0 ∧
    ∃ e ∈ u.source.ast.exports, ∃ n kind, u.source.exported? e = some (n, kind) ∧
      u.source.export? e = some ⟨"App", kind⟩ ∧
      (kind = .component → u.source.ast.slice n u.source.source = "default") := by
  have hg : derivedFromUnit.Reachable := ⟨{}, _, rfl⟩
  obtain ⟨hunit, hok, -⟩ := derivedFromUnit_resolved
  obtain ⟨u, hu, hparts⟩ := Option.map_eq_some_iff.mp hunit
  simp only [Prod.mk.injEq] at hparts
  obtain ⟨hsymbols, -, haliases, hhit⟩ := hparts
  have halias : ¬ u.source.ast.IsAlias u.source.source "" := by
    obtain ⟨root, hb⟩ := (hg.sourced hu).built
    rw [← Ast.mem_importAliases (Ast.build_linked hb), haliases]
    exact List.not_mem_nil
  have hr : derivedFromUnit.resolveTypes 0 =
      (.ok { resolved := 1, unresolved := [] }, (derivedFromUnit.resolveTypes 0).2) :=
    Prod.ext hok rfl
  obtain ⟨u', hu', hrecorded, hall⟩ := resolved_to_itself_iff hg hu hr
  obtain ⟨hself, hplain⟩ := hall ⟨"App", "", none⟩ (by simp [hsymbols])
  refine ⟨u, _, u', hu, hr, hu', ?_, (hself.mp ⟨_, hhit, rfl⟩).1, (hplain _ hhit rfl rfl).2 halias⟩
  rw [hrecorded, hsymbols]
  simp [found, hhit]

/-- The file of a unit may load a symbol from itself. -/
theorem derivedFromUnit_imports_itself : derivedFromUnit.Reachable ∧
    ∃ u, derivedFromUnit.unit? 0 = some u ∧
      (derivedFromUnit.resolveTypes 0).1 = .ok { resolved := 1, unresolved := [] } ∧
      derivedFromUnit.hit? u ⟨"App", "", none⟩ = some ⟨0, "./" ++ u.targetFileName⟩ ∧
      ((derivedFromUnit.resolveTypes 0).2.unit? 0).map symbolsOf =
        some [⟨"App", "", some ("./" ++ u.targetFileName)⟩] := by
  obtain ⟨hunit, hok, hsymbols⟩ := derivedFromUnit_resolved
  obtain ⟨u, hu, hparts⟩ := Option.map_eq_some_iff.mp hunit
  simp only [Prod.mk.injEq] at hparts
  obtain ⟨-, hfile, -, hhit⟩ := hparts
  have hpath : "./" ++ u.targetFileName = "./App.lv.js" := by
    rw [hfile]
    decide
  exact ⟨⟨{}, _, rfl⟩, u, hu, hok, hpath ▸ hhit, hpath ▸ hsymbols⟩

end ModuleGraph

end ComponentCompiler
