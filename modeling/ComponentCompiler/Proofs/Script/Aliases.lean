import ComponentCompiler.Proofs.Script.Header

namespace ComponentCompiler

open Cst (Tree)
open Relation

namespace Ast

variable {ast : Ast} {source qualifier name : String} {config : ScopeConfig}

/-- The reference `x` is a name of the outside, and the symbol is taken from it. -/
def Takes (ast : Ast) (source qualifier name : String) (x : NodeId) : Prop :=
  ast.slice x source = qualifier ∧ ast.Free source x ∧
    ∃ y, ast.Qualifies x y ∧ ast.slice y source = name

def TakenInExport (ast : Ast) (source qualifier name : String) : Prop :=
  ∃ e ∈ ast.exports, ∃ x, TransGen ast.Up x e ∧ ast.Takes source qualifier name x

theorem needs_alias_iff {root : Tree} {unitName : String} (hb : build root unitName = .ok ast)
    (ha : ast.IsAlias source qualifier) (hne : qualifier ≠ "") :
    ast.Needs source config qualifier name ↔
      qualifier ∉ config.builtinNames ∧ ast.TakenInExport source qualifier name := by
  constructor
  · rintro ⟨e, he, s, hs, u, hu, hbuiltin, hfree, hasks⟩
    obtain ⟨e', he', hbelow⟩ := (below_export_iff hb hu).mp ⟨e, he, hs⟩
    cases hasks with
    | plain => exact absurd rfl hne
    | @qualified symbol _ hq =>
      exact ⟨hbuiltin, e', he', u, hbelow, rfl, hfree, symbol, hq, rfl⟩
  · rintro ⟨hbuiltin, e, he, x, hbelow, rfl, hfree, y, hq, rfl⟩
    obtain ⟨o, hused⟩ := ((qualifies_iff hb).mp hq).1
    obtain ⟨e', he', hs⟩ := (below_export_iff hb hused).mpr ⟨e, he, hbelow⟩
    exact ⟨e', he', o, hs, x, hused, hbuiltin, hfree, .qualified ha hq⟩

end Ast

namespace ImportTypes

variable {t : ImportTypes} {q n : String}

theorem hasQualifier_iff : t.hasQualifier q ↔ ∃ n, (t.get? q n).isSome := by
  rw [exists_get?_iff, hasQualifier, Dictionary.isEmpty, Dictionary.values, ne_eq,
    List.map_eq_nil_iff, ← List.isEmpty_iff]
  simp

theorem keyed_of_get? (ht : t.WellPlaced) {e : ImportType} (h : t.get? q n = some e) :
    e.qualifier = q ∧ e.name = n := by
  have hin : (n, e) ∈ (t.group q).entries := Dictionary.mem_of_lookup h
  exact ht.keyed (q, t.group q) (mem_of_group hin) (n, e) hin

theorem exists_mem_group_iff (ht : t.WellPlaced) :
    (∃ e ∈ (t.group q).values, e.name = n) ↔ (t.get? q n).isSome := by
  rw [← filter_entries ht]
  simp only [List.mem_filter, decide_eq_true_eq, mem_entries_iff ht]
  constructor
  · rintro ⟨e, ⟨he, rfl⟩, rfl⟩
    exact Option.isSome_of_eq_some he
  · intro h
    obtain ⟨e, he⟩ := Option.isSome_iff_exists.mp h
    obtain ⟨rfl, rfl⟩ := keyed_of_get? ht he
    exact ⟨e, ⟨he, rfl⟩, rfl⟩

/-- The symbols of an alias that the table has are made an object by one of the lines. -/
theorem gather_mem_lines (ht : t.WellPlaced) (hq : q ≠ "") (hn : ∃ n, (t.get? q n).isSome) :
    .gather q (t.group q).values ∈ t.lines := by
  have hvalues := exists_get?_iff.mp hn
  have hgathered := gathered_lines ht q
  rw [if_neg (not_or.mpr ⟨hq, hvalues⟩)] at hgathered
  obtain ⟨line, hline, hsymbols⟩ := List.mem_filterMap.mp (hgathered ▸ List.mem_singleton_self _)
  cases line with
  | load => cases hsymbols
  | gather q' symbols =>
    rw [HeadLine.gathered?, Option.ite_none_right_eq_some] at hsymbols
    obtain ⟨rfl, hsymbols⟩ := hsymbols
    exact Option.some.inj hsymbols ▸ hline

end ImportTypes

namespace ScriptInput

variable {s : ScriptInput} {t : ImportTypes}

theorem importText_eq_empty {d : ImportData} {a : NodeId} (ht : s.importTypes = some t)
    (ha : d.localName = some a) (index : Nat) :
    s.importText index d = "" ↔ ∃ n, (t.get? (s.text a) n).isSome := by
  rw [← ImportTypes.hasQualifier_iff]
  unfold importText
  simp only [ha, ht, Option.map_some, Option.any_some]
  split
  · next h => simp [h]
  · next h => simp [h]

end ScriptInput

/-- The statement that imports a module under a name is dropped where a symbol of the module is taken
below an exported node. The head then makes an object of that name, and of all symbols that are
taken from the module in the unit it has those that are taken below an exported node. -/
theorem dropped_alias_serves_exports {root : Tree} {unitName : String} {ast : Ast}
    (hb : Ast.build root unitName = .ok ast) {source : String} {config : ScopeConfig}
    {t : ImportTypes} (ht : ReflTransGen ImportTypes.Resolves (ast.importTypes source config) t)
    {s : ScriptInput} (hast : s.ast = ast) (hsource : s.source = source)
    (htypes : s.importTypes = some t) {i a : NodeId} {d : ImportData}
    (hk : ast.kind? i = some (.importStatement d)) (ha : d.localName = some a)
    (hne : s.text a ≠ "") (index : Nat) :
    (s.importText index d = "" ↔
      s.text a ∉ config.builtinNames ∧ ∃ n, ast.TakenInExport source (s.text a) n) ∧
    (s.importText index d = "" → ∃ (lines : List HeadLine) (symbols : List ImportType),
      s.header? =
        some (String.join (lines.map (HeadLine.text s.config.unresolvedSentinel)) ++ "\n") ∧
      .gather (s.text a) symbols ∈ lines ∧
      ∀ n, ((t.get? (s.text a) n).isSome ↔ ast.TakenInExport source (s.text a) n) ∧
        ((∃ e ∈ symbols, e.name = n) ↔ (t.get? (s.text a) n).isSome)) := by
  subst hast hsource
  obtain ⟨hplaced, hneeds⟩ := Ast.table_of_resolves hb ht
  have halias : s.ast.IsAlias s.source (s.text a) := ⟨i, d, a, hk, ha, rfl⟩
  have hentry (n : String) : (t.get? (s.text a) n).isSome ↔
      s.text a ∉ config.builtinNames ∧ s.ast.TakenInExport s.source (s.text a) n :=
    (hneeds _ n).trans (Ast.needs_alias_iff hb halias hne)
  have hdropped := ScriptInput.importText_eq_empty htypes ha index
  have htaken : s.importText index d = "" ↔
      s.text a ∉ config.builtinNames ∧ ∃ n, s.ast.TakenInExport s.source (s.text a) n := by
    rw [hdropped, ← exists_and_left]
    exact exists_congr hentry
  refine ⟨htaken, fun h => ?_⟩
  have hline := ImportTypes.gather_mem_lines hplaced hne (hdropped.mp h)
  refine ⟨t.lines, (t.group (s.text a)).values, ?_, hline, fun n => ?_⟩
  · rw [ScriptInput.header?_eq htypes hplaced, if_neg]
    simpa using List.ne_nil_of_mem hline
  · have hbuiltin := (htaken.mp h).1
    exact ⟨(hentry n).trans (and_iff_right hbuiltin), ImportTypes.exists_mem_group_iff hplaced⟩

theorem aliased_dropped : ∃ (root : Tree) (ast : Ast) (s : ScriptInput) (lines : List HeadLine)
    (symbols : List ImportType), aliased.tree? = some root ∧ Ast.build root "App" = .ok ast ∧
    s.ast = ast ∧ s.source = aliasedSource ∧ s.importTypes = some (ast.importTypes aliasedSource {}) ∧
    ast.kind? 1 = some (.importStatement ⟨[3], some 4, false⟩) ∧ s.text 4 = "N" ∧
    s.importText 0 ⟨[3], some 4, false⟩ = "" ∧
    s.header? =
      some (String.join (lines.map (HeadLine.text s.config.unresolvedSentinel)) ++ "\n") ∧
    .gather "N" symbols ∈ lines ∧
    ∀ n, (((ast.importTypes aliasedSource {}).get? "N" n).isSome ↔
        ast.TakenInExport aliasedSource "N" n) ∧
      ((∃ e ∈ symbols, e.name = n) ↔ ((ast.importTypes aliasedSource {}).get? "N" n).isSome) := by
  obtain ⟨root, ast, htree, hb, htypes, hk, htext, -⟩ := aliased_built
  let s : ScriptInput := { ast, source := aliasedSource, unitName := "App",
                           importTypes := some (ast.importTypes aliasedSource {}) }
  have hN : s.text 4 = "N" := htext
  have hdropped : s.importText 0 ⟨[3], some 4, false⟩ = "" := by
    rw [ScriptInput.importText_eq_empty rfl rfl 0, hN, htypes]
    exact ⟨"Foo", by decide⟩
  have h := (dropped_alias_serves_exports hb .refl (s := s) rfl rfl rfl hk rfl
    (by rw [hN]; decide) 0).2 hdropped
  rw [hN] at h
  obtain ⟨lines, symbols, h⟩ := h
  exact ⟨root, ast, s, lines, symbols, htree, hb, rfl, rfl, rfl, hk, hN, hdropped, h⟩

/-- The symbol that is taken behind the component is not in the table, and the statement that
imports the module is dropped all the same. -/
theorem aliased_misses_symbol : ∃ root ast, aliased.tree? = some root ∧
    Ast.build root "App" = .ok ast ∧
    ast.kind? 1 = some (.importStatement ⟨[3], some 4, false⟩) ∧
    ast.slice 4 aliasedSource = "N" ∧
    (∀ s : ScriptInput, s.ast = ast → s.source = aliasedSource →
      s.importTypes = some (ast.importTypes aliasedSource {}) →
      s.importText 0 ⟨[3], some 4, false⟩ = "") ∧
    ast.Takes aliasedSource "N" "bar" 16 ∧
    (ast.importTypes aliasedSource {}).get? "N" "bar" = none := by
  obtain ⟨root, ast, htree, hb, htypes, hk, hN, hmember, hchildren, hx, hqualifier, hname,
    hundeclared⟩ := aliased_built
  have hbar : (ast.importTypes aliasedSource {}).get? "N" "bar" = none := by
    rw [htypes]
    decide
  refine ⟨root, ast, htree, hb, hk, hN, ?_,
    ⟨hqualifier, ?_, 17, .member hmember hchildren hx, hname⟩, hbar⟩
  · rintro s rfl hs ht
    rw [ScriptInput.importText_eq_empty ht rfl 0, ScriptInput.text, hs, hN, htypes]
    exact ⟨"Foo", by decide⟩
  · exact ((Ast.isDeclared_eq_false (Ast.build_linked hb)).mp hundeclared).2

end ComponentCompiler
