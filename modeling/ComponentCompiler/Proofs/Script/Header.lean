import ComponentCompiler.Proofs.Ast.Members
import ComponentCompiler.Proofs.ImportTypes.References
import ComponentCompiler.Proofs.Text.ByteOrder
import ComponentCompiler.Script.Imports

namespace ComponentCompiler

open Cst (Tree)
open Relation

inductive HeadLine where
  | load (symbol : ImportType)
  /-- An object is made of the symbols under a qualifier. -/
  | gather (qualifier : String) (symbols : List ImportType)

namespace HeadLine

def loaded? : HeadLine → Option ImportType
  | load symbol => some symbol
  | gather _ _ => none

def gathered? (qualifier : String) : HeadLine → Option (List ImportType)
  | load _ => none
  | gather q symbols => if q = qualifier then some symbols else none

def text (sentinel : String) : HeadLine → String
  | load e =>
    "import \x7b" ++ e.name ++
      (if e.qualifier = "" then "" else " as " ++ ("__" ++ e.qualifier ++ "__" ++ e.name)) ++
      "\x7d from '" ++ e.resolvedPath.getD sentinel ++ "'\n"
  | gather q symbols =>
    "let " ++ q ++ " = \x7b" ++
      ", ".intercalate (symbols.map fun e => e.name ++ ":" ++ ("__" ++ q ++ "__" ++ e.name)) ++
      "\x7d\n"

end HeadLine

theorem Text.join_flatMap {α : Type} (xs : List α) (f : α → List String) :
    String.join (xs.flatMap f) = String.join (xs.map fun x => String.join (f x)) := by
  induction xs with
  | nil => rfl
  | cons x rest ih =>
    rw [List.flatMap_cons, String.join_append, List.map_cons, String.join_cons, ih]

namespace Dictionary

variable {α β : Type}

theorem flatMap_key {entries : List (String × α)} (hs : entries.Pairwise fun a b => a.1 < b.1)
    (key : String) (f : α → List β) :
    (entries.flatMap fun e => if e.1 = key then f e.2 else []) =
      (entries.lookup key).elim [] f := by
  induction entries with
  | nil => rfl
  | cons e rest ih =>
    obtain ⟨he, hr⟩ := List.pairwise_cons.mp hs
    rw [List.flatMap_cons, ih hr, List.lookup_cons]
    by_cases hk : e.1 = key
    · have hnone : rest.lookup key = none := by
        rw [List.lookup_eq_none_iff]
        intro d hd
        have hlt : key < d.1 := hk ▸ he d hd
        have hne : key ≠ d.1 := fun h => String.lt_irrefl d.1 (h ▸ hlt)
        simpa using hne
      simp [hk, hnone]
    · have hne : (key == e.1) = false := by simpa using Ne.symm hk
      simp [hk, hne]

end Dictionary

namespace ImportTypes

variable {t t' : ImportTypes} {e : ImportType} {q n : String}

def Before (a b : ImportType) : Prop :=
  Text.bytes a.qualifier < Text.bytes b.qualifier ∨
    a.qualifier = b.qualifier ∧ Text.bytes a.name < Text.bytes b.name

structure HeadLines (t : ImportTypes) (lines : List HeadLine) : Prop where
  loads : ∀ e, e ∈ lines.filterMap HeadLine.loaded? ↔ t.get? e.qualifier e.name = some e
  sorted : (lines.filterMap HeadLine.loaded?).Pairwise Before
  /-- There is one object for each qualifier, made of all the symbols under it. -/
  gathers : ∀ q, q ≠ "" → (∃ n, (t.get? q n).isSome) → lines.filterMap (HeadLine.gathered? q) =
    [(lines.filterMap HeadLine.loaded?).filter fun e => e.qualifier = q]
  gathers_no_other : ∀ q, q = "" ∨ (∀ n, t.get? q n = none) →
    lines.filterMap (HeadLine.gathered? q) = []

def Resolves (t t' : ImportTypes) : Prop :=
  ∃ q n path, t.resolve? q n path = some t'

theorem Resolves.wellPlaced (h : Resolves t t') (ht : t.WellPlaced) : t'.WellPlaced := by
  obtain ⟨q, n, path, h⟩ := h
  have he := resolve?_eq_mapEntries ht q n path
  rw [h] at he
  rw [show t' = _ from he]
  refine ht.mapEntries fun e => ?_
  unfold withPath
  split <;> exact ⟨rfl, rfl⟩

theorem Resolves.isSome_get? (h : Resolves t t') :
    (t'.get? q n).isSome ↔ (t.get? q n).isSome := by
  obtain ⟨q', n', path, h⟩ := h
  obtain ⟨old, hold, rfl⟩ := Option.map_eq_some_iff.mp h
  rw [get?_put]
  split
  · next hkey =>
    rw [hkey.1, hkey.2, hold]
    rfl
  · rfl

theorem mem_entries_iff (ht : t.WellPlaced) :
    e ∈ t.entries ↔ t.get? e.qualifier e.name = some e := by
  refine ⟨get?_eq_some ht, fun h => ?_⟩
  have hin : (e.name, e) ∈ (t.group e.qualifier).entries := Dictionary.mem_of_lookup h
  exact mem_entries.mpr ⟨_, mem_of_group hin, e.name, hin⟩

theorem sorted_entries (ht : t.WellPlaced) : t.entries.Pairwise Before := by
  unfold entries Dictionary.values
  rw [List.flatMap_map, List.pairwise_flatMap]
  constructor
  · intro g hg
    rw [List.pairwise_map]
    apply List.Pairwise.imp_of_mem _ (ht.symbols g hg)
    intro a b ha hb hlt
    obtain ⟨hqa, hna⟩ := ht.keyed g hg a ha
    obtain ⟨hqb, hnb⟩ := ht.keyed g hg b hb
    exact .inr ⟨hqa.trans hqb.symm, Text.bytes_lt_iff.mpr (by rwa [hna, hnb])⟩
  · apply List.Pairwise.imp_of_mem _ ht.groups
    intro g h hg hh hlt a ha b hb
    obtain ⟨a, hina, rfl⟩ := List.mem_map.mp ha
    obtain ⟨b, hinb, rfl⟩ := List.mem_map.mp hb
    refine .inl (Text.bytes_lt_iff.mpr ?_)
    rwa [(ht.keyed g hg a hina).1, (ht.keyed h hh b hinb).1]

def groupLines (q : String) (symbols : List ImportType) : List HeadLine :=
  symbols.map .load ++ if q = "" ∨ symbols = [] then [] else [.gather q symbols]

def lines (t : ImportTypes) : List HeadLine :=
  t.groups.entries.flatMap fun g => groupLines g.1 g.2.values

theorem loaded_lines (t : ImportTypes) : t.lines.filterMap HeadLine.loaded? = t.entries := by
  have hgroup (q : String) (symbols : List ImportType) :
      (groupLines q symbols).filterMap HeadLine.loaded? = symbols := by
    unfold groupLines
    rw [List.filterMap_append, List.filterMap_map]
    split <;> simp [HeadLine.loaded?, Function.comp_def]
  unfold lines entries
  rw [List.filterMap_flatMap]
  simp only [hgroup, Dictionary.values, List.flatMap_map]

theorem filter_entries (ht : t.WellPlaced) (q : String) :
    t.entries.filter (fun e => e.qualifier = q) = (t.group q).values := by
  have hsame : t.entries.filter (fun e => e.qualifier = q) =
      t.groups.entries.flatMap fun g => if g.1 = q then g.2.values else [] := by
    unfold entries Dictionary.values
    rw [List.flatMap_map, List.filter_flatMap]
    apply List.flatMap_congr
    intro g hg
    have hq (e : ImportType) (he : e ∈ g.2.values) : e.qualifier = g.1 := by
      obtain ⟨e, hin, rfl⟩ := List.mem_map.mp he
      exact (ht.keyed g hg e hin).1
    split
    · next h =>
      exact List.filter_eq_self.mpr fun e he => by simp [hq e he, h]
    · next h =>
      exact List.filter_eq_nil_iff.mpr fun e he => by simp [hq e he, h]
  rw [hsame, Dictionary.flatMap_key ht.groups, group, Dictionary.get?]
  cases t.groups.entries.lookup q <;> rfl

theorem gathered_lines (ht : t.WellPlaced) (q : String) :
    t.lines.filterMap (HeadLine.gathered? q) =
      if q = "" ∨ (t.group q).values = [] then [] else [(t.group q).values] := by
  have hgroup (q' : String) (symbols : List ImportType) :
      (groupLines q' symbols).filterMap (HeadLine.gathered? q) =
        if q' = q then (if q = "" ∨ symbols = [] then [] else [symbols]) else [] := by
    unfold groupLines
    rw [List.filterMap_append, List.filterMap_map]
    by_cases hq : q' = q
    · subst hq
      split <;> simp [HeadLine.gathered?, Function.comp_def]
    · split <;> simp [HeadLine.gathered?, Function.comp_def, hq]
  unfold lines
  rw [List.filterMap_flatMap]
  simp only [hgroup]
  rw [Dictionary.flatMap_key ht.groups q fun d => if q = "" ∨ d.values = [] then [] else [d.values],
    group, Dictionary.get?]
  cases t.groups.entries.lookup q <;> simp [Dictionary.values]

theorem exists_get?_iff : (∃ n, (t.get? q n).isSome) ↔ (t.group q).values ≠ [] := by
  constructor
  · rintro ⟨n, hn⟩ hnil
    obtain ⟨e, he⟩ := Option.isSome_iff_exists.mp hn
    have hmem := Dictionary.mem_of_lookup he
    rw [List.map_eq_nil_iff.mp hnil] at hmem
    cases hmem
  · intro hne
    cases hd : (t.group q).entries with
    | nil => exact absurd (by rw [Dictionary.values, hd]; rfl) hne
    | cons e rest =>
      refine ⟨e.1, ?_⟩
      rw [get?, Dictionary.get?, hd, List.lookup_cons, beq_self_eq_true]
      rfl

theorem isEmpty_lines (t : ImportTypes) : t.lines.isEmpty = t.isEmpty := by
  have hnil : t.lines = [] ↔ t.entries = [] := by
    constructor
    · intro h
      rw [← loaded_lines, h]
      rfl
    · intro h
      refine List.flatMap_eq_nil_iff.mpr fun g hg => ?_
      have hvalues : g.2.values = [] :=
        List.flatMap_eq_nil_iff.mp h g.2 (List.mem_map_of_mem (f := Prod.snd) hg)
      simp [groupLines, hvalues]
  rw [Bool.eq_iff_iff, List.isEmpty_iff, hnil, isEmpty, size, beq_iff_eq,
    List.length_eq_zero_iff]

theorem headLines_lines (ht : t.WellPlaced) : t.HeadLines t.lines := by
  refine ⟨fun e => ?_, ?_, fun q hq hn => ?_, fun q hq => ?_⟩
  · rw [loaded_lines, mem_entries_iff ht]
  · rw [loaded_lines]
    exact sorted_entries ht
  · rw [gathered_lines ht, loaded_lines, filter_entries ht]
    exact if_neg (not_or.mpr ⟨hq, exists_get?_iff.mp hn⟩)
  · rw [gathered_lines ht]
    refine if_pos (hq.imp_right fun hnone => Decidable.byContradiction fun hne => ?_)
    obtain ⟨n, hn⟩ := exists_get?_iff.mpr hne
    rw [hnone n] at hn
    cases hn

end ImportTypes

namespace ScriptInput

variable {s : ScriptInput} {t : ImportTypes}

theorem text_load_plain {e : ImportType} (he : e.qualifier = "") :
    (HeadLine.load e).text s.config.unresolvedSentinel = s.plainImport e := by
  delta HeadLine.text plainImport importPath
  simp only [he, if_true, String.append_empty]

theorem text_load_mangled {e : ImportType} (he : e.qualifier ≠ "") :
    (HeadLine.load e).text s.config.unresolvedSentinel = s.mangledImport e.qualifier e := by
  delta HeadLine.text mangledImport importPath mangledName
  simp only [he, if_false, String.append_assoc]

theorem text_gather (q : String) (symbols : List ImportType) :
    (HeadLine.gather q symbols).text s.config.unresolvedSentinel = qualifierObject q symbols :=
  rfl

theorem importGroup_eq (q : String) {symbols : List ImportType}
    (hq : ∀ e ∈ symbols, e.qualifier = q) : s.importGroup q symbols =
      String.join ((ImportTypes.groupLines q symbols).map
        (HeadLine.text s.config.unresolvedSentinel)) := by
  have hloads (line : ImportType → String)
      (hline : ∀ e ∈ symbols, (HeadLine.load e).text s.config.unresolvedSentinel = line e) :
      symbols.map line = (symbols.map .load).map (HeadLine.text s.config.unresolvedSentinel) := by
    rw [List.map_map]
    exact List.map_congr_left fun e he => (hline e he).symm
  unfold importGroup ImportTypes.groupLines
  rw [List.map_append, String.join_append]
  by_cases hnil : symbols = []
  · simp [hnil]
  · by_cases hplain : q = ""
    · rw [← hloads s.plainImport fun e he => text_load_plain ((hq e he).trans hplain)]
      simp [hnil, hplain]
    · rw [← hloads (s.mangledImport q) fun e he => ?_]
      · simp [hnil, hplain, text_gather]
      · rw [text_load_mangled fun h => hplain ((hq e he).symm.trans h), hq e he]

theorem header?_eq (hs : s.importTypes = some t) (ht : t.WellPlaced) :
    s.header? = if t.lines.isEmpty then none else
      some (String.join (t.lines.map (HeadLine.text s.config.unresolvedSentinel)) ++ "\n") := by
  have hempty : t.lines.isEmpty = t.isEmpty := t.isEmpty_lines
  have hgroups : String.join (t.groups.entries.map fun g => s.importGroup g.1 g.2.values) =
      String.join (t.lines.map (HeadLine.text s.config.unresolvedSentinel)) := by
    rw [ImportTypes.lines, List.map_flatMap, Text.join_flatMap]
    refine congrArg String.join (List.map_congr_left fun g hg => importGroup_eq g.1 fun e he => ?_)
    obtain ⟨entry, hin, rfl⟩ := List.mem_map.mp he
    exact (ht.keyed g hg entry hin).1
  unfold header?
  rw [hs, hempty, ← hgroups]
  cases he : t.isEmpty <;> simp [he]

end ScriptInput

/-- The table of a unit has the symbols that the unit needs, and stays so when paths are recorded. -/
theorem Ast.table_of_resolves {root : Tree} {unitName : String} {ast : Ast}
    (hb : Ast.build root unitName = .ok ast) {source : String} {config : ScopeConfig}
    {t : ImportTypes}
    (ht : ReflTransGen ImportTypes.Resolves (ast.importTypes source config) t) :
    t.WellPlaced ∧ ∀ q n, (t.get? q n).isSome ↔ ast.Needs source config q n := by
  induction ht with
  | refl =>
    exact ⟨ast.importTypes_wellPlaced source config, fun q n => isSome_get?_importTypes hb⟩
  | tail _ hr ih => exact ⟨hr.wellPlaced ih.1, fun q n => hr.isSome_get?.trans (ih.2 q n)⟩

/-- The head of a script loads each symbol that the unit needs once, from where it is known to be,
and makes the objects for the qualifiers. -/
theorem head_imports_needed {root : Tree} {unitName : String} {ast : Ast}
    (hb : Ast.build root unitName = .ok ast) (source : String) (config : ScopeConfig)
    {t : ImportTypes}
    (ht : ReflTransGen ImportTypes.Resolves (ast.importTypes source config) t) :
    (∀ q n, (t.get? q n).isSome ↔ ast.Needs source config q n) ∧
      ∀ s : ScriptInput, s.importTypes = some t → ∃ lines, t.HeadLines lines ∧
        s.header? = if lines.isEmpty then none else
          some (String.join (lines.map (HeadLine.text s.config.unresolvedSentinel)) ++ "\n") := by
  obtain ⟨hplaced, hneeds⟩ := Ast.table_of_resolves hb ht
  refine ⟨hneeds, fun s hs => ⟨t.lines, ImportTypes.headLines_lines hplaced, ?_⟩⟩
  exact ScriptInput.header?_eq hs hplaced

section

open Cst (Sketch)

def aliasedSource : String :=
  "import lib as N\ncomponent A < N.Foo \x7b B \x7b \x7d \x7d\nN.bar"

/-- A component with a qualified base type and an instance in its body. Behind the component, where
nothing is exported, another symbol is taken from the same module. -/
def aliased : Cst.Table :=
  let imported := Sketch.node "import_statement" [.token "import",
    .node "import_path" [Ast.wordSketch "lib"],
    .node "import_as" [.token "as", Ast.wordSketch "N"]]
  let heritage := Sketch.node "component_heritage" [.token "<", Ast.wordSketch "N", .token ".",
    Ast.wordSketch "Foo"]
  let inner := Ast.instanceSketch [Ast.wordSketch "B", Ast.bodySketch []]
  let component := Sketch.node "component_declaration" [.token "component", Ast.wordSketch "A",
    heritage, Ast.bodySketch [inner]]
  let statement := Sketch.node "expression_statement"
    [Ast.memberSketch (Ast.wordSketch "N") "bar"]
  ((Sketch.node "program" [imported, component, statement]).layout aliasedSource).toOption.getD {}

def aliasedTypes : ImportTypes :=
  (({} : ImportTypes).add "N" "Foo").add "" "B"

/-- Node 1 is the import statement and node 4 its alias. Node 15 is the member expression behind the
component. -/
theorem aliased_built : ∃ root ast, aliased.tree? = some root ∧
    Ast.build root "App" = .ok ast ∧
    ast.importTypes aliasedSource {} = aliasedTypes ∧
    ast.kind? 1 = some (.importStatement ⟨[3], some 4, false⟩) ∧ ast.slice 4 aliasedSource = "N" ∧
    ast.kind? 15 = some .member ∧ ast.children 15 = [16, 17] ∧ ast.kind? 16 = some .identifier ∧
    ast.slice 16 aliasedSource = "N" ∧ ast.slice 17 aliasedSource = "bar" ∧
    ast.isDeclared aliasedSource {} (ast.slice 16 aliasedSource) 16 = false :=
  Ast.build_of_decide (by decide +kernel)

theorem aliased_head_imports : ∃ root ast t, aliased.tree? = some root ∧
    Ast.build root "App" = .ok ast ∧
    (ast.importTypes aliasedSource {}).resolve? "N" "Foo" "./Foo.js" = some t ∧
    t.entries.map (fun e => (e.qualifier, e.name, e.resolvedPath)) =
      [("", "B", none), ("N", "Foo", some "./Foo.js")] ∧
    (∀ q n, (t.get? q n).isSome ↔ ast.Needs aliasedSource {} q n) ∧
    ∀ s : ScriptInput, s.importTypes = some t → ∃ lines, t.HeadLines lines ∧
      s.header? = if lines.isEmpty then none else
        some (String.join (lines.map (HeadLine.text s.config.unresolvedSentinel)) ++ "\n") := by
  have hresolved : (aliasedTypes.resolve? "N" "Foo" "./Foo.js").map (fun t =>
      t.entries.map fun e => (e.qualifier, e.name, e.resolvedPath)) =
      some [("", "B", none), ("N", "Foo", some "./Foo.js")] := by decide
  obtain ⟨root, ast, htree, hb, htypes, -⟩ := aliased_built
  rw [← htypes] at hresolved
  obtain ⟨t, ht, hentries⟩ := Option.map_eq_some_iff.mp hresolved
  exact ⟨root, ast, t, htree, hb, ht, hentries,
    head_imports_needed hb aliasedSource {} (.single ⟨"N", "Foo", "./Foo.js", ht⟩)⟩

end

end ComponentCompiler
