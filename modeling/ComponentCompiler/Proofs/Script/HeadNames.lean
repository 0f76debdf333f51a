import ComponentCompiler.Proofs.Script.Aliases

namespace ComponentCompiler

open Cst (Tree)
open Relation
open ScriptInput (mangledName)

variable {q n q' n' : String}

def HeadLine.binds : HeadLine → String
  | load e => if e.qualifier = "" then e.name else mangledName e.qualifier e.name
  | gather q _ => q

theorem HeadLine.binds_plain {e : ImportType} (h : e.qualifier = "") :
    (load e).binds = e.name :=
  if_pos h

theorem HeadLine.binds_qualified {e : ImportType} (h : e.qualifier ≠ "") :
    (load e).binds = mangledName e.qualifier e.name :=
  if_neg h

/-- The name stands in the text where an import or a declaration has the name that it binds. -/
def BindsIn (text name : String) : Prop :=
  ∃ opening closing, text = opening ++ name ++ closing ∧
    (opening = "import \x7b" ∨ (∃ n, opening = "import \x7b" ++ n ++ " as ") ∨ opening = "let ")

theorem HeadLine.text_binds (sentinel : String) (line : HeadLine) :
    BindsIn (line.text sentinel) line.binds := by
  cases line with
  | load e =>
    let closing := "\x7d from '" ++ e.resolvedPath.getD sentinel ++ "'\n"
    by_cases hq : e.qualifier = ""
    · refine ⟨"import \x7b", closing, ?_, .inl rfl⟩
      simp [text, binds_plain hq, hq, closing, String.append_assoc]
    · refine ⟨"import \x7b" ++ e.name ++ " as ", closing, ?_, .inr (.inl ⟨e.name, rfl⟩)⟩
      simp [text, binds_qualified hq, mangledName, hq, closing, String.append_assoc]
  | gather q symbols =>
    let members := ", ".intercalate (symbols.map fun e => e.name ++ ":" ++ mangledName q e.name)
    refine ⟨"let ", " = \x7b" ++ members ++ "\x7d\n", ?_, .inr (.inr rfl)⟩
    simp [text, binds, members, mangledName, String.append_assoc]

def HeadLine.qualifier : HeadLine → String
  | load e => e.qualifier
  | gather q _ => q

/-- The underscores between qualifier and name can be read further to the right in one symbol to
give the other: what stands between the two readings belongs to the name here and to the qualifier
there. -/
def Slides (q n q' n' : String) : Prop :=
  (∃ m, q' = q ++ "__" ++ m ∧ n = m ++ "__" ++ n') ∨ q' = q ++ "_" ∧ n = "_" ++ n'

theorem toList_mangledName (q n : String) :
    (mangledName q n).toList = '_' :: '_' :: (q.toList ++ '_' :: '_' :: n.toList) := by
  simp [mangledName]

theorem slides_of_append {gap : List Char} (hq : q'.toList = q.toList ++ gap)
    (hn : '_' :: '_' :: n.toList = gap ++ '_' :: '_' :: n'.toList) :
    q = q' ∧ n = n' ∨ Slides q n q' n' := by
  rw [Slides]
  simp only [← String.toList_inj, String.toList_append]
  rcases gap with _ | ⟨c, _ | ⟨d, m⟩⟩
  · exact .inl ⟨by simpa using hq.symm, by simpa using hn⟩
  · obtain ⟨rfl, hname⟩ : '_' = c ∧ n.toList = '_' :: n'.toList := by simpa using hn
    exact .inr (.inr ⟨hq, hname⟩)
  · obtain ⟨rfl, rfl, hname⟩ : '_' = c ∧ '_' = d ∧ n.toList = m ++ '_' :: '_' :: n'.toList := by
      simpa using hn
    refine .inr (.inl ⟨String.ofList m, ?_, ?_⟩)
    · rw [hq]
      simp
    · rw [hname]
      simp

theorem Slides.mangledName_eq (h : Slides q n q' n') : mangledName q n = mangledName q' n' := by
  rw [← String.toList_inj, toList_mangledName, toList_mangledName]
  rcases h with ⟨m, rfl, rfl⟩ | ⟨rfl, rfl⟩
  · simp
  · simp

theorem Slides.ne (h : Slides q n q' n') : q ≠ q' := by
  rintro rfl
  rcases h with ⟨m, hq, -⟩ | ⟨hq, -⟩
  · have hlength := congrArg (·.toList.length) hq
    simp at hlength
  · have hlength := congrArg (·.toList.length) hq
    simp at hlength

/-- Two symbols are loaded under one name if they are the same or one slides to the other. -/
theorem mangledName_eq_iff : mangledName q n = mangledName q' n' ↔
    (q = q' ∧ n = n') ∨ Slides q n q' n' ∨ Slides q' n' q n := by
  constructor
  · intro h
    rw [← String.toList_inj, toList_mangledName, toList_mangledName] at h
    have happend := (List.cons.inj (List.cons.inj h).2).2
    rcases List.append_eq_append_iff.mp happend with ⟨gap, hq, hn⟩ | ⟨gap, hq, hn⟩
    · exact (slides_of_append hq hn).imp_right .inl
    · rcases slides_of_append hq hn with ⟨rfl, rfl⟩ | hslides
      · exact .inl ⟨rfl, rfl⟩
      · exact .inr (.inr hslides)
  · rintro (⟨rfl, rfl⟩ | h | h)
    · rfl
    · exact h.mangledName_eq
    · exact h.mangledName_eq.symm

/-- No two of the needed symbols and their qualifiers are bound to one name. A plain name is one
with the empty qualifier. -/
structure Apart (needed : String → String → Prop) : Prop where
  plain : ∀ p q n, q ≠ "" → needed "" p → needed q n → p ≠ q ∧ p ≠ mangledName q n
  qualifier : ∀ q n q' n', q ≠ "" → q' ≠ "" → needed q n → needed q' n' → q' ≠ mangledName q n
  qualified : ∀ q n q' n', q ≠ "" → q' ≠ "" → needed q n → needed q' n' → ¬ Slides q n q' n'

namespace ImportTypes

variable {t : ImportTypes} {e : ImportType} {symbols : List ImportType}

theorem load_mem_lines : .load e ∈ t.lines ↔ e ∈ t.entries := by
  rw [← loaded_lines, List.mem_filterMap]
  constructor
  · exact fun h => ⟨.load e, h, rfl⟩
  · rintro ⟨line, hline, he⟩
    cases line with
    | load => cases he; exact hline
    | gather => cases he

theorem of_gather_mem_lines (ht : t.WellPlaced) (h : .gather q symbols ∈ t.lines) :
    q ≠ "" ∧ (∃ n, (t.get? q n).isSome) ∧ symbols = (t.group q).values := by
  have hmem : symbols ∈ t.lines.filterMap (HeadLine.gathered? q) :=
    List.mem_filterMap.mpr ⟨_, h, if_pos rfl⟩
  rw [gathered_lines ht] at hmem
  split at hmem
  · exact absurd hmem List.not_mem_nil
  · next hne =>
    rw [not_or] at hne
    exact ⟨hne.1, exists_get?_iff.mpr hne.2, List.mem_singleton.mp hmem⟩

theorem nodup_groupLines {symbols : List ImportType} (h : symbols.Nodup) (q : String) :
    (groupLines q symbols).Nodup := by
  rw [groupLines]
  refine List.nodup_append.mpr ⟨?_, ?_, ?_⟩
  · exact List.Nodup.map (fun a b hab => HeadLine.load.inj hab) h
  · split <;> simp
  · intro a ha b hb
    obtain ⟨e, -, rfl⟩ := List.mem_map.mp ha
    split at hb
    · exact absurd hb List.not_mem_nil
    · rw [List.mem_singleton.mp hb]
      exact HeadLine.noConfusion

theorem nodup_lines (ht : t.WellPlaced) : t.lines.Nodup := by
  have hqualifier {g : String × Dictionary ImportType} (hg : g ∈ t.groups.entries)
      {line : HeadLine} (hline : line ∈ groupLines g.1 g.2.values) : line.qualifier = g.1 := by
    rcases List.mem_append.mp hline with hline | hline
    · obtain ⟨e, he, rfl⟩ := List.mem_map.mp hline
      obtain ⟨entry, hentry, rfl⟩ := List.mem_map.mp he
      exact (ht.keyed g hg entry hentry).1
    · split at hline
      · exact absurd hline List.not_mem_nil
      · rw [List.mem_singleton.mp hline]
        rfl
  rw [lines, List.nodup_flatMap]
  constructor
  · intro g hg
    refine nodup_groupLines ?_ g.1
    rw [Dictionary.values, List.Nodup, List.pairwise_map]
    refine List.Pairwise.imp_of_mem ?_ (ht.symbols g hg)
    intro a b ha hb hlt heq
    have hkeys : a.1 = b.1 := by rw [← (ht.keyed g hg a ha).2, ← (ht.keyed g hg b hb).2, heq]
    exact String.lt_irrefl _ (hkeys ▸ hlt)
  · refine List.Pairwise.imp_of_mem ?_ ht.groups
    intro g h hg hh hlt line hline hline'
    have hkeys : g.1 = h.1 := (hqualifier hg hline).symm.trans (hqualifier hh hline')
    exact String.lt_irrefl _ (hkeys ▸ hlt)

theorem exists_load (ht : t.WellPlaced) (h : (t.get? q n).isSome) :
    ∃ e, .load e ∈ t.lines ∧ e.qualifier = q ∧ e.name = n := by
  obtain ⟨e, he⟩ := Option.isSome_iff_exists.mp h
  obtain ⟨rfl, rfl⟩ := keyed_of_get? ht he
  exact ⟨e, load_mem_lines.mpr ((mem_entries_iff ht).mpr he), rfl, rfl⟩

theorem get?_of_load (ht : t.WellPlaced) (h : .load e ∈ t.lines) :
    t.get? e.qualifier e.name = some e :=
  (mem_entries_iff ht).mp (load_mem_lines.mp h)

def BindsOnce (t : ImportTypes) : Prop :=
  ∀ line ∈ t.lines, ∀ other ∈ t.lines, line.binds = other.binds → line = other

theorem BindsOnce.apart (ht : t.WellPlaced) (h : t.BindsOnce) :
    Apart fun q n => (t.get? q n).isSome := by
  refine ⟨fun p q n hq hp hn => ⟨?_, ?_⟩, fun q n q' n' hq hq' hn hn' => ?_,
    fun q n q' n' hq hq' hn hn' => ?_⟩
  · rintro rfl
    obtain ⟨e, he, hqe, rfl⟩ := exists_load ht hp
    cases h _ he _ (gather_mem_lines ht hq ⟨n, hn⟩) (HeadLine.binds_plain hqe)
  · rintro rfl
    obtain ⟨e, he, hqe, hne⟩ := exists_load ht hp
    obtain ⟨d, hd, rfl, rfl⟩ := exists_load ht hn
    cases h _ he _ hd (by rw [HeadLine.binds_plain hqe, HeadLine.binds_qualified hq, hne])
    exact hq hqe
  · rintro rfl
    obtain ⟨e, he, rfl, rfl⟩ := exists_load ht hn
    cases h _ he _ (gather_mem_lines ht hq' ⟨n', hn'⟩) (HeadLine.binds_qualified hq)
  · intro hslides
    obtain ⟨e, he, rfl, rfl⟩ := exists_load ht hn
    obtain ⟨d, hd, rfl, rfl⟩ := exists_load ht hn'
    cases h _ he _ hd (by
      rw [HeadLine.binds_qualified hq, HeadLine.binds_qualified hq', hslides.mangledName_eq])
    exact hslides.ne rfl

theorem load_eq_of_apart (ht : t.WellPlaced) (h : Apart fun q n => (t.get? q n).isSome)
    {e d : ImportType} (he : .load e ∈ t.lines) (hd : .load d ∈ t.lines)
    (hbinds : (HeadLine.load e).binds = (HeadLine.load d).binds) : e = d := by
  have hget := get?_of_load ht he
  have hget' := get?_of_load ht hd
  have hsome : (t.get? e.qualifier e.name).isSome := by rw [hget]; rfl
  have hsome' : (t.get? d.qualifier d.name).isSome := by rw [hget']; rfl
  suffices hsame : e.qualifier = d.qualifier ∧ e.name = d.name by
    rw [hsame.1, hsame.2, hget'] at hget
    exact (Option.some.inj hget).symm
  by_cases hq : e.qualifier = "" <;> by_cases hq' : d.qualifier = ""
  · rw [HeadLine.binds_plain hq, HeadLine.binds_plain hq'] at hbinds
    exact ⟨hq.trans hq'.symm, hbinds⟩
  · rw [HeadLine.binds_plain hq, HeadLine.binds_qualified hq'] at hbinds
    exact absurd hbinds (h.plain _ _ _ hq' (hq ▸ hsome) hsome').2
  · rw [HeadLine.binds_qualified hq, HeadLine.binds_plain hq'] at hbinds
    exact absurd hbinds.symm (h.plain _ _ _ hq (hq' ▸ hsome') hsome).2
  · rw [HeadLine.binds_qualified hq, HeadLine.binds_qualified hq', mangledName_eq_iff] at hbinds
    rcases hbinds with hsame | hslides | hslides
    · exact hsame
    · exact absurd hslides (h.qualified _ _ _ _ hq hq' hsome hsome')
    · exact absurd hslides (h.qualified _ _ _ _ hq' hq hsome' hsome)

theorem load_ne_gather_of_apart (ht : t.WellPlaced) (h : Apart fun q n => (t.get? q n).isSome)
    (he : .load e ∈ t.lines) (hg : .gather q symbols ∈ t.lines) : (HeadLine.load e).binds ≠ q := by
  obtain ⟨hq, ⟨n, hn⟩, -⟩ := of_gather_mem_lines ht hg
  have hsome : (t.get? e.qualifier e.name).isSome := by rw [get?_of_load ht he]; rfl
  by_cases hqe : e.qualifier = ""
  · rw [HeadLine.binds_plain hqe]
    exact (h.plain _ _ _ hq (hqe ▸ hsome) hn).1
  · rw [HeadLine.binds_qualified hqe]
    exact (h.qualifier _ _ _ _ hqe hq hsome hn).symm

theorem bindsOnce_of_apart (ht : t.WellPlaced) (h : Apart fun q n => (t.get? q n).isSome) :
    t.BindsOnce := by
  intro line hline other hother hbinds
  cases line with
  | load e =>
    cases other with
    | load d => rw [load_eq_of_apart ht h hline hother hbinds]
    | gather q symbols => exact absurd hbinds (load_ne_gather_of_apart ht h hline hother)
  | gather q symbols =>
    cases other with
    | load d => exact absurd hbinds.symm (load_ne_gather_of_apart ht h hother hline)
    | gather q' symbols' =>
      obtain rfl : q = q' := hbinds
      rw [(of_gather_mem_lines ht hline).2.2, (of_gather_mem_lines ht hother).2.2]

/-- The names are different exactly if the symbols of the table are apart. -/
theorem nodup_binds_iff (ht : t.WellPlaced) : (t.lines.map HeadLine.binds).Nodup ↔
    Apart fun q n => (t.get? q n).isSome := by
  rw [List.nodup_map_iff_inj_on (nodup_lines ht)]
  exact ⟨BindsOnce.apart ht, bindsOnce_of_apart ht⟩

end ImportTypes

/-- The name has no place for the underscores that are put around a qualifier. -/
structure IsTidyAlias (q : String) : Prop where
  ne_empty : q ≠ ""
  inside : ¬ ['_', '_'] <:+: q.toList
  last : q.toList.getLast? ≠ some '_'

theorem apart_of_tidy {needed : String → String → Prop}
    (halias : ∀ q n, q ≠ "" → needed q n → IsTidyAlias q)
    (hplain : ∀ n, needed "" n → ¬ ['_', '_'] <+: n.toList)
    (hother : ∀ p q n, q ≠ "" → needed "" p → needed q n → p ≠ q) : Apart needed := by
  have hbegins (q n : String) : ['_', '_'] <+: (mangledName q n).toList :=
    ⟨_, (toList_mangledName q n).symm⟩
  refine ⟨fun p q n hq hp hn => ⟨hother p q n hq hp hn, ?_⟩, fun q n q' n' hq hq' hn hn' => ?_,
    fun q n q' n' hq hq' hn hn' => ?_⟩
  · rintro rfl
    exact hplain _ hp (hbegins q n)
  · rintro rfl
    exact (halias _ _ hq' hn').inside (hbegins q n).isInfix
  · rintro (⟨m, rfl, -⟩ | ⟨rfl, -⟩)
    · exact (halias _ _ hq' hn').inside ⟨q.toList, m.toList, by simp⟩
    · exact (halias _ _ hq' hn').last (by simp)

namespace Ast

variable {ast : Ast} {source : String} {config : ScopeConfig}

theorem isAlias_of_needs (hq : q ≠ "") (h : ast.Needs source config q n) :
    ast.IsAlias source q := by
  obtain ⟨-, -, -, -, u, -, -, -, hasks⟩ := h
  cases hasks with
  | plain => exact absurd rfl hq
  | qualified ha => exact ha

/-- A plain name is no alias, unless a symbol is taken from an alias without a name. -/
theorem not_isAlias_of_needs (hempty : ¬ ast.IsAlias source "")
    (h : ast.Needs source config "" n) : ¬ ast.IsAlias source n := by
  obtain ⟨-, -, -, -, u, -, -, -, hasks⟩ := h
  generalize hq : "" = q at hasks
  cases hasks with
  | plain hn => exact hn
  | qualified ha => exact absurd (hq ▸ ha) hempty

end Ast

/-- The names in the head of a script are different exactly if the symbols that the unit needs are
apart. They are if no alias has underscores where those around a qualifier are put, and no plain
name starts with two. -/
theorem head_names_distinct {root : Tree} {unitName : String} {ast : Ast}
    (hb : Ast.build root unitName = .ok ast) (source : String) (config : ScopeConfig)
    {t : ImportTypes}
    (ht : ReflTransGen ImportTypes.Resolves (ast.importTypes source config) t) :
    (∀ s : ScriptInput, s.importTypes = some t → s.header? = if t.lines.isEmpty then none else
        some (String.join (t.lines.map (HeadLine.text s.config.unresolvedSentinel)) ++ "\n")) ∧
      (∀ sentinel, ∀ line ∈ t.lines, BindsIn (line.text sentinel) line.binds) ∧
      ((t.lines.map HeadLine.binds).Nodup ↔ Apart (ast.Needs source config)) ∧
      ((∀ q, ast.IsAlias source q → IsTidyAlias q) →
        (∀ n, ast.Needs source config "" n → ¬ ['_', '_'] <+: n.toList) →
        (t.lines.map HeadLine.binds).Nodup) := by
  obtain ⟨hplaced, hneeds⟩ := Ast.table_of_resolves hb ht
  have hneeded : (fun q n => ((t.get? q n).isSome : Prop)) = ast.Needs source config :=
    funext fun q => funext fun n => propext (hneeds q n)
  have hiff := ImportTypes.nodup_binds_iff hplaced
  rw [hneeded] at hiff
  refine ⟨fun s hs => ScriptInput.header?_eq hs hplaced, fun sentinel line _ =>
    line.text_binds sentinel, hiff, fun halias hplain => hiff.mpr ?_⟩
  have hempty : ¬ ast.IsAlias source "" := fun h => (halias "" h).ne_empty rfl
  refine apart_of_tidy (fun q n hq hn => halias q (Ast.isAlias_of_needs hq hn)) hplain ?_
  rintro p q n hq hp hn rfl
  exact Ast.not_isAlias_of_needs hempty hp (Ast.isAlias_of_needs hq hn)

section

open Cst (Sketch)

def twoAliases (source first base second type : String) : Cst.Table :=
  let imported (path localName : String) := Sketch.node "import_statement" [.token "import",
    .node "import_path" [Ast.wordSketch path],
    .node "import_as" [.token "as", Ast.wordSketch localName]]
  let heritage := Sketch.node "component_heritage" [.token "<", Ast.wordSketch first, .token ".",
    Ast.wordSketch base]
  let inner := Ast.instanceSketch [Ast.wordSketch second, .token ".", Ast.wordSketch type,
    Ast.bodySketch []]
  let component := Sketch.node "component_declaration" [.token "component", Ast.wordSketch "A",
    heritage, Ast.bodySketch [inner]]
  ((Sketch.node "program" [imported "p" first, imported "q" second, component]).layout
    source).toOption.getD {}

def snakeSource : String :=
  "import p as my_lib\nimport q as a\ncomponent A < my_lib._c \x7b a.b__c \x7b \x7d \x7d"

def slidSource : String :=
  "import p as a__b\nimport q as a\ncomponent A < a__b.c \x7b a.b__c \x7b \x7d \x7d"

theorem snake_built : ∃ root ast,
    (twoAliases snakeSource "my_lib" "_c" "a" "b__c").tree? = some root ∧
    Ast.build root "App" = .ok ast ∧
    (ast.importTypes snakeSource {}).lines.map HeadLine.binds =
      ["__a__b__c", "a", "__my_lib___c", "my_lib"] :=
  Ast.build_of_decide (by decide +kernel)

theorem snake_names_distinct : ∃ root ast,
    (twoAliases snakeSource "my_lib" "_c" "a" "b__c").tree? = some root ∧
      Ast.build root "App" = .ok ast ∧
      ((ast.importTypes snakeSource {}).lines.map HeadLine.binds).Nodup ∧
      Apart (ast.Needs snakeSource {}) := by
  obtain ⟨root, ast, htree, hb, hnames⟩ := snake_built
  have hnodup : ((ast.importTypes snakeSource {}).lines.map HeadLine.binds).Nodup := by
    rw [hnames]
    decide
  exact ⟨root, ast, htree, hb, hnodup,
    (head_names_distinct hb snakeSource {} .refl).2.2.1.mp hnodup⟩

/-- The types `a__b.c` and `a.b__c` are bound to one name. -/
theorem slid_names_collide : ∃ root ast,
    (twoAliases slidSource "a__b" "c" "a" "b__c").tree? = some root ∧
      Ast.build root "App" = .ok ast ∧
      (ast.importTypes slidSource {}).lines.map HeadLine.binds =
        ["__a__b__c", "a", "__a__b__c", "a__b"] ∧
      ¬ ((ast.importTypes slidSource {}).lines.map HeadLine.binds).Nodup :=
  Ast.build_of_decide (by decide +kernel)

end

end ComponentCompiler
