import ComponentCompiler.Proofs.Ast.Exports
import ComponentCompiler.Proofs.Script.Edits

namespace ComponentCompiler

namespace Text

variable {word first text : String}

/-- White space aside, the text starts with the word. -/
def Opens (word text : String) : Prop :=
  word.toList <+: text.toList.dropWhile isBlank

theorem opens_blank_append {blank : String} (h : isBlankText blank) :
    Opens word (blank ++ text) ↔ Opens word text := by
  have hdrop : (blank.toList ++ text.toList).dropWhile isBlank = text.toList.dropWhile isBlank :=
    List.dropWhile_append_of_pos fun c hc => List.all_eq_true.mp h c hc
  rw [Opens, String.toList_append, hdrop]
  rfl

theorem opens_append_iff {c : Char} (hc : first.toList.head? = some c) (hb : isBlank c = false) :
    Opens word (first ++ text) ↔ word.toList <+: first.toList ++ text.toList := by
  obtain ⟨cs, hcs⟩ := List.head?_eq_some_iff.mp hc
  rw [Opens, String.toList_append, hcs, List.cons_append, List.dropWhile_cons_of_neg (by simp [hb])]

theorem opens_self_append {c : Char} (hc : word.toList.head? = some c) (hb : isBlank c = false) :
    Opens word (word ++ text) :=
  (opens_append_iff hc hb).mpr (List.prefix_append _ _)

theorem not_opens_append {c d : Char} (hc : first.toList.head? = some c) (hb : isBlank c = false)
    (hd : word.toList.head? = some d) (hne : d ≠ c) : ¬ Opens word (first ++ text) := by
  rw [opens_append_iff hc hb]
  obtain ⟨cs, hcs⟩ := List.head?_eq_some_iff.mp hc
  obtain ⟨ds, hds⟩ := List.head?_eq_some_iff.mp hd
  rw [hcs, hds, List.cons_append, List.cons_prefix_cons]
  exact fun h => hne h.1

end Text

def Export.opening (e : Export) : String :=
  match e.kind with
  | .component => "export class " ++ e.name ++ " extends "
  | .element => "export let " ++ e.name ++ " = "

theorem Export.opening_eq (e : Export) : ∃ rest, e.opening = "export" ++ rest := by
  unfold opening
  split
  · exact ⟨" class " ++ e.name ++ " extends ", by simp only [← String.append_assoc]; rfl⟩
  · exact ⟨" let " ++ e.name ++ " = ", by simp only [← String.append_assoc]; rfl⟩

theorem Export.head?_opening (e : Export) : e.opening.toList.head? = some 'e' := by
  obtain ⟨rest, hrest⟩ := e.opening_eq
  rw [hrest, String.toList_append]
  rfl

theorem Export.opens_export {e : Export} {text : String} (h : Text.Opens e.opening text) :
    Text.Opens "export" text := by
  obtain ⟨rest, hrest⟩ := e.opening_eq
  refine List.IsPrefix.trans ?_ h
  rw [hrest, String.toList_append]
  exact List.prefix_append _ _

def NodeKind.isUnbound : NodeKind → Bool
  | instance_ i => i.boundName.isNone
  | _ => false

/-- Exported declarations, and root instances with a name. -/
def Ast.isEmitted (ast : Ast) (id : NodeId) : Bool :=
  ast.isExported id && !ast.isKind id NodeKind.isUnbound

namespace ScriptInput

open Text (Opens)

variable {s : ScriptInput} {id : NodeId} {depth : Nat} {d : DeclarationData} {i : InstanceData}

theorem isBlankText_indent (s : ScriptInput) (depth : Nat) : Text.isBlankText (s.indent depth) := by
  unfold Text.isBlankText indent
  rw [String.toList_ofList]
  apply List.all_eq_true.mpr
  intro c hc
  rw [List.eq_of_mem_replicate hc]
  rfl

theorem classText_eq (convert : Conversion) (id : NodeId) (d : DeclarationData) (depth : Nat) :
    ∃ rest, s.classText convert id d depth = s.indent depth ++
      ((if s.ast.parent? id = some Ast.rootId then "\nexport " else "") ++
        ("class " ++ (s.publicName (s.textOption d.name) ++ (" extends " ++ rest)))) := by
  refine ⟨?rest, ?_⟩
  rotate_left
  · unfold classText
    simp only [String.append_assoc]
    rfl

theorem instanceText_eq (convert : Conversion) (id : NodeId) (i : InstanceData) (depth : Nat) :
    ∃ rest, s.instanceText convert id i depth =
      (if i.isRoot then
        i.boundName.elim "" fun name => "export let " ++ s.publicName (s.text name) ++ " = "
      else "") ++ (s.indent depth ++ ("(function(parent)\x7b\n" ++ rest)) := by
  refine ⟨?rest, ?_⟩
  rotate_left
  · unfold instanceText
    simp only [String.append_assoc]
    rfl

theorem classText_opens (convert : Conversion) (d : DeclarationData) (depth : Nat)
    (h : s.ast.parent? id = some Ast.rootId) :
    Opens (Export.opening ⟨s.publicName (s.textOption d.name), .component⟩)
      (s.classText convert id d depth) := by
  obtain ⟨rest, hrest⟩ := s.classText_eq convert id d depth
  have hopening : "\nexport " ++ ("class " ++ (s.publicName (s.textOption d.name) ++
      (" extends " ++ rest))) = "\n" ++
        (Export.opening ⟨s.publicName (s.textOption d.name), .component⟩ ++ rest) := by
    unfold Export.opening
    simp only [← String.append_assoc]
    rfl
  rw [hrest, if_pos h, Text.opens_blank_append (s.isBlankText_indent depth), hopening,
    Text.opens_blank_append rfl]
  exact Text.opens_self_append (Export.head?_opening _) rfl

theorem classText_not_opens (convert : Conversion) (d : DeclarationData) (depth : Nat)
    (h : s.ast.parent? id ≠ some Ast.rootId) :
    ¬ Opens "export" (s.classText convert id d depth) := by
  obtain ⟨rest, hrest⟩ := s.classText_eq convert id d depth
  rw [hrest, if_neg h, Text.opens_blank_append (s.isBlankText_indent depth),
    Text.opens_blank_append rfl]
  exact Text.not_opens_append rfl rfl rfl (by decide)

theorem instanceText_opens (convert : Conversion) (id : NodeId) (depth : Nat) {name : NodeId}
    (hr : i.isRoot) (hn : i.boundName = some name) :
    Opens (Export.opening ⟨s.publicName (s.text name), .element⟩)
      (s.instanceText convert id i depth) := by
  obtain ⟨rest, hrest⟩ := s.instanceText_eq convert id i depth
  rw [hrest, if_pos hr, hn]
  exact Text.opens_self_append (Export.head?_opening ⟨s.publicName (s.text name), .element⟩) rfl

theorem instanceText_not_opens (convert : Conversion) (id : NodeId) (depth : Nat)
    (h : i.isRoot → i.boundName = none) :
    ¬ Opens "export" (s.instanceText convert id i depth) := by
  obtain ⟨rest, hrest⟩ := s.instanceText_eq convert id i depth
  have hnone : (if i.isRoot then
      i.boundName.elim "" fun name => "export let " ++ s.publicName (s.text name) ++ " = "
    else "") = "" := by
    split
    · next hr => rw [h hr]; rfl
    · rfl
  rw [hrest, hnone, Text.opens_blank_append rfl,
    Text.opens_blank_append (s.isBlankText_indent depth)]
  exact Text.not_opens_append rfl rfl rfl (by decide)

theorem convert_declaration (hk : s.ast.kind? id = some (.declaration d)) :
    s.convert id depth =
      [⟨s.ast.span id, s.classText (s.convertWithin s.ast.size) id d depth⟩] := by
  rw [convert, convertWithin, convertNode, replacement?, hk]

theorem convert_instance (hk : s.ast.kind? id = some (.instance_ i)) :
    s.convert id depth =
      [⟨s.ast.span id, s.instanceText (s.convertWithin s.ast.size) id i depth⟩] := by
  rw [convert, convertWithin, convertNode, replacement?, hk]

end ScriptInput

namespace Ast

variable {ast : Ast} {id : NodeId} {d : DeclarationData} {i : InstanceData}

theorem isEmitted_declaration (hk : ast.kind? id = some (.declaration d)) :
    ast.isEmitted id ↔ ast.parent? id = some rootId := by
  simp [isEmitted, isExported, isKind, hk, NodeKind.isDeclaration, NodeKind.isRoot,
    NodeKind.isUnbound]

theorem isEmitted_instance (hk : ast.kind? id = some (.instance_ i)) :
    ast.isEmitted id ↔ i.isRoot ∧ i.boundName.isSome := by
  simp [isEmitted, isExported, isKind, hk, NodeKind.isDeclaration, NodeKind.isRoot,
    NodeKind.isUnbound, Option.isSome_iff_ne_none]

end Ast

namespace SourceUnit

variable {u : SourceUnit} {id : NodeId}

theorem exported?_declaration {d : DeclarationData} (hk : u.ast.kind? id = some (.declaration d)) :
    u.exported? id = d.name.map fun name => (name, .component) := by
  rw [exported?, hk]

theorem exported?_instance {i : InstanceData} (hk : u.ast.kind? id = some (.instance_ i)) :
    u.exported? id = i.boundName.map fun name => (name, .element) := by
  rw [exported?, hk]

/-- A name that is written in the source is listed as it is written in the script. -/
theorem export?_eq {name : NodeId} {kind : ExportKind} (h : u.exported? id = some (name, kind)) :
    u.export? id = if u.scriptInput.publicName (u.ast.slice name u.source) = "" then none
      else some ⟨u.scriptInput.publicName (u.ast.slice name u.source), kind⟩ := by
  rw [export?, h]
  rfl

structure Emits (u : SourceUnit) (id : NodeId) (text : String) : Prop where
  opens : Text.Opens "export" text ↔ u.ast.isEmitted id
  name : u.ast.isEmitted id → ∃ e : Export, Text.Opens e.opening text ∧
    u.export? id = if e.name = "" then none else some e
  unnamed : u.ast.isExported id → ¬ u.ast.isEmitted id → u.export? id = none

theorem emits_declaration {d : DeclarationData} (hk : u.ast.kind? id = some (.declaration d))
    (convert : Conversion) (depth : Nat) :
    u.Emits id (u.scriptInput.classText convert id d depth) := by
  have hiff := Ast.isEmitted_declaration hk
  have hopens (h : u.ast.isEmitted id) :=
    u.scriptInput.classText_opens convert d depth (hiff.mp h)
  refine ⟨⟨fun h => ?_, fun h => Export.opens_export (hopens h)⟩, fun h => ⟨_, hopens h, ?_⟩,
    fun h hn => ?_⟩
  · apply Decidable.byContradiction
    intro hn
    exact u.scriptInput.classText_not_opens convert d depth (mt hiff.mpr hn) h
  · have hname := exported?_declaration hk
    cases hd : d.name with
    | none =>
      rw [export?, hname, hd]
      rfl
    | some name => exact export?_eq (by rw [hname, hd]; rfl)
  · refine absurd (Bool.and_eq_true_iff.mpr ⟨h, ?_⟩) hn
    rw [Ast.isKind, hk]
    rfl

theorem emits_instance {i : InstanceData} (hk : u.ast.kind? id = some (.instance_ i))
    (convert : Conversion) (depth : Nat) :
    u.Emits id (u.scriptInput.instanceText convert id i depth) := by
  have hiff := Ast.isEmitted_instance hk
  have hname := exported?_instance hk
  cases hb : i.boundName with
  | none =>
    have hn : ¬ u.ast.isEmitted id := by simp [hiff, hb]
    have hno := u.scriptInput.instanceText_not_opens convert id depth fun _ => hb
    refine ⟨⟨fun h => absurd h hno, fun h => absurd h hn⟩, fun h => absurd h hn, fun _ _ => ?_⟩
    rw [export?, hname, hb]
    rfl
  | some name =>
    have hroot : u.ast.isEmitted id ↔ i.isRoot := by simp [hiff, hb]
    have hopens (h : u.ast.isEmitted id) :=
      u.scriptInput.instanceText_opens convert id depth (hroot.mp h) hb
    refine ⟨⟨fun h => ?_, fun h => Export.opens_export (hopens h)⟩, fun h => ⟨_, hopens h, ?_⟩,
      fun h hn => ?_⟩
    · apply Decidable.byContradiction
      intro hn
      exact u.scriptInput.instanceText_not_opens convert id depth
        (fun hr => absurd (hroot.mpr hr) hn) h
    · exact export?_eq (by rw [hname, hb]; rfl)
    · refine absurd (Bool.and_eq_true_iff.mpr ⟨h, ?_⟩) hn
      rw [Ast.isKind, hk]
      simp [NodeKind.isUnbound, hb]

/-- A unit lists the declarations under its root and its root instances, each once and in the order
of their ids. The texts of just these nodes open with `export`, those of instances without a name
aside, and each is exported under the name that the unit lists for it, unless this is empty. -/
theorem exports_match_script {cst : Cst.Table} (ha : cst.Acyclic) (he : cst.ErrorFree)
    (name source : String) (config : Config) :
    ∃ root u, cst.tree? = some root ∧ build name source root config = .ok u ∧
      u.ast.exports = (List.range u.ast.size).filter u.ast.isExported ∧
      u.exports = u.ast.exports.filterMap u.export? ∧
      ∀ paths table id depth,
        u.ast.isKind id NodeKind.isDeclaration ∨ u.ast.isKind id NodeKind.isInstance →
        ∃ text, (u.withImports paths table).scriptInput.convert id depth =
            [⟨u.ast.span id, text⟩] ∧
          (Text.Opens "export" text ↔ u.ast.isEmitted id) ∧
          (u.ast.isEmitted id → ∃ e : Export, Text.Opens e.opening text ∧
            u.export? id = if e.name = "" then none else some e) ∧
          (u.ast.isExported id → ¬ u.ast.isEmitted id → u.export? id = none) := by
  obtain ⟨root, ast, ht, hb⟩ := Ast.build_ok ha he name
  refine ⟨root, ofAst name source ast config, ht, build_eq_ofAst hb source config,
    Ast.build_listed hb, rfl, fun paths table id depth h => ?_⟩
  let v := (ofAst name source ast config).withImports paths table
  rcases h with h | h
  · obtain ⟨k, hk, hd⟩ := Ast.isKind_iff.mp h
    cases k with
    | declaration d =>
      have hemits := emits_declaration (u := v) hk (v.scriptInput.convertWithin ast.size) depth
      exact ⟨_, ScriptInput.convert_declaration hk, hemits.opens, hemits.name, hemits.unnamed⟩
    | _ => cases hd
  · obtain ⟨k, hk, hi⟩ := Ast.isKind_iff.mp h
    cases k with
    | instance_ i =>
      have hemits := emits_instance (u := v) hk (v.scriptInput.convertWithin ast.size) depth
      exact ⟨_, ScriptInput.convert_instance hk, hemits.opens, hemits.name, hemits.unnamed⟩
    | _ => cases hi

def gallerySource : String := "component default { X { } }\ninstance w Y"

def gallery : Cst.Table where
  entries := #[
    { head := { kind := "identifier", span := ⟨10, 17⟩ } },
    { head := { kind := "identifier", span := ⟨20, 21⟩ } },
    { head := { kind := "component_body", span := ⟨22, 25⟩ } },
    { head := { kind := "new_component_expression", span := ⟨20, 25⟩ }, children := [1, 2] },
    { head := { kind := "component_body", span := ⟨18, 27⟩ }, children := [3] },
    { head := { kind := "component_declaration", span := ⟨0, 27⟩ }, children := [0, 4] },
    { head := { kind := "instance", span := ⟨28, 36⟩, named := false } },
    { head := { kind := "identifier", span := ⟨37, 38⟩ } },
    { head := { kind := "component_instance", span := ⟨28, 38⟩ }, children := [6, 7] },
    { head := { kind := "identifier", span := ⟨39, 40⟩ } },
    { head := { kind := "new_component_expression", span := ⟨28, 40⟩ }, children := [8, 9] },
    { head := { kind := "expression_statement", span := ⟨28, 40⟩ }, children := [10] },
    { head := { kind := "program", span := ⟨0, 40⟩ }, children := [5, 11] }]
  root := 12

theorem gallery_exports : gallery.Acyclic ∧ gallery.ErrorFree ∧
    ∃ root u, gallery.tree? = some root ∧ build "Gallery" gallerySource root {} = .ok u ∧
      u.ast.exports = [1, 8] ∧
      u.exports = [⟨"Gallery", .component⟩, ⟨"w", .element⟩] ∧
      (∃ text, u.scriptInput.convert 1 0 = [⟨u.ast.span 1, text⟩] ∧
        Text.Opens "export class Gallery extends " text) ∧
      ∃ text, u.scriptInput.convert 4 0 = [⟨u.ast.span 4, text⟩] ∧ ¬ Text.Opens "export" text := by
  have hacyclic : gallery.Acyclic := Cst.Table.acyclic_of_children_lt (by decide)
  have hfree : gallery.ErrorFree := Cst.Table.errorFree_of_entries (by decide)
  have hfacts : gallery.tree?.any fun root =>
      (build "Gallery" gallerySource root {}).toOption.any fun u => u.ast.exports == [1, 8] && u.exports == [⟨"Gallery", .component⟩, ⟨"w", .element⟩] &&
        u.ast.isKind 1 NodeKind.isDeclaration && u.ast.isKind 4 NodeKind.isInstance &&
        u.ast.isEmitted 1 && !u.ast.isEmitted 4 &&
        u.export? 1 == some ⟨"Gallery", .component⟩ := by
    decide +kernel
  obtain ⟨root, u, ht, hu, -, -, h⟩ :=
    exports_match_script hacyclic hfree "Gallery" gallerySource {}
  rw [ht, Option.any_some, hu] at hfacts
  simp only [Except.toOption, Option.any_some, Bool.and_eq_true, beq_iff_eq,
    Bool.not_eq_true'] at hfacts
  obtain ⟨⟨⟨⟨⟨⟨hnodes, hlist⟩, hd⟩, hi⟩, hemitted⟩, hinner⟩, hname⟩ := hfacts
  refine ⟨hacyclic, hfree, root, u, ht, hu, hnodes, hlist, ?_, ?_⟩
  · obtain ⟨text, htext, -, hopens, -⟩ := h u.importPaths u.importTypes 1 0 (.inl hd)
    obtain ⟨e, he, hlisted⟩ := hopens hemitted
    rw [hname] at hlisted
    split at hlisted
    · cases hlisted
    · obtain rfl := Option.some.inj hlisted
      exact ⟨text, htext, he⟩
  · obtain ⟨text, htext, hopens, -⟩ := h u.importPaths u.importTypes 4 0 (.inr hi)
    exact ⟨text, htext, fun ho => by simp [hopens.mp ho] at hinner⟩

end SourceUnit

end ComponentCompiler
