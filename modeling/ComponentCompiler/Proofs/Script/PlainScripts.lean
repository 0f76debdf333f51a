import ComponentCompiler.Proofs.Ast.Naming
import ComponentCompiler.Proofs.Script.Edits

namespace ComponentCompiler

open Cst (Kind)

def Cst.Kind.isScript : Kind → Bool
  | .error | .importStatement | .componentDeclaration | .newComponent | .newTagged => false
  | _ => true

/-- No error, no import statement and no component is reached. -/
def Cst.Table.PlainScript (t : Cst.Table) : Prop :=
  ∀ i e, t.Reached i e → (Kind.ofName e.head.kind).isScript

theorem Cst.Kind.group_of_isScript {k : Kind} (h : k.isScript) :
    k.group = .other ∨ k.group = .variables := by
  cases k <;> simp_all [isScript, group]

theorem Cst.Table.PlainScript.errorFree {t : Cst.Table} (h : t.PlainScript) : t.ErrorFree := by
  intro i e hr herror
  have hk := h i e hr
  rw [herror] at hk
  cases hk

namespace Ast

variable {ast : Ast} {id : NodeId}

def AllPlain (ast : Ast) : Prop :=
  ∀ id, ast.group id = .other ∨ ast.group id = .variables

theorem build_allPlain {root : Cst.Tree} {name : String} (hroot : root.All fun k => k.isScript)
    (h : build root name = .ok ast) : ast.AllPlain := by
  intro id
  have hg : Grows (BuiltFor fun k => k.isScript) (ofSpan root.span) ast :=
    eq_of_build h ▸ visitAll_builds .plain root.slots hroot.slots Nat.one_pos
  rcases hg.group_cases id with hold | ⟨kind, hplain | ⟨k, hk, hgroup⟩, hnew⟩
  · left
    rw [hold]
    cases id <;> rfl
  · exact .inl (hnew.trans hplain)
  · rw [hnew, hgroup]
    exact k.group_of_isScript hk

namespace AllPlain

variable (h : ast.AllPlain)

include h

theorem group_ne (id : NodeId) : ast.group id ≠ .importStatement ∧
    ast.group id ≠ .declaration ∧ ast.group id ≠ .componentUse := by
  rcases h id with hid | hid <;> simp [hid]

theorem importNodes_eq : ast.importNodes = [] := by
  apply List.filter_eq_nil_iff.mpr
  intro id _
  simpa using (h.group_ne id).1

theorem not_isReplaced (id : NodeId) : ast.isReplaced id = false := by
  have huses : ast.holdsUse id = false := by
    apply List.any_eq_false.mpr
    intro d _
    simpa using fun _ => (h.group_ne d).2.2
  unfold isReplaced
  rcases h id with hid | hid
  · rw [hid]
  · rw [hid]
    exact huses

theorem tops_eq (hl : ast.Linked) (levels : Nat) (id : NodeId) : ast.tops levels id = [] := by
  apply List.eq_nil_iff_forall_not_mem.mpr
  intro x hx
  simpa [h.not_isReplaced x] using (tops_spec hl hx).1

theorem exports_eq (hr : ast.Registered) : ast.exports = [] := by
  apply List.eq_nil_iff_forall_not_mem.mpr
  intro e he
  rcases hr.exports e he with ⟨hd, -⟩ | hi
  · obtain ⟨k, hk, hd⟩ := isKind_iff.mp hd
    apply (h.group_ne e).2.1
    cases k <;> cases hd
    rw [group, hk]
    rfl
  · obtain ⟨k, hk, hi⟩ := isKind_iff.mp hi
    apply (h.group_ne e).2.2
    cases k <;> cases hi
    rw [group, hk]
    rfl

theorem importTypes_eq (hr : ast.Registered) (source : String) (config : ScopeConfig) :
    ast.importTypes source config = {} := by
  unfold importTypes externalReferences
  rw [h.exports_eq hr]
  rfl

end AllPlain

end Ast

theorem ScriptInput.edits_eq_nil {s : ScriptInput} (h : s.ast.AllPlain) (hl : s.ast.Linked)
    (ht : s.importTypes = some {}) : s.edits = [] := by
  have hheader : s.header? = none := by
    unfold header?
    rw [ht]
    rfl
  have himports : s.importEdits = [] := by
    apply List.map_eq_nil_iff.mp
    rw [importEdits_spans hl, h.importNodes_eq]
    rfl
  have hconvert : s.convert Ast.rootId 0 = [] := by
    apply List.map_eq_nil_iff.mp
    rw [convert, convertWithin_spans hl, h.tops_eq hl]
    rfl
  unfold edits
  rw [hheader, himports, hconvert]
  exact Edit.sort_of_pairwise .nil

/-- A script without imports and components compiles to itself. -/
theorem compile_plainScript {cst : Cst.Table} (ha : cst.Acyclic) (h : cst.PlainScript)
    (name source : String) (config : Config) :
    ∃ root, cst.tree? = some root ∧ compile name source root config = .ok source := by
  obtain ⟨root, ast, ht, hb⟩ := Ast.build_ok ha h.errorFree name
  have hplain := Ast.build_allPlain (Cst.Table.tree?_all ht h rfl) hb
  have hnone := hplain.importTypes_eq (Ast.build_registered hb) source config.scope
  have hedits : (SourceUnit.ofAst name source ast config).scriptInput.edits = [] :=
    ScriptInput.edits_eq_nil hplain (Ast.build_linked hb) (congrArg some hnone)
  refine ⟨root, ht, ?_⟩
  calc compile name source root config
      = Edit.apply source (SourceUnit.ofAst name source ast config).scriptInput.edits := by
        rw [compile, SourceUnit.build_eq_ofAst hb]
        rfl
    _ = .ok source := by rw [hedits, Edit.apply_nil]

/-- A declaration of a function whose name lies outside the source and whose body ends before it
starts. -/
def twistedScript : Cst.Table where
  entries := #[
    { head := { kind := "let", span := ⟨0, 3⟩ } },
    { head := { kind := "identifier", span := ⟨40, 41⟩ } },
    { head := { kind := "=", span := ⟨6, 7⟩ } },
    { head := { kind := "identifier", span := ⟨8, 9⟩ } },
    { head := { kind := "=>", span := ⟨10, 12⟩ } },
    { head := { kind := "property_identifier", span := ⟨15, 16⟩ } },
    { head := { kind := "member_expression", span := ⟨16, 13⟩ }, children := [3, 5] },
    { head := { kind := "arrow_function", span := ⟨8, 16⟩ }, children := [3, 4, 6] },
    { head := { kind := "variable_declarator", span := ⟨4, 16⟩ }, children := [1, 2, 7] },
    { head := { kind := "lexical_declaration", span := ⟨0, 16⟩ }, children := [0, 8] },
    { head := { kind := "program", span := ⟨0, 16⟩ }, children := [9] }]
  root := 10

theorem compile_twistedScript : twistedScript.Acyclic ∧ twistedScript.PlainScript ∧
    ∃ root, twistedScript.tree? = some root ∧
      compile "App" "let f = x => x.y" root {} = .ok "let f = x => x.y" := by
  have ha : twistedScript.Acyclic := Cst.Table.acyclic_of_children_lt (by decide)
  have hentries : ∀ e ∈ twistedScript.entries, (Kind.ofName e.head.kind).isScript := by decide
  have h : twistedScript.PlainScript := fun _ e hr => hentries e (Array.mem_of_getElem? hr.entry)
  exact ⟨ha, h, compile_plainScript ha h _ _ _⟩

end ComponentCompiler
