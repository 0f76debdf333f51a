import ComponentCompiler.Proofs.Ast.Naming
import ComponentCompiler.Proofs.Ast.Visibility
import ComponentCompiler.Proofs.ImportTypes.Table

namespace ComponentCompiler

namespace ImportTypes

variable {t : ImportTypes} {q q' n n' : String}

theorem group_put {entry : ImportType} : (t.put q n entry).group q' =
    if q' = q then (t.group q).insert n entry else t.group q' := by
  unfold put group
  rw [Dictionary.get?_insert]
  split <;> rfl

theorem get?_put {entry : ImportType} : (t.put q n entry).get? q' n' =
    if q' = q ∧ n' = n then some entry else t.get? q' n' := by
  unfold get?
  rw [group_put]
  by_cases hq : q' = q
  · subst hq
    rw [if_pos rfl, Dictionary.get?_insert]
    by_cases hn : n' = n <;> simp [hn]
  · simp [hq]

theorem isSome_get?_add :
    ((t.add q n).get? q' n').isSome ↔ (t.get? q' n').isSome ∨ q' = q ∧ n' = n := by
  unfold add
  split
  · next e he =>
    refine ⟨.inl, fun h => h.elim id ?_⟩
    rintro ⟨rfl, rfl⟩
    exact Option.isSome_of_eq_some he
  · rw [get?_put]
    split
    · next h => simp [h]
    · next h => simp [h]

theorem isSome_get?_addAll (needed : List (String × String)) :
    ((needed.foldl (fun t needed => t.add needed.1 needed.2) t).get? q' n').isSome ↔
      (t.get? q' n').isSome ∨ (q', n') ∈ needed := by
  induction needed generalizing t with
  | nil => simp
  | cons pair rest ih =>
    rw [List.foldl_cons, ih, isSome_get?_add, List.mem_cons, or_assoc, Prod.ext_iff]

end ImportTypes

theorem NodeKind.bearsScope_of_exported (k : NodeKind) (h : k.isDeclaration ∨ k.isInstance) :
    k.bearsScope := by
  cases k with
  | declaration d | instance_ i => rfl
  | _ => simp [isDeclaration, isInstance] at h

namespace Ast

open Cst (Tree)
open Relation

variable {ast : Ast} {o p x y : NodeId} {source name qualifier : String} {config : ScopeConfig}

def Free (ast : Ast) (source : String) (x : NodeId) : Prop :=
  ∀ o, ReflTransGen ast.Up x o → ∀ d ∈ ast.declared o, ast.slice d source ≠ ast.slice x source

theorem isDeclared_eq_false (hl : ast.Linked) :
    ast.isDeclared source config (ast.slice x source) x = false ↔
      ast.slice x source ∉ config.builtinNames ∧ ast.Free source x := by
  rw [← Bool.not_eq_true, isDeclared_iff hl, not_or]
  simp only [Visible, Free, not_exists, not_and, ne_eq]

/-- `x` starts a base type, a member expression or the type of an instance, and `y` is the segment
behind it. -/
inductive Qualifies (ast : Ast) (x y : NodeId) : Prop
  | base {p : NodeId} {rest : List NodeId} (hk : ast.kind? p = some .heritage)
      (hc : ast.children p = x :: y :: rest)
  | member {p : NodeId} {rest : List NodeId} (hk : ast.kind? p = some .member)
      (hc : ast.children p = x :: y :: rest) (hx : ast.kind? x = some .identifier)
  | type {p : NodeId} {i : InstanceData} {rest : List NodeId}
      (hk : ast.kind? p = some (.instance_ i)) (hc : i.name = x :: y :: rest)

theorem secondOf?_eq_some {ids : List NodeId} :
    secondOf? x ids = some y ↔ ∃ rest, ids = x :: y :: rest := by
  unfold secondOf?
  split
  · next first second rest =>
    by_cases hf : first = x <;> simp [hf]
  · next hne =>
    refine iff_of_false nofun ?_
    rintro ⟨rest, rfl⟩
    exact hne _ _ _ rfl

def segments (children : List NodeId) : NodeKind → List NodeId
  | .heritage | .member => children
  | .instance_ i => i.name
  | _ => []

theorem qualifiedSymbol?_eq_some {k : NodeKind} (hu : ast.Up x p) (hk : ast.kind? p = some k) :
    ast.qualifiedSymbol? x = some y ↔ ∃ rest, segments (ast.children p) k = x :: y :: rest := by
  have hp : ast.parent? x = some p := hu
  have hsegments : ast.qualifiedSymbol? x = secondOf? x (segments (ast.children p) k) := by
    unfold qualifiedSymbol?
    simp only [hp, hk, Option.bind_eq_bind, Option.bind_some]
    cases k <;> rfl
  rw [hsegments, secondOf?_eq_some]

def IsAlias (ast : Ast) (source name : String) : Prop :=
  ∃ i d x, ast.kind? i = some (.importStatement d) ∧ d.localName = some x ∧
    ast.slice x source = name

theorem mem_importAliases (hl : ast.Linked) :
    name ∈ ast.importAliases source ↔ ast.IsAlias source name := by
  unfold importAliases
  rw [List.mem_filterMap]
  constructor
  · rintro ⟨i, -, h⟩
    split at h
    · next d hk =>
      obtain ⟨x, hx, hname⟩ := Option.map_eq_some_iff.mp h
      exact ⟨i, d, x, hk, hx, hname⟩
    · cases h
  · rintro ⟨i, d, x, hk, hx, hname⟩
    refine ⟨i, ?_, by simp [hk, hx, hname]⟩
    rw [hl.imports, List.mem_filter, List.mem_range]
    refine ⟨lt_size_of_kind? hk, ?_⟩
    rw [group, hk]
    rfl

/-- The qualifier and the name that the reference `u` stands for. -/
inductive Asks (ast : Ast) (source : String) (u : NodeId) : String → String → Prop
  | plain (h : ¬ ast.IsAlias source (ast.slice u source)) :
      Asks ast source u "" (ast.slice u source)
  | qualified {symbol : NodeId} (h : ast.IsAlias source (ast.slice u source))
      (hs : ast.Qualifies u symbol) :
      Asks ast source u (ast.slice u source) (ast.slice symbol source)

/-- A reference under an exported node asks for the symbol, and the unit has no such name. -/
def Needs (ast : Ast) (source : String) (config : ScopeConfig) (qualifier name : String) : Prop :=
  ∃ e ∈ ast.exports, ∃ s, ReflTransGen ast.Up s e ∧ ∃ u ∈ ast.used s,
    ast.slice u source ∉ config.builtinNames ∧ ast.Free source u ∧
      ast.Asks source u qualifier name

section

variable {root : Tree} {unitName : String} (hb : build root unitName = .ok ast)

include hb

/-- The references that start a type or a member expression are those that something is looked for
behind. -/
theorem qualifies_iff : ast.Qualifies x y ↔
    (∃ o, x ∈ ast.used o) ∧ ast.qualifiedSymbol? x = some y := by
  have hreg := build_registered hb
  have hlinked := build_linked hb
  constructor
  · intro h
    cases h with
    | @base p rest hk hc =>
      have hleader : ast.leader? p = some x := by
        rw [leader?, hk, hc]
        rfl
      obtain ⟨hu, hused⟩ := hreg.leader p x hleader
      exact ⟨hused, (qualifiedSymbol?_eq_some hu hk).mpr ⟨rest, hc⟩⟩
    | @member p rest hk hc hx =>
      have hu := (mem_children hlinked).mp (hc ▸ List.mem_cons_self)
      refine ⟨(build_usesReceiver hb hk x hu).mpr ⟨by rw [hc]; rfl, hx⟩, ?_⟩
      exact (qualifiedSymbol?_eq_some hu hk).mpr ⟨rest, hc⟩
    | @type p i rest hk hc =>
      have hleader : ast.leader? p = some x := by
        rw [leader?, hk]
        exact congrArg List.head? hc
      obtain ⟨hu, hused⟩ := hreg.leader p x hleader
      exact ⟨hused, (qualifiedSymbol?_eq_some hu hk).mpr ⟨rest, hc⟩⟩
  · rintro ⟨hused, hq⟩
    obtain ⟨p, hu, h⟩ := Option.bind_eq_some_iff.mp hq
    obtain ⟨k, hk, -⟩ := Option.bind_eq_some_iff.mp h
    obtain ⟨rest, hc⟩ := (qualifiedSymbol?_eq_some hu hk).mp hq
    cases k with
    | heritage => exact .base hk hc
    | member => exact .member hk hc ((build_usesReceiver hb hk x hu).mp hused).2
    | instance_ i => exact .type hk hc
    | _ => cases hc

theorem neededSymbol?_eq_some (hx : x ∈ ast.used o) :
    ast.neededSymbol? source (ast.importAliases source) x = some (qualifier, name) ↔
      ast.Asks source x qualifier name := by
  unfold neededSymbol?
  dsimp only
  split
  · next h =>
    rw [List.contains_iff_mem, mem_importAliases (build_linked hb)] at h
    constructor
    · intro hq
      obtain ⟨y, hy, he⟩ := Option.map_eq_some_iff.mp hq
      cases he
      exact .qualified h ((qualifies_iff hb).mpr ⟨⟨o, hx⟩, hy⟩)
    · intro ha
      cases ha with
      | plain hn => exact absurd h hn
      | qualified _ hs =>
        rw [((qualifies_iff hb).mp hs).2]
        rfl
  · next h =>
    rw [List.contains_iff_mem, mem_importAliases (build_linked hb)] at h
    constructor
    · intro hq
      cases hq
      exact .plain h
    · intro ha
      cases ha with
      | plain _ => rfl
      | qualified ha _ => exact absurd ha h

theorem isSome_get?_importTypes :
    ((ast.importTypes source config).get? qualifier name).isSome ↔
      ast.Needs source config qualifier name := by
  have hlinked := build_linked hb
  have hundeclared (s u : NodeId) : u ∈ ast.undeclared source config s ↔
      u ∈ ast.used s ∧ ast.slice u source ∉ config.builtinNames ∧ ast.Free source u := by
    rw [← isDeclared_eq_false hlinked, undeclared, List.mem_filter, Bool.not_eq_true']
    rfl
  have hempty : (({} : ImportTypes).get? qualifier name).isSome = false := rfl
  unfold importTypes
  rw [ImportTypes.isSome_get?_addAll, hempty]
  simp only [Bool.false_eq_true, false_or, List.mem_filterMap, externalReferences,
    List.mem_flatMap, hundeclared]
  constructor
  · rintro ⟨u, ⟨e, he, s, hs, hu, hfree⟩, hneeded⟩
    exact ⟨e, he, s, chain_of_mem_below hlinked hs, u, hu, hfree.1, hfree.2,
      (neededSymbol?_eq_some hb hu).mp hneeded⟩
  · rintro ⟨e, he, s, hs, u, hu, hbuiltin, hfree, hasks⟩
    refine ⟨u, ⟨e, he, s, ?_, hu, hbuiltin, hfree⟩, (neededSymbol?_eq_some hb hu).mpr hasks⟩
    obtain ⟨p, hup, hscope⟩ := (build_sound hb).used s u hu
    have hlt : s < ast.size := Nat.lt_of_le_of_lt (hlinked.chain_le (chain_of_scopeOwner? hscope))
      (Nat.lt_trans (hlinked.up_lt hup) (lt_size_of_up hup))
    exact (mem_descendants hlinked hlt).mpr hs

/-- Exported nodes have a scope, so what stands below them finds a scope there. -/
theorem below_export_iff (hx : x ∈ ast.used o) :
    (∃ e ∈ ast.exports, ReflTransGen ast.Up o e) ↔ ∃ e ∈ ast.exports, TransGen ast.Up x e := by
  have hsound := build_sound hb
  obtain ⟨p, hu, hscope⟩ := hsound.used o x hx
  refine exists_congr fun e => and_congr_right fun he => ⟨fun hc => ?_, fun hc => ?_⟩
  · exact .head' hu ((chain_of_scopeOwner? hscope).trans hc)
  · obtain ⟨q, hq, hc⟩ := TransGen.head'_iff.mp hc
    obtain rfl : p = q := Option.some.inj (hu.symm.trans hq)
    refine chain_of_scopeOwner?_of_chain hsound.linked hscope hc ?_
    have hkind : ∃ k, ast.kind? e = some k ∧ (k.isDeclaration ∨ k.isInstance) := by
      cases (build_registered hb).exports e he with
      | inl h =>
        obtain ⟨k, hk, hd⟩ := isKind_iff.mp h.1
        exact ⟨k, hk, .inl hd⟩
      | inr h =>
        obtain ⟨k, hk, hi⟩ := isKind_iff.mp h
        exact ⟨k, hk, .inr hi⟩
    obtain ⟨k, hk, hexported⟩ := hkind
    rw [hsound.scope, isKind, hk]
    exact k.bearsScope_of_exported hexported

end

end Ast

end ComponentCompiler
