import ComponentCompiler.Proofs.Ast.Members

namespace ComponentCompiler

namespace NodeKind

def bindings? : NodeKind → Option (List NodeId)
  | property p => some p.bindings
  | assignment a => some a.bindings
  | _ => none

def endsBinding : NodeKind → Bool
  | property _ | assignment _ | member | call _ | callable .function _ | callable .arrow _
  | classDeclaration => true
  | _ => false

theorem endsBinding_eq (k : NodeKind) : k.endsBinding = (k.stopsBinding || k.isProperty) := by
  cases k with
  | callable form _ => cases form <;> rfl
  | _ => rfl

theorem slot?_eq_bindings {k : NodeKind} {named : Bool} :
    k.slot? named = some .bindings ↔ k = .member ∧ named := by
  cases k with
  | callable form _ => cases form <;> simp [slot?, Callable.slot?]
  | instance_ i => cases h : i.id <;> cases hr : i.isRoot <;> simp [slot?, h, hr]
  | member => cases named <;> simp [slot?]
  | _ => simp [slot?]

end NodeKind

namespace Ast

open Relation

variable {ast : Ast} {f m m' p p' x : NodeId} {bs bs' : List NodeId} {log : List Entry}

def bindings? (ast : Ast) (p : NodeId) : Option (List NodeId) :=
  (ast.kind? p).bind NodeKind.bindings?

def NamedMember (ast : Ast) (m : NodeId) : Prop :=
  ast.kind? m = some .member ∧ ∃ r, (ast.children m).head? = some r ∧
    (ast.kind? r = some .identifier ∨ ast.kind? r = some .member)

/-- The way up from `x` does not end before `p`. -/
def ClearPath (ast : Ast) (x p : NodeId) : Prop :=
  ∀ q, TransGen ast.Up x q → TransGen ast.Up q p → ¬ ast.isKind q NodeKind.endsBinding

/-- The way up from the member expression `m` ends at `p`. -/
def Feeds (ast : Ast) (m p : NodeId) : Prop :=
  ast.NamedMember m ∧ TransGen ast.Up m p ∧ ast.isKind p NodeKind.endsBinding ∧ ast.ClearPath m p

structure BindingsListed (ast : Ast) : Prop where
  /-- A property has the member expressions whose way up ends at it, once and in order. -/
  bindings : ∀ p bs, ast.bindings? p = some bs →
    bs.Pairwise (· < ·) ∧ ∀ m, m ∈ bs ↔ ast.Feeds m p
  unique : ∀ m p bs p' bs', ast.bindings? p = some bs → ast.bindings? p' = some bs' →
    m ∈ bs → m ∈ bs' → p = p'
  /-- Bindings of one property do not stand below each other. -/
  apart : ∀ p bs, ast.bindings? p = some bs → ∀ m ∈ bs, ∀ m' ∈ bs, ¬ TransGen ast.Up m m'
  /-- A binding below one of another property has its own property below it too. -/
  inside : ∀ m p bs m' p' bs', ast.bindings? p = some bs → ast.bindings? p' = some bs' →
    m ∈ bs → m' ∈ bs' → TransGen ast.Up m m' → TransGen ast.Up p m'

theorem entries_of_bindings? (h : ast.bindings? p = some bs) : ast.entries .bindings p = bs := by
  obtain ⟨k, hk, hb⟩ := Option.bind_eq_some_iff.mp h
  rw [entries, hk]
  cases k <;> cases hb <;> rfl

theorem isProperty_of_bindings? (h : ast.bindings? p = some bs) :
    ast.isKind p NodeKind.isProperty := by
  obtain ⟨k, hk, hb⟩ := Option.bind_eq_some_iff.mp h
  refine isKind_iff.mpr ⟨k, hk, ?_⟩
  cases k <;> cases hb <;> rfl

theorem endsBinding_of_isProperty (h : ast.isKind p NodeKind.isProperty) :
    ast.isKind p NodeKind.endsBinding := by
  obtain ⟨k, hk, hp⟩ := isKind_iff.mp h
  refine isKind_iff.mpr ⟨k, hk, ?_⟩
  rw [k.endsBinding_eq, hp, Bool.or_true]

theorem NamedMember.endsBinding (h : ast.NamedMember m) : ast.isKind m NodeKind.endsBinding :=
  isKind_iff.mpr ⟨_, h.1, rfl⟩

theorem nearestAncestor?_eq_some (hl : ast.Linked) {q : NodeKind → Bool} :
    ast.nearestAncestor? x q = some p ↔ TransGen ast.Up x p ∧ ast.isKind p q ∧
      ∀ r, TransGen ast.Up x r → TransGen ast.Up r p → ¬ ast.isKind r q := by
  rw [nearestAncestor?, List.find?_eq_findSome?_guard, findSome?_ancestors hl]
  simp only [Option.guard_eq_some_iff, Option.guard_eq_none_iff]
  constructor
  · rintro ⟨_, hup, ⟨rfl, hq⟩, hno⟩
    exact ⟨hup, hq, fun r hxr hrp => Bool.eq_false_iff.mp (hno r hxr hrp)⟩
  · rintro ⟨hup, hq, hno⟩
    exact ⟨p, hup, ⟨rfl, hq⟩, fun r hxr hrp => Bool.eq_false_iff.mpr (hno r hxr hrp)⟩

theorem fedProperty?_eq_some (hl : ast.Linked) : ast.fedProperty? x = some p ↔
    TransGen ast.Up x p ∧ ast.isKind p NodeKind.endsBinding ∧ ast.ClearPath x p := by
  have hkinds : (fun k : NodeKind => k.stopsBinding || k.isProperty) = NodeKind.endsBinding := by
    funext k
    exact k.endsBinding_eq.symm
  rw [fedProperty?, hkinds, nearestAncestor?_eq_some hl]
  rfl

theorem startsNamed_iff : ast.startsNamed m ↔ ∃ r, (ast.children m).head? = some r ∧
    (ast.kind? r = some .identifier ∨ ast.kind? r = some .member) := by
  rw [startsNamed, Option.any_eq_true]
  refine exists_congr fun r => and_congr_right fun _ => ?_
  rw [Bool.or_eq_true, isKind_beq, isKind_beq]

theorem slot?_eq_bindings : ast.slot? m = some .bindings ↔ ast.NamedMember m := by
  rw [slot?, Option.bind_eq_some_iff, NamedMember, ← startsNamed_iff]
  simp only [NodeKind.slot?_eq_bindings]
  constructor
  · rintro ⟨_, hk, rfl, hs⟩
    exact ⟨hk, hs⟩
  · rintro ⟨hk, hs⟩
    exact ⟨_, hk, rfl, hs⟩

theorem Logged.mem_bindings (h : ast.Logged log) (hl : ast.Linked)
    (hb : ast.bindings? p = some bs) : m ∈ bs ↔ ast.Feeds m p := by
  have hp := isProperty_of_bindings? hb
  rw [← entries_of_bindings? hb, h.mem_entries, slot?_eq_bindings, holder?,
    Option.filter_eq_some_iff, fedProperty?_eq_some hl, and_iff_left hp]
  rfl

/-- Between an expression and one below it that feeds a property, this property is to be found. -/
theorem Feeds.property_inside (h : ast.Feeds m p) (hm' : ast.NamedMember m')
    (hp : ast.isKind p NodeKind.isProperty) (hu : TransGen ast.Up m m') : TransGen ast.Up p m' := by
  obtain ⟨-, hmp, -, hclear⟩ := h
  have hne : p ≠ m' := by
    rintro rfl
    obtain ⟨k, hk, hprop⟩ := isKind_iff.mp hp
    cases hk.symm.trans hm'.1
    cases hprop
  rcases chain_total hmp.to_reflTransGen hu.to_reflTransGen with hc | hc
  · exact (reflTransGen_iff_eq_or_transGen.mp hc).resolve_left hne.symm
  · have hbetween := (reflTransGen_iff_eq_or_transGen.mp hc).resolve_left hne
    exact absurd hm'.endsBinding (hclear m' hu hbetween)

theorem Logged.bindingsListed (h : ast.Logged log) (hl : ast.Linked) : ast.BindingsListed := by
  have hinside : ∀ m p bs m' p' bs', ast.bindings? p = some bs → ast.bindings? p' = some bs' →
      m ∈ bs → m' ∈ bs' → TransGen ast.Up m m' → TransGen ast.Up p m' := by
    intro m p bs m' p' bs' hb hb' hm hm' hu
    rw [h.mem_bindings hl hb] at hm
    rw [h.mem_bindings hl hb'] at hm'
    exact hm.property_inside hm'.1 (isProperty_of_bindings? hb) hu
  have hapart : ∀ p bs, ast.bindings? p = some bs → ∀ m ∈ bs, ∀ m' ∈ bs,
      ¬ TransGen ast.Up m m' := by
    -- the property would stand below the outer binding, which stands below the property
    intro p bs hb m hm m' hm' hu
    have hlt := hl.above_lt (hinside m p bs m' p bs hb hb hm hm' hu)
    obtain ⟨-, hm'p, -⟩ := (h.mem_bindings hl hb).mp hm'
    exact Nat.lt_asymm hlt (hl.above_lt hm'p)
  refine ⟨fun p bs hb => ⟨?_, fun m => h.mem_bindings hl hb⟩, ?_, hapart, hinside⟩
  · have hleft := h.pairwise .bindings p
    rw [entries_of_bindings? hb] at hleft
    refine hleft.imp_of_mem fun hm hm' hleft => ?_
    exact (hleft.resolve_left (hapart p bs hb _ hm _ hm')).1
  · intro m p bs p' bs' hb hb' hm hm'
    obtain ⟨-, hfed⟩ := (h.mem_bindings hl hb).mp hm
    obtain ⟨-, hfed'⟩ := (h.mem_bindings hl hb').mp hm'
    rw [← fedProperty?_eq_some hl] at hfed hfed'
    exact Option.some.inj (hfed.symm.trans hfed')

/-- Every tree without error nodes is built, with all bindings at their properties. -/
theorem build_bindingsListed {cst : Cst.Table} (ha : cst.Acyclic) (he : cst.ErrorFree)
    (name : String) : ∃ root ast, cst.tree? = some root ∧ build root name = .ok ast ∧
      ast.BindingsListed := by
  obtain ⟨root, ast, ht, hb⟩ := build_ok ha he name
  obtain ⟨log, h⟩ := build_logged hb
  exact ⟨root, ast, ht, hb, h.bindingsListed (build_linked hb)⟩

section

open Cst (Sketch)

def propertySketch (text : String) : Sketch :=
  .leaf "property_identifier" text true

def memberSketch (receiver : Sketch) (name : String) : Sketch :=
  .node "member_expression" [receiver, .token ".", propertySketch name]

def valueSketch (name : String) (value : Sketch) : Sketch :=
  .node "property_declaration" [wordSketch "T", propertySketch name, .token ":",
    .node "expression_statement" [value]]

/-- A property whose value reads a chain of members, and then a member of a member of a new
instance. A property of this instance has a binding of its own. -/
def chainedMembers : Cst.Table :=
  let chain := memberSketch (memberSketch (wordSketch "a") "b") "c"
  let inner := bodySketch [valueSketch "x" (memberSketch (wordSketch "d") "e")]
  let late := memberSketch (memberSketch (instanceSketch [wordSketch "B", inner]) "f") "g"
  let sketch := declarationSketch "A" [valueSketch "w"
    (.node "binary_expression" [chain, .token "+", late])]
  (sketch.layout
    "component A \x7b T w: a.b.c + B \x7b T x: d.e \x7d.f.g \x7d").toOption.getD {}

theorem chainedMembers_acyclic : chainedMembers.Acyclic :=
  Cst.Table.acyclic_of_children_lt (by decide +kernel)

theorem chainedMembers_errorFree : chainedMembers.ErrorFree :=
  Cst.Table.errorFree_of_entries (by decide +kernel)

theorem chainedMembers_bindingsListed : chainedMembers.Acyclic ∧ chainedMembers.ErrorFree ∧
    ∃ root ast, chainedMembers.tree? = some root ∧ build root "App" = .ok ast ∧
      ast.BindingsListed ∧ ast.bindings? 4 = some [8, 13] ∧ ast.bindings? 18 = some [22] := by
  obtain ⟨root, ast, ht, hb, h⟩ :=
    build_bindingsListed chainedMembers_acyclic chainedMembers_errorFree "App"
  refine ⟨chainedMembers_acyclic, chainedMembers_errorFree, root, ast, ht, hb, h, ?_⟩
  apply of_build_of_decide ht hb
  decide +kernel

end

/-- What the property reads, it reads along with its value and not later, when a function runs. -/
def BoundAtOnce (ast : Ast) (p : NodeId) (bs : List NodeId) : Prop :=
  ∀ m ∈ bs, ∀ f, TransGen ast.Up m f → TransGen ast.Up f p →
    ¬ ast.isKind f fun k => k.function?.isSome

structure FunctionBindings (ast : Ast) (p : NodeId) (bs : List NodeId) : Prop where
  /-- Of what stands inside a function, the property binds what it would bind without the function
  around, unless the function is a plain one or an arrow. -/
  passed : ∀ f form data, ast.kind? f = some (.callable form data) → TransGen ast.Up f p →
    ∀ m, TransGen ast.Up m f → (m ∈ bs ↔ form ≠ .function ∧ form ≠ .arrow ∧ ast.NamedMember m ∧
      ast.ClearPath m f ∧ ast.ClearPath f p)
  atOnce : ast.BoundAtOnce p bs ↔ ∀ f form data, ast.kind? f = some (.callable form data) →
    form ≠ .function → form ≠ .arrow → TransGen ast.Up f p → ast.ClearPath f p →
    ∀ m, ast.NamedMember m → TransGen ast.Up m f → ¬ ast.ClearPath m f

theorem clearPath_split (hmf : TransGen ast.Up m f) (hfp : TransGen ast.Up f p) :
    ast.ClearPath m p ↔
      ast.ClearPath m f ∧ ¬ ast.isKind f NodeKind.endsBinding ∧ ast.ClearPath f p := by
  constructor
  · intro h
    exact ⟨fun q hmq hqf => h q hmq (hqf.trans hfp), h f hmf hfp,
      fun q hfq hqp => h q (hmf.trans hfq) hqp⟩
  · rintro ⟨hbelow, hf, habove⟩ q hmq hqp
    by_cases he : q = f
    · exact he ▸ hf
    · rcases chain_total hmq.to_reflTransGen hmf.to_reflTransGen with hc | hc
      · exact hbelow q hmq ((reflTransGen_iff_eq_or_transGen.mp hc).resolve_left (Ne.symm he))
      · exact habove q ((reflTransGen_iff_eq_or_transGen.mp hc).resolve_left he) hqp

theorem isKind_callable_endsBinding {form : Callable} {data : FunctionData}
    (h : ast.kind? f = some (.callable form data)) :
    ¬ ast.isKind f NodeKind.endsBinding ↔ form ≠ .function ∧ form ≠ .arrow := by
  rw [isKind, h]
  cases form <;> simp [NodeKind.endsBinding]

theorem BindingsListed.functionBindings (h : ast.BindingsListed)
    (hb : ast.bindings? p = some bs) : ast.FunctionBindings p bs := by
  have hends := endsBinding_of_isProperty (isProperty_of_bindings? hb)
  have hpassed : ∀ f form data, ast.kind? f = some (.callable form data) →
      TransGen ast.Up f p → ∀ m, TransGen ast.Up m f → (m ∈ bs ↔ form ≠ .function ∧
        form ≠ .arrow ∧ ast.NamedMember m ∧ ast.ClearPath m f ∧ ast.ClearPath f p) := by
    intro f form data hf hfp m hmf
    rw [(h.bindings p bs hb).2 m, Feeds, clearPath_split hmf hfp, isKind_callable_endsBinding hf]
    have hmp := hmf.trans hfp
    tauto
  refine ⟨hpassed, fun honce f form data hf hfun harrow hfp hclear m hm hmf hmclear => ?_, ?_⟩
  · have hmem := (hpassed f form data hf hfp m hmf).mpr ⟨hfun, harrow, hm, hmclear, hclear⟩
    exact honce m hmem f hmf hfp (isKind_iff.mpr ⟨_, hf, rfl⟩)
  · intro hno m hmem f hmf hfp hf
    obtain ⟨k, hk, hfunction⟩ := isKind_iff.mp hf
    cases k with
    | callable form data =>
      obtain ⟨hfun, harrow, hm, hmclear, hclear⟩ := (hpassed f form data hk hfp m hmf).mp hmem
      exact hno f form data hk hfun harrow hfp hclear m hm hmf hmclear
    | _ => cases hfunction

/-- In every tree that is built, functions which are members of a component let bindings pass. -/
theorem build_functionBindings {cst : Cst.Table} (ha : cst.Acyclic) (he : cst.ErrorFree)
    (name : String) : ∃ root ast, cst.tree? = some root ∧ build root name = .ok ast ∧
      ∀ p bs, ast.bindings? p = some bs → ast.FunctionBindings p bs := by
  obtain ⟨root, ast, ht, hb⟩ := build_ok ha he name
  obtain ⟨log, h⟩ := build_logged hb
  exact ⟨root, ast, ht, hb, fun p bs hp => (h.bindingsListed (build_linked hb)).functionBindings hp⟩

section

open Cst (Sketch)

def listenerRead : Cst.Table :=
  let body := Sketch.node "statement_block" [.token "\x7b",
    .node "expression_statement" [memberSketch (wordSketch "a") "b"], .token "\x7d"]
  let listener := Sketch.node "listener_declaration" [.token "on", wordSketch "ready",
    .node "formal_parameters" [.token "(", .token ")"], body]
  let sketch := declarationSketch "A"
    [valueSketch "x" (instanceSketch [wordSketch "C", bodySketch [listener]])]
  (sketch.layout
    "component A \x7b T x: C \x7b on ready() \x7b a.b \x7d \x7d \x7d").toOption.getD {}

theorem listenerRead_acyclic : listenerRead.Acyclic :=
  Cst.Table.acyclic_of_children_lt (by decide +kernel)

theorem listenerRead_errorFree : listenerRead.ErrorFree :=
  Cst.Table.errorFree_of_entries (by decide +kernel)

theorem listenerRead_built {root : Cst.Tree} {ast : Ast} (ht : listenerRead.tree? = some root)
    (hb : build root "App" = .ok ast) :
    ast.bindings? 4 = some [16] ∧ ast.isKind 11 (fun k => k.function?.isSome) ∧
      TransGen ast.Up 16 11 ∧ TransGen ast.Up 11 4 := by
  simp only [← mem_ancestors (build_linked hb)]
  apply of_build_of_decide ht hb
  decide +kernel

theorem listenerRead_functionBindings : listenerRead.Acyclic ∧ listenerRead.ErrorFree ∧
    ∃ root ast, listenerRead.tree? = some root ∧ build root "App" = .ok ast ∧
      ast.bindings? 4 = some [16] ∧ ast.FunctionBindings 4 [16] := by
  obtain ⟨root, ast, ht, hb, h⟩ :=
    build_functionBindings listenerRead_acyclic listenerRead_errorFree "App"
  have hlist := (listenerRead_built ht hb).1
  exact ⟨listenerRead_acyclic, listenerRead_errorFree, root, ast, ht, hb, hlist, h 4 [16] hlist⟩

/-- The property binds what the listener reads. -/
theorem listenerRead_not_boundAtOnce : ∃ root ast, listenerRead.tree? = some root ∧
    build root "App" = .ok ast ∧ ast.bindings? 4 = some [16] ∧ ¬ ast.BoundAtOnce 4 [16] := by
  obtain ⟨root, ast, ht, hb⟩ := build_ok listenerRead_acyclic listenerRead_errorFree "App"
  obtain ⟨hlist, hfunction, hmf, hfp⟩ := listenerRead_built ht hb
  refine ⟨root, ast, ht, hb, hlist, fun honce => ?_⟩
  exact honce 16 (List.mem_singleton_self 16) 11 hmf hfp hfunction

end

end Ast

end ComponentCompiler
