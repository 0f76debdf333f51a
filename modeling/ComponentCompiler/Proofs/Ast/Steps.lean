import ComponentCompiler.Proofs.Ast.Extension
import Mathlib.Data.List.Nodup

namespace ComponentCompiler.Ast

open Relation

variable {a b c ast : Ast} {id o p x y : NodeId} {kind k : NodeKind} {span : Span} {slot : Slot}

def held (ast : Ast) (p : NodeId) : List NodeId :=
  (ast.kind? p).elim [] NodeKind.held

def parameterNames (ast : Ast) (p : NodeId) : List NodeId :=
  (ast.kind? p).elim [] NodeKind.parameterNames

def ownerOf? (ast : Ast) (x : NodeId) : Option NodeId :=
  (ast.kind? x).elim none NodeKind.owner?

def entries (ast : Ast) (slot : Slot) (p : NodeId) : List NodeId :=
  (ast.kind? p).elim [] (NodeKind.entries slot)

def declared (ast : Ast) (o : NodeId) : List NodeId :=
  (ast.scope? o).elim [] Scope.declarations

def used (ast : Ast) (o : NodeId) : List NodeId :=
  (ast.scope? o).elim [] Scope.used

def ParameterOf (ast : Ast) (x p : NodeId) : Prop :=
  ∃ list, ast.Up x list ∧ ast.kind? list = some .formalParameters ∧ ast.Up list p

/-- `o` is the body of a function of which `x` is a parameter. -/
def BodyParameter (ast : Ast) (x o : NodeId) : Prop :=
  ast.kind? o = some .block ∧
    ∃ p, ast.Up o p ∧ ast.isKind p NodeKind.isFunction ∧ ast.ParameterOf x p

theorem Extends.parameterOf (h : a.Extends b) (hp : a.ParameterOf x p) : b.ParameterOf x p := by
  obtain ⟨list, hx, hk, hl⟩ := hp
  exact ⟨list, h.up hx, h.kind?_eq_some (fun _ => NodeKind.shape_eq_of_isLeaf rfl) hk, h.up hl⟩

theorem Extends.bodyParameter (h : a.Extends b) (hp : a.BodyParameter x o) :
    b.BodyParameter x o := by
  obtain ⟨hk, f, hu, hf, hx⟩ := hp
  refine ⟨h.kind?_eq_some (fun k' he => ?_) hk, f, h.up hu, ?_, h.parameterOf hx⟩
  · cases k' <;> simp_all [NodeKind.shape]
  · rwa [h.isKind_eq NodeKind.isFunction_shape (lt_size_of_isKind hf)]

theorem view_modifyKind {β : Type} (d : β) (v : NodeKind → β) {f : NodeKind → NodeKind}
    (hf : ∀ k, a.kind? p = some k → v (f k) = v k) :
    ((a.modifyKind p f).kind? id).elim d v = (a.kind? id).elim d v := by
  rw [kind?_modifyKind]
  split
  · next h =>
    subst h
    cases hk : a.kind? id with
    | none => rfl
    | some k => exact hf k hk
  · rfl

theorem view_addListed {β : Type} (d : β) (v : NodeKind → β) (hp : p < a.size) (hv : v kind = d) :
    ((a.addListed kind span p).kind? id).elim d v = (a.kind? id).elim d v := by
  rw [kind?_addListed hp]
  split
  · next h =>
    rw [h, kind?, node?_eq_none (Nat.le_refl _)]
    exact hv
  · rfl

theorem mem_view_modifyKind {v : NodeKind → List NodeId} {f : NodeKind → NodeKind}
    (h : x ∈ ((a.modifyKind p f).kind? id).elim [] v) :
    x ∈ (a.kind? id).elim [] v ∨ id = p ∧ ∃ k, a.kind? p = some k ∧ x ∈ v (f k) := by
  rw [kind?_modifyKind] at h
  split at h
  · next hp =>
    subst hp
    cases hk : a.kind? id with
    | none => simp [hk] at h
    | some k => exact .inr ⟨rfl, k, rfl, by simpa [hk] using h⟩
  · exact .inl h

theorem declared_addListed (hp : p < a.size) :
    (a.addListed kind span p).declared o = a.declared o := by
  unfold declared
  rw [scope?_addListed hp]
  split
  · next h =>
    rw [h, scope?, node?_eq_none (Nat.le_refl _)]
    split <;> rfl
  · rfl

theorem used_addListed (hp : p < a.size) : (a.addListed kind span p).used o = a.used o := by
  unfold used
  rw [scope?_addListed hp]
  split
  · next h =>
    rw [h, scope?, node?_eq_none (Nat.le_refl _)]
    split <;> rfl
  · rfl

structure Entry where
  slot : Slot
  holder : NodeId
  node : NodeId
  deriving DecidableEq

def listed (log : List Entry) (slot : Slot) (p : NodeId) : List NodeId :=
  (log.filter fun e => e.slot = slot ∧ e.holder = p).map Entry.node

theorem listed_append (log log' : List Entry) (slot : Slot) (p : NodeId) :
    listed (log ++ log') slot p = listed log slot p ++ listed log' slot p := by
  simp [listed]

theorem listed_singleton (slot slot' : Slot) (p q x : NodeId) :
    listed [⟨slot, p, x⟩] slot' q = if slot = slot' ∧ p = q then [x] else [] := by
  unfold listed
  rw [List.filter_singleton]
  by_cases h : slot = slot' ∧ p = q <;> simp [h]

/-- Where the rules are at work: under `owner`, with nodes from `start` on. They add nodes of some
kinds only, and may or may not enter children of the owner as references. -/
structure Site where
  owner : NodeId
  start : NodeId
  refers : Prop
  adds : NodeKind → Prop

variable {s : Site} {log log' : List Entry}

def Site.Around (s : Site) (ast : Ast) (p : NodeId) : Prop :=
  s.start ≤ p ∨ ReflTransGen ast.Up s.owner p

inductive Step (s : Site) (a : Ast) : List Entry → Ast → Prop
  | add {kind : NodeKind} {span : Span} {p : NodeId} (hk : s.adds kind) (hbare : kind.Bare)
      (hp : s.Around a p) (hlt : p < a.size) : Step s a [] (a.addListed kind span p)
  | note {p : NodeId} {f : NodeKind → NodeKind} {parts names : List NodeId} (hp : s.Around a p)
      (hf : ∀ k, a.kind? p = some k → k.Notes (f k) parts names)
      (hparts : ∀ x ∈ parts, TransGen a.Up x p) (hnames : ∀ x ∈ names, a.ParameterOf x p) :
      Step s a [] (a.modifyKind p f)
  | enlist {slot : Slot} {p x : NodeId} (hs : slot ≠ .idComponents) (hp : s.Around a p)
      (hk : a.isKind p (NodeKind.keeps slot)) (hx : TransGen a.Up x p) :
      Step s a [⟨slot, p, x⟩] (a.modifyKind p (.push slot x))
  /-- An instance is entered under its id, and the component becomes its owner. -/
  | expose {p x : NodeId} {i : InstanceData} (hp : s.Around a p) (hx : s.Around a x)
      (hk : a.isKind p (NodeKind.keeps .idComponents)) (hi : a.kind? x = some (.instance_ i))
      (hu : TransGen a.Up x p) :
      Step s a [⟨.idComponents, p, x⟩] ((a.modifyKind p (.push .idComponents x)).modifyKind x
        (.mapInstance fun i => { i with owner := some p }))
  | declare {o x : NodeId} (ho : s.Around a o) (hx : TransGen a.Up x o ∨ a.BodyParameter x o) :
      Step s a [] (a.editScope o fun s => { s with declarations := s.declarations ++ [x] })
  | use {o p x : NodeId} (ho : s.Around a o) (hu : a.Up x p) (hs : a.scopeOwner? p = some o)
      (hfree : ∀ o, x ∉ a.used o) (hp : s.start ≤ p ∨ p = s.owner ∧ s.refers) :
      Step s a [] (a.editScope o fun s => { s with used := s.used ++ [x] })
  /-- No node changes, only the exports or the diagnostics do. -/
  | mark {b : Ast} (hn : b.nodes = a.nodes) (hi : b.imports = a.imports) : Step s a [] b

theorem notes_owner (p : NodeId) (k : NodeKind) :
    (k.mapInstance fun i => { i with owner := some p }).shape = k.shape ∧
    (k.mapInstance fun i => { i with owner := some p }).held = k.held ∧
    (k.mapInstance fun i => { i with owner := some p }).parameterNames = k.parameterNames ∧
    ∀ slot, (k.mapInstance fun i => { i with owner := some p }).entries slot = k.entries slot := by
  cases k <;> exact ⟨rfl, rfl, rfl, fun _ => rfl⟩

namespace Step

theorem extension (h : Step s a log b) : a.Extends b := by
  cases h with
  | add _ _ _ hlt => exact extends_addListed hlt
  | note _ hf _ _ => exact extends_modifyKind fun k hk => (hf k hk).shape
  | enlist => exact extends_modifyKind fun k _ => k.shape_push
  | expose =>
    exact (extends_modifyKind fun k _ => k.shape_push).trans
      (extends_modifyKind fun k _ => (notes_owner _ k).1)
  | declare | use => exact extends_editScope
  | mark hn hi => exact extends_of_nodes hn hi

theorem frame (h : Step s a log b) (hp : p < a.size) (hout : ¬ s.Around a p) :
    b.node? p = a.node? p := by
  have hne {q : NodeId} (hq : s.Around a q) : p ≠ q := fun he => hout (he ▸ hq)
  cases h with
  | add _ _ hq hlt =>
    rw [node?_addListed, node?_add a _ _ hlt, if_neg (Nat.ne_of_lt hp), if_neg (hne hq)]
  | note hq _ _ _ => rw [modifyKind, node?_modify, if_neg (hne hq)]
  | enlist _ hq _ _ => rw [modifyKind, node?_modify, if_neg (hne hq)]
  | expose hq hx _ _ _ =>
    rw [modifyKind, node?_modify, if_neg (hne hx), modifyKind, node?_modify, if_neg (hne hq)]
  | declare hq _ => rw [editScope, node?_modify, if_neg (hne hq)]
  | use hq _ _ _ _ => rw [editScope, node?_modify, if_neg (hne hq)]
  | mark hn _ => rw [node?, node?, hn]

theorem added (h : Step s a log b) (hx : a.size ≤ x) (hlt : x < b.size) :
    ∃ p kind, b.Up x p ∧ s.Around a p ∧ s.adds kind ∧ b.shape? x = some kind ∧
      (b.scope? x).isSome = kind.bearsScope := by
  have hno (he : b.size = a.size) : False := Nat.not_lt.mpr hx (he ▸ hlt)
  cases h with
  | @add kind span p hk hbare hp hlp =>
    rw [size_addListed] at hlt
    obtain rfl : x = a.size := Nat.le_antisymm (Nat.le_of_lt_succ hlt) hx
    refine ⟨p, kind, up_addListed hlp, hp, hk, ?_, ?_⟩
    · rw [shape?, kind?_addListed hlp, if_pos rfl, Option.map_some,
        show kind.shape = kind from hbare]
    · rw [scope?_addListed hlp, if_pos rfl]
      cases kind.bearsScope <;> rfl
  | note | enlist | declare | use => exact (hno Array.size_modify).elim
  | expose => exact (hno (Array.size_modify.trans Array.size_modify)).elim
  | mark hn _ => exact (hno (congrArg Array.size hn)).elim

theorem held (h : Step s a log b) (hx : x ∈ b.held p) : x ∈ a.held p ∨ TransGen b.Up x p := by
  have hext := h.extension
  have hold {k : NodeKind} (hk : a.kind? p = some k) (hmem : x ∈ k.held) : x ∈ a.held p := by
    rwa [Ast.held, hk]
  cases h with
  | add _ hbare _ hlt =>
    rw [Ast.held, view_addListed _ _ hlt hbare.held] at hx
    exact .inl hx
  | note _ hf hparts _ =>
    rcases mem_view_modifyKind hx with hx | ⟨rfl, k, hk, hmem⟩
    · exact .inl hx
    · exact ((hf k hk).held x hmem).imp (hold hk) fun hmem => hext.above (hparts x hmem)
  | enlist _ _ _ hu =>
    rcases mem_view_modifyKind hx with hx | ⟨rfl, k, hk, hmem⟩
    · exact .inl hx
    · refine (NodeKind.mem_held_push hmem).imp (hold hk) ?_
      rintro rfl
      exact hext.above hu
  | @expose q _ _ _ _ _ _ hu =>
    rw [Ast.held, view_modifyKind _ _ fun k _ => (notes_owner q k).2.1] at hx
    rcases mem_view_modifyKind hx with hx | ⟨rfl, k, hk, hmem⟩
    · exact .inl hx
    · refine (NodeKind.mem_held_push hmem).imp (hold hk) ?_
      rintro rfl
      exact hext.above hu
  | declare | use =>
    rw [Ast.held, kind?_editScope] at hx
    exact .inl hx
  | mark hn _ =>
    rw [Ast.held, kind?, node?, hn] at hx
    exact .inl hx

theorem parameterNames (h : Step s a log b) (hx : x ∈ b.parameterNames p) :
    x ∈ a.parameterNames p ∨ b.ParameterOf x p := by
  have hext := h.extension
  cases h with
  | add _ hbare _ hlt =>
    rw [Ast.parameterNames, view_addListed _ _ hlt hbare.parameterNames] at hx
    exact .inl hx
  | note _ hf _ hnames =>
    rcases mem_view_modifyKind hx with hx | ⟨rfl, k, hk, hmem⟩
    · exact .inl hx
    · rcases (hf k hk).names x hmem with hmem | hmem
      · exact .inl (by rwa [Ast.parameterNames, hk])
      · exact .inr (hext.parameterOf (hnames x hmem))
  | enlist =>
    rw [Ast.parameterNames, view_modifyKind _ _ fun k _ => k.parameterNames_push] at hx
    exact .inl hx
  | @expose q =>
    rw [Ast.parameterNames, view_modifyKind _ _ fun k _ => (notes_owner q k).2.2.1,
      view_modifyKind _ _ fun k _ => k.parameterNames_push] at hx
    exact .inl hx
  | declare | use =>
    rw [Ast.parameterNames, kind?_editScope] at hx
    exact .inl hx
  | mark hn _ =>
    rw [Ast.parameterNames, kind?, node?, hn] at hx
    exact .inl hx

theorem entries (h : Step s a log b) (slot : Slot) (p : NodeId) :
    b.entries slot p = a.entries slot p ++ listed log slot p := by
  -- the list of the holder grows at its end, the others stay
  have hpush {slot' : Slot} {q x : NodeId} (hk : a.isKind q (NodeKind.keeps slot')) :
      (a.modifyKind q (.push slot' x)).entries slot p =
        a.entries slot p ++ listed [⟨slot', q, x⟩] slot p := by
    obtain ⟨k, hkind, hkeeps⟩ := isKind_iff.mp hk
    rw [Ast.entries, Ast.entries, kind?_modifyKind, listed_singleton]
    by_cases hq : p = q
    · subst hq
      simp [hkind, NodeKind.entries_push hkeeps]
    · simp [hq, Ne.symm hq]
  cases h with
  | add _ hbare _ hlt =>
    rw [Ast.entries, view_addListed _ _ hlt (hbare.entries slot)]
    exact (List.append_nil _).symm
  | note _ hf _ _ =>
    rw [Ast.entries, view_modifyKind _ _ fun k hk => (hf k hk).entries slot]
    exact (List.append_nil _).symm
  | enlist _ _ hk _ => exact hpush hk
  | @expose q _ _ _ _ hk _ _ =>
    rw [Ast.entries, view_modifyKind _ _ fun k _ => (notes_owner q k).2.2.2 slot]
    exact hpush hk
  | declare | use =>
    rw [Ast.entries, kind?_editScope]
    exact (List.append_nil _).symm
  | mark hn _ =>
    rw [Ast.entries, kind?, node?, hn]
    exact (List.append_nil _).symm

theorem ownerOf? (h : Step s a log b) (x : NodeId) :
    (b.ownerOf? x = a.ownerOf? x ∧ ∀ p, ⟨.idComponents, p, x⟩ ∉ log) ∨
      ∃ p, ⟨.idComponents, p, x⟩ ∈ log ∧ b.ownerOf? x = some p ∧ TransGen b.Up x p := by
  have hext := h.extension
  cases h with
  | add _ hbare _ hlt => exact .inl ⟨view_addListed _ _ hlt hbare.owner?, by simp⟩
  | note _ hf _ _ => exact .inl ⟨view_modifyKind _ _ fun k hk => (hf k hk).owner, by simp⟩
  | enlist hs =>
    refine .inl ⟨view_modifyKind _ _ fun k _ => k.owner?_push, fun p hmem => ?_⟩
    exact hs (congrArg Entry.slot (List.mem_singleton.mp hmem)).symm
  | @expose p y i _ _ _ hi hu =>
    by_cases hx : x = y
    · subst hx
      have hinst : ∃ j, (a.modifyKind p (.push .idComponents x)).kind? x = some (.instance_ j) := by
        rw [kind?_modifyKind, hi]
        split
        · exact ⟨_, rfl⟩
        · exact ⟨i, rfl⟩
      obtain ⟨j, hj⟩ := hinst
      refine .inr ⟨p, List.mem_singleton_self _, ?_, hext.above hu⟩
      rw [Ast.ownerOf?, kind?_modifyKind, if_pos rfl, hj]
      rfl
    · refine .inl ⟨?_, fun q hmem => hx (congrArg Entry.node (List.mem_singleton.mp hmem))⟩
      rw [Ast.ownerOf?, kind?_modifyKind, if_neg hx, view_modifyKind _ _ fun k _ => k.owner?_push]
      rfl
  | declare | use => exact .inl ⟨by rw [Ast.ownerOf?, kind?_editScope]; rfl, by simp⟩
  | mark hn _ => exact .inl ⟨by rw [Ast.ownerOf?, kind?, node?, hn]; rfl, by simp⟩

theorem declared (h : Step s a log b) (hx : x ∈ b.declared o) :
    x ∈ a.declared o ∨ TransGen b.Up x o ∨ b.BodyParameter x o := by
  have hext := h.extension
  cases h with
  | add _ _ _ hlt => exact .inl (declared_addListed hlt ▸ hx)
  | note | enlist | expose => exact .inl (by simpa [Ast.declared] using hx)
  | @declare q y _ hy =>
    unfold Ast.declared at hx
    rw [scope?_editScope] at hx
    split at hx
    · next hq =>
      subst hq
      cases hs : a.scope? o with
      | none => simp [hs] at hx
      | some scope =>
        rw [hs] at hx
        rcases List.mem_append.mp hx with hx | hx
        · exact .inl (by rwa [Ast.declared, hs])
        · obtain rfl := List.mem_singleton.mp hx
          exact .inr (hy.imp hext.above hext.bodyParameter)
    · exact .inl hx
  | use =>
    refine .inl ?_
    unfold Ast.declared at hx ⊢
    rw [scope?_editScope] at hx
    split at hx
    · cases hs : a.scope? o <;> simp [hs] at hx ⊢
      exact hx
    · exact hx
  | mark hn _ =>
    rw [Ast.declared, scope?, node?, hn] at hx
    exact .inl hx

/-- A reference that is new in a scope was in none, and its parent finds that scope. -/
theorem used (h : Step s a log b) (o : NodeId) : b.used o = a.used o ∨
    ∃ x p, b.used o = a.used o ++ [x] ∧ (∀ o', x ∉ a.used o') ∧ a.Up x p ∧
      a.scopeOwner? p = some o ∧ (s.start ≤ p ∨ p = s.owner ∧ s.refers) := by
  cases h with
  | add _ _ _ hlt => exact .inl (used_addListed hlt)
  | note | enlist | expose => exact .inl (by simp [Ast.used])
  | declare =>
    refine .inl ?_
    unfold Ast.used
    rw [scope?_editScope]
    split
    · cases a.scope? o <;> rfl
    · rfl
  | @use q p x _ hu hs hfree hp =>
    unfold Ast.used
    rw [scope?_editScope]
    split
    · next hq =>
      subst hq
      cases hscope : a.scope? o with
      | none => exact .inl rfl
      | some scope => exact .inr ⟨x, p, rfl, hfree, hu, hs, hp⟩
    · exact .inl rfl
  | mark hn _ => exact .inl (by rw [Ast.used, scope?, node?, hn]; rfl)

end Step

/-- What a tree promises of the ids it holds. -/
structure Sound (ast : Ast) : Prop where
  linked : ast.Linked
  scope : ∀ id, (ast.scope? id).isSome = ast.isKind id NodeKind.bearsScope
  held : ∀ p, ∀ x ∈ ast.held p, TransGen ast.Up x p
  parameterNames : ∀ p, ∀ x ∈ ast.parameterNames p, ast.ParameterOf x p
  owner : ∀ x p, ast.ownerOf? x = some p → TransGen ast.Up x p
  declared : ∀ o, ∀ x ∈ ast.declared o, TransGen ast.Up x o ∨ ast.BodyParameter x o
  used : ∀ o, ∀ x ∈ ast.used o, ∃ p, ast.Up x p ∧ ast.scopeOwner? p = some o
  once : ∀ o, (ast.used o).Nodup

theorem sound_ofSpan (span : Span) : (ofSpan span).Sound := by
  have hkind (id : NodeId) : (ofSpan span).kind? id = if id = 0 then some .program else none := by
    cases id <;> rfl
  have hscope (id : NodeId) : (ofSpan span).scope? id = if id = 0 then some {} else none := by
    cases id <;> rfl
  refine ⟨linked_ofSpan span, ?_, ?_, ?_, ?_, ?_, ?_, ?_⟩ <;>
    intro id <;> by_cases h : id = 0 <;>
    simp [isKind, held, parameterNames, ownerOf?, declared, used, hkind, hscope, h,
      NodeKind.bearsScope, NodeKind.held, NodeKind.parameterNames, NodeKind.isFunction,
      NodeKind.owner?]

theorem Step.sound (h : Step s a log b) (ha : a.Sound) : b.Sound := by
  have hext := h.extension
  have hused {o x : NodeId} (hx : x ∈ b.used o) :
      ∃ p, a.Up x p ∧ a.scopeOwner? p = some o := by
    rcases h.used o with he | ⟨y, p, he, -, hu, hs, -⟩
    · exact ha.used o x (he ▸ hx)
    · rw [he, List.mem_append, List.mem_singleton] at hx
      rcases hx with hx | rfl
      · exact ha.used o x hx
      · exact ⟨p, hu, hs⟩
  refine ⟨ha.linked.grows hext.grows, fun id => ?_, fun p x hx => ?_, fun p x hx => ?_,
    fun x p hx => ?_, fun o x hx => ?_, fun o x hx => ?_, fun o => ?_⟩
  · by_cases hold : id < a.size
    · rw [hext.hasScope id hold, ha.scope id, hext.isKind_eq NodeKind.bearsScope_shape hold]
    · by_cases hnew : id < b.size
      · obtain ⟨_, kind, -, -, -, hshape, hscope⟩ := h.added (Nat.le_of_not_lt hold) hnew
        rw [hscope, isKind_eq_shape? NodeKind.bearsScope_shape, hshape]
        rfl
      · rw [scope?, isKind, kind?, node?_eq_none (Nat.le_of_not_lt hnew)]
        rfl
  · exact (h.held hx).elim (fun hx => hext.above (ha.held p x hx)) id
  · exact (h.parameterNames hx).elim (fun hx => hext.parameterOf (ha.parameterNames p x hx)) id
  · rcases h.ownerOf? x with ⟨he, -⟩ | ⟨q, -, he, hu⟩
    · exact hext.above (ha.owner x p (he ▸ hx))
    · cases he.symm.trans hx
      exact hu
  · rcases h.declared hx with hx | hx
    · exact (ha.declared o x hx).imp hext.above hext.bodyParameter
    · exact hx
  · obtain ⟨p, hu, hs⟩ := hused hx
    have hlt : p < a.size := Nat.lt_trans (ha.linked.up_lt hu) (lt_size_of_up hu)
    exact ⟨p, hext.up hu, (hext.scopeOwner?_eq ha.linked hlt).trans hs⟩
  · rcases h.used o with he | ⟨y, p, he, hfree, -⟩
    · exact he ▸ ha.once o
    · rw [he]
      exact (ha.once o).append (List.nodup_singleton y) (List.disjoint_singleton.mpr (hfree o))

inductive Run (s : Site) (a : Ast) : List Entry → Ast → Prop
  | refl : Run s a [] a
  | step {log log' : List Entry} {b c : Ast} (h : Run s a log b) (hs : Step s b log' c) :
      Run s a (log ++ log') c

namespace Run

theorem extension (h : Run s a log b) : a.Extends b := by
  induction h with
  | refl => exact .refl a
  | step _ hs ih => exact ih.trans hs.extension

theorem sound (h : Run s a log b) (ha : a.Sound) : b.Sound := by
  induction h with
  | refl => exact ha
  | step _ hs ih => exact hs.sound ih

theorem trans (h : Run s a log b) (h' : Run s b log' c) : Run s a (log ++ log') c := by
  induction h' with
  | refl => rwa [List.append_nil]
  | step _ hs ih =>
    rw [← List.append_assoc]
    exact .step ih hs

theorem frame (h : Run s a log b) (hl : a.Linked) (ho : s.owner < a.size) (hp : p < a.size)
    (hout : ¬ s.Around a p) : b.node? p = a.node? p := by
  induction h with
  | refl => rfl
  | step h hs ih =>
    have hext := h.extension
    refine (hs.frame (Nat.lt_of_lt_of_le hp hext.size_le) fun hin => hout ?_).trans ih
    exact hin.imp_right (hext.grows.chain_iff hl ho).mp

theorem added (h : Run s a log b) (hx : a.size ≤ x) (hlt : x < b.size) :
    ∃ p kind, b.Up x p ∧ s.Around b p ∧ s.adds kind ∧ b.shape? x = some kind := by
  induction h with
  | refl => exact absurd hlt (Nat.not_lt.mpr hx)
  | @step _ _ b c h hs ih =>
    have hext := hs.extension
    by_cases hold : x < b.size
    · obtain ⟨p, kind, hu, hp, hk, hshape⟩ := ih hold
      exact ⟨p, kind, hext.up hu, hp.imp_right hext.chain, hk, hext.shape?_eq_some hshape⟩
    · obtain ⟨p, kind, hu, hp, hk, hshape, -⟩ := hs.added (Nat.le_of_not_lt hold) hlt
      exact ⟨p, kind, hu, hp.imp_right hext.chain, hk, hshape⟩

theorem entries (h : Run s a log b) (slot : Slot) (p : NodeId) :
    b.entries slot p = a.entries slot p ++ listed log slot p := by
  induction h with
  | refl => exact (List.append_nil _).symm
  | step _ hs ih => rw [hs.entries, ih, listed_append, List.append_assoc]

theorem ownerOf? (h : Run s a log b) (x : NodeId) :
    (b.ownerOf? x = a.ownerOf? x ∧ ∀ p, ⟨.idComponents, p, x⟩ ∉ log) ∨
      ∃ p, ⟨.idComponents, p, x⟩ ∈ log ∧ b.ownerOf? x = some p := by
  induction h with
  | refl => exact .inl ⟨rfl, fun _ h => by cases h⟩
  | step _ hs ih =>
    rcases hs.ownerOf? x with ⟨he, hno⟩ | ⟨p, hmem, he, -⟩
    · rcases ih with ⟨he', hno'⟩ | ⟨p, hmem, he'⟩
      · refine .inl ⟨he.trans he', fun p hmem => ?_⟩
        exact (List.mem_append.mp hmem).elim (hno' p) (hno p)
      · exact .inr ⟨p, List.mem_append_left _ hmem, he.trans he'⟩
    · exact .inr ⟨p, List.mem_append_right _ hmem, he⟩

theorem used (h : Run s a log b) (hx : x ∈ b.used o) :
    x ∈ a.used o ∨ ∃ p, b.Up x p ∧ (s.start ≤ p ∨ p = s.owner ∧ s.refers) := by
  induction h with
  | refl => exact .inl hx
  | @step _ _ b c _ hs ih =>
    have hext := hs.extension
    have hkept (hx : x ∈ b.used o) :
        x ∈ a.used o ∨ ∃ p, c.Up x p ∧ (s.start ≤ p ∨ p = s.owner ∧ s.refers) :=
      (ih hx).imp_right fun ⟨p, hu, hp⟩ => ⟨p, hext.up hu, hp⟩
    rcases hs.used o with he | ⟨y, p, he, -, hu, -, hp⟩
    · exact hkept (he ▸ hx)
    · rw [he, List.mem_append, List.mem_singleton] at hx
      rcases hx with hx | rfl
      · exact hkept hx
      · exact .inr ⟨p, hext.up hu, hp⟩

variable {s' : Site}

theorem lift (h : Run s a log b) (hadds : ∀ k, s.adds k → s'.adds k)
    (haround : ∀ c, a.Extends c → ∀ p, s.Around c p → s'.Around c p)
    (hrefers : ∀ p, s.start ≤ p ∨ p = s.owner ∧ s.refers →
      s'.start ≤ p ∨ p = s'.owner ∧ s'.refers) : Run s' a log b := by
  induction h with
  | refl => exact .refl
  | @step _ _ b c h hs ih =>
    have hin := haround b h.extension
    refine .step ih ?_
    cases hs with
    | add hk hbare hp hlt => exact .add (hadds _ hk) hbare (hin _ hp) hlt
    | note hp hf hparts hnames => exact .note (hin _ hp) hf hparts hnames
    | enlist hs hp hk hx => exact .enlist hs (hin _ hp) hk hx
    | expose hp hx hk hi hu => exact .expose (hin _ hp) (hin _ hx) hk hi hu
    | declare ho hx => exact .declare (hin _ ho) hx
    | use ho hu hs hfree hp => exact .use (hin _ ho) hu hs hfree (hrefers _ hp)
    | mark hn hi => exact .mark hn hi

theorem widen (h : Run s a log b) (ho : s'.owner = s.owner) (hs : s'.start ≤ s.start)
    (hadds : ∀ k, s.adds k → s'.adds k) (hrefers : s.refers → s'.refers) : Run s' a log b :=
  h.lift hadds (fun _ _ _ hp => hp.imp (Nat.le_trans hs) fun hc => ho ▸ hc)
    fun _ hp => hp.imp (Nat.le_trans hs) fun ⟨he, hr⟩ => ⟨he.trans ho.symm, hrefers hr⟩

theorem under (h : Run s a log b) (hu : a.Up s.owner s'.owner) (ho : s'.start ≤ s.owner)
    (hs : s'.start ≤ s.start) (hadds : ∀ k, s.adds k → s'.adds k) : Run s' a log b := by
  refine h.lift hadds (fun c hext p hp => ?_) fun p hp => .inl ?_
  · rcases hp with hp | hp
    · exact .inl (Nat.le_trans hs hp)
    · rcases (chain_cons (hext.up hu)).mp hp with rfl | hp
      · exact .inl ho
      · exact .inr hp
  · rcases hp with hp | ⟨rfl, -⟩
    · exact Nat.le_trans hs hp
    · exact ho

end Run

end ComponentCompiler.Ast
