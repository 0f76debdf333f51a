import ComponentCompiler.Proofs.Ast.Steps

namespace ComponentCompiler.Ast

open Relation

variable {a b c ast : Ast} {o p x y start : NodeId} {kind k : NodeKind} {span : Span}
  {f : NodeKind → NodeKind} {g : Scope → Scope} {s : Site} {log : List Entry} {xs : List NodeId}

theorem up_modify {m : Node → Node} (hm : ∀ n, (m n).parent = n.parent) :
    (ast.modify p m).Up = ast.Up := by
  funext x y
  rw [Up, Up, parent?, parent?, node?_modify]
  split
  · cases ast.node? x <;> simp [hm]
  · rfl

@[simp] theorem up_modifyKind : (ast.modifyKind p f).Up = ast.Up :=
  up_modify fun _ => rfl

@[simp] theorem up_modifyScope : (ast.modifyScope start g).Up = ast.Up := by
  unfold modifyScope
  split
  · rfl
  · exact up_modify fun _ => rfl

@[simp] theorem up_declare : (ast.declare start x).Up = ast.Up :=
  up_modifyScope

@[simp] theorem up_use : (ast.use start x).Up = ast.Up :=
  up_modifyScope

theorem up_add (ast : Ast) (kind : NodeKind) (span : Span) (hp : p < ast.size) :
    (ast.add kind span p).Up ast.size p := by
  rw [Up, parent?_add hp, if_pos rfl]

theorem extends_add (hk : kind.group ≠ .importStatement) (hp : p < ast.size) :
    ast.Extends (ast.add kind span p) :=
  addListed_eq_add hk ▸ extends_addListed hp

theorem kind?_add_self (hk : kind.group ≠ .importStatement) (hp : p < ast.size) :
    (ast.add kind span p).kind? ast.size = some kind := by
  rw [← addListed_eq_add hk, kind?_addListed hp, if_pos rfl]

theorem group_of_isLeaf (h : kind.isLeaf) : kind.group ≠ .importStatement := by
  cases kind <;> simp [NodeKind.isLeaf, NodeKind.group] at h ⊢

theorem scopeOwner?_of_up (hl : ast.Linked) (hu : ast.Up x y) (hs : (ast.scope? x).isSome = false) :
    ast.scopeOwner? x = ast.scopeOwner? y := by
  unfold scopeOwner?
  rw [ancestors_of_up hl hu, List.find?_cons, hs]

theorem Sound.unused (ha : a.Sound) (hx : a.size ≤ x) (o : NodeId) : x ∉ a.used o := by
  intro hmem
  obtain ⟨p, hu, -⟩ := ha.used o x hmem
  exact Nat.not_lt.mpr hx (lt_size_of_up hu)

theorem used_add (kind : NodeKind) (hk : kind.isLeaf) (hp : p < a.size) :
    (a.add kind span p).used o = a.used o := by
  rw [← addListed_eq_add (group_of_isLeaf hk), used_addListed hp]

theorem used_addAll (spans : List Span) (hp : p < a.size) :
    (a.addAll .identifier spans p).used o = a.used o := by
  induction spans generalizing a with
  | nil => rfl
  | cons span rest ih =>
    have hlt : p < (a.add .identifier span p).size := by
      rw [size_add]
      exact Nat.lt_succ_of_lt hp
    exact (ih hlt).trans (used_add .identifier rfl hp)

theorem used_modifyKind : (a.modifyKind p f).used o = a.used o := by
  rw [used, used, scope?_modifyKind]

namespace Run

theorem quiet (h : Run s a log b) (hs : Step s b [] c) : Run s a log c :=
  List.append_nil log ▸ .step h hs

theorem transQuiet (h : Run s a log b) (h' : Run s b [] c) : Run s a log c :=
  List.append_nil log ▸ h.trans h'

theorem leaf (h : Run s a log b) (hk : kind.isLeaf) (hadd : s.adds kind) (hp : s.Around b p)
    (hlt : p < b.size) : Run s a log (b.add kind span p) := by
  rw [← addListed_eq_add (group_of_isLeaf hk)]
  exact h.quiet (.add hadd (NodeKind.bare_of_isLeaf hk) hp hlt)

theorem names (hadd : s.adds .identifier) (hp : s.Around a p) (hlt : p < a.size)
    (spans : List Span) : Run s a [] (a.addAll .identifier spans p) ∧
      ∀ x ∈ a.nextIds spans.length, (a.addAll .identifier spans p).Up x p := by
  induction spans generalizing a with
  | nil => exact ⟨.refl, by simp [nextIds]⟩
  | cons span rest ih =>
    have hadded : Run s a [] (a.add .identifier span p) := Run.refl.leaf rfl hadd hp hlt
    have hext := hadded.extension
    obtain ⟨hrun, hup⟩ := ih (hp.imp_right hext.chain) (Nat.lt_of_lt_of_le hlt hext.size_le)
    refine ⟨hadded.trans hrun, fun x hx => ?_⟩
    rw [List.length_cons, nextIds, List.range'_succ, List.mem_cons] at hx
    rcases hx with rfl | hx
    · exact hrun.extension.up (up_add a .identifier span hlt)
    · exact hup x (by rwa [nextIds, size_add])

theorem note (h : Run s a log b) (xs names : List NodeId) (hp : s.Around b p)
    (hf : ∀ k, b.kind? p = some k → k.Notes (f k) xs names)
    (hparts : ∀ x ∈ xs, TransGen b.Up x p) (hnames : ∀ x ∈ names, b.ParameterOf x p) :
    Run s a log (b.modifyKind p f) :=
  h.quiet (.note hp hf hparts hnames)

theorem mark (h : Run s a log b) (hp : s.Around b p)
    (hf : ∀ k, b.kind? p = some k → k.Notes (f k) [] []) : Run s a log (b.modifyKind p f) :=
  h.note [] [] hp hf (List.forall_mem_nil _) (List.forall_mem_nil _)

theorem parts (h : Run s a log b) (hp : s.Around b p) (hf : ∀ k : NodeKind, k.Notes (f k) xs [])
    (hparts : ∀ x ∈ xs, TransGen b.Up x p) : Run s a log (b.modifyKind p f) :=
  h.note xs [] hp (fun k _ => hf k) hparts nofun

theorem part (h : Run s a log b) (hp : s.Around b p) (hx : TransGen b.Up x p)
    (hf : ∀ k : NodeKind, k.Notes (f k) [x] []) : Run s a log (b.modifyKind p f) := by
  refine h.parts hp hf fun y hy => ?_
  obtain rfl := List.mem_singleton.mp hy
  exact hx

def Declares (s : Site) (ast : Ast) (start x : NodeId) : Prop :=
  ∀ o, ast.scopeOwner? start = some o →
    s.Around ast o ∧ (TransGen ast.Up x o ∨ ast.BodyParameter x o)

theorem declares (h : Run s a log b) (hx : Declares s b start x) :
    Run s a log (b.declare start x) := by
  unfold Ast.declare modifyScope
  split
  · exact h
  · next o ho =>
    obtain ⟨haround, hbelow⟩ := hx o ho
    exact h.quiet (.declare haround hbelow)

theorem declare (h : Run s a log b) (hs : ReflTransGen b.Up s.owner start)
    (hx : TransGen b.Up x start) : Run s a log (b.declare start x) := by
  refine h.declares fun o ho => ?_
  have hc := chain_of_scopeOwner? ho
  exact ⟨.inr (hs.trans hc), .inl (hx.trans_left hc)⟩

theorem declareAll (h : Run s a log b) (hl : b.Linked) (hlt : start < b.size)
    (hx : ∀ x ∈ xs, Declares s b start x) : Run s a log (b.declareAll start xs) := by
  induction xs generalizing b with
  | nil => exact h
  | cons x rest ih =>
    have hstep : Run s b [] (b.declare start x) := Run.refl.declares (hx x List.mem_cons_self)
    have hext := hstep.extension
    have hlt' := Nat.lt_of_lt_of_le hlt hext.size_le
    refine ih (h.transQuiet hstep) (hl.grows hext.grows) hlt' fun y hy o ho => ?_
    rw [hext.scopeOwner?_eq hl hlt] at ho
    obtain ⟨haround, hbelow⟩ := hx y (List.mem_cons_of_mem x hy) o ho
    exact ⟨haround.imp_right hext.chain, hbelow.imp hext.above hext.bodyParameter⟩

theorem use (h : Run s a log b) (hu : b.Up x p) (hs : b.scopeOwner? p = b.scopeOwner? s.owner)
    (hfree : ∀ o, x ∉ b.used o) (hp : s.start ≤ p ∨ p = s.owner ∧ s.refers) :
    Run s a log (b.use s.owner x) := by
  unfold Ast.use modifyScope
  split
  · exact h
  · next o ho =>
    exact h.quiet (.use (.inr (chain_of_scopeOwner? ho)) hu (hs.trans ho) hfree hp)

end Run

end ComponentCompiler.Ast
