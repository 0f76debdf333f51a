import ComponentCompiler.Proofs.Graph.CompileOrder
import ComponentCompiler.Proofs.Graph.Resolution

namespace ComponentCompiler.ModuleGraph

open Relation

variable {g : ModuleGraph} {pairs pairs' : List (UnitId × UnitId)} {a b : UnitId}

/-- Adds edges one after the other, also behind one that is refused. -/
def addEach : List (UnitId × UnitId) → ModuleGraph → List (Except GraphError Bool) × ModuleGraph
  | [], g => ([], g)
  | (importer, exporter) :: rest, g =>
    let outcome := g.addDependency importer exporter
    let (outcomes, g') := addEach rest (g.orKeep outcome)
    (outcome.map (·.1) :: outcomes, g')

def NoneFails (outcomes : List (Except GraphError Bool)) : Prop :=
  ∀ o ∈ outcomes, ∃ new, o = .ok new

def joined (g : ModuleGraph) (pairs : List (UnitId × UnitId)) : List (UnitId × UnitId) :=
  g.edges ++ pairs.filter fun e => e.1 != e.2

/-- Each unit leads to the next, and the last one to the first. -/
def IsRing (edges : List (UnitId × UnitId)) (first : UnitId) (others : List UnitId) : Prop :=
  (first :: (others ++ [first])).IsChain (Leads edges)

def FailsAt (g : ModuleGraph) (pairs before after : List (UnitId × UnitId)) (a b : UnitId) : Prop :=
  pairs = before ++ (a, b) :: after ∧ NoneFails (addEach before g).1 ∧
    ∃ path, (addEach before g).2.addDependency a b = .error (.dependencyCycle path)

theorem mem_joined {e : UnitId × UnitId} :
    e ∈ g.joined pairs ↔ e ∈ g.edges ∨ e ∈ pairs ∧ e.1 ≠ e.2 := by
  simp [joined]

theorem mem_joined_perm (hp : pairs.Perm pairs') (e : UnitId × UnitId) :
    e ∈ g.joined pairs ↔ e ∈ g.joined pairs' := by
  rw [mem_joined, mem_joined, hp.mem_iff]

theorem IsRing.not_acyclic {edges : List (UnitId × UnitId)} {others : List UnitId}
    (h : IsRing edges a others) : ¬ Acyclic edges := by
  intro hac
  cases others with
  | nil => exact hac a (.single (List.isChain_pair.mp h))
  | cons b more =>
    obtain ⟨hab, hchain⟩ := List.isChain_cons_cons.mp h
    have hback : Reaches edges b a :=
      List.relationReflTransGen_of_exists_isChain_cons (more ++ [a]) hchain (by simp)
    exact hac a (TransGen.head' hab hback)

theorem not_acyclic_joined (hm : (a, b) ∈ pairs) (hne : a ≠ b) (hr : Reaches g.edges b a) :
    ¬ Acyclic (g.joined pairs) := by
  intro h
  have hedge : (a, b) ∈ g.joined pairs := mem_joined.mpr (.inr ⟨hm, hne⟩)
  have hback : Reaches (g.joined pairs) b a :=
    ReflTransGen.mono (fun _ _ he => mem_joined.mpr (.inl he)) b a hr
  exact h a (TransGen.head' hedge hback)

theorem addEach_append (before rest : List (UnitId × UnitId)) (g : ModuleGraph) :
    (addEach (before ++ rest) g).1 =
      (addEach before g).1 ++ (addEach rest (addEach before g).2).1 := by
  induction before generalizing g with
  | nil => rfl
  | cons e before ih => simp [addEach, ih]

theorem FailsAt.not_noneFails {before after : List (UnitId × UnitId)}
    (h : g.FailsAt pairs before after a b) : ¬ NoneFails (addEach pairs g).1 := by
  obtain ⟨rfl, -, path, hd⟩ := h
  intro hn
  have hm : .error (.dependencyCycle path) ∈ (addEach (before ++ (a, b) :: after) g).1 := by
    simp [addEach_append, addEach, hd, Except.map]
  obtain ⟨new, h⟩ := hn _ hm
  cases h

/-- Either all pairs are taken, and the edges at the end are those of the graph and of the pairs; or
some pair is refused. -/
theorem addEach_cases (hg : Acyclic g.edges)
    (hl : ∀ e ∈ pairs, (g.unit? e.1).isSome ∧ (g.unit? e.2).isSome) :
    (Acyclic (g.joined pairs) ∧ NoneFails (addEach pairs g).1 ∧
      ∃ edges, (addEach pairs g).2 = { g with edges } ∧ ∀ e, e ∈ edges ↔ e ∈ g.joined pairs) ∨
    (¬ Acyclic (g.joined pairs) ∧ ∃ before after a b, g.FailsAt pairs before after a b) := by
  induction pairs generalizing g with
  | nil =>
    have hj : g.joined [] = g.edges := List.append_nil _
    rw [hj]
    exact .inl ⟨hg, by simp [NoneFails, addEach], g.edges, rfl, fun _ => Iff.rfl⟩
  | cons e rest ih =>
    obtain ⟨a, b⟩ := e
    obtain ⟨⟨ha, hb⟩, hrest⟩ := List.forall_mem_cons.mp hl
    rcases addDependency_cases ha hb with ⟨new, edges, hd, hac, hed⟩ | ⟨path, hd, hne, hr⟩
    · let g₁ : ModuleGraph := { g with edges }
      have hmem (e : UnitId × UnitId) : e ∈ g₁.joined rest ↔ e ∈ g.joined ((a, b) :: rest) := by
        simp only [g₁, mem_joined, hed, List.mem_cons]
        grind
      have hstep (more : List (UnitId × UnitId)) : addEach ((a, b) :: more) g =
          (.ok new :: (addEach more g₁).1, (addEach more g₁).2) := by
        simp only [addEach, hd]
        rfl
      rw [hstep, ← Acyclic.congr hmem]
      rcases ih (g := g₁) (hac hg) hrest with
        ⟨hj, hn, es, hes, he⟩ | ⟨hj, before, after, c, d, rfl, hn, hf⟩
      · refine .inl ⟨hj, List.forall_mem_cons.mpr ⟨⟨new, rfl⟩, hn⟩, es, hes, fun e => ?_⟩
        rw [he, hmem]
      · refine .inr ⟨hj, (a, b) :: before, after, c, d, rfl, ?_⟩
        rw [hstep]
        exact ⟨List.forall_mem_cons.mpr ⟨⟨new, rfl⟩, hn⟩, hf⟩
    · exact .inr ⟨not_acyclic_joined List.mem_cons_self hne hr, [], rest, a, b, rfl,
        by simp [NoneFails, addEach], path, hd⟩

theorem noneFails_iff (hg : Acyclic g.edges)
    (hl : ∀ e ∈ pairs, (g.unit? e.1).isSome ∧ (g.unit? e.2).isSome) :
    NoneFails (addEach pairs g).1 ↔ Acyclic (g.joined pairs) := by
  rcases addEach_cases hg hl with ⟨ha, hn, -⟩ | ⟨ha, before, after, a, b, hf⟩
  · exact iff_of_true hn ha
  · exact iff_of_false hf.not_noneFails ha

theorem addEach_edges (hg : Acyclic g.edges)
    (hl : ∀ e ∈ pairs, (g.unit? e.1).isSome ∧ (g.unit? e.2).isSome)
    (hn : NoneFails (addEach pairs g).1) :
    ∃ edges, (addEach pairs g).2 = { g with edges } ∧ ∀ e, e ∈ edges ↔ e ∈ g.joined pairs := by
  rcases addEach_cases hg hl with ⟨-, -, h⟩ | ⟨-, before, after, a, b, hf⟩
  · exact h
  · exact absurd hn hf.not_noneFails

/-- Pairs of live units can be added in any order. None is refused exactly if they form no cycle
with the old edges, and then the edges at the end are these, and nothing else has changed. If they
close a ring, every order comes to a pair that is refused. -/
theorem addEach_order_irrelevant (hg : g.Reachable)
    (hl : ∀ e ∈ pairs, (g.unit? e.1).isSome ∧ (g.unit? e.2).isSome) :
    (NoneFails (addEach pairs g).1 ↔ Acyclic (g.joined pairs)) ∧
    (NoneFails (addEach pairs g).1 → ∃ edges, (addEach pairs g).2 = { g with edges } ∧
      ∀ e, e ∈ edges ↔ e ∈ g.edges ∨ e ∈ pairs ∧ e.1 ≠ e.2) ∧
    ∀ pairs', pairs.Perm pairs' →
      (NoneFails (addEach pairs g).1 ↔ NoneFails (addEach pairs' g).1) ∧
      (NoneFails (addEach pairs g).1 →
        ∀ e, e ∈ (addEach pairs g).2.edges ↔ e ∈ (addEach pairs' g).2.edges) ∧
      ∀ first others, IsRing (g.joined pairs) first others →
        ∃ before after a b, g.FailsAt pairs' before after a b := by
  have hac := hg.soundEdges.acyclic
  refine ⟨noneFails_iff hac hl, fun hn => ?_, fun pairs' hp => ?_⟩
  · obtain ⟨edges, heq, he⟩ := addEach_edges hac hl hn
    exact ⟨edges, heq, fun e => (he e).trans mem_joined⟩
  · have hl' : ∀ e ∈ pairs', (g.unit? e.1).isSome ∧ (g.unit? e.2).isSome :=
      fun e he => hl e (hp.mem_iff.mpr he)
    have hjoined : Acyclic (g.joined pairs) ↔ Acyclic (g.joined pairs') :=
      Acyclic.congr (mem_joined_perm hp)
    have hsame : NoneFails (addEach pairs g).1 ↔ NoneFails (addEach pairs' g).1 := by
      rw [noneFails_iff hac hl, noneFails_iff hac hl', hjoined]
    refine ⟨hsame, fun hn e => ?_, fun first others hring => ?_⟩
    · obtain ⟨edges, heq, he⟩ := addEach_edges hac hl hn
      obtain ⟨edges', heq', he'⟩ := addEach_edges hac hl' (hsame.mp hn)
      rw [heq, heq']
      exact (he e).trans ((mem_joined_perm hp e).trans (he' e).symm)
    · rcases addEach_cases hac hl' with ⟨ha, -⟩ | ⟨-, hf⟩
      · exact absurd (hjoined.mpr ha) hring.not_acyclic
      · exact hf

theorem gappedLine_addEach :
    (addEach [(0, 2), (0, 0), (3, 4)] gappedLine).1 = [.ok true, .ok false, .ok true] ∧
    NoneFails (addEach [(3, 4), (0, 0), (0, 2)] gappedLine).1 ∧
    (∀ e, e ∈ (addEach [(0, 2), (0, 0), (3, 4)] gappedLine).2.edges ↔
      e ∈ (addEach [(3, 4), (0, 0), (0, 2)] gappedLine).2.edges) ∧
    ∃ before after a b, gappedLine.FailsAt [(0, 2), (4, 3)] before after a b := by
  have hg : gappedLine.Reachable := ⟨{}, _, rfl⟩
  have hedges : gappedLine.edges = [(2, 4), (3, 2), (0, 3)] := by decide +kernel
  have ho : (addEach [(0, 2), (0, 0), (3, 4)] gappedLine).1 = [.ok true, .ok false, .ok true] := by
    decide +kernel
  have hn : NoneFails (addEach [(0, 2), (0, 0), (3, 4)] gappedLine).1 := by
    simp [ho, NoneFails]
  have hline : ∀ e ∈ [((0, 2) : UnitId × UnitId), (0, 0), (3, 4)],
      (gappedLine.unit? e.1).isSome ∧ (gappedLine.unit? e.2).isSome := by decide +kernel
  have hround : ∀ e ∈ [((4, 3) : UnitId × UnitId), (0, 2)],
      (gappedLine.unit? e.1).isSome ∧ (gappedLine.unit? e.2).isSome := by decide +kernel
  obtain ⟨-, -, horder⟩ := addEach_order_irrelevant hg hline
  obtain ⟨hsame, hmem, -⟩ := horder [(3, 4), (0, 0), (0, 2)] (by decide)
  obtain ⟨-, -, hring⟩ := addEach_order_irrelevant hg hround
  obtain ⟨-, -, hfails⟩ := hring [(0, 2), (4, 3)] (by decide)
  refine ⟨ho, hsame.mp hn, hmem hn, hfails 3 [2, 4] ?_⟩
  simp [IsRing, Leads, joined, hedges]

end ComponentCompiler.ModuleGraph
