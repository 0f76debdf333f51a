import ComponentCompiler.Proofs.Ast.Ancestors
import ComponentCompiler.Proofs.Graph.Acyclic

namespace ComponentCompiler

/-- The loop ends with an answer: each round gives the next state, and the last one the answer. -/
inductive EndsWith {σ α : Type} (round : σ → σ ⊕ α) : σ → α → Prop
  | done {s : σ} {a : α} (h : round s = .inr a) : EndsWith round s a
  | next {s s' : σ} {a : α} (h : round s = .inl s') (h' : EndsWith round s' a) :
      EndsWith round s a

theorem EndsWith.unique {σ α : Type} {round : σ → σ ⊕ α} {s : σ} {a b : α}
    (ha : EndsWith round s a) (hb : EndsWith round s b) : a = b := by
  induction ha with
  | done h =>
    cases hb with
    | done h' => exact Sum.inr.inj (h.symm.trans h')
    | next h' _ => cases h.symm.trans h'
  | next h _ ih =>
    cases hb with
    | done h' => cases h.symm.trans h'
    | next h' hb =>
      cases h.symm.trans h'
      exact ih hb

theorem EndsWith.iff_eq {σ α : Type} {round : σ → σ ⊕ α} {s : σ} {a b : α}
    (h : EndsWith round s a) : EndsWith round s b ↔ b = a :=
  ⟨fun hb => hb.unique h, fun he => he ▸ h⟩

namespace Cst.Tree

def errorRound : List Tree → List Tree ⊕ Option Head
  | [] => .inr none
  | t :: stack => if t.isError then .inr t.head? else .inl (t.children ++ stack)

mutual

theorem endsWith_firstError? : (t : Tree) → {stack : List Tree} → {found : Option Head} →
    EndsWith errorRound stack found → EndsWith errorRound (t :: stack) (t.firstError?.or found)
  | .missing, _, _, h => .next rfl h
  | .node head slots, stack, _, h => by
    unfold firstError?
    split
    · next he => exact .done (if_pos (beq_iff_eq.mpr (congrArg some he)))
    · next he =>
      have hround : errorRound (.node head slots :: stack) =
          .inl (slots.filter isPresent ++ stack) :=
        if_neg fun hb => he (Option.some.inj (beq_iff_eq.mp hb))
      exact .next hround (endsWith_firstErrorIn? slots h)

theorem endsWith_firstErrorIn? : (ts : List Tree) → {stack : List Tree} →
    {found : Option Head} → EndsWith errorRound stack found →
    EndsWith errorRound (ts.filter isPresent ++ stack) ((firstErrorIn? ts).or found)
  | [], _, _, h => h
  | .missing :: rest, _, _, h => endsWith_firstErrorIn? rest h
  | .node head slots :: rest, _, _, h => by
    have hfirst := endsWith_firstError? (.node head slots) (endsWith_firstErrorIn? rest h)
    unfold firstErrorIn?
    cases hf : firstError? (.node head slots) with
    | some e => rwa [hf] at hfirst
    | none => rwa [hf] at hfirst

end

/-- The loop over a stack finds the error node that comes first in document order. -/
theorem errorRound_endsWith_iff (t : Tree) {found : Option Head} :
    EndsWith errorRound [t] found ↔ found = t.firstError? := by
  have hempty : EndsWith errorRound [] none := .done rfl
  have h := t.endsWith_firstError? hempty
  rw [Option.or_none] at h
  exact h.iff_eq

end Cst.Tree

namespace Ast

variable {ast : Ast} {id : NodeId} {stack out : List NodeId} {found : List NodeId}

def descendRound (ast : Ast) :
    List NodeId × List NodeId → (List NodeId × List NodeId) ⊕ List NodeId
  | ([], out) => .inr out
  | (id :: stack, out) => .inl (ast.children id ++ stack, out ++ [id])

/-- Ids grow towards the leaves, so the bound on the depth cuts nothing off. -/
theorem endsWith_below (hl : ast.Linked) {depth : Nat} (hd : ast.size ≤ id + depth)
    (h : EndsWith ast.descendRound (stack, out ++ ast.below depth id) found) :
    EndsWith ast.descendRound (id :: stack, out) found := by
  induction depth generalizing id stack out with
  | zero =>
    have hnode : ast.node? id = none := node?_eq_none hd
    have hnone : ast.children id = [] := by
      rw [children, hnode]
      rfl
    refine .next rfl ?_
    rw [hnone]
    exact h
  | succ depth ih =>
    refine .next rfl ?_
    have hall (ids : List NodeId) (hids : ∀ c ∈ ids, ast.Up c id) (out : List NodeId)
        (h : EndsWith ast.descendRound (stack, out ++ ids.flatMap (ast.below depth)) found) :
        EndsWith ast.descendRound (ids ++ stack, out) found := by
      induction ids generalizing out with
      | nil => simpa using h
      | cons c ids ihids =>
        have hc : ast.size ≤ c + depth :=
          Nat.le_trans hd (hl.step_le (hids c List.mem_cons_self) depth)
        refine ih hc (ihids (fun x hx => hids x (List.mem_cons_of_mem c hx)) _ ?_)
        simpa using h
    refine hall _ (fun c hc => (mem_children hl).mp hc) _ ?_
    simpa [below] using h

/-- The loop over a stack lists a node and all those below it, each before its children. -/
theorem descendRound_endsWith_iff (hl : ast.Linked) (id : NodeId) :
    EndsWith ast.descendRound ([id], []) found ↔ found = ast.descendants id := by
  have hd : ast.size ≤ id + ast.size := Nat.le_add_left _ _
  exact (endsWith_below hl hd (.done rfl)).iff_eq

end Ast

namespace Search

/-- Where a search stands: the nodes entered so far, the way from the start to the last one, which
comes first, and for each node on it the next ones that are still to be tried. -/
structure Trail where
  entered : List Nat
  way : List Nat
  pending : List (List Nat)

def pathRound (next : Nat → List Nat) (goal : Nat) : Trail → Trail ⊕ Option (List Nat)
  | ⟨_, _, []⟩ => .inr none
  | ⟨entered, way, [] :: pending⟩ => .inl ⟨entered, way.tail, pending⟩
  | ⟨entered, way, (n :: rest) :: pending⟩ =>
    if n = goal then
      .inr (some (n :: way).reverse)
    else if entered.contains n then
      .inl ⟨entered, way, rest :: pending⟩
    else
      .inl ⟨n :: entered, n :: way, next n :: rest :: pending⟩

variable {next : Nat → List Nat} {edges : List (Nat × Nat)} {goal start fuel : Nat}
  {seen seen' nodes way : List Nat} {pending : List (List Nat)} {found : Option (List Nat)}

theorem pathRound_seen {n : Nat} (hg : ¬ n = goal) (hs : seen.contains n = true)
    (rest : List Nat) : pathRound next goal ⟨seen, way, (n :: rest) :: pending⟩ =
      .inl ⟨seen, way, rest :: pending⟩ := by
  simp only [pathRound, if_neg hg, if_pos hs]

theorem pathRound_enter {n : Nat} (hg : ¬ n = goal) (hs : ¬ seen.contains n = true)
    (rest : List Nat) : pathRound next goal ⟨seen, way, (n :: rest) :: pending⟩ =
      .inl ⟨n :: seen, n :: way, next n :: rest :: pending⟩ := by
  simp only [pathRound, if_neg hg, if_neg hs]

theorem endsWith_of_pathFrom_none (hf : Follows next edges)
    (hfuel : nodes.length + unseen edges seen < fuel)
    (h : pathFrom next goal fuel nodes seen = (none, seen'))
    (hrest : EndsWith (pathRound next goal) ⟨seen', way.tail, pending⟩ found) :
    EndsWith (pathRound next goal) ⟨seen, way, nodes :: pending⟩ found := by
  fun_induction pathFrom next goal fuel nodes seen generalizing seen' way pending with
  | case1 => omega
  | case2 fuel seen =>
    cases h
    exact .next rfl hrest
  | case3 fuel rest seen => cases h
  | case4 fuel n rest seen hg hs ih =>
    simp only [List.length_cons] at hfuel
    exact .next (pathRound_seen hg hs rest) (ih (by omega) h hrest)
  | case5 fuel n rest seen hg hs path below hb ih => cases h
  | case6 fuel n rest seen hg hs mid hb ihb ihr =>
    have hu := length_next_add_unseen hf (by simpa using hs : n ∉ seen)
    have hm : unseen edges mid ≤ unseen edges (n :: seen) := unseen_anti (subset_pathFrom hb)
    simp only [List.length_cons] at hfuel
    exact .next (pathRound_enter hg hs rest) (ihb (by omega) hb (ihr (by omega) h hrest))

theorem endsWith_of_pathFrom_some (hf : Follows next edges) {path : List Nat}
    (hfuel : nodes.length + unseen edges seen < fuel)
    (h : pathFrom next goal fuel nodes seen = (some path, seen')) :
    EndsWith (pathRound next goal) ⟨seen, way, nodes :: pending⟩
      (some (way.reverse ++ path)) := by
  fun_induction pathFrom next goal fuel nodes seen generalizing seen' way pending path with
  | case1 => omega
  | case2 fuel seen => cases h
  | case3 fuel rest seen =>
    cases h
    refine .done ?_
    rw [pathRound, if_pos rfl, List.reverse_cons]
  | case4 fuel n rest seen hg hs ih =>
    simp only [List.length_cons] at hfuel
    exact .next (pathRound_seen hg hs rest) (ih (by omega) h)
  | case5 fuel n rest seen hg hs path below hb ih =>
    cases h
    have hu := length_next_add_unseen hf (by simpa using hs : n ∉ seen)
    simp only [List.length_cons] at hfuel
    have hbelow : EndsWith (pathRound next goal) ⟨n :: seen, n :: way, next n :: rest :: pending⟩
        (some ((n :: way).reverse ++ path)) := ih (by omega) hb
    rw [List.reverse_cons, List.append_assoc] at hbelow
    exact .next (pathRound_enter hg hs rest) hbelow
  | case6 fuel n rest seen hg hs mid hb ihb ihr =>
    have hu := length_next_add_unseen hf (by simpa using hs : n ∉ seen)
    have hm : unseen edges mid ≤ unseen edges (n :: seen) := unseen_anti (subset_pathFrom hb)
    simp only [List.length_cons] at hfuel
    refine .next (pathRound_enter hg hs rest) ?_
    exact endsWith_of_pathFrom_none hf (by omega) hb (ihr (by omega) h)

end Search

namespace ModuleGraph

/-- The loop over a stack finds the path that a dependency would close to a cycle. A unit is its own
path, and the loop is not entered for it. -/
theorem pathRound_endsWith_iff (g : ModuleGraph) (start goal : UnitId) (hne : start ≠ goal)
    {found : Option (List UnitId)} :
    EndsWith (Search.pathRound g.next goal) ⟨[start], [start], [g.next start]⟩ found ↔
      found = g.path? start goal := by
  have hlen : (g.next start).length + Search.unseen g.edges [start] < g.searchFuel := by
    rw [Search.length_next_add_unseen (follows_next g) List.not_mem_nil]
    exact Nat.lt_of_le_of_lt (Search.unseen_le _ _) g.length_edges_lt_searchFuel
  rw [path?, Search.path?, if_neg hne]
  cases h : Search.pathFrom g.next goal g.searchFuel (g.next start) [start] with
  | mk result seen =>
    cases result with
    | none => exact (Search.endsWith_of_pathFrom_none (follows_next g) hlen h (.done rfl)).iff_eq
    | some path => exact (Search.endsWith_of_pathFrom_some (follows_next g) hlen h).iff_eq

end ModuleGraph

end ComponentCompiler
