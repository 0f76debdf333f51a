import ComponentCompiler.Graph.Search
import Mathlib.Data.List.Chain
import Mathlib.Logic.Relation

namespace ComponentCompiler.Search

open Relation

variable {next : Nat → List Nat} {edges : List (Nat × Nat)} {goal : Nat}

/-- The number of edges that leave nodes not seen so far. -/
def unseen (edges : List (Nat × Nat)) (seen : List Nat) : Nat :=
  edges.countP fun e => !seen.contains e.1

def Follows (next : Nat → List Nat) (edges : List (Nat × Nat)) : Prop :=
  ∀ n, (next n).length = edges.countP fun e => e.1 == n

theorem unseen_le (edges : List (Nat × Nat)) (seen : List Nat) :
    unseen edges seen ≤ edges.length :=
  List.countP_le_length

theorem unseen_anti {seen seen' : List Nat} (h : seen ⊆ seen') :
    unseen edges seen' ≤ unseen edges seen := by
  apply List.countP_mono_left
  intro e _ he
  have hn : e.1 ∉ seen' := by simpa using he
  simpa using fun hm => hn (h hm)

theorem countP_add_unseen {n : Nat} {seen : List Nat} (hn : n ∉ seen) :
    (edges.countP fun e => e.1 == n) + unseen edges (n :: seen) = unseen edges seen := by
  unfold unseen
  induction edges with
  | nil => rfl
  | cons e edges ih =>
    simp only [List.countP_cons]
    by_cases he : e.1 = n
    · have hc : (e.1 == n) = true := by simp [he]
      have ha : (n :: seen).contains e.1 = true := by simp [he]
      have hb : seen.contains e.1 = false := by simpa [he] using hn
      simp only [hc, ha, hb, Bool.not_true, Bool.false_eq_true, Bool.not_false, ↓reduceIte]
      omega
    · have hs : (n :: seen).contains e.1 = seen.contains e.1 := by simp [he]
      simp only [beq_iff_eq, he, hs, ↓reduceIte]
      omega

/-- Entering a node trades the edges that leave it for as many nodes to look at. -/
theorem length_next_add_unseen (hf : Follows next edges) {n : Nat} {seen : List Nat}
    (hn : n ∉ seen) : (next n).length + unseen edges (n :: seen) = unseen edges seen := by
  rw [hf n]
  exact countP_add_unseen hn

/-- What a search without a result has entered is closed: it holds the nodes looked at and, for
every node entered, the next ones, and the goal is not among them. -/
structure Exhausted (next : Nat → List Nat) (goal : Nat) (pending seen seen' : List Nat) :
    Prop where
  grows : seen ⊆ seen'
  covers : pending ⊆ seen'
  misses : goal ∉ pending
  closed : ∀ n ∈ seen', n ∉ seen → n ≠ goal ∧ goal ∉ next n ∧ next n ⊆ seen'

theorem Exhausted.enter {n : Nat} {rest seen mid seen' : List Nat} (hg : n ≠ goal)
    (below : Exhausted next goal (next n) (n :: seen) mid)
    (beside : Exhausted next goal rest mid seen') :
    Exhausted next goal (n :: rest) seen seen' := by
  have hn : n ∈ seen' := beside.grows (below.grows (by simp))
  refine ⟨?_, ?_, ?_, ?_⟩
  · exact fun m hm => beside.grows (below.grows (by simp [hm]))
  · exact List.cons_subset.mpr ⟨hn, beside.covers⟩
  · simpa [Ne.symm hg] using beside.misses
  · intro m hm hs
    by_cases hmid : m ∈ mid
    · by_cases he : m = n
      · subst he
        exact ⟨hg, below.misses, fun k hk => beside.grows (below.covers hk)⟩
      · obtain ⟨h1, h2, h3⟩ := below.closed m hmid (by simp [he, hs])
        exact ⟨h1, h2, fun k hk => beside.grows (h3 hk)⟩
    · exact beside.closed m hm hmid

theorem pathFrom_none (hf : Follows next edges) {fuel : Nat} {pending seen seen' : List Nat}
    (hfuel : pending.length + unseen edges seen < fuel)
    (h : pathFrom next goal fuel pending seen = (none, seen')) :
    Exhausted next goal pending seen seen' := by
  fun_induction pathFrom next goal fuel pending seen generalizing seen' with
  | case1 => omega
  | case2 fuel seen =>
    cases h
    exact ⟨fun _ hm => hm, by simp, by simp, fun n hn hs => absurd hn hs⟩
  | case3 fuel rest seen => simp at h
  | case4 fuel n rest seen hg hs ih =>
    have hn : n ∈ seen := by simpa using hs
    have hr := ih (by simp only [List.length_cons] at hfuel; omega) h
    exact ⟨hr.grows, List.cons_subset.mpr ⟨hr.grows hn, hr.covers⟩,
      by simpa [Ne.symm hg] using hr.misses, hr.closed⟩
  | case5 fuel n rest seen hg hs path below hb ih => simp at h
  | case6 fuel n rest seen hg hs mid hb ihb ihr =>
    have hn : n ∉ seen := by simpa using hs
    have hu := length_next_add_unseen hf hn
    simp only [List.length_cons] at hfuel
    have below := ihb (by omega) hb
    have hm : unseen edges mid ≤ unseen edges (n :: seen) := unseen_anti below.grows
    exact below.enter hg (ihr (by omega) h)

theorem pathFrom_some {fuel : Nat} {pending seen seen' path : List Nat}
    (h : pathFrom next goal fuel pending seen = (some path, seen')) :
    ∃ n rest, path = n :: rest ∧ n ∈ pending ∧ path.IsChain (fun a b => b ∈ next a) ∧
      path.getLast? = some goal := by
  fun_induction pathFrom next goal fuel pending seen generalizing path seen' with
  | case1 | case2 => simp at h
  | case3 fuel rest seen =>
    cases h
    exact ⟨goal, [], rfl, by simp, by simp, rfl⟩
  | case4 fuel n rest seen hg hs ih =>
    obtain ⟨m, tail, hp, hm, hc⟩ := ih h
    exact ⟨m, tail, hp, by simp [hm], hc⟩
  | case5 fuel n rest seen hg hs path below hb ih =>
    cases h
    obtain ⟨m, tail, rfl, hm, hc, hl⟩ := ih hb
    exact ⟨n, m :: tail, rfl, by simp, List.isChain_cons_cons.mpr ⟨hm, hc⟩, by simpa using hl⟩
  | case6 fuel n rest seen hg hs mid hb ihb ihr =>
    obtain ⟨m, tail, hp, hm, hc⟩ := ihr h
    exact ⟨m, tail, hp, by simp [hm], hc⟩

theorem path?_some {fuel start : Nat} {path : List Nat}
    (h : path? next fuel start goal = some path) :
    path.head? = some start ∧ path.IsChain (fun a b => b ∈ next a) ∧
      path.getLast? = some goal := by
  unfold path? at h
  split at h
  · next hs =>
    cases h
    exact ⟨rfl, by simp, by simp [hs]⟩
  · obtain ⟨tail, ht, rfl⟩ := Option.map_eq_some_iff.mp h
    obtain ⟨m, rest, rfl, hm, hc, hl⟩ := pathFrom_some (Prod.ext ht rfl)
    exact ⟨rfl, List.isChain_cons_cons.mpr ⟨hm, hc⟩, by simpa using hl⟩

theorem subset_pathFrom {fuel : Nat} {pending seen seen' : List Nat} {found : Option (List Nat)}
    (h : pathFrom next goal fuel pending seen = (found, seen')) : seen ⊆ seen' := by
  fun_induction pathFrom next goal fuel pending seen generalizing found seen' with
  | case1 | case2 | case3 =>
    cases h
    exact fun _ hm => hm
  | case4 fuel n rest seen hg hs ih => exact ih h
  | case5 fuel n rest seen hg hs path below hb ih =>
    cases h
    exact fun m hm => ih hb (by simp [hm])
  | case6 fuel n rest seen hg hs mid hb ihb ihr =>
    exact fun m hm => ihr h (ihb hb (by simp [hm]))

/-- All nodes on the path but the goal are entered for it, so none is on it twice. -/
theorem pathFrom_nodup {fuel : Nat} {pending seen seen' path : List Nat}
    (h : pathFrom next goal fuel pending seen = (some path, seen')) :
    path.Nodup ∧ ∀ m ∈ path, m ≠ goal → m ∉ seen := by
  fun_induction pathFrom next goal fuel pending seen generalizing path seen' with
  | case1 | case2 => simp at h
  | case3 fuel rest seen =>
    cases h
    simp
  | case4 fuel n rest seen hg hs ih => exact ih h
  | case5 fuel n rest seen hg hs path below hb ih =>
    cases h
    obtain ⟨hnodup, hnew⟩ := ih hb
    have hn : n ∉ path := fun hm => hnew n hm hg (by simp)
    refine ⟨List.nodup_cons.mpr ⟨hn, hnodup⟩, ?_⟩
    intro m hm hmg
    rcases List.mem_cons.mp hm with rfl | hm
    · simpa using hs
    · exact fun hseen => hnew m hm hmg (by simp [hseen])
  | case6 fuel n rest seen hg hs mid hb ihb ihr =>
    obtain ⟨hnodup, hnew⟩ := ihr h
    refine ⟨hnodup, fun m hm hmg hseen => hnew m hm hmg ?_⟩
    exact subset_pathFrom hb (by simp [hseen])

theorem path?_nodup {fuel start : Nat} {path : List Nat}
    (h : path? next fuel start goal = some path) : path.Nodup := by
  unfold path? at h
  split at h
  · cases h
    simp
  · next hs =>
    obtain ⟨tail, ht, rfl⟩ := Option.map_eq_some_iff.mp h
    obtain ⟨hnodup, hnew⟩ := pathFrom_nodup (Prod.ext ht rfl)
    exact List.nodup_cons.mpr ⟨fun hm => hnew start hm hs (by simp), hnodup⟩

theorem reaches_of_path? {fuel start : Nat} {path : List Nat}
    (h : path? next fuel start goal = some path) :
    ReflTransGen (fun a b => b ∈ next a) start goal := by
  obtain ⟨hh, hc, hl⟩ := path?_some h
  cases path with
  | nil => simp at hh
  | cons a rest =>
    cases Option.some.inj hh
    exact List.relationReflTransGen_of_exists_isChain_cons rest hc
      (by simpa [List.getLast?_eq_some_getLast] using hl)

theorem path?_none (hf : Follows next edges) {fuel start : Nat} (hfuel : edges.length < fuel)
    (h : path? next fuel start goal = none) :
    ¬ ReflTransGen (fun a b => b ∈ next a) start goal := by
  unfold path? at h
  split at h
  · simp at h
  · next hs =>
    have hu : (next start).length + unseen edges [start] = unseen edges [] :=
      length_next_add_unseen hf (by simp)
    have hle := unseen_le edges []
    have he := pathFrom_none hf (by omega) (Prod.ext (Option.map_eq_none_iff.mp h) rfl)
    -- everything reached from `start` stays among the nodes entered, and the goal is none of them
    intro hr
    have hin : ∀ n, ReflTransGen (fun a b => b ∈ next a) start n →
        n ∈ (pathFrom next goal fuel (next start) [start]).2 ∧ n ≠ goal := by
      intro n hn
      induction hn with
      | refl => exact ⟨he.grows (by simp), hs⟩
      | @tail a b _ hb ih =>
        by_cases ha : a = start
        · subst ha
          exact ⟨he.covers hb, fun hg => he.misses (hg ▸ hb)⟩
        · obtain ⟨_, hg, hc⟩ := he.closed a ih.1 (by simpa using ha)
          exact ⟨hc hb, fun hbg => hg (hbg ▸ hb)⟩
    exact (hin goal hr).2 rfl

/-- With fuel for all edges, there is a result exactly for a goal that is reached. -/
theorem path?_isSome_iff (hf : Follows next edges) {fuel start : Nat}
    (hfuel : edges.length < fuel) :
    (path? next fuel start goal).isSome ↔ ReflTransGen (fun a b => b ∈ next a) start goal := by
  cases h : path? next fuel start goal with
  | none => simpa using path?_none hf hfuel h
  | some path => simpa using reaches_of_path? h

end ComponentCompiler.Search
