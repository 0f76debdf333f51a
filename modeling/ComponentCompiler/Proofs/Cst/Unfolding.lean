import ComponentCompiler.Cst.Table
import Mathlib.Data.Set.Card
import Mathlib.Logic.Relation

namespace ComponentCompiler

theorem mapM_eq_some_iff {α β : Type} {f : α → Option β} {xs : List α} {ys : List β} :
    xs.mapM f = some ys ↔ xs.map f = ys.map some := by
  induction xs generalizing ys with
  | nil => cases ys <;> simp
  | cons x xs ih =>
    rw [List.mapM_cons, List.map_cons]
    cases hx : f x with
    | none => cases ys <;> simp
    | some y =>
      cases ys with
      | nil => cases hxs : xs.mapM f <;> simp
      | cons y' ys =>
        rw [List.map_cons, List.cons.injEq, Option.some.injEq, ← ih]
        cases hxs : xs.mapM f <;> simp

theorem mapM_eq_some_map {α β : Type} {f : α → Option β} {g : α → β} {xs : List α}
    (h : ∀ x ∈ xs, f x = some (g x)) : xs.mapM f = some (xs.map g) := by
  rw [mapM_eq_some_iff, List.map_map]
  exact List.map_congr_left h

namespace Cst.Table

open Relation

variable {t : Table} {depth i j : Nat} {e : Entry} {s root : Tree} {slots : List Tree}

def Lists (t : Table) (i j : Nat) : Prop :=
  ∃ e, t.entries[i]? = some e ∧ j ∈ e.children

structure Reached (t : Table) (i : Nat) (e : Entry) : Prop where
  path : ReflTransGen t.Lists t.root i
  entry : t.entries[i]? = some e

/-- No entry that the root leads to leads back to itself. -/
def Acyclic (t : Table) : Prop :=
  ∀ i, ReflTransGen t.Lists t.root i → ¬ TransGen t.Lists i i

theorem treeAt?_of_none (hi : t.entries[i]? = none) (depth : Nat) :
    t.treeAt? depth i = some .missing := by
  unfold treeAt?
  rw [hi]

theorem treeAt?_zero (hi : t.entries[i]? = some e) : t.treeAt? 0 i = none := by
  unfold treeAt?
  rw [hi]

theorem treeAt?_succ (hi : t.entries[i]? = some e) (depth : Nat) :
    t.treeAt? (depth + 1) i = (e.children.mapM (t.treeAt? depth)).map (.node e.head) := by
  rw [treeAt?.eq_def, hi]

theorem treeAt?_eq_some (hi : t.entries[i]? = some e) (h : t.treeAt? depth i = some s) :
    ∃ d slots, depth = d + 1 ∧ s = .node e.head slots ∧
      e.children.map (t.treeAt? d) = slots.map some := by
  cases depth with
  | zero => simp [treeAt?_zero hi] at h
  | succ d =>
    rw [treeAt?_succ hi, Option.map_eq_some_iff] at h
    obtain ⟨slots, hslots, rfl⟩ := h
    exact ⟨d, slots, rfl, rfl, mapM_eq_some_iff.mp hslots⟩

theorem exists_child_of_slot (h : e.children.map (t.treeAt? depth) = slots.map some)
    (hs : s ∈ slots) : ∃ j ∈ e.children, t.treeAt? depth j = some s := by
  have hmem : some s ∈ e.children.map (t.treeAt? depth) := h ▸ List.mem_map_of_mem hs
  exact List.mem_map.mp hmem

theorem exists_slot_of_child (h : e.children.map (t.treeAt? depth) = slots.map some)
    (hj : j ∈ e.children) : ∃ s ∈ slots, t.treeAt? depth j = some s := by
  have hmem : t.treeAt? depth j ∈ slots.map some := h ▸ List.mem_map_of_mem hj
  obtain ⟨s, hs, he⟩ := List.mem_map.mp hmem
  exact ⟨s, hs, he.symm⟩

/-- What holds of a hole, and of an entry if it holds of its children, holds of each tree that the
root leads to. -/
theorem treeAt?_induct {P : Nat → Tree → Prop} (outside : ∀ i, t.entries[i]? = none → P i .missing)
    (entry : ∀ d i e slots, t.Reached i e → e.children.map (t.treeAt? d) = slots.map some →
      (∀ j ∈ e.children, ∀ s, t.treeAt? d j = some s → P j s) → P i (.node e.head slots))
    (hr : ReflTransGen t.Lists t.root i) (h : t.treeAt? depth i = some s) : P i s := by
  induction depth using Nat.strong_induction_on generalizing i s with
  | _ depth ih =>
    cases hi : t.entries[i]? with
    | none =>
      rw [treeAt?_of_none hi] at h
      cases h
      exact outside i hi
    | some e =>
      obtain ⟨d, slots, rfl, rfl, hslots⟩ := treeAt?_eq_some hi h
      exact entry d i e slots ⟨hr, hi⟩ hslots fun j hj s hs =>
        ih d (Nat.lt_succ_self d) (hr.tail ⟨e, hi, hj⟩) hs

def below (t : Table) (i : Nat) : Set Nat :=
  {j | ReflTransGen t.Lists i j ∧ j < t.entries.size}

theorem finite_below : (t.below i).Finite :=
  (Set.finite_lt_nat t.entries.size).subset fun _ hj => hj.2

theorem ncard_below_le : (t.below i).ncard ≤ t.entries.size := by
  have hsub : t.below i ⊆ Finset.range t.entries.size := fun j hj =>
    Finset.mem_coe.mpr (Finset.mem_range.mpr hj.2)
  calc (t.below i).ncard
      ≤ (Finset.range t.entries.size : Set Nat).ncard :=
        Set.ncard_le_ncard hsub (Finset.finite_toSet _)
    _ = t.entries.size := by rw [Set.ncard_coe_finset, Finset.card_range]

theorem mem_below_self (hi : t.entries[i]? = some e) : i ∈ t.below i :=
  ⟨.refl, (Array.getElem?_eq_some_iff.mp hi).1⟩

/-- Without cycles, a child leads to fewer entries. -/
theorem ncard_below_lt (hi : t.entries[i]? = some e) (hj : j ∈ e.children)
    (hcycle : ¬ TransGen t.Lists i i) : (t.below j).ncard < (t.below i).ncard := by
  have hchild : t.Lists i j := ⟨e, hi, hj⟩
  refine Set.ncard_lt_ncard ⟨fun k hk => ⟨.head hchild hk.1, hk.2⟩, fun hsub => ?_⟩ finite_below
  exact hcycle (.head' hchild (hsub (mem_below_self hi)).1)

theorem exists_treeAt? (hcycle : ∀ j, ReflTransGen t.Lists i j → ¬ TransGen t.Lists j j)
    (hdepth : (t.below i).ncard ≤ depth) : ∃ s, t.treeAt? depth i = some s := by
  induction depth generalizing i with
  | zero =>
    have hempty : t.below i = ∅ := (Set.ncard_eq_zero finite_below).mp (Nat.le_zero.mp hdepth)
    cases hi : t.entries[i]? with
    | none => exact ⟨.missing, treeAt?_of_none hi 0⟩
    | some e => exact absurd (mem_below_self hi) (hempty ▸ Set.notMem_empty i)
  | succ depth ih =>
    cases hi : t.entries[i]? with
    | none => exact ⟨.missing, treeAt?_of_none hi _⟩
    | some e =>
      have hchildren : ∀ j ∈ e.children, ∃ s, t.treeAt? depth j = some s := fun j hj =>
        ih (fun k hk => hcycle k (.head ⟨e, hi, hj⟩ hk))
          (Nat.le_of_lt_succ ((ncard_below_lt hi hj (hcycle i .refl)).trans_le hdepth))
      choose! f hf using hchildren
      refine ⟨.node e.head (e.children.map f), ?_⟩
      rw [treeAt?_succ hi, mapM_eq_some_map hf, Option.map_some]

theorem treeAt?_child (h : t.treeAt? depth i = some s) (hij : t.Lists i j) :
    ∃ d < depth, ∃ s, t.treeAt? d j = some s := by
  obtain ⟨e, hi, hj⟩ := hij
  obtain ⟨d, slots, rfl, -, hslots⟩ := treeAt?_eq_some hi h
  obtain ⟨s, -, hs⟩ := exists_slot_of_child hslots hj
  exact ⟨d, Nat.lt_succ_self d, s, hs⟩

theorem treeAt?_transGen (h : t.treeAt? depth i = some s) (hij : TransGen t.Lists i j) :
    ∃ d < depth, ∃ s, t.treeAt? d j = some s := by
  induction hij with
  | single hij => exact treeAt?_child h hij
  | tail _ hjk ih =>
    obtain ⟨d, hd, s, hs⟩ := ih
    obtain ⟨d', hd', hs'⟩ := treeAt?_child hs hjk
    exact ⟨d', hd'.trans hd, hs'⟩

theorem not_transGen_of_treeAt? (h : t.treeAt? depth i = some s) : ¬ TransGen t.Lists i i := by
  induction depth using Nat.strong_induction_on generalizing s with
  | _ depth ih =>
    intro hcycle
    obtain ⟨d, hd, s', hs'⟩ := treeAt?_transGen h hcycle
    exact ih d hd hs' hcycle

theorem tree?_cases (h : t.tree? = some root) :
    root = .node { kind := "program", span := .empty } [] ∧ t.entries[t.root]? = none ∨
      t.treeAt? t.entries.size t.root = some root := by
  unfold tree? at h
  split at h
  · next hroot => exact .inl ⟨(Option.some.inj h).symm, hroot⟩
  · exact .inr h

/-- What holds of an empty program and of a hole, and of an entry if it holds of its slots, holds of
the tree. -/
theorem tree?_induct {P : Tree → Prop} (empty : P (.node { kind := "program", span := .empty } []))
    (outside : P .missing)
    (entry : ∀ d i e slots, t.Reached i e → e.children.map (t.treeAt? d) = slots.map some →
      (∀ s ∈ slots, P s) → P (.node e.head slots)) (h : t.tree? = some root) : P root := by
  rcases tree?_cases h with ⟨rfl, -⟩ | hroot
  · exact empty
  · refine treeAt?_induct (P := fun _ s => P s) (fun _ _ => outside) ?_ .refl hroot
    intro d i e slots hreach hslots ih
    refine entry d i e slots hreach hslots fun s hs => ?_
    obtain ⟨j, hj, hjs⟩ := exists_child_of_slot hslots hs
    exact ih j hj s hjs

theorem Acyclic.exists_tree (h : t.Acyclic) : ∃ root, t.tree? = some root := by
  unfold tree?
  split
  · exact ⟨_, rfl⟩
  · exact exists_treeAt? h ncard_below_le

/-- The tables without cycles are those that have a tree. -/
theorem isSome_tree?_iff : t.tree?.isSome ↔ t.Acyclic := by
  rw [Option.isSome_iff_exists]
  refine ⟨?_, Acyclic.exists_tree⟩
  rintro ⟨root, h⟩ i hpath hcycle
  cases tree?_cases h with
  | inl hempty =>
    -- nothing is listed at a root outside the table
    have hstart : ∃ j, TransGen t.Lists t.root j := by
      cases reflTransGen_iff_eq_or_transGen.mp hpath with
      | inl he => exact ⟨i, he ▸ hcycle⟩
      | inr hp => exact ⟨i, hp⟩
    obtain ⟨j, hj⟩ := hstart
    obtain ⟨_, ⟨e, he, -⟩, -⟩ := TransGen.head'_iff.mp hj
    cases hempty.2.symm.trans he
  | inr hroot =>
    cases reflTransGen_iff_eq_or_transGen.mp hpath with
    | inl he =>
      subst he
      exact not_transGen_of_treeAt? hroot hcycle
    | inr hp =>
      obtain ⟨d, -, s, hs⟩ := treeAt?_transGen hroot hp
      exact not_transGen_of_treeAt? hs hcycle

theorem acyclic_of_children_lt (h : ∀ i : Fin t.entries.size, ∀ j ∈ t.entries[i].children,
    j < i ∨ t.entries.size ≤ j) : t.Acyclic := by
  have hstep {i j : Nat} (hij : t.Lists i j) :
      i < t.entries.size ∧ (j < i ∨ t.entries.size ≤ j) := by
    obtain ⟨e, he, hj⟩ := hij
    obtain ⟨hi, rfl⟩ := Array.getElem?_eq_some_iff.mp he
    exact ⟨hi, h ⟨i, hi⟩ j hj⟩
  intro i _ hcycle
  have hpath {j : Nat} (hij : TransGen t.Lists i j) :
      i < t.entries.size ∧ (j < i ∨ t.entries.size ≤ j) := by
    induction hij with
    | single hij => exact hstep hij
    | tail _ hjk ih =>
      have hjk := hstep hjk
      omega
  have hback := hpath hcycle
  omega

end Cst.Table

end ComponentCompiler
