import ComponentCompiler.Graph.Manifest
import ComponentCompiler.Proofs.Graph.CompileOrder
import ComponentCompiler.Proofs.Graph.Loading
import Mathlib.Data.List.Nodup

namespace ComponentCompiler

theorem zipIdx_map_some {α : Type} (xs : List α) :
    xs.zipIdx.map (fun p => (some p.1, p.2)) =
      (List.range xs.length).map fun i => (xs[i]?, i) := by
  apply List.ext_getElem
  · simp
  · intro i hi _
    have hi : i < xs.length := by simpa using hi
    simp [hi]

namespace ModuleGraph

variable {g g' : ModuleGraph} {k : UnitId} {u : ModuleUnit} {n : Nat}

theorem units_eq (g : ModuleGraph) :
    g.units = (List.range g.slots.size).filterMap fun k => (g.unit? k).map fun u => (k, u) := by
  have h := congrArg (List.filterMap fun p : Option (Option ModuleUnit) × Nat =>
    p.1.join.map fun u => (p.2, u)) (zipIdx_map_some g.slots.toList)
  simpa [List.filterMap_map, Function.comp_def, units, unit?] using h

theorem unitIds_eq (g : ModuleGraph) :
    g.unitIds = (List.range g.slots.size).filter fun k => (g.unit? k).isSome := by
  rw [unitIds, units_eq, List.map_filterMap, ← List.filterMap_eq_filter]
  refine congrArg (List.filterMap · _) (funext fun k => ?_)
  cases h : g.unit? k <;> simp [Option.guard, h]

theorem unitIds_increasing (g : ModuleGraph) : g.unitIds.Pairwise (· < ·) := by
  rw [unitIds_eq]
  exact List.pairwise_lt_range.filter _

theorem nodup_unitIds (g : ModuleGraph) : g.unitIds.Nodup :=
  g.unitIds_increasing.nodup

theorem unitIds_congr (hs : g'.slots.size = g.slots.size)
    (hl : ∀ k, (g'.unit? k).isSome = (g.unit? k).isSome) : g'.unitIds = g.unitIds := by
  rw [unitIds_eq, unitIds_eq, hs]
  simp only [hl]

theorem mem_units : (k, u) ∈ g.units ↔ g.unit? k = some u := by
  rw [units_eq, List.mem_filterMap]
  constructor
  · rintro ⟨i, -, hi⟩
    obtain ⟨v, hv, he⟩ := Option.map_eq_some_iff.mp hi
    cases he
    exact hv
  · intro hu
    exact ⟨k, List.mem_range.mpr (lt_size_of_unit? hu), by rw [hu, Option.map_some]⟩

theorem getElem?_units :
    g.units[n]? = some (k, u) ↔ g.unitIds[n]? = some k ∧ g.unit? k = some u := by
  rw [unitIds, List.getElem?_map]
  constructor
  · intro h
    exact ⟨by rw [h, Option.map_some], mem_units.mp (List.mem_of_getElem? h)⟩
  · rintro ⟨h, hu⟩
    obtain ⟨⟨i, v⟩, hv, rfl⟩ := Option.map_eq_some_iff.mp h
    cases hu.symm.trans (mem_units.mp (List.mem_of_getElem? hv))
    exact hv

theorem ordinal?_eq_some : g.ordinal? k = some n ↔ g.unitIds[n]? = some k := by
  rw [ordinal?, List.idxOf?_eq_some_iff, List.getElem?_eq_some_iff]
  refine exists_congr fun hn => and_iff_left_of_imp ?_
  rintro rfl j hj he
  exact hj.ne ((nodup_unitIds g).getElem_inj_iff.mp he)

theorem idxOf_unitIds (h : g.unitIds[n]? = some k) : g.unitIds.idxOf k = n := by
  obtain ⟨hn, rfl⟩ := List.getElem?_eq_some_iff.mp h
  exact (nodup_unitIds g).idxOf_getElem n hn

theorem getElem?_idxOf_unitIds (hu : g.unit? k = some u) :
    g.unitIds[g.unitIds.idxOf k]? = some k :=
  List.getElem?_idxOf (mem_unitIds.mpr (Option.isSome_of_eq_some hu))

/-- Units are numbered in the order of their places. -/
theorem idxOf_unitIds_lt {l : UnitId} (hk : k ∈ g.unitIds) (hl : l ∈ g.unitIds) (h : k < l) :
    g.unitIds.idxOf k < g.unitIds.idxOf l := by
  have hpairs := List.pairwise_iff_getElem.mp (unitIds_increasing g)
  apply Nat.lt_of_not_le
  intro hle
  cases Nat.lt_or_eq_of_le hle with
  | inl hlt =>
    have hback := hpairs _ _ (List.idxOf_lt_length_of_mem hl) (List.idxOf_lt_length_of_mem hk) hlt
    rw [List.getElem_idxOf, List.getElem_idxOf] at hback
    exact Nat.lt_asymm h hback
  | inr heq => exact h.ne ((List.idxOf_inj hl).mp heq).symm

theorem ordinal?_of_unit? (hu : g.unit? k = some u) :
    g.ordinal? k = some (g.unitIds.idxOf k) :=
  ordinal?_eq_some.mpr (getElem?_idxOf_unitIds hu)

end ModuleGraph

end ComponentCompiler
