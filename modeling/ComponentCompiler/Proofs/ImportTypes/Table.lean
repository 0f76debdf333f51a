import ComponentCompiler.ImportTypes.Collect

namespace ComponentCompiler

namespace Dictionary

variable {α : Type} {d : Dictionary α} {key : String}

def Sorted (d : Dictionary α) : Prop :=
  d.entries.Pairwise fun a b => a.1 < b.1

def mapValues (f : α → α) (d : Dictionary α) : Dictionary α :=
  ⟨d.entries.map fun e => (e.1, f e.2)⟩

theorem key_of_mem_insertIn {value : α} {entries : List (String × α)} {e : String × α}
    (h : e ∈ insertIn key value entries) : e = (key, value) ∨ e ∈ entries := by
  induction entries with
  | nil => simpa [insertIn] using h
  | cons a rest ih =>
    unfold insertIn at h
    split at h
    · simpa using h
    · split at h
      · rcases List.mem_cons.mp h with h | h
        · exact .inl h
        · exact .inr (List.mem_cons_of_mem _ h)
      · rcases List.mem_cons.mp h with h | h
        · exact .inr (h ▸ List.mem_cons_self)
        · exact (ih h).imp_right (List.mem_cons_of_mem _)

theorem sorted_insertIn (value : α) {entries : List (String × α)}
    (h : entries.Pairwise fun a b => a.1 < b.1) :
    (insertIn key value entries).Pairwise fun a b => a.1 < b.1 := by
  induction entries with
  | nil => simp [insertIn]
  | cons a rest ih =>
    obtain ⟨ha, hr⟩ := List.pairwise_cons.mp h
    unfold insertIn
    split
    · next hlt =>
      refine List.pairwise_cons.mpr ⟨fun b hb => ?_, h⟩
      rcases List.mem_cons.mp hb with rfl | hb
      · exact hlt
      · exact String.lt_trans hlt (ha b hb)
    · split
      · next heq => exact List.pairwise_cons.mpr ⟨heq ▸ ha, hr⟩
      · next hnl hne =>
        refine List.pairwise_cons.mpr ⟨fun b hb => ?_, ih hr⟩
        rcases key_of_mem_insertIn hb with rfl | hb
        · -- neither below nor equal, so the new key lies behind this one
          exact Decidable.byContradiction fun hn => hne (String.le_antisymm hn hnl)
        · exact ha b hb

theorem Sorted.insert (h : d.Sorted) (value : α) : (d.insert key value).Sorted :=
  sorted_insertIn value h

theorem sorted_empty : Sorted ({} : Dictionary α) :=
  List.Pairwise.nil

theorem mem_of_lookup {value : α} {entries : List (String × α)}
    (h : entries.lookup key = some value) : (key, value) ∈ entries := by
  obtain ⟨before, behind, rfl, -⟩ := List.lookup_eq_some_iff.mp h
  simp

theorem lookup_of_mem {value : α} {entries : List (String × α)}
    (hs : entries.Pairwise fun a b => a.1 < b.1) (h : (key, value) ∈ entries) :
    entries.lookup key = some value := by
  obtain ⟨before, behind, rfl⟩ := List.append_of_mem h
  refine List.lookup_eq_some_iff.mpr ⟨before, behind, rfl, fun e he => ?_⟩
  have hlt : e.1 < key := (List.pairwise_append.mp hs).2.2 e he (key, value) (by simp)
  have hne : key ≠ e.1 := fun heq => String.lt_irrefl key (heq ▸ hlt)
  simpa using hne

theorem insertIn_eq_map {old value : α} {entries : List (String × α)}
    (hs : entries.Pairwise fun a b => a.1 < b.1) (h : entries.lookup key = some old) :
    insertIn key value entries = entries.map fun e => if e.1 = key then (e.1, value) else e := by
  induction entries with
  | nil => simp at h
  | cons a rest ih =>
    obtain ⟨k, v⟩ := a
    obtain ⟨ha, hr⟩ := List.pairwise_cons.mp hs
    by_cases hk : k = key
    · subst hk
      have hrest : rest.map (fun e => if e.1 = k then (e.1, value) else e) = rest := by
        have hc : rest.map (fun e => if e.1 = k then (e.1, value) else e) = rest.map id := by
          apply List.map_congr_left
          intro e he
          have hne : e.1 ≠ k := fun heq => String.lt_irrefl k (heq ▸ ha e he)
          simp [hne]
        rw [hc, List.map_id]
      simp [insertIn, hrest]
    · have hm : (key == k) = false := by simpa using Ne.symm hk
      have hl : rest.lookup key = some old := by simpa [List.lookup_cons, hm] using h
      have hlt : ¬ key < k := String.lt_asymm (ha _ (mem_of_lookup hl))
      simp [insertIn, hlt, Ne.symm hk, hk, ih hr hl]

theorem mapValues_congr {f g : α → α} (h : ∀ e ∈ d.entries, f e.2 = g e.2) :
    d.mapValues f = d.mapValues g := by
  unfold mapValues
  congr 1
  apply List.map_congr_left
  intro e he
  rw [h e he]

theorem mapValues_id (d : Dictionary α) : d.mapValues id = d := by
  simp [mapValues]

theorem Sorted.mapValues (h : d.Sorted) (f : α → α) : (d.mapValues f).Sorted := by
  unfold Sorted Dictionary.mapValues
  exact List.pairwise_map.mpr h

theorem Sorted.insert_eq_mapValues {old value : α} {f : α → α} (hs : d.Sorted)
    (h : d.get? key = some old) (hf : f old = value)
    (hne : ∀ e ∈ d.entries, e.1 ≠ key → f e.2 = e.2) : d.insert key value = d.mapValues f := by
  unfold Dictionary.insert Dictionary.mapValues
  rw [insertIn_eq_map hs h]
  congr 1
  apply List.map_congr_left
  intro e he
  split
  · next hk =>
    have hv : d.get? e.1 = some e.2 := lookup_of_mem hs he
    rw [hk, h] at hv
    cases hv
    rw [hf]
  · next hk => rw [hne e he hk]

end Dictionary

namespace ImportTypes

variable {t : ImportTypes} {qualifier name : String}

structure WellPlaced (t : ImportTypes) : Prop where
  groups : t.groups.Sorted
  symbols : ∀ g ∈ t.groups.entries, g.2.Sorted
  keyed : ∀ g ∈ t.groups.entries, ∀ e ∈ g.2.entries, e.2.qualifier = g.1 ∧ e.2.name = e.1

def mapEntries (f : ImportType → ImportType) (t : ImportTypes) : ImportTypes :=
  ⟨t.groups.mapValues (Dictionary.mapValues f)⟩

theorem entries_mapEntries (f : ImportType → ImportType) (t : ImportTypes) :
    (t.mapEntries f).entries = t.entries.map f := by
  simp [entries, mapEntries, Dictionary.mapValues, Dictionary.values, List.map_flatMap,
    List.flatMap_map, Function.comp_def]

theorem mem_entries {e : ImportType} :
    e ∈ t.entries ↔ ∃ g ∈ t.groups.entries, ∃ n, (n, e) ∈ g.2.entries := by
  simp only [entries, Dictionary.values, List.mem_flatMap, List.mem_map]
  constructor
  · rintro ⟨d, ⟨g, hg, rfl⟩, e, he, rfl⟩
    exact ⟨g, hg, e.1, he⟩
  · rintro ⟨g, hg, n, he⟩
    exact ⟨g.2, ⟨g, hg, rfl⟩, (n, e), he, rfl⟩

theorem mapEntries_congr {f g : ImportType → ImportType} (h : ∀ e ∈ t.entries, f e = g e) :
    t.mapEntries f = t.mapEntries g := by
  unfold mapEntries
  congr 1
  apply Dictionary.mapValues_congr
  intro d hd
  apply Dictionary.mapValues_congr
  intro e he
  exact h e.2 (mem_entries.mpr ⟨d, hd, e.1, he⟩)

theorem mapEntries_id (t : ImportTypes) : t.mapEntries id = t := by
  have h : Dictionary.mapValues (id : ImportType → ImportType) = id :=
    funext Dictionary.mapValues_id
  simp [mapEntries, h, Dictionary.mapValues_id]

theorem mapEntries_mapEntries (f g : ImportType → ImportType) (t : ImportTypes) :
    (t.mapEntries f).mapEntries g = t.mapEntries (g ∘ f) := by
  simp [mapEntries, Dictionary.mapValues, Function.comp_def]

theorem WellPlaced.mapEntries (h : t.WellPlaced) {f : ImportType → ImportType}
    (hf : ∀ e, (f e).qualifier = e.qualifier ∧ (f e).name = e.name) :
    (t.mapEntries f).WellPlaced := by
  refine ⟨h.groups.mapValues _, ?_, ?_⟩
  · intro g hg
    obtain ⟨d, hd, rfl⟩ := List.mem_map.mp hg
    exact (h.symbols d hd).mapValues f
  · intro g hg e he
    obtain ⟨d, hd, rfl⟩ := List.mem_map.mp hg
    obtain ⟨e, hm, rfl⟩ := List.mem_map.mp he
    obtain ⟨hq, hn⟩ := hf e.2
    obtain ⟨hq', hn'⟩ := h.keyed d hd e hm
    exact ⟨hq.trans hq', hn.trans hn'⟩

theorem WellPlaced.empty : WellPlaced {} :=
  ⟨Dictionary.sorted_empty, by simp, by simp⟩

theorem mem_of_group {q : String} {e : String × ImportType} (he : e ∈ (t.group q).entries) :
    (q, t.group q) ∈ t.groups.entries := by
  unfold group at he ⊢
  cases hg : t.groups.get? q with
  | none => simp [hg] at he
  | some d => exact Dictionary.mem_of_lookup hg

theorem WellPlaced.put (h : t.WellPlaced) {entry : ImportType} (hq : entry.qualifier = qualifier)
    (hn : entry.name = name) : (t.put qualifier name entry).WellPlaced := by
  have hg : (t.group qualifier).Sorted := by
    unfold group
    cases hd : t.groups.get? qualifier with
    | none => exact Dictionary.sorted_empty
    | some d => exact h.symbols _ (Dictionary.mem_of_lookup hd)
  refine ⟨h.groups.insert _, ?_, ?_⟩
  · intro g hm
    rcases Dictionary.key_of_mem_insertIn hm with rfl | hm
    · exact hg.insert _
    · exact h.symbols g hm
  · intro g hm e he
    rcases Dictionary.key_of_mem_insertIn hm with rfl | hm
    · rcases Dictionary.key_of_mem_insertIn he with rfl | he
      · exact ⟨hq, hn⟩
      · exact h.keyed (qualifier, t.group qualifier) (mem_of_group he) e he
    · exact h.keyed g hm e he

theorem WellPlaced.add (h : t.WellPlaced) (qualifier name : String) :
    (t.add qualifier name).WellPlaced := by
  unfold ImportTypes.add
  split
  · exact h
  · exact h.put rfl rfl

theorem WellPlaced.addAll (h : t.WellPlaced) (needed : List (String × String)) :
    (needed.foldl (fun t needed => t.add needed.1 needed.2) t).WellPlaced := by
  induction needed generalizing t with
  | nil => exact h
  | cons n rest ih => exact ih (h.add n.1 n.2)

def withPath (qualifier name path : String) (e : ImportType) : ImportType :=
  if e.qualifier = qualifier ∧ e.name = name then { e with resolvedPath := some path } else e

theorem get?_eq_some (h : t.WellPlaced) {e : ImportType} (he : e ∈ t.entries) :
    t.get? e.qualifier e.name = some e := by
  obtain ⟨g, hg, n, he⟩ := mem_entries.mp he
  obtain ⟨hq, hn⟩ := h.keyed g hg (n, e) he
  have hd : t.groups.get? g.1 = some g.2 := Dictionary.lookup_of_mem h.groups hg
  have hs : g.2.get? n = some e := Dictionary.lookup_of_mem (h.symbols g hg) he
  simp only at hq hn
  simp [get?, group, hq, hn, hd, hs]

theorem resolve?_eq_mapEntries (h : t.WellPlaced) (qualifier name path : String) :
    (t.resolve? qualifier name path).getD t = t.mapEntries (withPath qualifier name path) := by
  unfold resolve?
  cases hg : t.get? qualifier name with
  | none =>
    have hid : t.mapEntries (withPath qualifier name path) = t.mapEntries id := by
      apply mapEntries_congr
      intro e he
      have hne : ¬ (e.qualifier = qualifier ∧ e.name = name) := by
        rintro ⟨rfl, rfl⟩
        simp [get?_eq_some h he] at hg
      simp [withPath, hne]
    simp [hid, mapEntries_id]
  | some entry =>
    have hin : (name, entry) ∈ (t.group qualifier).entries := Dictionary.mem_of_lookup hg
    have hd := mem_of_group hin
    obtain ⟨hq, hn⟩ := h.keyed _ hd _ hin
    have hp : t.put qualifier name { entry with resolvedPath := some path } =
        t.mapEntries (withPath qualifier name path) := by
      unfold put mapEntries
      congr 1
      refine h.groups.insert_eq_mapValues (Dictionary.lookup_of_mem h.groups hd) ?_ ?_
      · refine ((h.symbols _ hd).insert_eq_mapValues hg ?_ ?_).symm
        · simp only at hq hn
          simp [withPath, hq, hn]
        · intro e he hne
          have hk := (h.keyed _ hd e he).2
          have hne' : e.2.name ≠ name := hk ▸ hne
          simp [withPath, hne']
      · intro g hm hne
        have hid : g.2.mapValues (withPath qualifier name path) = g.2.mapValues id := by
          apply Dictionary.mapValues_congr
          intro e he
          have hk := (h.keyed g hm e he).1
          have hne' : e.2.qualifier ≠ qualifier := hk ▸ hne
          simp [withPath, hne']
        rw [hid, Dictionary.mapValues_id]
    simp [hp]

end ImportTypes

theorem Ast.importTypes_wellPlaced (ast : Ast) (source : String) (config : ScopeConfig) :
    (ast.importTypes source config).WellPlaced :=
  ImportTypes.WellPlaced.empty.addAll _

end ComponentCompiler
