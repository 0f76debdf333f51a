import ComponentCompiler.Text.Split
import Mathlib.Data.List.Basic

namespace ComponentCompiler.Text

variable {separator other : Char} {cs ds part : List Char}

theorem splitChars_append_cons (separator : Char) (cs ds : List Char) :
    splitChars separator (cs ++ separator :: ds) =
      splitChars separator cs ++ splitChars separator ds := by
  induction cs with
  | nil => simp [splitChars]
  | cons c cs ih =>
    by_cases hc : c = separator
    · simp [splitChars, hc, ih]
    · simp only [List.cons_append, splitChars, hc, ↓reduceIte, ih]
      cases h : splitChars separator cs with
      | nil => exact absurd h (splitChars_ne_nil separator cs)
      | cons part parts => rfl

theorem splitChars_of_notMem (h : separator ∉ cs) : splitChars separator cs = [cs] := by
  induction cs with
  | nil => rfl
  | cons c cs ih =>
    rw [List.mem_cons, not_or] at h
    simp [splitChars, Ne.symm h.1, ih h.2]

theorem notMem_of_mem_splitChars (h : part ∈ splitChars separator cs) : separator ∉ part := by
  induction cs generalizing part with
  | nil =>
    rw [List.mem_singleton.mp h]
    exact List.not_mem_nil
  | cons c cs ih =>
    by_cases hc : c = separator
    · rw [splitChars, if_pos hc, List.mem_cons] at h
      cases h with
      | inl h => simp [h]
      | inr h => exact ih h
    · cases hs : splitChars separator cs with
      | nil => exact absurd hs (splitChars_ne_nil separator cs)
      | cons first rest =>
        rw [splitChars, if_neg hc, hs, List.mem_cons] at h
        rw [hs] at ih
        cases h with
        | inl h =>
          rw [h, List.mem_cons, not_or]
          exact ⟨Ne.symm hc, ih List.mem_cons_self⟩
        | inr h => exact ih (List.mem_cons_of_mem _ h)

theorem intercalate_splitChars (separator : Char) (cs : List Char) :
    [separator].intercalate (splitChars separator cs) = cs := by
  induction cs with
  | nil => rfl
  | cons c cs ih =>
    cases hs : splitChars separator cs with
    | nil => exact absurd hs (splitChars_ne_nil separator cs)
    | cons first rest =>
      rw [hs] at ih
      by_cases hc : c = separator
      · rw [splitChars, if_pos hc, hs, List.intercalate_cons_cons, ih, hc]
        rfl
      · rw [splitChars, if_neg hc, hs]
        cases rest with
        | nil => simpa using ih
        | cons second rest => simpa using ih

theorem splitChars_inj : splitChars separator cs = splitChars separator ds ↔ cs = ds := by
  refine ⟨fun h => ?_, fun h => h ▸ rfl⟩
  rw [← intercalate_splitChars separator cs, h, intercalate_splitChars]

/-- Separators may be written as another character that the text does not have. -/
theorem splitChars_map (h : other ∉ cs) :
    splitChars other (cs.map fun c => if c = separator then other else c) =
      splitChars separator cs := by
  induction cs with
  | nil => rfl
  | cons c cs ih =>
    rw [List.mem_cons, not_or] at h
    by_cases hc : c = separator
    · simp [splitChars, hc, ih h.2]
    · simp [splitChars, hc, Ne.symm h.1, ih h.2]

theorem split_inj {text text' : String} :
    split separator text = split separator text' ↔ text = text' := by
  unfold split
  rw [List.map_inj_right fun _ _ => String.ofList_inj.mp, splitChars_inj, String.toList_inj]

theorem notMem_of_mem_split {text step : String} (h : step ∈ split separator text) :
    separator ∉ step.toList := by
  obtain ⟨part, hp, rfl⟩ := List.mem_map.mp h
  rw [String.toList_ofList]
  exact notMem_of_mem_splitChars hp

theorem split_of_notMem {text : String} (h : separator ∉ text.toList) :
    split separator text = [text] := by
  rw [split, splitChars_of_notMem h, List.map_singleton, String.ofList_toList]

theorem split_intercalate {names : List String} (h : ∀ name ∈ names, separator ∉ name.toList) (last : String) :
    split separator ((String.singleton separator).intercalate (names ++ [last])) =
      names ++ split separator last := by
  induction names with
  | nil => simp
  | cons name names ih =>
    have hrest := ih fun n hn => h n (List.mem_cons_of_mem name hn)
    rw [List.cons_append, String.intercalate_cons_of_ne_nil (by simp), split]
    simp only [String.toList_append, String.toList_singleton, List.append_assoc,
      List.singleton_append]
    rw [splitChars_append_cons, List.map_append, splitChars_of_notMem (h name List.mem_cons_self),
      List.map_singleton, String.ofList_toList]
    exact congrArg (name :: ·) hrest

theorem mem_iff_mem_splitChars {c : Char} (hc : c ≠ separator) (cs : List Char) :
    c ∈ cs ↔ ∃ part ∈ splitChars separator cs, c ∈ part := by
  induction cs with
  | nil => simp [splitChars]
  | cons d cs ih =>
    by_cases hd : d = separator
    · simp [splitChars, hd, hc, ih]
    · cases hs : splitChars separator cs with
      | nil => exact absurd hs (splitChars_ne_nil separator cs)
      | cons first rest =>
        rw [hs] at ih
        simp [splitChars, hd, hs, ih, or_assoc]

theorem mem_iff_mem_split {c : Char} (hc : c ≠ separator) (text : String) :
    c ∈ text.toList ↔ ∃ part ∈ split separator text, c ∈ part.toList := by
  simp [split, mem_iff_mem_splitChars hc text.toList]

end ComponentCompiler.Text
