import ComponentCompiler.Dictionary
import ComponentCompiler.Proofs.Text.Split
import ComponentCompiler.Volume
import Mathlib.Data.List.Induction

namespace ComponentCompiler.Volume

variable {v v₁ v' : Volume} {path base text : String} {place here : Place}
  {names : List String} {w : String × String} {ws ws' : List (String × String)}

def turn? (here : Place) (step : String) : Option Place :=
  if stays step then some here
  else if step = ".." then some (up here)
  else if isName step then some (here ++ [step])
  else none

theorem walk_cons (v : Volume) (here : Place) (step : String) (rest : List String) :
    v.walk here (step :: rest) =
      if v.isDirectory here then (turn? here step).bind fun next => v.walk next rest else none := by
  rw [walk, turn?]
  by_cases hd : v.isDirectory here = true
  · by_cases hs : stays step = true
    · simp [hd, hs]
    · by_cases hu : step = ".."
      · simp only [hd, hs, if_pos hu]
        rfl
      · by_cases hn : isName step = true <;> simp [hd, hs, hu, hn]
  · simp [hd]

theorem walk_append (v : Volume) (here : Place) (names rest : List String) :
    v.walk here (names ++ rest) = (v.walk here names).bind fun next => v.walk next rest := by
  induction names generalizing here with
  | nil => rfl
  | cons step names ih =>
    rw [List.cons_append, walk_cons, walk_cons]
    split
    · simp only [ih, Option.bind_assoc]
    · rfl

theorem isDirectory_of_walk {step : String} {rest : List String}
    (h : v.walk here (step :: rest) = some place) : v.isDirectory here = true := by
  rw [walk_cons] at h
  split at h
  · assumption
  · cases h

def IsPlain (path : String) : Prop :=
  ∀ step ∈ steps path, stays step = false ∧ step ≠ ".."

instance (path : String) : Decidable (IsPlain path) :=
  inferInstanceAs (Decidable (∀ step ∈ steps path, stays step = false ∧ step ≠ ".."))

theorem isPlain_of_notMem (hslash : '/' ∉ path.toList) (hstays : stays path = false)
    (hup : path ≠ "..") : IsPlain path := by
  intro step hs
  rw [steps, Text.split_of_notMem hslash, List.mem_singleton] at hs
  exact hs ▸ ⟨hstays, hup⟩

theorem slash_notMem_fileName (path : String) : '/' ∉ (fileName path).toList := by
  unfold fileName
  cases h : ((steps path).filter fun s => !stays s).getLast? with
  | none => simp
  | some step =>
    exact Text.notMem_of_mem_split (List.mem_filter.mp (List.mem_of_getLast? h)).1

theorem walk_names (hn : ∀ step ∈ names, stays step = false ∧ step ≠ "..")
    (h : v.walk here names = some place) : place = here ++ names := by
  induction names generalizing here with
  | nil => exact (Option.some.inj h).symm.trans (List.append_nil here).symm
  | cons step rest ih =>
    obtain ⟨hs, hu⟩ := hn step List.mem_cons_self
    rw [walk_cons] at h
    split at h
    · obtain ⟨next, ht, hw⟩ := Option.bind_eq_some_iff.mp h
      rw [turn?, hs, if_neg Bool.false_ne_true, if_neg hu] at ht
      split at ht
      · cases ht
        rw [ih (fun s hin => hn s (List.mem_cons_of_mem _ hin)) hw, List.append_assoc]
        rfl
      · cases ht
    · cases h

theorem steps_ne_nil (path : String) : steps path ≠ [] := by
  simp [steps, Text.split, Text.splitChars_ne_nil]

theorem steps_append_slash (base path : String) :
    steps (base ++ "/" ++ path) = steps base ++ steps path := by
  have hslash : (base ++ "/" ++ path).toList = base.toList ++ '/' :: path.toList := by simp
  rw [steps, Text.split, hslash, Text.splitChars_append_cons, List.map_append]
  rfl

theorem isAbsolute_of_steps {step : String} (h : (steps path).head? = some step) (hne : step ≠ "") :
    isAbsolute path = false := by
  rw [Bool.eq_false_iff]
  intro ha
  rw [isAbsolute, beq_iff_eq] at ha
  obtain ⟨cs, hcs⟩ := List.head?_eq_some_iff.mp ha
  rw [steps, Text.split, hcs, Text.splitChars, if_pos rfl, List.map_cons, List.head?_cons] at h
  exact hne (Option.some.inj h).symm

theorem IsPlain.isAbsolute (h : IsPlain path) : isAbsolute path = false := by
  obtain ⟨step, rest, hs⟩ := List.exists_cons_of_ne_nil (steps_ne_nil path)
  refine isAbsolute_of_steps (congrArg List.head? hs) fun hempty => ?_
  exact absurd (h step (hs ▸ List.mem_cons_self)).1 (by simp [hempty, stays])

theorem start_append (hb : base ≠ "") : start (base ++ path) = start base := by
  have hhead : (base ++ path).toList.head? = base.toList.head? := by
    cases hl : base.toList with
    | nil => exact absurd (String.toList_eq_nil_iff.mp hl) hb
    | cons c cs => simp [hl]
  unfold start isAbsolute
  rw [hhead]

def reach? (v : Volume) (path : String) : Option Place :=
  v.walk (start path) (steps path)

theorem walk_of_not_isDirectory (hd : ¬ v.isDirectory here) (hne : names ≠ []) :
    v.walk here names = none := by
  obtain ⟨step, rest, rfl⟩ := List.exists_cons_of_ne_nil hne
  rw [walk_cons, if_neg hd]

/-- A step that stays in front of others is one that is not there. -/
theorem walk_stay {step : String} (hs : stays step) (hne : names ≠ []) :
    v.walk here (step :: names) = v.walk here names := by
  by_cases hd : v.isDirectory here
  · rw [walk_cons, if_pos hd, turn?, if_pos hs, Option.bind_some]
  · rw [walk_of_not_isDirectory hd (List.cons_ne_nil _ _), walk_of_not_isDirectory hd hne]

theorem reach?_join (hp : isAbsolute path = false) (base : String) :
    v.reach? (join base path) = (v.reach? base).bind fun here => v.walk here (steps path) := by
  rw [reach?, reach?, join, hp, Bool.or_false]
  by_cases hb : base = ""
  · subst hb
    rw [if_pos (by simp), start, hp]
    rfl
  · rw [if_neg (by simpa using hb)]
    split
    · next hlast =>
      -- The slash at the end of `base` is the one between the two.
      obtain ⟨cs, hcs⟩ : ∃ cs, base = String.ofList cs ++ "/" := by
        obtain ⟨cs, hcs⟩ := List.getLast?_eq_some_iff.mp hlast
        refine ⟨cs, ?_⟩
        rw [← String.toList_inj, hcs]
        simp
      have hsteps : steps base = steps (String.ofList cs) ++ [""] := by
        have h := steps_append_slash (String.ofList cs) ""
        rwa [String.append_empty, ← hcs] at h
      rw [start_append hb, hsteps, hcs, steps_append_slash, walk_append, walk_append,
        Option.bind_assoc, ← hcs]
      congr 1
      funext here
      rw [← walk_stay (show stays "" by rfl) (steps_ne_nil path), ← List.singleton_append,
        walk_append]
    · rw [String.append_assoc, start_append hb, ← String.append_assoc, steps_append_slash,
        walk_append]

theorem walk_join (hp : IsPlain path)
    (h : v.walk (start (join base path)) (steps (join base path)) = some place) :
    ∃ here, v.walk (start base) (steps base) = some here ∧ place = here ++ steps path := by
  rw [← reach?, reach?_join hp.isAbsolute] at h
  obtain ⟨here, hbase, hw⟩ := Option.bind_eq_some_iff.mp h
  exact ⟨here, hbase, walk_names hp hw⟩

theorem walk_of_locate? (h : v.locate? path = some place) :
    v.walk (start path) (steps path) = some place := by
  unfold locate? at h
  split at h
  · exact h
  · cases h

theorem steps_eq_of_locate?_join {path' : String} (hp : IsPlain path) (hp' : IsPlain path')
    (h : v.locate? (join base path) = some place)
    (h' : v.locate? (join base path') = some place) : steps path = steps path' := by
  obtain ⟨here, hhere, rfl⟩ := walk_join hp (walk_of_locate? h)
  obtain ⟨here', hhere', hsame⟩ := walk_join hp' (walk_of_locate? h')
  cases hhere.symm.trans hhere'
  exact List.append_cancel_left hsame

def Grows (v v' : Volume) : Prop :=
  ∀ place, v.isDirectory place = true → v'.isDirectory place = true

theorem Grows.refl (v : Volume) : v.Grows v :=
  fun _ h => h

theorem Grows.trans (h : v.Grows v₁) (h' : v₁.Grows v') : v.Grows v' :=
  fun place hp => h' place (h place hp)

theorem Grows.walk (h : v.Grows v') (hw : v.walk here names = some place) :
    v'.walk here names = some place := by
  induction names generalizing here with
  | nil => exact hw
  | cons step rest ih =>
    have hd := isDirectory_of_walk hw
    rw [walk_cons, if_pos hd] at hw
    obtain ⟨next, ht, hrest⟩ := Option.bind_eq_some_iff.mp hw
    rw [walk_cons, if_pos (h here hd), ht]
    exact ih hrest

/-- A path that leads to a place leads there for good. -/
theorem Grows.locate? (h : v.Grows v') (hl : v.locate? path = some place) :
    v'.locate? path = some place := by
  unfold Volume.locate? at hl ⊢
  split at hl
  · next hp => rw [if_pos hp, h.walk hl]
  · cases hl

theorem read?_put (v : Volume) (place other : Place) (text : String) :
    (v.put place text).read? other = if other = place then some text else v.read? other := by
  by_cases h : other = place
  · simp [put, read?, h]
  · simp [put, read?, List.lookup_cons, Dictionary.lookup_filter_ne, h, beq_eq_false_iff_ne.mpr h]

theorem put_grows (v : Volume) (place : Place) (text : String) : v.Grows (v.put place text) :=
  fun _ h => h

theorem makeDirectories_grows (h : v.makeDirectories here names = some v') :
    v.Grows v' ∧ v'.files = v.files := by
  induction names generalizing v here with
  | nil =>
    obtain rfl : v = v' := Option.some.inj h
    exact ⟨.refl v, rfl⟩
  | cons step rest ih =>
    unfold makeDirectories at h
    split at h
    · exact ih h
    · split at h
      · exact ih h
      · dsimp only at h
        split at h
        · cases h
        · split at h
          · exact ih h
          · obtain ⟨hg, hf⟩ := ih h
            refine ⟨.trans (fun place hp => ?_) hg, hf⟩
            simp only [isDirectory, Bool.or_eq_true, List.contains_cons] at hp ⊢
            exact hp.imp_right .inr

theorem createDirAll?_grows (h : v.createDirAll? path = some v') :
    v.Grows v' ∧ v'.files = v.files := by
  unfold createDirAll? at h
  split at h
  · cases h
  · split at h
    · exact makeDirectories_grows (Option.filter_eq_some_iff.mp h).1
    · exact makeDirectories_grows h

theorem put_of_write? (h : v.write? path text = some v') :
    ∃ place, v.locate? path = some place ∧ v' = v.put place text := by
  obtain ⟨place, hl, hput⟩ := Option.bind_eq_some_iff.mp h
  split at hput
  · cases hput
  · exact ⟨place, hl, (Option.some.inj hput).symm⟩

/-- A run of writes, each a path and a text, with directories made in between. -/
inductive Written : Volume → List (String × String) → Volume → Prop
  | nil (v : Volume) : Written v [] v
  | make {v v₁ v' : Volume} {path : String} {ws : List (String × String)}
      (h : v.createDirAll? path = some v₁) (rest : Written v₁ ws v') : Written v ws v'
  | write {v v₁ v' : Volume} {w : String × String} {ws : List (String × String)}
      (h : v.write? w.1 w.2 = some v₁) (rest : Written v₁ ws v') : Written v (w :: ws) v'

def last? (v : Volume) (ws : List (String × String)) (place : Option Place) : Option String :=
  ((ws.filter fun w => v.locate? w.1 = place).getLast?).map (·.2)

theorem last?_cons (v : Volume) (w : String × String) (ws : List (String × String))
    (place : Option Place) : v.last? (w :: ws) place =
      (v.last? ws place).or (if v.locate? w.1 = place then some w.2 else none) := by
  unfold last?
  by_cases h : v.locate? w.1 = place
  · rw [List.filter_cons_of_pos (by simpa using h), if_pos h, List.getLast?_cons]
    cases (ws.filter fun w => v.locate? w.1 = place).getLast? <;> rfl
  · rw [List.filter_cons_of_neg (by simpa using h), if_neg h, Option.or_none]

namespace Written

theorem append (h : Written v ws v₁) (h' : Written v₁ ws' v') : Written v (ws ++ ws') v' := by
  induction h with
  | nil v => exact h'
  | make hd _ ih => exact .make hd (ih h')
  | write hw _ ih => exact .write hw (ih h')

theorem grows (h : Written v ws v') : v.Grows v' := by
  induction h with
  | nil v => exact .refl v
  | make hd _ ih => exact (createDirAll?_grows hd).1.trans ih
  | write hw _ ih =>
    obtain ⟨place, -, rfl⟩ := put_of_write? hw
    exact (put_grows _ place _).trans ih

theorem locate? (h : Written v ws v') (hw : w ∈ ws) : ∃ place, v'.locate? w.1 = some place := by
  induction h with
  | nil v => cases hw
  | make _ _ ih => exact ih hw
  | write hfirst hrest ih =>
    cases hw with
    | head =>
      obtain ⟨place, hl, rfl⟩ := put_of_write? hfirst
      exact ⟨place, ((put_grows _ place _).trans hrest.grows).locate? hl⟩
    | tail _ hin => exact ih hin

/-- At every place stands what was written there last, or what was there before. -/
theorem read? (h : Written v ws v') (place : Place) :
    v'.read? place = (v'.last? ws (some place)).or (v.read? place) := by
  induction h with
  | nil v => rfl
  | make hd _ ih => rw [ih, Volume.read?, Volume.read?, (createDirAll?_grows hd).2]
  | @write v v₁ v' w ws hw hrest ih =>
    obtain ⟨target, hl, rfl⟩ := put_of_write? hw
    have hl' : v'.locate? w.1 = some target :=
      ((put_grows v target w.2).trans hrest.grows).locate? hl
    rw [ih, last?_cons, hl', read?_put, Option.or_assoc]
    by_cases ht : place = target
    · simp [ht]
    · simp [ht, Ne.symm ht]

theorem textAt? (h : Written v ws v') (hw : w ∈ ws) :
    v'.textAt? w.1 = v'.last? ws (v'.locate? w.1) ∧ (v'.textAt? w.1).isSome := by
  obtain ⟨place, hl⟩ := h.locate? hw
  have hsome : (v'.last? ws (some place)).isSome := by
    unfold last?
    rw [Option.isSome_map, List.getLast?_isSome]
    exact List.ne_nil_of_mem (List.mem_filter.mpr ⟨hw, by simpa using hl⟩)
  obtain ⟨text, ht⟩ := Option.isSome_iff_exists.mp hsome
  rw [Volume.textAt?, hl, Option.bind_some, h.read?, ht]
  exact ⟨rfl, rfl⟩

/-- A text is kept if no other one is written to its place afterwards. -/
theorem kept {rest : List (String × String)} (h : Written v (ws ++ w :: rest) v')
    (hrest : ∀ w' ∈ rest, v'.locate? w.1 = v'.locate? w'.1 → w.2 = w'.2) :
    v'.textAt? w.1 = some w.2 := by
  have hw : w ∈ ws ++ w :: rest := List.mem_append_right ws List.mem_cons_self
  rw [(h.textAt? hw).1, last?, List.filter_append, List.filter_cons_of_pos (by simp),
    List.getLast?_append, List.getLast?_cons, Option.some_or, Option.map_some]
  cases hlast : (rest.filter fun w' => v'.locate? w'.1 = v'.locate? w.1).getLast? with
  | none => rfl
  | some w' =>
    have hin := List.mem_filter.mp (List.mem_of_getLast? hlast)
    rw [Option.getD_some, hrest w' hin.1 (of_decide_eq_true hin.2).symm]

end Written

section Back

variable {above : Place} {rest : List String}

theorem walk_filter (hne : rest ≠ []) (here : Place) (names : List String) :
    v.walk here (names.filter (· ≠ "") ++ rest) = v.walk here (names ++ rest) := by
  induction names generalizing here with
  | nil => rfl
  | cons step names ih =>
    by_cases hempty : step = ""
    · rw [List.filter_cons_of_neg (by simpa using hempty), ih, List.cons_append,
        walk_stay (by simp [stays, hempty]) (by simp [hne])]
    · rw [List.filter_cons_of_pos (by simpa using hempty), List.cons_append, List.cons_append,
        walk_cons, walk_cons]
      simp only [ih]

theorem walk_filter_eq_some {place : Place} (h : v.walk here names = some place) :
    v.walk here (names.filter (· ≠ "")) = some place := by
  induction names generalizing here with
  | nil => exact h
  | cons step names ih =>
    have hd := isDirectory_of_walk h
    rw [walk_cons, if_pos hd] at h
    obtain ⟨next, hnext, hrest⟩ := Option.bind_eq_some_iff.mp h
    by_cases hempty : step = ""
    · subst hempty
      obtain rfl : here = next := Option.some.inj hnext
      exact ih hrest
    · rw [List.filter_cons_of_pos (by simpa using hempty), walk_cons, if_pos hd, hnext,
        Option.bind_some, ih hrest]

theorem up_concat (h : ∃ name ∈ above, name ≠ "..") (name : String) :
    up (above ++ [name]) = above := by
  obtain ⟨other, hmem, hother⟩ := h
  have htop : above ++ [name] ≠ top := by
    intro he
    cases above with
    | nil => exact absurd hmem List.not_mem_nil
    | cons => simp [top] at he
  have hall : ¬ (above ++ [name]).all (· == "..") := by
    rw [List.all_eq_true]
    exact fun hall => hother (by simpa using hall other (List.mem_append_left _ hmem))
  rw [up, if_neg htop, if_neg hall, List.dropLast_concat]

theorem walk_up (habove : ∃ name ∈ above, name ≠ "..")
    (hn : ∀ name ∈ names, stays name = false ∧ name ≠ "..")
    (hw : v.walk above names = some here) (hd : v.isDirectory here) :
    v.walk here (List.replicate names.length "..") = some above := by
  induction names using List.reverseRecOn generalizing here with
  | nil =>
    cases hw
    rfl
  | append_singleton names name ih =>
    have hplace := walk_names hn hw
    rw [walk_append] at hw
    obtain ⟨middle, hmiddle, hlast⟩ := Option.bind_eq_some_iff.mp hw
    have hbefore := fun n hin => hn n (List.mem_append_left [name] hin)
    obtain rfl := walk_names hbefore hmiddle
    have hback := ih hbefore hmiddle (isDirectory_of_walk hlast)
    rw [← List.append_assoc] at hplace
    rw [List.length_append, List.length_singleton, List.replicate_succ, walk_cons, if_pos hd,
      turn?, if_neg (by decide), if_pos rfl, Option.bind_some, hplace, up_concat, hback]
    obtain ⟨other, hmem, hother⟩ := habove
    exact ⟨other, List.mem_append_left _ hmem, hother⟩

end Back

end ComponentCompiler.Volume
