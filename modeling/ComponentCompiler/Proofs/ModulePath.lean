import ComponentCompiler.Proofs.Project.Scripts

namespace ComponentCompiler.ModulePath

open Volume (steps stays)

variable {importer target id name : String} {here place names : List String}

/-- Where steps lead from a place below the output directory, as they are written. Nothing leads
above the output directory. -/
def follow : List String → List String → Option (List String)
  | here, [] => some here
  | here, step :: rest =>
    if stays step then follow here rest
    else if step = ".." then
      if here = [] then none else follow here.dropLast rest
    else follow (here ++ [step]) rest

theorem follow_append (here names rest : List String) :
    follow here (names ++ rest) = (follow here names).bind (follow · rest) := by
  induction names generalizing here with
  | nil => rfl
  | cons step names ih =>
    simp only [List.cons_append, follow, ih]
    split
    · rfl
    · split
      · split <;> rfl
      · rfl

theorem follow_filter (here names : List String) :
    follow here (names.filter (· ≠ "")) = follow here names := by
  induction names generalizing here with
  | nil => rfl
  | cons step names ih =>
    by_cases hempty : step = ""
    · rw [List.filter_cons_of_neg (by simpa using hempty), ih, follow,
        if_pos (by simp [stays, hempty])]
    · rw [List.filter_cons_of_pos (by simpa using hempty), follow, follow]
      simp only [ih]

theorem follow_names (h : ∀ name ∈ names, stays name = false ∧ name ≠ "..") (here : List String) :
    follow here names = some (here ++ names) := by
  induction names generalizing here with
  | nil => rw [follow, List.append_nil]
  | cons name names ih =>
    obtain ⟨hstays, hup⟩ := h name List.mem_cons_self
    rw [follow, hstays, if_neg Bool.false_ne_true, if_neg hup,
      ih (fun n hn => h n (List.mem_cons_of_mem name hn)), List.append_assoc]
    rfl

theorem follow_up (here names : List String) :
    follow (here ++ names) (List.replicate names.length "..") = some here := by
  induction names using List.reverseRecOn with
  | nil => rw [List.append_nil]; rfl
  | append_singleton names name ih =>
    rw [List.length_append, List.length_singleton, List.replicate_succ, follow,
      if_neg (by decide), if_pos rfl, if_neg (by simp), ← List.append_assoc,
      List.dropLast_concat, ih]

def IsFileName (name : String) : Prop :=
  '/' ∉ name.toList ∧ stays name = false ∧ name ≠ ".."

theorem IsFileName.isAbsolute (h : IsFileName name) : Volume.isAbsolute name = false := by
  refine Volume.isAbsolute_of_steps ?_ (show name ≠ "" from fun hempty => ?_)
  · rw [steps, Text.split_of_notMem h.1, List.head?_cons]
  · exact absurd h.2.1 (by simp [hempty, stays])

theorem isFileName_of_mem_parts (hslash : '/' ∉ id.toList) (h : name ∈ parts id) (hne : name ≠ "") :
    IsFileName name := by
  have hdot : '.' ∉ name.toList := Text.notMem_of_mem_split h
  refine ⟨fun hmem => hslash ?_, ?_, fun he => hdot (by simp [he])⟩
  · exact (Text.mem_iff_mem_split (by decide) id).mpr ⟨name, h, hmem⟩
  · have hone : name ≠ "." := fun he => hdot (by simp [he])
    simp [stays, hne, hone]

theorem parts_eq (id : String) : parts id = package id :: (parts id).drop 1 := by
  cases hparts : parts id with
  | nil => exact absurd (List.map_eq_nil_iff.mp hparts) (Text.splitChars_ne_nil '.' _)
  | cons name rest => simp [package, hparts]

theorem segments_eq (hpackage : package id ≠ "") :
    segments id = package id :: belowPackage id := by
  rw [segments, parts_eq, List.filter_cons_of_pos (by simpa using hpackage)]
  rfl

theorem isFileName_package (hslash : '/' ∉ id.toList) (hpackage : package id ≠ "") :
    IsFileName (package id) :=
  isFileName_of_mem_parts hslash (by rw [parts_eq id]; exact List.mem_cons_self) hpackage

theorem isFileName_of_mem_belowPackage (hslash : '/' ∉ id.toList) (h : name ∈ belowPackage id) :
    IsFileName name := by
  obtain ⟨hmem, hne⟩ := List.mem_filter.mp h
  exact isFileName_of_mem_parts hslash (List.mem_of_mem_drop hmem) (by simpa using hne)

theorem follow_moduleDirectory (hslash : '/' ∉ id.toList) :
    follow [] (steps (Project.moduleDirectory id)) = some (segments id) := by
  rw [Project.steps_moduleDirectory hslash, ← follow_filter, follow_names]
  · rfl
  · intro name hname
    obtain ⟨hmem, hne⟩ := List.mem_filter.mp hname
    exact (isFileName_of_mem_parts hslash hmem (by simpa using hne)).2

theorem slash_notMem_climb (h : name ∈ climb importer) : '/' ∉ name.toList := by
  rw [climb] at h
  split at h
  · rw [List.mem_singleton.mp h]
    decide
  · rw [List.eq_of_mem_replicate h]
    decide

theorem steps_filePath (hslash : '/' ∉ target.toList) (importer file : String) :
    steps (filePath importer target file true) =
      climb importer ++ belowPackage target ++ steps file := by
  rw [filePath, if_pos rfl]
  refine Text.split_intercalate (fun name hname => ?_) file
  rcases List.mem_append.mp hname with hname | hname
  · exact slash_notMem_climb hname
  · exact (isFileName_of_mem_belowPackage hslash hname).1

theorem follow_climb (here : List String) (importer : String) :
    follow (here ++ belowPackage importer) (climb importer) = some here := by
  have hup := follow_up here (belowPackage importer)
  rw [climb]
  split
  · next hlength =>
    rw [List.length_eq_zero_iff.mp hlength, List.append_nil]
    rfl
  · next depth hlength => rwa [hlength] at hup

theorem parts_target {i : Import} (hi : i.isRelative) (importer : String) :
    parts (ModulePath.target importer i) = package importer :: segments i.uri := by
  have hdot : ∀ name ∈ package importer :: segments i.uri, '.' ∉ name.toList := by
    intro name hname
    rcases List.mem_cons.mp hname with rfl | hname
    · exact Text.notMem_of_mem_split (by rw [← parts, parts_eq]; exact List.mem_cons_self)
    · exact Text.notMem_of_mem_split (List.mem_filter.mp hname).1
  rw [ModulePath.target, if_pos hi, parts]
  obtain ⟨names, last, hnames⟩ :=
    (List.eq_nil_or_concat' (package importer :: segments i.uri)).resolve_left (List.cons_ne_nil _ _)
  rw [hnames] at hdot ⊢
  have hsplit := Text.split_intercalate (fun name hn => hdot name (List.mem_append_left _ hn)) last
  rwa [Text.split_of_notMem (hdot last (by simp))] at hsplit

theorem package_target {i : Import} (hi : i.isRelative) (importer : String) :
    package (ModulePath.target importer i) = package importer := by
  rw [package, parts_target hi]
  rfl

theorem slash_notMem_target {i : Import} (hi : i.isRelative) (hslash : '/' ∉ importer.toList)
    (huri : '/' ∉ i.uri.toList) : '/' ∉ (ModulePath.target importer i).toList := by
  have hdot : '/' ≠ '.' := by decide
  rw [Text.mem_iff_mem_split hdot, ← parts, parts_target hi]
  rintro ⟨name, hname, hmem⟩
  rcases List.mem_cons.mp hname with rfl | hname
  · refine hslash ((Text.mem_iff_mem_split hdot importer).mpr ⟨_, ?_, hmem⟩)
    rw [← parts, parts_eq]
    exact List.mem_cons_self
  · exact huri ((Text.mem_iff_mem_split hdot i.uri).mpr
      ⟨name, (List.mem_filter.mp hname).1, hmem⟩)

section Reach

variable {v : Volume} {outDir file : String}

theorem isAbsolute_moduleDirectory (hslash : '/' ∉ id.toList) (hpackage : package id ≠ "") :
    Volume.isAbsolute (Project.moduleDirectory id) = false := by
  refine Volume.isAbsolute_of_steps ?_ hpackage
  rw [Project.steps_moduleDirectory hslash, ← parts, parts_eq, List.head?_cons]

theorem isAbsolute_filePath (hslash : '/' ∉ target.toList) (importer file : String) :
    Volume.isAbsolute (filePath importer target file true) = false := by
  obtain ⟨step, rest, hsteps, hstep⟩ : ∃ step rest, climb importer = step :: rest ∧ step ≠ "" := by
    rw [climb]
    split
    · exact ⟨".", [], rfl, by decide⟩
    · exact ⟨"..", _, rfl, by decide⟩
  refine Volume.isAbsolute_of_steps ?_ hstep
  rw [steps_filePath hslash, hsteps, List.cons_append, List.cons_append, List.head?_cons]

/-- In a volume the way up from a module's directory leads to the one of its package. -/
theorem walk_climb {base : Place} (hslash : '/' ∉ importer.toList)
    (hpackage : package importer ≠ "")
    (hw : v.walk base (parts importer) = some here) (hd : v.isDirectory here) :
    v.isDirectory base ∧ Volume.turn? base (package importer) = some (base ++ [package importer]) ∧
      v.walk here (climb importer) = some (base ++ [package importer]) := by
  obtain ⟨-, hstays, hup⟩ := isFileName_package hslash hpackage
  have hbase : v.isDirectory base := by
    rw [parts_eq] at hw
    exact Volume.isDirectory_of_walk hw
  rw [parts_eq, Volume.walk_cons, if_pos hbase] at hw
  obtain ⟨next, hnext, hw⟩ := Option.bind_eq_some_iff.mp hw
  obtain rfl : next = base ++ [package importer] := by
    rw [Volume.turn?, hstays, if_neg Bool.false_ne_true, if_neg hup] at hnext
    split at hnext
    · exact (Option.some.inj hnext).symm
    · cases hnext
  refine ⟨hbase, hnext, ?_⟩
  have hbelow : v.walk (base ++ [package importer]) (belowPackage importer) = some here :=
    Volume.walk_filter_eq_some hw
  have hnames : ∀ name ∈ belowPackage importer, stays name = false ∧ name ≠ ".." :=
    fun name hname => (isFileName_of_mem_belowPackage hslash hname).2
  have hback := Volume.walk_up ⟨package importer, by simp, hup⟩ hnames hbelow hd
  rw [climb]
  split
  · next hlength =>
    rw [List.length_eq_zero_iff.mp hlength] at hbelow
    rw [Volume.walk_cons, if_pos hd]
    exact hbelow.symm
  · next depth hlength => rwa [hlength] at hback

theorem reach?_filePath (hslash : '/' ∉ importer.toList) (hpackage : package importer ≠ "")
    (htarget : '/' ∉ target.toList) (hsame : package target = package importer)
    (hfile : Volume.isAbsolute file = false)
    (hd : v.hasDirectory (Volume.join outDir (Project.moduleDirectory importer))) :
    v.reach? (Volume.join (Volume.join outDir (Project.moduleDirectory importer))
        (filePath importer target file true)) =
      v.reach? (Volume.join (Volume.join outDir (Project.moduleDirectory target)) file) := by
  have hdir := isAbsolute_moduleDirectory hslash hpackage
  have hdir' := isAbsolute_moduleDirectory htarget (by rwa [hsame])
  obtain ⟨here, hlocate, hhere⟩ := (Option.any_eq_true _ _).mp hd
  have hreach := Volume.walk_of_locate? hlocate
  rw [← Volume.reach?, Volume.reach?_join hdir] at hreach
  obtain ⟨base, hbase, hw⟩ := Option.bind_eq_some_iff.mp hreach
  rw [Project.steps_moduleDirectory hslash, ← parts] at hw
  obtain ⟨hbase', hturn, hclimb⟩ := walk_climb hslash hpackage hw hhere
  rw [Volume.reach?_join (isAbsolute_filePath htarget importer file), Volume.reach?_join hdir,
    Volume.reach?_join hfile, Volume.reach?_join hdir', hbase, Option.bind_some, Option.bind_some,
    Project.steps_moduleDirectory hslash, Project.steps_moduleDirectory htarget, ← parts, ← parts,
    hw, Option.bind_some, ← Volume.walk_append, steps_filePath htarget, List.append_assoc,
    Volume.walk_append, hclimb, Option.bind_some]
  calc v.walk (base ++ [package importer]) (belowPackage target ++ steps file)
      = v.walk (base ++ [package importer]) ((parts target).drop 1 ++ steps file) :=
        Volume.walk_filter (Volume.steps_ne_nil file) _ _
    _ = v.walk base (parts target ++ steps file) := by
        rw [parts_eq target, hsame, List.cons_append, Volume.walk_cons, if_pos hbase', hturn]
        rfl

end Reach

/-- Relative paths lead from the output directory of one module to the files of another: as they are
written, and in every volume that has the first directory. -/
structure Leads (importer target : String) : Prop where
  written : ∃ here there, follow [] (steps (Project.moduleDirectory importer)) = some here ∧
    follow [] (steps (Project.moduleDirectory target)) = some there ∧ ∀ file, IsFileName file →
      follow here (steps (filePath importer target file true)) = some (there ++ [file])
  reached : ∀ (v : Volume) (outDir file : String), IsFileName file →
    v.hasDirectory (Volume.join outDir (Project.moduleDirectory importer)) →
    v.reach? (Volume.join (Volume.join outDir (Project.moduleDirectory importer))
        (filePath importer target file true)) =
      v.reach? (Volume.join (Volume.join outDir (Project.moduleDirectory target)) file)

theorem leads_of_package (hslash : '/' ∉ importer.toList) (hpackage : package importer ≠ "")
    (htarget : '/' ∉ target.toList) (hsame : package target = package importer) :
    Leads importer target := by
  constructor
  · refine ⟨_, _, follow_moduleDirectory hslash, follow_moduleDirectory htarget,
      fun file hfile => ?_⟩
    have hnames : ∀ name ∈ belowPackage target ++ [file], stays name = false ∧ name ≠ ".." := by
      intro name hname
      rcases List.mem_append.mp hname with hname | hname
      · exact (isFileName_of_mem_belowPackage htarget hname).2
      · exact List.mem_singleton.mp hname ▸ hfile.2
    calc follow (segments importer) (steps (filePath importer target file true))
        = follow ([package importer] ++ belowPackage importer)
            (climb importer ++ (belowPackage target ++ [file])) := by
          rw [steps_filePath htarget, segments_eq hpackage, steps, Text.split_of_notMem hfile.1,
            List.append_assoc, List.singleton_append]
      _ = follow [package importer] (belowPackage target ++ [file]) := by
          rw [follow_append, follow_climb, Option.bind_some]
      _ = some (segments target ++ [file]) := by
          rw [follow_names hnames, segments_eq (hsame ▸ hpackage), hsame]
          rfl
  · intro v outDir file hfile hd
    exact reach?_filePath hslash hpackage htarget hsame hfile.isAbsolute hd

/-- From a module's output directory the path of an imported file leads to that file in the output
directory of its module, be it imported by a relative id or known to be of the same package. -/
theorem filePath_leads (importer : String) (hslash : '/' ∉ importer.toList)
    (hpackage : package importer ≠ "") :
    (∀ i : Import, i.isRelative → '/' ∉ i.uri.toList →
        Leads importer (ModulePath.target importer i)) ∧
      ∀ target, '/' ∉ target.toList → package target = package importer →
        Leads importer target := by
  refine ⟨fun i hi huri => ?_, fun target => leads_of_package hslash hpackage⟩
  exact leads_of_package hslash hpackage (slash_notMem_target hi hslash huri)
    (package_target hi importer)

/-- Doubled dots and dots at the end count for nothing. -/
theorem dotted_leads :
    filePath "app.ui..forms." "app.shared.style" "Button.js" true =
        "../../shared/style/Button.js" ∧
      Leads "app.ui..forms." "app.shared.style" ∧ Leads "app.ui..forms." "app..ui" := by
  have hleads := filePath_leads "app.ui..forms." (by decide) (by decide)
  refine ⟨by decide, ?_, hleads.2 "app..ui" (by decide) (by decide)⟩
  have htarget : ModulePath.target "app.ui..forms." ⟨"shared..style.", "", true⟩ =
      "app.shared.style" := by decide
  exact htarget ▸ hleads.1 ⟨"shared..style.", "", true⟩ rfl (by decide)

end ComponentCompiler.ModulePath
