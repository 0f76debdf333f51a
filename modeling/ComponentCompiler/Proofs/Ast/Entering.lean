import ComponentCompiler.Proofs.Ast.Runs

namespace ComponentCompiler.Ast

open Cst (Tree)
open Relation

variable {a b ast : Ast} {o owner outer p start x : NodeId} {kind : NodeKind} {span : Span}
  {f : NodeKind → NodeKind} {s : Site} {log : List Entry} {refers : Prop} {t : Tree}

def leafSite (owner start : NodeId) (refers : Prop) : Site :=
  ⟨owner, start, refers, fun kind => kind.isLeaf⟩

theorem run_leaf (hk : kind.isLeaf) (ho : owner < ast.size) :
    Run (leafSite owner start refers) ast [] (ast.add kind span owner) :=
  Run.refl.leaf hk hk (.inr .refl) ho

theorem run_identify (hc : ReflTransGen ast.Up owner o) (ho : o < ast.size) :
    Run (leafSite owner start refers) ast []
      (((ast.add .identifier span o).modifyKind o (.withId ast.size)).declare o ast.size) := by
  have hext : ast.Extends (ast.add .identifier span o) := extends_add nofun ho
  have hu := up_add ast .identifier span ho
  refine ((Run.refl.leaf rfl rfl (.inr hc) ho).part (.inr (hext.chain hc)) (.single hu) fun k =>
    k.notes_withId).declare ?_ ?_
  · rw [up_modifyKind]
    exact hext.chain hc
  · rw [up_modifyKind]
    exact .single hu

theorem enterExplicitId_run (ho : owner < ast.size) :
    Run (leafSite owner start refers) ast [] (ast.enterExplicitId owner t) := by
  unfold enterExplicitId
  split
  · exact .refl
  · exact run_identify .refl ho

theorem enterIdAssignment_run :
    Run (leafSite owner start refers) ast [] (ast.enterIdAssignment owner t) := by
  unfold enterIdAssignment
  split
  · next o ident hb _ =>
    exact run_identify (.single (bodyOwner?_eq_some.mp hb).2.1) (lt_size_of_bodyOwner? hb)
  · exact .refl

theorem run_part (hk : kind.isLeaf) (ho : owner < ast.size)
    (hf : ∀ k : NodeKind, k.Notes (f k) [ast.size] []) :
    Run (leafSite owner start refers) ast [] ((ast.add kind span owner).modifyKind owner f) :=
  (run_leaf hk ho).part (.inr .refl) (.single (up_add ast kind span ho)) hf

theorem enterBoundName_run (ho : owner < ast.size) :
    Run (leafSite owner start refers) ast [] (ast.enterBoundName owner t) := by
  unfold enterBoundName
  split
  · exact .refl
  · refine run_part rfl ho fun k => ?_
    exact NodeKind.notes_mapInstance (by grind [InstanceData.parts]) fun _ => ⟨rfl, rfl, rfl⟩

theorem enterDeclarationName_run (ho : owner < ast.size) (hout : ast.Up owner outer) :
    Run (leafSite owner start refers) ast [] (ast.enterDeclarationName owner outer t) := by
  have hu := up_add ast .identifier t.span ho
  have hext : ast.Extends (ast.add .identifier t.span owner) := extends_add nofun ho
  refine (run_part rfl ho fun k => ?_).declare ?_ ?_
  · exact NodeKind.notes_mapDeclaration (by grind [DeclarationData.parts]) fun _ => rfl
  · rw [up_modifyKind]
    exact .single (hext.up hout)
  · rw [up_modifyKind]
    exact .tail (.single hu) (hext.up hout)

theorem enterTagText_run (ho : owner < ast.size) :
    Run (leafSite owner start refers) ast [] (ast.enterTagText owner t) :=
  run_part rfl ho fun _ => NodeKind.notes_mapTagged (by grind [TaggedData.parts])

theorem enterPropertyType_run (ho : owner < ast.size) :
    Run (leafSite owner start refers) ast [] (ast.enterPropertyType owner t) :=
  run_part rfl ho fun _ => NodeKind.notes_mapProperty (by grind [PropertyData.parts]) fun _ => rfl

theorem enterPropertyName_run (ho : owner < ast.size) :
    Run (leafSite owner start refers) ast [] (ast.enterPropertyName owner t) :=
  run_part rfl ho fun _ => NodeKind.notes_mapProperty (by grind [PropertyData.parts]) fun _ => rfl

theorem enterAssignmentPath_run (ho : owner < ast.size) :
    Run (leafSite owner start refers) ast [] (ast.enterAssignmentPath owner t) := by
  obtain ⟨hrun, hup⟩ := Run.names (s := leafSite owner start refers) rfl (.inr .refl) ho
    ((alternate t.children).map Tree.span)
  rw [List.length_map] at hup
  refine hrun.parts (.inr .refl) (fun k => ?_) fun x hx => .single (hup x hx)
  exact NodeKind.notes_mapAssignment (by grind [AssignmentData.parts]) fun _ => rfl

theorem enterCallableName_run (ho : owner < ast.size) :
    Run (leafSite owner start refers) ast [] (ast.enterCallableName owner t) := by
  unfold enterCallableName
  split
  · exact .refl
  · refine run_part rfl ho fun k => ?_
    exact NodeKind.notes_mapFunction (by grind [FunctionData.parts]) fun _ _ _ => .inl

theorem declaredName_run (ho : owner < ast.size) :
    Run (leafSite owner start refers) ast []
      ((ast.add .identifier span owner).declare owner ast.size) :=
  (run_leaf rfl ho).declare .refl (.single (up_add ast .identifier span ho))

theorem reference_run (ha : ast.Sound) (ho : owner < ast.size) :
    Run (leafSite owner start True) ast []
      ((ast.add .identifier span owner).use owner ast.size) := by
  refine (run_leaf rfl ho).use (up_add ast _ _ ho) rfl (fun o => ?_) (.inr ⟨rfl, trivial⟩)
  rw [used_add .identifier rfl ho]
  exact ha.unused (Nat.le_refl _) o

theorem enterTypeSegment_run (ha : ast.Sound) (ho : owner < ast.size) :
    Run (leafSite owner start True) ast [] (ast.enterTypeSegment owner t) := by
  have hnoted : Run (leafSite owner start True) ast []
      ((ast.add .identifier t.span owner).modifyKind owner
        (.mapInstance fun i => { i with name := i.name ++ [ast.size] })) := by
    refine run_part rfl ho fun k => ?_
    exact NodeKind.notes_mapInstance (by grind [InstanceData.parts]) fun _ => ⟨rfl, rfl, rfl⟩
  refine iteInduction (motive := Run (leafSite owner start True) ast []) (fun _ => ?_)
    fun _ => hnoted
  refine hnoted.use ?_ rfl (fun o => ?_) (.inr ⟨rfl, trivial⟩)
  · rw [up_modifyKind]
    exact up_add ast _ _ ho
  · rw [used_modifyKind, used_add .identifier rfl ho]
    exact ha.unused (Nat.le_refl _) o

theorem enterTag_run (ha : ast.Sound) (ho : owner < ast.size) :
    Run (leafSite owner start True) ast [] (ast.enterTag owner t) := by
  refine (reference_run ha ho).part (x := ast.size) (.inr .refl) ?_ fun k => ?_
  · rw [up_use]
    exact .single (up_add ast _ _ ho)
  · exact NodeKind.notes_mapTagged (by grind [TaggedData.parts])

theorem run_list (owner : NodeId) (refers : Prop) (kind : NodeKind) (span : Span)
    (spans : List Span) (hk : kind.isLeaf) (hp : start ≤ p ∨ ReflTransGen ast.Up owner p)
    (hlt : p < ast.size) (hs : start ≤ ast.size) {grown : Ast}
    (hg : (ast.add kind span p).addAll .identifier spans ast.size = grown) :
    Run (leafSite owner start refers) ast [] grown ∧ grown.Up ast.size p ∧
      grown.kind? ast.size = some kind ∧ (∀ o, grown.used o = ast.used o) ∧
      ∀ x ∈ (ast.add kind span p).nextIds spans.length, grown.Up x ast.size := by
  subst hg
  have hid : ast.size < (ast.add kind span p).size := by simp
  have hopen : Run (leafSite owner start refers) ast [] (ast.add kind span p) :=
    Run.refl.leaf hk hk hp hlt
  obtain ⟨hnames, hup⟩ := Run.names (s := leafSite owner start refers) rfl (.inl hs) hid spans
  have hext := hnames.extension
  refine ⟨hopen.trans hnames, hext.up (up_add ast kind span hlt), ?_, fun o => ?_, hup⟩
  · exact hext.kind?_eq_some (fun _ => NodeKind.shape_eq_of_isLeaf hk)
      (kind?_add_self (group_of_isLeaf hk) hlt)
  · rw [used_addAll spans hid, used_add kind hk hlt]

theorem enterHeritage_run (ha : ast.Sound) (ho : owner < ast.size) (hs : start ≤ ast.size) :
    Run (leafSite owner start refers) ast [] (ast.enterHeritage owner t) := by
  generalize hids : (ast.add .heritage t.span owner).nextIds
    (childrenOfKind t .identifier).length = ids
  generalize hg : (ast.add .heritage t.span owner).addAll .identifier
    ((childrenOfKind t .identifier).map Tree.span) ast.size = grown
  obtain ⟨hrun, hlist, hkind, hused, hup⟩ := run_list owner refers _ _ _ rfl (.inr .refl) ho
    hs hg
  rw [List.length_map, hids] at hup
  have hsound := hrun.sound ha
  have hnote (k : NodeKind) :
      k.Notes (k.mapDeclaration fun d => { d with heritage := ids }) ids [] :=
    NodeKind.notes_mapDeclaration (by grind [DeclarationData.parts]) fun _ => rfl
  have hbelow (x : NodeId) (hx : x ∈ ids) : TransGen grown.Up x owner :=
    .tail (.single (hup x hx)) hlist
  unfold enterHeritage
  dsimp only
  rw [hids, hg]
  split
  · next first rest =>
    -- the list of segments has no scope, so its children find that of the component
    have hscope : grown.scopeOwner? ast.size = grown.scopeOwner? owner :=
      scopeOwner?_of_up hsound.linked hlist (by rw [hsound.scope, isKind, hkind]; rfl)
    have hnew : ast.size ≤ first := by
      have hmem : first ∈ (ast.add .heritage t.span owner).nextIds
          (childrenOfKind t .identifier).length := hids ▸ List.mem_cons_self
      rw [nextIds, List.mem_range'_1, size_add] at hmem
      omega
    refine (hrun.use (hup first List.mem_cons_self) hscope (fun o => ?_) (.inl hs)).parts
      (.inr .refl) hnote fun x hx => ?_
    · rw [hused o]
      exact ha.unused hnew o
    · rw [up_use]
      exact hbelow x hx
  · exact hrun.parts (.inr .refl) hnote hbelow

structure ParameterList (ast : Ast) (owner list : NodeId) (params : List Parameter) : Prop where
  up : ast.Up list owner
  kind : ast.kind? list = some .formalParameters
  parts : ∀ p ∈ params, ∀ x ∈ p.parts, ast.Up x list

theorem ParameterList.grow {list : NodeId} {params : List Parameter}
    (h : ParameterList a owner list params) (hext : a.Extends b) :
    ParameterList b owner list params :=
  ⟨hext.up h.up, hext.kind?_eq_some (fun _ => NodeKind.shape_eq_of_isLeaf rfl) h.kind,
    fun p hp x hx => hext.up (h.parts p hp x hx)⟩

theorem Run.setParameters {list : NodeId} {params : List Parameter} (h : Run s a log b)
    (hl : ParameterList b s.owner list params) :
    Run s a log (b.setParameters s.owner list params) := by
  refine h.note (list :: params.flatMap Parameter.parts) (params.map (·.name)) (.inr .refl)
    (fun k _ => ?_) ?_ ?_
  · exact NodeKind.notes_mapFunction (by grind [FunctionData.parts]) fun _ _ p hp =>
      .inr (List.mem_map_of_mem hp)
  · intro x hx
    rcases List.mem_cons.mp hx with rfl | hx
    · exact .single hl.up
    · obtain ⟨p, hp, hx⟩ := List.mem_flatMap.mp hx
      exact .tail (.single (hl.parts p hp x hx)) hl.up
  · intro x hx
    obtain ⟨p, hp, rfl⟩ := List.mem_map.mp hx
    exact ⟨list, hl.parts p hp p.name (by simp [Parameter.parts]), hl.kind, hl.up⟩

theorem addParameters_run (refers : Prop) (t : Tree) (ho : owner < ast.size)
    (hs : start ≤ ast.size) :
    Run (leafSite owner start refers) ast [] (ast.addParameters owner t).2 ∧
      ParameterList (ast.addParameters owner t).2 owner ast.size (ast.addParameters owner t).1 := by
  obtain ⟨hrun, hlist, hkind, -, hup⟩ := run_list owner refers .formalParameters t.span _ rfl
    (.inr .refl) ho hs (rfl : _ = (ast.addParameters owner t).2)
  rw [List.length_map] at hup
  refine ⟨hrun, hlist, hkind, fun p hp x hx => ?_⟩
  obtain ⟨name, hmem, rfl⟩ := List.mem_map.mp hp
  obtain rfl : x = name := by simpa [Parameter.parts] using hx
  exact hup x hmem

theorem enterParameters_run (ho : owner < ast.size) (hs : start ≤ ast.size) :
    Run (leafSite owner start refers) ast [] (ast.enterParameters owner t) := by
  obtain ⟨hrun, hlist⟩ := addParameters_run refers t ho hs
  exact hrun.setParameters hlist

theorem enterArrowParameters_run (ha : ast.Sound) (ho : owner < ast.size)
    (hs : start ≤ ast.size) :
    Run (leafSite owner start refers) ast [] (ast.enterArrowParameters owner t) := by
  obtain ⟨hrun, hlist⟩ := addParameters_run refers t ho hs
  have hlt := Nat.lt_of_lt_of_le ho hrun.extension.size_le
  have hdeclared : Run (leafSite owner start refers) (ast.addParameters owner t).2 []
      ((ast.addParameters owner t).2.declareAll owner
        ((ast.addParameters owner t).1.map (·.name))) := by
    refine Run.refl.declareAll (hrun.sound ha).linked hlt fun x hx o hscope => ?_
    obtain ⟨p, hp, rfl⟩ := List.mem_map.mp hx
    have hc := chain_of_scopeOwner? hscope
    have hbelow := TransGen.single (hlist.parts p hp p.name (by simp [Parameter.parts]))
    exact ⟨.inr hc, .inl ((hbelow.tail hlist.up).trans_left hc)⟩
  exact (hrun.trans hdeclared).setParameters (hlist.grow hdeclared.extension)

theorem foldl_addTypedParameter_run (refers : Prop) {list : NodeId} (pairs : List (Tree × Tree))
    (state : List Parameter × Ast) (hl : ParameterList state.2 owner list state.1)
    (hs : start ≤ list) :
    Run (leafSite owner start refers) state.2 [] (pairs.foldl (addTypedParameter list) state).2 ∧
      ParameterList (pairs.foldl (addTypedParameter list) state).2 owner list
        (pairs.foldl (addTypedParameter list) state).1 := by
  induction pairs generalizing state with
  | nil => exact ⟨.refl, hl⟩
  | cons pair rest ih =>
    obtain ⟨params, ast⟩ := state
    have hlt : list < ast.size := lt_size_of_up hl.up
    have hlt' : list < (ast.add .identifier pair.1.span list).size := by
      rw [size_add]
      exact Nat.lt_succ_of_lt hlt
    have htype : Run (leafSite owner start refers) ast [] (ast.add .identifier pair.1.span list) :=
      Run.refl.leaf rfl rfl (.inl hs) hlt
    have hname : Run (leafSite owner start refers) (ast.add .identifier pair.1.span list) []
        ((ast.add .identifier pair.1.span list).add .identifier pair.2.span list) :=
      Run.refl.leaf rfl rfl (.inl hs) hlt'
    have hgrown := hl.grow (htype.trans hname).extension
    have hparts : ∀ p ∈ (addTypedParameter list (params, ast) pair).1, ∀ x ∈ p.parts,
        (addTypedParameter list (params, ast) pair).2.Up x list := by
      intro p hp x hx
      rcases List.mem_append.mp hp with hp | hp
      · exact hgrown.parts p hp x hx
      · obtain rfl := List.mem_singleton.mp hp
        obtain rfl | rfl : x = ast.size ∨ x = ast.size + 1 := by simpa [Parameter.parts] using hx
        · exact hname.extension.up (up_add ast .identifier pair.1.span hlt)
        · have hu := up_add (ast.add .identifier pair.1.span list) .identifier pair.2.span hlt'
          rwa [size_add] at hu
    obtain ⟨hrun, hlist⟩ := ih (addTypedParameter list (params, ast) pair)
      ⟨hgrown.up, hgrown.kind, hparts⟩
    exact ⟨(htype.trans hname).trans hrun, hlist⟩

theorem enterTypedParameters_run (ho : owner < ast.size) (hs : start ≤ ast.size) :
    Run (leafSite owner start refers) ast [] (ast.enterTypedParameters owner t) := by
  have hopen : Run (leafSite owner start refers) ast [] (ast.add .formalParameters t.span owner) :=
    run_leaf rfl ho
  obtain ⟨hrun, hlist⟩ := foldl_addTypedParameter_run refers (typedPairs t)
    ([], ast.add .formalParameters t.span owner)
    ⟨up_add ast _ _ ho, kind?_add_self nofun ho, nofun⟩ hs
  exact (hopen.trans hrun).setParameters hlist

theorem enterArrowParameter_run (ho : owner < ast.size) (hk : ast.isKind owner NodeKind.isArrow) :
    Run (leafSite owner start refers) ast [] (ast.enterArrowParameter owner t) := by
  have hrun : Run (leafSite owner start refers) ast []
      ((ast.add .identifier t.span owner).declare owner ast.size) := declaredName_run ho
  rw [← hrun.extension.isKind_eq NodeKind.isArrow_shape ho] at hk
  refine hrun.note [ast.size] [] (.inr .refl) (fun k hkind => ?_) (fun x hx => ?_) nofun
  · refine NodeKind.notes_mapFunction (by grind [FunctionData.parts, Parameter.parts]) fun hf => ?_
    rw [isKind, hkind] at hk
    rw [NodeKind.isFunction_of_isArrow hk] at hf
    cases hf
  · obtain rfl := List.mem_singleton.mp hx
    rw [up_declare]
    exact .single (up_add ast _ _ ho)

theorem constructorOf?_up {statement ctor : NodeId}
    (h : ast.constructorOf? statement = some ctor) :
    ∃ block, ast.Up statement block ∧ ast.Up block ctor := by
  obtain ⟨-, -, h⟩ := Option.bind_eq_some_iff.mp h
  obtain ⟨block, hblock, h⟩ := Option.bind_eq_some_iff.mp h
  obtain ⟨-, -, h⟩ := Option.bind_eq_some_iff.mp h
  obtain ⟨c, hc, h⟩ := Option.bind_eq_some_iff.mp h
  obtain ⟨-, -, h⟩ := Option.bind_eq_some_iff.mp h
  cases h
  exact ⟨block, hblock, hc⟩

theorem enterSuperCall_run {statement : NodeId} (hu : ast.Up owner statement) :
    Run (leafSite owner start refers) ast [] (ast.enterSuperCall owner statement) := by
  unfold enterSuperCall
  dsimp only
  generalize hf : (fun k : NodeKind => _) = f
  have hmark : Run (leafSite owner start refers) ast [] (ast.modifyKind owner f) := by
    refine Run.refl.mark (.inr .refl) fun k _ => ?_
    rw [← hf]
    cases k with
    | call _ => exact NodeKind.notes_call
    | _ => exact .refl _
  split
  · exact hmark
  · next ctor hctor =>
    obtain ⟨block, hblock, hc⟩ := constructorOf?_up hctor
    rw [up_modifyKind] at hblock hc
    refine hmark.part (x := owner) (.inr ?_) ?_ fun k => ?_
    · rw [up_modifyKind]
      exact .head hu (.head hblock (.single hc))
    · rw [up_modifyKind]
      exact .head hu (.head hblock (.single hc))
    · exact NodeKind.notes_mapFunction (by grind [FunctionData.parts]) fun _ _ _ => .inl

theorem foldl_addImportPart_run (owner : NodeId) (refers : Prop) {importId : NodeId}
    (parts : List Tree) (state : Ast × ImportData)
    (hlt : importId < state.1.size) (hs : start ≤ importId)
    (hd : ∀ x ∈ state.2.parts, TransGen state.1.Up x importId) :
    Run (leafSite owner start refers) state.1 [] (parts.foldl (addImportPart importId) state).1 ∧
      ∀ x ∈ (parts.foldl (addImportPart importId) state).2.parts,
        TransGen (parts.foldl (addImportPart importId) state).1.Up x importId := by
  induction parts generalizing state with
  | nil => exact ⟨.refl, hd⟩
  | cons t rest ih =>
    obtain ⟨ast, data⟩ := state
    have hpart : Run (leafSite owner start refers) ast [] (addImportPart importId (ast, data) t).1 ∧
        ∀ x ∈ (addImportPart importId (ast, data) t).2.parts,
          TransGen (addImportPart importId (ast, data) t).1.Up x importId := by
      dsimp only [addImportPart]
      split
      · split
        · next name _ =>
          have hrun : Run (leafSite owner start refers) ast []
              (ast.add .identifier name.span importId) := Run.refl.leaf rfl rfl (.inl hs) hlt
          refine ⟨hrun, fun x hx => ?_⟩
          rcases List.mem_append.mp hx with hx | hx
          · exact hrun.extension.above (hd x (List.mem_append_left _ hx))
          · obtain rfl : x = ast.size := by simpa using hx
            exact .single (up_add ast _ _ hlt)
        · exact ⟨.refl, hd⟩
      · exact ⟨.refl, hd⟩
      · obtain ⟨hrun, hlist, -, -, hup⟩ := run_list owner refers .importPath t.span
          ((childrenOfKind t .identifier).map Tree.span) rfl (.inl hs) hlt
          (Nat.le_trans hs (Nat.le_of_lt hlt)) rfl
        rw [List.length_map] at hup
        refine ⟨hrun, fun x hx => ?_⟩
        rcases List.mem_append.mp hx with hx | hx
        · exact .tail (.single (hup x hx)) hlist
        · exact hrun.extension.above (hd x (List.mem_append_right _ hx))
      · exact ⟨.refl, hd⟩
    obtain ⟨hrun, hd'⟩ := hpart
    obtain ⟨hrest, hall⟩ := ih _ (Nat.lt_of_lt_of_le hlt hrun.extension.size_le) hd'
    exact ⟨hrun.trans hrest, hall⟩

theorem enterImport_run (ho : owner < ast.size) (hs : start ≤ ast.size) :
    Run (leafSite owner start refers) (ast.addListed (.importStatement {}) t.span owner) []
      (ast.enterImport owner t) := by
  have hid : ast.size < (ast.addListed (.importStatement {}) t.span owner).size := by simp
  generalize hstate : t.children.foldl (addImportPart ast.size)
    (ast.addListed (.importStatement {}) t.span owner, {}) = state
  obtain ⟨hrun, hd⟩ := foldl_addImportPart_run owner refers t.children
    (ast.addListed (.importStatement {}) t.span owner, {}) hid hs (List.forall_mem_nil _)
  rw [hstate] at hrun hd
  have hshape := hrun.extension.shape ast.size hid
  rw [shape?, shape?, kind?_addListed ho, if_pos rfl] at hshape
  have he : ast.enterImport owner t = state.1.modifyKind ast.size fun _ =>
      .importStatement state.2 := by
    rw [← hstate]
    rfl
  rw [he]
  refine hrun.note _ [] (.inl hs) (fun k hk => ?_) hd (List.forall_mem_nil _)
  rw [hk] at hshape
  cases k <;> cases hshape
  exact NodeKind.notes_importStatement

theorem enterDeclaration_run :
    Run s (ast.addListed (.declaration {}) t.span owner) [] (ast.enterDeclaration owner t) := by
  have hk : (NodeKind.declaration {}).group ≠ .importStatement := nofun
  rw [addListed_eq_add hk]
  unfold enterDeclaration
  dsimp only
  split
  · exact Run.refl.quiet (.mark rfl rfl)
  · exact .refl

theorem enterInstance_run :
    Run s (ast.addListed (.instance_ { isRoot := ast.isRootPlace owner }) t.span owner) []
      (ast.enterInstance owner t) := by
  have hk (data : InstanceData) : (NodeKind.instance_ data).group ≠ .importStatement := nofun
  rw [addListed_eq_add (hk _)]
  unfold enterInstance
  dsimp only
  split
  · exact Run.refl.quiet (.mark rfl rfl)
  · exact .refl

/-- The scope of a function's body gets the names of the parameters, which are not in the body. -/
theorem enterCallableBody_run (ha : ast.Sound) (ho : owner < ast.size) (hs : start ≤ ast.size)
    (hk : ast.isKind owner NodeKind.isFunction) :
    Run (leafSite owner start refers) (ast.addListed .block t.span owner) []
      (ast.enterCallableBody owner t) := by
  have hext : ast.Extends (ast.addListed .block t.span owner) := extends_addListed ho
  have hid : ast.size < (ast.addListed .block t.span owner).size := by simp
  have hscope : (ast.addListed .block t.span owner).scopeOwner? ast.size = some ast.size := by
    unfold scopeOwner?
    rw [List.find?_cons, scope?_addListed ho, if_pos rfl]
    rfl
  have hdeclared : Run (leafSite owner start refers) (ast.addListed .block t.span owner) []
      ((ast.addListed .block t.span owner).declareAll ast.size
        ((((ast.kind? owner).bind NodeKind.function?).elim [] (·.params)).map (·.name))) := by
    refine Run.refl.declareAll (ha.linked.grows hext.grows) hid fun x hx o hfound => ?_
    cases hscope.symm.trans hfound
    refine ⟨.inl hs, .inr ⟨?_, owner, up_addListed ho, ?_, hext.parameterOf ?_⟩⟩
    · rw [kind?_addListed ho, if_pos rfl]
    · rwa [hext.isKind_eq NodeKind.isFunction_shape ho]
    · apply ha.parameterNames
      obtain ⟨k, hkind, hfun⟩ := isKind_iff.mp hk
      rw [hkind] at hx
      rw [parameterNames, hkind]
      cases k <;> simp_all [NodeKind.parameterNames, NodeKind.function?]
  refine hdeclared.part (x := ast.size) (.inr .refl) ?_ fun k => ?_
  · exact .single (hdeclared.extension.up (up_addListed ho))
  · exact NodeKind.notes_mapFunction (by grind [FunctionData.parts]) fun _ _ _ => .inl

def Rule.opens? (rule : Rule) (ast : Ast) (owner : NodeId) (t : Tree) : Option NodeKind :=
  match rule with
  | .importStatement => some (.importStatement {})
  | .declaration | .value .component => some (.declaration {})
  | .instance_ => some (.instance_ { isRoot := ast.isRootPlace owner })
  | .tagged => some (.tagged {})
  | .property => some (.property {})
  | .assignment => some (.assignment {})
  | .member => some .member
  | .callable form => some (.callable form {})
  | .arrow => some (.callable .arrow {})
  | .call => some (.call false)
  | .newExpression => some .newExpression
  | .classDeclaration => some .classDeclaration
  | .variableList => some (.variableList (keywordOf t))
  | .declarator => some .declarator
  | .wrap kind => some kind
  | .body => some .body
  | .argumentList => some .arguments
  | .value .expression => some .bindableExpression
  | .value .block | .callableBody | .arrowBody => some .block
  | _ => none

def Rule.Refers : Rule → Prop
  | .typeSegment | .tag | .reference => True
  | _ => False

/-- What a rule takes for granted of its parameters and of the node it works under. -/
def Rule.Suits (rule : Rule) (ast : Ast) (owner : NodeId) : Prop :=
  match rule with
  | .leaf kind => kind.isLeaf
  | .wrap kind => kind.isWrapper
  | .callable form => form ≠ .arrow
  | .declarationName outer => ast.Up owner outer
  | .superCall statement => ast.Up owner statement
  | .callableBody => ast.isKind owner NodeKind.isFunction
  | .arrowParameter => ast.isKind owner NodeKind.isArrow
  | _ => True

theorem enter_leaves {rule : Rule} (ha : ast.Sound) (hr : rule.Suits ast owner)
    (ho : owner < ast.size) (hh : rule.opens? ast owner t = none) :
    Run (leafSite owner ast.size rule.Refers) ast [] (enter rule owner t ast) := by
  have hs : ast.size ≤ ast.size := Nat.le_refl _
  cases rule with
  | skip | pass => exact .refl
  | leaf kind => exact run_leaf hr ho
  | idAssignment => exact enterIdAssignment_run
  | declarationName outer => exact enterDeclarationName_run ho hr
  | heritage => exact enterHeritage_run ha ho hs
  | explicitId => exact enterExplicitId_run ho
  | boundName => exact enterBoundName_run ho
  | typeSegment => exact enterTypeSegment_run ha ho
  | tag => exact enterTag_run ha ho
  | tagText => exact enterTagText_run ho
  | propertyType => exact enterPropertyType_run ho
  | propertyName => exact enterPropertyName_run ho
  | assignmentPath => exact enterAssignmentPath_run ho
  | callableName => exact enterCallableName_run ho
  | parameters => exact enterParameters_run ho hs
  | typedParameters => exact enterTypedParameters_run ho hs
  | arrowParameters => exact enterArrowParameters_run ha ho hs
  | arrowParameter => exact enterArrowParameter_run ho hr
  | superCall statement => exact enterSuperCall_run hr
  | declaredName => exact declaredName_run ho
  | reference => exact reference_run ha ho
  | value form => cases form <;> cases hh
  | _ => cases hh

/-- A rule with a node of its own opens it under the owner and adds leaves to it at most. -/
theorem enter_opened {rule : Rule} (ha : ast.Sound) (hr : rule.Suits ast owner)
    (ho : owner < ast.size) (hh : rule.opens? ast owner t = some kind) : kind.Bare ∧
      Run (leafSite owner ast.size False) (ast.addListed kind t.span owner) []
        (enter rule owner t ast) := by
  -- all rules but a few add their node and no more
  have hadd (hbare : kind.Bare) (hk : kind.group ≠ .importStatement)
      (he : enter rule owner t ast = ast.add kind t.span owner) : kind.Bare ∧
        Run (leafSite owner ast.size False) (ast.addListed kind t.span owner) []
          (enter rule owner t ast) := by
    rw [he, addListed_eq_add hk]
    exact ⟨hbare, .refl⟩
  cases rule with
  | importStatement =>
    cases hh
    exact ⟨rfl, enterImport_run ho (Nat.le_refl _)⟩
  | declaration =>
    cases hh
    exact ⟨rfl, enterDeclaration_run⟩
  | instance_ =>
    cases hh
    exact ⟨rfl, enterInstance_run⟩
  | value form =>
    cases form with
    | component =>
      cases hh
      exact ⟨rfl, enterDeclaration_run⟩
    | expression | block =>
      cases hh
      exact hadd rfl nofun rfl
  | callableBody =>
    cases hh
    exact ⟨rfl, enterCallableBody_run ha ho (Nat.le_refl _) hr⟩
  | wrap _ =>
    cases hh
    exact hadd (NodeKind.bare_of_isWrapper hr) (NodeKind.group_of_isWrapper hr) rfl
  | variableList | tagged | property | assignment | member | callable _ | arrow | call
  | newExpression | classDeclaration | declarator | body | argumentList | arrowBody =>
    cases hh
    exact hadd rfl nofun rfl
  | _ => cases hh

end ComponentCompiler.Ast
