import ComponentCompiler.Proofs.Ast.Entering
import ComponentCompiler.Proofs.Ast.Entries

namespace ComponentCompiler.Ast

open Cst (Tree)
open Relation

variable {a b ast : Ast} {c id o owner p x y : NodeId} {kind k : NodeKind} {s : Site} {slot : Slot}
  {log : List Entry} {rule : Rule} {t : Tree}

def leaveSite (ast : Ast) (id : NodeId) : Site :=
  ⟨id, ast.size, True, fun _ => False⟩

theorem addMember_run (slot : Slot) (hu : ast.Up id owner) (hs : ast.slot? id = some slot)
    (hi : slot ≠ .idComponents) (hb : slot ≠ .bindings) :
    Run (leaveSite ast id) ast (ast.listing? id).toList
      (ast.addMember owner fun m => m.push id slot) := by
  rw [listing?_of_slot? hs, holder?_member hi hb hu]
  unfold addMember
  cases hc : ast.bodyOwner? owner with
  | none => exact .refl
  | some c =>
    obtain ⟨-, hup, hk⟩ := bodyOwner?_eq_some.mp hc
    have hpush : (NodeKind.mapMembers fun m => m.push id slot) = NodeKind.push slot id := by
      rw [NodeKind.push, if_neg hb]
    refine Run.refl.step ?_
    dsimp only
    rw [hpush]
    refine .enlist hi (.inr (.head hu (.single hup))) ?_ (.head hu (.single hup))
    rwa [show NodeKind.keeps slot = fun k => k.members?.isSome by
      funext k
      rw [NodeKind.keeps, if_neg hb]]

/-- An instance with an id is entered in the list of the component that constructs it, which becomes
its owner and sees the id. -/
theorem exposeIdComponent_run {i : InstanceData} {n : NodeId} (ha : ast.Sound)
    (hu : ast.Up id owner) (hk : ast.kind? id = some (.instance_ i)) (hid : i.id = some n)
    (hr : i.isRoot = false) :
    Run (leaveSite ast id) ast (ast.listing? id).toList (ast.exposeIdComponent owner id n) := by
  have hslot : ast.slot? id = some .idComponents := by
    simp [slot?_of_kind? hk, NodeKind.slot?, hid, hr]
  have hp : ast.parent? id = some owner := hu
  rw [listing?_of_slot? hslot, holder?, hp, Option.bind_some]
  unfold exposeIdComponent
  cases hc : ast.exposingOwner? owner with
  | none => exact .refl
  | some c =>
    have hchain := exposingOwner?_above hc
    have habove : TransGen ast.Up id c := .head' hu hchain
    have hname : TransGen ast.Up n id := by
      apply ha.held id n
      simp [held, hk, NodeKind.held, InstanceData.parts, hid]
    have hstep : Run (leaveSite ast id) ast [⟨.idComponents, c, id⟩] _ :=
      Run.refl.step (.expose (.inr habove.to_reflTransGen) (.inr .refl) (exposingOwner?_keeps hc) hk
        habove)
    refine hstep.declare ?_ ?_
    · rw [up_modifyKind, up_modifyKind]
      exact habove.to_reflTransGen
    · rw [up_modifyKind, up_modifyKind]
      exact hname.trans habove

theorem leaveInstance_run {i : InstanceData} (ha : ast.Sound) (hu : ast.Up id owner)
    (hk : ast.kind? id = some (.instance_ i)) :
    Run (leaveSite ast id) ast (ast.listing? id).toList (ast.leaveInstance owner id) := by
  obtain ⟨name, n, boundName, arguments, body, isRoot, holder, members⟩ := i
  unfold leaveInstance
  cases n with
  | none =>
    rw [hk]
    exact addMember_run .defaultSlot hu (by simp [slot?_of_kind? hk, NodeKind.slot?]) nofun nofun
  | some n =>
    cases isRoot with
    | false =>
      rw [hk]
      exact exposeIdComponent_run ha hu hk rfl rfl
    | true =>
      rw [hk, listing?_eq_none (by simp [slot?_of_kind? hk, NodeKind.slot?])]
      exact .refl

theorem keepConstructor_run (hu : ast.Up id owner) (hs : s.owner = id) :
    Run s ast [] (ast.keepConstructor owner id) := by
  unfold keepConstructor
  split
  · exact .refl
  · next c hc =>
    obtain ⟨-, hup, -⟩ := bodyOwner?_eq_some.mp hc
    have hnote : Run s ast []
        (ast.modifyKind c (.mapDeclaration fun d => { d with ctor := some id })) := by
      refine Run.refl.part (x := id) (.inr (hs ▸ .head hu (.single hup))) (.head hu (.single hup))
        fun k => ?_
      exact NodeKind.notes_mapDeclaration (by grind [DeclarationData.parts]) fun _ => rfl
    dsimp only
    split
    · exact hnote
    · exact hnote.quiet (.mark rfl rfl)

theorem declareFunction_run (ha : ast.Sound) (hu : ast.Up id owner) (hs : s.owner = id) :
    Run s ast [] (ast.declareFunction owner id) := by
  unfold declareFunction
  split
  · next name hname =>
    have hheld : name ∈ ast.held id := by
      obtain ⟨f, hf, hn⟩ := Option.bind_eq_some_iff.mp hname
      obtain ⟨k, hk, hkf⟩ := Option.bind_eq_some_iff.mp hf
      rw [held, hk]
      cases k <;> cases hkf
      simp [NodeKind.held, FunctionData.parts, hn]
    refine Run.refl.declare (hs ▸ .single hu) ?_
    exact (ha.held id name hheld).tail hu
  · exact .refl

theorem addToList_run {form : Callable} (hu : ast.Up id owner) (hs : s.owner = id)
    (hf : form.slot? = none) : Run s ast [] (ast.addMember owner (addToList form id)) := by
  have hsame : addToList form id = fun m => m := by
    cases form with
    | function | arrow | ctor => rfl
    | _ => cases hf
  unfold addMember
  split
  · exact .refl
  · next c hc =>
    obtain ⟨-, hup, -⟩ := bodyOwner?_eq_some.mp hc
    rw [hsame]
    refine Run.refl.mark (.inr (hs ▸ .head hu (.single hup))) fun k _ => ?_
    cases k <;> exact .refl _

theorem leaveCallable_run {form : Callable} {f : FunctionData} (ha : ast.Sound)
    (hu : ast.Up id owner) (hk : ast.kind? id = some (.callable form f)) :
    Run (leaveSite ast id) ast (ast.listing? id).toList (ast.leaveCallable form owner id) := by
  have hslot : ast.slot? id = form.slot? := slot?_of_kind? hk
  -- a member is entered in a list and nothing else happens
  have hmember (slot : Slot) (hf : form.slot? = some slot) (hi : slot ≠ .idComponents)
      (hb : slot ≠ .bindings) : Run (leaveSite ast id) ast (ast.listing? id).toList
        (ast.addMember owner fun m => m.push id slot) :=
    addMember_run slot hu (hslot.trans hf) hi hb
  have hother (hf : form.slot? = none) : Run (leaveSite ast id) ast (ast.listing? id).toList
      (ast.addMember owner (addToList form id)) := by
    rw [listing?_eq_none (hslot.trans hf)]
    exact addToList_run hu rfl hf
  unfold leaveCallable
  cases form with
  | event => exact hmember .events rfl nofun nofun
  | listener => exact hmember .listeners rfl nofun nofun
  | method | typedFunction => exact hmember .functions rfl nofun nofun
  | arrow => exact hother rfl
  | function =>
    have hrun := hother rfl
    have hdeclare := declareFunction_run (s := leaveSite ast id) (hrun.sound ha)
      (hrun.extension.up hu) rfl
    exact hrun.transQuiet hdeclare
  | ctor =>
    have hrun := hother rfl
    have hkeep := keepConstructor_run (s := leaveSite ast id) (hrun.extension.up hu) rfl
    exact hrun.transQuiet hkeep

theorem leaveClass_run (ha : ast.Sound) (hu : ast.Up id owner) (hs : s.owner = id) :
    Run s ast [] (ast.leaveClass owner id) := by
  unfold leaveClass
  split
  · next name hname =>
    have hchild := (mem_children ha.linked).mp (List.mem_of_find?_eq_some hname)
    exact Run.refl.declare (hs ▸ .single hu) (.head hchild (.single hu))
  · exact .refl

theorem mem_used_use (h : y ∈ (ast.use p x).used o) : y ∈ ast.used o ∨ y = x := by
  unfold use modifyScope at h
  split at h
  · exact .inl h
  · next q _ =>
    change y ∈ (ast.editScope q _).used o at h
    rw [used, scope?_editScope] at h
    split at h
    · unfold used
      cases hs : ast.scope? o with
      | none => simp [hs] at h
      | some scope => simpa [hs] using h
    · exact .inl h

theorem foldl_use_run {xs : List NodeId} (hs : s.refers) (hn : xs.Nodup)
    (hu : ∀ x ∈ xs, ast.Up x s.owner) (hfree : ∀ x ∈ xs, ∀ o, x ∉ ast.used o) :
    Run s ast [] (xs.foldl (fun ast x => ast.use s.owner x) ast) := by
  induction xs generalizing ast with
  | nil => exact .refl
  | cons x rest ih =>
    obtain ⟨hnot, hrest⟩ := List.nodup_cons.mp hn
    have hstep : Run s ast [] (ast.use s.owner x) :=
      Run.refl.use (hu x List.mem_cons_self) rfl (hfree x List.mem_cons_self) (.inr ⟨rfl, hs⟩)
    refine hstep.transQuiet (ih hrest (fun y hy => ?_) fun y hy o hmem => ?_)
    · rw [up_use]
      exact hu y (List.mem_cons_of_mem x hy)
    · rcases mem_used_use hmem with hmem | rfl
      · exact hfree y (List.mem_cons_of_mem x hy) o hmem
      · exact hnot hy

theorem nodup_children (hl : ast.Linked) (p : NodeId) : (ast.children p).Nodup := by
  rw [hl.children p]
  exact List.nodup_range.filter _

theorem leaveArguments_run (ha : ast.Sound) (hu : ast.Up id owner)
    (hfree : ∀ x, ast.Up x id → ∀ o, x ∉ ast.used o) :
    Run (leaveSite ast id) ast [] (ast.leaveArguments owner id) := by
  have hchild {x : NodeId} {q : NodeId → Bool} (hx : x ∈ (ast.children id).filter q) :
      ast.Up x id := (mem_children ha.linked).mp (List.mem_of_mem_filter hx)
  have huses : Run (leaveSite ast id) ast []
      (((ast.children id).filter fun c => ast.isKind c (· == .identifier)).foldl
        (fun ast ident => ast.use id ident) ast) :=
    foldl_use_run (s := leaveSite ast id) trivial ((nodup_children ha.linked id).filter _)
      (fun x hx => hchild hx) fun x hx => hfree x (hchild hx)
  have hup := huses.extension.up hu
  refine huses.part (x := id) (.inr (.single hup)) (.single hup) fun k => ?_
  exact NodeKind.notes_mapInstance (by grind [InstanceData.parts]) fun _ => ⟨rfl, rfl, rfl⟩

theorem addBinding_run (h : Run s ast [] b) (hs : s.owner = id) (hl : ast.Linked)
    (hid : id < ast.size) (hp : ast.fedProperty? id = some p) :
    Run s ast ((ast.holder? id .bindings).map fun p => ⟨.bindings, p, id⟩).toList
      (b.modifyKind p (.addBinding id)) := by
  have hext := h.extension
  have habove := fedProperty?_above hp
  have hprop : b.isKind p NodeKind.isProperty = ast.isKind p NodeKind.isProperty :=
    hext.isKind_eq NodeKind.isProperty_shape (Nat.lt_trans (hl.above_lt habove) hid)
  have haround : s.Around b p := .inr (hs ▸ hext.chain habove.to_reflTransGen)
  rw [holder?, hp, Option.filter_some]
  by_cases hq : ast.isKind p NodeKind.isProperty
  · rw [if_pos hq]
    exact h.step (.enlist (by decide) haround (hprop.trans hq) (hext.above habove))
  · rw [if_neg hq]
    refine h.mark haround fun k hk => NodeKind.notes_addBinding ?_
    rw [Bool.eq_false_iff.mpr hq, isKind, hk] at hprop
    exact hprop

theorem leaveMember_run (ha : ast.Sound) (hk : ast.kind? id = some .member)
    (hfree : ∀ x, ast.Up x id → ∀ o, x ∉ ast.used o) :
    Run (leaveSite ast id) ast (ast.listing? id).toList (ast.leaveMember id) := by
  have hid := lt_size_of_kind? hk
  have hslot : ast.slot? id = if ast.startsNamed id then some .bindings else none :=
    slot?_of_kind? hk
  unfold leaveMember
  cases hr : (ast.children id).head? with
  | none =>
    have hnot : ast.startsNamed id = false := by rw [startsNamed, hr]; rfl
    rw [listing?_eq_none (by rw [hslot, hnot]; rfl)]
    exact .refl
  | some receiver =>
    have hchild := (mem_children ha.linked).mp (List.mem_of_head? hr)
    have hnamed : ast.startsNamed id =
        (ast.isKind receiver (· == .identifier) || ast.isKind receiver (· == .member)) := by
      rw [startsNamed, hr]
      rfl
    have huse : Run (leaveSite ast id) ast []
        (if ast.isKind receiver (· == .identifier) then ast.use id receiver else ast) :=
      iteInduction (motive := Run (leaveSite ast id) ast [])
        (fun _ => Run.refl.use hchild rfl (hfree receiver hchild) (.inr ⟨rfl, trivial⟩))
        fun _ => .refl
    dsimp only
    rw [← hnamed, huse.extension.fedProperty?_eq ha.linked hid]
    cases hn : ast.startsNamed id with
    | false =>
      rw [listing?_eq_none (by rw [hslot, hn]; rfl)]
      exact huse
    | true =>
      rw [listing?_of_slot? (by rw [hslot, hn]; rfl)]
      cases hp : ast.fedProperty? id with
      | none =>
        rw [holder?, hp]
        exact huse
      | some p => exact addBinding_run huse rfl ha.linked hid hp

theorem slot?_eq_none (hs : ast.shape? id = some kind) (hk : kind.isUnlisted) :
    ast.slot? id = none := by
  obtain ⟨k, hkind, rfl⟩ := Option.map_eq_some_iff.mp hs
  rw [NodeKind.isUnlisted_shape] at hk
  rw [slot?_of_kind? hkind, NodeKind.slot?_of_isUnlisted hk]

/-- Leaving a node enters it in its list. -/
theorem leave_run (ha : ast.Sound) (hu : ast.Up id owner) (hr : rule.Suits a owner)
    (hopen : rule.opens? a owner t = some kind) (hs : ast.shape? id = some kind)
    (hfree : rule = .member ∨ rule = .argumentList → ∀ x, ast.Up x id → ∀ o, x ∉ ast.used o) :
    Run (leaveSite ast id) ast (ast.listing? id).toList (leave rule owner id ast) := by
  obtain ⟨k, hk, hshape⟩ := Option.map_eq_some_iff.mp hs
  have hsame (hkind : kind.isUnlisted) {b : Ast} (h : Run (leaveSite ast id) ast [] b) :
      Run (leaveSite ast id) ast (ast.listing? id).toList b := by
    rwa [listing?_eq_none (slot?_eq_none hs hkind)]
  -- what is noted in the owner is the node itself
  have hnote {f : NodeKind → NodeKind} (hf : ∀ k : NodeKind, k.Notes (f k) [id] []) :
      Run (leaveSite ast id) ast [] (ast.modifyKind owner f) :=
    Run.refl.part (.inr (.single hu)) (.single hu) hf
  cases rule with
  | instance_ =>
    cases hopen
    cases k with
    | instance_ i => exact leaveInstance_run ha hu hk
    | _ => cases hshape
  | tagged =>
    cases hopen
    cases k <;> cases hshape
    exact addMember_run .defaultSlot hu (slot?_of_kind? hk) nofun nofun
  | property =>
    cases hopen
    cases k <;> cases hshape
    exact addMember_run .properties hu (slot?_of_kind? hk) nofun nofun
  | assignment =>
    cases hopen
    cases k <;> cases hshape
    exact addMember_run .assignments hu (slot?_of_kind? hk) nofun nofun
  | member =>
    cases hopen
    cases k <;> cases hshape
    exact leaveMember_run ha hk (hfree (.inl rfl))
  | callable form =>
    cases hopen
    cases k <;> cases hshape
    exact leaveCallable_run ha hu hk
  | classDeclaration =>
    cases hopen
    exact hsame rfl (leaveClass_run ha hu rfl)
  | body =>
    cases hopen
    exact hsame rfl (hnote fun k => k.notes_withBody)
  | argumentList =>
    cases hopen
    exact hsame rfl (leaveArguments_run ha hu (hfree (.inr rfl)))
  | value form =>
    refine hsame ?_ (hnote fun k => k.notes_withValue)
    cases form <;> cases hopen <;> rfl
  | arrowBody =>
    cases hopen
    refine hsame rfl (hnote fun k => ?_)
    exact NodeKind.notes_mapFunction (by grind [FunctionData.parts]) fun _ _ _ => .inl
  | wrap _ =>
    cases hopen
    exact hsame (NodeKind.isUnlisted_of_isWrapper hr) .refl
  | importStatement | declaration | arrow | call | newExpression | variableList | declarator
  | callableBody =>
    cases hopen
    exact hsame rfl .refl
  | _ => cases hopen

end ComponentCompiler.Ast
