import ComponentCompiler.Proofs.Ast.Receivers

namespace ComponentCompiler

theorem Cst.Table.isPresent_tree? {t : Cst.Table} {root : Cst.Tree} (ht : t.tree? = some root) :
    root.isPresent := by
  unfold tree? at ht
  split at ht
  · cases ht
    rfl
  · next e he =>
    obtain ⟨_, slots, -, rfl, -⟩ := treeAt?_eq_some he ht
    rfl

namespace Ast

open Cst (Tree)
open Relation

variable {a b ast : Ast} {o owner p x y : NodeId} {kind : NodeKind} {role : Role} {rule : Rule}
  {t : Tree} {ts : List Tree} {log : List Entry} {refers : Prop} {source : String} {m : Moment}

/-- Between a node and one below it, all that is opened stands below the node. -/
theorem Visits.dense (h : Visits o refers ts log a b) (ho : o < a.size) (hl : a.Linked) :
    ∀ x y z, a.size ≤ x → x < y → y ≤ z → b.Opened x → b.Opened y → TransGen b.Up z x →
      TransGen b.Up y x := by
  refine h.parts (motive := fun _ _ a b => ∀ x y z, a.size ≤ x → x < y → y ≤ z → b.Opened x →
    b.Opened y → TransGen b.Up z x → TransGen b.Up y x) ?_ ?_ ?_ ho hl
  · intro o a b refers hrun x y z hx _ _ hopen
    exact absurd hopen (hrun.leaf_of_new hx)
  · intro o t a entered visited b log refers slots ho hl h hinner ih x y z hx hxy hyz hox hoy hzx
    have hlt := h.lt ho
    have hext := (hinner.run hlt).extension
    have hl' := h.linked ho hl
    have hy : a.size < y := Nat.lt_of_le_of_lt hx hxy
    obtain ⟨hnew, hoy⟩ :=
      (h.opened_cases hext (Nat.le_of_lt hy) hoy).resolve_left (Nat.ne_of_gt hy)
    rcases h.opened_cases hext hx hox with rfl | ⟨hnew', hox⟩
    · exact h.leave.extension.above (hinner.under_owner hlt hl' y hnew hoy)
    · obtain ⟨_, hup, -⟩ := TransGen.head'_iff.mp hzx
      have hz : z < visited.size := h.size_eq ▸ lt_size_of_up hup
      rw [h.leave.extension.grows.above_iff (hl'.grows hext.grows) hz] at hzx
      exact h.leave.extension.above (ih x y z hnew' hxy hyz hox hoy hzx)
  · intro o a b c log log' refers refers' ts ts' ho hl hfirst hrest ih ih' x y z hx hxy hyz hox hoy
      hzx
    have hext := (hfirst.run ho).extension
    have hl' := hl.grows hext.grows
    have hrun := hrest.run (Nat.lt_of_lt_of_le ho hext.size_le)
    by_cases hold : x < b.size
    · have hz : z < b.size := Nat.lt_of_not_le fun hge =>
        not_above_of_run hrun hl' (Nat.lt_of_lt_of_le ho hx) hold hge hzx
      rw [hrun.extension.grows.above_iff hl' hz] at hzx
      have hy := Nat.lt_of_le_of_lt hyz hz
      exact hrun.extension.above (ih x y z hx hxy hyz ((hrun.extension.opened_iff hold).mp hox)
        ((hrun.extension.opened_iff hy).mp hoy) hzx)
    · exact ih' x y z (Nat.le_of_not_lt hold) hxy hyz hox hoy hzx

theorem Rule.group_of_inside (hr : rule.Suits a owner) (h : rule.opens? a owner t = some kind)
    {inner : Role × NodeId} (hi : rule.inside owner a.size = some inner) :
    kind.group ≠ .importStatement := by
  cases rule with
  | importStatement => cases hi
  | wrap kind =>
    cases h
    exact NodeKind.group_of_isWrapper hr
  | value form => cases form <;> cases h <;> nofun
  | _ => cases h <;> nofun

theorem Moment.In.group_owner (h : m.In role owner ts a) (hw : Workplace role a owner)
    (hg : a.group owner ≠ .importStatement) : m.ast.group m.owner ≠ .importStatement := by
  induction h with
  | here => exact hg
  | @later role owner t _ a _ ih =>
    obtain ⟨log, hv⟩ := hw.visits t
    refine ih (hw.next t) ?_
    rwa [((hv.run hw.lt).extension.grows.keeps hw.lt).1]
  | @inside role child owner o head slots _ a hi h ih =>
    cases hw.visitCase head slots with
    | leaves _ hnone _ | closed _ hnone _ =>
      rw [hnone] at hi
      cases hi
    | pass hp hplain _ =>
      rw [hp] at hi ih
      cases hi
      exact ih hplain hg
    | node ho hi' hinner hopening =>
      have hserves := Rule.ofRole_serves hw.suits (Cst.Kind.ofName head.kind)
      obtain ⟨-, -, -, hs⟩ := Ast.opened hw.sound hserves.suits hw.lt ho
      rw [hi'] at hi
      cases hi
      refine ih hinner ?_
      obtain ⟨k, hk, hshape⟩ := Option.map_eq_some_iff.mp hs
      rw [group, hk, Option.elim_some, ← k.group_shape, hshape]
      exact Rule.group_of_inside hserves.suits ho hi'

theorem Moment.In.span (h : m.In role owner ts a) (hw : Workplace role a owner)
    (ho : m.opens?.isSome) :
    m.tree.isPresent ∧ (visitAll role owner ts a).span m.ast.size = m.tree.span := by
  obtain ⟨kind, ho⟩ := Option.isSome_iff_exists.mp ho
  obtain ⟨hplace, -⟩ := h.workplace hw
  have hsettled := (h.settled hw).extension
  obtain ⟨role', owner', tree, b⟩ := m
  cases tree with
  | missing => cases ho
  | node head slots =>
    refine ⟨rfl, ?_⟩
    rw [hsettled.span_eq (lt_size_of_up (hplace.visit_opened ho).1)]
    exact hplace.span_visit_opened ho

theorem Settled.lt_of_above {start : NodeId} (h : Settled start a b) (ha : a.Linked)
    (hb : b.Linked) (hx : start ≤ x) (hlt : x < a.size) (hu : TransGen b.Up y x) : y < a.size := by
  have hchild {y p : NodeId} (hp : start ≤ p) (hlt : p < a.size) (hu : b.Up y p) : y < a.size := by
    rw [← mem_children hb, h.children p hp hlt, mem_children ha] at hu
    exact lt_size_of_up hu
  induction hu using TransGen.head_induction_on with
  | single hu => exact hchild hx hlt hu
  | head hu hrest ih => exact hchild (Nat.le_trans hx (Nat.le_of_lt (hb.above_lt hrest))) ih hu

theorem Rule.opens?_other (role : Role) : (ofRole role .other).opens? a owner t = none := by
  cases role with
  | arrowPart behind => cases behind <;> rfl
  | declaratorPart behind => cases behind <;> rfl
  | assignmentSlot place => rcases place with _ | _ | _ | _ <;> rfl
  | _ => rfl

theorem Moment.kind_of_opens (m : Moment) (h : m.opens?.isSome) : m.tree.kind ≠ some .other := by
  intro hk
  rw [opens?, rule?, hk, Option.map_some, Option.bind_some, Rule.opens?_other] at h
  cases h

/-- What is opened below a node covers a part of one of the slots of its tree, and no token. -/
theorem part_of_below {root : Tree} {name : String} (h : build root name = .ok ast)
    (hm : m.Of root) (ho : m.opens?.isSome) (hy : ast.Opened y)
    (hu : TransGen ast.Up y m.ast.size) : ∃ slot ∈ m.tree.slots, ∃ part : Tree,
      part.Within slot ∧ part.isPresent ∧ part.kind ≠ some .other ∧ ast.span y = part.span := by
  have hw := workplace_ofSpan root.span
  have hlinked := build_linked h
  obtain rfl := eq_of_build h
  have hsettled := hm.settled hw
  obtain ⟨hplace, -⟩ := hm.workplace hw
  have hlt := hlinked.above_lt hu
  obtain ⟨kind, ho⟩ := Option.isSome_iff_exists.mp ho
  clear hm
  obtain ⟨role, owner, tree, b⟩ := m
  cases tree with
  | missing => cases ho
  | node head slots =>
    obtain ⟨log, hv⟩ := hplace.visits (.node head slots)
    have hafter := (hv.run hplace.lt).sound hplace.sound
    have hsize := lt_size_of_up (hplace.visit_opened ho).1
    have hya := hsettled.lt_of_above hafter.linked hlinked (Nat.le_refl b.size) hsize hu
    rw [hsettled.extension.span_eq hya]
    rw [hsettled.extension.opened_iff hya] at hy
    cases hplace.visitCase head slots with
    | leaves hnone _ _ =>
      cases hnone.symm.trans ho
    | pass hp _ _ =>
      rw [Moment.opens?, Moment.rule?, Tree.kind, Option.map_some, hp] at ho
      cases ho
    | closed _ _ hopening =>
      rcases hopening.opened_cases (.refl _) (Nat.le_of_lt hlt) hy with rfl | ⟨hle, hin⟩
      · exact absurd hlt (Nat.lt_irrefl _)
      · exact absurd hin.lt (Nat.not_lt.mpr hle)
    | node _ _ hinner hopening =>
      obtain ⟨log, hv⟩ := hinner.visitsAll slots
      have hext := (hv.run hinner.lt).extension
      obtain ⟨hle, hin⟩ := (hopening.opened_cases hext (Nat.le_of_lt hlt) hy).resolve_left
        (Nat.ne_of_gt hlt)
      obtain ⟨m, hm, rfl, ho⟩ := visitAll_moment slots hinner y hle hin
      obtain ⟨hpresent, hspan⟩ := hm.span hinner ho
      obtain ⟨slot, hmem, hwithin⟩ := hm.within
      refine ⟨slot, hmem, m.tree, hwithin, hpresent, m.kind_of_opens ho, ?_⟩
      rw [← hspan]
      exact hopening.leave.extension.span_eq hin.lt

structure Laid (source : String) (ast : Ast) : Prop where
  sound : ast.Sound
  housed : ∀ x p, ast.Opened x → ast.Up x p → ast.Opened p ∧ ast.group p ≠ .importStatement
  cuts : ∀ x, ast.Opened x → (ast.span x).Cuts source
  apart : ∀ x y, x < y → ast.Opened x → ast.Opened y →
    (TransGen ast.Up y x ∧ (ast.span x).contains (ast.span y)) ∨
      (¬ TransGen ast.Up y x ∧ (ast.span x).stop ≤ (ast.span y).start)
  dense : ∀ x y z, x < y → y ≤ z → ast.Opened x → ast.Opened y → TransGen ast.Up z x →
    TransGen ast.Up y x

/-- Whatever is rendered keeps the bound on offsets that a source in memory has. -/
theorem Laid.offsets_lt (h : ast.Laid source) (hs : Text.byteSize source < 2 ^ 63)
    (hx : ast.Opened x) : (ast.span x).start < 2 ^ 63 ∧ (ast.span x).stop < 2 ^ 63 := by
  have hcuts := h.cuts x hx
  have hstop := Nat.lt_of_le_of_lt hcuts.inside hs
  exact ⟨Nat.lt_of_le_of_lt hcuts.ordered hstop, hstop⟩

theorem moment_of_opened {root : Tree} {name : String} (h : build root name = .ok ast)
    (hx : rootId < x) (hopen : ast.Opened x) : ∃ m : Moment, m.Of root ∧ m.ast.size = x ∧
      m.tree.isPresent ∧ ast.span x = m.tree.span ∧ ast.Up x m.owner ∧ ast.Opened m.owner ∧
      ast.group m.owner ≠ .importStatement := by
  have hw := workplace_ofSpan root.span
  obtain rfl := eq_of_build h
  obtain ⟨m, hm, rfl, ho⟩ := visitAll_moment root.slots hw x hx hopen
  obtain ⟨kind, ho⟩ := Option.isSome_iff_exists.mp ho
  obtain ⟨hplace, -⟩ := hm.workplace hw
  obtain ⟨hup, -⟩ := hm.opened hw ho
  have hsettled := (hm.settled hw).extension
  have hext := (m.extends_after hplace).trans hsettled
  have hgroup := hm.group_owner hw (by nofun)
  rw [← (hext.grows.keeps hplace.lt).1] at hgroup
  have howner := (hext.opened_iff hplace.lt).mpr hplace.opened
  obtain ⟨hpresent, hspan⟩ := hm.span hw (Option.isSome_of_eq_some ho)
  exact ⟨m, hm, rfl, hpresent, hspan, hup, howner, hgroup⟩

theorem build_laid {cst : Cst.Table} {root : Tree} {name : String} (ht : cst.tree? = some root)
    (hn : cst.WellNested source) (h : build root name = .ok ast) : ast.Laid source := by
  have hl := build_linked h
  have harr := build_arranged (Cst.Table.tree?_spaced ht hn) h
  obtain ⟨log, hv⟩ := build_visits h
  have hrun := hv.run Nat.one_pos
  have hroot : ast.span rootId = root.span := hrun.extension.span_eq Nat.one_pos
  have hbelow {x : NodeId} (hx : rootId < x) (hopen : ast.Opened x) :
      TransGen ast.Up x rootId := by
    refine (reflTransGen_iff_eq_or_transGen.mp (chain_root hl hopen.lt)).resolve_left ?_
    exact Nat.ne_of_lt hx
  refine ⟨build_sound h, ?_, ?_, ?_, ?_⟩
  · intro x p hopen hu
    obtain ⟨m, -, -, -, -, hup, ho, hg⟩ :=
      moment_of_opened h (Nat.lt_of_le_of_lt (Nat.zero_le p) (hl.up_lt hu)) hopen
    obtain rfl : m.owner = p := Option.some.inj (hup.symm.trans hu)
    exact ⟨ho, hg⟩
  · intro x hopen
    rcases Nat.eq_zero_or_pos x with rfl | hx
    · exact hroot ▸ Cst.Table.cuts_of_within ht hn .self (Cst.Table.isPresent_tree? ht)
    · obtain ⟨m, hm, -, hp, hspan, -⟩ := moment_of_opened h hx hopen
      exact hspan ▸ Cst.Table.cuts_of_within ht hn hm.within hp
  · intro x y hxy hox hoy
    rcases Nat.eq_zero_or_pos x with rfl | hx
    · exact .inl ⟨hbelow hxy hoy, hroot ▸ harr.inside y hxy hoy⟩
    · exact harr.apart x y hx hxy hox hoy
  · intro x y z hxy hyz hox hoy hzx
    rcases Nat.eq_zero_or_pos x with rfl | hx
    · exact hbelow hxy hoy
    · exact hv.dense Nat.one_pos (linked_ofSpan _) x y z hx hxy hyz hox hoy hzx

end Ast

end ComponentCompiler
