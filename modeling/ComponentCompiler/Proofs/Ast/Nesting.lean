import ComponentCompiler.Proofs.Ast.Construction
import ComponentCompiler.Proofs.Cst.Nesting

namespace ComponentCompiler.Ast

open Cst (Tree)
open Relation

variable {source : String} {ast a b : Ast} {owner id x y : NodeId} {kind : NodeKind} {span : Span}
  {closed : Bool} {n : Nat} {P : NodeKind → Prop}

def Up (ast : Ast) (id p : NodeId) : Prop :=
  ast.parent? id = some p

theorem lt_size_of_up (h : ast.Up x y) : x < ast.size := by
  unfold Up parent? at h
  cases hn : ast.node? x with
  | none => simp [hn] at h
  | some n => exact lt_size_of_node? hn

theorem Linked.up_lt (hl : ast.Linked) (h : ast.Up x y) : y < x := by
  have hx : rootId < x := by
    apply Nat.pos_of_ne_zero
    rintro rfl
    have hr := hl.root.symm.trans h
    cases hr
  obtain ⟨p, hp, hup⟩ := hl.parent x hx (lt_size_of_up h)
  have he : some p = some y := hup.symm.trans h
  cases he
  exact hp

theorem Linked.chain_le (hl : ast.Linked) (h : ReflTransGen ast.Up x y) : y ≤ x := by
  induction h with
  | refl => exact Nat.le_refl x
  | tail _ hu ih => exact Nat.le_trans (Nat.le_of_lt (hl.up_lt hu)) ih

theorem Linked.above_lt (hl : ast.Linked) (h : TransGen ast.Up x y) : y < x := by
  obtain ⟨p, hu, hc⟩ := TransGen.head'_iff.mp h
  exact Nat.lt_of_le_of_lt (hl.chain_le hc) (hl.up_lt hu)

theorem Grows.up_iff (hg : Grows P a b) (hx : x < a.size) : b.Up x y ↔ a.Up x y := by
  unfold Up
  rw [(hg.keeps hx).2.2]

theorem Grows.chain_iff (hg : Grows P a b) (hl : a.Linked) (hx : x < a.size) :
    ReflTransGen b.Up x y ↔ ReflTransGen a.Up x y := by
  constructor
  · intro h
    induction h using ReflTransGen.head_induction_on with
    | refl => exact .refl
    | head hu _ ih =>
      have hu' := (hg.up_iff hx).mp hu
      exact .head hu' (ih (Nat.lt_trans (hl.up_lt hu') hx))
  · intro h
    induction h using ReflTransGen.head_induction_on with
    | refl => exact .refl
    | head hu _ ih =>
      exact .head ((hg.up_iff hx).mpr hu) (ih (Nat.lt_trans (hl.up_lt hu) hx))

theorem Grows.above_iff (hg : Grows P a b) (hl : a.Linked) (hx : x < a.size) :
    TransGen b.Up x y ↔ TransGen a.Up x y := by
  rw [TransGen.head'_iff, TransGen.head'_iff]
  refine exists_congr fun p => ?_
  rw [hg.up_iff hx]
  refine and_congr_right fun hu => ?_
  exact hg.chain_iff hl (Nat.lt_trans (hl.up_lt hu) hx)

theorem Grows.above_old (hg : Grows P a b) (hl : a.Linked) (hy : y < a.size)
    (h : TransGen b.Up y x) :
    TransGen a.Up y x ∧ b.group x = a.group x ∧ b.group y = a.group y := by
  have h' := (hg.above_iff hl hy).mp h
  have hx : x < a.size := Nat.lt_trans (hl.above_lt h') hy
  exact ⟨h', (hg.keeps hx).1, (hg.keeps hy).1⟩

structure Nested (source : String) (ast : Ast) : Prop where
  linked : ast.Linked
  span : ∀ id, ast.group id ≠ .other → (ast.span id).Cuts source
  apart : ∀ x y, x < y → ast.group x ≠ .other → ast.group y ≠ .other →
    TransGen ast.Up y x ∨ (ast.span x).stop ≤ (ast.span y).start
  aboveImport : ∀ x y, TransGen ast.Up y x → ast.group y = .importStatement → ast.group x = .other
  belowImport : ∀ x y, TransGen ast.Up y x → ast.group x = .importStatement → ast.group y = .other

/-- Nodes can be added under the owner: it stands below no import statement, and below no node with
edits of its own at all, unless a closed node is around. -/
def Admits (ast : Ast) (owner : NodeId) (closed : Bool) : Prop :=
  ∀ x, ReflTransGen ast.Up owner x →
    ast.group x ≠ .importStatement ∧ (closed = false → ast.group x = .other)

/-- What stands not around the owner ends at byte `n` or before. -/
def Behind (ast : Ast) (owner : NodeId) (n : Nat) : Prop :=
  ∀ x, ast.group x ≠ .other → ¬ ReflTransGen ast.Up owner x → (ast.span x).stop ≤ n

theorem Nested.grows (h : Nested source a) (hg : Grows Plain a b) : Nested source b := by
  have hold {id : NodeId} (hid : b.group id ≠ .other) :
      id < a.size ∧ a.group id ≠ .other ∧ b.span id = a.span id := by
    have hlt := hg.old_of_group hid
    obtain ⟨hgr, hsp, -⟩ := hg.keeps hlt
    exact ⟨hlt, hgr ▸ hid, hsp⟩
  refine ⟨h.linked.grows hg, ?_, ?_, ?_, ?_⟩
  · intro id hid
    obtain ⟨-, ha, hs⟩ := hold hid
    rw [hs]
    exact h.span id ha
  · intro x y hxy hx hy
    obtain ⟨-, hax, hsx⟩ := hold hx
    obtain ⟨hly, hay, hsy⟩ := hold hy
    rw [hg.above_iff h.linked hly, hsx, hsy]
    exact h.apart x y hxy hax hay
  · intro x y hxy hy
    have hother : b.group y ≠ .other := by simp [hy]
    obtain ⟨hup, hgx, hgy⟩ := hg.above_old h.linked (hg.old_of_group hother) hxy
    rw [hgx]
    exact h.aboveImport x y hup (hgy ▸ hy)
  · intro x y hxy hx
    apply Decidable.byContradiction
    intro hy
    obtain ⟨hup, hgx, hgy⟩ := hg.above_old h.linked (hg.old_of_group hy) hxy
    exact hy (hgy.trans (h.belowImport x y hup (hgx ▸ hx)))

theorem Admits.grows (h : a.Admits owner closed) (hg : Grows P a b) (hl : a.Linked)
    (ho : owner < a.size) : b.Admits owner closed := by
  intro x hx
  rw [hg.chain_iff hl ho] at hx
  have hlx : x < a.size := Nat.lt_of_le_of_lt (hl.chain_le hx) ho
  rw [(hg.keeps hlx).1]
  exact h x hx

theorem Admits.mono {closed' : Bool} (h : ast.Admits owner closed) (hc : closed → closed') :
    ast.Admits owner closed' := by
  intro x hx
  obtain ⟨hi, ho⟩ := h x hx
  refine ⟨hi, fun hf => ho ?_⟩
  cases closed with
  | false => rfl
  | true => simp [hf] at hc

theorem Behind.grows (h : a.Behind owner n) (hg : Grows Plain a b) (hl : a.Linked)
    (ho : owner < a.size) : b.Behind owner n := by
  intro x hx hnc
  have hlx := hg.old_of_group hx
  obtain ⟨hgr, hsp, -⟩ := hg.keeps hlx
  rw [hgr] at hx
  rw [hg.chain_iff hl ho] at hnc
  rw [hsp]
  exact h x hx hnc

theorem Behind.mono {m : Nat} (h : ast.Behind owner n) (hnm : n ≤ m) : ast.Behind owner m :=
  fun x hx hnc => Nat.le_trans (h x hx hnc) hnm

theorem chain_cons (hu : ast.Up x y) {z : NodeId} :
    ReflTransGen ast.Up x z ↔ z = x ∨ ReflTransGen ast.Up y z := by
  constructor
  · intro h
    rcases ReflTransGen.cases_head h with rfl | ⟨p, hp, hc⟩
    · exact .inl rfl
    · have he : some p = some y := hp.symm.trans hu
      cases he
      exact .inr hc
  · rintro (rfl | h)
    · exact .refl
    · exact .head hu h

theorem Behind.close (h : ast.Behind id n) (hu : ast.Up id owner) (hs : (ast.span id).stop ≤ n) :
    ast.Behind owner n := by
  intro x hx hnc
  by_cases he : x = id
  · rw [he]
    exact hs
  · refine h x hx fun hc => ?_
    rcases (chain_cons hu).mp hc with he' | hc'
    · exact he he'
    · exact hnc hc'

theorem up_addListed (ho : owner < ast.size) :
    (ast.addListed kind span owner).Up ast.size owner := by
  unfold Up
  rw [parent?_addListed ho, if_pos rfl]

theorem Nested.addListed (h : Nested source ast) (ho : owner < ast.size)
    (ha : ast.Admits owner closed) (hb : ast.Behind owner span.start) (hs : span.Cuts source)
    (hi : closed → kind.group ≠ .importStatement) :
    Nested source (ast.addListed kind span owner) := by
  have hg : Grows (fun _ => True) ast (ast.addListed kind span owner) := Grows.refl.add trivial ho
  have hnew {x : NodeId} : TransGen (ast.addListed kind span owner).Up ast.size x ↔
      ReflTransGen ast.Up owner x := by
    rw [TransGen.head'_iff]
    constructor
    · rintro ⟨p, hp, hc⟩
      have he : some p = some owner := hp.symm.trans (up_addListed ho)
      cases he
      exact (hg.chain_iff h.linked ho).mp hc
    · exact fun hc => ⟨owner, up_addListed ho, (hg.chain_iff h.linked ho).mpr hc⟩
  -- a node is the new one, or it was there before
  have hcases {x : NodeId} (hx : (ast.addListed kind span owner).group x ≠ .other) :
      x = ast.size ∨ x < ast.size := by
    rw [group_addListed ho] at hx
    split at hx
    · next he => exact .inl he
    · exact .inr (Grows.old_of_group .refl hx)
  have hspan : (ast.addListed kind span owner).span ast.size = span := by
    rw [span_addListed ho, if_pos rfl]
  have hgroup : (ast.addListed kind span owner).group ast.size = kind.group := by
    rw [group_addListed ho, if_pos rfl]
  have hchain {x : NodeId} (hc : ReflTransGen ast.Up owner x) : x < ast.size :=
    Nat.lt_of_le_of_lt (h.linked.chain_le hc) ho
  refine ⟨h.linked.addListed ho, ?_, ?_, ?_, ?_⟩
  · intro x hx
    rcases hcases hx with rfl | hlx
    · rw [hspan]
      exact hs
    · obtain ⟨hgr, hsp, -⟩ := hg.keeps hlx
      rw [hsp]
      exact h.span x (hgr ▸ hx)
  · intro x y hxy hx hy
    rcases hcases hy with rfl | hly
    · obtain ⟨hgr, hsp, -⟩ := hg.keeps hxy
      rw [hnew, hspan, hsp]
      by_cases hc : ReflTransGen ast.Up owner x
      · exact .inl hc
      · exact .inr (hb x (hgr ▸ hx) hc)
    · have hlx := Nat.lt_trans hxy hly
      obtain ⟨hgx, hsx, -⟩ := hg.keeps hlx
      obtain ⟨hgy, hsy, -⟩ := hg.keeps hly
      rw [hg.above_iff h.linked hly, hsx, hsy]
      exact h.apart x y hxy (hgx ▸ hx) (hgy ▸ hy)
  · intro x y hxy hy
    have hother : (ast.addListed kind span owner).group y ≠ .other := by simp [hy]
    rcases hcases hother with rfl | hly
    · rw [hnew] at hxy
      rw [hgroup] at hy
      rw [(hg.keeps (hchain hxy)).1]
      refine (ha x hxy).2 (Bool.eq_false_iff.mpr fun hc => ?_)
      exact hi hc hy
    · obtain ⟨hup, hgx, hgy⟩ := hg.above_old h.linked hly hxy
      rw [hgx]
      exact h.aboveImport x y hup (hgy ▸ hy)
  · intro x y hxy hx
    apply Decidable.byContradiction
    intro hy
    rcases hcases hy with rfl | hly
    · rw [hnew] at hxy
      rw [(hg.keeps (hchain hxy)).1] at hx
      exact (ha x hxy).1 hx
    · obtain ⟨hup, hgx, hgy⟩ := hg.above_old h.linked hly hxy
      exact hy (hgy.trans (h.belowImport x y hup (hgx ▸ hx)))

theorem Behind.addListed (h : ast.Behind owner n) (hl : ast.Linked) (ho : owner < ast.size) :
    (ast.addListed kind span owner).Behind ast.size n := by
  have hg : Grows (fun _ => True) ast (ast.addListed kind span owner) := Grows.refl.add trivial ho
  intro x hx hnc
  rw [group_addListed ho] at hx
  split at hx
  · next he => exact absurd (he ▸ .refl) hnc
  · obtain ⟨-, hsp, -⟩ := hg.keeps (Grows.old_of_group .refl hx)
    rw [hsp]
    refine h x hx fun hc => hnc ?_
    exact (chain_cons (up_addListed ho)).mpr (.inr ((hg.chain_iff hl ho).mpr hc))

theorem Admits.addListed (h : ast.Admits owner closed) (hl : ast.Linked) (ho : owner < ast.size)
    (hi : kind.group ≠ .importStatement) (hc : closed = false → kind.group = .other) :
    (ast.addListed kind span owner).Admits ast.size closed := by
  have hg : Grows (fun _ => True) ast (ast.addListed kind span owner) := Grows.refl.add trivial ho
  intro x hx
  rcases (chain_cons (up_addListed ho)).mp hx with rfl | hx
  · rw [group_addListed ho, if_pos rfl]
    exact ⟨hi, hc⟩
  · exact h.grows hg hl ho x hx

structure Ready (source : String) (ast : Ast) (owner : NodeId) (closed : Bool) (n : Nat) :
    Prop where
  nested : Nested source ast
  live : owner < ast.size
  admits : ast.Admits owner closed
  behind : ast.Behind owner n

theorem Ready.finish {m : Nat} (h : Ready source a owner closed n) (hg : Grows P a b)
    (hn : Nested source b) (hb : b.Behind owner m) : Ready source b owner closed m :=
  ⟨hn, Nat.lt_of_lt_of_le h.live hg.size_le, h.admits.grows hg h.nested.linked h.live, hb⟩

theorem Ready.grows (h : Ready source a owner closed n) (hg : Grows Plain a b) :
    Ready source b owner closed n :=
  h.finish hg (h.nested.grows hg) (h.behind.grows hg h.nested.linked h.live)

theorem Ready.mono {m : Nat} {closed' : Bool} (h : Ready source ast owner closed n) (hnm : n ≤ m)
    (hc : closed → closed') : Ready source ast owner closed' m :=
  ⟨h.nested, h.live, h.admits.mono hc, h.behind.mono hnm⟩

theorem Ready.addListed (h : Ready source ast owner closed span.start) (hs : span.Cuts source)
    (hi : closed → kind.group ≠ .importStatement) :
    Nested source (ast.addListed kind span owner) ∧
      (ast.addListed kind span owner).Behind ast.size span.start :=
  ⟨h.nested.addListed h.live h.admits h.behind hs hi,
    h.behind.addListed h.nested.linked h.live⟩

theorem Grows.opened (hg : Grows P (ast.addListed kind span owner) b) (ho : owner < ast.size) :
    b.Up ast.size owner ∧ b.span ast.size = span := by
  have hlt : ast.size < (ast.addListed kind span owner).size := by simp
  obtain ⟨-, hs, hp⟩ := hg.keeps hlt
  refine ⟨hp.trans (up_addListed ho), hs.trans ?_⟩
  rw [span_addListed ho, if_pos rfl]

theorem kind_of_group {k : Cst.Kind} (h : k.group = .importStatement) : k = .importStatement := by
  cases k <;> simp_all [Cst.Kind.group]

theorem isClosed_of_group {k : Cst.Kind} (hi : k.group ≠ .importStatement)
    (ho : k.group ≠ .other) : k.isClosed := by
  cases k <;> simp_all [Cst.Kind.group, Cst.Kind.isClosed]

mutual

/-- Visiting a concrete node takes the pass from its start to its end. -/
theorem visit_ready (role : Role) : (t : Tree) → t.isPresent → {ast : Ast} → {owner : NodeId} →
    {closed : Bool} → Ready source ast owner closed t.span.start → t.Tidy source closed →
    Ready source (visit role owner t ast) owner closed t.span.stop
  | .node head slots, _, ast, owner, closed, h, ht => by
    obtain ⟨span, imports⟩ : head.span.Cuts source ∧
        (closed → Cst.Kind.ofName head.kind ≠ .importStatement) := by
      cases ht with
      | node span _ imports _ _ _ => exact ⟨span, imports⟩
    have hrow := ht.row
    have hf := Rule.ofRole_fits role (Cst.Kind.ofName head.kind)
    unfold visit
    generalize Rule.ofRole role (Cst.Kind.ofName head.kind) = rule at hf
    refine Ready.grows ?_ (leave_same rule owner ast.size _).grows
    cases hh : rule.head? with
    | none =>
      have he := enter_plain hf.proper hh (.node head slots) h.live
      have hr := h.grows he
      split
      · next childRole childOwner hi =>
        rcases Rule.inside_cases hi with ⟨-, rfl⟩ | ⟨g, hg, -, -⟩
        · have hv := visitAll_ready childRole slots
            (hr.mono (Nat.le_refl _) fun hc => by simp [hc]) hrow
          exact hr.finish (visitAll_grows childRole slots hr.live) hv.nested hv.behind
        · simp [hh] at hg
      · exact hr.mono span.ordered fun hc => hc
    | some g =>
      obtain ⟨kind, hk, he⟩ := enter_head hf.proper hh (.node head slots) h.live
      have hfit : kind.group = .other ∨ kind.group = (Cst.Kind.ofName head.kind).group :=
        hk ▸ hf.head g hh
      have himp : closed → kind.group ≠ .importStatement := by
        intro hc hg
        rcases hfit with hf | hf
        · simp [hf] at hg
        · exact imports hc (kind_of_group (hf ▸ hg))
      obtain ⟨hn, hb⟩ := h.addListed span himp
      have hlive : ast.size < (ast.addListed kind head.span owner).size := by simp
      have hgrow : Grows (fun _ => True) ast (enter rule owner (.node head slots) ast) :=
        (Grows.refl.add trivial h.live).trans (he.mono fun _ _ => trivial)
      split
      · next childRole childOwner hi =>
        rcases Rule.inside_cases hi with ⟨hn', -⟩ | ⟨_, hg', hne, rfl⟩
        · simp [hh] at hn'
        · cases hh.symm.trans hg'
          have hc : (closed || (Cst.Kind.ofName head.kind).isClosed) = false →
              kind.group = .other := by
            intro hc
            apply Decidable.byContradiction
            intro ho
            have hf := hfit.resolve_left ho
            have hclosed := isClosed_of_group (hf ▸ hk ▸ hne) (hf ▸ ho)
            simp [hclosed] at hc
          have hopen : Ready source (ast.addListed kind head.span owner) ast.size
              (closed || (Cst.Kind.ofName head.kind).isClosed) head.span.start :=
            ⟨hn, hlive, (h.admits.mono fun hc => by simp [hc]).addListed h.nested.linked h.live
              (hk ▸ hne) hc, hb⟩
          have hr := hopen.grows he
          have hv := visitAll_ready childRole slots hr hrow
          have hgo := visitAll_grows childRole slots hr.live
          obtain ⟨hup, hspan⟩ := ((he.mono fun _ _ => trivial).trans hgo).opened h.live
          exact h.finish (hgrow.trans hgo) hv.nested
            (hv.behind.close hup (Nat.le_of_eq (congrArg Span.stop hspan)))
      · obtain ⟨hup, hspan⟩ := he.opened h.live
        have hbe := (hb.grows he hn.linked hlive).mono span.ordered
        exact h.finish hgrow (hn.grows he)
          (hbe.close hup (Nat.le_of_eq (congrArg Span.stop hspan)))

theorem visitAll_ready (role : Role) : (slots : List Tree) → {ast : Ast} → {owner : NodeId} →
    {closed : Bool} → {range : Span} → Ready source ast owner closed range.start →
    Tree.Row source closed range slots →
    Ready source (visitAll role owner slots ast) owner closed range.stop
  | [], _, _, _, _, h, hrow => h.mono hrow.forward fun hc => hc
  | .missing :: rest, _, _, _, _, h, hrow =>
    visitAll_ready (role.next .missing) rest h hrow.tail
  | .node head slots :: rest, ast, owner, closed, range, h, hrow => by
    obtain ⟨hle, hrest⟩ := hrow.behind rfl
    have hv : Ready source (visit role owner (.node head slots) ast) owner closed
        (Span.mk head.span.stop range.stop).start :=
      visit_ready role (.node head slots) rfl (h.mono hle fun hc => hc)
        (hrow.tidy _ List.mem_cons_self)
    -- the range is that of the rest, which only `hrest` tells
    have hlast := visitAll_ready (role.next (.node head slots)) rest hv hrest
    exact hlast

end

theorem group_ofSpan (span : Span) (id : NodeId) : (ofSpan span).group id = .other := by
  cases id <;> rfl

theorem nested_ofSpan (source : String) (span : Span) : Nested source (ofSpan span) := by
  have hg := group_ofSpan span
  exact ⟨linked_ofSpan span, fun id h => absurd (hg id) h, fun x _ _ h => absurd (hg x) h,
    fun x _ _ _ => hg x, fun _ y _ _ => hg y⟩

/-- A unit's tree is built from every tidy concrete tree, and its nodes are nested. -/
theorem build_nested {root : Tree} (ht : root.Tidy source false) (name : String) :
    ∃ ast, build root name = .ok ast ∧ Nested source ast := by
  unfold build
  rw [ht.firstError?]
  refine ⟨_, rfl, ?_⟩
  cases root with
  | missing => exact nested_ofSpan source _
  | node head slots =>
    have hg := group_ofSpan head.span
    have hready : Ready source (ofSpan head.span) rootId
        (false || (Cst.Kind.ofName head.kind).isClosed) head.span.start :=
      ⟨nested_ofSpan source _, Nat.one_pos, fun x _ => by simp [hg x],
        fun x hx => absurd (hg x) hx⟩
    exact (visitAll_ready .plain slots hready ht.row).nested

end ComponentCompiler.Ast
