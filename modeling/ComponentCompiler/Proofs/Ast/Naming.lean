import ComponentCompiler.Proofs.Ast.PropertyNames
import ComponentCompiler.Proofs.Ast.QuietSteps

namespace ComponentCompiler.Ast

open Cst (Tree)

variable {a b ast : Ast} {o owner outer p start x : NodeId} {f : NodeKind → NodeKind}
  {rule : Rule} {t : Tree}

/-- Types start with references, the names of declarations are declared around them, and exported
are declarations under the root and instances. -/
structure Registered (ast : Ast) : Prop where
  root : ast.kind? rootId = some .program
  leader : ∀ p x, ast.leader? p = some x → ast.Up x p ∧ ∃ o, x ∈ ast.used o
  name : ∀ p x, ast.declaredName? p = some x →
    ∃ outer o, ast.Up p outer ∧ ast.scopeOwner? outer = some o ∧ x ∈ ast.declared o
  exports : ∀ e ∈ ast.exports, ast.isKind e NodeKind.isDeclaration ∧ ast.Up e rootId ∨
    ast.isKind e NodeKind.isInstance

theorem registered_ofSpan (span : Span) : (ofSpan span).Registered := by
  have hkind (p : NodeId) : (ofSpan span).kind? p = if p = 0 then some .program else none := by
    cases p <;> rfl
  refine ⟨rfl, fun p x hx => ?_, fun p x hx => ?_, nofun⟩
  · rw [leader?, hkind] at hx
    split at hx <;> cases hx
  · rw [declaredName?, hkind] at hx
    split at hx <;> cases hx

theorem Registered.grow (h : a.Registered) (hl : a.Linked) (hext : a.Extends b)
    (hused : ∀ o, ∀ x ∈ a.used o, x ∈ b.used o)
    (hdeclared : ∀ o, ∀ x ∈ a.declared o, x ∈ b.declared o)
    (hleader : ∀ p x, b.leader? p = some x →
      a.leader? p = some x ∨ b.Up x p ∧ ∃ o, x ∈ b.used o)
    (hname : ∀ p x, b.declaredName? p = some x → a.declaredName? p = some x ∨
      ∃ outer o, b.Up p outer ∧ b.scopeOwner? outer = some o ∧ x ∈ b.declared o)
    (hexports : ∀ e ∈ b.exports, e ∈ a.exports ∨
      (b.isKind e NodeKind.isDeclaration ∧ b.Up e rootId ∨ b.isKind e NodeKind.isInstance)) :
    b.Registered := by
  refine ⟨?_, fun p x hx => ?_, fun p x hx => ?_, fun e he => ?_⟩
  · refine hext.kind?_eq_some (fun k hk => ?_) h.root
    cases k <;> cases hk
    rfl
  · rcases hleader p x hx with hx | hx
    · obtain ⟨hu, o, ho⟩ := h.leader p x hx
      exact ⟨hext.up hu, o, hused o x ho⟩
    · exact hx
  · rcases hname p x hx with hx | hx
    · obtain ⟨outer, o, hu, hs, ho⟩ := h.name p x hx
      have hlt : outer < a.size := Nat.lt_trans (hl.up_lt hu) (lt_size_of_up hu)
      exact ⟨outer, o, hext.up hu, (hext.scopeOwner?_eq hl hlt).trans hs, hdeclared o x ho⟩
    · exact hx
  · rcases hexports e he with he | he
    · rcases h.exports e he with ⟨hk, hu⟩ | hk
      · exact .inl ⟨by rwa [hext.isKind_eq NodeKind.isDeclaration_shape (lt_size_of_up hu)],
          hext.up hu⟩
      · exact .inr (by rwa [hext.isKind_eq NodeKind.isInstance_shape (lt_size_of_isKind hk)])
    · exact he

theorem Registered.quiet (h : a.Registered) (hl : a.Linked) (hq : Quiet a b) : b.Registered :=
  h.grow hl hq.extension hq.used hq.declared (fun p _ hx => .inl (hq.leader p ▸ hx))
    (fun p _ hx => .inl (hq.name p ▸ hx)) fun _ he => .inl (hq.exports ▸ he)

theorem mem_declared_declare_self (h : ast.scopeOwner? start = some o) :
    x ∈ (ast.declare start x).declared o := by
  have hscope := List.find?_some h
  obtain ⟨scope, hs⟩ := Option.isSome_iff_exists.mp hscope
  have hdeclare : ast.declare start x =
      ast.editScope o fun s => { s with declarations := s.declarations ++ [x] } := by
    rw [declare, modifyScope, h]
    rfl
  rw [hdeclare, declared, scope?_editScope, if_pos rfl, hs]
  exact List.mem_append_right _ (List.mem_singleton_self x)

structure AddsNames (p : NodeId) (ids : List NodeId) (a b : Ast) : Prop where
  extension : a.Extends b
  used : ∀ o, b.used o = a.used o
  declared : ∀ o, b.declared o = a.declared o
  leader : ∀ q, q ≠ p → b.leader? q = a.leader? q
  name : ∀ q, b.declaredName? q = a.declaredName? q
  exports : b.exports = a.exports
  children : b.children p = ids

theorem names_addAll (hp : p < a.size) (spans : List Span) :
    AddsNames p (a.children p ++ a.nextIds spans.length) a (a.addAll .identifier spans p) := by
  induction spans generalizing a with
  | nil =>
    refine ⟨.refl a, fun _ => rfl, fun _ => rfl, fun _ _ => rfl, fun _ => rfl, rfl, ?_⟩
    simp [nextIds, addAll]
  | cons span rest ih =>
    have hk : NodeKind.identifier.group ≠ .importStatement := by decide
    have hext : a.Extends (a.add .identifier span p) := extends_add hk hp
    have hrest := ih (Nat.lt_of_lt_of_le hp hext.size_le)
    have hlisted : a.add .identifier span p = a.addListed .identifier span p :=
      (addListed_eq_add hk).symm
    refine ⟨hext.trans hrest.extension, fun o => ?_, fun o => ?_, fun q hq => ?_, fun q => ?_,
      hrest.exports, ?_⟩
    · exact (hrest.used o).trans (hlisted ▸ used_addListed hp)
    · exact (hrest.declared o).trans (hlisted ▸ declared_addListed hp)
    · exact (hrest.leader q hq).trans (hlisted ▸ leader?_addListed rfl hp fun he => absurd he hq)
    · exact (hrest.name q).trans (hlisted ▸ declaredName?_addListed rfl hp)
    · rw [show (a.addAll .identifier (span :: rest) p).children p = _ from hrest.children,
        children_add hp, if_pos rfl, nextIds, nextIds, size_add, List.length_cons,
        List.range'_succ, List.append_assoc]
      rfl

/-- A node gets a type or a name, and this is registered before anything else is added. -/
theorem Registered.note (h : a.Registered) (hl : a.Linked)
    (hf : ∀ k, a.kind? p = some k → (f k).shape = k.shape) (hq : Quiet (a.modifyKind p f) b)
    (hleader : ∀ x, (a.modifyKind p f).leader? p = some x → b.Up x p ∧ ∃ o, x ∈ b.used o)
    (hname : ∀ x, (a.modifyKind p f).declaredName? p = some x →
      ∃ outer o, b.Up p outer ∧ b.scopeOwner? outer = some o ∧ x ∈ b.declared o) :
    b.Registered := by
  refine h.grow hl ((extends_modifyKind hf).trans hq.extension) (fun o x hx => ?_)
    (fun o x hx => ?_) (fun q x hx => ?_) (fun q x hx => ?_) fun e he => .inl (hq.exports ▸ he)
  · exact hq.used o x (by rwa [used_modifyKind])
  · exact hq.declared o x (by rwa [declared, scope?_modifyKind])
  · rw [hq.leader] at hx
    by_cases hqp : q = p
    · subst hqp
      exact .inr (hleader x hx)
    · exact .inl (leader?_modifyKind hqp ▸ hx)
  · rw [hq.name] at hx
    by_cases hqp : q = p
    · subst hqp
      exact .inr (hname x hx)
    · exact .inl (declaredName?_modifyKind hqp ▸ hx)

theorem Registered.expose (h : a.Registered) (hl : a.Linked)
    (hx : a.isKind x NodeKind.isDeclaration ∧ a.Up x rootId ∨ a.isKind x NodeKind.isInstance) :
    Registered { a with exports := a.exports ++ [x] } := by
  refine h.grow hl (extends_of_nodes rfl rfl) (fun _ _ => id) (fun _ _ => id) (fun _ _ => .inl)
    (fun _ _ => .inl) fun e he => ?_
  rcases List.mem_append.mp he with he | he
  · exact .inl he
  · obtain rfl := List.mem_singleton.mp he
    exact .inr hx

section

variable (h : a.Registered) (ha : a.Sound) (ho : owner < a.size)
  (hh : a.kind? owner ≠ some .heritage)

include h ha ho hh

theorem registered_enterDeclaration : (a.enterDeclaration owner t).Registered := by
  have hadd : Quiet a (a.add (.declaration {}) t.span owner) := quiet_add rfl nofun ho hh
  have hkind : (a.add (.declaration {}) t.span owner).kind? a.size = some (.declaration {}) :=
    kind?_add_self nofun ho
  have hlinked := ha.linked.grows hadd.extension.grows
  unfold enterDeclaration
  dsimp only
  split
  · next hroot =>
    refine (h.quiet ha.linked hadd).expose hlinked (.inl ⟨?_, ?_⟩)
    · rw [isKind, hkind]
      rfl
    · exact hroot ▸ up_add a _ _ ho
  · exact h.quiet ha.linked hadd

theorem registered_enterInstance : (a.enterInstance owner t).Registered := by
  have hadd (isRoot : Bool) : Quiet a (a.add (.instance_ { isRoot }) t.span owner) :=
    quiet_add rfl nofun ho hh
  have hkind (isRoot : Bool) : (a.add (.instance_ { isRoot }) t.span owner).kind? a.size =
      some (.instance_ { isRoot }) := kind?_add_self nofun ho
  unfold enterInstance
  dsimp only
  split
  · have hlinked := ha.linked.grows (hadd (a.isRootPlace owner)).extension.grows
    refine (h.quiet ha.linked (hadd _)).expose hlinked (.inr ?_)
    rw [isKind, hkind]
    rfl
  · exact h.quiet ha.linked (hadd _)

theorem registered_enterTypeSegment : (a.enterTypeSegment owner t).Registered := by
  have hadd : Quiet a (a.add .identifier t.span owner) := quiet_leaf rfl ho hh
  have hkind := kind?_add_of_lt .identifier t.span nofun ho ho
  refine iteInduction (motive := Registered) (fun hfirst => ?_) fun hrest => ?_
  · split at hfirst
    · next i hi =>
      rw [List.isEmpty_iff] at hfirst
      rw [hi] at hkind
      have hf (k : NodeKind) :
          (k.mapInstance fun i => { i with name := i.name ++ [a.size] }).shape = k.shape := by
        cases k <;> rfl
      have hext := hadd.extension.trans (extends_modifyKind (p := owner) fun k _ => hf k)
      obtain ⟨o, hscope⟩ := exists_scopeOwner? ha h.root ho
      refine (h.quiet ha.linked hadd).note (ha.linked.grows hadd.extension.grows)
        (fun k _ => hf k) (quiet_use owner a.size) (fun x hx => ?_) fun x hx => ?_
      · rw [leader?, kind?_modifyKind, if_pos rfl, hkind] at hx
        obtain rfl : a.size = x := by
          simpa [NodeKind.mapInstance, NodeKind.leader?, hfirst] using hx
        refine ⟨?_, o, mem_used_use_self ((hext.scopeOwner?_eq ha.linked ho).trans hscope)⟩
        rw [up_use, up_modifyKind]
        exact up_add a _ _ ho
      · rw [declaredName?, kind?_modifyKind, if_pos rfl, hkind] at hx
        cases hx
    · cases hfirst
  · refine h.quiet ha.linked (hadd.trans (quiet_modifyKind fun k hk => ?_))
    rw [hkind] at hk
    rw [hk] at hrest
    cases k with
    | instance_ i =>
      refine ⟨rfl, fun _ => ?_, rfl⟩
      exact List.head?_append_of_ne_nil _ (by simpa using hrest)
    | _ => exact .refl _

theorem registered_enterDeclarationName (hout : a.Up owner outer) :
    (a.enterDeclarationName owner outer t).Registered := by
  have hadd : Quiet a (a.add .identifier t.span owner) := quiet_leaf rfl ho hh
  have hkind := kind?_add_of_lt .identifier t.span nofun ho ho
  have hlt : outer < a.size := Nat.lt_trans (ha.linked.up_lt hout) ho
  have hf (k : NodeKind) :
      (k.mapDeclaration fun d => { d with name := d.name <|> some a.size }).shape = k.shape := by
    cases k <;> rfl
  have hext := hadd.extension.trans (extends_modifyKind (p := owner) fun k _ => hf k)
  obtain ⟨o, hscope⟩ := exists_scopeOwner? ha h.root hlt
  by_cases hfresh : ∃ d, a.kind? owner = some (.declaration d) ∧ d.name = none
  · obtain ⟨d, hd, hn⟩ := hfresh
    rw [hd] at hkind
    refine (h.quiet ha.linked hadd).note (ha.linked.grows hadd.extension.grows)
      (fun k _ => hf k) (quiet_declare outer a.size) (fun x hx => ?_) fun x hx => ?_
    · rw [leader?, kind?_modifyKind, if_pos rfl, hkind] at hx
      cases hx
    · rw [declaredName?, kind?_modifyKind, if_pos rfl, hkind] at hx
      obtain rfl : a.size = x := by
        simpa [NodeKind.mapDeclaration, NodeKind.declaredName?, hn] using hx
      have hall := hext.trans (quiet_declare outer a.size).extension
      exact ⟨outer, o, hall.up hout, (hall.scopeOwner?_eq ha.linked hlt).trans hscope,
        mem_declared_declare_self ((hext.scopeOwner?_eq ha.linked hlt).trans hscope)⟩
  · refine h.quiet ha.linked ((hadd.trans (quiet_modifyKind fun k hk => ?_)).trans
      (quiet_declare outer a.size))
    rw [hkind] at hk
    cases k with
    | declaration d =>
      refine ⟨rfl, fun _ => rfl, ?_⟩
      cases hn : d.name with
      | none => exact absurd ⟨d, hk, hn⟩ hfresh
      | some n => simp [NodeKind.mapDeclaration, NodeKind.declaredName?, hn]
    | _ => exact .refl _

theorem registered_enterHeritage : (a.enterHeritage owner t).Registered := by
  have hopen : Quiet a (a.add .heritage t.span owner) := quiet_leaf rfl ho hh
  have hid : a.size < (a.add .heritage t.span owner).size := by simp
  have hkind : (a.add .heritage t.span owner).kind? a.size = some .heritage :=
    kind?_add_self nofun ho
  have hnil : (a.add .heritage t.span owner).children a.size = [] := by
    rw [children_add ho, if_neg (Nat.ne_of_gt ho), children_eq_nil (Nat.le_refl _)]
  have hnames := names_addAll hid ((childrenOfKind t .identifier).map Tree.span)
  rw [hnil, List.length_map] at hnames
  have hlinked := ha.linked.grows hopen.extension.grows
  have hregistered := h.quiet ha.linked hopen
  unfold enterHeritage
  dsimp only
  generalize (a.add .heritage t.span owner).nextIds (childrenOfKind t .identifier).length = ids
    at hnames ⊢
  generalize (a.add .heritage t.span owner).addAll .identifier
    ((childrenOfKind t .identifier).map Tree.span) a.size = grown at hnames ⊢
  have hext := hopen.extension.trans hnames.extension
  have hleader : grown.leader? a.size = ids.head? := by
    rw [leader?, hnames.extension.kind?_eq_some (fun _ => NodeKind.shape_eq_of_isLeaf rfl) hkind,
      hnames.children]
    rfl
  obtain ⟨o, hscope⟩ := exists_scopeOwner? ha h.root ho
  rw [← hext.scopeOwner?_eq ha.linked ho] at hscope
  have hnote {b : Ast} : Quiet b
      (b.modifyKind owner (.mapDeclaration fun d => { d with heritage := ids })) :=
    quiet_modifyKind fun _ _ => NodeKind.sameNames_mapDeclaration fun _ => rfl
  have hgrow {b : Ast} (hq : Quiet grown b)
      (hfirst : ∀ x, ids.head? = some x → ∃ o, x ∈ b.used o) : b.Registered := by
    refine hregistered.grow hlinked (hnames.extension.trans hq.extension)
      (fun o x hx => hq.used o x (hnames.used o ▸ hx))
      (fun o x hx => hq.declared o x (hnames.declared o ▸ hx)) (fun q x hx => ?_)
      (fun q x hx => .inl (hnames.name q ▸ hq.name q ▸ hx))
      fun e he => .inl (hnames.exports ▸ hq.exports ▸ he)
    rw [hq.leader] at hx
    by_cases hself : q = a.size
    · subst hself
      rw [hleader] at hx
      have hchild : x ∈ grown.children a.size := hnames.children ▸ List.mem_of_head? hx
      have hu := (mem_children (ha.linked.grows hext.grows)).mp hchild
      exact .inr ⟨hq.extension.up hu, hfirst x hx⟩
    · exact .inl (hnames.leader q hself ▸ hx)
  split
  · next first rest =>
    refine hgrow ((quiet_use owner first).trans hnote) fun x hx => ?_
    obtain rfl : first = x := Option.some.inj hx
    exact ⟨o, hnote.used o first (mem_used_use_self hscope)⟩
  · exact hgrow hnote fun x hx => by cases hx

end

theorem Registered.enter (h : a.Registered) (ha : a.Sound) (hr : rule.Suits a owner)
    (hopen : a.Opened owner) : (enter rule owner t a).Registered := by
  have ho := hopen.lt
  have hh := hopen.not_heritage
  by_cases hn : rule.isNaming
  · cases rule with
    | declaration => exact registered_enterDeclaration h ha ho hh
    | instance_ => exact registered_enterInstance h ha ho hh
    | heritage => exact registered_enterHeritage h ha ho hh
    | typeSegment => exact registered_enterTypeSegment h ha ho hh
    | declarationName outer => exact registered_enterDeclarationName h ha ho hh hr
    | value form =>
      cases form with
      | component => exact registered_enterDeclaration h ha ho hh
      | expression | block => cases hn
    | _ => cases hn
  · exact h.quiet ha.linked (quiet_enter hr ho hh (Bool.eq_false_iff.mpr hn))

theorem build_registered {root : Tree} {unitName : String} (h : build root unitName = .ok ast) :
    ast.Registered := by
  have hkept : Kept Registered :=
    ⟨Registered.enter, fun rule owner id h hl => h.quiet hl (quiet_leave rule owner id _)⟩
  exact hkept.build (registered_ofSpan root.span) h

theorem exists_moment_of_member {root : Tree} {unitName : String}
    (h : build root unitName = .ok ast) (hk : ast.kind? p = some .member) :
    ∃ m : Moment, m.Of root ∧ m.rule? = some .member ∧ m.ast.size = p := by
  have hw := workplace_ofSpan root.span
  have hroot := (build_registered h).root
  have hpos : (ofSpan root.span).size ≤ p := by
    refine Nat.pos_of_ne_zero fun he => ?_
    rw [he] at hk
    cases hk.symm.trans hroot
  have hopen : ast.Opened p := by
    rw [Opened, isKind, hk]
    rfl
  obtain rfl := eq_of_build h
  obtain ⟨m, hm, rfl, ho⟩ := visitAll_moment root.slots hw p hpos hopen
  obtain ⟨kind, ho⟩ := Option.isSome_iff_exists.mp ho
  obtain ⟨hplace, -⟩ := hm.workplace hw
  obtain ⟨-, hs⟩ := hm.opened hw ho
  obtain rfl : kind = .member := by
    rw [shape?, hk] at hs
    exact (Option.some.inj hs).symm
  obtain ⟨rule, hrule, hopens⟩ := Option.bind_eq_some_iff.mp ho
  obtain ⟨k, -, rfl⟩ := Option.map_eq_some_iff.mp hrule
  have hsuits := (Rule.ofRole_serves hplace.suits k).suits
  refine ⟨m, hm, ?_, rfl⟩
  rw [hrule]
  generalize Rule.ofRole m.role k = rule at hopens hsuits
  cases rule with
  | member => rfl
  | wrap kind =>
    cases hopens
    cases hsuits
  | value form => cases form <;> cases hopens
  | _ => cases hopens

/-- Member expressions use their receivers. -/
theorem build_usesReceiver {root : Tree} {unitName : String} (h : build root unitName = .ok ast)
    (hk : ast.kind? p = some .member) : ast.UsesReceiver p := by
  obtain ⟨m, hm, hr, rfl⟩ := exists_moment_of_member h hk
  exact usesReceiver_of_build h hm hr

end ComponentCompiler.Ast
