import ComponentCompiler.Proofs.Ast.Completion
import ComponentCompiler.Proofs.Ast.ConstructorSlots
import ComponentCompiler.Proofs.Ast.SuperCalls
import Mathlib.Data.List.Sort

namespace ComponentCompiler.Ast

open Cst (Tree)

variable {a b ast : Ast} {c d n owner p x : NodeId} {cs l : List NodeId} {kind : NodeKind}
  {role : Role} {rule : Rule} {t : Tree}

structure Replacement where
  component : NodeId
  previous : NodeId
  next : NodeId
  deriving DecidableEq

/-- The constructor of each declaration, and all that were replaced. -/
structure Roll where
  holds : NodeId → Option NodeId := fun _ => none
  replaced : List Replacement := []

def Follows (l : List NodeId) (p n : NodeId) : Prop :=
  ∃ i, l[i]? = some p ∧ l[i + 1]? = some n

theorem follows_concat : Follows (l ++ [x]) p n ↔ Follows l p n ∨ l.getLast? = some p ∧ x = n := by
  constructor
  · rintro ⟨i, hp, hn⟩
    rcases Nat.lt_trichotomy (i + 1) l.length with hi | hi | hi
    · rw [List.getElem?_append_left (by omega)] at hp
      rw [List.getElem?_append_left hi] at hn
      exact .inl ⟨i, hp, hn⟩
    · rw [List.getElem?_append_left (by omega)] at hp
      rw [hi, List.getElem?_concat_length] at hn
      rw [List.getLast?_eq_getElem?, ← hi]
      exact .inr ⟨hp, Option.some.inj hn⟩
    · rw [List.getElem?_eq_none (by simp; omega)] at hn
      cases hn
  · rintro (⟨i, hp, hn⟩ | ⟨hp, rfl⟩)
    · have hi := (List.getElem?_eq_some_iff.mp hn).1
      refine ⟨i, ?_, ?_⟩
      · rwa [List.getElem?_append_left (by omega)]
      · rwa [List.getElem?_append_left hi]
    · rw [List.getLast?_eq_getElem?] at hp
      have hi := (List.getElem?_eq_some_iff.mp hp).1
      refine ⟨l.length - 1, ?_, ?_⟩
      · rwa [List.getElem?_append_left hi]
      · rw [show l.length - 1 + 1 = l.length by omega, List.getElem?_concat_length]

namespace Roll

variable {home? : NodeId → Option NodeId} {r : Roll} {s : Replacement}

def enrol (home? : NodeId → Option NodeId) (r : Roll) (c : NodeId) : Roll :=
  match home? c with
  | none => r
  | some d => {
      holds := Function.update r.holds d (some c)
      replaced := r.replaced ++ (r.holds d).toList.map fun p => ⟨d, p, c⟩ }

theorem enrol_none (h : home? c = none) : r.enrol home? c = r := by
  rw [enrol, h]

theorem enrol_some (h : home? c = some d) : r.enrol home? c = {
    holds := Function.update r.holds d (some c)
    replaced := r.replaced ++ (r.holds d).toList.map fun p => ⟨d, p, c⟩ } := by
  rw [enrol, h]

def enrolAll (home? : NodeId → Option NodeId) (r : Roll) (cs : List NodeId) : Roll :=
  cs.foldl (enrol home?) r

theorem enrolAll_append (ds : List NodeId) :
    r.enrolAll home? (cs ++ ds) = (r.enrolAll home? cs).enrolAll home? ds :=
  List.foldl_append

theorem enrolAll_congr {home?' : NodeId → Option NodeId} (h : ∀ c ∈ cs, home?' c = home? c) :
    r.enrolAll home?' cs = r.enrolAll home? cs := by
  refine List.foldl_ext _ _ r fun r c hc => ?_
  rw [enrol, enrol, h c hc]

def own (home? : NodeId → Option NodeId) (d : NodeId) (cs : List NodeId) : List NodeId :=
  cs.filter fun c => home? c = some d

theorem own_concat_of_eq (h : home? c = some d) :
    own home? d (cs ++ [c]) = own home? d cs ++ [c] := by
  simp [own, h]

theorem own_concat_of_ne (h : home? c ≠ some d) : own home? d (cs ++ [c]) = own home? d cs := by
  simp [own, h]

/-- The last one of a declaration is held, and each of the others is replaced by the next. -/
structure Keeps (home? : NodeId → Option NodeId) (cs : List NodeId) (r : Roll) : Prop where
  holds : ∀ d, r.holds d = (own home? d cs).getLast?
  replaced : ∀ s, s ∈ r.replaced ↔ Follows (own home? s.component cs) s.previous s.next
  order : (r.replaced.map Replacement.next).Sublist cs

theorem Keeps.enrol (h : Keeps home? cs r) (c : NodeId) :
    Keeps home? (cs ++ [c]) (r.enrol home? c) := by
  cases hc : home? c with
  | none =>
    have hown (d : NodeId) : own home? d (cs ++ [c]) = own home? d cs :=
      own_concat_of_ne (hc ▸ nofun)
    rw [enrol_none hc]
    refine ⟨fun d => ?_, fun s => ?_, h.order.trans (List.sublist_append_left cs [c])⟩
    · rw [hown, h.holds]
    · rw [hown, h.replaced]
  | some e =>
    have hself : own home? e (cs ++ [c]) = own home? e cs ++ [c] := own_concat_of_eq hc
    have hother {d : NodeId} (hd : d ≠ e) : own home? d (cs ++ [c]) = own home? d cs :=
      own_concat_of_ne fun he => hd (Option.some.inj (he.symm.trans hc))
    rw [enrol_some hc]
    refine ⟨fun d => ?_, fun s => ?_, ?_⟩
    · by_cases hd : d = e
      · subst hd
        rw [hself, List.getLast?_concat]
        exact Function.update_self d _ _
      · rw [hother hd, ← h.holds]
        exact Function.update_of_ne hd _ _
    · obtain ⟨d, p, n⟩ := s
      dsimp only
      rw [List.mem_append, h.replaced, h.holds]
      by_cases hd : d = e
      · subst hd
        rw [hself, follows_concat]
        simp
      · rw [hother hd]
        simp [Ne.symm hd]
    · dsimp only
      rw [List.map_append]
      refine h.order.append ?_
      cases r.holds e <;> simp

theorem keeps_enrolAll (home? : NodeId → Option NodeId) (cs : List NodeId) :
    Keeps home? cs (enrolAll home? {} cs) := by
  induction cs using List.reverseRecOn with
  | nil => exact ⟨fun _ => rfl, fun _ => by simp [enrolAll, own, Follows], .slnil⟩
  | append_singleton cs c ih =>
    rw [enrolAll_append]
    exact ih.enrol c

end Roll

def report (ast : Ast) (s : Replacement) : Diagnostic :=
  .duplicateConstructor (ast.span s.component) (ast.span s.previous)

theorem Extends.map_report_eq (h : a.Extends b) {replaced : List Replacement}
    (hs : ∀ s ∈ replaced, s.component < a.size ∧ s.previous < a.size) :
    replaced.map b.report = replaced.map a.report := by
  refine List.map_congr_left fun s hmem => ?_
  obtain ⟨hcomponent, hprevious⟩ := hs s hmem
  rw [report, report, h.span_eq hcomponent, h.span_eq hprevious]

structure Tracks (ast : Ast) (r : Roll) : Prop where
  ledger : ast.ledger = ⟨r.holds, r.replaced.map ast.report⟩
  held : ∀ d x, r.holds d = some x → x < ast.size
  past : ∀ s ∈ r.replaced, s.component < ast.size ∧ s.previous < ast.size

namespace Tracks

variable {r : Roll}

theorem of_extends (hext : a.Extends b) (hledger : b.ledger = ⟨r.holds, r.replaced.map a.report⟩)
    (held : ∀ d x, r.holds d = some x → x < a.size)
    (past : ∀ s ∈ r.replaced, s.component < a.size ∧ s.previous < a.size) : b.Tracks r := by
  have hle {x : NodeId} (hx : x < a.size) : x < b.size := Nat.lt_of_lt_of_le hx hext.size_le
  refine ⟨?_, fun d x hx => hle (held d x hx), fun s hs => (past s hs).imp hle hle⟩
  rw [hledger, hext.map_report_eq past]

theorem same (h : a.Tracks r) (hext : a.Extends b) (hledger : b.ledger = a.ledger) :
    b.Tracks r :=
  of_extends hext (hledger.trans h.ledger) h.held h.past

theorem leaveConstructor (h : a.Tracks r) (hl : a.Linked) (hu : a.Up x owner)
    (hx : a.isKind x NodeKind.isConstructor)
    (hext : a.Extends (leave (.callable .ctor) owner x a)) :
    (leave (.callable .ctor) owner x a).Tracks (r.enrol a.declarationOf? x) := by
  have hledger := ledger_leaveConstructor hl hu hx
  cases hd : a.declarationOf? x with
  | none =>
    rw [hd] at hledger
    rw [Roll.enrol_none hd]
    exact h.same hext hledger
  | some d =>
    obtain ⟨hctor, hdiagnostics⟩ := Ledger.mk.inj h.ledger
    have hdlt : d < a.size := lt_size_of_isKind (declarationOf?_eq_some.mp hd).2.2
    rw [Roll.enrol_some hd]
    refine of_extends hext ?_ (fun e y hy => ?_) fun s hs => ?_
    · rw [hledger, hd, Option.elim_some, hctor, hdiagnostics, List.map_append, List.map_map]
      rfl
    · dsimp only at hy
      by_cases he : e = d
      · subst he
        rw [Function.update_self] at hy
        cases hy
        exact lt_size_of_up hu
      · rw [Function.update_of_ne he] at hy
        exact h.held e y hy
    · rcases List.mem_append.mp hs with hs | hs
      · exact h.past s hs
      · obtain ⟨p, hp, rfl⟩ := List.mem_map.mp hs
        exact ⟨hdlt, h.held d p (Option.mem_toList.mp hp)⟩

end Tracks

theorem Rule.eq_ctor (hr : rule.Suits a owner) (h : rule.opens? a owner t = some kind)
    (hk : kind.isConstructor) : rule = .callable .ctor := by
  cases rule with
  | callable form =>
    cases h
    cases form <;> first | rfl | cases hk
  | wrap kind =>
    cases h
    cases kind with
    | callable form data => cases hr
    | _ => cases hk
  | value form => cases form <;> cases h <;> cases hk
  | _ => cases h <;> cases hk

theorem Tracks.leave {r : Roll} (h : b.Tracks r) (hl : b.Linked) (hr : rule.Suits a owner)
    (ho : rule.opens? a owner t = some kind) (hu : b.Up x owner) (hs : b.shape? x = some kind)
    (hext : b.Extends (leave rule owner x b)) :
    (Ast.leave rule owner x b).Tracks (r.enrol b.declarationOf? x) := by
  have hkind : b.isKind x NodeKind.isConstructor = kind.isConstructor := by
    rw [isKind_eq_shape? NodeKind.isConstructor_shape, hs, Option.any_some]
  by_cases hk : kind.isConstructor
  · obtain rfl := Rule.eq_ctor hr ho hk
    exact h.leaveConstructor hl hu (hkind.trans hk) hext
  · have hno : b.declarationOf? x = none := by
      rw [declarationOf?, hkind, if_neg hk]
    rw [Roll.enrol_none hno]
    refine h.same hext (ledger_leave ?_)
    rintro rfl
    cases ho
    exact hk rfl

theorem Extends.enrolAll_eq {r : Roll} (h : a.Extends b) (hl : a.Linked)
    (hcs : ∀ c ∈ cs, c < a.size) :
    r.enrolAll b.declarationOf? cs = r.enrolAll a.declarationOf? cs :=
  Roll.enrolAll_congr fun c hc => h.declarationOf?_eq hl (hcs c hc)

theorem Tracks.opening {r : Roll} {visited : Ast} (cs : List NodeId)
    (h : visited.Tracks (r.enrolAll visited.declarationOf? cs)) (hw : Workplace role a owner)
    (hr : rule.Suits a owner) (ho : rule.opens? a owner t = some kind)
    (hopening : Opening owner t a (enter rule owner t a) visited
      (Ast.leave rule owner a.size visited))
    (hext : (enter rule owner t a).Extends visited) (hcs : ∀ c ∈ cs, c < visited.size) :
    (Ast.leave rule owner a.size visited).Tracks
      (r.enrolAll (Ast.leave rule owner a.size visited).declarationOf? (cs ++ [a.size])) := by
  obtain ⟨-, hsound, hu, hs⟩ := Ast.opened hw.sound hr hw.lt ho
  have hl : visited.Linked := hsound.linked.grows hext.grows
  have hleave := hopening.leave.extension
  have hnode := h.leave hl hr ho (hext.up hu) (hext.shape?_eq_some hs) hleave
  rw [hleave.enrolAll_eq hl, Roll.enrolAll_append]
  · exact hnode
  · intro c hc
    rcases List.mem_append.mp hc with hc | hc
    · exact hcs c hc
    · rw [List.mem_singleton.mp hc]
      exact lt_size_of_up (hext.up hu)

mutual

theorem visit_tracks : (t : Tree) → {role : Role} → {ast : Ast} → {owner : NodeId} → {r : Roll} →
    Workplace role ast owner → ast.Tracks r → (visit role owner t ast).Tracks
      (r.enrolAll (visit role owner t ast).declarationOf? (completed role owner t ast))
  | .missing, _, _, _, _, _, h => h
  | .node head slots, role, ast, owner, r, hw, h => by
    have hsuits := (Rule.ofRole_serves hw.suits (Cst.Kind.ofName head.kind)).suits
    have hentered {kind : NodeKind} (ho : (Rule.ofRole role (Cst.Kind.ofName head.kind)).opens? ast
        owner (.node head slots) = some kind) : (enter (Rule.ofRole role
          (Cst.Kind.ofName head.kind)) owner (.node head slots) ast).Tracks r :=
      h.same (Ast.opened hw.sound hsuits hw.lt ho).1 (ledger_enter hsuits)
    cases hw.visitCase head slots with
    | leaves ho hi hrun =>
      rw [completed_of_not_opened ho hi]
      refine h.same hrun.extension ?_
      rw [visit_of_not_opened ho hi]
      exact ledger_enter hsuits
    | pass hp hplain hvisit =>
      rw [completed_of_pass hp, hvisit]
      exact visitAll_tracks slots hplain h
    | closed ho hi hopening =>
      rw [completed_of_closed ho hi]
      unfold visit at hopening ⊢
      dsimp only at hopening ⊢
      rw [hi] at hopening ⊢
      exact Tracks.opening [] (hentered ho) hw hsuits ho hopening (.refl _) nofun
    | node ho hi hinner hopening =>
      rw [completed_of_opened ho hi]
      unfold visit at hopening ⊢
      dsimp only at hopening ⊢
      rw [hi] at hopening ⊢
      obtain ⟨log, hv⟩ := hinner.visitsAll slots
      have hvisited := visitAll_tracks slots hinner (hentered ho)
      refine hvisited.opening _ hw hsuits ho hopening (hv.run hinner.lt).extension fun c hc => ?_
      exact (((visitAll_completes slots hinner).mem c).mp hc).2.lt

theorem visitAll_tracks : (ts : List Tree) → {role : Role} → {ast : Ast} → {owner : NodeId} →
    {r : Roll} → Workplace role ast owner → ast.Tracks r → (visitAll role owner ts ast).Tracks
      (r.enrolAll (visitAll role owner ts ast).declarationOf? (completedAll role owner ts ast))
  | [], _, _, _, _, _, h => h
  | t :: rest, role, ast, owner, r, hw, h => by
    have hnext := hw.next t
    obtain ⟨log, hv⟩ := hnext.visitsAll rest
    have hfirst := visit_tracks t hw h
    rw [← (hv.run hnext.lt).extension.enrolAll_eq hnext.sound.linked fun c hc => ?_] at hfirst
    · unfold visitAll completedAll
      rw [Roll.enrolAll_append]
      exact visitAll_tracks rest hnext hfirst
    · exact (((visit_completes t hw).mem c).mp hc).2.lt

end

theorem build_tracks {root : Tree} {name : String} (h : build root name = .ok ast) :
    ast.Tracks (Roll.enrolAll ast.declarationOf? {} (finished root)) := by
  rw [eq_of_build h]
  refine visitAll_tracks root.slots (workplace_ofSpan root.span) ⟨Ledger.ext ?_ rfl, nofun, nofun⟩
  funext x
  cases x <;> rfl

def constructors (ast : Ast) (d : NodeId) : List NodeId :=
  (List.range ast.size).filter fun c => ast.isKind c NodeKind.isConstructor &&
    (ast.parent? c).any fun body => ast.isKind body (· == .body) && ast.parent? body == some d

theorem mem_constructors :
    c ∈ ast.constructors d ↔ ast.isKind c NodeKind.isConstructor ∧ ast.MemberOf c d := by
  have hmember : ((ast.parent? c).any fun body =>
      ast.isKind body (· == .body) && ast.parent? body == some d) ↔ ast.MemberOf c d := by
    rw [Option.any_eq_true]
    refine exists_congr fun body => and_congr_right fun _ => ?_
    rw [Bool.and_eq_true, isKind_beq, beq_iff_eq]
    rfl
  rw [constructors, List.mem_filter, List.mem_range, Bool.and_eq_true, hmember,
    and_iff_right_iff_imp]
  exact fun h => lt_size_of_isKind h.1

/-- The constructors of a declaration are left in the order of their ids. -/
theorem own_finished {root : Tree} (h : Completes (ofSpan root.span) ast (finished root))
    (hl : ast.Linked) (hd : ast.isKind d NodeKind.isDeclaration) :
    Roll.own ast.declarationOf? d (finished root) = ast.constructors d := by
  have hmem (c : NodeId) : c ∈ Roll.own ast.declarationOf? d (finished root) ↔
      c ∈ finished root ∧ ast.isKind c NodeKind.isConstructor ∧ ast.MemberOf c d := by
    rw [Roll.own, List.mem_filter, decide_eq_true_iff, declarationOf?_eq_some, and_iff_left hd]
  refine List.Pairwise.eq_of_mem_iff (r := (· < ·)) ?_ (List.pairwise_lt_range.filter _) fun c => ?_
  · refine (h.order.filter _).imp_of_mem fun hx hy hleft => ?_
    rcases hleft with habove | ⟨hlt, -⟩
    · exact absurd habove (not_above_of_memberOf hl ((hmem _).mp hx).2.2 ((hmem _).mp hy).2.2)
    · exact hlt
  · rw [hmem, mem_constructors, and_iff_right_iff_imp]
    rintro ⟨hc, body, hbody, -⟩
    obtain ⟨k, hk, hctor⟩ := isKind_iff.mp hc
    refine (h.mem c).mpr ⟨Nat.lt_of_le_of_lt (Nat.zero_le body) (hl.up_lt hbody), ?_⟩
    refine isKind_iff.mpr ⟨k, hk, ?_⟩
    cases k <;> first | rfl | cases hctor

theorem own_eq_nil (hd : ¬ ast.isKind d NodeKind.isDeclaration) :
    Roll.own ast.declarationOf? d cs = [] := by
  refine List.filter_eq_nil_iff.mpr fun c _ hc => hd ?_
  exact (declarationOf?_eq_some.mp (of_decide_eq_true hc)).2.2

theorem marked_iff : (ast.superMark x).1 ↔ ast.kind? x = some (.call true) := by
  unfold superMark
  cases ast.kind? x with
  | none => simp
  | some k => cases k <;> simp [NodeKind.superMark]

/-- A declaration has the last constructor in its bodies. The others are reported, each when the
visit of the one behind it is completed. A constructor has the first call of the base constructor
among its statements. -/
structure ConstructorsKept (ast : Ast) (root : Tree) : Prop where
  last : ∀ d data, ast.kind? d = some (.declaration data) →
    data.ctor = (ast.constructors d).getLast?
  replaced : ∃ replaced : List Replacement, ast.diagnostics = replaced.map ast.report ∧
    (∀ s, s ∈ replaced ↔ ast.isKind s.component NodeKind.isDeclaration ∧
      Follows (ast.constructors s.component) s.previous s.next) ∧
    (replaced.map Replacement.next).Sublist (finished root)
  order : (finished root).Pairwise ast.LeftBefore
  superCall : ∀ c data, ast.kind? c = some (.callable .ctor data) → ∀ x,
    data.superCall = some x ↔
      IsLeast {y | ast.kind? y = some (.call true) ∧ ast.StatementOf c y} x

/-- However components are nested, a table without errors is built into a tree that keeps their
constructors. -/
theorem build_constructors_kept {cst : Cst.Table} (ha : cst.Acyclic) (he : cst.ErrorFree)
    (name : String) : ∃ root ast, cst.tree? = some root ∧ build root name = .ok ast ∧
      ast.ConstructorsKept root := by
  obtain ⟨root, ast, ht, hb⟩ := build_ok ha he name
  have hl := build_linked hb
  have hdone := build_completes hb
  have hkeeps := Roll.keeps_enrolAll ast.declarationOf? (finished root)
  obtain ⟨hctor, hdiagnostics⟩ := Ledger.mk.inj (build_tracks hb).ledger
  refine ⟨root, ast, ht, hb, ?_, ⟨_, hdiagnostics, fun s => ?_, hkeeps.order⟩, hdone.order, ?_⟩
  · intro d data hd
    have hdata : ast.ctor? d = data.ctor := by
      rw [ctor?, hd]
      rfl
    rw [← hdata, hctor, hkeeps.holds, own_finished hdone hl (isKind_declaration.mpr ⟨data, hd⟩)]
  · rw [hkeeps.replaced]
    by_cases hd : ast.isKind s.component NodeKind.isDeclaration
    · rw [own_finished hdone hl hd, and_iff_right hd]
    · rw [own_eq_nil hd]
      simp [Follows, hd]
  · intro c data hc x
    have hdata : (ast.superMark c).2 = data.superCall := by
      rw [superMark, hc]
      rfl
    rw [← hdata, build_keepsFirst hb c x]
    simp only [MarkedIn, marked_iff]

section

open Cst (Sketch)

def constructorSketch (statements : List Sketch) : Sketch :=
  .node "constructor_definition" [.token "constructor",
    .node "formal_parameters" [.token "(", .token ")"],
    .node "statement_block" ([.token "\x7b"] ++ statements ++ [.token "\x7d"])]

def superSketch : Sketch :=
  .node "expression_statement" [.node "call_expression"
    [.leaf "super" "super" true, .node "arguments" [.token "(", .token ")"]]]

/-- Both components have two constructors, and the second one of the outer component holds the inner
one. -/
def nestedConstructors : Cst.Table :=
  let inner := Sketch.node "component_declaration" [.token "component", wordSketch "B",
    bodySketch [constructorSketch [], constructorSketch [superSketch]]]
  let sketch := declarationSketch "A"
    [constructorSketch [superSketch, superSketch], constructorSketch [inner]]
  (sketch.layout ("component A \x7b constructor() \x7b super() super() \x7d " ++
    "constructor() \x7b component B \x7b constructor() \x7b \x7d " ++
    "constructor() \x7b super() \x7d \x7d \x7d \x7d")).toOption.getD {}

theorem nestedConstructors_acyclic : nestedConstructors.Acyclic :=
  Cst.Table.acyclic_of_children_lt (by decide +kernel)

theorem nestedConstructors_errorFree : nestedConstructors.ErrorFree :=
  Cst.Table.errorFree_of_entries (by decide +kernel)

/-- The inner constructor is reported first, though it has the higher id. -/
theorem nestedConstructors_kept : nestedConstructors.Acyclic ∧ nestedConstructors.ErrorFree ∧
    ∃ root ast, nestedConstructors.tree? = some root ∧ build root "App" = .ok ast ∧
      ast.ConstructorsKept root ∧
      ast.constructors 1 = [4, 13] ∧ ast.constructors 16 = [19, 22] ∧
      ast.diagnostics = [ast.report ⟨16, 19, 22⟩, ast.report ⟨1, 4, 13⟩] ∧
      ast.ctor? 1 = some 13 ∧ ast.ctor? 16 = some 22 ∧
      [4, 13, 22].map (fun c => (ast.superMark c).2) = [some 8, none, some 26] := by
  obtain ⟨root, ast, ht, hb, h⟩ :=
    build_constructors_kept nestedConstructors_acyclic nestedConstructors_errorFree "App"
  refine ⟨nestedConstructors_acyclic, nestedConstructors_errorFree, root, ast, ht, hb, h, ?_⟩
  apply of_build_of_decide ht hb
  decide +kernel

end

end ComponentCompiler.Ast
