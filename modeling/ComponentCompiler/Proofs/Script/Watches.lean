import ComponentCompiler.Proofs.Ast.Receivers
import ComponentCompiler.Proofs.Ast.Values
import ComponentCompiler.Proofs.Edit
import ComponentCompiler.Script.Watch

namespace ComponentCompiler

open Cst (Tree)
open Relation

namespace Span

variable {source : String} {s r : Span}

theorem byteSize_slice (h : s.Cuts source) : Text.byteSize (s.slice source) = s.stop - s.start := by
  obtain ⟨before, behind, -, -, hsize⟩ := h.parts
  omega

/-- A range inside another one with the same text is the whole of it. -/
theorem eq_of_slice_eq (hs : s.Cuts source) (hr : r.Cuts source)
    (hin : s.start ≤ r.start ∧ r.stop ≤ s.stop) (h : r.slice source = s.slice source) : r = s := by
  have hsize := congrArg Text.byteSize h
  rw [byteSize_slice hs, byteSize_slice hr] at hsize
  have hs' := hs.ordered
  have hr' := hr.ordered
  obtain ⟨start, stop⟩ := s
  obtain ⟨start', stop'⟩ := r
  simp only at hsize hin hs' hr'
  rw [Span.mk.injEq]
  omega

theorem slice_eq_empty (h : s.Cuts source) (hs : s.stop ≤ s.start) : s.slice source = "" := by
  have hsize := byteSize_slice h
  rw [Nat.sub_eq_zero_of_le hs] at hsize
  exact String.toList_eq_nil_iff.mp (Text.byteLength_eq_zero hsize)

end Span

def Cst.Tree.text (t : Tree) (source : String) : String :=
  t.span.slice source

namespace Ast

variable {source : String} {t receiver dot name : Tree}

def leadingTexts? (source : String) : List Span → Option (String × String)
  | first :: second :: _ => some (first.slice source, second.slice source)
  | _ => none

/-- The receiver is built as a node that covers it. Behind it there is no other node before the
name, unless the name is empty. -/
def CoveredBy (source : String) (receiver name : Tree) : Prop :=
  ∃ first rest, heads receiver = first :: rest ∧ first.span = receiver.span ∧
    (rest = [] ∨ name.text source = "")

theorem headsAll_access (h : Access t receiver dot name) (hdot : heads dot = []) :
    headsAll t.children = heads receiver ++ [name] := by
  have hname : heads name = [name] := by
    have hkind := h.name
    cases name with
    | missing => cases hkind
    | node head slots =>
      have hk : Cst.Kind.ofName head.kind = .propertyIdentifier := Option.some.inj hkind
      unfold heads
      rw [hk]
      rfl
  rw [h.children]
  simp only [headsAll, hdot, hname, List.nil_append, List.append_nil]

/-- The first two nodes have the texts of the receiver and the name if the receiver is covered. -/
theorem leadingTexts?_access (name : Tree) (hs : receiver.Spaced)
    (hc : ∀ s : Tree, s.Within receiver → s.isPresent → s.span.Cuts source) :
    leadingTexts? source ((heads receiver ++ [name]).map Tree.span) =
        some (receiver.text source, name.text source) ↔ CoveredBy source receiver name := by
  unfold CoveredBy
  cases hheads : heads receiver with
  | nil => simp [leadingTexts?]
  | cons first rest =>
    have hmem : first ∈ heads receiver := hheads ▸ List.mem_cons_self
    obtain ⟨hpresent, hin⟩ := within_of_mem_heads receiver hmem
    have hcuts := hc receiver .self (hin.isPresent hpresent)
    have hcover : first.text source = receiver.text source ↔ first.span = receiver.span :=
      ⟨Span.eq_of_slice_eq hcuts (hc first hin hpresent) (hin.contains hs hpresent),
        congrArg (Span.slice · source)⟩
    cases rest with
    | nil =>
      have htexts : leadingTexts? source ([first, name].map Tree.span) =
          some (first.text source, name.text source) := rfl
      rw [List.singleton_append, htexts]
      simp [hcover]
    | cons second rest =>
      -- behind a node that covers the receiver there is no text left
      have hempty (hspan : first.span = receiver.span) : second.text source = "" := by
        have hmem' : second ∈ heads receiver := hheads ▸ by simp
        obtain ⟨hpresent', hin'⟩ := within_of_mem_heads receiver hmem'
        have hordered := ordered_heads receiver hs
        rw [hheads] at hordered
        have hbehind := (List.pairwise_cons.mp hordered).1 second List.mem_cons_self
        refine Span.slice_eq_empty (hc second hin' hpresent') ?_
        calc second.span.stop ≤ receiver.span.stop := (hin'.contains hs hpresent').2
          _ = first.span.stop := by rw [hspan]
          _ ≤ second.span.start := hbehind
      constructor
      · intro h
        obtain ⟨hfirst, hsecond⟩ := Prod.mk.inj (Option.some.inj h)
        have hspan := hcover.mp hfirst
        exact ⟨first, _, rfl, hspan, .inr (hsecond.symm.trans (hempty hspan))⟩
      · rintro ⟨_, _, heq, hspan, hnil | hname⟩
        · cases heq
          cases hnil
        · cases heq
          rw [hname, ← hempty hspan, ← hcover.mpr hspan]
          rfl

end Ast

namespace ScriptInput

variable {s : ScriptInput} {p : NodeId} {bs : List NodeId} {pair : String × String}

theorem nodup_addOnce {α : Type} [BEq α] [LawfulBEq α] (xs seen : List α) (h : seen.Nodup) :
    (xs.foldl (fun seen x => if seen.contains x then seen else seen ++ [x]) seen).Nodup ∧
      ∀ y, y ∈ xs.foldl (fun seen x => if seen.contains x then seen else seen ++ [x]) seen ↔
        y ∈ seen ∨ y ∈ xs := by
  induction xs generalizing seen with
  | nil => exact ⟨h, by simp⟩
  | cons x rest ih =>
    rw [List.foldl_cons]
    by_cases hx : x ∈ seen
    · rw [if_pos (List.contains_iff_mem.mpr hx)]
      refine ⟨(ih seen h).1, fun y => ?_⟩
      rw [(ih seen h).2, List.mem_cons]
      constructor
      · exact Or.imp_right .inr
      · rintro (hy | rfl | hy)
        · exact .inl hy
        · exact .inl hx
        · exact .inr hy
    · rw [if_neg fun hc => hx (List.contains_iff_mem.mp hc)]
      have hnext : (seen ++ [x]).Nodup := by
        rw [List.nodup_append_comm]
        exact List.nodup_cons.mpr ⟨hx, h⟩
      refine ⟨(ih _ hnext).1, fun y => ?_⟩
      rw [(ih _ hnext).2, List.mem_append, List.mem_singleton, List.mem_cons, or_assoc]

theorem nodup_watchList : (s.watchList p bs).Nodup :=
  (nodup_addOnce _ [] .nil).1

theorem mem_watchList : pair ∈ s.watchList p bs ↔ ∃ b ∈ bs, s.watch? p b = some pair := by
  rw [watchList, (nodup_addOnce _ [] .nil).2, List.mem_filterMap]
  simp

theorem watch?_member {root : Tree} {unitName : String} {m : Ast.Moment}
    (hb : Ast.build root unitName = .ok s.ast) (hm : m.Of root) (hr : m.rule? = some .member)
    (p : NodeId) : s.watch? p m.ast.size =
      if s.ast.isLocalBinding s.source m.ast.size p then none
      else Ast.leadingTexts? s.source ((Ast.headsAll m.tree.children).map Tree.span) := by
  unfold watch?
  rw [← Ast.childSpans_member hb hm hr, Ast.childSpans]
  split
  · rfl
  · rcases s.ast.children m.ast.size with _ | ⟨_, _ | _⟩ <;> rfl

end ScriptInput

/-- What a property watches has no repeats, and is watched for the bindings that are not local. Each
pair comes from a member expression inside a value: it is made of the first two nodes there, and
these are the receiver and the name if the receiver is built as a node that covers it. -/
theorem watchList_of_members {cst : Cst.Table} {source : String} (ha : cst.Acyclic)
    (hn : cst.WellNested source) (he : cst.ErrorFree) (unitName : String) :
    ∃ root ast, cst.tree? = some root ∧ Ast.build root unitName = .ok ast ∧
      ∀ s : ScriptInput, s.ast = ast → s.source = source → ∀ p bs, ast.bindings? p = some bs →
        (s.watchList p bs).Nodup ∧
        (∀ pair, pair ∈ s.watchList p bs ↔ ∃ b ∈ bs, s.watch? p b = some pair) ∧
        ∀ pair ∈ s.watchList p bs, ∃ m : Ast.Moment, m.Of root ∧ m.rule? = some .member ∧
          (∃ v, ast.Up v p ∧ ast.isKind v NodeKind.isValue ∧ TransGen ast.Up m.ast.size v) ∧
          Ast.leadingTexts? source ((Ast.headsAll m.tree.children).map Tree.span) = some pair ∧
          ∀ receiver dot name, Ast.Access m.tree receiver dot name → Ast.heads dot = [] →
            (pair = (receiver.text source, name.text source) ↔
              Ast.CoveredBy source receiver name) := by
  obtain ⟨root, ast, ht, hb⟩ := Ast.build_ok ha he unitName
  have hlisted : ast.BindingsListed := by
    obtain ⟨log, h⟩ := Ast.build_logged hb
    exact h.bindingsListed (Ast.build_linked hb)
  refine ⟨root, ast, ht, hb, ?_⟩
  rintro s rfl rfl p bs hbs
  refine ⟨ScriptInput.nodup_watchList, fun pair => ScriptInput.mem_watchList, fun pair hpair => ?_⟩
  obtain ⟨b, hmem, hwatch⟩ := ScriptInput.mem_watchList.mp hpair
  obtain ⟨⟨hk, -⟩, hup, -⟩ := ((hlisted.bindings p bs hbs).2 b).mp hmem
  obtain ⟨m, hm, hr, rfl⟩ := Ast.exists_moment_of_member hb hk
  have htexts : Ast.leadingTexts? s.source ((Ast.headsAll m.tree.children).map Tree.span) =
      some pair := by
    rw [ScriptInput.watch?_member hb hm hr] at hwatch
    split at hwatch
    · cases hwatch
    · exact hwatch
  refine ⟨m, hm, hr, Ast.exists_value_of_member hb hk hup (Ast.isProperty_of_bindings? hbs),
    htexts, fun receiver dot name hacc hdot => ?_⟩
  have hin : receiver.Within root := by
    refine (Cst.Tree.within_of_mem_children ?_).trans hm.within
    rw [hacc.children]
    exact List.mem_cons_self
  rw [Ast.headsAll_access hacc hdot] at htexts
  have hiff := Ast.leadingTexts?_access name (hin.spaced (Cst.Table.tree?_spaced ht hn))
    fun t hw hp => Cst.Table.cuts_of_within ht hn (hw.trans hin) hp
  rw [htexts, Option.some.injEq] at hiff
  exact hiff

section

open Cst (Sketch)
open Ast

def sumAccessSource : String :=
  "component A \x7b T w: (a + b).c + d.e \x7d"

/-- A property whose value takes a property of a sum in parentheses, and one of a plain name. -/
def sumAccess : Cst.Table :=
  let sum := Sketch.node "binary_expression" [wordSketch "a", .token "+", wordSketch "b"]
  let receiver := Sketch.node "parenthesized_expression" [.token "(", sum, .token ")"]
  let value := Sketch.node "binary_expression"
    [memberSketch receiver "c", .token "+", memberSketch (wordSketch "d") "e"]
  ((declarationSketch "A" [valueSketch "w" value]).layout sumAccessSource).toOption.getD {}

theorem sumAccessSource_ascii : (sumAccessSource.toList.all fun c => c.utf8Size == 1) ∧
    sumAccessSource.toList.length = 36 := by
  decide

theorem sumAccess_entries : ∀ e ∈ sumAccess.entries,
    ((e.head.span.start ≤ e.head.span.stop ∧ e.head.span.stop ≤ 36) ∧
      (∀ c ∈ sumAccess.childrenOf e, e.head.span.contains c.head.span) ∧
      (sumAccess.childrenOf e).IsChain fun a b => a.head.span.stop ≤ b.head.span.start) ∧
      Cst.Kind.ofName e.head.kind ≠ .error := by
  decide +kernel

theorem sumAccess_wellNested : sumAccess.WellNested sumAccessSource :=
  Cst.Table.wellNested_of_entries sumAccessSource_ascii.1 fun e he =>
    sumAccessSource_ascii.2 ▸ (sumAccess_entries e he).1

theorem sumAccess_acyclic : sumAccess.Acyclic :=
  Cst.Table.acyclic_of_children_lt (by decide +kernel)

theorem sumAccess_errorFree : sumAccess.ErrorFree :=
  Cst.Table.errorFree_of_entries fun e he => (sumAccess_entries e he).2

/-- Node 4 is the property, and nodes 8 and 12 are the member expressions. -/
theorem sumAccess_built {root : Tree} {ast : Ast} (ht : sumAccess.tree? = some root)
    (hb : build root "App" = .ok ast) :
    ast.bindings? 4 = some [8, 12] ∧
    ({ ast, source := sumAccessSource, unitName := "App" } : ScriptInput).watchList 4 [8, 12] =
      [("a", "b"), ("d", "e")] := by
  apply of_build_of_decide ht hb
  decide +kernel

theorem sumAccess_watchList :
    sumAccess.Acyclic ∧ sumAccess.WellNested sumAccessSource ∧ sumAccess.ErrorFree ∧
    ∃ (root : Tree) (ast : Ast) (s : ScriptInput), sumAccess.tree? = some root ∧
      build root "App" = .ok ast ∧ s.ast = ast ∧ s.source = sumAccessSource ∧ ast.bindings? 4 = some [8, 12] ∧
      ("d", "e") ∈ s.watchList 4 [8, 12] ∧ (s.watchList 4 [8, 12]).Nodup ∧
      ∃ m : Moment, m.Of root ∧ m.rule? = some .member ∧
        (∃ v, ast.Up v 4 ∧ ast.isKind v NodeKind.isValue ∧ TransGen ast.Up m.ast.size v) ∧
        leadingTexts? sumAccessSource ((headsAll m.tree.children).map Tree.span) =
          some ("d", "e") ∧
        ∀ receiver dot name, Access m.tree receiver dot name → heads dot = [] →
          (("d", "e") = (receiver.text sumAccessSource, name.text sumAccessSource) ↔
            CoveredBy sumAccessSource receiver name) := by
  obtain ⟨root, ast, ht, hb, h⟩ :=
    watchList_of_members sumAccess_acyclic sumAccess_wellNested sumAccess_errorFree "App"
  obtain ⟨hbindings, hwatches⟩ := sumAccess_built ht hb
  obtain ⟨hnodup, -, hpairs⟩ := h { ast, source := sumAccessSource, unitName := "App" } rfl
    rfl 4 [8, 12] hbindings
  have hmem := hwatches ▸ List.mem_cons_of_mem ("a", "b") (List.mem_singleton_self ("d", "e"))
  exact ⟨sumAccess_acyclic, sumAccess_wellNested, sumAccess_errorFree, root, ast, _, ht, hb, rfl,
    rfl, hbindings, hmem, hnodup, hpairs _ hmem⟩

/-- The operands of the sum are watched, though no member expression is written so. -/
theorem sumAccess_watches_operands :
    sumAccess.Acyclic ∧ sumAccess.WellNested sumAccessSource ∧ sumAccess.ErrorFree ∧
    ∃ (root : Tree) (ast : Ast) (s : ScriptInput), sumAccess.tree? = some root ∧
      build root "App" = .ok ast ∧ s.ast = ast ∧ s.source = sumAccessSource ∧ ast.bindings? 4 = some [8, 12] ∧
      ("a", "b") ∈ s.watchList 4 [8, 12] ∧
      ∀ m : Moment, m.Of root → m.rule? = some .member →
        ∃ receiver dot name, Access m.tree receiver dot name ∧ heads dot = [] ∧
          ("a", "b") ≠ (receiver.text sumAccessSource, name.text sumAccessSource) := by
  obtain ⟨root, ast, ht, hb⟩ := build_ok sumAccess_acyclic sumAccess_errorFree "App"
  have hall : sumAccess.tree?.all fun root =>
      (Moment.list .plain rootId root.slots (ofSpan root.span)).all fun m =>
        m.rule? != some .member || (access? m.tree).any fun parts =>
        (heads parts.2.1).isEmpty && ("a", "b") !=
          (parts.1.text sumAccessSource, parts.2.2.text sumAccessSource) := by
    decide +kernel
  rw [ht, Option.all_some] at hall
  obtain ⟨hbindings, hwatches⟩ := sumAccess_built ht hb
  refine ⟨sumAccess_acyclic, sumAccess_wellNested, sumAccess_errorFree, root, ast, _, ht, hb, rfl,
    rfl, hbindings, hwatches ▸ List.mem_cons_self, fun m hm hr => ?_⟩
  have hparts := List.all_eq_true.mp hall m (Moment.mem_list.mpr hm)
  rw [hr, bne_self_eq_false, Bool.false_or, Option.any_eq_true] at hparts
  obtain ⟨⟨receiver, dot, name⟩, hacc, hparts⟩ := hparts
  rw [Bool.and_eq_true, List.isEmpty_iff, bne_iff_ne] at hparts
  exact ⟨receiver, dot, name, access_of_access? hacc, hparts⟩

end

end ComponentCompiler
