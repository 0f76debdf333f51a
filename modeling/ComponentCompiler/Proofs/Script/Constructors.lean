import ComponentCompiler.Proofs.Ast.SuperCalls
import ComponentCompiler.Proofs.Script.Rendering
import ComponentCompiler.Proofs.Script.Watches

namespace ComponentCompiler

open Cst (Tree)
open Relation

def Span.inner (s : Span) : Span :=
  ⟨s.start + 1, s.stop - 1⟩

theorem Span.Cuts.around {source : String} {outer inner : Span} (ho : outer.Cuts source)
    (hi : inner.Cuts source) (hin : outer.contains inner) :
    Span.Cuts source ⟨inner.stop, outer.stop⟩ ∧
      outer.slice source = Span.slice ⟨outer.start, inner.start⟩ source ++
        (inner.slice source ++ Span.slice ⟨inner.stop, outer.stop⟩ source) := by
  rw [Ast.contains_iff] at hin
  have hbefore : Span.Cuts source ⟨outer.start, inner.start⟩ :=
    ⟨hin.1, Nat.le_trans hi.ordered hi.inside, ho.start, hi.start⟩
  have hbehind : Span.Cuts source ⟨inner.stop, outer.stop⟩ :=
    ⟨hin.2, ho.inside, hi.stop, ho.stop⟩
  have hrest : Span.Cuts source ⟨inner.start, outer.stop⟩ :=
    ⟨Nat.le_trans hi.ordered hin.2, ho.inside, hi.start, ho.stop⟩
  have hjoin := Span.slice_append hi hbehind rfl
  refine ⟨hbehind, ?_⟩
  calc outer.slice source = Span.slice ⟨outer.start, inner.start⟩ source ++
        Span.slice ⟨inner.start, outer.stop⟩ source := Span.slice_append hbefore hrest rfl
    _ = _ := congrArg _ hjoin

namespace Cst.Tree

structure IsToken (source word : String) (t : Tree) : Prop where
  slots : t.slots = []
  kind : t.head?.map Head.kind = some word
  text : t.text source = word

def Braced (source : String) (statements : List Tree) (t : Tree) : Prop :=
  ∃ first last, t.slots = first :: (statements ++ [last]) ∧ first.IsToken source "\x7b" ∧
    last.IsToken source "\x7d" ∧ first.span.start = t.span.start ∧ last.span.stop = t.span.stop

variable {source word : String} {root s t : Tree} {statements : List Tree} {cst : Table}

theorem IsToken.isPresent (h : t.IsToken source word) : t.isPresent := by
  have hk := h.kind
  cases t with
  | missing => cases hk
  | node head slots => rfl

theorem IsToken.stop_eq (h : t.IsToken source word) (hc : t.span.Cuts source) :
    t.span.start + Text.byteSize word = t.span.stop := by
  obtain ⟨_, _, -, -, hsize⟩ := hc.parts
  rwa [← h.text]

/-- A token that no rule is for has no part but itself, so no node comes from it. -/
theorem IsToken.kind_of_within (h : t.IsToken source word) (hw : Kind.ofName word = .other)
    (hs : s.Within t) : s.kind = some .other := by
  have hk := h.kind
  have hslots := h.slots
  cases hs with
  | self =>
    cases s with
    | missing => cases hk
    | node head slots =>
      obtain rfl : head.kind = word := Option.some.inj hk
      rw [Tree.kind, hw]
  | slot hmem _ =>
    obtain rfl := hslots
    cases hmem

theorem within_of_mem_slots (h : s ∈ t.slots) : s.Within t := by
  cases t with
  | missing => cases h
  | node head slots => exact .slot h .self

theorem Braced.inside (ht : cst.tree? = some root) (hn : cst.WellNested source)
    (hw : t.Within root) (h : t.Braced source statements) : t.span.inner.Cuts source ∧
      t.text source = "\x7b" ++ t.span.inner.slice source ++ "\x7d" ∧
      ∀ u ∈ statements, u.isPresent → t.span.inner.contains u.span := by
  obtain ⟨first, last, hslots, hfirst, hlast, hstart, hstop⟩ := h
  have hline := (hw.spaced (Table.tree?_spaced ht hn)).line
  have hcuts {u : Tree} (hu : u ∈ t.slots) (hp : u.isPresent) : u.span.Cuts source :=
    Table.cuts_of_within ht hn ((within_of_mem_slots hu).trans hw) hp
  have hcf := hcuts (by simp [hslots]) hfirst.isPresent
  have hcl := hcuts (by simp [hslots]) hlast.isPresent
  have hordered := hline.ordered
  rw [hslots, List.pairwise_cons, List.pairwise_append] at hordered
  obtain ⟨hbehind, -, -, hbefore⟩ := hordered
  have hopen : first.span.start + 1 = first.span.stop := hfirst.stop_eq hcf
  have hclose : last.span.start + 1 = last.span.stop := hlast.stop_eq hcl
  have hinner : t.span.inner = ⟨first.span.stop, last.span.start⟩ := by
    rw [Span.inner, Span.mk.injEq]
    omega
  have hrow : first.span.stop ≤ last.span.start :=
    hbehind last (by simp) hfirst.isPresent hlast.isPresent
  have hin : t.span.inner.Cuts source := by
    rw [hinner]
    exact ⟨hrow, Nat.le_trans hcl.ordered hcl.inside, hcf.stop, hcl.start⟩
  refine ⟨hin, ?_, fun u hu hp => ?_⟩
  · have hrest : Span.Cuts source ⟨first.span.stop, last.span.stop⟩ :=
      ⟨Nat.le_trans hrow hcl.ordered, hcl.inside, hcf.stop, hcl.stop⟩
    calc t.text source = Span.slice ⟨first.span.start, last.span.stop⟩ source := by
          rw [hstart, hstop]
          rfl
      _ = first.text source ++ (t.span.inner.slice source ++ last.text source) := by
          rw [Span.slice_append hcf hrest rfl, hinner]
          exact congrArg _ (Span.slice_append (hinner ▸ hin) hcl rfl)
      _ = _ := by rw [hfirst.text, hlast.text, String.append_assoc]
  · rw [hinner, Ast.contains_iff]
    exact ⟨hbehind u (List.mem_append_left _ hu) hfirst.isPresent hp,
      hbefore u hu last (List.mem_singleton_self last) hp hlast.isPresent⟩

end Cst.Tree

namespace Ast

variable {ast : Ast} {cst : Cst.Table} {root : Tree} {source name : String}
  {statements : List Tree} {body ctor x y : NodeId} {m : Moment}

theorem statement_of_below (ht : cst.tree? = some root) (hn : cst.WellNested source)
    (h : build root name = .ok ast) (hm : m.Of root) (ho : m.opens?.isSome)
    (hb : m.tree.Braced source statements) (hy : ast.Opened y) (hu : TransGen ast.Up y m.ast.size) :
    ∃ st ∈ statements, st.isPresent ∧ st.span.contains (ast.span y) := by
  obtain ⟨slot, hslot, part, hpart, hp, hk, hspan⟩ := part_of_below h hm ho hy hu
  obtain ⟨first, last, hslots, hfirst, hlast, -, -⟩ := hb
  have hspaced := (Tree.within_of_mem_slots hslot).trans hm.within |>.spaced
    (Cst.Table.tree?_spaced ht hn)
  rw [hslots, List.mem_cons, List.mem_append, List.mem_singleton] at hslot
  rcases hslot with rfl | hst | rfl
  · exact absurd (hfirst.kind_of_within (by decide) hpart) hk
  · refine ⟨slot, hst, hpart.isPresent hp, ?_⟩
    rw [hspan, contains_iff]
    exact hpart.contains hspaced hp
  · exact absurd (hlast.kind_of_within (by decide) hpart) hk

/-- The constructor has one block, which holds the statements between braces. -/
structure BracedBody (ast : Ast) (root : Tree) (source : String) (ctor body : NodeId)
    (statements : List Tree) : Prop where
  only : ∀ b, ast.Up b ctor → ast.kind? b = some .block → b = body
  block : ∃ m : Moment, m.Of root ∧ m.ast.size = body ∧ m.opens?.isSome ∧
    m.tree.Braced source statements

structure BlockLaid (source : String) (ast : Ast) (body : NodeId) (statements : List Tree) :
    Prop where
  cuts : (ast.span body).inner.Cuts source
  text : ast.slice body source = "\x7b" ++ (ast.span body).inner.slice source ++ "\x7d"
  inside : ∀ t ∈ statements, t.isPresent → (ast.span body).inner.contains t.span
  ordered : statements.Pairwise fun t u => t.isPresent → u.isPresent → t.span.stop ≤ u.span.start
  holds : ∀ y, ast.Opened y → TransGen ast.Up y body →
    ∃ st ∈ statements, st.isPresent ∧ st.span.contains (ast.span y)

theorem block_laid (ht : cst.tree? = some root) (hn : cst.WellNested source)
    (h : build root name = .ok ast)
    (hbody : ast.BracedBody root source ctor body statements) :
    BlockLaid source ast body statements := by
  obtain ⟨m, hm, rfl, ho, hbraced⟩ := hbody.block
  obtain ⟨-, hspan⟩ := Moment.In.span hm (workplace_ofSpan _) ho
  rw [← eq_of_build h] at hspan
  have hwithin := hm.within
  obtain ⟨hcuts, htext, hin⟩ := hbraced.inside ht hn hwithin
  have hordered := (hwithin.spaced (Cst.Table.tree?_spaced ht hn)).line.ordered
  refine ⟨hspan ▸ hcuts, ?_, fun t ht hp => hspan ▸ hin t ht hp, ?_, fun y hy hu => ?_⟩
  · rw [slice, hspan]
    exact htext
  · obtain ⟨first, last, hslots, -⟩ := hbraced
    rw [hslots, List.pairwise_cons, List.pairwise_append] at hordered
    exact hordered.2.1
  · exact statement_of_below ht hn h hm ho hbraced hy hu

theorem BlockLaid.contains (h : BlockLaid source ast body statements) (hy : ast.Opened y)
    (hu : TransGen ast.Up y body) : (ast.span body).inner.contains (ast.span y) := by
  obtain ⟨st, hst, hp, hin⟩ := h.holds y hy hu
  have hst := h.inside st hst hp
  rw [contains_iff] at hin hst ⊢
  exact ⟨Nat.le_trans hst.1 hin.1, Nat.le_trans hin.2 hst.2⟩

/-- The statements before and behind the one that a node below the block stands in. -/
theorem BlockLaid.around (h : BlockLaid source ast body statements) (hy : ast.Opened y)
    (hu : TransGen ast.Up y body) : ∃ pre st post, statements = pre ++ st :: post ∧
      st.isPresent ∧ st.span.contains (ast.span y) ∧
      (∀ t ∈ pre, t.isPresent →
        Span.contains ⟨(ast.span body).inner.start, (ast.span y).start⟩ t.span) ∧
      ∀ t ∈ post, t.isPresent →
        Span.contains ⟨(ast.span y).stop, (ast.span body).inner.stop⟩ t.span := by
  obtain ⟨st, hst, hp, hin⟩ := h.holds y hy hu
  obtain ⟨pre, post, rfl⟩ := List.append_of_mem hst
  have hordered := h.ordered
  rw [List.pairwise_append, List.pairwise_cons] at hordered
  obtain ⟨-, ⟨hpost, -⟩, hpre⟩ := hordered
  refine ⟨pre, st, post, rfl, hp, hin, fun t ht hpt => ?_, fun t ht hpt => ?_⟩
  · have hstart := h.inside t (List.mem_append_left _ ht) hpt
    have hstop := hpre t ht st List.mem_cons_self hpt hp
    rw [contains_iff] at hin hstart ⊢
    exact ⟨hstart.1, Nat.le_trans hstop hin.1⟩
  · have hstop := h.inside t (List.mem_append_right _ (List.mem_cons_of_mem st ht)) hpt
    have hstart := hpost t ht hp hpt
    rw [contains_iff] at hin hstop ⊢
    exact ⟨Nat.le_trans hin.2 hstart, hstop.2⟩

end Ast

namespace ScriptInput

variable {s : ScriptInput} {cst : Cst.Table} {root : Cst.Tree} {name : String}
  {statements : List Tree} {body ctor id x : NodeId} {d : DeclarationData} {f : FunctionData} {form : Callable}

def constructorFrame (s : ScriptInput) (f : FunctionData) (call rest : String) (depth : Nat) :
    String :=
  s.indent depth ++ "constructor" ++ f.paramsNode.elim "()" s.text ++ "\x7b\n" ++
    s.line (depth + 1) call ++ s.line (depth + 1) "this.__initialize()" ++ rest ++ "\n" ++
    s.line depth "\x7d" ++ "\n"

/-- What the script keeps of the body of a constructor. Without a call of the base constructor among
the statements a call is added, and the body is kept with its components converted. Otherwise it is
the first call as it is written, and the body behind the call. The statements before the one with
the call lie in the part that is left out, those behind it in the part that is kept. -/
inductive KeptBody (s : ScriptInput) (root : Tree) (ctor body : NodeId) (statements : List Tree) :
    String → String → Prop
  | whole {inner out : String} (none : ∀ x, ¬ s.ast.SuperCallOf root ctor x)
      (text : s.text body = "\x7b" ++ inner ++ "\x7d")
      (inside : ∀ t ∈ statements, t.isPresent → (s.ast.span body).inner.contains t.span)
      (kept : Edit.Patched (s.ast.span body).inner.start inner.toList
        ((s.ast.outermostBelow body).flatMap fun y => s.convert y 0) out.toList) :
      KeptBody s root ctor body statements "super()" out
  | behind {x : NodeId} {before rest out : String} {pre post : List Tree} {st : Tree}
      (first : IsLeast {y | s.ast.SuperCallOf root ctor y} x)
      (text : s.text body = "\x7b" ++ before ++ s.text x ++ rest ++ "\x7d")
      (split : statements = pre ++ st :: post)
      (holds : st.isPresent ∧ st.span.contains (s.ast.span x))
      (lost : ∀ t ∈ pre, t.isPresent →
        Span.contains ⟨(s.ast.span body).inner.start, (s.ast.span x).start⟩ t.span)
      (inside : ∀ t ∈ post, t.isPresent →
        Span.contains ⟨(s.ast.span x).stop, (s.ast.span body).inner.stop⟩ t.span)
      (kept : Edit.Patched (s.ast.span x).stop rest.toList
        (((s.ast.outermostBelow body).filter fun y =>
          (s.ast.span x).stop ≤ (s.ast.span y).start).flatMap fun y => s.convert y 0)
        out.toList) :
      KeptBody s root ctor body statements (s.text x) out

theorem constructorText_eq (hk : s.ast.kind? ctor = some (.callable form f))
    (hb : f.body = some body) (depth : Nat) :
    s.constructorText s.convert (some ctor) depth =
      match f.superCall with
      | some x => s.constructorFrame f (s.text x)
          (s.renderRange s.convert ⟨(s.ast.span x).stop, (s.ast.span body).inner.stop⟩
            (s.ast.children body) 0) depth
      | none => s.constructorFrame f "super()"
          (s.renderRange s.convert (s.ast.span body).inner (s.ast.children body) 0) depth := by
  rw [constructorText, Option.bind_some, hk, Option.bind_some]
  cases hf : f.superCall with
  | none => simp [constructorBody, constructorStart, constructorFrame, hf, hb, Span.inner,
      NodeKind.function?, String.append_assoc]
  | some x => simp [constructorBody, constructorStart, constructorFrame, hf, hb, Span.inner,
      NodeKind.function?, String.append_assoc]

section

variable (ht : cst.tree? = some root) (hn : cst.WellNested s.source)
  (hb : Ast.build root name = .ok s.ast)
  (hbody : s.ast.BracedBody root s.source ctor body statements)

include ht hn hb hbody

theorem keptBody_whole (hnone : (s.ast.superMark ctor).2 = none) :
    s.KeptBody root ctor body statements "super()"
      (s.renderRange s.convert (s.ast.span body).inner (s.ast.children body) 0) := by
  have h : s.ast.Laid s.source := Ast.build_laid ht hn hb
  have hlaid := Ast.block_laid ht hn hb hbody
  refine .whole (fun x hx => ?_) hlaid.text hlaid.inside ?_
  · have hcalls : {y | s.ast.SuperCallOf root ctor y}.Nonempty := ⟨x, hx⟩
    obtain ⟨z, hz⟩ := Ast.exists_isLeast hcalls
    rw [← Ast.build_superCall hb ctor z, hnone] at hz
    cases hz
  · have hp := renderRange_patched h hlaid.cuts body 0
    rw [List.filter_eq_self.mpr] at hp
    · rwa [flatMap_conversion h.sound fun y hy =>
        ((Ast.mem_outermostBelow h.sound.linked).mp hy).1]
    · intro e he
      obtain ⟨y, hy, rfl⟩ := List.mem_map.mp he
      obtain ⟨hr, hu, -⟩ := (Ast.mem_outermostBelow h.sound.linked).mp hy
      exact hlaid.contains (Ast.opened_of_isReplaced hr) hu

theorem keptBody_behind (hsome : (s.ast.superMark ctor).2 = some x) :
    s.KeptBody root ctor body statements (s.text x)
      (s.renderRange s.convert ⟨(s.ast.span x).stop, (s.ast.span body).inner.stop⟩
        (s.ast.children body) 0) := by
  have h : s.ast.Laid s.source := Ast.build_laid ht hn hb
  have hlaid := Ast.block_laid ht hn hb hbody
  have hfirst := (Ast.build_superCall hb ctor x).mp hsome
  obtain ⟨hmark, statement, block, hup, -, hup', hkind, hctor, -⟩ :=
    (Ast.markedIn_iff hb).mpr hfirst.1
  obtain rfl := hbody.only block hctor hkind
  have hopen := Ast.opened_of_marked hmark
  have hbelow : TransGen s.ast.Up x block := .head hup (.single hup')
  obtain ⟨hbehind, hslices⟩ := hlaid.cuts.around (h.cuts x hopen) (hlaid.contains hopen hbelow)
  obtain ⟨pre, st, post, hsplit, hp, hin, hlost, hkept⟩ := hlaid.around hopen hbelow
  have htext : s.text block = "\x7b" ++
      Span.slice ⟨(s.ast.span block).inner.start, (s.ast.span x).start⟩ s.source ++ s.text x ++
      Span.slice ⟨(s.ast.span x).stop, (s.ast.span block).inner.stop⟩ s.source ++ "\x7d" := by
    have hwhole : s.text block = _ := hlaid.text
    rw [hwhole, hslices]
    simp only [String.append_assoc]
    rfl
  refine .behind hfirst htext hsplit ⟨hp, hin⟩ hlost hkept ?_
  have hpatched := renderRange_patched h hbehind block 0
  have hreplaced {y : NodeId} (hy : y ∈ s.ast.outermostBelow block) :=
    (Ast.mem_outermostBelow h.sound.linked).mp hy
  have hfilter : (s.ast.outermostBelow block).filter ((fun e => Span.contains
      ⟨(s.ast.span x).stop, (s.ast.span block).inner.stop⟩ e.span) ∘ s.conversion 0) =
        (s.ast.outermostBelow block).filter fun y =>
          (s.ast.span x).stop ≤ (s.ast.span y).start := by
    refine List.filter_congr fun y hy => ?_
    obtain ⟨hr, hu, -⟩ := hreplaced hy
    have hin := hlaid.contains (Ast.opened_of_isReplaced hr) hu
    rw [Ast.contains_iff] at hin
    rw [Bool.eq_iff_iff, decide_eq_true_eq]
    exact Ast.contains_iff.trans (and_iff_left hin.2)
  rw [List.filter_map, hfilter] at hpatched
  rwa [flatMap_conversion h.sound fun y hy => (hreplaced (List.mem_filter.mp hy).1).1]

end

theorem superMark_callable (hk : s.ast.kind? ctor = some (.callable form f)) :
    (s.ast.superMark ctor).2 = f.superCall := by
  rw [Ast.superMark, hk]
  rfl

theorem classText_holds (s : ScriptInput) (id : NodeId) (d : DeclarationData) (depth : Nat) :
    ∃ head tail, s.classText s.convert id d depth =
      head ++ s.constructorText s.convert d.ctor (depth + 1) ++ tail := by
  refine ⟨s.indent depth ++ (if s.ast.parent? id = some Ast.rootId then "\nexport " else "") ++
    "class " ++ s.publicName (s.textOption d.name) ++ " extends " ++ s.baseName d ++ "\x7b\n\n",
    ?_⟩
  unfold classText
  simp only [String.append_assoc]
  exact ⟨_, rfl⟩

/-- The class of a declaration whose constructor has a body in braces: the constructor calls the
base constructor by the first such call that is written among its statements, or by one that is
added, and sets the object up. Then comes what stands behind the call, or the whole body, with
nothing lost and with its components converted. -/
theorem constructorText_keeps_behind {cst : Cst.Table} {source : String}
    (ha : cst.Acyclic) (hn : cst.WellNested source) (he : cst.ErrorFree) (name : String) :
    ∃ root ast, cst.tree? = some root ∧ Ast.build root name = .ok ast ∧
      ∀ s : ScriptInput, s.ast = ast → s.source = source →
        ∀ id d ctor form f body statements depth, ast.kind? id = some (.declaration d) →
          d.ctor = some ctor → ast.kind? ctor = some (.callable form f) → f.body = some body →
          ast.BracedBody root source ctor body statements →
          (∀ y ∈ ast.outermostBelow body, ∃ text, s.replacement? s.convert y 0 = some text ∧
            s.convert y 0 = [⟨ast.span y, text⟩]) ∧
          ∃ call rest, s.KeptBody root ctor body statements call rest ∧
            s.constructorText s.convert d.ctor (depth + 1) =
              s.constructorFrame f call rest (depth + 1) ∧
            ∃ head tail, s.replacement? s.convert id depth =
              some (head ++ s.constructorFrame f call rest (depth + 1) ++ tail) := by
  obtain ⟨root, ast, ht, hb⟩ := Ast.build_ok ha he name
  refine ⟨root, ast, ht, hb, ?_⟩
  rintro s rfl rfl id d ctor form f body statements depth hd hctor hf hbody hbraced
  have h : s.ast.Laid s.source := Ast.build_laid ht hn hb
  have hmark := superMark_callable hf
  refine ⟨fun y hy => convert_of_isReplaced h.sound
    ((Ast.mem_outermostBelow h.sound.linked).mp hy).1 0, ?_⟩
  suffices hkept : ∃ call rest, s.KeptBody root ctor body statements call rest ∧
      s.constructorText s.convert (some ctor) (depth + 1) =
        s.constructorFrame f call rest (depth + 1) by
    obtain ⟨call, rest, hkept, htext⟩ := hkept
    obtain ⟨head, tail, hclass⟩ := s.classText_holds id d depth
    rw [hctor, htext] at hclass
    refine ⟨call, rest, hkept, hctor ▸ htext, head, tail, ?_⟩
    rw [replacement?, hd]
    exact congrArg some hclass
  have htext := constructorText_eq hf hbody (depth + 1)
  cases hsuper : f.superCall with
  | none =>
    rw [hsuper] at hmark htext
    exact ⟨_, _, keptBody_whole ht hn hb hbraced hmark, htext⟩
  | some x =>
    rw [hsuper] at hmark htext
    exact ⟨_, _, keptBody_behind ht hn hb hbraced hmark, htext⟩

end ScriptInput

namespace Ast

open Cst (Sketch)

def statements? (source : String) (t : Tree) : Option (List Tree) :=
  let isToken (word : String) (t : Tree) : Bool :=
    t.slots.isEmpty && t.head?.map Cst.Head.kind == some word && t.text source == word
  match t.slots with
  | first :: rest => rest.getLast?.bind fun last =>
    if isToken "\x7b" first && isToken "\x7d" last && first.span.start == t.span.start &&
        last.span.stop == t.span.stop then
      some rest.dropLast
    else
      none
  | [] => none

theorem braced_of_statements? {source : String} {t : Tree} {statements : List Tree}
    (h : statements? source t = some statements) : t.Braced source statements := by
  unfold statements? at h
  dsimp only at h
  split at h
  · next first rest hslots =>
    obtain ⟨last, hlast, h⟩ := Option.bind_eq_some_iff.mp h
    split at h
    · next hparts =>
      cases h
      simp only [Bool.and_eq_true, List.isEmpty_iff, beq_iff_eq] at hparts
      obtain ⟨⟨⟨⟨⟨hs, hk⟩, ht⟩, ⟨hs', hk'⟩, ht'⟩, hstart⟩, hstop⟩ := hparts
      refine ⟨first, last, ?_, ⟨hs, hk, ht⟩, ⟨hs', hk', ht'⟩, hstart, hstop⟩
      rw [hslots, List.dropLast_append_getLast? last hlast]
    · cases h
  · cases h

def frontedSource : String :=
  "component B \x7b constructor(a)\x7b let k = a\n super(k)\n this.k = k \x7d \x7d"

def fronted : Cst.Table :=
  let statement (e : Sketch) := Sketch.node "expression_statement" [e]
  let declarator := Sketch.node "variable_declarator" [wordSketch "k", .token "=", wordSketch "a"]
  let call := Sketch.node "call_expression" [.leaf "super" "super" true,
    .node "arguments" [.token "(", wordSketch "k", .token ")"]]
  let assignment := Sketch.node "assignment_expression"
    [memberSketch (.leaf "this" "this" true) "k", .token "=", wordSketch "k"]
  let ctor := Sketch.node "constructor_definition" [.token "constructor",
    .node "formal_parameters" [.token "(", wordSketch "a", .token ")"],
    .node "statement_block" [.token "\x7b", .node "lexical_declaration" [.token "let", declarator],
      statement call, statement assignment, .token "\x7d"]]
  ((declarationSketch "B" [ctor]).layout frontedSource).toOption.getD {}

theorem frontedSource_ascii : (frontedSource.toList.all fun c => c.utf8Size == 1) ∧
    frontedSource.toList.length = 65 := by
  decide

theorem fronted_entries : ∀ e ∈ fronted.entries,
    ((e.head.span.start ≤ e.head.span.stop ∧ e.head.span.stop ≤ 65) ∧
      (∀ c ∈ fronted.childrenOf e, e.head.span.contains c.head.span) ∧
      (fronted.childrenOf e).IsChain fun a b => a.head.span.stop ≤ b.head.span.start) ∧
      Cst.Kind.ofName e.head.kind ≠ .error := by
  decide +kernel

theorem fronted_wellNested : fronted.WellNested frontedSource :=
  Cst.Table.wellNested_of_entries frontedSource_ascii.1 fun e he =>
    frontedSource_ascii.2 ▸ (fronted_entries e he).1

theorem fronted_acyclic : fronted.Acyclic :=
  Cst.Table.acyclic_of_children_lt (by decide +kernel)

theorem fronted_errorFree : fronted.ErrorFree :=
  Cst.Table.errorFree_of_entries fun e he => (fronted_entries e he).2

/-- Node 1 is the declaration and node 4 its constructor, node 7 is the body, node 8 the statement
before the call and node 13 the call. -/
theorem fronted_built {root : Tree} {ast : Ast} (ht : fronted.tree? = some root)
    (hb : build root "App" = .ok ast) :
    let s : ScriptInput := { ast, source := frontedSource, unitName := "App" }
    ast.kind? 1 = some (.declaration { name := some 2, body := some 3, ctor := some 4 }) ∧
    ast.kind? 4 = some (.callable .ctor
      { params := [{ name := 6 }], paramsNode := some 5, body := some 7, superCall := some 13 }) ∧
    (∀ b < ast.size, ast.parent? b = some 4 → ast.kind? b = some .block → b = 7) ∧
    ast.parent? 8 = some 7 ∧ s.text 8 = "let k = a" ∧
    s.constructorText s.convert (some 4) 1 = "    constructor(a)\x7b\n        super(k)\n" ++
      "        this.__initialize()\n\n this.k = k \n    \x7d\n\n" := by
  apply of_build_of_decide ht hb
  decide +kernel

theorem fronted_bracedBody {root : Tree} {ast : Ast} (ht : fronted.tree? = some root)
    (hb : build root "App" = .ok ast) :
    ∃ statements, statements.length = 3 ∧
      ast.BracedBody root frontedSource 4 7 statements := by
  have hany : fronted.tree?.all fun root =>
      (Moment.list .plain rootId root.slots (ofSpan root.span)).any fun m =>
        m.ast.size == 7 && m.opens?.isSome &&
          (statements? frontedSource m.tree).any fun ts => ts.length == 3 := by
    decide +kernel
  rw [ht, Option.all_some] at hany
  obtain ⟨m, hm, hparts⟩ := List.any_eq_true.mp hany
  simp only [Bool.and_eq_true, beq_iff_eq, Option.any_eq_true] at hparts
  obtain ⟨⟨hsize, hopens⟩, statements, hstatements, hlength⟩ := hparts
  obtain ⟨-, -, honly, -⟩ := fronted_built ht hb
  refine ⟨statements, hlength, fun b hb hk => honly b (lt_size_of_up hb) hb hk, m,
    Moment.mem_list.mp hm, hsize, hopens, braced_of_statements? hstatements⟩

end Ast

namespace ScriptInput

open Ast

theorem fronted_kept :
    fronted.Acyclic ∧ fronted.WellNested frontedSource ∧ fronted.ErrorFree ∧
    ∃ (root : Tree) (s : ScriptInput) (d : DeclarationData) (f : FunctionData)
      (statements : List Tree) (call rest : String), fronted.tree? = some root ∧
      build root "App" = .ok s.ast ∧ s.source = frontedSource ∧ s.ast.kind? 1 = some (.declaration d) ∧ d.ctor = some 4 ∧
      s.ast.kind? 4 = some (.callable .ctor f) ∧ f.body = some 7 ∧ statements.length = 3 ∧
      s.ast.BracedBody root frontedSource 4 7 statements ∧
      s.KeptBody root 4 7 statements call rest ∧
      s.constructorText s.convert d.ctor 1 = s.constructorFrame f call rest 1 := by
  obtain ⟨root, ast, ht, hb, h⟩ :=
    constructorText_keeps_behind fronted_acyclic fronted_wellNested fronted_errorFree "App"
  obtain ⟨hd, hf, -⟩ := fronted_built ht hb
  obtain ⟨statements, hlength, hbraced⟩ := fronted_bracedBody ht hb
  obtain ⟨-, call, rest, hkept, htext, -⟩ :=
    h { ast, source := frontedSource, unitName := "App" } rfl rfl 1 _ 4 _ _ 7 statements 0
      hd rfl hf rfl hbraced
  exact ⟨fronted_acyclic, fronted_wellNested, fronted_errorFree, root, _, _, _, statements, call,
    rest, ht, hb, rfl, hd, rfl, hf, rfl, hlength, hbraced, hkept, htext⟩

/-- The declaration before the call is a statement of the constructor, and is not in its script. -/
theorem fronted_loses_statement :
    fronted.Acyclic ∧ fronted.WellNested frontedSource ∧ fronted.ErrorFree ∧
    ∃ (root : Tree) (s : ScriptInput) (statements : List Tree), fronted.tree? = some root ∧
      build root "App" = .ok s.ast ∧ s.source = frontedSource ∧
      s.ast.BracedBody root frontedSource 4 7 statements ∧
      s.ast.Up 8 7 ∧ s.text 8 = "let k = a" ∧
      s.constructorText s.convert (some 4) 1 = "    constructor(a)\x7b\n        super(k)\n" ++
        "        this.__initialize()\n\n this.k = k \n    \x7d\n\n" ∧
      ¬ (s.text 8).toList <:+: (s.constructorText s.convert (some 4) 1).toList := by
  refine ⟨fronted_acyclic, fronted_wellNested, fronted_errorFree, ?_⟩
  obtain ⟨root, ast, ht, hb⟩ := build_ok fronted_acyclic fronted_errorFree "App"
  obtain ⟨-, -, -, hup, htext, hscript⟩ := fronted_built ht hb
  obtain ⟨statements, -, hbraced⟩ := fronted_bracedBody ht hb
  refine ⟨root, { ast, source := frontedSource, unitName := "App" }, statements, ht, hb, rfl,
    hbraced, hup, htext, hscript, ?_⟩
  rw [htext, hscript]
  decide +kernel

end ScriptInput

end ComponentCompiler
