import ComponentCompiler.Edit
import ComponentCompiler.Proofs.Cst.Nesting
import Mathlib.Algebra.GroupWithZero.Nat

namespace ComponentCompiler

namespace Text

theorem byteLength_eq_zero {cs : List Char} (h : byteLength cs = 0) : cs = [] := by
  cases cs with
  | nil => rfl
  | cons c cs =>
    have hc := Char.utf8Size_pos c
    simp only [byteLength] at h
    omega

/-- Of two ways to cut a text, the later cut is the earlier one and some more. -/
theorem append_of_byteLength_le {before behind pre rest : List Char}
    (h : pre ++ rest = before ++ behind) (hle : byteLength pre ≤ byteLength before) :
    ∃ gap, before = pre ++ gap ∧ rest = gap ++ behind := by
  rcases List.append_eq_append_iff.mp h with ⟨gap, hb, hr⟩ | ⟨gap, hp, hb⟩
  · exact ⟨gap, hb, hr⟩
  · have hl := congrArg byteLength hp
    rw [byteLength_append] at hl
    have hnil : gap = [] := byteLength_eq_zero (by omega)
    subst hnil
    exact ⟨[], by simpa using hp.symm, by simpa using hb.symm⟩

theorem sliceBytes_append {pre mid rest : List Char} {source : String}
    (h : source.toList = pre ++ (mid ++ rest)) :
    sliceBytes (byteLength pre) (byteLength pre + byteLength mid) source = String.ofList mid := by
  have hsize : byteLength source.toList = byteLength pre + (byteLength mid + byteLength rest) := by
    rw [h, byteLength_append, byteLength_append]
  unfold sliceBytes
  dsimp only
  rw [hsize, Nat.min_eq_left (by omega), Nat.min_eq_left (by omega), Nat.max_eq_left (by omega),
    Nat.add_sub_cancel_left, h, dropBytes_append, Option.bind_some, takeBytes_append]

end Text

theorem Span.Cuts.parts {source : String} {s : Span} (h : s.Cuts source) : ∃ before behind,
    source.toList = before ++ ((s.slice source).toList ++ behind) ∧
      Text.byteLength before = s.start ∧ s.start + Text.byteSize (s.slice source) = s.stop := by
  obtain ⟨before, tail, hb, hbl⟩ := h.start
  obtain ⟨upto, behind, hu, hul⟩ := h.stop
  have hle := h.ordered
  obtain ⟨mid, rfl, rfl⟩ := Text.append_of_byteLength_le (hb.symm.trans hu) (by omega)
  rw [Text.byteLength_append] at hul
  have hslice := Text.sliceBytes_append hb
  rw [hbl, show s.start + Text.byteLength mid = s.stop by omega] at hslice
  refine ⟨before, behind, ?_, hbl, ?_⟩
  · rw [slice, hslice, String.toList_ofList, hb]
  · rw [slice, hslice, Text.byteSize, String.toList_ofList]
    omega

theorem Span.slice_append {source : String} {a b : Span} (ha : a.Cuts source) (hb : b.Cuts source)
    (hab : a.stop = b.start) :
    Span.slice ⟨a.start, b.stop⟩ source = a.slice source ++ b.slice source := by
  obtain ⟨before, behind, hs, hstart, hmid⟩ := ha.parts
  obtain ⟨upto, rest, hs', hupto, hstop⟩ := hb.parts
  rw [Text.byteSize] at hmid hstop
  rw [hs, ← List.append_assoc] at hs'
  -- both ways to the end of the first range stop at the same character
  obtain ⟨gap, hgap, hrest⟩ := Text.append_of_byteLength_le hs' (by
    rw [Text.byteLength_append]
    omega)
  have hlength := congrArg Text.byteLength hgap
  rw [Text.byteLength_append, Text.byteLength_append] at hlength
  have hnil : gap = [] := Text.byteLength_eq_zero (by omega)
  rw [hrest, hnil, List.nil_append, ← List.append_assoc (a.slice source).toList] at hs
  have hslice := Text.sliceBytes_append hs
  rw [Text.byteLength_append, ← Nat.add_assoc, hstart, hmid, hab, hstop] at hslice
  rw [slice, hslice, String.ofList_append, String.ofList_toList, String.ofList_toList]

def Span.Apart (a b : Span) : Prop :=
  a.stop ≤ b.start ∨ b.stop ≤ a.start

namespace Edit

open Text

/-- The edits turn a text into another one: what lies before, between and behind them is kept, and
the bytes of each edit are replaced by its text. The text starts at byte `n`. -/
inductive Patched : Nat → List Char → List Edit → List Char → Prop
  | keep {n : Nat} {rest : List Char} : Patched n rest [] rest
  | edit {n : Nat} {gap old rest out : List Char} {e : Edit} {edits : List Edit}
      (before : n + byteLength gap = e.span.start)
      (replaced : e.span.start + byteLength old = e.span.stop)
      (behind : Patched e.span.stop rest edits out) :
      Patched n (gap ++ (old ++ rest)) (e :: edits) (gap ++ (e.text.toList ++ out))

def Ordered (edits : List Edit) : Prop :=
  edits.Pairwise fun a b => a.span.stop ≤ b.span.start

variable {source : String} {edits : List Edit}

/-- Ordered edits of a part of the source are applied, each in its place. -/
theorem spliceFrom_patched {pre rest tail : List Char} {stop : Nat}
    (hs : source.toList = pre ++ (rest ++ tail)) (hstop : byteLength pre + byteLength rest = stop)
    (ho : Ordered edits) (hc : ∀ e ∈ edits, e.span.Cuts source ∧
      byteLength pre ≤ e.span.start ∧ e.span.stop ≤ stop) :
    Patched (byteLength pre) rest edits
      (spliceFrom source stop (byteLength pre) edits).toList := by
  induction edits generalizing pre rest with
  | nil =>
    have hslice := sliceBytes_append hs
    unfold spliceFrom Span.slice
    rw [← hstop, hslice, String.toList_ofList]
    exact .keep
  | cons e edits ih =>
    obtain ⟨hbehind, ho⟩ := List.pairwise_cons.mp ho
    obtain ⟨hcut, hle, hin⟩ := hc e List.mem_cons_self
    obtain ⟨before, more, hb, hbl⟩ := hcut.start
    obtain ⟨upto, behind, hu, hul⟩ := hcut.stop
    have hfw := hcut.ordered
    obtain ⟨gap, rfl, hgr⟩ := append_of_byteLength_le (hs.symm.trans hb) (by omega)
    obtain ⟨old, rfl, rfl⟩ := append_of_byteLength_le (hb.symm.trans hu) (by omega)
    rw [byteLength_append] at hbl
    rw [byteLength_append, byteLength_append, hbl] at hul
    rw [← List.append_assoc] at hgr
    obtain ⟨rest, rfl, rfl⟩ := append_of_byteLength_le hgr.symm (by
      rw [byteLength_append]
      omega)
    have hgap : sliceBytes (byteLength pre) e.span.start source = String.ofList gap := by
      have hs' : source.toList = pre ++ (gap ++ (old ++ rest ++ tail)) := by simpa using hs
      rw [← hbl, sliceBytes_append hs']
    rw [byteLength_append, byteLength_append] at hstop
    have hrest := ih hu (by simp only [byteLength_append]; omega) ho fun d hd => by
      obtain ⟨hd1, -, hd2⟩ := hc d (List.mem_cons_of_mem e hd)
      refine ⟨hd1, ?_, hd2⟩
      rw [byteLength_append, byteLength_append, hbl, hul]
      exact hbehind d hd
    rw [byteLength_append, byteLength_append, hbl, hul] at hrest
    unfold spliceFrom Span.slice
    rw [if_neg (Nat.not_lt.mpr hle), hgap, String.toList_append, String.toList_append,
      String.toList_ofList, List.append_assoc, List.append_assoc]
    exact .edit hbl hul hrest

theorem le_iff {a b : Edit} : le a b ↔ a.span.start < b.span.start ∨
    a.span.start = b.span.start ∧ a.span.stop ≤ b.span.stop := by
  simp [le]

theorem le_trans (a b c : Edit) (hab : le a b) (hbc : le b c) : le a c := by
  rw [le_iff] at hab hbc ⊢
  omega

theorem le_total (a b : Edit) : le a b || le b a := by
  rw [Bool.or_eq_true, le_iff, le_iff]
  omega

theorem pairwise_sort (edits : List Edit) : (sort edits).Pairwise fun a b => le a b :=
  List.pairwise_mergeSort le_trans le_total edits

theorem sort_of_pairwise (h : edits.Pairwise fun a b => le a b) : sort edits = edits :=
  List.mergeSort_of_pairwise h

theorem ordered_of_apart (hle : edits.Pairwise fun a b => le a b)
    (ha : edits.Pairwise fun a b => a.span.Apart b.span)
    (hf : ∀ e ∈ edits, e.span.start ≤ e.span.stop) : Ordered edits := by
  refine (hle.and ha).imp_of_mem fun {a b} hma hmb hab => ?_
  obtain ⟨hle, hap⟩ := hab
  have hfa := hf a hma
  have hfb := hf b hmb
  rw [le_iff] at hle
  rcases hap with hap | hap
  · exact hap
  · omega

theorem check_of_ordered (ho : Ordered edits) : check edits = .ok () := by
  induction edits with
  | nil => rfl
  | cons first rest ih =>
    cases rest with
    | nil => rfl
    | cons second rest =>
      obtain ⟨hb, hr⟩ := List.pairwise_cons.mp ho
      have hn := Nat.not_lt.mpr (hb second List.mem_cons_self)
      rw [check, if_neg hn]
      exact ih hr

theorem splice_patched {range : Span} (hr : range.Cuts source)
    (hle : edits.Pairwise fun a b => le a b) (ho : Ordered edits)
    (hc : ∀ e ∈ edits, e.span.Cuts source) :
    Patched range.start (range.slice source).toList (edits.filter fun e => range.contains e.span)
      (splice source range edits).toList := by
  obtain ⟨before, behind, hs, hstart, hstop⟩ := hr.parts
  rw [splice, sort_of_pairwise (hle.filter _), ← hstart]
  refine spliceFrom_patched hs (hstart ▸ hstop) (List.Pairwise.filter _ ho) fun e he => ?_
  obtain ⟨he, hin⟩ := List.mem_filter.mp he
  refine ⟨hc e he, ?_⟩
  rw [hstart]
  simpa [Span.contains] using hin

theorem cuts_source (source : String) : Span.Cuts source ⟨0, byteSize source⟩ :=
  ⟨Nat.zero_le _, Nat.le_refl _, ⟨[], _, rfl, rfl⟩, ⟨_, [], (List.append_nil _).symm, rfl⟩⟩

theorem slice_source (source : String) : Span.slice ⟨0, byteSize source⟩ source = source := by
  have hs : source.toList = [] ++ (source.toList ++ []) := by simp
  have h := sliceBytes_append hs
  rw [byteLength, Nat.zero_add, String.ofList_toList] at h
  exact h

theorem apply_patched (hle : edits.Pairwise fun a b => le a b) (ho : Ordered edits)
    (hc : ∀ e ∈ edits, e.span.Cuts source) :
    ∃ out, apply source edits = .ok out ∧ Patched 0 source.toList edits out.toList := by
  have hp := splice_patched (cuts_source source) hle ho hc
  have hall : ∀ e ∈ edits, Span.contains ⟨0, byteSize source⟩ e.span := fun e he => by
    simp [Span.contains, (hc e he).inside]
  rw [slice_source, List.filter_eq_self.mpr hall] at hp
  refine ⟨_, ?_, hp⟩
  unfold apply
  dsimp only
  rw [sort_of_pairwise hle, check_of_ordered ho]
  rfl

theorem apply_nil (source : String) : apply source [] = .ok source := by
  obtain ⟨out, hout, hp⟩ : ∃ out, apply source [] = .ok out ∧
      Patched 0 source.toList [] out.toList := apply_patched .nil .nil nofun
  rw [hout]
  have hsame : source.toList = out.toList := by
    generalize source.toList = old, out.toList = new at hp
    cases hp with
    | keep => rfl
  rw [String.toList_inj.mp hsame]

theorem Patched.byteLength_add {n : Nat} {old new : List Char} (h : Patched n old edits new) :
    byteLength new + (edits.map (·.span.byteLength)).sum =
      byteLength old + (edits.map (byteSize ·.text)).sum := by
  induction h with
  | keep => rfl
  | edit before replaced behind ih =>
    simp only [List.map_cons, List.sum_cons, byteLength_append, byteSize, Span.byteLength] at ih ⊢
    omega

/-- The check passes edits each of which starts behind the one before it, and otherwise reports the
first two neighbours for which this fails. -/
theorem check_cases (edits : List Edit) :
    (check edits = .ok () ∧ edits.IsChain fun a b => a.span.stop ≤ b.span.start) ∨
    ∃ before first second rest, edits = before ++ first :: second :: rest ∧
      (before ++ [first]).IsChain (fun a b => a.span.stop ≤ b.span.start) ∧
      second.span.start < first.span.stop ∧
      check edits = .error (.overlappingEdits first.span second.span) := by
  fun_induction check edits with
  | case1 first second rest hlt => exact .inr ⟨[], first, second, rest, rfl, by simp, hlt, rfl⟩
  | case2 first second rest hlt ih =>
    have hle : first.span.stop ≤ second.span.start := Nat.not_lt.mp hlt
    rcases ih with ⟨hok, hchain⟩ | ⟨before, a, b, more, heq, hchain, hover, herr⟩
    · exact .inl ⟨hok, List.isChain_cons_cons.mpr ⟨hle, hchain⟩⟩
    · refine .inr ⟨first :: before, a, b, more, by rw [heq]; rfl, ?_, hover, herr⟩
      cases before with
      | nil =>
        cases heq
        simpa using hle
      | cons c before =>
        cases heq
        exact List.isChain_cons_cons.mpr ⟨hle, hchain⟩
  | case3 edits hne =>
    refine .inl ⟨rfl, ?_⟩
    match edits, hne with
    | [], _ => exact .nil
    | [e], _ => exact .singleton e
    | a :: b :: rest, hne => exact absurd rfl (hne a b rest)

/-- Among sorted edits it is enough to look at neighbours, as no edit starts before the one that
follows. -/
theorem ordered_iff_isChain (hle : edits.Pairwise fun a b => le a b) :
    Ordered edits ↔ edits.IsChain fun a b => a.span.stop ≤ b.span.start := by
  refine ⟨List.Pairwise.isChain, fun hchain => ?_⟩
  induction edits with
  | nil => exact .nil
  | cons first rest ih =>
    obtain ⟨-, hrest⟩ := List.pairwise_cons.mp hle
    refine List.pairwise_cons.mpr ⟨fun e he => ?_, ih hrest hchain.tail⟩
    cases rest with
    | nil => simp at he
    | cons second rest =>
      have hnext : first.span.stop ≤ second.span.start := (List.isChain_cons_cons.mp hchain).1
      rcases List.mem_cons.mp he with rfl | he
      · exact hnext
      · have hstart := le_iff.mp ((List.pairwise_cons.mp hrest).1 e he)
        omega

theorem span_eq_of_le {a b : Edit} (hab : le a b) (hba : le b a) : a.span = b.span := by
  rw [le_iff] at hab hba
  obtain ⟨⟨_, _⟩, _⟩ := a
  obtain ⟨⟨_, _⟩, _⟩ := b
  simp only at hab hba
  rw [Span.mk.injEq]
  omega

theorem filter_sort (edits : List Edit) (range : Span) :
    (sort edits).filter (·.span = range) = edits.filter (·.span = range) := by
  have hspan : ∀ e ∈ edits.filter (·.span = range), e.span = range := fun e he => by
    simpa using (List.mem_filter.mp he).2
  have hsorted : (edits.filter (·.span = range)).Pairwise fun a b => le a b := by
    refine List.pairwise_of_forall_mem_list fun a ha b hb => ?_
    simp [le, hspan a ha, hspan b hb]
  have hsub : (edits.filter (·.span = range)).Sublist (sort edits) :=
    List.sublist_mergeSort le_trans le_total hsorted List.filter_sublist
  have hsub' := hsub.filter (·.span = range)
  simp only [List.filter_filter, Bool.and_self] at hsub'
  exact (hsub'.eq_of_length ((List.mergeSort_perm edits le).filter _).length_eq.symm).symm

theorem le_of_mem_cons {a b : Edit} (h : (a :: edits).Pairwise fun a b => le a b)
    (hb : b ∈ a :: edits) : le a b := by
  rcases List.mem_cons.mp hb with rfl | hb
  · simp [le]
  · exact (List.pairwise_cons.mp h).1 b hb

/-- Sorted edits are determined by those of each range. -/
theorem eq_of_filter_eq {edits' : List Edit} (hle : edits.Pairwise fun a b => le a b)
    (hle' : edits'.Pairwise fun a b => le a b)
    (h : ∀ range, edits.filter (·.span = range) = edits'.filter (·.span = range)) :
    edits = edits' := by
  have hmem : ∀ {as bs : List Edit} {e : Edit},
      (∀ range, as.filter (·.span = range) = bs.filter (·.span = range)) → e ∈ as → e ∈ bs := by
    intro as bs e h he
    have he' : e ∈ as.filter (·.span = e.span) := List.mem_filter.mpr ⟨he, by simp⟩
    rw [h] at he'
    exact List.mem_of_mem_filter he'
  induction edits generalizing edits' with
  | nil =>
    have hnone : ∀ e, e ∉ edits' := fun e he => by simpa using hmem (h · |>.symm) he
    exact (List.eq_nil_iff_forall_not_mem.mpr hnone).symm
  | cons a rest ih =>
    cases edits' with
    | nil => simpa using hmem h (List.mem_cons_self (a := a))
    | cons b rest' =>
      -- each of the two heads is among the other edits, so neither can stand behind the other
      have hab : le a b := le_of_mem_cons hle (hmem (h · |>.symm) List.mem_cons_self)
      have hba : le b a := le_of_mem_cons hle' (hmem h List.mem_cons_self)
      have hhead := h a.span
      rw [List.filter_cons_of_pos (by simp), List.filter_cons_of_pos
        (by simp [span_eq_of_le hab hba])] at hhead
      obtain ⟨rfl, -⟩ := List.cons.inj hhead
      refine congrArg (a :: ·) (ih hle.tail hle'.tail fun range => ?_)
      have hrange := h range
      rw [List.filter_cons, List.filter_cons] at hrange
      split at hrange
      · exact (List.cons.inj hrange).2
      · exact hrange

theorem sort_eq_sort {edits' : List Edit}
    (h : ∀ range, edits.filter (·.span = range) = edits'.filter (·.span = range)) :
    sort edits = sort edits' :=
  eq_of_filter_eq (pairwise_sort edits) (pairwise_sort edits') fun range => by
    rw [filter_sort, filter_sort, h range]

theorem apply_sort (source : String) (edits : List Edit) :
    apply source (sort edits) = apply source edits := by
  rw [apply, apply, sort_of_pairwise (pairwise_sort edits)]

theorem apply_of_check_error {e : CompileError} (h : check (sort edits) = .error e) :
    apply source edits = .error e := by
  rw [apply, h]
  rfl

/-- Edits are applied all at once. The sorted edits pass the check exactly if each starts behind all
before it; otherwise the first two neighbours that overlap are reported. Those that pass it are put
in their places, in sorted order, and all other bytes are kept. Only the order of edits of the same
range matters. -/
theorem apply_edits (source : String) (edits : List Edit) :
    (sort edits).Perm edits ∧ (sort edits).Pairwise (fun a b => le a b) ∧
    (check (sort edits) = .ok () ↔ Ordered (sort edits)) ∧
    (¬ Ordered (sort edits) → ∃ before first second rest,
      sort edits = before ++ first :: second :: rest ∧
      (before ++ [first]).IsChain (fun a b => a.span.stop ≤ b.span.start) ∧
      second.span.start < first.span.stop ∧
      apply source edits = .error (.overlappingEdits first.span second.span)) ∧
    (check (sort edits) = .ok () → (∀ e ∈ edits, e.span.Cuts source) →
      ∃ out, apply source edits = .ok out ∧ Patched 0 source.toList (sort edits) out.toList ∧
        byteSize out + (edits.map (·.span.byteLength)).sum =
          byteSize source + (edits.map (byteSize ·.text)).sum) ∧
    ∀ edits', edits'.Perm edits →
      (∀ range, edits'.filter (·.span = range) = edits.filter (·.span = range)) →
      apply source edits' = apply source edits := by
  have hperm : (sort edits).Perm edits := List.mergeSort_perm edits le
  have hiff := ordered_iff_isChain (pairwise_sort edits)
  have hcheck : check (sort edits) = .ok () ↔ Ordered (sort edits) := by
    refine ⟨fun hok => hiff.mpr ?_, check_of_ordered⟩
    rcases check_cases (sort edits) with ⟨-, hchain⟩ | ⟨_, _, _, _, -, -, -, herr⟩
    · exact hchain
    · rw [hok] at herr
      cases herr
  refine ⟨hperm, pairwise_sort edits, hcheck, fun hno => ?_, fun hok hcuts => ?_,
    fun edits' _ hsame => ?_⟩
  · rcases check_cases (sort edits) with ⟨hok, -⟩ | ⟨before, first, second, rest, h, hc, hlt, herr⟩
    · exact absurd (hcheck.mp hok) hno
    · exact ⟨before, first, second, rest, h, hc, hlt, apply_of_check_error herr⟩
  · obtain ⟨out, hout, hp⟩ := apply_patched (pairwise_sort edits) (hcheck.mp hok) fun e he =>
      hcuts e (hperm.mem_iff.mp he)
    have hsize := hp.byteLength_add
    rw [(hperm.map _).sum_nat, (hperm.map _).sum_nat] at hsize
    exact ⟨out, apply_sort source edits ▸ hout, hp, hsize⟩
  · rw [apply, apply, sort_eq_sort hsame]

theorem apply_edits_wide : ∃ out,
    apply "äbc" [⟨⟨2, 3⟩, "X"⟩, ⟨⟨2, 2⟩, "1"⟩, ⟨⟨2, 2⟩, "2"⟩] = .ok out ∧
      Patched 0 "äbc".toList [⟨⟨2, 2⟩, "1"⟩, ⟨⟨2, 2⟩, "2"⟩, ⟨⟨2, 3⟩, "X"⟩] out.toList := by
  obtain ⟨hperm, hle, hcheck, -, hpatched, -⟩ :=
    apply_edits "äbc" [⟨⟨2, 3⟩, "X"⟩, ⟨⟨2, 2⟩, "1"⟩, ⟨⟨2, 2⟩, "2"⟩]
  have hsort : sort [⟨⟨2, 3⟩, "X"⟩, ⟨⟨2, 2⟩, "1"⟩, ⟨⟨2, 2⟩, "2"⟩] =
      [⟨⟨2, 2⟩, "1"⟩, ⟨⟨2, 2⟩, "2"⟩, ⟨⟨2, 3⟩, "X"⟩] := by
    simp [sort, List.mergeSort, List.MergeSort.Internal.splitInTwo, le]
  rw [hsort] at hpatched
  have hstart : IsBoundary "äbc" 2 := ⟨['ä'], ['b', 'c'], rfl, by decide⟩
  have hstop : IsBoundary "äbc" 3 := ⟨['ä', 'b'], ['c'], rfl, by decide⟩
  have hsize : byteSize "äbc" = 4 := by decide +kernel
  obtain ⟨out, hout, hp, -⟩ := hpatched (by decide) fun e he => by
    simp only [List.mem_cons, List.not_mem_nil, or_false] at he
    rcases he with rfl | rfl | rfl
    · exact ⟨by decide, by rw [hsize]; decide, hstart, hstop⟩
    · exact ⟨by decide, by rw [hsize]; decide, hstart, hstart⟩
    · exact ⟨by decide, by rw [hsize]; decide, hstart, hstart⟩
  exact ⟨out, hout, hp⟩

end Edit

end ComponentCompiler
