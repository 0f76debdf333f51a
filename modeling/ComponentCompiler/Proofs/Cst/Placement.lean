import ComponentCompiler.Proofs.Cst.TokenSearch

namespace ComponentCompiler.Cst

open Text

variable {source text : String} {cursor start stop first n : Nat}

theorem le_byteSize (hb : IsBoundary source n) : n ≤ byteSize source := by
  obtain ⟨before, behind, hs, rfl⟩ := hb
  rw [byteSize, hs, byteLength_append]
  exact Nat.le_add_right ..

theorem append_of_findToken (hb : IsBoundary source cursor)
    (h : findToken source cursor text = some start) : cursor ≤ start ∧
      ∃ pre post, source.toList = pre ++ (text.toList ++ post) ∧ byteLength pre = start := by
  have htried := ((findToken_eq_some_iff hb).mp h).1
  obtain ⟨hle, hoccurs⟩ := htried.occursAt
  refine ⟨hle, ?_⟩
  by_cases hne : text.toList = []
  · -- The empty token is found at the cursor.
    obtain ⟨before, behind, hs, rfl⟩ := hb
    have hhere : OccursAt source text (byteLength before) :=
      (occursAt_iff hs).mpr (hne ▸ List.nil_prefix)
    obtain ⟨k, hk, rfl | ⟨hrefused, -⟩⟩ := tried_iff.mp htried
    · obtain rfl := (nextAt_iff_of_occursAt hhere).mp hk
      exact ⟨before, behind, by rw [hne, hs]; rfl, rfl⟩
    · exact absurd (freeAt_of_empty hne hk.1.2) hrefused
  · exact hoccurs.append hne

theorem cuts_of_findToken (hb : IsBoundary source cursor)
    (h : findToken source cursor text = some start) :
    cursor ≤ start ∧ Span.Cuts source ⟨start, start + byteSize text⟩ ∧
      Span.slice ⟨start, start + byteSize text⟩ source = text := by
  obtain ⟨hle, pre, post, hs, rfl⟩ := append_of_findToken hb h
  have hsize := congrArg byteLength hs
  rw [byteLength_append, byteLength_append] at hsize
  refine ⟨hle, ⟨Nat.le_add_right .., ?_, ⟨_, _, hs, rfl⟩, ⟨pre ++ text.toList, post, ?_, ?_⟩⟩, ?_⟩
  · simp only [byteSize]
    omega
  · rw [hs, List.append_assoc]
  · rw [byteLength_append, byteSize]
  · rw [Span.slice, byteSize, sliceBytes_append hs, String.ofList_toList]

namespace Sketch

def kind : Sketch → String
  | leaf kind _ _ => kind
  | node kind _ => kind

def named : Sketch → Bool
  | leaf _ _ named => named
  | node _ _ => true

def parts : Sketch → List Sketch
  | leaf _ _ _ => []
  | node _ parts => parts

def isLeaf : Sketch → Bool
  | leaf _ _ _ => true
  | node _ _ => false

mutual

def postorder : Sketch → List Sketch
  | leaf kind text named => [leaf kind text named]
  | node kind parts => postorderAll parts ++ [node kind parts]

def postorderAll : List Sketch → List Sketch
  | [] => []
  | s :: rest => postorder s ++ postorderAll rest

end

def places (first : Nat) : List Sketch → List Nat
  | [] => []
  | s :: rest => (first + s.postorder.length - 1) :: places (first + s.postorder.length) rest

end Sketch

def cover (cursor : Nat) (entries : List Entry) : Span :=
  ⟨entries.head?.elim cursor (·.head.span.start), entries.getLast?.elim cursor (·.head.span.stop)⟩

def leafEntry (source kind text : String) (named : Bool) (start : Nat) : Entry :=
  ⟨{ kind, span := ⟨start, start + byteSize text⟩, point := pointAt source start, named }, []⟩

def nodeEntry (source kind : String) (below : List (Nat × Sketch × Entry)) (cursor : Nat) : Entry :=
  let span := cover cursor (below.map (·.2.2))
  ⟨{ kind, span, point := pointAt source span.start }, below.map (·.1)⟩

/-- Placing `parts` from `cursor` on, one behind another, leaves the cursor at `stop`. The new
entries stand from place `first` on; `shown` gives them with the sketches they are of, and `tops`
has those of `parts` themselves with their places. -/
inductive Placed (source : String) : (parts : List Sketch) → (cursor first : Nat) →
    (shown : List (Sketch × Entry)) → (tops : List (Nat × Sketch × Entry)) → (stop : Nat) → Prop
  | nil {cursor first : Nat} : Placed source [] cursor first [] [] cursor
  | leaf {kind text : String} {named : Bool} {rest : List Sketch} {cursor first start stop : Nat}
      {shown : List (Sketch × Entry)} {tops : List (Nat × Sketch × Entry)}
      (found : findToken source cursor text = some start)
      (behind : Placed source rest (start + byteSize text) (first + 1) shown tops stop) :
      Placed source (.leaf kind text named :: rest) cursor first
        ((.leaf kind text named, leafEntry source kind text named start) :: shown)
        ((first, .leaf kind text named, leafEntry source kind text named start) :: tops) stop
  | node {kind : String} {parts rest : List Sketch} {cursor first middle stop : Nat}
      {inner shown : List (Sketch × Entry)} {below tops : List (Nat × Sketch × Entry)}
      (inside : Placed source parts cursor first inner below middle)
      (behind : Placed source rest middle (first + inner.length + 1) shown tops stop) :
      Placed source (.node kind parts :: rest) cursor first
        (inner ++ (.node kind parts, nodeEntry source kind below middle) :: shown)
        ((first + inner.length, .node kind parts, nodeEntry source kind below middle) :: tops) stop

variable {parts rest : List Sketch} {shown : List (Sketch × Entry)}
  {tops : List (Nat × Sketch × Entry)}

namespace Placed

theorem map_shown (h : Placed source parts cursor first shown tops stop) :
    shown.map (·.1) = Sketch.postorderAll parts := by
  induction h with
  | nil => rfl
  | leaf _ _ ih => simp [Sketch.postorderAll, Sketch.postorder, ih]
  | node _ _ ihInside ih => simp [Sketch.postorderAll, Sketch.postorder, ih, ihInside]

theorem map_tops (h : Placed source parts cursor first shown tops stop) :
    tops.map (·.2.1) = parts := by
  induction h with
  | nil => rfl
  | leaf _ _ ih => rw [List.map_cons, ih]
  | node _ _ _ ih => rw [List.map_cons, ih]

theorem places_tops (h : Placed source parts cursor first shown tops stop) :
    tops.map (·.1) = Sketch.places first parts := by
  induction h with
  | nil => rfl
  | leaf _ _ ih => simp [Sketch.places, Sketch.postorder, ih]
  | node hinside _ _ ih =>
    have hlength := congrArg List.length hinside.map_shown
    rw [List.length_map] at hlength
    simp [Sketch.places, Sketch.postorder, ih, hlength, Nat.add_assoc]

theorem getElem?_of_mem_tops (h : Placed source parts cursor first shown tops stop)
    {top : Nat × Sketch × Entry} (ht : top ∈ tops) :
    ∃ i, top.1 = first + i ∧ shown[i]? = some top.2 := by
  induction h with
  | nil => exact absurd ht List.not_mem_nil
  | leaf _ _ ih =>
    rcases List.mem_cons.mp ht with rfl | ht
    · exact ⟨0, rfl, rfl⟩
    · obtain ⟨i, hi, hshown⟩ := ih ht
      exact ⟨i + 1, by omega, hshown⟩
  | @node _ _ _ _ _ _ _ inner _ _ _ _ _ _ ih =>
    rcases List.mem_cons.mp ht with rfl | ht
    · exact ⟨inner.length, rfl, by simp⟩
    · obtain ⟨i, hi, hshown⟩ := ih ht
      refine ⟨inner.length + (i + 1), by omega, ?_⟩
      rw [List.getElem?_append_right (Nat.le_add_right ..), Nat.add_sub_cancel_left]
      exact hshown

theorem append {shown' : List (Sketch × Entry)} {tops' : List (Nat × Sketch × Entry)}
    {middle : Nat} (h : Placed source parts cursor first shown tops middle)
    (h' : Placed source rest middle (first + shown.length) shown' tops' stop) :
    Placed source (parts ++ rest) cursor first (shown ++ shown') (tops ++ tops') stop := by
  induction h with
  | nil => exact h'
  | leaf found _ ih =>
    refine .leaf found (ih ?_)
    rwa [List.length_cons, Nat.add_comm _ 1, ← Nat.add_assoc] at h'
  | node inside _ _ ih =>
    rw [List.append_assoc, List.cons_append]
    refine .node inside (ih ?_)
    rwa [List.length_append, List.length_cons, Nat.add_comm _ 1, ← Nat.add_assoc,
      ← Nat.add_assoc] at h'

end Placed

section Run

variable {l l' : Layout}

theorem size_of_append (hl : l'.entries.toList = l.entries.toList ++ shown.map (·.2)) :
    l'.entries.size = l.entries.size + shown.length := by
  have hlength := congrArg List.length hl
  rwa [List.length_append, List.length_map, Array.length_toList, Array.length_toList] at hlength

theorem coverOf_eq (h : Placed source parts l.cursor l.entries.size shown tops l'.cursor)
    (hl : l'.entries.toList = l.entries.toList ++ shown.map (·.2)) :
    Sketch.coverOf l' (tops.map (·.1)) = cover l'.cursor (tops.map (·.2.2)) := by
  have hentry (o : Option (Nat × Sketch × Entry)) (ho : ∀ top, o = some top → top ∈ tops) :
      (o.map (·.1)).bind (l'.entries[·]?) = o.map (·.2.2) := by
    cases o with
    | none => rfl
    | some top =>
      obtain ⟨i, hi, hshown⟩ := h.getElem?_of_mem_tops (ho top rfl)
      rw [Option.map_some, Option.bind_some, ← Array.getElem?_toList, hl, hi,
        List.getElem?_append_right (by simp), Array.length_toList, Nat.add_sub_cancel_left,
        List.getElem?_map, hshown]
      rfl
  rw [Sketch.coverOf, cover, List.head?_map, List.head?_map, List.getLast?_map, List.getLast?_map,
    hentry _ fun _ => List.mem_of_head?, hentry _ fun _ => List.mem_of_getLast?]

mutual

theorem place_placed (s : Sketch) {l l' : Layout} {id : Nat}
    (h : s.place source l = .ok (id, l')) : ∃ shown e,
      Placed source [s] l.cursor l.entries.size shown [(id, s, e)] l'.cursor ∧
        l'.entries.toList = l.entries.toList ++ shown.map (·.2) := by
  cases s with
  | leaf kind text named =>
    rw [Sketch.place] at h
    split at h
    · cases h
    · next start hfound =>
      cases h
      exact ⟨_, _, .leaf hfound .nil, by simp [leafEntry]⟩
  | node kind parts =>
    rw [Sketch.place] at h
    split at h
    · cases h
    · next ids l₁ hparts =>
      obtain ⟨shown, tops, hplaced, rfl, hentries⟩ := placeAll_placed parts hparts
      cases h
      refine ⟨shown ++ [(.node kind parts, nodeEntry source kind tops l₁.cursor)],
        nodeEntry source kind tops l₁.cursor, ?_, ?_⟩
      · rw [size_of_append hentries]
        exact .node hplaced .nil
      · simp [nodeEntry, hentries, coverOf_eq hplaced hentries]

theorem placeAll_placed (parts : List Sketch) {l l' : Layout} {ids : List Nat}
    (h : Sketch.placeAll source parts l = .ok (ids, l')) : ∃ shown tops,
      Placed source parts l.cursor l.entries.size shown tops l'.cursor ∧ tops.map (·.1) = ids ∧
        l'.entries.toList = l.entries.toList ++ shown.map (·.2) := by
  cases parts with
  | nil =>
    rw [Sketch.placeAll] at h
    cases h
    exact ⟨[], [], .nil, rfl, by simp⟩
  | cons s rest =>
    rw [Sketch.placeAll] at h
    split at h
    · cases h
    · next id l₁ hs =>
      split at h
      · cases h
      · next ids l₂ hrest =>
        cases h
        obtain ⟨shown, e, hplaced, hentries⟩ := place_placed s hs
        obtain ⟨shown', tops, hplaced', rfl, hentries'⟩ := placeAll_placed rest hrest
        rw [size_of_append hentries] at hplaced'
        exact ⟨_, _, hplaced.append hplaced', rfl, by simp [hentries, hentries']⟩

end

end Run

def lastStop (cursor : Nat) (shown : List (Sketch × Entry)) : Nat :=
  shown.foldl (fun cursor x => if x.1.isLeaf then x.2.head.span.stop else cursor) cursor

theorem lastStop_append (cursor : Nat) (shown shown' : List (Sketch × Entry)) :
    lastStop cursor (shown ++ shown') = lastStop (lastStop cursor shown) shown' :=
  List.foldl_append

theorem lastStop_cases (cursor : Nat) (shown : List (Sketch × Entry)) :
    lastStop cursor shown = cursor ∨
      ∃ x ∈ shown, lastStop cursor shown = x.2.head.span.stop := by
  induction shown generalizing cursor with
  | nil => exact .inl rfl
  | cons x shown ih =>
    rw [← List.singleton_append, lastStop_append]
    rcases ih (lastStop cursor [x]) with hstop | ⟨y, hy, hstop⟩
    · rw [hstop, lastStop, List.foldl_cons, List.foldl_nil]
      split
      · exact .inr ⟨x, List.mem_cons_self, rfl⟩
      · exact .inl rfl
    · exact .inr ⟨y, List.mem_cons_of_mem x hy, hstop⟩

theorem cases_of_append_cons {α : Type} {xs ys before behind : List α} {x y : α}
    (h : xs ++ y :: ys = before ++ x :: behind) : (∃ zs, xs = before ++ x :: zs) ∨
      (xs = before ∧ y = x) ∨ ∃ zs, before = xs ++ y :: zs ∧ ys = zs ++ x :: behind := by
  rcases List.append_eq_append_iff.mp h with ⟨zs, rfl, hzs⟩ | ⟨zs, rfl, hzs⟩
  · cases zs with
    | nil => exact .inr (.inl ⟨by simp, (List.cons.inj hzs).1⟩)
    | cons z zs =>
      obtain ⟨rfl, rfl⟩ := List.cons.inj hzs
      exact .inr (.inr ⟨zs, rfl, rfl⟩)
  · cases zs with
    | nil => exact .inr (.inl ⟨by simp, (List.cons.inj hzs).1.symm⟩)
    | cons z zs => exact .inl ⟨zs, by rw [(List.cons.inj hzs).1]⟩

namespace Placed

variable {kind : String} {i : Nat} {e : Entry}

theorem lastStop_eq (h : Placed source parts cursor first shown tops stop) :
    lastStop cursor shown = stop := by
  induction h with
  | nil => rfl
  | leaf _ _ ih => exact ih
  | node _ _ ihInside ih =>
    rw [lastStop_append, ihInside]
    exact ih

theorem lastStop_behind (h : Placed source parts cursor first shown tops stop)
    (behind : List (Sketch × Entry)) :
    lastStop cursor (shown ++ (.node kind rest, e) :: behind) = lastStop stop behind := by
  rw [lastStop_append, h.lastStop_eq]
  rfl

/-- The parts of a sketch that is no leaf are placed right before its own entry. -/
theorem split {before after : List (Sketch × Entry)}
    (h : Placed source parts cursor first shown tops stop)
    (hs : shown = before ++ (.node kind rest, e) :: after) : ∃ outer inner below,
      before = outer ++ inner ∧
      Placed source rest (lastStop cursor outer) (first + outer.length) inner below
        (lastStop cursor before) ∧
      e = nodeEntry source kind below (lastStop cursor before) := by
  induction h generalizing before after with
  | nil => simp at hs
  | leaf _ _ ih =>
    cases before with
    | nil => simp at hs
    | cons x before =>
      rw [List.cons_append] at hs
      obtain ⟨rfl, hshown⟩ := List.cons.inj hs
      obtain ⟨outer, inner, below, rfl, hplaced, he⟩ := ih hshown
      refine ⟨_ :: outer, inner, below, rfl, ?_, he⟩
      rw [List.length_cons, Nat.add_comm _ 1, ← Nat.add_assoc]
      exact hplaced
  | @node _ _ _ cursor first _ _ inner _ below _ inside _ ihInside ih =>
    rcases cases_of_append_cons hs with ⟨after, hinner⟩ | ⟨rfl, hx⟩ | ⟨between, rfl, hshown⟩
    · exact ihInside hinner
    · cases hx
      rw [inside.lastStop_eq]
      exact ⟨[], inner, below, rfl, inside, rfl⟩
    · obtain ⟨outer, inner', below', rfl, hplaced, he⟩ := ih hshown
      refine ⟨inner ++ _ :: outer, inner', below',
        (List.append_assoc inner (_ :: outer) inner').symm, ?_, ?_⟩
      · rw [inside.lastStop_behind, inside.lastStop_behind]
        simpa [Nat.add_assoc, Nat.add_comm, Nat.add_left_comm] using hplaced
      · rw [inside.lastStop_behind]
        exact he

/-- The entry of a sketch that is no leaf, by its place: its parts are placed at `k` and behind. -/
theorem partsAt (h : Placed source parts cursor 0 shown tops stop)
    (hi : shown[i]? = some (.node kind rest, e)) : ∃ k inner below, i = k + inner.length ∧
      (∀ j, j < inner.length → shown[k + j]? = inner[j]?) ∧
      Placed source rest (lastStop cursor (shown.take k)) k inner below
        (lastStop cursor (shown.take i)) ∧
      e = nodeEntry source kind below (lastStop cursor (shown.take i)) := by
  obtain ⟨hlt, hget⟩ := List.getElem?_eq_some_iff.mp hi
  have hs : shown = shown.take i ++ (.node kind rest, e) :: shown.drop (i + 1) := by
    rw [← hget, List.getElem_cons_drop, List.take_append_drop]
  obtain ⟨outer, inner, below, hbefore, hplaced, he⟩ := h.split hs
  have hlength := congrArg List.length hbefore
  rw [List.length_take, Nat.min_eq_left hlt.le, List.length_append] at hlength
  rw [hbefore, List.append_assoc] at hs
  have htake : shown.take outer.length = outer := by rw [hs, List.take_left]
  refine ⟨outer.length, inner, below, hlength, fun j hj => ?_, ?_, he⟩
  · rw [hs, List.getElem?_append_right (Nat.le_add_right ..), Nat.add_sub_cancel_left,
      List.getElem?_append_left hj]
  · rw [htake]
    simpa using hplaced

end Placed

theorem stop_cover_cons (cursor : Nat) (e : Entry) (entries : List Entry) :
    (cover cursor (e :: entries)).stop = (cover e.head.span.stop entries).stop := by
  rw [cover, cover, List.getLast?_cons]
  cases entries.getLast? <;> rfl

theorem stop_cover_of_eq {entries : List Entry} (h : (cover cursor entries).stop = stop) :
    (cover stop entries).stop = stop := by
  rw [cover] at h ⊢
  cases hlast : entries.getLast? with
  | none => rfl
  | some e => rwa [hlast] at h

theorem mem_or_start_cover (cursor : Nat) (entries : List Entry) :
    (∃ e ∈ entries, (cover cursor entries).start = e.head.span.start) ∨
      (cover cursor entries).start = cursor := by
  cases entries with
  | nil => exact .inr rfl
  | cons e entries => exact .inl ⟨e, List.mem_cons_self, rfl⟩

theorem start_cover_le {e : Entry} {entries : List Entry}
    (hle : ∀ d ∈ entries, d.head.span.start ≤ d.head.span.stop)
    (hp : entries.Pairwise fun c d => c.head.span.stop ≤ d.head.span.start) (he : e ∈ entries) :
    (cover cursor entries).start ≤ e.head.span.start := by
  cases entries with
  | nil => exact absurd he List.not_mem_nil
  | cons d entries =>
    rcases List.mem_cons.mp he with rfl | he
    · exact Nat.le_refl _
    · exact Nat.le_trans (hle d List.mem_cons_self) (List.rel_of_pairwise_cons hp he)

structure Between (source : String) (cursor stop : Nat) (shown : List (Sketch × Entry)) : Prop where
  ordered : cursor ≤ stop
  boundary : IsBoundary source stop
  span : ∀ x ∈ shown, x.2.head.span.Cuts source ∧ cursor ≤ x.2.head.span.start ∧
    x.2.head.span.stop ≤ stop

namespace Placed

variable {kind : String}

theorem stop_tops (h : Placed source parts cursor first shown tops stop) :
    (cover cursor (tops.map (·.2.2))).stop = stop := by
  induction h with
  | nil => rfl
  | leaf _ _ ih =>
    rw [List.map_cons, stop_cover_cons]
    exact ih
  | node _ _ ihInside ih =>
    rw [List.map_cons, stop_cover_cons, nodeEntry, stop_cover_of_eq ihInside]
    exact ih

theorem stop_nodeEntry (h : Placed source parts cursor first shown tops stop) :
    (nodeEntry source kind tops stop).head.span.stop = stop :=
  stop_cover_of_eq h.stop_tops

theorem mem_shown (h : Placed source parts cursor first shown tops stop)
    {top : Nat × Sketch × Entry} (ht : top ∈ tops) : top.2 ∈ shown := by
  obtain ⟨i, -, hi⟩ := h.getElem?_of_mem_tops ht
  exact List.mem_of_getElem? hi

theorem nodeEntry_between (h : Placed source parts cursor first shown tops stop)
    (hb : Between source cursor stop shown) :
    (nodeEntry source kind tops stop).head.span.Cuts source ∧
      cursor ≤ (nodeEntry source kind tops stop).head.span.start := by
  have hstop : (nodeEntry source kind tops stop).head.span.stop = stop := h.stop_nodeEntry
  have hsize : stop ≤ byteSize source := le_byteSize hb.boundary
  have hstart : IsBoundary source (nodeEntry source kind tops stop).head.span.start ∧
      cursor ≤ (nodeEntry source kind tops stop).head.span.start ∧
      (nodeEntry source kind tops stop).head.span.start ≤ stop := by
    rcases mem_or_start_cover stop (tops.map (·.2.2)) with ⟨e, he, hstart⟩ | hstart
    · obtain ⟨top, ht, rfl⟩ := List.mem_map.mp he
      obtain ⟨hcuts, hle, hle'⟩ := hb.span top.2 (h.mem_shown ht)
      rw [nodeEntry, hstart]
      exact ⟨hcuts.start, hle, Nat.le_trans hcuts.ordered hle'⟩
    · rw [nodeEntry, hstart]
      exact ⟨hb.boundary, hb.ordered, Nat.le_refl stop⟩
  exact ⟨⟨by rw [hstop]; exact hstart.2.2, by rw [hstop]; exact hsize, hstart.1,
    by rw [hstop]; exact hb.boundary⟩, hstart.2.1⟩

theorem between (h : Placed source parts cursor first shown tops stop)
    (hb : IsBoundary source cursor) : Between source cursor stop shown := by
  induction h with
  | nil => exact ⟨Nat.le_refl _, hb, by simp⟩
  | leaf found _ ih =>
    obtain ⟨hle, hcuts, -⟩ := cuts_of_findToken hb found
    have hrest := ih hcuts.stop
    have hordered := hrest.ordered
    refine ⟨by omega, hrest.boundary, fun x hx => ?_⟩
    rcases List.mem_cons.mp hx with rfl | hx
    · exact ⟨hcuts, hle, hordered⟩
    · obtain ⟨hspan, hstart, hstop⟩ := hrest.span x hx
      exact ⟨hspan, by omega, hstop⟩
  | node inside _ ihInside ih =>
    have hinside := ihInside hb
    have hrest := ih hinside.boundary
    have hordered := hinside.ordered
    have hordered' := hrest.ordered
    refine ⟨by omega, hrest.boundary, fun x hx => ?_⟩
    rw [List.mem_append, List.mem_cons] at hx
    rcases hx with hx | rfl | hx
    · obtain ⟨hspan, hstart, hstop⟩ := hinside.span x hx
      exact ⟨hspan, hstart, by omega⟩
    · obtain ⟨hspan, hstart⟩ := inside.nodeEntry_between hinside
      exact ⟨hspan, hstart, by rw [inside.stop_nodeEntry]; exact hordered'⟩
    · obtain ⟨hspan, hstart, hstop⟩ := hrest.span x hx
      exact ⟨hspan, by omega, hstop⟩

theorem pairwise_shown (h : Placed source parts cursor first shown tops stop)
    (hb : IsBoundary source cursor) : shown.Pairwise fun x y =>
      y.1.isLeaf → x.2.head.span.stop ≤ y.2.head.span.start := by
  induction h with
  | nil => exact .nil
  | leaf found behind ih =>
    obtain ⟨-, hcuts, -⟩ := cuts_of_findToken hb found
    refine .cons (fun y hy _ => ?_) (ih hcuts.stop)
    exact ((behind.between hcuts.stop).span y hy).2.1
  | node inside behind ihInside ih =>
    have hinside := inside.between hb
    have hrest := behind.between hinside.boundary
    refine List.pairwise_append.mpr ⟨ihInside hb, .cons (fun y hy _ => ?_) (ih hinside.boundary),
      fun x hx y hy hleaf => ?_⟩
    · rw [inside.stop_nodeEntry]
      exact (hrest.span y hy).2.1
    · rcases List.mem_cons.mp hy with rfl | hy
      · cases hleaf
      · exact Nat.le_trans (hinside.span x hx).2.2 (hrest.span y hy).2.1

theorem pairwise_tops (h : Placed source parts cursor first shown tops stop)
    (hb : IsBoundary source cursor) : (tops.map (·.2.2)).Pairwise fun d e =>
      d.head.span.stop ≤ e.head.span.start := by
  rw [List.pairwise_map]
  induction h with
  | nil => exact .nil
  | leaf found behind ih =>
    obtain ⟨-, hcuts, -⟩ := cuts_of_findToken hb found
    refine .cons (fun y hy => ?_) (ih hcuts.stop)
    exact ((behind.between hcuts.stop).span y.2 (behind.mem_shown hy)).2.1
  | node inside behind _ ih =>
    have hinside := inside.between hb
    refine .cons (fun y hy => ?_) (ih hinside.boundary)
    rw [inside.stop_nodeEntry]
    exact ((behind.between hinside.boundary).span y.2 (behind.mem_shown hy)).2.1

theorem contains_of_mem (h : Placed source parts cursor first shown tops stop)
    (hb : IsBoundary source cursor) {top : Nat × Sketch × Entry} (ht : top ∈ tops) :
    (nodeEntry source kind tops stop).head.span.contains top.2.2.head.span := by
  have hspan {top : Nat × Sketch × Entry} (ht : top ∈ tops) :=
    (h.between hb).span top.2 (h.mem_shown ht)
  rw [Span.contains, Bool.and_eq_true, decide_eq_true_eq, decide_eq_true_eq, h.stop_nodeEntry]
  refine ⟨start_cover_le (fun d hd => ?_) (h.pairwise_tops hb) (List.mem_map_of_mem ht),
    (hspan ht).2.2⟩
  obtain ⟨other, ho, rfl⟩ := List.mem_map.mp hd
  exact (hspan ho).1.ordered

theorem entry_of_mem (h : Placed source parts cursor first shown tops stop)
    (hb : IsBoundary source cursor) {x : Sketch × Entry} (hx : x ∈ shown) :
    x.2.head.kind = x.1.kind ∧ x.2.head.named = x.1.named ∧
      x.2.head.point = pointAt source x.2.head.span.start ∧
      ∀ kind text named, x.1 = .leaf kind text named →
        x.2.head.span.slice source = text ∧ x.2.children = [] := by
  induction h with
  | nil => exact absurd hx List.not_mem_nil
  | leaf found behind ih =>
    obtain ⟨-, hcuts, hslice⟩ := cuts_of_findToken hb found
    rcases List.mem_cons.mp hx with rfl | hx
    · refine ⟨rfl, rfl, rfl, ?_⟩
      rintro _ _ _ ⟨⟩
      exact ⟨hslice, rfl⟩
    · exact ih hcuts.stop hx
  | node inside behind ihInside ih =>
    rw [List.mem_append, List.mem_cons] at hx
    rcases hx with hx | rfl | hx
    · exact ihInside hb hx
    · exact ⟨rfl, rfl, rfl, nofun⟩
    · exact ih (inside.between hb).boundary hx

end Placed

end ComponentCompiler.Cst
