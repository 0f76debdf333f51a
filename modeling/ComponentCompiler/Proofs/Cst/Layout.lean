import ComponentCompiler.Proofs.Cst.Placement
import Mathlib.Data.List.TakeWhile

namespace ComponentCompiler.Cst

open Text

variable {source : String} {n : Nat} {shown : List (Sketch × Entry)}

/-- The row and the column of byte `n`: so many newlines stand before it, and so many bytes stand
between the last of them, or the start of the source, and it. -/
structure Point.IsAt (source : String) (n : Nat) (p : Point) : Prop where
  row_eq : ((bytes source).take n).count 10 = p.row
  column_eq : ∃ lines line, (bytes source).take n = lines ++ line ∧ line.length = p.column ∧
    10 ∉ line ∧ (lines = [] ∨ lines.getLast? = some 10)

theorem byteLength_reverse (cs : List Char) : byteLength cs.reverse = byteLength cs := by
  induction cs with
  | nil => rfl
  | cons c cs ih =>
    rw [List.reverse_cons, byteLength_append, ih, byteLength, byteLength, byteLength]
    omega

theorem dropWhile_line (cs : List Char) : cs.dropWhile (· ≠ '\n') = [] ∨
    ∃ rest, cs.dropWhile (· ≠ '\n') = '\n' :: rest := by
  cases hlines : cs.dropWhile (· ≠ '\n') with
  | nil => exact .inl rfl
  | cons c rest =>
    have hc := List.head?_dropWhile_not (fun c => decide (c ≠ '\n')) cs
    rw [hlines] at hc
    obtain rfl : c = '\n' := by simpa using hc
    exact .inr ⟨rest, rfl⟩

theorem pointAt_isAt (hb : IsBoundary source n) : (pointAt source n).IsAt source n := by
  obtain ⟨before, behind, hs, rfl⟩ := hb
  have htake : (bytes source).take (byteLength before) = encoded before := by
    rw [bytes_eq_encoded, hs, encoded_append, ← length_encoded, List.take_left]
  have hnewline : (10 : UInt8).toNat < 128 ∧ '\n'.toNat = (10 : UInt8).toNat := by decide
  rw [pointAt, hs, takeBytes_append, Option.getD_some]
  constructor
  · rw [htake, count_encoded hnewline.1 hnewline.2, List.count_reverse]
  · let line := before.reverse.takeWhile (· ≠ '\n')
    let lines := before.reverse.dropWhile (· ≠ '\n')
    have hparts : before = lines.reverse ++ line.reverse := by
      rw [← List.reverse_append, List.takeWhile_append_dropWhile, List.reverse_reverse]
    refine ⟨encoded lines.reverse, encoded line.reverse, ?_, ?_, ?_, ?_⟩
    · rw [htake, ← encoded_append, ← hparts]
    · rw [length_encoded, byteLength_reverse]
    · rw [mem_encoded_iff hnewline.1 hnewline.2, List.mem_reverse]
      intro hmem
      simpa using List.mem_takeWhile_imp hmem
    · rcases dropWhile_line before.reverse with hnil | ⟨rest, hrest⟩
      · exact .inl (congrArg (fun cs : List Char => encoded cs.reverse) hnil)
      · rw [show lines = '\n' :: rest from hrest, List.reverse_cons, encoded_append,
          List.getLast?_append]
        exact .inr rfl

structure Table.Shows (t : Table) (s : Sketch) (i : Nat) (part : Sketch) (e : Entry) : Prop where
  part : s.postorder[i]? = some part
  entry : t.entries[i]? = some e

def Table.cursorAt (t : Table) (s : Sketch) (i : Nat) : Nat :=
  lastStop 0 ((s.postorder.zip t.entries.toList).take i)

/-- The table has the shape, the kinds and the names of the sketch: an entry for every sketch in it,
children before their parents, and the entries below a child right behind those of the child before
it. -/
structure Mirrors (s : Sketch) (t : Table) : Prop where
  size_eq : t.entries.size = s.postorder.length
  root_last : t.root + 1 = t.entries.size
  head_eq : ∀ i part e, t.Shows s i part e → e.head.kind = part.kind ∧ e.head.named = part.named
  children_parts : ∀ i part e, t.Shows s i part e →
    e.children.map (s.postorder[·]?) = part.parts.map some
  children_places : ∀ i part e, t.Shows s i part e →
    e.children = Sketch.places (i + 1 - part.postorder.length) part.parts
  children_lt : ∀ i part e, t.Shows s i part e → ∀ c ∈ e.children, c < i

structure LaidOut (s : Sketch) (source : String) (t : Table) : Prop where
  root_whole : ∀ e, t.entries[t.root]? = some e → e.head.span = ⟨0, byteSize source⟩
  cuts : ∀ i part e, t.Shows s i part e → e.head.span.Cuts source
  leaf_slice : ∀ i kind text named e, t.Shows s i (.leaf kind text named) e → i ≠ t.root →
    e.head.span.slice source = text
  leaves_ordered : ∀ i j part part' d e, t.Shows s i part d → t.Shows s j part' e → part.isLeaf →
    part'.isLeaf → i < j → d.head.span.stop ≤ e.head.span.start
  node_covers : ∀ i part e, t.Shows s i part e → ¬ part.isLeaf → i ≠ t.root →
    e.head.span = cover (t.cursorAt s i) (t.childrenOf e)
  children_inside : ∀ i part e, t.Shows s i part e →
    ∀ c ∈ t.childrenOf e, e.head.span.contains c.head.span
  children_ordered : ∀ i part e, t.Shows s i part e →
    (t.childrenOf e).Pairwise fun c d => c.head.span.stop ≤ d.head.span.start
  point_isAt : ∀ i part e, t.Shows s i part e → i ≠ t.root →
    e.head.point.IsAt source e.head.span.start

section Table

variable {s part : Sketch} {t : Table} {i : Nat} {e : Entry}

def wholeEntry (source : String) (e : Entry) : Entry :=
  { e with head := { e.head with span := ⟨0, byteSize source⟩, point := {} } }

structure Drawn (s : Sketch) (source : String) (t : Table) (shown : List (Sketch × Entry)) :
    Prop where
  placed : ∃ e stop, Placed source [s] 0 0 shown [(t.root, s, e)] stop
  size_eq : t.entries.size = shown.length
  entry_eq : ∀ i, t.entries[i]? = shown[i]?.map fun x =>
    if i = t.root then wholeEntry source x.2 else x.2

theorem exists_drawn (h : s.layout source = .ok t) : ∃ shown, Drawn s source t shown := by
  rw [Sketch.layout] at h
  cases hplace : s.place source {} with
  | error _ => rw [hplace] at h; cases h
  | ok result =>
    obtain ⟨root, l⟩ := result
    rw [hplace] at h
    cases h
    obtain ⟨shown, e, hplaced, hentries⟩ := place_placed s hplace
    have hsize : l.entries.size = shown.length := (size_of_append hentries).trans (Nat.zero_add _)
    refine ⟨shown, ⟨e, l.cursor, hplaced⟩, Array.size_modify.trans hsize, fun i => ?_⟩
    have hi : l.entries[i]? = shown[i]?.map (·.2) := by
      rw [← Array.getElem?_toList, hentries]
      simp
    rw [Array.getElem?_modify, hi]
    cases shown[i]? with
    | none => simp
    | some x => by_cases hroot : i = root <;> simp [hroot, Ne.symm, wholeEntry]

namespace Drawn

theorem map_shown (h : Drawn s source t shown) : shown.map (·.1) = s.postorder := by
  obtain ⟨e, stop, hplaced⟩ := h.placed
  rw [hplaced.map_shown, Sketch.postorderAll, Sketch.postorderAll, List.append_nil]

theorem length_shown (h : Drawn s source t shown) : shown.length = s.postorder.length := by
  rw [← h.map_shown, List.length_map]

theorem root_eq (h : Drawn s source t shown) : t.root + 1 = shown.length := by
  obtain ⟨e, stop, hplaced⟩ := h.placed
  obtain ⟨i, hi, hshown⟩ := hplaced.getElem?_of_mem_tops List.mem_cons_self
  have hlt := (List.getElem?_eq_some_iff.mp hshown).1
  have hroot : t.root = 0 + s.postorder.length - 1 := (List.cons.inj hplaced.places_tops).1
  rw [← h.length_shown] at hroot
  dsimp only at hi
  omega

theorem exists_shown (h : Drawn s source t shown) (hs : t.Shows s i part e) :
    ∃ d, shown[i]? = some (part, d) ∧ e = if i = t.root then wholeEntry source d else d := by
  have hentry := hs.entry
  have hpart := hs.part
  rw [← h.map_shown, List.getElem?_map] at hpart
  rw [h.entry_eq] at hentry
  obtain ⟨x, hx, rfl⟩ := Option.map_eq_some_iff.mp hpart
  rw [hx] at hentry
  exact ⟨x.2, hx, (Option.some.inj hentry).symm⟩

theorem cursorAt_eq (h : Drawn s source t shown) (hi : i ≤ t.root) :
    t.cursorAt s i = lastStop 0 (shown.take i) := by
  rw [Table.cursorAt]
  congr 1
  apply List.ext_getElem?
  intro j
  rw [List.getElem?_take, List.getElem?_take]
  split
  · next hj =>
    ext x
    have hentry := h.entry_eq j
    simp only [show j ≠ t.root by omega, if_false, ← Array.getElem?_toList] at hentry
    rw [List.getElem?_zip_eq_some, ← h.map_shown, hentry, List.getElem?_map]
    cases shown[j]? with
    | none => simp
    | some y => simp [Prod.ext_iff]
  · rfl

theorem shows_of_shown (h : Drawn s source t shown) (hi : shown[i]? = some (part, e))
    (hroot : i ≠ t.root) : t.Shows s i part e := by
  constructor
  · rw [← h.map_shown, List.getElem?_map, hi]
    rfl
  · rw [h.entry_eq, hi, Option.map_some, if_neg hroot]

theorem isBoundary_lastStop (h : Drawn s source t shown) (n : Nat) :
    IsBoundary source (lastStop 0 (shown.take n)) := by
  obtain ⟨e, stop, hplaced⟩ := h.placed
  rcases lastStop_cases 0 (shown.take n) with hzero | ⟨x, hx, hstop⟩
  · rw [hzero]
    exact isBoundary_zero source
  · rw [hstop]
    exact ((hplaced.between (isBoundary_zero source)).span x (List.mem_of_mem_take hx)).1.stop

end Drawn

/-- What stands below an entry: its children by their places, with their sketches and entries. -/
structure Below (source : String) (s : Sketch) (t : Table) (i : Nat) (part : Sketch) (e : Entry)
    (below : List (Nat × Sketch × Entry)) : Prop where
  children_eq : e.children = below.map (·.1)
  places_eq : below.map (·.1) = Sketch.places (i + 1 - part.postorder.length) part.parts
  parts_eq : below.map (·.2.1) = part.parts
  shows : ∀ top ∈ below, top.1 < i ∧ t.Shows s top.1 top.2.1 top.2.2
  ordered : (below.map (·.2.2)).Pairwise fun c d => c.head.span.stop ≤ d.head.span.start
  covered : ¬ part.isLeaf → i ≠ t.root →
    e.head.span = cover (t.cursorAt s i) (below.map (·.2.2)) ∧
      ∀ top ∈ below, e.head.span.contains top.2.2.head.span

theorem Below.childrenOf_eq {below : List (Nat × Sketch × Entry)}
    (h : Below source s t i part e below) : t.childrenOf e = below.map (·.2.2) := by
  rw [Table.childrenOf, h.children_eq, List.filterMap_map, ← List.filterMap_eq_map]
  exact List.filterMap_congr fun top ht => (h.shows top ht).2.entry

theorem Drawn.exists_below (h : Drawn s source t shown) (hs : t.Shows s i part e) :
    ∃ below, Below source s t i part e below := by
  obtain ⟨d, hshown, he⟩ := h.exists_shown hs
  have hchildren : e.children = d.children := by
    rw [he]
    split <;> rfl
  obtain ⟨root, stop, hplaced⟩ := h.placed
  have hlt : i < shown.length := (List.getElem?_eq_some_iff.mp hshown).1
  have hroot := h.root_eq
  cases part with
  | leaf kind text named =>
    have hmem := List.mem_of_getElem? hshown
    have hnone := ((hplaced.entry_of_mem (isBoundary_zero source) hmem).2.2.2 _ _ _ rfl).2
    exact ⟨[], hchildren.trans hnone, rfl, rfl, by simp, .nil, by simp [Sketch.isLeaf]⟩
  | node kind parts =>
    obtain ⟨k, inner, below, rfl, hinner, hbelow, rfl⟩ := hplaced.partsAt hshown
    have hb := h.isBoundary_lastStop k
    have hlength := congrArg List.length hbelow.map_shown
    rw [List.length_map] at hlength
    refine ⟨below, hchildren, ?_, hbelow.map_tops, ?_, hbelow.pairwise_tops hb, ?_⟩
    · rw [hbelow.places_tops, Sketch.postorder, List.length_append, List.length_singleton,
        ← hlength, Nat.add_assoc, Nat.add_sub_cancel]
      rfl
    · intro top ht
      obtain ⟨j, hj, htop⟩ := hbelow.getElem?_of_mem_tops ht
      have hjlt : j < inner.length := (List.getElem?_eq_some_iff.mp htop).1
      refine ⟨by omega, h.shows_of_shown ?_ (by omega)⟩
      rw [hj, hinner j hjlt, htop]
    · intro _ hi
      rw [if_neg hi] at he
      subst he
      rw [h.cursorAt_eq (by omega)]
      exact ⟨rfl, fun top ht => hbelow.contains_of_mem hb ht⟩

theorem cuts_whole (source : String) : Span.Cuts source ⟨0, byteSize source⟩ :=
  ⟨Nat.zero_le _, Nat.le_refl _, isBoundary_zero source, ⟨source.toList, [], by simp, rfl⟩⟩

namespace Drawn

theorem mirrors (h : Drawn s source t shown) : Mirrors s t := by
  refine ⟨h.size_eq.trans h.length_shown, h.root_eq.trans h.size_eq.symm,
    fun i part e hs => ?_, fun i part e hs => ?_, fun i part e hs => ?_, fun i part e hs c hc => ?_⟩
  · obtain ⟨top, stop, hplaced⟩ := h.placed
    obtain ⟨d, hshown, rfl⟩ := h.exists_shown hs
    obtain ⟨hkind, hnamed, -⟩ :=
      hplaced.entry_of_mem (isBoundary_zero source) (List.mem_of_getElem? hshown)
    split
    · exact ⟨hkind, hnamed⟩
    · exact ⟨hkind, hnamed⟩
  · obtain ⟨below, hbelow⟩ := h.exists_below hs
    rw [hbelow.children_eq, ← hbelow.parts_eq, List.map_map, List.map_map]
    exact List.map_congr_left fun top ht => (hbelow.shows top ht).2.part
  · obtain ⟨below, hbelow⟩ := h.exists_below hs
    exact hbelow.children_eq.trans hbelow.places_eq
  · obtain ⟨below, hbelow⟩ := h.exists_below hs
    rw [hbelow.children_eq] at hc
    obtain ⟨top, ht, rfl⟩ := List.mem_map.mp hc
    exact (hbelow.shows top ht).1

theorem root_whole (h : Drawn s source t shown) (he : t.entries[t.root]? = some e) :
    e.head.span = ⟨0, byteSize source⟩ := by
  rw [h.entry_eq] at he
  obtain ⟨x, -, rfl⟩ := Option.map_eq_some_iff.mp he
  rw [if_pos rfl, wholeEntry]

theorem cuts (h : Drawn s source t shown) (hs : t.Shows s i part e) : e.head.span.Cuts source := by
  by_cases hi : i = t.root
  · rw [h.root_whole (hi ▸ hs.entry)]
    exact cuts_whole source
  · obtain ⟨top, stop, hplaced⟩ := h.placed
    obtain ⟨d, hshown, rfl⟩ := h.exists_shown hs
    rw [if_neg hi]
    exact ((hplaced.between (isBoundary_zero source)).span _ (List.mem_of_getElem? hshown)).1

theorem leaves_ordered {j : Nat} {part' : Sketch} {d : Entry} (h : Drawn s source t shown)
    (hs : t.Shows s i part d) (hs' : t.Shows s j part' e) (hleaf : part'.isLeaf) (hij : i < j) :
    d.head.span.stop ≤ e.head.span.start := by
  obtain ⟨top, stop, hplaced⟩ := h.placed
  obtain ⟨d, hd, rfl⟩ := h.exists_shown hs
  obtain ⟨e, he, rfl⟩ := h.exists_shown hs'
  obtain ⟨hi, hdget⟩ := List.getElem?_eq_some_iff.mp hd
  obtain ⟨hj, heget⟩ := List.getElem?_eq_some_iff.mp he
  have hroot := h.root_eq
  -- A root that is a leaf has no entry before it.
  have hjroot : j ≠ t.root := by
    rintro rfl
    obtain ⟨k, hk, htop⟩ := hplaced.getElem?_of_mem_tops List.mem_cons_self
    obtain rfl : t.root = k := hk.trans (Nat.zero_add k)
    cases he.symm.trans htop
    cases s with
    | leaf => exact absurd h.length_shown (by simp [Sketch.postorder]; omega)
    | node => cases hleaf
  have hordered := List.pairwise_iff_getElem.mp (hplaced.pairwise_shown (isBoundary_zero source))
    i j hi hj hij
  rw [hdget, heget] at hordered
  rw [if_neg (by omega), if_neg hjroot]
  exact hordered hleaf

theorem children_inside (h : Drawn s source t shown) (hs : t.Shows s i part e) :
    ∀ c ∈ t.childrenOf e, e.head.span.contains c.head.span := by
  obtain ⟨below, hbelow⟩ := h.exists_below hs
  intro c hc
  rw [hbelow.childrenOf_eq] at hc
  obtain ⟨top, ht, rfl⟩ := List.mem_map.mp hc
  by_cases hi : i = t.root
  · rw [h.root_whole (hi ▸ hs.entry)]
    simpa [Span.contains] using (h.cuts (hbelow.shows top ht).2).inside
  · cases part with
    | leaf =>
      rw [List.map_eq_nil_iff.mp hbelow.parts_eq] at ht
      exact absurd ht List.not_mem_nil
    | node => exact (hbelow.covered (by simp [Sketch.isLeaf]) hi).2 top ht

theorem laidOut (h : Drawn s source t shown) : LaidOut s source t := by
  obtain ⟨top, stop, hplaced⟩ := h.placed
  have hentry {x : Sketch × Entry} (hx : x ∈ shown) :=
    hplaced.entry_of_mem (isBoundary_zero source) hx
  refine ⟨fun e he => h.root_whole he, fun i part e hs => h.cuts hs,
    fun i kind text named e hs hi => ?_, fun i j part part' d e hs hs' _ => h.leaves_ordered hs hs',
    fun i part e hs hleaf hi => ?_, fun i part e hs => h.children_inside hs,
    fun i part e hs => ?_, fun i part e hs hi => ?_⟩
  · obtain ⟨d, hshown, rfl⟩ := h.exists_shown hs
    rw [if_neg hi]
    exact ((hentry (List.mem_of_getElem? hshown)).2.2.2 _ _ _ rfl).1
  · obtain ⟨below, hbelow⟩ := h.exists_below hs
    rw [hbelow.childrenOf_eq]
    exact (hbelow.covered hleaf hi).1
  · obtain ⟨below, hbelow⟩ := h.exists_below hs
    rw [hbelow.childrenOf_eq]
    exact hbelow.ordered
  · have hcuts := h.cuts hs
    obtain ⟨d, hshown, rfl⟩ := h.exists_shown hs
    rw [if_neg hi] at hcuts ⊢
    rw [(hentry (List.mem_of_getElem? hshown)).2.2.1]
    exact pointAt_isAt hcuts.start

end Drawn

/-- A sketch that can be laid out becomes a table of its shape. It lies over the source as the
sketch says: the leaves from left to right, every other entry over its children, the root over
all. -/
theorem layout_laidOut (h : s.layout source = .ok t) : Mirrors s t ∧ LaidOut s source t := by
  obtain ⟨shown, hdrawn⟩ := exists_drawn h
  exact ⟨hdrawn.mirrors, hdrawn.laidOut⟩

end Table

def twoLines : Sketch :=
  .node "program" [
    .node "pair" [.leaf "identifier" "é" true, .token "=", .leaf "identifier" "a" true],
    .node "call" [.leaf "identifier" "a" true, .node "type_arguments" [], .token "(", .token ""]]

theorem twoLines_laidOut : ∃ t, twoLines.layout "é = a\n ba a()" = .ok t ∧
    t.entries.toList.map (·.head.span) = [⟨0, 2⟩, ⟨3, 4⟩, ⟨5, 6⟩, ⟨0, 6⟩, ⟨11, 12⟩, ⟨12, 12⟩,
      ⟨12, 13⟩, ⟨13, 13⟩, ⟨11, 13⟩, ⟨0, 14⟩] ∧
    Mirrors twoLines t ∧ LaidOut twoLines "é = a\n ba a()" t := by
  have hspans : (twoLines.layout "é = a\n ba a()").toOption.map
      (fun t => t.entries.toList.map (·.head.span)) = some [⟨0, 2⟩, ⟨3, 4⟩, ⟨5, 6⟩, ⟨0, 6⟩,
        ⟨11, 12⟩, ⟨12, 12⟩, ⟨12, 13⟩, ⟨13, 13⟩, ⟨11, 13⟩, ⟨0, 14⟩] := by
    decide +kernel
  cases ht : twoLines.layout "é = a\n ba a()" with
  | error _ => rw [ht] at hspans; cases hspans
  | ok t =>
    rw [ht] at hspans
    exact ⟨t, rfl, Option.some.inj hspans, layout_laidOut ht⟩

end ComponentCompiler.Cst
