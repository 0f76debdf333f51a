import ComponentCompiler.TaggedText
import Mathlib.Data.List.Chain
import Mathlib.Data.List.DropRight

namespace ComponentCompiler.TaggedText

inductive Piece where
  | plain (c : Char)
  /-- A backslash and the character behind it. -/
  | pair (c : Char)
  deriving DecidableEq

def Piece.chars : Piece → List Char
  | plain c => [c]
  | pair c => ['\\', c]

/-- The pieces of a text; nothing for a text that ends inside a pair. -/
def read : List Char → Option (List Piece)
  | [] => some []
  | ['\\'] => none
  | '\\' :: c :: cs => (read cs).map (.pair c :: ·)
  | c :: cs => (read cs).map (.plain c :: ·)

def write (ps : List Piece) : List Char :=
  ps.flatMap Piece.chars

variable {c : Char} {cs : List Char} {p : Piece} {ps : List Piece}

@[simp] theorem write_nil : write [] = [] :=
  rfl

@[simp] theorem write_cons : write (p :: ps) = p.chars ++ write ps :=
  List.flatMap_cons

theorem read_plain (hc : c ≠ '\\') : read (c :: cs) = (read cs).map (.plain c :: ·) := by
  cases cs <;> simp [read, hc]

theorem read_pair : read ('\\' :: c :: cs) = (read cs).map (.pair c :: ·) := by
  rw [read]

theorem read_write (h : .plain '\\' ∉ ps) : read (write ps) = some ps := by
  induction ps with
  | nil => rfl
  | cons p ps ih =>
    obtain ⟨hp, hps⟩ := not_or.mp (mt List.mem_cons.mpr h)
    have hrest := ih hps
    cases p with
    | plain c =>
      have hc : c ≠ '\\' := fun he => hp (he ▸ rfl)
      rw [write_cons, Piece.chars, List.singleton_append, read_plain hc, hrest, Option.map_some]
    | pair c =>
      change read ('\\' :: c :: write ps) = _
      rw [read_pair, hrest, Option.map_some]

/-- Every text is written in pieces, up to a backslash with nothing to escape at its end. -/
theorem exists_pieces (cs : List Char) : ∃ ps tail, cs = write ps ++ tail ∧ .plain '\\' ∉ ps ∧
    (tail = [] ∧ read cs = some ps ∨ tail = ['\\'] ∧ read cs = none) := by
  induction cs using read.induct with
  | case1 => exact ⟨[], [], rfl, List.not_mem_nil, .inl ⟨rfl, rfl⟩⟩
  | case2 => exact ⟨[], ['\\'], rfl, List.not_mem_nil, .inr ⟨rfl, rfl⟩⟩
  | case3 c cs ih =>
    obtain ⟨ps, tail, rfl, hps, hread⟩ := ih
    refine ⟨.pair c :: ps, tail, rfl, by simpa using hps, ?_⟩
    rw [read_pair]
    refine hread.imp (fun h => ⟨h.1, ?_⟩) fun h => ⟨h.1, ?_⟩
    all_goals rw [h.2]; rfl
  | case4 c cs hone hpair ih =>
    obtain ⟨ps, tail, rfl, hps, hread⟩ := ih
    have hc : c ≠ '\\' := by
      rintro rfl
      cases hcs : write ps ++ tail with
      | nil => exact hone rfl hcs
      | cons d ds => exact hpair d ds rfl hcs
    refine ⟨.plain c :: ps, tail, rfl, by simpa [hc.symm] using hps, ?_⟩
    rw [read_plain hc]
    refine hread.imp (fun h => ⟨h.1, ?_⟩) fun h => ⟨h.1, ?_⟩
    all_goals rw [h.2]; rfl

theorem write_of_read (h : read cs = some ps) : write ps = cs ∧ .plain '\\' ∉ ps := by
  obtain ⟨qs, tail, rfl, hqs, ⟨rfl, hread⟩ | ⟨-, hread⟩⟩ := exists_pieces cs
  · rw [hread] at h
    cases h
    exact ⟨(List.append_nil _).symm, hqs⟩
  · rw [hread] at h
    cases h

def Piece.escaped : Piece → Piece
  | pair 's' => plain ' '
  | plain '"' => pair '"'
  | p => p

/-- What escaping makes of the pieces of a text: of neighbouring spaces one stays. -/
def convert : List Piece → List Piece
  | [] => []
  | p :: ps =>
    if p = .plain ' ' ∧ ps.head? = some (.plain ' ') then convert ps else p.escaped :: convert ps

theorem Piece.escaped_cases (p : Piece) : p = pair 's' ∧ p.escaped = plain ' ' ∨
    p = plain '"' ∧ p.escaped = pair '"' ∨ p ≠ pair 's' ∧ p ≠ plain '"' ∧ p.escaped = p := by
  unfold escaped
  split
  · exact .inl ⟨rfl, rfl⟩
  · exact .inr (.inl ⟨rfl, rfl⟩)
  · next hs hquote => exact .inr (.inr ⟨hs, hquote, rfl⟩)

theorem Piece.escaped_eq_plain :
    p.escaped = plain c ↔ p = pair 's' ∧ c = ' ' ∨ p = plain c ∧ c ≠ '"' := by
  rcases p.escaped_cases with ⟨rfl, he⟩ | ⟨rfl, he⟩ | ⟨hs, hquote, he⟩
  · simp [he, eq_comm]
  · simp [he, eq_comm]
  · simp only [he, hs, false_and, false_or]
    exact ⟨fun h => ⟨h, fun hc => hquote (hc ▸ h)⟩, And.left⟩

theorem Piece.escaped_eq_space (hs : pair 's' ≠ p) : p.escaped = plain ' ' ↔ p = plain ' ' := by
  simp [escaped_eq_plain, hs.symm]

theorem Piece.escaped_escaped : p.escaped.escaped = p.escaped := by
  rcases p.escaped_cases with ⟨-, he⟩ | ⟨-, he⟩ | ⟨-, -, he⟩
  · rw [he]
    rfl
  · rw [he]
    rfl
  · rw [he, he]

theorem Piece.getLast?_chars_escaped (hs : pair 's' ≠ p) :
    p.escaped.chars.getLast? = p.chars.getLast? := by
  rcases p.escaped_cases with ⟨rfl, -⟩ | ⟨rfl, -⟩ | ⟨-, -, he⟩
  · exact absurd rfl hs
  · rfl
  · rw [he]

theorem escapeChars_piece (hslash : p ≠ .plain '\\') (hspace : p ≠ .plain ' ') :
    escapeChars (p.chars ++ cs) = p.escaped.chars ++ escapeChars cs := by
  rcases p.escaped_cases with ⟨rfl, -⟩ | ⟨rfl, -⟩ | ⟨hs, hquote, he⟩
  · rfl
  · rfl
  · rw [he]
    cases p with
    | plain c =>
      change escapeChars (c :: cs) = c :: escapeChars cs
      rw [escapeChars] <;> simp_all
    | pair c =>
      change escapeChars ('\\' :: c :: cs) = '\\' :: c :: escapeChars cs
      rw [escapeChars]
      exact fun hc => hs (hc ▸ rfl)

section

variable {tail : List Char} (ht : tail = [] ∨ tail = ['\\'])

include ht

theorem head?_write_append :
    (write ps ++ tail).head? = some ' ' ↔ ps.head? = some (.plain ' ') := by
  cases ps with
  | nil =>
    rcases ht with rfl | rfl
    · simp
    · simp
  | cons p ps => cases p <;> simp [Piece.chars]

theorem escapeChars_write (h : .plain '\\' ∉ ps) :
    escapeChars (write ps ++ tail) = write (convert ps) := by
  induction ps with
  | nil =>
    rcases ht with rfl | rfl
    · rfl
    · rfl
  | cons p ps ih =>
    obtain ⟨hp, hps⟩ := not_or.mp (mt List.mem_cons.mpr h)
    rw [write_cons, List.append_assoc, convert]
    by_cases hspace : p = .plain ' '
    · subst hspace
      change escapeChars (' ' :: (write ps ++ tail)) = _
      rw [escapeChars, ih hps]
      simp only [head?_write_append ht, true_and]
      split
      · rfl
      · rfl
    · rw [escapeChars_piece (Ne.symm hp) hspace, ih hps, if_neg fun h => hspace h.1, write_cons]

end

theorem mem_convert (h : .plain c ∈ convert ps) : c = ' ' ∨ .plain c ∈ ps ∧ c ≠ '"' := by
  induction ps with
  | nil => cases h
  | cons p ps ih =>
    have hrest (h : .plain c ∈ convert ps) : c = ' ' ∨ .plain c ∈ p :: ps ∧ c ≠ '"' :=
      (ih h).imp_right fun h => ⟨List.mem_cons_of_mem p h.1, h.2⟩
    rw [convert] at h
    split at h
    · exact hrest h
    · rcases List.mem_cons.mp h with he | h
      · rcases Piece.escaped_eq_plain.mp he.symm with ⟨-, hc⟩ | ⟨rfl, hc⟩
        · exact .inl hc
        · exact .inr ⟨List.mem_cons_self, hc⟩
      · exact hrest h

section

variable (hs : .pair 's' ∉ ps)

include hs

theorem head?_convert :
    (convert ps).head? = some (.plain ' ') ↔ ps.head? = some (.plain ' ') := by
  induction ps with
  | nil => rfl
  | cons p ps ih =>
    obtain ⟨hp, hps⟩ := not_or.mp (mt List.mem_cons.mpr hs)
    rw [convert]
    split
    · next hspace => rw [ih hps, hspace.1, hspace.2, List.head?_cons]
    · rw [List.head?_cons, List.head?_cons, Option.some.injEq, Option.some.injEq,
        Piece.escaped_eq_space hp]

theorem isChain_convert :
    (convert ps).IsChain fun p q => ¬ (p = .plain ' ' ∧ q = .plain ' ') := by
  induction ps with
  | nil => exact .nil
  | cons p ps ih =>
    obtain ⟨hp, hps⟩ := not_or.mp (mt List.mem_cons.mpr hs)
    rw [convert]
    split
    · exact ih hps
    · next hspace =>
      refine List.isChain_cons.mpr ⟨fun q hq hboth => hspace ?_, ih hps⟩
      exact ⟨(Piece.escaped_eq_space hp).mp hboth.1, (head?_convert hps).mp (hboth.2 ▸ hq)⟩

theorem convert_convert : convert (convert ps) = convert ps := by
  induction ps with
  | nil => rfl
  | cons p ps ih =>
    obtain ⟨hp, hps⟩ := not_or.mp (mt List.mem_cons.mpr hs)
    rw [convert]
    split
    · exact ih hps
    · next hspace =>
      rw [convert, if_neg, Piece.escaped_escaped, ih hps]
      rwa [Piece.escaped_eq_space hp, head?_convert hps]

/-- A text without escaped spaces keeps its last character. -/
theorem getLast?_write_convert : (write (convert ps)).getLast? = (write ps).getLast? := by
  induction ps with
  | nil => rfl
  | cons p ps ih =>
    obtain ⟨hp, hps⟩ := not_or.mp (mt List.mem_cons.mpr hs)
    rw [convert, write_cons, List.getLast?_append]
    split
    · next hspace =>
      obtain ⟨rest, rfl⟩ := List.head?_eq_some_iff.mp hspace.2
      rw [ih hps, write_cons, List.getLast?_append]
      cases (write rest).getLast? <;> simp [hspace.1, Piece.chars]
    · rw [write_cons, List.getLast?_append, ih hps, Piece.getLast?_chars_escaped hp]

end

def IsBreak (c : Char) : Prop :=
  c = '\r' ∨ c = '\n' ∨ c = '\t'

theorem not_isBreak_flattenBreak (c : Char) : ¬ IsBreak (flattenBreak c) := by
  unfold flattenBreak
  split
  · simp [IsBreak]
  · next hc => exact hc

theorem not_isBreak_convert (h : ∀ c ∈ write ps, ¬ IsBreak c) :
    ∀ c ∈ write (convert ps), ¬ IsBreak c := by
  induction ps with
  | nil => exact nofun
  | cons p ps ih =>
    simp only [write_cons, List.forall_mem_append] at h
    have hrest := ih h.2
    rw [convert]
    split
    · exact hrest
    · rw [write_cons, List.forall_mem_append]
      refine ⟨?_, hrest⟩
      rcases p.escaped_cases with ⟨-, he⟩ | ⟨-, he⟩ | ⟨-, -, he⟩
      · simp [he, Piece.chars, IsBreak]
      · simp [he, Piece.chars, IsBreak]
      · rw [he]
        exact h.1

/-- The text with spaces for line breaks and tabs, and nothing blank at its end. -/
def prepare (raw : String) : List Char :=
  Text.trimEnd (raw.toList.map flattenBreak)

theorem not_isBreak_prepare {raw : String} (hc : c ∈ prepare raw) : ¬ IsBreak c := by
  have hfront : prepare raw <+: raw.toList.map flattenBreak := List.rdropWhile_prefix _ _
  obtain ⟨d, -, rfl⟩ := List.mem_map.mp (hfront.subset hc)
  exact not_isBreak_flattenBreak d

theorem getLast?_prepare {raw : String} (h : (prepare raw).getLast? = some c) :
    Text.isBlank c = false := by
  obtain ⟨hne, rfl⟩ := List.mem_getLast?_eq_getLast h
  exact Bool.eq_false_iff.mpr (List.rdropWhile_last_not _ _ hne)

theorem prepare_eq_self (hbreak : ∀ c ∈ cs, ¬ IsBreak c)
    (hlast : ∀ c, cs.getLast? = some c → Text.isBlank c = false) :
    prepare (String.ofList cs) = cs := by
  have hflat : cs.map flattenBreak = cs := by
    refine (List.map_congr_left fun c hc => ?_).trans (List.map_id cs)
    exact if_neg (hbreak c hc)
  rw [prepare, String.toList_ofList, hflat]
  refine List.rdropWhile_eq_self_iff.mpr fun hne => ?_
  exact Bool.eq_false_iff.mp (hlast _ (List.getLast?_eq_some_getLast hne))

theorem toList_escape (raw : String) : (escape raw).toList = escapeChars (prepare raw) :=
  String.toList_ofList

theorem toList_escape_write {raw : String} {tail : List Char} (ht : tail = [] ∨ tail = ['\\'])
    (hps : .plain '\\' ∉ ps) (hraw : prepare raw = write ps ++ tail) :
    (escape raw).toList = write (convert ps) ∧
      read (escape raw).toList = some (convert ps) := by
  have hescape : (escape raw).toList = write (convert ps) := by
    rw [toList_escape, hraw, escapeChars_write ht hps]
  refine ⟨hescape, ?_⟩
  rw [hescape]
  refine read_write fun hslash => ?_
  rcases mem_convert hslash with hc | ⟨hmem, -⟩
  · simp at hc
  · exact hps hmem

theorem not_isBreak_escape {raw : String} (hc : c ∈ (escape raw).toList) : ¬ IsBreak c := by
  obtain ⟨ps, tail, hraw, hps, htail⟩ := exists_pieces (prepare raw)
  have hbreak (d : Char) (hd : d ∈ write ps) : ¬ IsBreak d :=
    not_isBreak_prepare (hraw ▸ List.mem_append_left tail hd)
  rw [(toList_escape_write (htail.imp And.left And.left) hps hraw).1] at hc
  exact not_isBreak_convert hbreak c hc

/-- An escaped text is the body of a literal: it is read to its end, with no plain quote, and it has
no line break and no tab. If the text has no escaped space and does not break off inside a pair,
then its spaces stand alone, it does not end in a blank, and escaping it again changes nothing. -/
theorem escape_safe_stable (raw : String) :
    (∃ ps, read (escape raw).toList = some ps ∧ write ps = (escape raw).toList ∧
      .plain '"' ∉ ps) ∧
    (∀ c ∈ (escape raw).toList, ¬ IsBreak c) ∧
    ∀ ps, read (prepare raw) = some ps → .pair 's' ∉ ps →
      (∃ qs, read (escape raw).toList = some qs ∧
        qs.IsChain fun p q => ¬ (p = .plain ' ' ∧ q = .plain ' ')) ∧
      (∀ c, (escape raw).toList.getLast? = some c → Text.isBlank c = false) ∧
      escape (escape raw) = escape raw := by
  refine ⟨?_, fun c => not_isBreak_escape, ?_⟩
  · obtain ⟨ps, tail, hraw, hps, htail⟩ := exists_pieces (prepare raw)
    obtain ⟨hescape, hread⟩ := toList_escape_write (htail.imp And.left And.left) hps hraw
    refine ⟨convert ps, hread, hescape.symm, fun hc => ?_⟩
    rcases mem_convert hc with hspace | ⟨-, hquote⟩
    · simp at hspace
    · exact hquote rfl
  · intro ps hread hs
    obtain ⟨hraw, hps⟩ := write_of_read hread
    obtain ⟨hescape, hread'⟩ := toList_escape_write (.inl rfl) hps
      (hraw.symm.trans (List.append_nil _).symm)
    have hlast : (escape raw).toList.getLast? = (prepare raw).getLast? := by
      rw [hescape, getLast?_write_convert hs, hraw]
    have hblank (c : Char) (hc : (escape raw).toList.getLast? = some c) :
        Text.isBlank c = false :=
      getLast?_prepare (hlast ▸ hc)
    refine ⟨⟨_, hread', isChain_convert hs⟩, hblank, ?_⟩
    have hprepare : prepare (escape raw) = write (convert ps) ++ [] := by
      rw [List.append_nil, ← hescape, ← prepare_eq_self (fun c => not_isBreak_escape) hblank,
        String.ofList_toList]
    have hagain := (toList_escape_write (.inl rfl) (write_of_read hread').2 hprepare).1
    apply String.toList_inj.mp
    rw [hagain, convert_convert hs, hescape]

/-- Quotes, a run of spaces with a tab in it, an escaped backslash, and a pair of a backslash and a
space that stays apart from the space behind it. -/
theorem escape_safe_stable_mixed :
    let raw := "say \"a  \tb\"\\\\ \\  c \n"
    read (prepare raw) = some ((String.toList "say \"a   b\"").map .plain ++
      [.pair '\\', .plain ' ', .pair ' ', .plain ' ', .plain 'c']) ∧
    escape raw = "say \\\"a b\\\"\\\\ \\  c" ∧ escape (escape raw) = escape raw :=
  have hread := by decide +kernel
  ⟨hread, by decide +kernel, ((escape_safe_stable _).2.2 _ hread (by decide +kernel)).2.2⟩

end ComponentCompiler.TaggedText
