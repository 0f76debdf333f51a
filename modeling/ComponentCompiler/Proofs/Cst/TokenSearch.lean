import ComponentCompiler.Cst.Sketch
import ComponentCompiler.Proofs.Edit
import ComponentCompiler.Proofs.Text.Encoding
import Mathlib.Order.Bounds.Basic
import Mathlib.Order.Nat

namespace ComponentCompiler.Cst

open Text

variable {source token : String} {start k m n : Nat} {before behind : List UInt8}
  {ts cs pre post : List Char}

def isWordByte (b : UInt8) : Bool :=
  isWordChar (Char.ofUInt8 b)

def Glued (left right : Option UInt8) : Prop :=
  left.any isWordByte ∧ right.any isWordByte

structure Around (source token : String) (n : Nat) (before behind : List UInt8) : Prop where
  source_eq : bytes source = before ++ (bytes token ++ behind)
  length_eq : before.length = n

def OccursAt (source token : String) (n : Nat) : Prop :=
  ∃ before behind, Around source token n before behind

def FreeAt (source token : String) (n : Nat) : Prop :=
  ∃ before behind, Around source token n before behind ∧
    ¬ Glued before.getLast? (bytes token).head? ∧ ¬ Glued (bytes token).getLast? behind.head?

def NextAt (source token : String) (start n : Nat) : Prop :=
  IsLeast {m | start ≤ m ∧ OccursAt source token m} n

/-- The occurrences that are looked at from byte `start` on. Behind a refused one the next is looked
for where the refused one ends. -/
inductive Tried (source token : String) : Nat → Nat → Prop
  | next {start n : Nat} (h : NextAt source token start n) : Tried source token start n
  | behind {start k n : Nat} (h : NextAt source token start k) (hk : ¬ FreeAt source token k)
      (hn : Tried source token (k + byteSize token) n) : Tried source token start n

/-- The answer is the first free occurrence from byte `start` on, or there is none. -/
def FirstFree (source token : String) (start : Nat) : Option Nat → Prop
  | some n => IsLeast {m | start ≤ m ∧ FreeAt source token m} n
  | none => ∀ m, start ≤ m → ¬ FreeAt source token m

theorem Around.unique {before' behind' : List UInt8} (h : Around source token n before behind)
    (h' : Around source token n before' behind') : before = before' ∧ behind = behind' := by
  have hlength : before.length = before'.length := h.length_eq.trans h'.length_eq.symm
  obtain ⟨hb, hrest⟩ := List.append_inj (h.source_eq.symm.trans h'.source_eq) hlength
  exact ⟨hb, List.append_cancel_left hrest⟩

theorem Around.freeAt_iff (h : Around source token n before behind) : FreeAt source token n ↔
    ¬ Glued before.getLast? (bytes token).head? ∧
      ¬ Glued (bytes token).getLast? behind.head? := by
  constructor
  · rintro ⟨before', behind', h', hfree⟩
    obtain ⟨rfl, rfl⟩ := h.unique h'
    exact hfree
  · exact fun hfree => ⟨before, behind, h, hfree⟩

theorem around_of_append (h : source.toList = pre ++ (token.toList ++ post)) :
    Around source token (byteLength pre) (encoded pre) (encoded post) := by
  refine ⟨?_, length_encoded pre⟩
  rw [bytes_eq_encoded, bytes_eq_encoded, h, encoded_append, encoded_append]

theorem FreeAt.occursAt (h : FreeAt source token n) : OccursAt source token n := by
  obtain ⟨before, behind, ha, -⟩ := h
  exact ⟨before, behind, ha⟩

theorem OccursAt.le (h : OccursAt source token n) : n + byteSize token ≤ byteSize source := by
  obtain ⟨before, behind, ha⟩ := h
  have hlength := congrArg List.length ha.source_eq
  rw [List.length_append, List.length_append, length_bytes, length_bytes, ha.length_eq] at hlength
  omega

theorem OccursAt.append (h : OccursAt source token n) (hne : token.toList ≠ []) :
    ∃ pre post, source.toList = pre ++ (token.toList ++ post) ∧ byteLength pre = n := by
  obtain ⟨before, behind, ha⟩ := h
  have hbytes := ha.source_eq
  rw [bytes_eq_encoded, bytes_eq_encoded] at hbytes
  obtain ⟨pre, post, hsource, hpre, -⟩ := append_of_bytes_append hne hbytes.symm
  exact ⟨pre, post, hsource, by rw [← length_encoded, ← hpre, ha.length_eq]⟩

theorem lt_of_isWordChar {c : Char} (h : isWordChar c) : c.toNat < 128 := by
  delta isWordChar Char.isAlphanum Char.isAlpha Char.isUpper Char.isLower Char.isDigit at h
  simp only [Bool.or_eq_true, Bool.and_eq_true, decide_eq_true_eq, beq_iff_eq,
    UInt32.le_iff_toNat_le, ge_iff_le] at h
  have hval : c.val.toNat = c.toNat := rfl
  have hlast : 'Z'.val.toNat < 128 ∧ 'z'.val.toNat < 128 ∧ '9'.val.toNat < 128 := by decide
  rw [hval] at h
  rcases h with (h | rfl) | rfl
  · omega
  · decide
  · decide

theorem toNat_ofUInt8 (b : UInt8) : (Char.ofUInt8 b).toNat = b.toNat :=
  UInt8.toNat_toUInt32 b

theorem isWordByte_of_ge {b : UInt8} (h : 128 ≤ b.toNat) : isWordByte b = false := by
  rw [Bool.eq_false_iff]
  intro hword
  have hlt := lt_of_isWordChar hword
  rw [toNat_ofUInt8] at hlt
  omega

theorem isWordByte_ofNat {c : Char} (h : c.toNat < 128) :
    isWordByte (UInt8.ofNat c.toNat) = isWordChar c := by
  have hc : Char.ofUInt8 (UInt8.ofNat c.toNat) = c := by
    rw [← Char.toNat_inj, toNat_ofUInt8, UInt8.toNat_ofNat', Nat.mod_eq_of_lt (by omega)]
  rw [isWordByte, hc]

theorem any_isWordByte_encode (c : Char) :
    (String.utf8EncodeChar c).head?.any isWordByte = isWordChar c ∧
      (String.utf8EncodeChar c).getLast?.any isWordByte = isWordChar c := by
  rcases encode_cases c with ⟨hc, he⟩ | ⟨hc, he⟩
  · simp [he, isWordByte_ofNat hc]
  · have hword : isWordChar c = false := by
      rw [Bool.eq_false_iff]
      exact fun h => absurd (lt_of_isWordChar h) (by omega)
    have hnone (o : Option UInt8) (ho : ∀ b, o = some b → b ∈ String.utf8EncodeChar c) :
        o.any isWordByte = false := by
      cases o with
      | none => rfl
      | some b => exact isWordByte_of_ge (he b (ho b rfl))
    rw [hword]
    exact ⟨hnone _ fun b => List.mem_of_head?, hnone _ fun b => List.mem_of_getLast?⟩

theorem any_head?_encoded (cs : List Char) :
    (encoded cs).head?.any isWordByte = cs.head?.any isWordChar := by
  cases cs with
  | nil => rfl
  | cons c cs =>
    rw [encoded_cons, List.head?_append_of_ne_nil _ String.utf8EncodeChar_ne_nil]
    exact (any_isWordByte_encode c).1

theorem any_getLast?_encoded (cs : List Char) :
    (encoded cs).getLast?.any isWordByte = cs.getLast?.any isWordChar := by
  rcases List.eq_nil_or_concat' cs with rfl | ⟨cs, c, rfl⟩
  · rfl
  · have hone : encoded [c] = String.utf8EncodeChar c := by simp [encoded]
    rw [encoded_append, hone, List.getLast?_append_of_ne_nil _ String.utf8EncodeChar_ne_nil,
      List.getLast?_append]
    exact (any_isWordByte_encode c).2

/-- The test on the characters around a token is the one on the bytes. -/
theorem isFree_iff (h : source.toList = pre ++ (token.toList ++ post)) :
    isFree token.toList pre.getLast? post.head? ↔ FreeAt source token (byteLength pre) := by
  rw [(around_of_append h).freeAt_iff, bytes_eq_encoded, Glued, Glued, any_getLast?_encoded,
    any_head?_encoded, any_getLast?_encoded, any_head?_encoded, isFree]
  grind

theorem occursAt_iff (h : source.toList = pre ++ cs) :
    OccursAt source token (byteLength pre) ↔ token.toList <+: cs := by
  constructor
  · rintro ⟨before, behind, ha⟩
    have hbytes := ha.source_eq
    rw [bytes_eq_encoded, bytes_eq_encoded, h, encoded_append] at hbytes
    obtain ⟨-, hrest⟩ := List.append_inj hbytes ((length_encoded pre).trans ha.length_eq.symm)
    obtain ⟨rest, hcs, -⟩ := append_of_encoded_append hrest.symm
    exact ⟨rest, hcs.symm⟩
  · rintro ⟨post, rfl⟩
    exact ⟨_, _, around_of_append h⟩

section Scan

variable {last : Option Char} {offset : Nat}

theorem scanToken_skip (ts ds cs : List Char) (last : Option Char) (offset : Nat) :
    scanToken ts ds.length last offset (ds ++ cs) =
      scanToken ts 0 (ds.getLast?.or last) (offset + byteLength ds) cs := by
  induction ds generalizing last offset with
  | nil => rfl
  | cons d ds ih =>
    rw [List.length_cons, List.cons_append, scanToken, ih, List.getLast?_cons, byteLength,
      Nat.add_assoc]
    cases ds.getLast? <;> rfl

theorem scanToken_free (hts : ts <+: cs) (hfree : isFree ts last (cs.drop ts.length).head?) :
    scanToken ts 0 last offset cs = some offset := by
  cases cs with
  | nil =>
    obtain rfl := List.prefix_nil.mp hts
    simp_all [scanToken]
  | cons c cs =>
    rw [scanToken, if_pos (List.isPrefixOf_iff_prefix.mpr hts), if_pos hfree]

theorem scanToken_refused (hfree : ¬ isFree ts last post.head?) :
    scanToken ts 0 last offset (ts ++ post) =
      scanToken ts 0 (ts.getLast?.or last) (offset + byteLength ts) post := by
  cases ts with
  | nil => simp [isFree] at hfree
  | cons t ts =>
    have hts : (t :: ts).isPrefixOf (t :: (ts ++ post)) :=
      List.isPrefixOf_iff_prefix.mpr (List.prefix_append (t :: ts) post)
    have hdrop : ((t :: ts) ++ post).drop (t :: ts).length = post := List.drop_left
    rw [List.cons_append] at hdrop
    rw [List.cons_append, scanToken, if_pos hts, hdrop, if_neg hfree, List.length_cons,
      Nat.add_sub_cancel, scanToken_skip, List.getLast?_cons, byteLength, Nat.add_assoc]
    cases ts.getLast? <;> rfl

theorem scanToken_past {c : Char} (hts : ¬ ts <+: c :: cs) :
    scanToken ts 0 last offset (c :: cs) =
      scanToken ts 0 (some c) (offset + c.utf8Size) cs := by
  rw [scanToken, if_neg fun h => hts (List.isPrefixOf_iff_prefix.mp h)]

end Scan

theorem tried_iff : Tried source token start n ↔ ∃ k, NextAt source token start k ∧
    (n = k ∨ ¬ FreeAt source token k ∧ Tried source token (k + byteSize token) n) := by
  constructor
  · intro h
    cases h with
    | next h => exact ⟨n, h, .inl rfl⟩
    | behind h hk hn => exact ⟨_, h, .inr ⟨hk, hn⟩⟩
  · rintro ⟨k, h, rfl | ⟨hk, hn⟩⟩
    · exact .next h
    · exact .behind h hk hn

theorem Tried.occursAt (h : Tried source token start n) :
    start ≤ n ∧ OccursAt source token n := by
  induction h with
  | next h => exact h.1
  | behind h _ _ ih =>
    have hk := h.1.1
    exact ⟨by omega, ih.2⟩

theorem nextAt_iff_of_occursAt (h : OccursAt source token start) :
    NextAt source token start k ↔ k = start := by
  constructor
  · exact fun hk => Nat.le_antisymm (hk.2 ⟨Nat.le_refl start, h⟩) hk.1.1
  · rintro rfl
    exact ⟨⟨Nat.le_refl k, h⟩, fun m hm => hm.1⟩

/-- A token that does not occur where a character starts occurs only behind this character. -/
theorem nextAt_iff_behind {c : Char} (h : source.toList = pre ++ c :: cs)
    (hts : ¬ token.toList <+: c :: cs) :
    NextAt source token (byteLength pre) k ↔ NextAt source token (byteLength (pre ++ [c])) k := by
  have hsets : {m | byteLength pre ≤ m ∧ OccursAt source token m} =
      {m | byteLength (pre ++ [c]) ≤ m ∧ OccursAt source token m} := by
    ext m
    refine and_congr_left fun hm => ⟨fun hle => ?_, fun hle => ?_⟩
    · have hne : token.toList ≠ [] := fun he => hts (he ▸ List.nil_prefix)
      obtain ⟨before, post, hs, rfl⟩ := hm.append hne
      obtain ⟨gap, rfl, hgap⟩ := append_of_byteLength_le (h.symm.trans hs) hle
      cases gap with
      | nil => exact absurd ⟨post, hgap.symm⟩ hts
      | cons g gap =>
        obtain rfl : c = g := (List.cons.inj hgap).1
        simp only [byteLength_append, byteLength]
        omega
    · rw [byteLength_append] at hle
      omega
  rw [NextAt, NextAt, hsets]

/-- The search goes through the occurrences that are tried, up to the first free one. -/
theorem scanToken_eq_some_iff (h : source.toList = pre ++ cs) :
    scanToken token.toList 0 pre.getLast? (byteLength pre) cs = some n ↔
      Tried source token (byteLength pre) n ∧ FreeAt source token n := by
  induction hlength : cs.length using Nat.strong_induction_on generalizing pre cs with
  | _ length ih =>
    subst hlength
    by_cases hts : token.toList <+: cs
    · have hoccurs := (occursAt_iff h).mpr hts
      obtain ⟨post, rfl⟩ := hts
      rw [tried_iff]
      simp only [nextAt_iff_of_occursAt hoccurs, exists_eq_left]
      by_cases hfree : isFree token.toList pre.getLast? post.head?
      · have hhere := (isFree_iff h).mp hfree
        rw [scanToken_free (List.prefix_append _ _) (by rwa [List.drop_left]), Option.some_inj]
        constructor
        · rintro rfl
          exact ⟨.inl rfl, hhere⟩
        · rintro ⟨rfl | ⟨hrefused, -⟩, -⟩
          · rfl
          · exact absurd hhere hrefused
      · have hrefused := mt (isFree_iff h).mpr hfree
        have hshort : post.length < (token.toList ++ post).length := by
          cases hnil : token.toList with
          | nil => simp [hnil, isFree] at hfree
          | cons t ts =>
            rw [List.length_append, List.length_cons]
            omega
        have hrest := ih post.length hshort (h.trans (List.append_assoc ..).symm) rfl
        rw [byteLength_append, List.getLast?_append] at hrest
        rw [scanToken_refused hfree, hrest]
        constructor
        · exact fun ⟨htried, hfound⟩ => ⟨.inr ⟨hrefused, htried⟩, hfound⟩
        · rintro ⟨rfl | ⟨-, htried⟩, hfound⟩
          · exact absurd hfound hrefused
          · exact ⟨htried, hfound⟩
    · cases cs with
      | nil =>
        have hne : token.toList ≠ [] := fun he => hts (he ▸ List.nil_prefix)
        refine iff_of_false (by simp [scanToken, hne]) fun hfound => ?_
        obtain ⟨hle, hoccurs⟩ := hfound.1.occursAt
        have hend := hoccurs.le
        rw [List.append_nil] at h
        rw [byteSize, byteSize, h] at hend
        exact hne (byteLength_eq_zero (by omega))
      | cons c cs =>
        have hsource : source.toList = (pre ++ [c]) ++ cs := by simp [h]
        have hrest := ih cs.length (by simp) hsource rfl
        rw [tried_iff] at hrest ⊢
        simp only [nextAt_iff_behind h hts]
        rw [scanToken_past hts, ← hrest, List.getLast?_concat, byteLength_append]
        rfl

theorem findToken_eq_some_iff (hb : IsBoundary source start) :
    findToken source start token = some n ↔
      Tried source token start n ∧ FreeAt source token n := by
  obtain ⟨passed, rest, hs, rfl⟩ := hb
  have hfind : findToken source (byteLength passed) token =
      scanToken token.toList 0 passed.getLast? (byteLength passed) rest := by
    simp only [findToken, hs, takeBytes_append, dropBytes_append]
    rfl
  rw [hfind, scanToken_eq_some_iff hs]

theorem exists_nextAt (hm : start ≤ m) (h : OccursAt source token m) :
    ∃ k, k ≤ m ∧ NextAt source token start k := by
  classical
  have hex : ∃ k, start ≤ k ∧ OccursAt source token k := ⟨m, hm, h⟩
  exact ⟨Nat.find hex, Nat.find_min' hex ⟨hm, h⟩, Nat.isLeast_find hex⟩

theorem freeAt_of_empty (he : token.toList = []) (h : OccursAt source token n) :
    FreeAt source token n := by
  obtain ⟨before, behind, ha⟩ := h
  rw [ha.freeAt_iff, bytes_eq_encoded, he]
  exact ⟨fun hg => Bool.false_ne_true hg.2, fun hg => Bool.false_ne_true hg.1⟩

theorem byteSize_pos_of_refused (h : OccursAt source token n) (hn : ¬ FreeAt source token n) :
    0 < byteSize token := by
  refine Nat.pos_of_ne_zero fun hzero => hn (freeAt_of_empty (byteLength_eq_zero hzero) h)

/-- An occurrence is tried, or the search stops before it, or it starts inside a refused one. -/
theorem tried_or (hm : start ≤ m) (h : OccursAt source token m) :
    Tried source token start m ∨ ∃ k, Tried source token start k ∧ k < m ∧
      (¬ FreeAt source token k → m < k + byteSize token) := by
  induction hd : m - start using Nat.strong_induction_on generalizing start with
  | _ distance ih =>
    obtain ⟨k, hkm, hk⟩ := exists_nextAt hm h
    rcases Nat.eq_or_lt_of_le hkm with rfl | hlt
    · exact .inl (.next hk)
    · by_cases hfree : FreeAt source token k
      · exact .inr ⟨k, .next hk, hlt, fun hn => absurd hfree hn⟩
      · by_cases hin : m < k + byteSize token
        · exact .inr ⟨k, .next hk, hlt, fun _ => hin⟩
        · have hpos := byteSize_pos_of_refused hk.1.2 hfree
          have hstart := hk.1.1
          have hbehind : k + byteSize token ≤ m := by omega
          rcases ih (m - (k + byteSize token)) (by omega) hbehind rfl with
            htried | ⟨j, hj, hjm, hjin⟩
          · exact .inl (.behind hk hfree htried)
          · exact .inr ⟨j, .behind hk hfree hj, hjm, hjin⟩

/-- Two occurrences of a token that share a part. The second one starts behind `head`, inside the
first one, and the first one is followed by `tail`. The second one can be free and the first one
refused. -/
structure Overlap (token head shared tail : String) : Prop where
  head_ne : head ≠ ""
  shared_ne : shared ≠ ""
  eq_head : token = head ++ shared
  eq_tail : token = shared ++ tail
  second_free : ¬ Glued (bytes head).getLast? (bytes token).head?
  first_refused : (bytes token).head?.any isWordByte ∨
    Glued (bytes token).getLast? (bytes tail).head?

def CanHide (token : String) : Prop :=
  ∃ head shared tail, Overlap token head shared tail

theorem encoded_ne_nil (h : cs ≠ []) : encoded cs ≠ [] := by
  obtain ⟨c, cs, rfl⟩ := List.exists_cons_of_ne_nil h
  rw [encoded_cons]
  exact List.append_ne_nil_of_left_ne_nil String.utf8EncodeChar_ne_nil _

theorem canHide_of_inside (hk : OccursAt source token k) (hrefused : ¬ FreeAt source token k)
    (hm : FreeAt source token m) (hkm : k < m) (hin : m < k + byteSize token) : CanHide token := by
  have hne : token.toList ≠ [] := fun he => hrefused (freeAt_of_empty he hk)
  obtain ⟨pre, post, hs, rfl⟩ := hk.append hne
  obtain ⟨pre', post', hs', rfl⟩ := hm.occursAt.append hne
  obtain ⟨head, rfl, hhead⟩ := append_of_byteLength_le (hs.symm.trans hs') (by omega)
  rw [byteLength_append] at hkm hin
  rw [byteSize] at hin
  obtain ⟨shared, htoken, hshared⟩ := append_of_byteLength_le hhead.symm (by omega)
  have hsum := congrArg byteLength htoken
  rw [byteLength_append] at hsum
  obtain ⟨tail, htoken', rfl⟩ := append_of_byteLength_le hshared.symm (by omega)
  have hsum' := congrArg byteLength htoken'
  rw [byteLength_append] at hsum'
  have nonempty {part : List Char} (h : 0 < byteLength part) : part ≠ [] := by
    rintro rfl
    exact Nat.lt_irrefl 0 h
  rw [(around_of_append hs).freeAt_iff, not_and_or, not_not, not_not] at hrefused
  rw [(around_of_append hs').freeAt_iff, encoded_append,
    List.getLast?_append_of_ne_nil _ (encoded_ne_nil (nonempty (by omega)))] at hm
  rw [encoded_append, List.head?_append_of_ne_nil _ (encoded_ne_nil (nonempty (by omega)))]
    at hrefused
  have ofList_ne {part : List Char} (h : 0 < byteLength part) : String.ofList part ≠ "" := fun he =>
    nonempty h (String.toList_eq_nil_iff.mpr he ▸ String.toList_ofList.symm)
  refine ⟨String.ofList head, String.ofList shared, String.ofList tail, ofList_ne (by omega),
    ofList_ne (by omega), ?_, ?_, ?_, ?_⟩
  · rw [← String.ofList_append, ← htoken, String.ofList_toList]
  · rw [← String.ofList_append, ← htoken', String.ofList_toList]
  · rw [bytes_eq_encoded (String.ofList head), String.toList_ofList]
    exact hm.1
  · rw [bytes_eq_encoded (String.ofList tail), String.toList_ofList]
    exact hrefused.imp_left fun hg => hg.2

theorem isBoundary_zero (source : String) : IsBoundary source 0 :=
  ⟨[], source.toList, rfl, rfl⟩

theorem firstFree_iff (hb : IsBoundary source start) :
    FirstFree source token start (findToken source start token) ↔
      ∀ n, IsLeast {m | start ≤ m ∧ FreeAt source token m} n → Tried source token start n := by
  constructor
  · intro h n hn
    cases hfound : findToken source start token with
    | none =>
      rw [hfound] at h
      exact absurd hn.1.2 (h n hn.1.1)
    | some k =>
      rw [hfound] at h
      obtain rfl := IsLeast.unique h hn
      exact ((findToken_eq_some_iff hb).mp hfound).1
  · intro h
    by_cases hex : ∃ m, start ≤ m ∧ FreeAt source token m
    · classical
      have hleast := Nat.isLeast_find hex
      rw [(findToken_eq_some_iff hb).mpr ⟨h _ hleast, hleast.1.2⟩]
      exact hleast
    · cases hfound : findToken source start token with
      | none => exact fun m hm hfree => hex ⟨m, hm, hfree⟩
      | some k =>
        obtain ⟨htried, hfree⟩ := (findToken_eq_some_iff hb).mp hfound
        exact absurd ⟨k, htried.occursAt.1, hfree⟩ hex

theorem firstFree_of_not_canHide (hb : IsBoundary source start) (h : ¬ CanHide token) :
    FirstFree source token start (findToken source start token) := by
  rw [firstFree_iff hb]
  intro n hn
  rcases tried_or hn.1.1 hn.1.2.occursAt with htried | ⟨k, hk, hlt, hin⟩
  · exact htried
  · obtain ⟨hstart, hoccurs⟩ := hk.occursAt
    have hrefused : ¬ FreeAt source token k := fun hfree =>
      absurd (hn.2 ⟨hstart, hfree⟩) (by omega)
    exact absurd (canHide_of_inside hoccurs hrefused hn.1.2 hlt (hin hrefused)) h

section Overlap

variable {lead head shared tail : String}

theorem byteSize_append (s t : String) : byteSize (s ++ t) = byteSize s + byteSize t := by
  rw [byteSize, String.toList_append, byteLength_append, byteSize, byteSize]

theorem Overlap.head_lt (h : Overlap token head shared tail) : byteSize head < byteSize token := by
  have hshared : byteSize shared ≠ 0 := fun hzero =>
    h.shared_ne (String.toList_eq_nil_iff.mp (byteLength_eq_zero hzero))
  rw [h.eq_head, byteSize_append]
  omega

theorem Overlap.append_eq (h : Overlap token head shared tail) : head ++ token = token ++ tail := by
  nth_rewrite 1 [h.eq_tail]
  rw [← String.append_assoc, ← h.eq_head]

theorem Overlap.around (h : Overlap token head shared tail) (lead : String) :
    Around (lead ++ (head ++ token)) token (byteSize lead) (bytes lead) (bytes tail) := by
  rw [bytes_eq_encoded lead, bytes_eq_encoded tail]
  refine around_of_append ?_
  rw [h.append_eq, String.toList_append, String.toList_append]

theorem Overlap.freeAt_second (h : Overlap token head shared tail) (lead : String) :
    FreeAt (lead ++ (head ++ token)) token (byteSize (lead ++ head)) := by
  have hsource : (lead ++ (head ++ token)).toList =
      (lead ++ head).toList ++ (token.toList ++ []) := by
    rw [List.append_nil, ← String.toList_append, String.append_assoc]
  have hne : head.toList ≠ [] := fun he => h.head_ne (String.toList_eq_nil_iff.mp he)
  rw [byteSize, (around_of_append hsource).freeAt_iff, String.toList_append, encoded_append,
    List.getLast?_append_of_ne_nil _ (encoded_ne_nil hne), ← bytes_eq_encoded]
  exact ⟨h.second_free, fun hg => Bool.false_ne_true hg.2⟩

/-- If the first of two overlapping occurrences is refused, the second one is overlooked. -/
theorem Overlap.not_firstFree (h : Overlap token head shared tail)
    (hs : source = lead ++ (head ++ token))
    (hfirst : ∀ k, OccursAt source token k → byteSize lead ≤ k)
    (hrefused : ¬ FreeAt source token (byteSize lead)) :
    ¬ FirstFree source token 0 (findToken source 0 token) := by
  have hnone : findToken source 0 token = none := by
    rw [Option.eq_none_iff_forall_ne_some]
    intro n hfound
    obtain ⟨htried, hfree⟩ := (findToken_eq_some_iff (isBoundary_zero source)).mp hfound
    have hoccurs : OccursAt source token (byteSize lead) := hs ▸ ⟨_, _, h.around lead⟩
    obtain ⟨k, hk, rfl | ⟨-, hbehind⟩⟩ := tried_iff.mp htried
    · obtain rfl : n = byteSize lead :=
        Nat.le_antisymm (hk.2 ⟨Nat.zero_le _, hoccurs⟩) (hfirst n hk.1.2)
      exact hrefused hfree
    · -- Behind the first occurrence the source is too short for another one.
      obtain ⟨hle, hn⟩ := hbehind.occursAt
      have hlead := hfirst k hk.1.2
      have hend := hn.le
      have hlt := h.head_lt
      rw [hs, byteSize_append, byteSize_append] at hend
      omega
  rw [hnone]
  exact fun hfree => hfree _ (Nat.zero_le _) (hs ▸ h.freeAt_second lead)

theorem exists_hidden (h : CanHide token) :
    ∃ source, ¬ FirstFree source token 0 (findToken source 0 token) := by
  obtain ⟨head, shared, tail, ho⟩ := h
  by_cases hword : (bytes token).head?.any isWordByte
  · -- A word that ends right before the first occurrence makes it refused.
    obtain ⟨lead, hsize, hlead, hother⟩ : ∃ lead : String, byteSize lead = 1 ∧
        (bytes lead).getLast?.any isWordByte ∧ (bytes lead).head? ≠ (bytes token).head? := by
      by_cases ha : (bytes token).head? = some 97
      · exact ⟨"b", by decide, by decide, by rw [ha]; decide⟩
      · exact ⟨"a", by decide, by decide, fun he => ha (he.symm.trans (by decide))⟩
    refine ⟨lead ++ (head ++ token), ho.not_firstFree rfl (fun k hk => ?_) ?_⟩
    · by_contra hlt
      obtain ⟨before, behind, ha⟩ := hk
      obtain rfl : before = [] := List.eq_nil_of_length_eq_zero (by rw [ha.length_eq]; omega)
      have hnonempty : bytes lead ≠ [] := List.ne_nil_of_length_pos (by rw [length_bytes]; omega)
      have htoken : bytes token ≠ [] := fun he => by simp [he] at hword
      have heads := congrArg List.head? ((ho.around lead).source_eq.symm.trans ha.source_eq)
      rw [List.head?_append_of_ne_nil _ hnonempty, List.nil_append,
        List.head?_append_of_ne_nil _ htoken] at heads
      exact hother heads
    · rw [(ho.around lead).freeAt_iff]
      exact fun hfree => hfree.1 ⟨hlead, hword⟩
  · refine ⟨"" ++ (head ++ token), ho.not_firstFree rfl (fun k _ => Nat.zero_le k) ?_⟩
    rw [(ho.around "").freeAt_iff]
    exact fun hfree => hfree.2 (ho.first_refused.resolve_left hword)

end Overlap

/-- Occurrences of a word that overlap are glued to each other. -/
theorem not_canHide_of_word (h : ∀ c ∈ token.toList, isWordChar c) : ¬ CanHide token := by
  have hany (o : Option Char) (ho : o ≠ none) (hmem : ∀ c, o = some c → c ∈ token.toList) :
      o.any isWordChar := by
    cases o with
    | none => exact absurd rfl ho
    | some c => exact h c (hmem c rfl)
  rintro ⟨head, shared, tail, ho⟩
  have hhead : head.toList ≠ [] := fun he => ho.head_ne (String.toList_eq_nil_iff.mp he)
  have hparts : token.toList = head.toList ++ shared.toList := by
    rw [ho.eq_head, String.toList_append]
  refine ho.second_free ⟨?_, ?_⟩
  · rw [bytes_eq_encoded, any_getLast?_encoded]
    refine hany _ (by simpa using hhead) fun c hc => ?_
    rw [hparts]
    exact List.mem_append_left _ (List.mem_of_getLast? hc)
  · rw [bytes_eq_encoded, any_head?_encoded]
    exact hany _ (by simp [hparts, hhead]) fun c hc => List.mem_of_head? hc

/-- What the search for a token finds. The answer is the first free occurrence that is tried. It is
the first of all free ones exactly if this one is tried, and so it is in every source exactly if no
free occurrence of the token can start inside a refused one. -/
theorem findToken_first_free (token : String) :
    (∀ source start, IsBoundary source start →
      (∀ n, findToken source start token = some n ↔
        Tried source token start n ∧ FreeAt source token n) ∧
      (FirstFree source token start (findToken source start token) ↔
        ∀ n, IsLeast {m | start ≤ m ∧ FreeAt source token m} n → Tried source token start n)) ∧
    ((∀ source start, IsBoundary source start →
      FirstFree source token start (findToken source start token)) ↔ ¬ CanHide token) := by
  refine ⟨fun source start hb => ⟨fun n => findToken_eq_some_iff hb, firstFree_iff hb⟩, ?_, ?_⟩
  · intro h hhide
    obtain ⟨source, hs⟩ := exists_hidden hhide
    exact hs (h source 0 (isBoundary_zero source))
  · exact fun h source start hb => firstFree_of_not_canHide hb h

theorem doubled_found : IsBoundary "baa aa" 0 ∧ ¬ CanHide "aa" ∧
    findToken "baa aa" 0 "aa" = some 4 ∧
    IsLeast {m | 0 ≤ m ∧ FreeAt "baa aa" "aa" m} 4 := by
  have hword : "aa".toList.all isWordChar := by decide
  have hhide : ¬ CanHide "aa" := not_canHide_of_word (List.all_eq_true.mp hword)
  have hfound : findToken "baa aa" 0 "aa" = some 4 := by decide
  have hfirst := (findToken_first_free "aa").2.mpr hhide "baa aa" 0
    (isBoundary_zero "baa aa")
  rw [hfound] at hfirst
  exact ⟨isBoundary_zero "baa aa", hhide, hfound, hfirst⟩

/-- The occurrence at byte 1 is glued to a word, and the free one at byte 3 starts inside it. -/
theorem dotted_overlooked : IsBoundary "ba.a.a" 0 ∧ findToken "ba.a.a" 0 "a.a" = none ∧
    FreeAt "ba.a.a" "a.a" 3 ∧ ¬ FirstFree "ba.a.a" "a.a" 0 (findToken "ba.a.a" 0 "a.a") := by
  have hnone : findToken "ba.a.a" 0 "a.a" = none := by decide
  have hsource : "ba.a.a".toList = ['b', 'a', '.'] ++ ("a.a".toList ++ []) := by decide
  have hfree : FreeAt "ba.a.a" "a.a" 3 := (isFree_iff hsource).mp (by decide)
  refine ⟨isBoundary_zero "ba.a.a", hnone, hfree, ?_⟩
  rw [hnone]
  exact fun h => h 3 (Nat.zero_le 3) hfree

end ComponentCompiler.Cst
