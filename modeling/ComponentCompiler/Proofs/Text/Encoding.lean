import ComponentCompiler.Proofs.Text.ByteOrder
import ComponentCompiler.Text.Bytes

namespace ComponentCompiler.Text

variable {c d : Char} {cs ds : List Char} {b : UInt8} {before behind : List UInt8}

def encoded (cs : List Char) : List UInt8 :=
  cs.flatMap String.utf8EncodeChar

theorem bytes_eq_encoded (s : String) : bytes s = encoded s.toList :=
  bytes_eq_flatMap s

theorem encoded_cons (c : Char) (cs : List Char) :
    encoded (c :: cs) = String.utf8EncodeChar c ++ encoded cs :=
  List.flatMap_cons

theorem encoded_append (cs ds : List Char) : encoded (cs ++ ds) = encoded cs ++ encoded ds :=
  List.flatMap_append

theorem length_encoded (cs : List Char) : (encoded cs).length = byteLength cs := by
  induction cs with
  | nil => rfl
  | cons c cs ih =>
    rw [encoded_cons, List.length_append, String.length_utf8EncodeChar, ih, byteLength]

theorem length_bytes (s : String) : (bytes s).length = byteSize s := by
  rw [bytes_eq_encoded, length_encoded, byteSize]

/-- A character is one byte below 128, or all its bytes are at least 128. -/
theorem encode_cases (c : Char) :
    c.toNat < 128 ∧ String.utf8EncodeChar c = [UInt8.ofNat c.toNat] ∨
      128 ≤ c.toNat ∧ ∀ b ∈ String.utf8EncodeChar c, 128 ≤ b.toNat := by
  have hbyte (n : Nat) (h : 128 ≤ n) (h' : n < 256) : 128 ≤ (UInt8.ofNat n).toNat := by
    rw [UInt8.toNat_ofNat', Nat.mod_eq_of_lt h']
    exact h
  have hnat : c.val.toNat = c.toNat := rfl
  unfold String.utf8EncodeChar
  dsimp only
  rw [hnat]
  split_ifs with h
  · exact .inl ⟨by omega, rfl⟩
  all_goals
    refine .inr ⟨by omega, ?_⟩
    simp (disch := omega) only [List.forall_mem_cons, hbyte, List.not_mem_nil, false_implies,
      implies_true, and_self]

theorem eq_of_encode_append_eq (h : String.utf8EncodeChar c ++ before =
    String.utf8EncodeChar d ++ behind) : c = d := by
  by_contra hne
  have hval : c.toNat ≠ d.toNat := fun he => hne (Char.toNat_inj.mp he)
  rcases Nat.lt_or_gt_of_ne hval with hlt | hlt
  · exact List.lt_irrefl _ (h ▸ encode_lt_encode hlt before behind)
  · exact List.lt_irrefl _ (h ▸ encode_lt_encode hlt behind before)

theorem append_of_encoded_append (h : encoded cs ++ behind = encoded ds) :
    ∃ rest, ds = cs ++ rest ∧ behind = encoded rest := by
  induction cs generalizing ds with
  | nil => exact ⟨ds, rfl, h⟩
  | cons c cs ih =>
    cases ds with
    | nil => simp [String.utf8EncodeChar_ne_nil, encoded] at h
    | cons d ds =>
      rw [encoded_cons, encoded_cons, List.append_assoc] at h
      obtain rfl := eq_of_encode_append_eq h
      obtain ⟨rest, rfl, hr⟩ := ih (List.append_cancel_left h)
      exact ⟨rest, rfl, hr⟩

/-- No character starts inside another one. -/
theorem not_starts_inside (h : String.utf8EncodeChar c = before ++ behind) (hb : before ≠ [])
    {rest rest' : List UInt8} (hne : behind ≠ []) :
    behind ++ rest ≠ String.utf8EncodeChar d ++ rest' := by
  intro heq
  obtain ⟨x, tail, rfl⟩ := List.exists_cons_of_ne_nil hne
  obtain ⟨y, more, hd⟩ := List.exists_cons_of_ne_nil (String.utf8EncodeChar_ne_nil (c := d))
  obtain rfl : x = y := by simpa [hd] using congrArg List.head? heq
  have hfirst : x.IsUTF8FirstByte := by
    have h0 := UInt8.isUTF8FirstByte_getElem_zero_utf8EncodeChar (c := d)
    simpa [hd] using h0
  have hlt : before.length < (String.utf8EncodeChar c).length := by simp [h]
  have hget : (String.utf8EncodeChar c)[before.length] = x := by simp [h]
  rw [← hget, UInt8.isUTF8FirstByte_getElem_utf8EncodeChar] at hfirst
  exact hb (List.eq_nil_of_length_eq_zero hfirst)

theorem append_of_bytes_append (hne : ds ≠ []) (h : before ++ (encoded ds ++ behind) = encoded cs) :
    ∃ pre rest, cs = pre ++ (ds ++ rest) ∧ before = encoded pre ∧ behind = encoded rest := by
  induction cs generalizing before with
  | nil =>
    obtain ⟨d, ds, rfl⟩ := List.exists_cons_of_ne_nil hne
    simp [String.utf8EncodeChar_ne_nil, encoded] at h
  | cons c cs ih =>
    rw [encoded_cons] at h
    by_cases hb : before = []
    · obtain ⟨rest, hcs, hr⟩ := append_of_encoded_append (hb ▸ h.trans (encoded_cons c cs).symm)
      exact ⟨[], rest, hcs, hb, hr⟩
    · rcases List.append_eq_append_iff.mp h with ⟨gap, hc, hgap⟩ | ⟨more, hbefore, hmore⟩
      · by_cases hg : gap = []
        · subst hg
          obtain ⟨rest, rfl, hr⟩ := append_of_encoded_append (hgap.trans (List.nil_append _))
          exact ⟨[c], rest, rfl, by simp [encoded, hc], hr⟩
        · obtain ⟨d, ds, rfl⟩ := List.exists_cons_of_ne_nil hne
          rw [encoded_cons, List.append_assoc] at hgap
          exact absurd hgap.symm (not_starts_inside hc hb hg)
      · obtain ⟨pre, rest, rfl, rfl, hr⟩ := ih hmore.symm
        exact ⟨c :: pre, rest, rfl, hbefore, hr⟩

theorem encode_of_lt (h : c.toNat < 128) : String.utf8EncodeChar c = [UInt8.ofNat c.toNat] := by
  rcases encode_cases c with ⟨-, he⟩ | ⟨hge, -⟩
  · exact he
  · omega

theorem mem_encode_iff (hb : b.toNat < 128) : b ∈ String.utf8EncodeChar c ↔ c.toNat = b.toNat := by
  rcases encode_cases c with ⟨hc, he⟩ | ⟨hc, he⟩
  · rw [he, List.mem_singleton, ← UInt8.toNat_inj, UInt8.toNat_ofNat', Nat.mod_eq_of_lt (by omega)]
    exact eq_comm
  · exact iff_of_false (fun h => by have := he b h; omega) (by omega)

theorem mem_encoded_iff (hb : b.toNat < 128) (hc : c.toNat = b.toNat) :
    b ∈ encoded cs ↔ c ∈ cs := by
  simp only [encoded, List.mem_flatMap, mem_encode_iff hb, ← hc, Char.toNat_inj, exists_eq_right]

theorem count_encoded (hb : b.toNat < 128) (hc : c.toNat = b.toNat) :
    (encoded cs).count b = cs.count c := by
  induction cs with
  | nil => rfl
  | cons d cs ih =>
    have hone : (String.utf8EncodeChar d).count b = if d == c then 1 else 0 := by
      by_cases hd : d = c
      · subst hd
        rw [encode_of_lt (by omega), hc, UInt8.ofNat_toNat]
        simp
      · rw [List.count_eq_zero.mpr, if_neg (by simpa using hd)]
        rw [mem_encode_iff hb, ← hc, Char.toNat_inj]
        exact hd
    rw [encoded_cons, List.count_append, ih, List.count_cons, hone, Nat.add_comm]

end ComponentCompiler.Text
