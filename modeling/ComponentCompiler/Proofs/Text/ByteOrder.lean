import Mathlib.Order.Basic

namespace ComponentCompiler.Text

def bytes (s : String) : List UInt8 :=
  s.toByteArray.data.toList

theorem bytes_eq_flatMap (s : String) : bytes s = s.toList.flatMap String.utf8EncodeChar := by
  unfold bytes
  rw [← String.utf8Encode_toList]
  simp [List.utf8Encode]

theorem byte_lt_byte {m n : Nat} (hm : m < 256) (hn : n < 256) :
    UInt8.ofNat m < UInt8.ofNat n ↔ m < n := by
  rw [UInt8.lt_iff_toNat_lt, UInt8.toNat_ofNat', UInt8.toNat_ofNat', Nat.mod_eq_of_lt hm,
    Nat.mod_eq_of_lt hn]

theorem byte_eq_byte {m n : Nat} (hm : m < 256) (hn : n < 256) :
    UInt8.ofNat m = UInt8.ofNat n ↔ m = n := by
  rw [← UInt8.toNat_inj, UInt8.toNat_ofNat', UInt8.toNat_ofNat', Nat.mod_eq_of_lt hm,
    Nat.mod_eq_of_lt hn]

/-- Numbers are compared by their digits in base 64, from the highest on. -/
theorem digits_of_lt {v w : Nat} (h : v < w) : v / 64 / 64 / 64 < w / 64 / 64 / 64 ∨
    v / 64 / 64 / 64 = w / 64 / 64 / 64 ∧ (v / 64 / 64 % 64 < w / 64 / 64 % 64 ∨
      v / 64 / 64 % 64 = w / 64 / 64 % 64 ∧ (v / 64 % 64 < w / 64 % 64 ∨
        v / 64 % 64 = w / 64 % 64 ∧ v % 64 < w % 64)) := by
  have hdigit {m n : Nat} (h : m < n) : m / 64 < n / 64 ∨ m / 64 = n / 64 ∧ m % 64 < n % 64 := by
    omega
  rcases hdigit h with h | ⟨he, h⟩
  · rcases hdigit h with h | ⟨he, h⟩
    · exact (hdigit h).imp_right fun ⟨he, h⟩ => ⟨he, .inl h⟩
    · exact .inr ⟨by rw [he], .inr ⟨by rw [he], .inl h⟩⟩
  · exact .inr ⟨by rw [he], .inr ⟨by rw [he], .inr ⟨by rw [he], h⟩⟩⟩

/-- The smaller character is smaller already in its encoding, whatever follows it. -/
theorem encode_lt_encode {c d : Char} (h : c < d) (l m : List UInt8) :
    String.utf8EncodeChar c ++ l < String.utf8EncodeChar d ++ m := by
  have hlt : c.val.toNat < d.val.toNat := h
  have hd : d.val.toNat < 1114112 := by
    have hvalid := d.valid
    unfold UInt32.isValidChar Nat.isValidChar at hvalid
    omega
  -- each byte but the first has six bits of the number
  have hsix (n : Nat) : n / 4096 = n / 64 / 64 ∧ n / 262144 = n / 64 / 64 / 64 := by omega
  unfold String.utf8EncodeChar
  dsimp only
  generalize c.val.toNat = v at hlt
  generalize d.val.toNat = w at hlt hd
  have hdigits := digits_of_lt hlt
  obtain ⟨hv, hv'⟩ := hsix v
  obtain ⟨hw, hw'⟩ := hsix w
  rw [hv, hv', hw, hw']
  have hv8 : v / 64 / 64 / 64 < 8 := by omega
  have hw8 : w / 64 / 64 / 64 < 8 := by omega
  rw [Nat.mod_eq_of_lt hv8, Nat.mod_eq_of_lt hw8]
  split_ifs <;>
    simp (disch := omega) only [List.cons_append, List.nil_append, List.cons_lt_cons_iff,
      byte_lt_byte, byte_eq_byte] <;>
    omega

theorem bytes_lt_of_lt {s t : String} (h : s < t) : bytes s < bytes t := by
  rw [bytes_eq_flatMap, bytes_eq_flatMap]
  rw [String.lt_iff] at h
  generalize s.toList = cs at h
  generalize t.toList = ds at h
  induction h with
  | @nil d ds =>
    obtain ⟨b, bs, hb⟩ := List.exists_cons_of_ne_nil (String.utf8EncodeChar_ne_nil (c := d))
    rw [List.flatMap_nil, List.flatMap_cons, hb]
    exact List.Lex.nil
  | rel hcd => exact encode_lt_encode hcd _ _
  | cons _ ih => exact List.append_left_lt ih

theorem bytes_lt_iff {s t : String} : bytes s < bytes t ↔ s < t := by
  refine ⟨fun h => Decidable.byContradiction fun hn => ?_, bytes_lt_of_lt⟩
  -- the texts would be equal or in the other order, and so would their bytes
  by_cases he : s = t
  · exact List.lt_irrefl _ (he ▸ h)
  · have hts : t < s := Decidable.byContradiction fun hn' => he (String.le_antisymm hn' hn)
    exact List.lt_asymm h (bytes_lt_of_lt hts)

end ComponentCompiler.Text
