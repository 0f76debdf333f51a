import ComponentCompiler.Json.Printer
import ComponentCompiler.Json.Reader

namespace ComponentCompiler.Json

variable {depth fuel n : Nat} {cs rest rest' : List Char}

theorem hexValue?_hexDigit : ∀ n < 16, hexValue? (hexDigit n) = some n := by
  decide

theorem hexQuad?_control (h : n < 0x20) :
    hexQuad? '0' '0' (hexDigit (n / 16)) (hexDigit (n % 16)) = some n := by
  have hzero : hexValue? '0' = some 0 := by decide
  have hhigh := hexValue?_hexDigit (n / 16) (by omega)
  have hlow := hexValue?_hexDigit (n % 16) (by omega)
  simp only [hexQuad?, hzero, hhigh, hlow, Option.bind_eq_bind, Option.bind_some, Option.pure_def,
    Option.some.injEq]
  omega

theorem readString_shortEscape {e c : Char} (h : shortEscape? e = some c) (rest : List Char) :
    readString none ('\\' :: e :: rest) = (readString none rest).map (prepend [c] true) := by
  have hu : e ≠ 'u' := by
    rintro rfl
    cases h
  simp [readString, hu, h]

theorem readString_escapeChar (c : Char) (rest : List Char) :
    readString none (escapeChar c ++ rest) = (readString none rest).map (prepend [c] true) := by
  unfold escapeChar
  -- the quote, the backslash and the five controls with an escape of their own
  iterate 7
    split
    · next h =>
      subst h
      exact readString_shortEscape rfl rest
  split
  · next h =>
    have ht : isTrailSurrogate c.toNat = false := by
      simp [isTrailSurrogate]
      omega
    have hl : isLeadSurrogate c.toNat = false := by
      simp [isLeadSurrogate]
      omega
    simp only [List.cons_append, List.nil_append]
    rw [readString.eq_def]
    simp only [hexQuad?_control h, ht, hl, Bool.false_eq_true, ↓reduceIte, Char.ofNat_toNat]
  · next _ hb _ _ _ _ _ hc => simp [readString, hb, hc]

theorem readString_escaped (cs rest : List Char) :
    readString none (cs.flatMap escapeChar ++ '"' :: rest) = some (⟨cs, true⟩, rest) := by
  induction cs with
  | nil => simp [readString]
  | cons c cs ih =>
    rw [List.flatMap_cons, List.append_assoc, readString_escapeChar, ih]
    rfl

theorem quote_append (text : String) (rest : List Char) :
    ∃ quoted body, quote text ++ rest = '"' :: quoted ∧
      readString none quoted = some (body, rest) ∧ body.text? = some text := by
  refine ⟨_, _, ?_, readString_escaped text.toList rest, by simp [StringBody.text?]⟩
  simp [quote]

def EndsNumber (rest : List Char) : Prop :=
  ∀ c ∈ rest.head?, c.isDigit = false ∧ c ≠ '.' ∧ c ≠ 'e' ∧ c ≠ 'E'

theorem endsNumber_nil : EndsNumber [] := by
  simp [EndsNumber]

theorem endsNumber_comma (rest : List Char) : EndsNumber (',' :: rest) := by
  simp [EndsNumber]

theorem endsNumber_newLine (depth : Nat) (rest : List Char) :
    EndsNumber (newLine depth ++ rest) := by
  simp [EndsNumber, newLine]

theorem isDigit_of_mem_digits {c : Char} (h : c ∈ digits n) : c.isDigit = true :=
  Nat.isDigit_of_mem_toDigits (by decide) (by decide) h

theorem digits_eq_cons (n : Nat) : ∃ c ds, digits n = c :: ds ∧ c.isDigit = true := by
  cases hd : digits n with
  | nil => exact absurd hd Nat.toDigits_ne_nil
  | cons c ds => exact ⟨c, ds, rfl, isDigit_of_mem_digits (hd ▸ List.mem_cons_self)⟩

theorem ofDigits_digits (n : Nat) : ofDigits (digits n) = n := by
  have h := Nat.ofDigitChars_ten_toDigits (n := n)
  rw [Nat.ofDigitChars_eq_foldl] at h
  simpa [ofDigits, digits, Nat.mul_comm] using h

theorem digits_of_zero_head {ds : List Char} (h : digits n = '0' :: ds) : n = 0 := by
  induction n using Nat.strongRecOn generalizing ds with
  | ind n ih =>
    unfold digits at h ih
    rw [Nat.toDigits_eq_if (by decide)] at h
    split at h
    · simpa [Nat.digitChar_eq_zero] using (List.cons.inj h).1
    · obtain ⟨c, ds', hd, -⟩ := digits_eq_cons (n / 10)
      unfold digits at hd
      rw [hd] at h
      have hz := ih (n / 10) (by omega) (hd.trans (by rw [(List.cons.inj h).1]))
      omega

theorem readDigits_digits (n : Nat) (hr : EndsNumber rest) :
    readDigits (digits n ++ rest) = some (digits n, rest) := by
  have hd : ∀ c ∈ digits n, c.isDigit = true := fun _ => isDigit_of_mem_digits
  have ht : rest.takeWhile Char.isDigit = [] ∧ rest.dropWhile Char.isDigit = rest := by
    cases rest with
    | nil => exact ⟨rfl, rfl⟩
    | cons c cs => simp [(hr c rfl).1]
  unfold readDigits
  rw [List.takeWhile_append_of_pos hd, List.dropWhile_append_of_pos hd, ht.1, ht.2, List.append_nil]
  split
  · next h => exact absurd h Nat.toDigits_ne_nil
  · rfl

theorem readWhole_digits (n : Nat) (hr : EndsNumber rest) :
    readWhole (digits n ++ rest) = some (digits n, rest) := by
  have hread := readDigits_digits n hr
  obtain ⟨c, ds, hd, -⟩ := digits_eq_cons n
  by_cases hc : c = '0'
  · subst hc
    cases digits_of_zero_head hd
    rfl
  · rw [hd] at hread ⊢
    simpa [readWhole, hc] using hread

theorem readFraction_ends (hr : EndsNumber rest) : readFraction rest = some ([], rest) := by
  cases rest with
  | nil => rfl
  | cons c cs => simp [readFraction, (hr c rfl).2.1]

theorem readExponent_ends (hr : EndsNumber rest) : readExponent rest = some ([], rest) := by
  cases rest with
  | nil => rfl
  | cons c cs => simp [readExponent, (hr c rfl).2.2]

theorem readNumber_digits (n : Nat) (hr : EndsNumber rest) :
    readNumber (digits n ++ rest) = some (.natural n, rest) := by
  have hs : readNumber (digits n ++ rest) = readUnsigned [] (digits n ++ rest) := by
    obtain ⟨c, ds, hd, hc⟩ := digits_eq_cons n
    have hsign : c ≠ '-' := by
      rintro rfl
      cases hc
    simp [hd, readNumber, hsign]
  rw [hs]
  simp [readUnsigned, readWhole_digits n hr, readFraction_ends hr, readExponent_ends hr,
    ofDigits_digits]

theorem length_newLine (depth : Nat) : (newLine depth).length = 2 * depth + 1 := by
  simp [newLine]

theorem skipSpace_newLine (depth : Nat) (cs : List Char) :
    skipSpace (newLine depth ++ cs) = skipSpace cs := by
  apply List.dropWhile_append_of_pos
  intro c hc
  rcases List.mem_cons.mp hc with rfl | hc
  · rfl
  · rw [List.eq_of_mem_replicate hc]
    rfl

theorem skipSpace_cons {c : Char} (h : isSpace c = false) (cs : List Char) :
    skipSpace (c :: cs) = c :: cs := by
  simp [skipSpace, h]

/-- Readers pass over white space first, so they do not tell how much of it there is. -/
theorem readValue_congr {ds : List Char} (h : skipSpace cs = skipSpace ds) :
    readValue fuel cs = readValue fuel ds := by
  cases fuel with
  | zero => rfl
  | succ fuel => simp only [readValue, h]

theorem readItems_congr {ds : List Char} (h : skipSpace cs = skipSpace ds) :
    readItems fuel cs = readItems fuel ds := by
  cases fuel with
  | zero => rfl
  | succ fuel => simp only [readItems, readValue_congr h]

theorem readFields_congr {ds : List Char} (h : skipSpace cs = skipSpace ds) :
    readFields fuel cs = readFields fuel ds := by
  cases fuel with
  | zero => rfl
  | succ fuel => simp only [readFields, h]

theorem readValue_newLine (depth : Nat) (cs : List Char) :
    readValue fuel (newLine depth ++ cs) = readValue fuel cs :=
  readValue_congr (skipSpace_newLine depth cs)

theorem readFields_newLine (depth : Nat) (cs : List Char) :
    readFields fuel (newLine depth ++ cs) = readFields fuel cs :=
  readFields_congr (skipSpace_newLine depth cs)

theorem readValue_space (cs : List Char) : readValue fuel (' ' :: cs) = readValue fuel cs :=
  readValue_congr rfl

theorem ne_of_isDigit {c d : Char} (hc : c.isDigit = true) (hd : d.isDigit = false) : c ≠ d := by
  rintro rfl
  cases hc.symm.trans hd

theorem isSpace_of_isDigit {c : Char} (h : c.isDigit = true) : isSpace c = false := by
  simp [isSpace, ne_of_isDigit h (d := ' ') rfl, ne_of_isDigit h (d := '\n') rfl,
    ne_of_isDigit h (d := '\t') rfl, ne_of_isDigit h (d := '\r') rfl]

theorem readValue_of_isDigit {c : Char} (h : c.isDigit = true) (cs : List Char) :
    readValue (fuel + 1) (c :: cs) = readNumber (c :: cs) := by
  simp [readValue, skipSpace_cons (isSpace_of_isDigit h), ne_of_isDigit h (d := '"') rfl,
    ne_of_isDigit h (d := '[') rfl, ne_of_isDigit h (d := '\x7b') rfl,
    ne_of_isDigit h (d := 't') rfl, ne_of_isDigit h (d := 'f') rfl, ne_of_isDigit h (d := 'n') rfl]

theorem readValue_digits (n : Nat) (hr : EndsNumber rest) :
    readValue (fuel + 1) (digits n ++ rest) = some (.natural n, rest) := by
  rw [← readNumber_digits n hr]
  obtain ⟨c, ds, hd, hc⟩ := digits_eq_cons n
  rw [hd]
  exact readValue_of_isDigit hc _

theorem readValue_quote (text : String) (rest : List Char) :
    readValue (fuel + 1) (quote text ++ rest) = some (.text text, rest) := by
  obtain ⟨quoted, body, hq, hr, ht⟩ := quote_append text rest
  rw [hq]
  simp only [readValue, skipSpace_cons (c := '"') rfl, hr, Option.map_some, StringBody.value, ht,
    Option.elim_some]

theorem readValue_items {c : Char} {items : List Json} (hs : skipSpace cs = c :: rest)
    (hc : isSpace c = false ∧ c ≠ ']') (h : readItems fuel cs = some (items, rest')) :
    readValue (fuel + 1) ('[' :: cs) = some (.list items, rest') := by
  have hi : readItems fuel (c :: rest) = some (items, rest') := by
    rw [← h]
    exact readItems_congr (by rw [hs, skipSpace_cons hc.1])
  simp [readValue, skipSpace_cons (c := '[') rfl, hs, hc.2, hi]

theorem readItems_last {item : Json}
    (h : readValue fuel cs = some (item, newLine depth ++ ']' :: rest)) :
    readItems (fuel + 1) cs = some ([item], rest) := by
  simp only [readItems, h, skipSpace_newLine, skipSpace_cons (c := ']') rfl]

theorem readItems_more {item : Json} {items : List Json}
    (h : readValue fuel cs = some (item, ',' :: rest))
    (hr : readItems fuel rest = some (items, rest')) :
    readItems (fuel + 1) cs = some (item :: items, rest') := by
  simp only [readItems, h, skipSpace_cons (c := ',') rfl, hr, Option.map_some]

theorem readValue_fields {name : String} {fields : List (String × Json)}
    (hs : skipSpace cs = quote name ++ rest) (h : readFields fuel cs = some (some fields, rest')) :
    readValue (fuel + 1) ('\x7b' :: cs) = some (.record fields, rest') := by
  have hf : readFields fuel (quote name ++ rest) = some (some fields, rest') := by
    rw [← h]
    exact readFields_congr (by rw [hs]; simp [quote, skipSpace_cons (c := '"') rfl])
  simp [quote] at hs hf
  simp [readValue, skipSpace_cons (c := '\x7b') rfl, hs, hf, RecordBody.value]

theorem readFields_last {name : String} {value : Json}
    (h : readValue fuel cs = some (value, newLine depth ++ '\x7d' :: rest)) :
    readFields (fuel + 1) (quote name ++ ':' :: cs) = some (some [(name, value)], rest) := by
  obtain ⟨quoted, body, hq, hread, ht⟩ := quote_append name (':' :: cs)
  rw [hq]
  simp only [readFields, skipSpace_cons (c := '"') rfl, hread, skipSpace_cons (c := ':') rfl, h,
    skipSpace_newLine, skipSpace_cons (c := '\x7d') rfl, RecordBody.cons, ht]

theorem readFields_more {name : String} {value : Json} {fields : List (String × Json)}
    (h : readValue fuel cs = some (value, ',' :: rest))
    (hr : readFields fuel rest = some (some fields, rest')) :
    readFields (fuel + 1) (quote name ++ ':' :: cs) =
      some (some ((name, value) :: fields), rest') := by
  obtain ⟨quoted, body, hq, hread, ht⟩ := quote_append name (':' :: cs)
  rw [hq]
  simp only [readFields, skipSpace_cons (c := '"') rfl, hread, skipSpace_cons (c := ':') rfl, h,
    skipSpace_cons (c := ',') rfl, hr, Option.map_some, RecordBody.cons, ht]

mutual

/-- All numbers are naturals and all strings can be read. -/
def Plain : Json → Prop
  | number _ => False
  | unpaired => False
  | list items => PlainItems items
  | record fields => PlainFields fields
  | _ => True

def PlainItems : List Json → Prop
  | [] => True
  | item :: rest => item.Plain ∧ PlainItems rest

def PlainFields : List (String × Json) → Prop
  | [] => True
  | (_, value) :: rest => value.Plain ∧ PlainFields rest

end

theorem prettyChars_eq_cons (depth : Nat) {value : Json} (h : value.Plain) :
    ∃ c cs, prettyChars depth value = c :: cs ∧ isSpace c = false ∧ c ≠ ']' := by
  cases value with
  | null => exact ⟨_, _, rfl, rfl, by decide⟩
  | bool b => cases b <;> exact ⟨_, _, rfl, rfl, by decide⟩
  | natural n =>
    obtain ⟨c, ds, hd, hc⟩ := digits_eq_cons n
    exact ⟨c, ds, hd, isSpace_of_isDigit hc, ne_of_isDigit hc rfl⟩
  | number spelling => exact h.elim
  | text value => exact ⟨_, _, rfl, rfl, by decide⟩
  | unpaired => exact h.elim
  | list items => cases items <;> exact ⟨_, _, rfl, rfl, by decide⟩
  | record fields => cases fields <;> exact ⟨_, _, rfl, rfl, by decide⟩

theorem prettyItems_more (depth : Nat) (item : Json) {items : List Json} (h : items ≠ []) :
    prettyItems depth (item :: items) =
      newLine depth ++ (prettyChars depth item ++ ',' :: prettyItems depth items) := by
  cases items with
  | nil => exact absurd rfl h
  | cons next more => simp [prettyItems]

theorem prettyFields_more (depth : Nat) (name : String) (value : Json)
    {fields : List (String × Json)} (h : fields ≠ []) :
    prettyFields depth ((name, value) :: fields) = newLine depth ++ (quote name ++
      ':' :: ' ' :: (prettyChars depth value ++ ',' :: prettyFields depth fields)) := by
  cases fields with
  | nil => exact absurd rfl h
  | cons next more => simp [prettyFields]

theorem prettyItems_eq_append (depth : Nat) {items : List Json} (hne : items ≠ [])
    (hp : PlainItems items) :
    ∃ c cs, prettyItems depth items = newLine depth ++ c :: cs ∧ isSpace c = false ∧ c ≠ ']' := by
  cases items with
  | nil => exact absurd rfl hne
  | cons item more =>
    obtain ⟨c, cs, hcs, hc⟩ := prettyChars_eq_cons depth hp.1
    by_cases hm : more = []
    · subst hm
      exact ⟨c, cs, by simp [prettyItems, hcs], hc⟩
    · exact ⟨c, cs ++ ',' :: prettyItems depth more, by simp [prettyItems_more depth item hm, hcs], hc⟩

theorem prettyFields_eq_append (depth : Nat) {fields : List (String × Json)} (hne : fields ≠ []) :
    ∃ name cs, prettyFields depth fields = newLine depth ++ (quote name ++ cs) := by
  cases fields with
  | nil => exact absurd rfl hne
  | cons field more =>
    by_cases hm : more = []
    · subst hm
      exact ⟨field.1, ':' :: ' ' :: prettyChars depth field.2, by simp [prettyFields]⟩
    · exact ⟨field.1, _, prettyFields_more depth field.1 field.2 hm⟩

theorem prettyChars_list (depth : Nat) {items : List Json} (hne : items ≠ []) :
    prettyChars depth (.list items) =
      '[' :: (prettyItems (depth + 1) items ++ newLine depth ++ [']']) := by
  cases items with
  | nil => exact absurd rfl hne
  | cons item more => rfl

theorem prettyChars_record (depth : Nat) {fields : List (String × Json)} (hne : fields ≠ []) :
    prettyChars depth (.record fields) =
      '\x7b' :: (prettyFields (depth + 1) fields ++ newLine depth ++ ['\x7d']) := by
  cases fields with
  | nil => exact absurd rfl hne
  | cons field more => rfl

theorem readValue_prettyList {items : List Json} (hne : items ≠ []) (hp : PlainItems items)
    (h : readItems fuel (prettyItems (depth + 1) items ++ (newLine depth ++ ']' :: rest)) =
      some (items, rest)) :
    readValue (fuel + 1) (prettyChars depth (.list items) ++ rest) = some (.list items, rest) := by
  obtain ⟨c, cs, hcs, hc⟩ := prettyItems_eq_append (depth + 1) hne hp
  have hs : skipSpace (prettyItems (depth + 1) items ++ (newLine depth ++ ']' :: rest)) =
      c :: (cs ++ (newLine depth ++ ']' :: rest)) := by
    rw [hcs, List.append_assoc, skipSpace_newLine, List.cons_append, skipSpace_cons hc.1]
  simpa [prettyChars_list depth hne] using readValue_items hs hc h

theorem readValue_prettyRecord {fields : List (String × Json)} (hne : fields ≠ [])
    (h : readFields fuel (prettyFields (depth + 1) fields ++ (newLine depth ++ '\x7d' :: rest)) =
      some (some fields, rest)) :
    readValue (fuel + 1) (prettyChars depth (.record fields) ++ rest) =
      some (.record fields, rest) := by
  obtain ⟨name, cs, hcs⟩ := prettyFields_eq_append (depth + 1) hne
  have hs : skipSpace (prettyFields (depth + 1) fields ++ (newLine depth ++ '\x7d' :: rest)) =
      quote name ++ (cs ++ (newLine depth ++ '\x7d' :: rest)) := by
    rw [hcs, List.append_assoc, skipSpace_newLine, List.append_assoc]
    exact skipSpace_cons (c := '"') rfl _
  simpa [prettyChars_record depth hne] using readValue_fields hs h

mutual

/-- Fuel for the length of the text is enough: every call that reads a part leaves out at least the
character before it. -/
theorem readValue_pretty (depth fuel : Nat) (value : Json) (rest : List Char) (hp : value.Plain)
    (hr : EndsNumber rest) (hf : (prettyChars depth value).length < fuel) :
    readValue fuel (prettyChars depth value ++ rest) = some (value, rest) := by
  obtain ⟨fuel, rfl⟩ : ∃ f, fuel = f + 1 := ⟨fuel - 1, by omega⟩
  cases value with
  | null => rfl
  | bool b => cases b <;> rfl
  | natural n => exact readValue_digits n hr
  | number spelling => exact hp.elim
  | text value => exact readValue_quote value rest
  | unpaired => exact hp.elim
  | list items =>
    by_cases hne : items = []
    · subst hne
      rfl
    · rw [prettyChars_list depth hne] at hf
      simp only [List.length_cons, List.length_append] at hf
      exact readValue_prettyList hne hp
        (readItems_pretty (depth + 1) fuel depth items rest hne hp (by omega))
  | record fields =>
    by_cases hne : fields = []
    · subst hne
      rfl
    · rw [prettyChars_record depth hne] at hf
      simp only [List.length_cons, List.length_append] at hf
      exact readValue_prettyRecord hne
        (readFields_pretty (depth + 1) fuel depth fields rest hne hp (by omega))

theorem readItems_pretty (depth fuel outer : Nat) (items : List Json) (rest : List Char)
    (hne : items ≠ []) (hp : PlainItems items) (hf : (prettyItems depth items).length < fuel) :
    readItems fuel (prettyItems depth items ++ (newLine outer ++ ']' :: rest)) =
      some (items, rest) := by
  obtain ⟨fuel, rfl⟩ : ∃ f, fuel = f + 1 := ⟨fuel - 1, by omega⟩
  cases items with
  | nil => exact absurd rfl hne
  | cons item more =>
    by_cases hm : more = []
    · subst hm
      simp only [prettyItems, List.length_append, length_newLine] at hf
      have hv := readValue_pretty depth fuel item (newLine outer ++ ']' :: rest) hp.1
        (endsNumber_newLine outer _) (by omega)
      rw [prettyItems, List.append_assoc]
      exact readItems_last ((readValue_newLine depth _).trans hv)
    · rw [prettyItems_more depth item hm] at hf ⊢
      simp only [List.length_cons, List.length_append, length_newLine] at hf
      have hv := readValue_pretty depth fuel item
        (',' :: (prettyItems depth more ++ (newLine outer ++ ']' :: rest))) hp.1
        (endsNumber_comma _) (by omega)
      have hi := readItems_pretty depth fuel outer more rest hm hp.2 (by omega)
      simp only [List.append_assoc, List.cons_append]
      exact readItems_more ((readValue_newLine depth _).trans hv) hi

theorem readFields_pretty (depth fuel outer : Nat) (fields : List (String × Json))
    (rest : List Char) (hne : fields ≠ []) (hp : PlainFields fields)
    (hf : (prettyFields depth fields).length < fuel) :
    readFields fuel (prettyFields depth fields ++ (newLine outer ++ '\x7d' :: rest)) =
      some (some fields, rest) := by
  obtain ⟨fuel, rfl⟩ : ∃ f, fuel = f + 1 := ⟨fuel - 1, by omega⟩
  cases fields with
  | nil => exact absurd rfl hne
  | cons field more =>
    obtain ⟨name, value⟩ := field
    by_cases hm : more = []
    · subst hm
      simp only [prettyFields, List.length_append, List.length_cons, length_newLine] at hf
      have hv := readValue_pretty depth fuel value (newLine outer ++ '\x7d' :: rest) hp.1
        (endsNumber_newLine outer _) (by omega)
      simp only [prettyFields, List.append_assoc, List.cons_append]
      rw [readFields_newLine]
      exact readFields_last ((readValue_space _).trans hv)
    · rw [prettyFields_more depth name value hm] at hf ⊢
      simp only [List.length_cons, List.length_append, length_newLine] at hf
      have hv := readValue_pretty depth fuel value
        (',' :: (prettyFields depth more ++ (newLine outer ++ '\x7d' :: rest))) hp.1
        (endsNumber_comma _) (by omega)
      have hi := readFields_pretty depth fuel outer more rest hm hp.2 (by omega)
      simp only [List.append_assoc, List.cons_append]
      rw [readFields_newLine]
      exact readFields_more ((readValue_space _).trans hv) hi

end

theorem parse?_pretty {value : Json} (h : value.Plain) : parse? value.pretty = some value := by
  have hr := readValue_pretty 0 (2 * (prettyChars 0 value).length + 2) value [] h endsNumber_nil
    (by omega)
  rw [List.append_nil] at hr
  simp [parse?, pretty, parseChars, hr, skipSpace]

end ComponentCompiler.Json
