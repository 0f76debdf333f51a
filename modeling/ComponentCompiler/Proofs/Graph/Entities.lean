import ComponentCompiler.Graph.Drawing
import Mathlib.Data.List.Basic
import Mathlib.Logic.Function.Basic

namespace ComponentCompiler.Markup

def writeChar (table : List (Char × String)) (c : Char) : List Char :=
  (table.lookup c).elim [c] String.toList

def leadingEntity? (cs : List Char) : Option (Char × String) :=
  entities.find? fun e => e.2.toList.isPrefixOf cs

/-- Reads a text from left to right: an entity is read as its character, and the reading goes on
behind it; where no entity starts, the character stands for itself. -/
def unescapeChars : List Char → List Char
  | [] => []
  | c :: cs =>
    match leadingEntity? (c :: cs) with
    | some (d, entity) => d :: unescapeChars (cs.drop (entity.length - 1))
    | none => c :: unescapeChars cs
termination_by cs => cs.length

def unescape (text : String) : String :=
  String.ofList (unescapeChars text.toList)

variable {c d : Char} {cs rest : List Char} {entity : String} {table : List (Char × String)}

theorem writeChar_cons : writeChar ((d, entity) :: table) c =
    if c = d then entity.toList else writeChar table c := by
  unfold writeChar
  by_cases h : c = d
  · simp [h]
  · have hne : (c == d) = false := by simpa using h
    rw [List.lookup_cons, hne, if_neg h]

theorem writeChar_cases (table : List (Char × String)) (c : Char) :
    (∃ e ∈ table, e.1 = c ∧ writeChar table c = e.2.toList) ∨
      (∀ e ∈ table, e.1 ≠ c) ∧ writeChar table c = [c] := by
  induction table with
  | nil => exact .inr ⟨nofun, rfl⟩
  | cons e table ih =>
    obtain ⟨d, entity⟩ := e
    rw [writeChar_cons]
    by_cases h : c = d
    · exact .inl ⟨(d, entity), List.mem_cons_self, h.symm, if_pos h⟩
    · rw [if_neg h]
      refine ih.imp ?_ fun hrest => ⟨List.forall_mem_cons.mpr ⟨Ne.symm h, hrest.1⟩, hrest.2⟩
      rintro ⟨e, he, hwrite⟩
      exact ⟨e, List.mem_cons_of_mem _ he, hwrite⟩

/-- Passes over the whole text come to writing each character on its own, if what a pass puts in
is left alone by the passes behind it. -/
theorem foldl_replaceChar (h : table.Pairwise fun e f => f.1 ∉ e.2.toList) (cs : List Char) :
    table.foldl (fun cs (c, entity) => replaceChar c entity.toList cs) cs =
      cs.flatMap (writeChar table) := by
  induction table generalizing cs with
  | nil => exact (List.flatMap_singleton' cs).symm
  | cons e table ih =>
    obtain ⟨d, entity⟩ := e
    obtain ⟨hentity, htable⟩ := List.pairwise_cons.mp h
    have hkept : entity.toList.flatMap (writeChar table) = entity.toList := by
      have hsingle (x : Char) (hx : x ∈ entity.toList) : writeChar table x = [x] := by
        rcases writeChar_cases table x with ⟨f, hf, rfl, -⟩ | ⟨-, hx⟩
        · exact absurd hx (hentity f hf)
        · exact hx
      rw [List.flatMap_congr hsingle, List.flatMap_singleton']
    rw [List.foldl_cons, ih htable]
    unfold replaceChar
    rw [List.flatMap_assoc]
    apply List.flatMap_congr
    intro c _
    rw [writeChar_cons]
    split
    · exact hkept
    · exact List.flatMap_singleton _ _

theorem toList_escape (text : String) :
    (escape text).toList = text.toList.flatMap (writeChar entities) := by
  rw [escape, String.toList_ofList]
  exact foldl_replaceChar (by decide) text.toList

theorem entity_eq_cons {e : Char × String} (he : e ∈ entities) :
    ∃ tail, e.2.toList = '&' :: tail ∧ ∀ f ∈ entities, f.1 ∉ tail := by
  have hshape : ∀ e ∈ entities,
      e.2.toList.head? = some '&' ∧ ∀ f ∈ entities, f.1 ∉ e.2.toList.tail := by decide
  obtain ⟨hhead, htail⟩ := hshape e he
  exact ⟨_, (List.cons_head?_tail hhead).symm, htail⟩

/-- No entity is the start of another one. -/
theorem entity_unique {e f : Char × String} (he : e ∈ entities) (hf : f ∈ entities)
    (h : e.2.toList <+: f.2.toList) : e = f := by
  have hapart : ∀ e ∈ entities, ∀ f ∈ entities, e.2.toList <+: f.2.toList → e = f := by decide
  exact hapart e he f hf h

theorem leadingEntity?_append {e : Char × String} (he : e ∈ entities) :
    leadingEntity? (e.2.toList ++ cs) = some e := by
  have hwhole : e.2.toList <+: e.2.toList ++ cs := List.prefix_append _ _
  cases h : leadingEntity? (e.2.toList ++ cs) with
  | none => exact absurd (List.isPrefixOf_iff_prefix.mpr hwhole) (List.find?_eq_none.mp h e he)
  | some f =>
    have hf : f ∈ entities := List.mem_of_find?_eq_some h
    have hstarts := List.find?_some h
    rcases List.prefix_or_prefix_of_prefix hwhole (List.isPrefixOf_iff_prefix.mp hstarts)
      with hle | hle
    · rw [entity_unique he hf hle]
    · rw [entity_unique hf he hle]

theorem leadingEntity?_cons (hc : c ≠ '&') : leadingEntity? (c :: cs) = none := by
  refine List.find?_eq_none.mpr fun e he => ?_
  obtain ⟨tail, htail, -⟩ := entity_eq_cons he
  simp [htail, hc.symm]

theorem unescapeChars_writeChar :
    unescapeChars (writeChar entities c ++ cs) = c :: unescapeChars cs := by
  rcases writeChar_cases entities c with ⟨e, he, rfl, hwrite⟩ | ⟨hne, hwrite⟩
  · obtain ⟨tail, htail, -⟩ := entity_eq_cons he
    have hlead : leadingEntity? (e.2.toList ++ cs) = some e := leadingEntity?_append he
    have hlength : e.2.length - 1 = tail.length := by
      rw [← String.length_toList, htail, List.length_cons, Nat.add_sub_cancel]
    rw [htail, List.cons_append] at hlead
    rw [hwrite, htail, List.cons_append, unescapeChars, hlead]
    simp [hlength]
  · have hc : c ≠ '&' := Ne.symm (hne ('&', "&amp;") List.mem_cons_self)
    rw [hwrite, List.singleton_append, unescapeChars, leadingEntity?_cons hc]

theorem unescape_escape (text : String) : unescape (escape text) = text := by
  have hread (cs : List Char) : unescapeChars (cs.flatMap (writeChar entities)) = cs := by
    induction cs with
    | nil => rw [List.flatMap_nil, unescapeChars]
    | cons c cs ih => rw [List.flatMap_cons, unescapeChars_writeChar, ih]
  rw [unescape, toList_escape, hread, String.ofList_toList]

theorem not_mem_writeChar {f : Char × String} (hf : f ∈ entities) (hne : f.1 ≠ '&') :
    f.1 ∉ writeChar entities c := by
  intro hmem
  rcases writeChar_cases entities c with ⟨e, he, -, hwrite⟩ | ⟨hplain, hwrite⟩
  · obtain ⟨tail, htail, hfree⟩ := entity_eq_cons he
    rw [hwrite, htail] at hmem
    exact (List.mem_cons.mp hmem).elim hne (hfree f hf)
  · rw [hwrite] at hmem
    exact hplain f hf (List.mem_singleton.mp hmem)

/-- An ampersand that is written for a character starts its entity. -/
theorem entity_of_suffix (h : '&' :: rest <:+ writeChar entities c) :
    ∃ e ∈ entities, e.2.toList = '&' :: rest := by
  have hamp : ('&', "&amp;") ∈ entities := List.mem_cons_self
  rcases writeChar_cases entities c with ⟨e, he, -, hwrite⟩ | ⟨hplain, hwrite⟩
  · obtain ⟨tail, htail, hfree⟩ := entity_eq_cons he
    rw [hwrite, htail] at h
    rcases List.suffix_cons_iff.mp h with heq | h
    · exact ⟨e, he, htail.trans heq.symm⟩
    · exact absurd (h.subset List.mem_cons_self) (hfree _ hamp)
  · rw [hwrite] at h
    exact absurd (List.mem_singleton.mp (h.subset List.mem_cons_self)) (hplain _ hamp)

theorem entity_prefix_of_suffix (h : '&' :: rest <:+ cs.flatMap (writeChar entities)) :
    ∃ e ∈ entities, e.2.toList <+: '&' :: rest := by
  induction cs with
  | nil => simp at h
  | cons c cs ih =>
    obtain ⟨front, hfront⟩ := h
    rw [List.flatMap_cons] at hfront
    -- the ampersand is written for the first character or for one behind it
    rcases List.append_eq_append_iff.mp hfront with ⟨part, hwrite, hrest⟩ | ⟨part, -, hrest⟩
    · cases part with
      | nil => exact ih ⟨[], hrest⟩
      | cons x part =>
        obtain ⟨rfl, -⟩ := List.cons.inj hrest
        obtain ⟨e, he, hentity⟩ := entity_of_suffix ⟨front, hwrite.symm⟩
        exact ⟨e, he, _, (congrArg (· ++ _) hentity).trans hrest.symm⟩
    · exact ih ⟨part, hrest.symm⟩

/-- An escaped text has no angle bracket and no quote, and where it has an ampersand an entity
starts. It is what is got by writing each character on its own, and reading it from left to right
gives the text; so no two texts are written alike. -/
theorem escape_reads_back : (∀ text : String,
    (∀ c ∈ ['<', '>', '"', '\''], c ∉ (escape text).toList) ∧
    (∀ rest, '&' :: rest <:+ (escape text).toList → ∃ e ∈ entities, e.2.toList <+: '&' :: rest) ∧
    unescape (escape text) = text ∧
    (escape text).toList = text.toList.flatMap (writeChar entities)) ∧
    Function.Injective escape := by
  refine ⟨fun text => ⟨?_, ?_, unescape_escape text, toList_escape text⟩, ?_⟩
  · intro c hc hmem
    have hlisted : ∀ c ∈ ['<', '>', '"', '\''], ∃ f ∈ entities, f.1 = c ∧ f.1 ≠ '&' := by
      simp [entities]
    obtain ⟨f, hf, rfl, hne⟩ := hlisted c hc
    rw [toList_escape, List.mem_flatMap] at hmem
    obtain ⟨d, -, hd⟩ := hmem
    exact not_mem_writeChar hf hne hd
  · intro rest h
    rw [toList_escape] at h
    exact entity_prefix_of_suffix h
  · exact Function.LeftInverse.injective unescape_escape

/-- What looks like an entity in a text is text as well. -/
theorem escape_reads_back_nested :
    let text := "'&lt;' is <"
    escape text = "&apos;&amp;lt;&apos; is &lt;" ∧ '<' ∉ (escape text).toList ∧
    (∃ e ∈ entities, e.2.toList <+: '&' :: "amp;lt;&apos; is &lt;".toList) ∧
    unescape (escape text) = text := by
  intro text
  have hescape : escape text = "&apos;&amp;lt;&apos; is &lt;" := by decide +kernel
  have hsuffix : '&' :: "amp;lt;&apos; is &lt;".toList <:+ (escape text).toList := by
    decide +kernel
  obtain ⟨hplain, hstarts, hread, -⟩ := escape_reads_back.1 text
  exact ⟨hescape, hplain '<' List.mem_cons_self, hstarts _ hsuffix, hread⟩

end ComponentCompiler.Markup
