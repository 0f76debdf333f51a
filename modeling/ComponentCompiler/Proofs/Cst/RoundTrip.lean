import ComponentCompiler.Cst.Document
import ComponentCompiler.Proofs.Json.RoundTrip

namespace ComponentCompiler

theorem Json.plainItems_map {α : Type} {write : α → Json} (h : ∀ a, (write a).Plain)
    (items : List α) : PlainItems (items.map write) := by
  induction items with
  | nil => trivial
  | cons a items ih => exact ⟨h a, ih⟩

theorem mapM_map_eq_some {α β : Type} {write : α → β} {read : β → Option α} {P : α → Prop}
    (h : ∀ a b, read (write a) = some b ↔ P a ∧ a = b) (items results : List α) :
    (items.map write).mapM read = some results ↔ (∀ a ∈ items, P a) ∧ items = results := by
  induction items generalizing results with
  | nil => simp
  | cons a items ih =>
    simp only [List.map_cons, List.mapM_cons, Option.bind_eq_bind, Option.bind_eq_some_iff, h, ih,
      Option.pure_def, Option.some.injEq, List.forall_mem_cons]
    constructor
    · rintro ⟨b, ⟨ha, rfl⟩, bs, ⟨hi, rfl⟩, rfl⟩
      exact ⟨⟨ha, hi⟩, rfl⟩
    · rintro ⟨⟨ha, hi⟩, rfl⟩
      exact ⟨a, ⟨ha, rfl⟩, items, ⟨hi, rfl⟩, rfl⟩

namespace Cst

def Point.Sized (p : Point) : Prop :=
  p.row < sizeLimit ∧ p.column < sizeLimit

def Entry.Sized (e : Entry) : Prop :=
  e.head.span.start < sizeLimit ∧ e.head.span.stop < sizeLimit ∧ e.head.point.Sized ∧
    ∀ c ∈ e.children, c < sizeLimit

/-- Every number of the table is below `2 ^ 64`. -/
def Table.Sized (t : Table) : Prop :=
  (∀ e ∈ t.entries, e.Sized) ∧ t.root < sizeLimit

theorem size?_natural (n m : Nat) : Json.size? (.natural n) = some m ↔ n < sizeLimit ∧ n = m := by
  simp [Json.size?, Json.format]

theorem sizes?_naturals (items results : List Nat) :
    Json.format.list Json.size? (.naturals items) = some results ↔
      (∀ n ∈ items, n < sizeLimit) ∧ items = results :=
  mapM_map_eq_some size?_natural items results

theorem Point.ofJson?_toJson (p p' : Point) :
    Point.ofJson? p.toJson = some p' ↔ p.Sized ∧ p = p' := by
  have hf : p.toJson.fields? ["row", "column"] =
      some ⟨[("row", .natural p.row), ("column", .natural p.column)], false⟩ := by
    simp [Point.toJson, Json.fields?, Json.format, Fields.ofEntries?]
  simp [Point.ofJson?, hf, Fields.required, Fields.get?, Option.bind_eq_some_iff, size?_natural,
    Sized, and_assoc]

theorem Entry.ofJson?_toJson (e e' : Entry) :
    Entry.ofJson? e.toJson = some e' ↔ e.Sized ∧ e = e' := by
  have hf : e.toJson.fields? ["kind", "start_byte", "end_byte", "start_point", "named",
      "children"] =
      some ⟨[("kind", .text e.head.kind), ("start_byte", .natural e.head.span.start),
        ("end_byte", .natural e.head.span.stop), ("start_point", e.head.point.toJson),
        ("named", .bool e.head.named), ("children", .naturals e.children)], false⟩ := by
    simp [Entry.toJson, Json.fields?, Json.format, Fields.ofEntries?]
  have hkind : Json.text? (.text e.head.kind) = some e.head.kind := rfl
  have hnamed : Json.format.truth? (.bool e.head.named) = some e.head.named := rfl
  simp [Entry.ofJson?, hf, hkind, hnamed, Fields.required, Fields.orElse, Fields.get?,
    Option.bind_eq_some_iff, size?_natural, Point.ofJson?_toJson, sizes?_naturals, Sized, and_assoc]

theorem Entry.plain_toJson (e : Entry) : e.toJson.Plain := by
  have hpoint : e.head.point.toJson.Plain := ⟨trivial, trivial, trivial⟩
  have hplace (n : Nat) : (Json.natural n).Plain := trivial
  have hchildren := Json.plainItems_map hplace e.children
  exact ⟨trivial, trivial, trivial, hpoint, trivial, hchildren, trivial⟩

namespace Table

theorem ofJson?_toJson (t t' : Table) : ofJson? t.toJson = some t' ↔ t.Sized ∧ t = t' := by
  have hf : t.toJson.fields? ["nodes", "root"] =
      some ⟨[("nodes", .list (t.entries.toList.map Entry.toJson)), ("root", .natural t.root)],
        false⟩ := by
    simp [toJson, Json.fields?, Json.format, Fields.ofEntries?]
  have hentries (results : List Entry) :
      Json.format.list Entry.ofJson? (.list (t.entries.toList.map Entry.toJson)) = some results ↔
        (∀ e ∈ t.entries.toList, e.Sized) ∧ t.entries.toList = results :=
    mapM_map_eq_some Entry.ofJson?_toJson t.entries.toList results
  simp [ofJson?, hf, hentries, Fields.required, Fields.get?, Option.bind_eq_some_iff,
    size?_natural, Sized, and_assoc]

theorem plain_toJson (t : Table) : t.toJson.Plain :=
  ⟨Json.plainItems_map Entry.plain_toJson t.entries.toList, trivial, trivial⟩

/-- The text of a table is read as the table itself, if all its numbers are sizes; if one is not,
the text is refused. -/
theorem render_read_back (t t' : Table) : parse? t.render = some t' ↔ t.Sized ∧ t = t' := by
  rw [parse?, render, Json.parse?_pretty t.plain_toJson, Option.bind_some, ofJson?_toJson]

end Table

end Cst

end ComponentCompiler
