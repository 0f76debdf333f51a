import ComponentCompiler.Proofs.Ast.Naming

namespace ComponentCompiler

def NodeKind.isValue : NodeKind → Bool
  | bindableExpression | block | declaration _ => true
  | _ => false

theorem NodeKind.isValue_shape (k : NodeKind) : k.shape.isValue = k.isValue := by
  cases k <;> rfl

namespace Ast

open Cst (Tree)
open Relation

variable {a ast : Ast} {m owner p x : NodeId} {kind : NodeKind} {role : Role} {rule : Rule}
  {t : Tree} {ts : List Tree}

def Role.isPropertyPart : Role → Bool
  | propertyPart | assignmentSlot _ => true
  | _ => false

theorem Role.isPropertyPart_next (t : Tree) : (role.next t).isPropertyPart = role.isPropertyPart := by
  cases role <;> rfl

/-- The rule opens nodes for values only, and its node does not stand for what is inside. -/
def Rule.ForValues (rule : Rule) : Prop :=
  rule ≠ .pass ∧ ∀ a owner t kind, rule.opens? a owner t = some kind → kind.isValue

theorem Rule.forValues_of_none (hp : rule ≠ .pass) (h : ∀ a owner t, rule.opens? a owner t = none) :
    rule.ForValues := by
  refine ⟨hp, fun a owner t kind hk => ?_⟩
  rw [h] at hk
  cases hk

theorem Rule.forValues_ofValueKind (k : Cst.Kind) : (ofValueKind k).ForValues := by
  unfold ofValueKind
  split
  · exact ⟨nofun, fun _ _ _ _ h => Option.some.inj h ▸ rfl⟩
  · exact ⟨nofun, fun _ _ _ _ h => Option.some.inj h ▸ rfl⟩
  · exact ⟨nofun, fun _ _ _ _ h => Option.some.inj h ▸ rfl⟩
  · exact forValues_of_none nofun fun _ _ _ => rfl

theorem Rule.forValues_ofRole (h : role.isPropertyPart) (k : Cst.Kind) :
    (ofRole role k).ForValues := by
  cases role with
  | propertyPart =>
    change (ofPropertyPart k).ForValues
    unfold ofPropertyPart
    split
    · exact forValues_of_none nofun fun _ _ _ => rfl
    · exact forValues_of_none nofun fun _ _ _ => rfl
    · exact forValues_ofValueKind k
  | assignmentSlot place =>
    change (ofAssignmentSlot place k).ForValues
    unfold ofAssignmentSlot
    split
    · exact forValues_of_none nofun fun _ _ _ => rfl
    · exact forValues_ofValueKind k
    · exact forValues_of_none nofun fun _ _ _ => rfl
  | _ => cases h

theorem Rule.inside_of_isProperty (hr : rule.Suits a owner)
    (h : rule.opens? a owner t = some kind) (hk : kind.isProperty) (id : NodeId) :
    ∃ child : Role, rule.inside owner id = some (child, id) ∧ child.isPropertyPart := by
  cases rule with
  | wrap kind =>
    cases h
    cases kind with
    | property _ | assignment _ => cases hr
    | _ => cases hk
  | property => exact ⟨.propertyPart, rfl, rfl⟩
  | assignment => exact ⟨.assignmentSlot 0, rfl, rfl⟩
  | value form => cases form <;> cases h <;> cases hk
  | _ => cases h <;> cases hk

theorem Moment.In.role_of_property {m : Moment} (h : m.In role owner ts a)
    (hw : Workplace role a owner) (hrole : a.isKind owner NodeKind.isProperty → role.isPropertyPart)
    (hp : m.ast.isKind m.owner NodeKind.isProperty) : m.role.isPropertyPart := by
  induction h with
  | here => exact hrole hp
  | @later role owner t ts a _ ih =>
    obtain ⟨log, hv⟩ := hw.visits t
    refine ih (hw.next t) fun hk => ?_
    rw [(hv.run hw.lt).extension.isKind_eq NodeKind.isProperty_shape hw.lt] at hk
    rw [Role.isPropertyPart_next]
    exact hrole hk
  | @inside role child owner o head slots ts a hi _ ih =>
    cases hw.visitCase head slots with
    | leaves _ hnone _ | closed _ hnone _ =>
      rw [hnone] at hi
      cases hi
    | pass hpass hplain _ =>
      rw [hpass] at hi ih
      cases hi
      refine ih hplain fun hk => ?_
      exact absurd hpass (Rule.forValues_ofRole (hrole hk) _).1
    | node ho hi' hinner _ =>
      rw [hi'] at hi
      cases hi
      refine ih hinner fun hk => ?_
      have hserves := Rule.ofRole_serves hw.suits (Cst.Kind.ofName head.kind)
      obtain ⟨-, -, -, hs⟩ := Ast.opened hw.sound hserves.suits hw.lt ho
      rw [isKind_eq_shape? NodeKind.isProperty_shape, hs] at hk
      obtain ⟨child', hchild, hpart⟩ := Rule.inside_of_isProperty hserves.suits ho hk a.size
      rw [hi'] at hchild
      cases hchild
      exact hpart

section

variable {root : Tree} {unitName : String} (hb : build root unitName = .ok ast)

include hb

theorem isValue_of_up (hopen : ast.Opened x) (hu : ast.Up x p)
    (hp : ast.isKind p NodeKind.isProperty) : ast.isKind x NodeKind.isValue := by
  have hw := workplace_ofSpan root.span
  have hx : (ofSpan root.span).size ≤ x :=
    Nat.lt_of_le_of_lt (Nat.zero_le p) ((build_linked hb).up_lt hu)
  obtain rfl := eq_of_build hb
  obtain ⟨m, hm, rfl, ho⟩ := visitAll_moment root.slots hw x hx hopen
  obtain ⟨kind, ho⟩ := Option.isSome_iff_exists.mp ho
  obtain ⟨hplace, -⟩ := hm.workplace hw
  obtain ⟨hup, hs⟩ := hm.opened hw ho
  obtain rfl : m.owner = p := Option.some.inj (hup.symm.trans hu)
  have hext := (m.extends_after hplace).trans (hm.settled hw).extension
  rw [hext.isKind_eq NodeKind.isProperty_shape hplace.lt] at hp
  obtain ⟨rule, hrule, hopens⟩ := Option.bind_eq_some_iff.mp ho
  obtain ⟨k, -, rfl⟩ := Option.map_eq_some_iff.mp hrule
  have hpart := hm.role_of_property hw nofun hp
  rw [isKind_eq_shape? NodeKind.isValue_shape, hs]
  exact (Rule.forValues_ofRole hpart k).2 _ _ _ _ hopens

theorem opened_of_chain (hopen : ast.Opened x) (hc : ReflTransGen ast.Up x p) : ast.Opened p := by
  induction hc with
  | refl => exact hopen
  | tail _ hu ih => exact (housed_of_build hb ih hu).1

/-- A member expression below a property stands inside a value of it. -/
theorem exists_value_of_member (hk : ast.kind? m = some .member) (hu : TransGen ast.Up m p)
    (hp : ast.isKind p NodeKind.isProperty) :
    ∃ v, ast.Up v p ∧ ast.isKind v NodeKind.isValue ∧ TransGen ast.Up m v := by
  obtain ⟨v, hc, hv⟩ := TransGen.tail'_iff.mp hu
  have hmember : ast.Opened m := by
    rw [Opened, isKind, hk]
    rfl
  have hvalue := isValue_of_up hb (opened_of_chain hb hmember hc) hv hp
  refine ⟨v, hv, hvalue, (reflTransGen_iff_eq_or_transGen.mp hc).resolve_left ?_⟩
  rintro rfl
  rw [isKind, hk] at hvalue
  cases hvalue

end

end Ast

end ComponentCompiler
