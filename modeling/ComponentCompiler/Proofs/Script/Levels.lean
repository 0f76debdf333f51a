import ComponentCompiler.Proofs.Ast.Visits
import ComponentCompiler.Script.Edits

namespace ComponentCompiler

open Relation

namespace Ast.Sound

variable {ast : Ast} {id x : NodeId} {k : NodeKind} (h : ast.Sound)

include h

theorem lt_child (hx : x ∈ ast.children id) : id < x :=
  h.linked.up_lt ((mem_children h.linked).mp hx)

theorem lt_held (hk : ast.kind? id = some k) (hx : x ∈ k.held) : id < x := by
  have hheld : x ∈ ast.held id := by
    rw [Ast.held, hk]
    exact hx
  exact h.linked.above_lt (h.held id x hheld)

theorem lt_part {f : FunctionData} (hf : (ast.kind? id).bind NodeKind.function? = some f)
    (hx : x ∈ f.parts) : id < x := by
  obtain ⟨k, hk, hf⟩ := Option.bind_eq_some_iff.mp hf
  cases k <;> cases hf
  exact h.lt_held hk hx

end Ast.Sound

def Conversion.AgreeBehind (id : NodeId) (c c' : Conversion) : Prop :=
  ∀ x, id < x → c x = c' x

namespace ScriptInput

variable {s : ScriptInput} {c c' : Conversion} {id x : NodeId} {depth : Nat} {m : Members}

theorem renderRange_congr {range : Span} {roots : List NodeId}
    (h : ∀ x ∈ roots, c x = c' x) :
    s.renderRange c range roots depth = s.renderRange c' range roots depth := by
  unfold renderRange
  rw [List.flatMap_congr fun x hx => congrFun (h x hx) depth]

section

variable (hs : s.ast.Sound) (h : Conversion.AgreeBehind id c c')

include h

theorem renderNode_congr (hx : id < x) : s.renderNode c x depth = s.renderNode c' x depth :=
  renderRange_congr fun _ hy => List.mem_singleton.mp hy ▸ h x hx

theorem defaultContent_congr (hm : ∀ x ∈ m.ids, id < x) :
    s.defaultContent c m depth = s.defaultContent c' m depth := by
  have hslot : m.defaultSlot.map (fun x => s.renderNode c x (depth + 1)) =
      m.defaultSlot.map fun x => s.renderNode c' x (depth + 1) :=
    List.map_congr_left fun x hx => renderNode_congr h (hm x (by simp [Members.ids, hx]))
  unfold defaultContent
  rw [hslot]

include hs

theorem renderChildren_congr (hx : id ≤ x) : s.renderChildren c x = s.renderChildren c' x :=
  renderRange_congr fun y hy => h y (Nat.lt_of_le_of_lt hx (hs.lt_child hy))

theorem renderBody_congr {f : FunctionData} (hf : ∀ x ∈ f.parts, id ≤ x) :
    s.renderBody c f = s.renderBody c' f := by
  unfold renderBody
  cases hb : f.body with
  | none => rfl
  | some body => exact renderChildren_congr hs h (hf body (by simp [FunctionData.parts, hb]))

theorem assignment_congr {owner : NodeId} {bindings : List NodeId} {object name : String}
    {v : PropertyValue} (hv : id < v.node) :
    s.assignment c owner bindings object name v depth =
      s.assignment c' owner bindings object name v depth := by
  have hnode : s.renderNode c v.node depth = s.renderNode c' v.node depth :=
    renderNode_congr h hv
  have hchildren : s.renderChildren c v.node = s.renderChildren c' v.node :=
    renderChildren_congr hs h (Nat.le_of_lt hv)
  unfold assignment watchedAssignment plainValue evaluator
  rw [hnode, hchildren]

theorem propertyText_congr (hx : id < x) : s.propertyText c depth x = s.propertyText c' depth x := by
  unfold propertyText
  split
  · next p hk =>
    cases hv : p.value with
    | none => rfl
    | some v =>
      have hlt : x < v.node := hs.lt_held hk (by simp [NodeKind.held, PropertyData.parts, hv])
      exact assignment_congr hs h (Nat.lt_trans hx hlt)
  · rfl

theorem assignmentText_congr (hx : id < x) :
    s.assignmentText c depth x = s.assignmentText c' depth x := by
  unfold assignmentText
  split
  · next a hk =>
    split
    · next v last hv hlast =>
      have hlt : x < v.node := hs.lt_held hk (by simp [NodeKind.held, AssignmentData.parts, hv])
      exact assignment_congr hs h (Nat.lt_trans hx hlt)
    · rfl
  · rfl

theorem listenerText_congr (hx : id < x) : s.listenerText c depth x = s.listenerText c' depth x := by
  unfold listenerText
  cases hf : (s.ast.kind? x).bind NodeKind.function? with
  | none => rfl
  | some f =>
    have hparts : ∀ y ∈ f.parts, id ≤ y := fun y hy =>
      Nat.le_of_lt (Nat.lt_trans hx (hs.lt_part hf hy))
    rw [Option.elim_some, Option.elim_some, renderBody_congr hs h hparts]

theorem idComponentTexts_congr {body : Option NodeId} (hb : ∀ b ∈ body, id < b) :
    s.idComponentTexts c body depth = s.idComponentTexts c' body depth := by
  unfold idComponentTexts
  refine congrArg String.join (List.map_congr_left fun x hx => ?_)
  have hlt : id < x := by
    cases body with
    | none => cases hx
    | some b => exact Nat.lt_trans (hb b rfl) (hs.lt_child hx)
  rw [renderNode_congr h hlt]

theorem initializerBody_congr {body : Option NodeId} (hm : ∀ x ∈ m.ids, id < x)
    (hb : ∀ b ∈ body, id < b) :
    s.initializerBody c m body depth = s.initializerBody c' m body depth := by
  have hlisteners : m.listeners.map (s.listenerText c depth) =
      m.listeners.map (s.listenerText c' depth) :=
    List.map_congr_left fun x hx => listenerText_congr hs h (hm x (by simp [Members.ids, hx]))
  have hproperties : m.properties.map (s.propertyText c depth) =
      m.properties.map (s.propertyText c' depth) :=
    List.map_congr_left fun x hx => propertyText_congr hs h (hm x (by simp [Members.ids, hx]))
  have hassignments : m.assignments.map (s.assignmentText c depth) =
      m.assignments.map (s.assignmentText c' depth) :=
    List.map_congr_left fun x hx => assignmentText_congr hs h (hm x (by simp [Members.ids, hx]))
  unfold initializerBody
  rw [hlisteners, hproperties, hassignments, idComponentTexts_congr hs h hb,
    defaultContent_congr h hm]

theorem constructorBody_congr {f : FunctionData} (hf : ∀ x ∈ f.parts, id ≤ x) :
    s.constructorBody c f depth = s.constructorBody c' f depth := by
  have hbody {body : NodeId} {range : Span} (hb : f.body = some body) :
      s.renderRange c range (s.ast.children body) 0 =
        s.renderRange c' range (s.ast.children body) 0 := by
    have hle : id ≤ body := hf body (by simp [FunctionData.parts, hb])
    exact renderRange_congr fun y hy => h y (Nat.lt_of_le_of_lt hle (hs.lt_child hy))
  unfold constructorBody
  split
  · next hb => rw [hbody hb]
  · next hb => rw [hbody hb]
  · rfl

theorem constructorText_congr {ctor : Option NodeId} (hc : ∀ x ∈ ctor, id < x) :
    s.constructorText c ctor depth = s.constructorText c' ctor depth := by
  unfold constructorText
  split
  · rfl
  · next f hf =>
    obtain ⟨k, hk, hfun⟩ := Option.bind_eq_some_iff.mp hf
    obtain ⟨x, rfl, hx⟩ := Option.bind_eq_some_iff.mp hk
    have hparts : ∀ y ∈ f.parts, id ≤ y := fun y hy =>
      Nat.le_of_lt (Nat.lt_trans (hc x rfl) (hs.lt_part (by rw [hx]; exact hfun) hy))
    rw [constructorBody_congr hs h hparts]

theorem methodText_congr (hx : id < x) : s.methodText c depth x = s.methodText c' depth x := by
  unfold methodText
  split
  · rw [renderChildren_congr hs h (Nat.le_of_lt hx)]
  · next f hk =>
    rw [renderBody_congr hs h fun y hy => Nat.le_of_lt (Nat.lt_trans hx (hs.lt_held hk hy))]
  · rfl

theorem functionText_congr (hx : id < x) :
    s.functionText c depth x = s.functionText c' depth x := by
  unfold functionText
  split
  · next form f hk =>
    rw [renderBody_congr hs h fun y hy => Nat.le_of_lt (Nat.lt_trans hx (hs.lt_held hk hy))]
  · rfl

theorem classText_congr {d : DeclarationData} (hk : s.ast.kind? id = some (.declaration d)) :
    s.classText c id d depth = s.classText c' id d depth := by
  have hheld : ∀ x ∈ d.parts ++ d.members.ids, id < x := fun x hx => hs.lt_held hk hx
  have hm : ∀ x ∈ d.members.ids, id < x := fun x hx => hheld x (by simp [hx])
  have hb : ∀ b ∈ d.body, id < b := fun b hb => hheld b (by
    simp [DeclarationData.parts, Option.mem_def.mp hb])
  have hc : ∀ x ∈ d.ctor, id < x := fun x hx => hheld x (by
    simp [DeclarationData.parts, Option.mem_def.mp hx])
  have hfunctions : d.members.functions.map (s.methodText c (depth + 1)) =
      d.members.functions.map (s.methodText c' (depth + 1)) :=
    List.map_congr_left fun x hx => methodText_congr hs h (hm x (by simp [Members.ids, hx]))
  unfold classText
  rw [constructorText_congr hs h hc, initializerBody_congr hs h hm hb, hfunctions]

theorem instanceText_congr {i : InstanceData} (hk : s.ast.kind? id = some (.instance_ i)) :
    s.instanceText c id i depth = s.instanceText c' id i depth := by
  have hheld : ∀ x ∈ i.parts ++ i.members.ids, id < x := fun x hx => hs.lt_held hk hx
  have hm : ∀ x ∈ i.members.ids, id < x := fun x hx => hheld x (by simp [hx])
  have hb : ∀ b ∈ i.body, id < b := fun b hb => hheld b (by
    simp [InstanceData.parts, Option.mem_def.mp hb])
  have hfunctions : i.members.functions.map (s.functionText c (depth + 1)) =
      i.members.functions.map (s.functionText c' (depth + 1)) :=
    List.map_congr_left fun x hx => functionText_congr hs h (hm x (by simp [Members.ids, hx]))
  have htarget : s.instanceTarget c i = s.instanceTarget c' i := by
    unfold instanceTarget
    split
    · rfl
    · cases ha : i.arguments with
      | none => rfl
      | some a =>
        have hlt : id < a := hheld a (by simp [InstanceData.parts, ha])
        rw [Option.elim_some, Option.elim_some, renderChildren_congr hs h (Nat.le_of_lt hlt)]
  unfold instanceText
  rw [initializerBody_congr hs h hm hb, hfunctions, htarget]

theorem variablesText_congr {keyword : Keyword} :
    s.variablesText c id keyword = s.variablesText c' id keyword := by
  unfold variablesText
  dsimp only
  refine congrArg (String.join · ++ _) (List.map_congr_left fun x hx => ?_)
  have hlt : id < x := hs.lt_child (List.mem_filter.mp hx).1
  rw [renderChildren_congr hs h (Nat.le_of_lt hlt)]

theorem replacement?_congr : s.replacement? c id depth = s.replacement? c' id depth := by
  unfold replacement?
  split
  · next hk => rw [classText_congr hs h hk]
  · next hk => rw [instanceText_congr hs h hk]
  · rfl
  · rw [variablesText_congr hs h]
  · rfl

/-- What a node is converted to depends on the conversion of the nodes behind it only. -/
theorem convertNode_congr : s.convertNode c id depth = s.convertNode c' id depth := by
  unfold convertNode
  rw [replacement?_congr hs h, List.flatMap_congr fun x hx => congrFun (h x (hs.lt_child hx)) depth]

end

theorem convertWithin_of_size_le (levels : Nat) (hid : s.ast.size ≤ id) :
    s.convertWithin levels id depth = [] := by
  have hnode : s.ast.node? id = none := Ast.node?_eq_none hid
  cases levels with
  | zero => rfl
  | succ levels =>
    simp [convertWithin, convertNode, replacement?, Ast.isKind, Ast.kind?, Ast.children, hnode]

/-- More levels than there are nodes from one on make no difference. -/
theorem convertWithin_eq (hs : s.ast.Sound) {k k' : Nat} (hk : s.ast.size ≤ id + k)
    (hk' : s.ast.size ≤ id + k') : s.convertWithin k id = s.convertWithin k' id := by
  funext depth
  induction k generalizing id k' depth with
  | zero =>
    have hid : s.ast.size ≤ id := hk
    rw [convertWithin_of_size_le _ hid, convertWithin_of_size_le _ hid]
  | succ k ih =>
    cases k' with
    | zero =>
      have hid : s.ast.size ≤ id := hk'
      rw [convertWithin_of_size_le _ hid, convertWithin_of_size_le _ hid]
    | succ k' =>
      have hbehind : Conversion.AgreeBehind id (s.convertWithin k) (s.convertWithin k') := by
        intro x hx
        funext depth
        have hlt : Nat.succ id ≤ x := hx
        exact ih (by omega) (by omega) depth
      exact convertNode_congr hs hbehind

/-- The conversion of a node is made from the conversions of the nodes below it. -/
theorem convert_eq (hs : s.ast.Sound) (id : NodeId) (depth : Nat) :
    s.convert id depth = s.convertNode s.convert id depth := by
  have hbehind : Conversion.AgreeBehind id (s.convertWithin s.ast.size) s.convert := by
    intro x hx
    exact convertWithin_eq hs (by omega) (by omega)
  exact convertNode_congr hs hbehind

end ScriptInput

end ComponentCompiler
