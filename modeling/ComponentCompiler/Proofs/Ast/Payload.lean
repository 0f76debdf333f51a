import ComponentCompiler.Proofs.Ast.Growth

namespace ComponentCompiler

inductive Slot where
  | properties
  | assignments
  | events
  | listeners
  | functions
  | idComponents
  | defaultSlot
  | bindings
  deriving DecidableEq

namespace Members

def list (m : Members) : Slot → List NodeId
  | .properties => m.properties
  | .assignments => m.assignments
  | .events => m.events
  | .listeners => m.listeners
  | .functions => m.functions
  | .idComponents => m.idComponents
  | .defaultSlot => m.defaultSlot
  | .bindings => []

def push (m : Members) (x : NodeId) : Slot → Members
  | .properties => { m with properties := m.properties ++ [x] }
  | .assignments => { m with assignments := m.assignments ++ [x] }
  | .events => { m with events := m.events ++ [x] }
  | .listeners => { m with listeners := m.listeners ++ [x] }
  | .functions => { m with functions := m.functions ++ [x] }
  | .idComponents => { m with idComponents := m.idComponents ++ [x] }
  | .defaultSlot => { m with defaultSlot := m.defaultSlot ++ [x] }
  | .bindings => m

def ids (m : Members) : List NodeId :=
  m.properties ++ m.assignments ++ m.events ++ m.listeners ++ m.functions ++ m.idComponents ++
    m.defaultSlot

theorem list_push (m : Members) (x : NodeId) {slot : Slot} (h : slot ≠ .bindings)
    (slot' : Slot) :
    (m.push x slot).list slot' = m.list slot' ++ if slot = slot' then [x] else [] := by
  cases slot <;> cases slot' <;> simp_all [push, list]

theorem mem_ids_push {m : Members} {x y : NodeId} {slot : Slot} (h : y ∈ (m.push x slot).ids) :
    y ∈ m.ids ∨ y = x := by
  cases slot <;> simp only [push, ids, List.mem_append, List.mem_singleton] at h ⊢ <;> tauto

end Members

@[grind =] theorem mem_toList_or {first : Option NodeId} {x y : NodeId} :
    x ∈ (first.or (some y)).toList ↔ x ∈ first.toList ∨ first = none ∧ x = y := by
  cases first <;> simp [eq_comm]

def DeclarationData.parts (d : DeclarationData) : List NodeId :=
  d.name.toList ++ d.heritage ++ d.id.toList ++ d.body.toList ++ d.ctor.toList

def InstanceData.parts (i : InstanceData) : List NodeId :=
  i.name ++ i.id.toList ++ i.boundName.toList ++ i.arguments.toList ++ i.body.toList

def PropertyData.parts (p : PropertyData) : List NodeId :=
  p.typeName.toList ++ p.name.toList ++ (p.value.map PropertyValue.node).toList

def AssignmentData.parts (a : AssignmentData) : List NodeId :=
  a.path ++ (a.value.map PropertyValue.node).toList

def Parameter.parts (p : Parameter) : List NodeId :=
  p.typeName.toList ++ [p.name]

def FunctionData.parts (f : FunctionData) : List NodeId :=
  f.name.toList ++ f.params.flatMap Parameter.parts ++ f.paramsNode.toList ++ f.body.toList ++
    f.superCall.toList

def ImportData.parts (i : ImportData) : List NodeId :=
  i.path ++ i.localName.toList

def TaggedData.parts (t : TaggedData) : List NodeId :=
  t.tag.toList ++ t.string.toList

namespace NodeKind

/-- The kind without the ids it records; of the marks, only that of a root instance stays. -/
def shape : NodeKind → NodeKind
  | importStatement _ => importStatement {}
  | declaration _ => declaration {}
  | instance_ i => instance_ { isRoot := i.isRoot }
  | property _ => property {}
  | assignment _ => assignment {}
  | call _ => call false
  | callable form _ => callable form {}
  | tagged _ => tagged {}
  | k => k

def held : NodeKind → List NodeId
  | importStatement i => i.parts
  | declaration d => d.parts ++ d.members.ids
  | instance_ i => i.parts ++ i.members.ids
  | property p => p.parts ++ p.bindings
  | assignment a => a.parts ++ a.bindings
  | callable _ f => f.parts
  | tagged t => t.parts
  | _ => []

def owner? : NodeKind → Option NodeId
  | instance_ i => i.owner
  | _ => none

/-- The functions whose parameters are declared in the scope of their body. -/
def isFunction : NodeKind → Bool
  | callable .arrow _ => false
  | callable _ _ => true
  | _ => false

def isArrow : NodeKind → Bool
  | callable .arrow _ => true
  | _ => false

def parameterNames (k : NodeKind) : List NodeId :=
  if k.isFunction then k.function?.elim [] fun f => f.params.map (·.name) else []

def entries (slot : Slot) : NodeKind → List NodeId
  | declaration d => d.members.list slot
  | instance_ i => i.members.list slot
  | property p => if slot = .bindings then p.bindings else []
  | assignment a => if slot = .bindings then a.bindings else []
  | _ => []

def keeps (slot : Slot) (k : NodeKind) : Bool :=
  if slot = .bindings then k.isProperty else k.members?.isSome

def push (slot : Slot) (x : NodeId) : NodeKind → NodeKind :=
  if slot = .bindings then addBinding x else mapMembers fun m => m.push x slot

/-- The kinds of the nodes that are added without anything below them, or with names only. -/
def isLeaf : NodeKind → Bool
  | identifier | importPath | heritage | taggedString | number | formalParameters => true
  | _ => false

def isWrapper : NodeKind → Bool
  | scriptScope | body | subscript | arguments | expressionStatement | returnStatement
  | object => true
  | _ => false

variable {k : NodeKind} {slot slot' : Slot} {x y : NodeId}

theorem shape_eq_of_isLeaf (h : k.isLeaf) {k' : NodeKind} (hk : k'.shape = k.shape) : k' = k := by
  cases k <;> simp [isLeaf] at h <;> cases k' <;> simp_all [shape]

theorem isLeaf_shape (k : NodeKind) : k.shape.isLeaf = k.isLeaf := by
  cases k <;> rfl

theorem bearsScope_shape (k : NodeKind) : k.shape.bearsScope = k.bearsScope := by
  cases k with
  | callable form _ => cases form <;> rfl
  | _ => rfl

theorem isFunction_shape (k : NodeKind) : k.shape.isFunction = k.isFunction := by
  cases k with
  | callable form _ => cases form <;> rfl
  | _ => rfl

theorem isArrow_shape (k : NodeKind) : k.shape.isArrow = k.isArrow := by
  cases k with
  | callable form _ => cases form <;> rfl
  | _ => rfl

theorem isFunction_of_isArrow (h : k.isArrow) : k.isFunction = false := by
  cases k with
  | callable form _ =>
    cases form with
    | arrow => rfl
    | _ => cases h
  | _ => rfl

theorem group_shape (k : NodeKind) : k.shape.group = k.group := by
  cases k <;> rfl

theorem isSome_members?_shape (k : NodeKind) : k.shape.members?.isSome = k.members?.isSome := by
  cases k <;> rfl

theorem isProperty_shape (k : NodeKind) : k.shape.isProperty = k.isProperty := by
  cases k <;> rfl

theorem stopsBinding_shape (k : NodeKind) : k.shape.stopsBinding = k.stopsBinding := by
  cases k with
  | callable form _ => cases form <;> rfl
  | _ => rfl

def Bare (k : NodeKind) : Prop :=
  k.shape = k

theorem Bare.held (h : k.Bare) : k.held = [] := by
  rw [← show k.shape = k from h]
  cases k <;> rfl

theorem Bare.owner? (h : k.Bare) : k.owner? = none := by
  rw [← show k.shape = k from h]
  cases k <;> rfl

theorem Bare.parameterNames (h : k.Bare) : k.parameterNames = [] := by
  rw [← show k.shape = k from h]
  cases k with
  | callable form _ => cases form <;> rfl
  | _ => rfl

theorem Bare.entries (h : k.Bare) (slot : Slot) : k.entries slot = [] := by
  rw [← show k.shape = k from h]
  cases k <;> cases slot <;> rfl

theorem bare_of_isLeaf (h : k.isLeaf) : k.Bare := by
  cases k <;> simp [isLeaf] at h <;> rfl

theorem bare_of_isWrapper (h : k.isWrapper) : k.Bare := by
  cases k <;> simp [isWrapper] at h <;> rfl

theorem group_of_isWrapper (h : k.isWrapper) : k.group ≠ .importStatement := by
  cases k <;> simp [isWrapper, group] at h ⊢

theorem shape_push : (k.push slot x).shape = k.shape := by
  unfold push
  split <;> cases k <;> rfl

theorem owner?_push : (k.push slot x).owner? = k.owner? := by
  unfold push
  split <;> cases k <;> rfl

theorem parameterNames_push : (k.push slot x).parameterNames = k.parameterNames := by
  unfold push
  split <;> cases k <;> rfl

theorem mem_held_push (h : y ∈ (k.push slot x).held) : y ∈ k.held ∨ y = x := by
  unfold push at h
  split at h
  · cases k with
    | property | assignment =>
      simp only [addBinding, held, List.mem_append, List.mem_singleton, PropertyData.parts,
        AssignmentData.parts] at h ⊢
      tauto
    | _ => exact .inl h
  · cases k with
    | declaration d | instance_ i =>
      rcases List.mem_append.mp h with h | h
      · exact .inl (List.mem_append_left _ h)
      · exact (Members.mem_ids_push h).imp_left (List.mem_append_right _)
    | _ => exact .inl h

theorem entries_push (h : k.keeps slot) :
    (k.push slot x).entries slot' = k.entries slot' ++ if slot = slot' then [x] else [] := by
  unfold push
  unfold keeps at h
  split at h
  · next hs =>
    subst hs
    cases k <;> simp [isProperty] at h <;> cases slot' <;> simp [addBinding, entries]
  · next hs =>
    rw [if_neg hs]
    cases k <;> simp [members?] at h <;> exact Members.list_push _ _ hs slot'

structure Notes (k k' : NodeKind) (parts names : List NodeId) : Prop where
  shape : k'.shape = k.shape
  held : ∀ x ∈ k'.held, x ∈ k.held ∨ x ∈ parts
  names : ∀ x ∈ k'.parameterNames, x ∈ k.parameterNames ∨ x ∈ names
  owner : k'.owner? = k.owner?
  entries : ∀ slot, k'.entries slot = k.entries slot

variable {parts names : List NodeId}

theorem Notes.refl (k : NodeKind) : Notes k k parts names :=
  ⟨rfl, fun _ => .inl, fun _ => .inl, rfl, fun _ => rfl⟩

theorem notes_mapDeclaration {f : DeclarationData → DeclarationData}
    (hp : ∀ d, ∀ x ∈ (f d).parts, x ∈ d.parts ∨ x ∈ parts) (hm : ∀ d, (f d).members = d.members) :
    Notes k (k.mapDeclaration f) parts names := by
  cases k with
  | declaration d =>
    refine ⟨rfl, fun x hx => ?_, fun _ => .inl, rfl, fun slot => ?_⟩
    · simp only [mapDeclaration, NodeKind.held, hm, List.mem_append] at hx ⊢
      have := hp d x
      tauto
    · simp only [mapDeclaration, NodeKind.entries, hm]
  | _ => exact .refl _

theorem notes_mapInstance {f : InstanceData → InstanceData}
    (hp : ∀ i, ∀ x ∈ (f i).parts, x ∈ i.parts ∨ x ∈ parts)
    (hm : ∀ i, (f i).members = i.members ∧ (f i).owner = i.owner ∧ (f i).isRoot = i.isRoot) :
    Notes k (k.mapInstance f) parts names := by
  cases k with
  | instance_ i =>
    obtain ⟨hmembers, howner, hroot⟩ := hm i
    refine ⟨?_, fun x hx => ?_, fun _ => .inl, howner, fun slot => ?_⟩
    · simp only [mapInstance, NodeKind.shape, hroot]
    · simp only [mapInstance, NodeKind.held, hmembers, List.mem_append] at hx ⊢
      have := hp i x
      tauto
    · simp only [mapInstance, NodeKind.entries, hmembers]
  | _ => exact .refl _

theorem notes_mapProperty {f : PropertyData → PropertyData}
    (hp : ∀ p, ∀ x ∈ (f p).parts, x ∈ p.parts ∨ x ∈ parts)
    (hb : ∀ p, (f p).bindings = p.bindings) : Notes k (k.mapProperty f) parts names := by
  cases k with
  | property p =>
    refine ⟨rfl, fun x hx => ?_, fun _ => .inl, rfl, fun slot => ?_⟩
    · simp only [mapProperty, NodeKind.held, hb, List.mem_append] at hx ⊢
      have := hp p x
      tauto
    · simp only [mapProperty, NodeKind.entries, hb]
  | _ => exact .refl _

theorem notes_mapAssignment {f : AssignmentData → AssignmentData}
    (hp : ∀ a, ∀ x ∈ (f a).parts, x ∈ a.parts ∨ x ∈ parts)
    (hb : ∀ a, (f a).bindings = a.bindings) : Notes k (k.mapAssignment f) parts names := by
  cases k with
  | assignment a =>
    refine ⟨rfl, fun x hx => ?_, fun _ => .inl, rfl, fun slot => ?_⟩
    · simp only [mapAssignment, NodeKind.held, hb, List.mem_append] at hx ⊢
      have := hp a x
      tauto
    · simp only [mapAssignment, NodeKind.entries, hb]
  | _ => exact .refl _

theorem notes_mapFunction {f : FunctionData → FunctionData}
    (hp : ∀ d, ∀ x ∈ (f d).parts, x ∈ d.parts ∨ x ∈ parts)
    (hn : k.isFunction → ∀ d, ∀ p ∈ (f d).params, p ∈ d.params ∨ p.name ∈ names) :
    Notes k (k.mapFunction f) parts names := by
  cases k with
  | callable form d =>
    have hshape : (callable form (f d)).isFunction = (callable form d).isFunction := by
      rw [← isFunction_shape, ← isFunction_shape (callable form d)]
      rfl
    refine ⟨rfl, fun x hx => hp d x hx, fun x hx => ?_, rfl, fun _ => rfl⟩
    unfold NodeKind.parameterNames at hx ⊢
    simp only [mapFunction, hshape] at hx
    split at hx
    · next h =>
      rw [if_pos h]
      obtain ⟨p, hmem, rfl⟩ := List.mem_map.mp hx
      exact (hn h d p hmem).imp_left (List.mem_map_of_mem (f := Parameter.name))
    · cases hx
  | _ => exact .refl _

theorem notes_mapTagged {f : TaggedData → TaggedData}
    (hp : ∀ t, ∀ x ∈ (f t).parts, x ∈ t.parts ∨ x ∈ parts) :
    Notes k (k.mapTagged f) parts names := by
  cases k with
  | tagged t => exact ⟨rfl, hp t, fun _ => .inl, rfl, fun _ => rfl⟩
  | _ => exact .refl _

theorem notes_withId : Notes k (k.withId x) [x] names := by
  cases k with
  | declaration _ =>
    exact notes_mapDeclaration (k := declaration _) (f := fun d => { d with id := some x })
      (fun d y hy => by grind [DeclarationData.parts]) fun _ => rfl
  | instance_ _ =>
    exact notes_mapInstance (k := instance_ _) (f := fun i => { i with id := some x })
      (fun i y hy => by grind [InstanceData.parts]) fun _ => ⟨rfl, rfl, rfl⟩
  | _ => exact .refl _

theorem notes_withBody : Notes k (k.withBody x) [x] names := by
  cases k with
  | declaration _ =>
    exact notes_mapDeclaration (k := declaration _) (f := fun d => { d with body := some x })
      (fun d y hy => by grind [DeclarationData.parts]) fun _ => rfl
  | instance_ _ =>
    exact notes_mapInstance (k := instance_ _) (f := fun i => { i with body := some x })
      (fun i y hy => by grind [InstanceData.parts]) fun _ => ⟨rfl, rfl, rfl⟩
  | _ => exact .refl _

theorem notes_withValue {v : PropertyValue} : Notes k (k.withValue v) [v.node] names := by
  cases k with
  | property _ =>
    exact notes_mapProperty (k := property _) (f := fun p => { p with value := some v })
      (fun p y hy => by grind [PropertyData.parts]) fun _ => rfl
  | assignment _ =>
    exact notes_mapAssignment (k := assignment _) (f := fun a => { a with value := some v })
      (fun a y hy => by grind [AssignmentData.parts]) fun _ => rfl
  | _ => exact .refl _

theorem notes_call {old new : Bool} : Notes (call old) (call new) parts names :=
  ⟨rfl, fun _ => .inl, fun _ => .inl, rfl, fun _ => rfl⟩

theorem notes_importStatement {old data : ImportData} :
    Notes (importStatement old) (importStatement data) data.parts names :=
  ⟨rfl, fun _ => .inr, fun _ h => .inl h, rfl, fun _ => rfl⟩

theorem notes_addBinding (h : k.isProperty = false) : Notes k (k.addBinding x) parts names := by
  cases k with
  | property _ | assignment _ => cases h
  | _ => exact .refl _

end NodeKind

end ComponentCompiler
