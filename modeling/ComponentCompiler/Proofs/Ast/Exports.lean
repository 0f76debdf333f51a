import ComponentCompiler.Proofs.Ast.Naming

namespace ComponentCompiler.Ast

open Cst (Tree)

variable {a b ast : Ast} {o owner x : NodeId} {kind : NodeKind} {span : Span} {rule : Rule}
  {t : Tree}

/-- Declarations under the root, and root instances. -/
def isExported (ast : Ast) (id : NodeId) : Bool :=
  (ast.isKind id NodeKind.isDeclaration && ast.parent? id == some rootId) ||
    ast.isKind id NodeKind.isRoot

def exportedNodes (ast : Ast) : List NodeId :=
  (List.range ast.size).filter ast.isExported

theorem opened_of_isExported (h : ast.isExported x) : ast.Opened x := by
  have hkind : ∃ k, ast.kind? x = some k ∧ !k.isLeaf := by
    rcases Bool.or_eq_true_iff.mp h with h | h
    · obtain ⟨k, hk, hd⟩ := isKind_iff.mp (Bool.and_eq_true_iff.mp h).1
      exact ⟨k, hk, by cases k with | declaration d => rfl | _ => cases hd⟩
    · obtain ⟨k, hk, hr⟩ := isKind_iff.mp h
      exact ⟨k, hk, by cases k with | instance_ i => rfl | _ => cases hr⟩
  exact isKind_iff.mpr hkind

theorem Extends.isExported_eq (h : a.Extends b) (hx : x < a.size) :
    b.isExported x = a.isExported x := by
  unfold isExported
  rw [h.isKind_eq NodeKind.isDeclaration_shape hx, h.isKind_eq NodeKind.isRoot_shape hx,
    h.parent?_eq hx]

theorem Extends.exportedNodes_eq (h : a.Extends b)
    (hnew : ∀ x, a.size ≤ x → ¬ b.isExported x) : b.exportedNodes = a.exportedNodes := by
  obtain ⟨n, hn⟩ := Nat.exists_eq_add_of_le h.size_le
  have hold : (List.range a.size).filter b.isExported = a.exportedNodes :=
    List.filter_congr fun x hx => h.isExported_eq (List.mem_range.mp hx)
  have hrest : ((List.range n).map (a.size + ·)).filter b.isExported = [] := by
    apply List.filter_eq_nil_iff.mpr
    intro x hx
    obtain ⟨i, -, rfl⟩ := List.mem_map.mp hx
    exact hnew _ (Nat.le_add_right _ _)
  rw [exportedNodes, hn, List.range_add, List.filter_append, hold, hrest, List.append_nil]

def exportsUnder (owner : NodeId) (kind : NodeKind) : Bool :=
  (kind.isDeclaration && owner == rootId) || kind.isRoot

theorem exportedNodes_addListed (ho : owner < a.size) :
    (a.addListed kind span owner).exportedNodes =
      a.exportedNodes ++ if exportsUnder owner kind then [a.size] else [] := by
  have hext : a.Extends (a.addListed kind span owner) := extends_addListed ho
  have hold : (List.range a.size).filter (a.addListed kind span owner).isExported =
      a.exportedNodes :=
    List.filter_congr fun x hx => hext.isExported_eq (List.mem_range.mp hx)
  have hself : (a.addListed kind span owner).isExported a.size = exportsUnder owner kind := by
    unfold isExported isKind exportsUnder
    rw [kind?_addListed ho, parent?_addListed ho, if_pos rfl, if_pos rfl]
    rfl
  rw [exportedNodes, size_addListed, List.range_succ, List.filter_append, hold,
    List.filter_singleton, hself, cond_eq_ite]

def Listed (ast : Ast) : Prop :=
  ast.exports = ast.exportedNodes

theorem listed_ofSpan (span : Span) : (ofSpan span).Listed :=
  rfl

theorem exports_enterHeritage : (a.enterHeritage owner t).exports = a.exports := by
  have hid : a.size < (a.add .heritage t.span owner).size := by simp
  have hnames := (names_addAll hid ((childrenOfKind t .identifier).map Tree.span)).exports
  unfold enterHeritage
  dsimp only
  generalize (a.add .heritage t.span owner).nextIds (childrenOfKind t .identifier).length = ids
  cases ids with
  | nil => exact hnames
  | cons first rest => exact (quiet_use owner first).exports.trans hnames

theorem exports_enterTypeSegment : (a.enterTypeSegment owner t).exports = a.exports :=
  iteInduction (motive := fun b : Ast => b.exports = a.exports)
    (fun _ => (quiet_use owner _).exports) fun _ => rfl

theorem exports_of_leaves (hr : rule.Suits a owner) (hopen : a.Opened owner)
    (h : rule.opens? a owner t = none) : (enter rule owner t a).exports = a.exports := by
  by_cases hn : rule.isNaming
  · cases rule with
    | heritage => exact exports_enterHeritage
    | typeSegment => exact exports_enterTypeSegment
    | declarationName outer => exact (quiet_declare outer _).exports
    | declaration | instance_ => cases h
    | value form => cases form <;> cases h
    | _ => cases hn
  · exact (quiet_enter hr hopen.lt hopen.not_heritage (Bool.eq_false_iff.mpr hn)).exports

theorem exports_enterDeclaration : (a.enterDeclaration owner t).exports =
    a.exports ++ if exportsUnder owner (.declaration {}) then [a.size] else [] := by
  unfold enterDeclaration exportsUnder
  by_cases h : owner = rootId
  · simp [h, NodeKind.isDeclaration, add]
  · simp [h, NodeKind.isDeclaration, NodeKind.isRoot, add]

theorem exports_enterInstance : (a.enterInstance owner t).exports = a.exports ++
    if exportsUnder owner (.instance_ { isRoot := a.isRootPlace owner }) then [a.size] else [] := by
  unfold enterInstance exportsUnder
  cases h : a.isRootPlace owner <;> simp [NodeKind.isDeclaration, NodeKind.isRoot, add]

/-- A rule with a node of its own exports this node or nothing. -/
theorem exports_of_opens (hr : rule.Suits a owner) (hopen : a.Opened owner)
    (h : rule.opens? a owner t = some kind) : (enter rule owner t a).exports =
      a.exports ++ if exportsUnder owner kind then [a.size] else [] := by
  by_cases hn : rule.isNaming
  · cases rule with
    | declaration =>
      cases h
      exact exports_enterDeclaration
    | instance_ =>
      cases h
      exact exports_enterInstance
    | value form =>
      cases form with
      | component =>
        cases h
        exact exports_enterDeclaration
      | expression | block => cases hn
    | _ => cases h <;> cases hn
  · -- Rules that name nothing open nodes that are never exported.
    have hplain : exportsUnder owner kind = false := by
      cases rule with
      | wrap kind =>
        cases h
        cases kind with
        | declaration _ | instance_ _ => cases hr
        | _ => rfl
      | declaration | instance_ => exact absurd rfl hn
      | value form =>
        cases form with
        | component => exact absurd rfl hn
        | expression | block =>
          cases h
          rfl
      | _ => cases h <;> rfl
    rw [hplain]
    simpa using (quiet_enter hr hopen.lt hopen.not_heritage (Bool.eq_false_iff.mpr hn)).exports

theorem Listed.leaves {refers : Prop} (h : a.Listed)
    (hrun : Run (leafSite o a.size refers) a [] b) (he : b.exports = a.exports) : b.Listed := by
  have hnew (x : NodeId) (hx : a.size ≤ x) : ¬ b.isExported x :=
    fun hexp => hrun.leaf_of_new hx (opened_of_isExported hexp)
  rw [Listed, he, hrun.extension.exportedNodes_eq hnew]
  exact h

theorem Listed.enter (h : a.Listed) (ha : a.Sound) (hr : rule.Suits a owner)
    (hopen : a.Opened owner) : (enter rule owner t a).Listed := by
  cases hk : rule.opens? a owner t with
  | none => exact h.leaves (enter_leaves ha hr hopen.lt hk) (exports_of_leaves hr hopen hk)
  | some kind =>
    obtain ⟨-, hrun⟩ := enter_opened ha hr hopen.lt hk
    have hnew (x : NodeId) (hx : (a.addListed kind t.span owner).size ≤ x) :
        ¬ (Ast.enter rule owner t a).isExported x :=
      fun hexp => hrun.leaf_of_new hx (opened_of_isExported hexp)
    rw [Listed, exports_of_opens hr hopen hk, hrun.extension.exportedNodes_eq hnew,
      exportedNodes_addListed hopen.lt]
    exact congrArg (· ++ _) h

theorem Listed.leave (h : a.Listed) (rule : Rule) (owner id : NodeId) :
    (leave rule owner id a).Listed := by
  have hquiet := quiet_leave rule owner id a
  rw [Listed, hquiet.exports, hquiet.extension.exportedNodes_eq fun x hx hexp => ?_]
  · exact h
  · refine Nat.not_lt.mpr hx ?_
    rw [← (leave_same rule owner id a).size]
    exact (opened_of_isExported hexp).lt

theorem build_listed {root : Tree} {unitName : String} (h : build root unitName = .ok ast) :
    ast.Listed := by
  have hkept : Kept Listed := ⟨Listed.enter, fun rule owner id h _ => h.leave rule owner id⟩
  exact hkept.build (listed_ofSpan root.span) h

end ComponentCompiler.Ast
