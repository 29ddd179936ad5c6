import ScriptSemantics.Proofs.Shape

/-!
# Neighbours in a well-formed tree

The slots say which productions stand below one another. Read downwards, a production knows the kinds
of its children; read upwards, a parameter or a declarator knows what contains it, unless it is the
root.
-/
namespace ScriptSemantics

/-- Whether a node of this kind may stand below a parameter. -/
def NodeKind.isParameterPart (kind : NodeKind) : Bool :=
  kind.isTypeAlternative || kind == .typeNode || kind == .typeOrVoid || kind == .variableDeclaratorId

theorem Node.kind_of {node : Node} {production : Production} (is : node.production = production) :
    node.kind = production.kind := by rw [Node.kind, is]

namespace SyntaxTree

variable {tree : SyntaxTree}

theorem slotOf?_isSome {production : Production} {child : NodeId}
    (member : child ∈ production.children) : ∃ slot, production.slotOf? child = some slot := by
  cases production <;> simp only [Production.children, List.not_mem_nil] at member <;>
    simp only [Production.slotOf?] <;> (repeat' split) <;> exact ⟨_, rfl⟩

/-- A reachable node other than the root is a child of a reachable node. -/
theorem Reachable.exists_parent {id : NodeId} (reached : tree.Reachable id) (inner : id ≠ tree.root) :
    ∃ parent node, tree.Reachable parent ∧ tree.node? parent = some node ∧ id ∈ node.children := by
  obtain ⟨distance, path⟩ := reached
  cases path with
  | refl => exact absurd rfl inner
  | step path link =>
    obtain ⟨node, found, member⟩ := link
    exact ⟨_, node, ⟨_, path⟩, found, member⟩

namespace WellFormed

variable (formed : tree.WellFormed)
include formed

theorem child_slot {parent child : NodeId} {node below : Node} (found : tree.node? parent = some node)
    (member : child ∈ node.children) (foundChild : tree.node? child = some below) :
    ∃ slot, node.production.slotOf? child = some slot ∧ slot.admits below.kind = true := by
  obtain ⟨slot, isSlot⟩ := slotOf?_isSome member
  obtain ⟨other, foundOther, admitted⟩ := formed.child_admitted found member
  obtain rfl : below = other := Option.some.inj (foundChild.symm.trans foundOther)
  exact ⟨slot, isSlot, admitted slot isSlot⟩

/-- A child in a known slot exists and has a kind that the slot admits. -/
theorem child_of_slot {parent : NodeId} {node : Node} {slot : Slot}
    (found : tree.node? parent = some node) (child : NodeId) (member : child ∈ node.production.children)
    (isSlot : node.production.slotOf? child = some slot) :
    ∃ below, tree.node? child = some below ∧ slot.admits below.kind = true := by
  obtain ⟨below, foundBelow, admitted⟩ := formed.child_admitted found member
  exact ⟨below, foundBelow, admitted slot isSlot⟩

theorem function_parameter {id parameter body : NodeId} {name : String} {returnType : Option NodeId}
    {parameters : List NodeId} {node : Node} (found : tree.node? id = some node)
    (is : node.production = .functionDeclaration name returnType parameters body)
    (member : parameter ∈ parameters) :
    ∃ below type declarator, tree.node? parameter = some below ∧
      below.production = .formalParameter type declarator := by
  have different : returnType ≠ some parameter ∧ body ≠ parameter := by
    have := formed.children_nodup found
    simp only [Node.children, is, Production.children, List.nodup_append, List.mem_append,
      Option.mem_toList, List.mem_singleton] at this
    exact ⟨fun isReturn => this.1.2.2 parameter isReturn parameter member rfl,
      fun isBody => this.2.2 parameter (.inr member) body rfl isBody.symm⟩
  obtain ⟨⟨production, location⟩, foundBelow, admitted⟩ := formed.child_of_slot found
    parameter (by simp [is, Production.children, member])
    (by simp [is, Production.slotOf?, different.1, different.2]; rfl)
  cases production <;> simp [Slot.admits, Node.kind, Production.kind] at admitted
  exact ⟨_, _, _, foundBelow, rfl⟩

theorem parameter_declarator {id type declarator : NodeId} {node : Node}
    (found : tree.node? id = some node) (is : node.production = .formalParameter type declarator) :
    ∃ below name, tree.node? declarator = some below ∧
      below.production = .variableDeclaratorId name := by
  have different : type ≠ declarator := by
    have := formed.children_nodup found
    simp only [Node.children, is, Production.children] at this
    simpa using this
  obtain ⟨⟨production, location⟩, foundBelow, admitted⟩ := formed.child_of_slot found
    declarator (by simp [is, Production.children])
    (by simp [is, Production.slotOf?, different]; rfl)
  cases production <;> simp [Slot.admits, Node.kind, Production.kind] at admitted
  exact ⟨_, _, foundBelow, rfl⟩

theorem statement_declarator {id type declarator : NodeId} {declarators : List NodeId} {node : Node}
    (found : tree.node? id = some node)
    (is : node.production = .variableDeclarators type declarators)
    (member : declarator ∈ declarators) :
    ∃ below inner initializer, tree.node? declarator = some below ∧
      below.production = .variableDeclarator inner initializer := by
  have different : type ≠ declarator := by
    have := formed.children_nodup found
    simp only [Node.children, is, Production.children, List.nodup_cons] at this
    rintro rfl
    exact this.1 member
  obtain ⟨⟨production, location⟩, foundBelow, admitted⟩ := formed.child_of_slot found
    declarator (by simp [is, Production.children, member])
    (by simp [is, Production.slotOf?, different]; rfl)
  cases production <;> simp [Slot.admits, Node.kind, Production.kind] at admitted
  exact ⟨_, _, _, foundBelow, rfl⟩

theorem declarator_id {id inner : NodeId} {initializer : Option NodeId} {node : Node}
    (found : tree.node? id = some node)
    (is : node.production = .variableDeclarator inner initializer) :
    ∃ below name, tree.node? inner = some below ∧ below.production = .variableDeclaratorId name := by
  obtain ⟨⟨production, location⟩, foundBelow, admitted⟩ := formed.child_of_slot found
    inner (by simp [is, Production.children])
    (by simp [is, Production.slotOf?]; rfl)
  cases production <;> simp [Slot.admits, Node.kind, Production.kind] at admitted
  exact ⟨_, _, foundBelow, rfl⟩

/-- What contains a formal parameter is a function that lists it. -/
theorem parameter_parent {id : NodeId} {node : Node} (reached : tree.Reachable id)
    (found : tree.node? id = some node) (kind : node.kind = .formalParameter)
    (inner : id ≠ tree.root) :
    ∃ parent above name returnType parameters body, tree.Reachable parent ∧
      tree.node? parent = some above ∧
      above.production = .functionDeclaration name returnType parameters body ∧ id ∈ parameters := by
  obtain ⟨parent, ⟨production, location⟩, reachedParent, foundParent, member⟩ :=
    reached.exists_parent inner
  obtain ⟨slot, isSlot, admits⟩ := formed.child_slot foundParent member found
  rw [kind] at admits
  cases production <;> simp only [Production.slotOf?] at isSlot
  case functionDeclaration name returnType parameters body =>
    refine ⟨parent, _, name, returnType, parameters, body, reachedParent, foundParent, rfl, ?_⟩
    simp only [Node.children, Production.children, List.mem_append, List.mem_singleton,
      Option.mem_toList] at member
    split_ifs at isSlot with isReturn isBody
    · cases isSlot
      simp [Slot.admits] at admits
    · cases isSlot
      simp [Slot.admits] at admits
    · rcases member with (isReturnType | member) | rfl
      · exact absurd isReturnType isReturn
      · exact member
      · exact absurd rfl isBody
  all_goals
    exfalso
    (repeat' split at isSlot) <;> cases isSlot <;> exact absurd admits (by decide)

/-- What contains a declarator is a declaration statement that lists it. -/
theorem declarator_parent {id : NodeId} {node : Node} (reached : tree.Reachable id)
    (found : tree.node? id = some node) (kind : node.kind = .variableDeclarator)
    (inner : id ≠ tree.root) :
    ∃ parent above type declarators, tree.Reachable parent ∧ tree.node? parent = some above ∧
      above.production = .variableDeclarators type declarators ∧ id ∈ declarators := by
  obtain ⟨parent, ⟨production, location⟩, reachedParent, foundParent, member⟩ :=
    reached.exists_parent inner
  obtain ⟨slot, isSlot, admits⟩ := formed.child_slot foundParent member found
  rw [kind] at admits
  cases production <;> simp only [Production.slotOf?] at isSlot
  case variableDeclarators type declarators =>
    refine ⟨parent, _, type, declarators, reachedParent, foundParent, rfl, ?_⟩
    simp only [Node.children, Production.children, List.mem_cons] at member
    split_ifs at isSlot with isType
    · cases isSlot
      simp [Slot.admits] at admits
    · exact member.resolve_left (Ne.symm isType)
  all_goals
    exfalso
    (repeat' split at isSlot) <;> cases isSlot <;> exact absurd admits (by decide)

/-- What contains a declarator id is a formal parameter or a declarator. -/
theorem declaratorId_parent {id : NodeId} {node : Node} (reached : tree.Reachable id)
    (found : tree.node? id = some node) (kind : node.kind = .variableDeclaratorId)
    (inner : id ≠ tree.root) :
    ∃ parent above, tree.Reachable parent ∧ tree.node? parent = some above ∧
      ((∃ type, above.production = .formalParameter type id) ∨
        ∃ initializer, above.production = .variableDeclarator id initializer) := by
  obtain ⟨parent, ⟨production, location⟩, reachedParent, foundParent, member⟩ :=
    reached.exists_parent inner
  obtain ⟨slot, isSlot, admits⟩ := formed.child_slot foundParent member found
  rw [kind] at admits
  cases production <;> simp only [Production.slotOf?] at isSlot
  case formalParameter type declarator =>
    simp only [Node.children, Production.children, List.mem_cons, List.not_mem_nil, or_false]
      at member
    split_ifs at isSlot with isType
    · cases isSlot
      simp [Slot.admits] at admits
    · obtain rfl := member.resolve_left (Ne.symm isType)
      exact ⟨parent, _, reachedParent, foundParent, .inl ⟨type, rfl⟩⟩
  case variableDeclarator declared initializer =>
    split_ifs at isSlot with isId
    · subst isId
      exact ⟨parent, _, reachedParent, foundParent, .inr ⟨initializer, rfl⟩⟩
    · cases isSlot
      simp [Slot.admits, NodeKind.isExpression] at admits
  all_goals
    exfalso
    (repeat' split at isSlot) <;> cases isSlot <;> exact absurd admits (by decide)

/-- A declaration statement stands in a unit, a class body or a block. -/
theorem statement_parent {id : NodeId} {node : Node} (reached : tree.Reachable id)
    (found : tree.node? id = some node) (kind : node.kind = .variableDeclarators)
    (inner : id ≠ tree.root) :
    ∃ parent above, tree.Reachable parent ∧ tree.node? parent = some above ∧ id ∈ above.children ∧
      (above.kind = .compilationUnit ∨ above.kind = .classDeclaration ∨ above.kind = .block) := by
  obtain ⟨parent, ⟨production, location⟩, reachedParent, foundParent, member⟩ :=
    reached.exists_parent inner
  obtain ⟨slot, isSlot, admits⟩ := formed.child_slot foundParent member found
  rw [kind] at admits
  refine ⟨parent, _, reachedParent, foundParent, member, ?_⟩
  cases production <;> simp only [Production.slotOf?] at isSlot
  case compilationUnit => exact .inl rfl
  case classDeclaration => exact .inr (.inl rfl)
  case block => exact .inr (.inr rfl)
  all_goals
    exfalso
    (repeat' split at isSlot) <;> cases isSlot <;> exact absurd admits (by decide)

theorem unit_is_root {id : NodeId} {node : Node} (reached : tree.Reachable id)
    (found : tree.node? id = some node) (kind : node.kind = .compilationUnit) : id = tree.root := by
  by_contra inner
  obtain ⟨parent, ⟨production, location⟩, reachedParent, foundParent, member⟩ :=
    reached.exists_parent inner
  obtain ⟨slot, isSlot, admits⟩ := formed.child_slot foundParent member found
  rw [kind] at admits
  cases slot <;> exact absurd admits (by decide)

/-- A block stands in a unit or a block, or is the body of a function. -/
theorem block_parent {parent child : NodeId} {above below : Node}
    (foundParent : tree.node? parent = some above) (member : child ∈ above.children)
    (found : tree.node? child = some below) (kind : below.kind = .block) :
    above.kind = .compilationUnit ∨ above.kind = .block ∨
      ∃ name returnType parameters,
        above.production = .functionDeclaration name returnType parameters child := by
  obtain ⟨slot, isSlot, admits⟩ := formed.child_slot foundParent member found
  rw [kind] at admits
  obtain ⟨production, location⟩ := above
  cases production <;> simp only [Production.slotOf?] at isSlot
  case compilationUnit => exact .inl rfl
  case block => exact .inr (.inl rfl)
  case functionDeclaration name returnType parameters body =>
    split_ifs at isSlot with isReturn isBody
    · cases isSlot
      exact absurd admits (by decide)
    · exact .inr (.inr ⟨name, returnType, parameters, by rw [isBody]⟩)
    · cases isSlot
      exact absurd admits (by decide)
  all_goals
    exfalso
    (repeat' split at isSlot) <;> cases isSlot <;> exact absurd admits (by decide)

/-- What stands in a unit is a class, a function or a statement. -/
theorem unit_child {parent child : NodeId} {above below : Node}
    (foundParent : tree.node? parent = some above) (unit : above.kind = .compilationUnit)
    (member : child ∈ above.children) (found : tree.node? child = some below) :
    below.kind = .classDeclaration ∨ below.kind = .functionDeclaration ∨
      below.kind.isStatement = true := by
  obtain ⟨slot, isSlot, admits⟩ := formed.child_slot foundParent member found
  obtain ⟨production, location⟩ := above
  cases production <;> cases unit
  cases isSlot
  cases kind : below.kind <;> simp_all [Slot.admits, NodeKind.isMember, NodeKind.isStatement]

theorem parameter_part {parent child : NodeId} {above below : Node}
    (foundParent : tree.node? parent = some above)
    (part : above.kind = .formalParameter ∨ above.kind.isParameterPart = true)
    (member : child ∈ above.children) (found : tree.node? child = some below) :
    below.kind.isParameterPart = true := by
  obtain ⟨slot, isSlot, admits⟩ := formed.child_slot foundParent member found
  have isPart : slot = .type ∨ slot = .declaratorId ∨ slot = .typeAlternative ∨
      slot = .typeOrVoid := by
    obtain ⟨production, location⟩ := above
    cases production <;> simp only [Production.slotOf?] at isSlot <;>
      first
        | (exfalso; revert part; simp only [Node.kind, Production.kind]; decide)
        | ((repeat' split at isSlot) <;> cases isSlot <;> simp)
  rcases isPart with rfl | rfl | rfl | rfl <;> cases kind : below.kind <;>
    simp_all [Slot.admits, NodeKind.isParameterPart, NodeKind.isTypeAlternative]

end WellFormed

end SyntaxTree

end ScriptSemantics
