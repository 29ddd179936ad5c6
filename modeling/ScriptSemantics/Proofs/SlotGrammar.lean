import ScriptSemantics.Proofs.Productions

/-!
# The grammar by places

The check tells a child's slot by its number, so a child that is listed in two places of one parent
is judged by one of them only. Here a slot is told by the place in the production, and the kinds
that a slot takes are listed. The two agree once no child is listed twice, which the check asks for
as well, so it accepts exactly the trees of the grammar. What it refuses is refused for a rule that
the tree does break.
-/
namespace ScriptSemantics

/-- The kinds that may stand in a slot. -/
def Slot.allowed : Slot → List NodeKind
  | .item => [.variableDeclarators, .functionDeclaration, .classDeclaration, .block,
      .expressionStatement]
  | .superclass => [.classReference]
  | .member => [.variableDeclarators, .functionDeclaration, .classDeclaration]
  | .typeOrVoid => [.typeOrVoid]
  | .body => [.block]
  | .formalParameter => [.formalParameter]
  | .type => [.typeNode]
  | .declaratorId => [.variableDeclaratorId]
  | .declarator => [.variableDeclarator]
  | .expression => [.literal, .identifier]
  | .typeAlternative => [.primitiveType, .classReference, .functionType]
  | .statement => [.variableDeclarators, .block, .expressionStatement, .classDeclaration]

theorem Slot.admits_iff_mem_allowed (slot : Slot) (kind : NodeKind) :
    slot.admits kind = true ↔ kind ∈ slot.allowed := by
  cases slot <;> cases kind <;> decide

namespace Production

/-- The places of a production, each with its slot and the child that stands there, in source
order. -/
def seats : Production → List (Slot × NodeId)
  | .compilationUnit items => items.map (Prod.mk .item)
  | .classDeclaration _ superclass body =>
      superclass.toList.map (Prod.mk .superclass) ++ body.map (Prod.mk .member)
  | .functionDeclaration _ returnType parameters body =>
      returnType.toList.map (Prod.mk .typeOrVoid) ++ parameters.map (Prod.mk .formalParameter) ++
        [(.body, body)]
  | .formalParameter type declarator => [(.type, type), (.declaratorId, declarator)]
  | .variableDeclarators type declarators => (.type, type) :: declarators.map (Prod.mk .declarator)
  | .variableDeclarator id initializer =>
      (.declaratorId, id) :: initializer.toList.map (Prod.mk .expression)
  | .typeNode alternative => [(.typeAlternative, alternative)]
  | .typeOrVoid type => type.toList.map (Prod.mk .type)
  | .functionType parameters returnType =>
      parameters.map (Prod.mk .type) ++ [(.typeOrVoid, returnType)]
  | .block statements => statements.map (Prod.mk .statement)
  | .expressionStatement expression => [(.expression, expression)]
  | .variableDeclaratorId _ | .primitiveType _ | .classReference _ | .literal _
  | .identifier _ => []

variable {production : Production} {slot : Slot} {child : NodeId}

theorem map_snd_seats (production : Production) :
    production.seats.map Prod.snd = production.children := by
  cases production <;> simp [seats, children, Function.comp_def]

/-- The slot by which a child is judged is that of one of its places. -/
theorem mem_seats_of_slotOf? (member : child ∈ production.children)
    (judged : production.slotOf? child = some slot) : (slot, child) ∈ production.seats := by
  cases production <;> grind [children, slotOf?, seats]

/-- A child that is listed once is judged by its place. -/
theorem slotOf?_eq_some_iff (once : production.children.Nodup) :
    (child ∈ production.children ∧ production.slotOf? child = some slot) ↔
      (slot, child) ∈ production.seats := by
  constructor
  · rintro ⟨member, judged⟩
    exact mem_seats_of_slotOf? member judged
  · intro seat
    have member : child ∈ production.children := by
      rw [← map_snd_seats]
      exact List.mem_map_of_mem seat
    obtain ⟨other, judged⟩ := SyntaxTree.slotOf?_isSome member
    rw [← map_snd_seats] at once
    have same := List.inj_on_of_nodup_map once (mem_seats_of_slotOf? member judged) seat rfl
    rw [judged, (Prod.mk.inj same).1]
    exact ⟨member, rfl⟩

end Production

namespace SyntaxTree

variable {tree : SyntaxTree}

/-- The children of all nodes, as often as they are listed. -/
def childIds (tree : SyntaxTree) : List NodeId := tree.nodes.toList.flatMap Node.children

/-- The trees of the grammar. Nodes that the root does not reach are held to it, too. -/
structure Grammatical (tree : SyntaxTree) : Prop where
  root_inside : tree.root.index < tree.size
  child_inside : ∀ parent node, tree.node? parent = some node →
    ∀ child ∈ node.children, child.index < tree.size
  root_free : tree.childIds.count tree.root = 0
  one_parent : ∀ id, id ≠ tree.root → tree.childIds.count id ≤ 1
  seated : ∀ parent node, tree.node? parent = some node →
    ∀ seat ∈ node.production.seats, ∀ below, tree.node? seat.2 = some below →
      below.kind ∈ seat.1.allowed

/-- The tree breaks the rule that an error names, where the error says it does. -/
def Breaks (tree : SyntaxTree) : TreeError → Prop
  | .invalidRoot root => root = tree.root ∧ tree.size ≤ root.index
  | .danglingChild parent child => tree.HasChild parent child ∧ tree.size ≤ child.index
  | .sharedChild child =>
      (child = tree.root ∧ child ∈ tree.childIds) ∨ 2 ≤ tree.childIds.count child
  | .unexpectedChild parent child found expected =>
      ∃ node below, tree.node? parent = some node ∧ (expected, child) ∈ node.production.seats ∧
        tree.node? child = some below ∧ below.kind = found ∧ found ∉ expected.allowed

theorem node?_eq_none_iff (id : NodeId) : tree.node? id = none ↔ tree.size ≤ id.index := by
  simp [node?, size]

theorem mem_childIds {child : NodeId} :
    child ∈ tree.childIds ↔ ∃ parent, tree.HasChild parent child := by
  simp only [childIds, List.mem_flatMap, HasChild, Array.mem_toList_iff, Array.mem_iff_getElem?]
  constructor
  · rintro ⟨node, ⟨index, found⟩, member⟩
    exact ⟨⟨index⟩, node, found, member⟩
  · rintro ⟨parent, node, found, member⟩
    exact ⟨node, ⟨parent.index, found⟩, member⟩

theorem map_child_links : tree.links.map Link.child = tree.childIds := by
  have perNode (node : Node × Nat) :
      (node.1.linksFrom ⟨node.2⟩).map Link.child = node.1.children := by
    simp [Node.linksFrom, Function.comp_def]
  simp only [links, childIds, List.map_flatMap, perNode]
  rw [← List.flatMap_map Prod.fst Node.children, List.zipIdx_map_fst]

/-- A link's child has the wrong kind for the slot by which it is judged. -/
theorem brokenSlot?_eq_some_iff {link : Link} {kind : NodeKind} {slot : Slot} :
    link.brokenSlot? kind = some slot ↔
      link.production.slotOf? link.child = some slot ∧ kind ∉ slot.allowed := by
  rw [← slot.admits_iff_mem_allowed]
  simp [Link.brokenSlot?, Option.filter_eq_some_iff]

theorem brokenSlot?_eq_none_iff {link : Link} {kind : NodeKind} :
    link.brokenSlot? kind = none ↔
      ∀ slot, link.production.slotOf? link.child = some slot → kind ∈ slot.allowed := by
  simp only [Option.eq_none_iff_forall_ne_some, ne_eq, brokenSlot?_eq_some_iff, not_and, not_not]

/-- Counted over all lists of children, no node occurs twice and the root not at all. -/
theorem nodup_childIds_iff (free : tree.root ∉ tree.childIds) :
    tree.childIds.Nodup ↔ ∀ id, id ≠ tree.root → tree.childIds.count id ≤ 1 := by
  rw [List.nodup_iff_count_le_one]
  constructor
  · exact fun once id _ => once id
  · intro once id
    by_cases isRoot : id = tree.root
    · rw [isRoot, List.count_eq_zero_of_not_mem free]
      exact Nat.zero_le 1
    · exact once id isRoot

theorem WellFormed.grammatical (formed : tree.WellFormed) : tree.Grammatical := by
  have free : tree.root ∉ tree.childIds := by
    rw [← map_child_links, List.mem_map]
    rintro ⟨link, member, isRoot⟩
    exact formed.root_free link member isRoot
  constructor
  case root_inside => exact (node?_isSome_iff tree _).mp formed.root_exists
  case child_inside =>
    intro parent node found child member
    obtain ⟨link, listed, -, rfl⟩ := hasChild_iff_link.mp ⟨node, found, member⟩
    exact (node?_isSome_iff tree _).mp (formed.child_exists link listed)
  case root_free => exact List.count_eq_zero_of_not_mem free
  case one_parent =>
    rw [← nodup_childIds_iff free, ← map_child_links]
    exact formed.child_once
  case seated =>
    intro parent node found ⟨slot, child⟩ seat below foundChild
    obtain ⟨member, judged⟩ :=
      (Production.slotOf?_eq_some_iff (formed.children_nodup found)).mpr seat
    have fits := formed.slot_fits ⟨parent, node.production, child⟩
      (mem_links.mpr ⟨node, found, rfl, member⟩) below foundChild
    exact brokenSlot?_eq_none_iff.mp fits slot judged

theorem Grammatical.wellFormed (grammar : tree.Grammatical) : tree.WellFormed := by
  have free : tree.root ∉ tree.childIds := List.count_eq_zero.mp grammar.root_free
  constructor
  case root_exists => exact (node?_isSome_iff tree _).mpr grammar.root_inside
  case child_exists =>
    intro link listed
    obtain ⟨node, found, -, member⟩ := mem_links.mp listed
    exact (node?_isSome_iff tree _).mpr (grammar.child_inside link.parent node found _ member)
  case root_free =>
    intro link listed isRoot
    apply free
    rw [← isRoot, ← map_child_links]
    exact List.mem_map_of_mem listed
  case child_once =>
    rw [map_child_links, nodup_childIds_iff free]
    exact grammar.one_parent
  case slot_fits =>
    intro link listed below foundChild
    obtain ⟨node, found, same, member⟩ := mem_links.mp listed
    rw [brokenSlot?_eq_none_iff, same]
    intro slot judged
    exact grammar.seated link.parent node found (slot, link.child)
      (Production.mem_seats_of_slotOf? member judged) below foundChild

/-- The rules that the check follows and those of the grammar are the same. -/
theorem wellFormed_iff_grammatical : tree.WellFormed ↔ tree.Grammatical :=
  ⟨WellFormed.grammatical, Grammatical.wellFormed⟩

/-- A link that does not pass breaks the rule that its error names, if those taken are children of
links before it. -/
theorem breaks_of_checkLink {before after : List Link} {link : Link} {taken : Array Bool}
    {error : TreeError} (split : before ++ link :: after = tree.links)
    (seen : ∀ id : NodeId, taken[id.index]? = some true → id ∈ before.map Link.child)
    (stopped : tree.checkLink taken link = .error error) : tree.Breaks error := by
  have listed : link ∈ tree.links := by simp [← split]
  obtain ⟨node, found, same, member⟩ := mem_links.mp listed
  unfold checkLink at stopped
  split at stopped
  case h_1 dangling =>
    cases stopped
    exact ⟨⟨node, found, member⟩, (node?_eq_none_iff _).mp dangling⟩
  case h_2 below foundChild =>
    split at stopped
    case isTrue shared =>
      cases stopped
      rcases shared with isRoot | again
      · exact .inl ⟨isRoot, mem_childIds.mpr ⟨link.parent, node, found, member⟩⟩
      · refine .inr ?_
        have earlier := List.count_pos_iff.mpr (seen link.child again)
        rw [← map_child_links, ← split, List.map_append, List.count_append, List.map_cons,
          List.count_cons_self]
        omega
    case isFalse =>
      split at stopped
      case h_1 slot broken =>
        cases stopped
        obtain ⟨judged, unfit⟩ := brokenSlot?_eq_some_iff.mp broken
        rw [same] at judged
        exact ⟨node, below, found, Production.mem_seats_of_slotOf? member judged, foundChild, rfl,
          unfit⟩
      case h_2 => cases stopped

/-- The first link that does not pass breaks the rule that its error names. By induction on the
links that are left; the children of those before are the nodes taken. -/
theorem breaks_of_foldlM (before : List Link) {rest : List Link} {taken : Array Bool}
    {error : TreeError} (split : before ++ rest = tree.links)
    (seen : ∀ id : NodeId, taken[id.index]? = some true → id ∈ before.map Link.child)
    (stopped : rest.foldlM tree.checkLink taken = .error error) : tree.Breaks error := by
  induction rest generalizing before taken with
  | nil => cases stopped
  | cons link rest ih =>
    rw [List.foldlM_cons] at stopped
    cases checked : tree.checkLink taken link with
    | error cause =>
      rw [checked] at stopped
      cases stopped
      exact breaks_of_checkLink split seen checked
    | ok after =>
      rw [checked] at stopped
      have split : (before ++ [link]) ++ rest = tree.links := by
        rw [← split, List.append_assoc, List.singleton_append]
      refine ih (before ++ [link]) split ?_ stopped
      obtain ⟨-, rfl⟩ := checkLink_eq_ok.mp checked
      intro id again
      rw [List.map_append, List.mem_append]
      rw [Array.getElem?_setIfInBounds] at again
      split at again
      case isTrue same =>
        exact .inr (List.mem_singleton.mpr (congrArg NodeId.mk same.symm))
      case isFalse => exact .inl (seen id again)

theorem breaks_of_validate {error : TreeError} (refused : tree.validate = .error error) :
    tree.Breaks error := by
  unfold validate at refused
  split at refused
  case h_1 missing =>
    cases refused
    exact ⟨rfl, (node?_eq_none_iff _).mp missing⟩
  case h_2 =>
    cases loop : tree.links.foldlM tree.checkLink (Array.replicate tree.size false) with
    | ok after =>
      rw [loop] at refused
      cases refused
    | error cause =>
      rw [loop] at refused
      cases refused
      refine breaks_of_foldlM [] rfl ?_ loop
      intro id taken
      simp [Array.getElem?_replicate] at taken

end SyntaxTree

/-- Validation accepts exactly the trees of the grammar, and an error that it answers with names a
rule that the tree breaks. -/
theorem validate_accepts_grammar (tree : SyntaxTree) :
    (tree.validate = .ok () ↔ tree.Grammatical) ∧
      ∀ error, tree.validate = .error error → tree.Breaks error :=
  ⟨SyntaxTree.validate_eq_ok_iff.trans SyntaxTree.wellFormed_iff_grammatical,
    fun _ => SyntaxTree.breaks_of_validate⟩

/-- A function whose body is listed among its parameters. -/
def SyntaxTree.doubled : SyntaxTree where
  nodes := #[⟨.compilationUnit [⟨1⟩], ⟨0, 8⟩⟩, ⟨.functionDeclaration "f" none [⟨2⟩] ⟨2⟩, ⟨0, 8⟩⟩,
    ⟨.block [], ⟨6, 8⟩⟩]
  root := ⟨0⟩

/-- The block passes as a body where it stands as a parameter, but is refused where it stands as the
body. -/
theorem validate_accepts_grammar_doubled :
    SyntaxTree.doubled.validate = .error (.sharedChild ⟨2⟩) ∧ ¬ SyntaxTree.doubled.Grammatical ∧
      2 ≤ SyntaxTree.doubled.childIds.count ⟨2⟩ := by
  obtain ⟨accepts, refuses⟩ := validate_accepts_grammar SyntaxTree.doubled
  have refused : SyntaxTree.doubled.validate = .error (.sharedChild ⟨2⟩) := rfl
  refine ⟨refused, ?_, ?_⟩
  · rw [← accepts, refused]
    exact nofun
  · exact (refuses _ refused).resolve_left fun shared => absurd shared.1 (by decide)

end ScriptSemantics
