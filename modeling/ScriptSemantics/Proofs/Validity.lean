import Mathlib.Data.List.Nodup
import ScriptSemantics.Syntax.Grammar

/-!
# What validation promises

A tree is accepted exactly when its root exists and has no parent, every child exists and has one
parent, and every child has a kind that its slot admits. The array of nodes that are children
already is an implementation of the second rule; it occurs only in this file.
-/
namespace ScriptSemantics.SyntaxTree

variable {tree : SyntaxTree}

def HasChild (tree : SyntaxTree) (parent child : NodeId) : Prop :=
  ∃ node, tree.node? parent = some node ∧ child ∈ node.children

/-- What may be relied on once a tree is accepted. Nodes that the root does not reach are held to
the same rules. -/
structure WellFormed (tree : SyntaxTree) : Prop where
  root_exists : (tree.node? tree.root).isSome
  child_exists : ∀ link ∈ tree.links, (tree.node? link.child).isSome
  root_free : ∀ link ∈ tree.links, link.child ≠ tree.root
  child_once : (tree.links.map Link.child).Nodup
  slot_fits : ∀ link ∈ tree.links, ∀ child, tree.node? link.child = some child →
    link.brokenSlot? child.kind = none

theorem mem_links {link : Link} : link ∈ tree.links ↔
    ∃ node, tree.node? link.parent = some node ∧ link.production = node.production ∧
      link.child ∈ node.children := by
  obtain ⟨⟨index⟩, production, child⟩ := link
  simp only [links, Node.linksFrom, List.mem_flatMap, List.mem_map, Prod.exists,
    List.mem_zipIdx_iff_getElem?, Link.mk.injEq, NodeId.mk.injEq, node?, Array.getElem?_toList]
  constructor
  · rintro ⟨node, _, found, c, member, rfl, rfl, rfl⟩
    exact ⟨node, found, rfl, member⟩
  · rintro ⟨node, found, rfl, member⟩
    exact ⟨node, index, found, child, member, rfl, rfl, rfl⟩

theorem hasChild_iff_link {parent child : NodeId} : tree.HasChild parent child ↔
    ∃ link ∈ tree.links, link.parent = parent ∧ link.child = child := by
  constructor
  · rintro ⟨node, found, member⟩
    exact ⟨⟨parent, node.production, child⟩, mem_links.mpr ⟨node, found, rfl, member⟩, rfl, rfl⟩
  · rintro ⟨link, member, rfl, rfl⟩
    obtain ⟨node, found, _, child⟩ := mem_links.mp member
    exact ⟨node, found, child⟩

/-- A link passes when its child exists, is not taken yet, is not the root, and fits its slot. -/
def Passes (tree : SyntaxTree) (taken : Array Bool) (link : Link) : Prop :=
  ∃ child, tree.node? link.child = some child ∧ link.child ≠ tree.root ∧
    taken[link.child.index]? ≠ some true ∧ link.brokenSlot? child.kind = none

theorem checkLink_eq_ok {taken after : Array Bool} {link : Link} :
    tree.checkLink taken link = .ok after ↔
      tree.Passes taken link ∧ after = taken.setIfInBounds link.child.index true := by
  unfold checkLink Passes
  cases tree.node? link.child with
  | none => simp
  | some child =>
    simp only [Option.some.injEq, exists_eq_left']
    split_ifs with shared
    · simp only [false_iff, not_and]
      rintro ⟨notRoot, free, _⟩
      exact absurd shared (by simp [notRoot, free])
    · cases link.brokenSlot? child.kind with
      | some slot => simp
      | none => simp_all [eq_comm]

/-- Taking one link's child changes nothing but that another link to the same child no longer
passes. -/
theorem passes_after_iff {taken : Array Bool} (size : taken.size = tree.size) {first : Link}
    (passed : tree.Passes taken first) (link : Link) :
    tree.Passes (taken.setIfInBounds first.child.index true) link ↔
      link.child ≠ first.child ∧ tree.Passes taken link := by
  obtain ⟨node, found, -, -, -⟩ := passed
  have known : first.child.index < tree.size := (node?_isSome_iff tree _).mp (by simp [found])
  unfold Passes
  rw [Array.getElem?_setIfInBounds]
  by_cases same : first.child.index = link.child.index
  · have equal : link.child = first.child := congrArg NodeId.mk same.symm
    simp [equal, size, known]
  · have different : link.child ≠ first.child := fun equal => same (by rw [equal])
    simp [same, different]

/-- The loop runs to its end exactly when each link passes and no child is taken twice. -/
theorem foldlM_checkLink_isOk (links : List Link) (taken : Array Bool)
    (size : taken.size = tree.size) :
    (∃ after, links.foldlM tree.checkLink taken = .ok after) ↔
      (∀ link ∈ links, tree.Passes taken link) ∧ (links.map Link.child).Nodup := by
  induction links generalizing taken with
  | nil => simp [pure, Except.pure]
  | cons link links ih =>
    by_cases passed : tree.Passes taken link
    · have checked := checkLink_eq_ok.mpr ⟨passed, rfl⟩
      simp only [List.foldlM_cons, checked, bind, Except.bind]
      rw [ih _ (by simpa using size)]
      simp only [passes_after_iff size passed, List.forall_mem_cons, passed, true_and, List.map_cons,
        List.nodup_cons, List.mem_map, not_exists, not_and]
      constructor
      · rintro ⟨all, nodup⟩
        exact ⟨fun l member => (all l member).2, fun l member => (all l member).1, nodup⟩
      · rintro ⟨all, other, nodup⟩
        exact ⟨fun l member => ⟨other l member, all l member⟩, nodup⟩
    · have stopped : ∀ after, tree.checkLink taken link ≠ .ok after := fun after checked =>
        passed (checkLink_eq_ok.mp checked).1
      cases checked : tree.checkLink taken link with
      | ok after => exact absurd checked (stopped after)
      | error cause => simp [checked, passed, bind, Except.bind]

theorem passes_initially_iff (link : Link) :
    tree.Passes (Array.replicate tree.size false) link ↔
      ∃ child, tree.node? link.child = some child ∧ link.child ≠ tree.root ∧
        link.brokenSlot? child.kind = none := by
  have free : (Array.replicate tree.size false)[link.child.index]? ≠ some true := by
    simp [Array.getElem?_replicate]
  simp [Passes, free]

/-- Validation accepts exactly the well-formed trees. -/
theorem validate_eq_ok_iff : tree.validate = .ok () ↔ tree.WellFormed := by
  unfold validate
  cases rootAt : tree.node? tree.root with
  | none =>
    refine ⟨fun accepted => (nomatch accepted), fun formed => ?_⟩
    simpa [rootAt] using formed.root_exists
  | some root =>
    have loop := @foldlM_checkLink_isOk tree tree.links
      (Array.replicate tree.size false) (by simp)
    have accepted : ((do
        let _ ← tree.links.foldlM tree.checkLink (Array.replicate tree.size false)
        pure () : Except TreeError Unit) = .ok ()) ↔
        ∃ after, tree.links.foldlM tree.checkLink (Array.replicate tree.size false) = .ok after := by
      cases tree.links.foldlM tree.checkLink (Array.replicate tree.size false) with
      | ok after => simp [bind, Except.bind, pure, Except.pure]
      | error cause => simp [bind, Except.bind]
    rw [accepted, loop]
    simp only [passes_initially_iff]
    constructor
    · rintro ⟨all, once⟩
      refine ⟨by simp [rootAt], fun link member => ?_, fun link member => ?_, once,
        fun link member child found => ?_⟩
      · obtain ⟨child, found, -, -⟩ := all link member
        simp [found]
      · exact (all link member).choose_spec.2.1
      · obtain ⟨other, foundOther, -, fits⟩ := all link member
        rw [found, Option.some.injEq] at foundOther
        rwa [foundOther]
    · intro formed
      refine ⟨fun link member => ?_, formed.child_once⟩
      obtain ⟨child, found⟩ := Option.isSome_iff_exists.mp (formed.child_exists link member)
      exact ⟨child, found, formed.root_free link member, formed.slot_fits link member child found⟩

end ScriptSemantics.SyntaxTree
