import ScriptSemantics.Proofs.Following

/-!
# What is done once a node is left

When the walk leaves a node everything about the node is found out: what the pass did there follows
from what it knows then, and no event outside of the node changes any of it. So a pass over a tree is
done with every node that it came to, and coming to the node again changes nothing.
-/
namespace ScriptSemantics

namespace SyntaxTree

variable {tree : SyntaxTree}

/-- A variable is typed by the parameter that holds it, or by the statement that holds its
declarator. -/
theorem mem_typedBy {id declarator : NodeId} (typed : declarator ∈ tree.typedBy id) :
    ∃ node, tree.node? id = some node ∧
      (node.kind = .formalParameter ∧ declarator ∈ node.children ∨
        ∃ holder below, holder ∈ node.children ∧ tree.node? holder = some below ∧
          below.kind = .variableDeclarator ∧ declarator ∈ below.children) := by
  unfold typedBy at typed
  split at typed
  next type declarators location found =>
    obtain ⟨holder, listed, declares⟩ := List.mem_filterMap.mp typed
    unfold declaredBy at declares
    split at declares
    next inner initializer location foundHolder =>
      obtain rfl := Option.some.inj declares
      exact ⟨_, found, .inr ⟨holder, _, List.mem_cons_of_mem _ listed, foundHolder, rfl,
        List.mem_cons_self ..⟩⟩
    next => cases declares
  next type inner location found =>
    obtain rfl := List.mem_singleton.mp typed
    exact ⟨_, found, .inl ⟨rfl, by simp [Node.children, Production.children]⟩⟩
  next => cases typed

theorem typedBy_within {id declarator : NodeId} (typed : declarator ∈ tree.typedBy id) :
    tree.Within id declarator := by
  obtain ⟨node, found, ⟨-, member⟩ | ⟨holder, below, member, foundHolder, -, inner⟩⟩ :=
    mem_typedBy typed
  · exact HasChild.within ⟨node, found, member⟩
  · exact (HasChild.within ⟨node, found, member⟩).trans
      (HasChild.within ⟨below, foundHolder, inner⟩)

theorem WellFormed.typedBy_unique (formed : tree.WellFormed) {first second declarator : NodeId}
    (left : declarator ∈ tree.typedBy first) (right : declarator ∈ tree.typedBy second) :
    first = second := by
  obtain ⟨one, foundOne, one'⟩ := mem_typedBy left
  obtain ⟨two, foundTwo, two'⟩ := mem_typedBy right
  have mixed {parameter holder : NodeId} {above below : Node}
      (found : tree.node? parameter = some above) (kind : above.kind = .formalParameter)
      (member : declarator ∈ above.children) (foundHolder : tree.node? holder = some below)
      (holderKind : below.kind = .variableDeclarator) (inner : declarator ∈ below.children) :
      False := by
    obtain rfl := formed.parent_unique ⟨above, found, member⟩ ⟨below, foundHolder, inner⟩
    obtain rfl : above = below := Option.some.inj (found.symm.trans foundHolder)
    simp [kind] at holderKind
  rcases one' with ⟨kindOne, memberOne⟩ | ⟨holderOne, belowOne, memberOne, foundHolderOne,
    kindOne, innerOne⟩ <;>
    rcases two' with ⟨kindTwo, memberTwo⟩ | ⟨holderTwo, belowTwo, memberTwo, foundHolderTwo,
      kindTwo, innerTwo⟩
  · exact formed.parent_unique ⟨one, foundOne, memberOne⟩ ⟨two, foundTwo, memberTwo⟩
  · exact (mixed foundOne kindOne memberOne foundHolderTwo kindTwo innerTwo).elim
  · exact (mixed foundTwo kindTwo memberTwo foundHolderOne kindOne innerOne).elim
  · obtain rfl := formed.parent_unique ⟨belowOne, foundHolderOne, innerOne⟩
      ⟨belowTwo, foundHolderTwo, innerTwo⟩
    exact formed.parent_unique ⟨one, foundOne, memberOne⟩ ⟨two, foundTwo, memberTwo⟩

namespace WellFormed

variable (formed : tree.WellFormed)
include formed

/-- Once a walk has left a node it does not come to anything within it. -/
theorem events_left {id : NodeId} (reached : tree.Reachable id) :
    (tree.events id).Pairwise fun earlier later =>
      earlier.phase = .exit → ¬ tree.Within earlier.node later.node := by
  refine formed.reachable_induction (motive := fun id => (tree.events id).Pairwise
    fun earlier later => earlier.phase = .exit → ¬ tree.Within earlier.node later.node) ?_ reached
  intro id node reached found ih
  have link {child : NodeId} (member : child ∈ node.children) : tree.HasChild id child :=
    ⟨node, found, member⟩
  have inside {child : NodeId} (member : child ∈ node.children) {event : Event}
      (listed : event ∈ tree.events child) : tree.Within child event.node :=
    (formed.mem_events (reached.child (link member))).mp listed
  have middle : (node.children.flatMap tree.events).Pairwise fun earlier later =>
      earlier.phase = .exit → ¬ tree.Within earlier.node later.node := by
    rw [List.pairwise_flatMap]
    refine ⟨ih, (formed.children_nodup found).imp_of_mem ?_⟩
    intro first second left right different earlier inFirst later inSecond _ path
    exact different (formed.siblings_disjoint reached (link left) (link right)
      ((inside left inFirst).trans path) (inside right inSecond))
  rw [formed.events_eq reached found, List.cons_append, List.pairwise_cons, List.pairwise_append]
  refine ⟨fun later _ exits => (nomatch exits), middle, List.pairwise_singleton .., ?_⟩
  intro earlier listed last isLast _ path
  obtain ⟨child, member, inChild⟩ := List.mem_flatMap.mp listed
  rw [List.mem_singleton.mp isLast] at path
  exact formed.not_within_parent reached (link member) ((inside member inChild).trans path)

theorem after_leaving {top id : NodeId} {before after : List Event} (reached : tree.Reachable top)
    (split : tree.events top = before ++ ⟨.exit, id⟩ :: after) :
    ∀ event ∈ after, ¬ tree.Within id event.node := by
  have left := formed.events_left reached
  rw [split, List.pairwise_append, List.pairwise_cons] at left
  exact fun event later => left.2.1.1 event later rfl

theorem after_exit {id : NodeId} {before after : List Event}
    (split : tree.events tree.root = before ++ ⟨.exit, id⟩ :: after) :
    ∀ event ∈ after, ¬ tree.Within id event.node := formed.after_leaving .root split

end WellFormed

end SyntaxTree

theorem Prepared.owner_node {tree : SyntaxTree} {b : Resolution} (prepared : Prepared tree b)
    {id : NodeId} (reached : tree.Reachable id) (owns : tree.IsFunction id ∨ tree.IsClass id) :
    ∃ symbol, b.table.symbols[(b.ownerAt id).index]? = some symbol ∧ symbol.node = id := by
  rcases owns with ⟨⟨production, location⟩, found, kind⟩ | ⟨⟨production, location⟩, found, kind⟩ <;>
    cases production <;> cases kind
  · exact ⟨_, (prepared.registered.function_found prepared.formed reached found rfl).2.2.1, rfl⟩
  · exact ⟨_, (prepared.registered.class_found prepared.formed reached found rfl).2.2.1, rfl⟩

theorem Prepared.ownerAt_inj {tree : SyntaxTree} {b : Resolution} (prepared : Prepared tree b)
    {first second : NodeId} (reachedFirst : tree.Reachable first)
    (reachedSecond : tree.Reachable second) (isFirst : tree.IsFunction first ∨ tree.IsClass first)
    (isSecond : tree.IsFunction second ∨ tree.IsClass second)
    (same : b.ownerAt first = b.ownerAt second) : first = second := by
  obtain ⟨symbol, found, rfl⟩ := prepared.owner_node reachedFirst isFirst
  obtain ⟨symbol', found', rfl⟩ := prepared.owner_node reachedSecond isSecond
  rw [same, found', Option.some.injEq] at found
  rw [found]

namespace View

variable {tree : SyntaxTree} {b : Resolution} {mode : Mode} {v w : View} {id : NodeId} {node : Node}

/-- Everything that a pass finds out at a node is found out. -/
def Done (v : View) (tree : SyntaxTree) (b : Resolution) (mode : Mode) (id : NodeId)
    (node : Node) : Prop :=
  match node.production with
  | .primitiveType keyword => v.typeOf id = some (.primitive (.forKeyword keyword))
  | .typeOrVoid none => v.typeOf id = some .void
  | .typeOrVoid (some child) | .typeNode child =>
    ∀ type, v.typeOf child = some type → v.typeOf id = some type
  | .functionType parameters returnType => v.typeOf id ≠ none ∨ v.typeOf returnType = none ∨
      parameters.mapM v.typeOf = none
  | .classReference _ => v.typeOf id ≠ none ∨ v.checked id = true
  | .variableDeclarators type _ => b.typesAt mode (b.scopeAt id) = true →
      ∀ declarator ∈ tree.typedBy id, declarator ∈ v.declared →
        v.variableType declarator = v.typeOf type
  | .formalParameter type declarator => declarator ∈ v.declared →
      v.variableType declarator = v.typeOf type ∧ declarator ∈ v.parameters (b.ownerAt id)
  | .functionDeclaration _ returnType _ _ => v.checked id = true ∧
      ∀ result, returnType = some result → v.returnType (b.ownerAt id) = v.typeOf result
  | .classDeclaration _ superclass _ =>
    ∀ target, superclass.bind v.typeOf = some (.classType target) → v.checked id = true
  | .variableDeclaratorId _ => b.declaresAt mode (b.scopeAt id) = true →
      id ∈ v.declared ∨ v.checked id = true
  | .compilationUnit _ | .variableDeclarator _ _ | .block _ | .expressionStatement _ | .literal _
  | .identifier _ => True

theorem setType_eq_self {type : Ty} (before : v.typeOf id = some type) : v.setType id type = v := by
  unfold setType
  congr 1
  funext other
  split
  next here => rw [here, before]
  next => rfl

theorem typeVariables_eq_self {ids : List NodeId} {type : Option Ty}
    (before : ∀ id ∈ ids, id ∈ v.declared → v.variableType id = type) :
    v.typeVariables ids type = v := by
  unfold typeVariables
  congr 1
  funext other
  split
  next here => exact (before other here.1 here.2).symm
  next => rfl

theorem pushParameter_eq_self {function : SymbolId} (before : id ∈ v.parameters function) :
    v.pushParameter function id = v := by
  unfold pushParameter
  congr 1
  funext other
  simp [before]

theorem setReturnType_eq_self {function : SymbolId} {type : Option Ty}
    (before : v.returnType function = type) : v.setReturnType function type = v := by
  unfold setReturnType
  congr 1
  funext other
  split
  next here => rw [here, before]
  next => rfl

theorem inheritType_eq_self {child : NodeId}
    (before : ∀ type, v.typeOf child = some type → v.typeOf id = some type) :
    v.inheritType id child = v := by
  unfold inheritType
  split
  next type isType => exact setType_eq_self (before type isType)
  next => rfl

theorem resolveFunctionType_eq_self {parameters : List NodeId} {returnType : NodeId}
    (before : v.typeOf id ≠ none ∨ v.typeOf returnType = none ∨ parameters.mapM v.typeOf = none) :
    v.resolveFunctionType id parameters returnType = v := by
  unfold resolveFunctionType
  split
  · rfl
  next untyped =>
    have missing := before.resolve_left fun typed => untyped (Option.isSome_iff_ne_none.mpr typed)
    split
    next result types isResult isTypes =>
      rcases missing with missing | missing
      · simp [missing] at isResult
      · simp [missing] at isTypes
    next => rfl

/-- Coming again to a node that is done with changes nothing. -/
theorem Done.advance_eq_self (done : v.Done tree b mode id node) (found : tree.node? id = some node)
    (phase : Phase) : v.advance tree b mode ⟨phase, id⟩ = v := by
  obtain ⟨production, location⟩ := node
  unfold advance
  simp only [found]
  cases phase with
  | enter =>
    cases production with
    | variableDeclaratorId name =>
      simp only [Done] at done
      simp only [View.enter, declareVariableAt]
      split
      · rfl
      next new =>
        split
        · rfl
        next declares =>
          have checked := (done (by simpa using declares)).resolve_left new
          simp only [checked, if_true]
    | _ => rfl
  | exit =>
    cases production with
    | primitiveType keyword => exact setType_eq_self done
    | typeOrVoid child =>
      cases child with
      | none => exact setType_eq_self done
      | some child => exact inheritType_eq_self done
    | typeNode child => exact inheritType_eq_self done
    | functionType parameters returnType => exact resolveFunctionType_eq_self done
    | classReference name =>
      simp only [Done] at done
      simp only [View.exit, resolveClassReference]
      split
      · rfl
      next untyped =>
        have checked := done.resolve_left fun typed => untyped (Option.isSome_iff_ne_none.mpr typed)
        simp only [checked, if_true]
    | variableDeclarators type declarators =>
      simp only [Done] at done
      simp only [View.exit, typeDeclarators]
      split
      · rfl
      next types =>
        refine typeVariables_eq_self fun declarator listed member => ?_
        refine done (by simpa using types) declarator ?_ member
        simpa [SyntaxTree.typedBy, found] using listed
    | formalParameter type declarator =>
      simp only [Done] at done
      simp only [View.exit, completeParameter]
      split
      next member =>
        obtain ⟨typed, listed⟩ := done member
        rw [typeVariables_eq_self (by simpa using fun _ => typed), pushParameter_eq_self listed]
      next => rfl
    | functionDeclaration name returnType parameters body =>
      obtain ⟨checked, returns⟩ := done
      simp only [View.exit, completeFunction, checked, if_true, returning]
      cases returnType with
      | none => rfl
      | some result => exact setReturnType_eq_self (returns result rfl)
    | classDeclaration name superclass body =>
      simp only [Done] at done
      simp only [View.exit, completeClass]
      split
      next target isTarget => simp only [done target isTarget, if_true]
      next => rfl
    | _ => rfl

theorem enter_done {name : String} (is : node.production = .variableDeclaratorId name) :
    (v.enter tree b mode id node).Done tree b mode id node := by
  simp only [Done, is, View.enter]
  intro declares
  simp only [declareVariableAt, declares]
  split
  next member => exact .inl member
  next =>
    simp only [Bool.not_true, Bool.false_eq_true, if_false]
    split
    next checked => exact .inr checked
    next =>
      split
      · simp [View.log, View.check]
      · simp [View.declare, View.check]

/-- Completing a function checks it and gives it its return type, and no node a type. -/
theorem completeFunction_facts (id : NodeId) (name : String) (location : Location)
    (returnType : Option NodeId) :
    (v.completeFunction b id name location returnType).checked id = true ∧
      (v.completeFunction b id name location returnType).typeOf = v.typeOf ∧
      (v.completeFunction b id name location returnType).returnType =
        (v.returning b id returnType).returnType := by
  have returning : (v.returning b id returnType).checked = v.checked ∧
      (v.returning b id returnType).typeOf = v.typeOf := by
    cases returnType <;> exact ⟨rfl, rfl⟩
  have signature (w : View) : ∃ diagnostics, w.checkSignature b id name location =
      { w with diagnostics := diagnostics } := by
    unfold checkSignature
    split
    · exact ⟨_, rfl⟩
    · split <;> exact ⟨_, rfl⟩
  unfold completeFunction
  split
  next checked => exact ⟨returning.1 ▸ checked, returning.2, rfl⟩
  next =>
    obtain ⟨diagnostics, same⟩ := signature ((v.returning b id returnType).check id)
    rw [same]
    exact ⟨by simp [View.check], returning.2, rfl⟩

theorem inheritType_typed {child : NodeId} {type : Ty}
    (typed : (v.inheritType id child).typeOf child = some type) :
    (v.inheritType id child).typeOf id = some type := by
  unfold inheritType at typed ⊢
  split at typed
  next other isOther =>
    simp only [View.setType, isOther, if_true] at typed ⊢
    split at typed <;> exact typed
  next none => simp [none] at typed

theorem resolveFunctionType_typed (parameters : List NodeId) (returnType : NodeId) :
    (v.resolveFunctionType id parameters returnType).typeOf id ≠ none ∨
      (v.resolveFunctionType id parameters returnType).typeOf returnType = none ∨
      parameters.mapM (v.resolveFunctionType id parameters returnType).typeOf = none := by
  unfold resolveFunctionType
  split
  next typed => exact .inl (Option.isSome_iff_ne_none.mp typed)
  next =>
    split
    · exact .inl (by simp [View.setType])
    next incomplete =>
      refine .inr ?_
      cases result : v.typeOf returnType with
      | none => exact .inl rfl
      | some result' =>
        refine .inr ?_
        cases types : parameters.mapM v.typeOf with
        | none => rfl
        | some types' => exact (incomplete result' types' result types).elim

/-- What the pass does when it leaves a node is all there is to find out at the node. -/
theorem exit_done (found : tree.node? id = some node)
    (plain : node.kind ≠ .variableDeclaratorId) :
    (v.exit tree b mode id node).Done tree b mode id node := by
  obtain ⟨production, location⟩ := node
  unfold Done View.exit
  cases production with
  | primitiveType keyword => simp [View.setType]
  | typeOrVoid child =>
    cases child with
    | none => simp [View.setType]
    | some child => exact fun _ => inheritType_typed
  | typeNode child => exact fun _ => inheritType_typed
  | functionType parameters returnType => exact resolveFunctionType_typed parameters returnType
  | classReference name =>
    simp only [resolveClassReference]
    split
    next typed => exact .inl (Option.isSome_iff_ne_none.mp typed)
    next =>
      split
      next checked => exact .inr checked
      next =>
        split
        · exact .inl (by simp [View.setType])
        · exact .inr (by simp [View.log, View.check])
  | variableDeclarators type declarators =>
    intro types declarator listed member
    simp only [typeDeclarators, types, Bool.not_true, Bool.false_eq_true, if_false] at member ⊢
    have inList : declarator ∈ declarators.filterMap tree.declaredBy := by
      simpa [SyntaxTree.typedBy, found] using listed
    simp only [typeVariables] at member ⊢
    rw [if_pos ⟨inList, member⟩]
  | formalParameter type declarator =>
    simp only [completeParameter]
    split
    next member =>
      intro _
      simp only [View.pushParameter, typeVariables]
      refine ⟨by simp [member], ?_⟩
      split
      · simp
      next here => simpa using here
    next new => exact fun member => absurd member new
  | functionDeclaration name returnType parameters body =>
    obtain ⟨checked, typeOf, returns⟩ :=
      @completeFunction_facts b v id name location returnType
    simp only [checked, typeOf, returns, true_and]
    rintro result rfl
    simp [returning, View.setReturnType]
  | classDeclaration name superclass body =>
    simp only [completeClass]
    split
    next target _ =>
      split
      next checked => exact fun _ _ => checked
      next => split <;> simp [View.log, View.check, View.setSuperclass]
    next notClass => exact fun target isTarget => (notClass target isTarget).elim
  | variableDeclaratorId name => exact (plain rfl).elim
  | _ => trivial

section Outside

variable (prepared : Prepared tree b) (reached : tree.Reachable id)
  (found : tree.node? id = some node)
include prepared reached found

/-- What is done at a node stays done at any event outside of the node. -/
theorem Writes.done {event : Event} (writes : Writes tree b event v w)
    (reachedEvent : tree.Reachable event.node) (outside : ¬ tree.Within id event.node)
    (done : v.Done tree b mode id node) : w.Done tree b mode id node := by
  have elsewhere {other : NodeId} (inside : tree.Within id other) (phase : Phase) :
      event ≠ ⟨phase, other⟩ := by
    rintro rfl
    exact outside inside
  have child {other : NodeId} (member : other ∈ node.production.children) : tree.Within id other :=
    SyntaxTree.HasChild.within ⟨node, found, member⟩
  have here : w.typeOf id = v.typeOf id := writes.typeOf_eq (elsewhere (.refl id) _)
  have below {other : NodeId} (member : other ∈ node.production.children) :
      w.typeOf other = v.typeOf other := writes.typeOf_eq (elsewhere (child member) _)
  have typing {declarator : NodeId} (typed : declarator ∈ tree.typedBy id) :
      w.variableType declarator = v.variableType declarator :=
    writes.variableType_eq fun _ other => by
      obtain same := prepared.formed.typedBy_unique typed other
      exact outside (same ▸ .refl id)
  obtain ⟨production, location⟩ := node
  unfold Done at done ⊢
  cases production with
  | primitiveType keyword => exact here.trans done
  | typeOrVoid other =>
    cases other with
    | none => exact here.trans done
    | some other =>
      have inner := @below other (by simp [Production.children])
      simpa only [here, inner] using done
  | typeNode other =>
    have inner := @below other (by simp [Production.children])
    simpa only [here, inner] using done
  | functionType parameters returnType =>
    have result := @below returnType (by simp [Production.children])
    have types : parameters.mapM w.typeOf = parameters.mapM v.typeOf :=
      mapM_congr fun other member => below (by simp [Production.children, member])
    simpa only [here, types, result] using done
  | classReference name =>
    rw [here]
    exact done.imp_right writes.checked_mono
  | variableDeclarators type declarators =>
    intro types declarator typed member
    rw [typing typed, @below type (by simp [Production.children])]
    exact done types declarator typed ((writes.mem_declared_iff
      (elsewhere (SyntaxTree.typedBy_within typed) _)).mp member)
  | formalParameter type declarator =>
    intro member
    have typed : declarator ∈ tree.typedBy id := by simp [SyntaxTree.typedBy, found]
    obtain ⟨isType, listed⟩ := done ((writes.mem_declared_iff
      (elsewhere (SyntaxTree.typedBy_within typed) _)).mp member)
    rw [typing typed, @below type (by simp [Production.children])]
    exact ⟨isType, writes.parameters_mono listed⟩
  | functionDeclaration name returnType parameters body =>
    refine ⟨writes.checked_mono done.1, ?_⟩
    rintro result rfl
    have owner : event.phase = .exit → tree.IsFunction event.node →
        b.ownerAt event.node ≠ b.ownerAt id := by
      intro _ isFunction same
      have isHere : event.node = id :=
        prepared.ownerAt_inj reachedEvent reached (.inl isFunction) (.inl ⟨_, found, rfl⟩) same
      apply outside
      rw [isHere]
      exact .refl id
    rw [writes.returnType_eq owner, @below result (by simp [Production.children])]
    exact done.2 result rfl
  | classDeclaration name superclass body =>
    have same : superclass.bind w.typeOf = superclass.bind v.typeOf := by
      cases superclass with
      | none => rfl
      | some other => exact below (by simp [Production.children])
    intro target isTarget
    exact writes.checked_mono (done target (same ▸ isTarget))
  | variableDeclaratorId name =>
    exact fun declares => (done declares).imp writes.declared_mono writes.checked_mono
  | _ => trivial

theorem foldl_done_within {top : NodeId} (reachedTop : tree.Reachable top)
    (inside : tree.Within top id) (start : View) :
    ((tree.events top).foldl (View.advance tree b mode) start).Done tree b mode id node := by
  have reach {event : Event} (member : event ∈ tree.events top) : tree.Reachable event.node :=
    reachedTop.within ((prepared.formed.mem_events reachedTop).mp member)
  have come (phase : Phase) : ⟨phase, id⟩ ∈ tree.events top :=
    (prepared.formed.mem_events reachedTop).mpr inside
  by_cases declarator : node.kind = .variableDeclaratorId
  · obtain ⟨production, location⟩ := node
    cases production <;> cases declarator
    obtain ⟨before, after, split⟩ := List.append_of_mem (come .enter)
    rw [split, List.foldl_append, List.foldl_cons]
    refine List.foldlRecOn after (motive := (View.Done · tree b mode id _)) _ ?_ ?_
    · simp only [advance, found]
      exact enter_done rfl
    · intro v done event later declares
      exact (done declares).imp advance_writes.declared_mono advance_writes.checked_mono
  · obtain ⟨before, after, split⟩ := List.append_of_mem (come .exit)
    rw [split, List.foldl_append, List.foldl_cons]
    refine List.foldlRecOn after (motive := (View.Done · tree b mode id node)) _ ?_ ?_
    · simp only [advance, found]
      exact exit_done found declarator
    · intro v done event later
      exact advance_writes.done prepared reached found (reach (by simp [split, later]))
        (prepared.formed.after_leaving reachedTop split event later) done

/-- A pass over the whole tree is done with every node that it comes to. -/
theorem foldl_done (start : View) :
    ((tree.events tree.root).foldl (View.advance tree b mode) start).Done tree b mode id node :=
  foldl_done_within prepared reached found .root reached start

end Outside

end View

end ScriptSemantics
