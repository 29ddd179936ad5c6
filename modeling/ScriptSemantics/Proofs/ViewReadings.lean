import ScriptSemantics.Proofs.Representation

/-!
# What a represented resolution answers

Lookups, comparisons of parameter types and texts all give an answer, and the answer is the one that
the view tells.
-/
namespace ScriptSemantics.View

variable {tree : SyntaxTree} {b r : Resolution} {v : View}

section Symbols

variable (rep : v.Represents tree b r)
include rep

theorem Represents.completes : r.table.Completes b.table where
  frames := rep.frames
  kept i symbol found := by
    have bound := (Array.getElem?_eq_some_iff.mp found).1
    refine ⟨(v.completed b symbol).kind, ?_, ?_, ?_⟩
    · rw [rep.symbols, symbolAt, if_pos bound, found]
      rfl
    · simp only [completed]
      cases symbol.kind <;> rfl
    · simp only [completed]
      cases symbol.kind <;> rfl
  added i symbol found new := by
    rw [rep.symbols, symbolAt, if_neg (by omega), Option.map_eq_some_iff] at found
    obtain ⟨id, -, rfl⟩ := found
    rfl

theorem Represents.variable_symbol {id : NodeId} (member : id ∈ v.declared) :
    r.table.symbols[(v.idOf b id).index]? = some ⟨v.idOf b id, tree.nameAt id,
      .var (v.variableType id), b.scopeAt id, id, tree.locationAt id⟩ := by
  have position := List.idxOf_lt_length_of_mem member
  have found : v.declared[v.declared.idxOf id]? = some id :=
    List.getElem?_eq_some_iff.mpr ⟨position, List.getElem_idxOf position⟩
  rw [rep.symbols, symbolAt, if_neg (by simp [idOf])]
  simp [idOf, found]

theorem Represents.old_symbol {id : SymbolId} {symbol : Symbol}
    (found : b.table.symbols[id.index]? = some symbol) :
    r.table.symbols[id.index]? = some (v.completed b symbol) := by
  have bound := (Array.getElem?_eq_some_iff.mp found).1
  rw [rep.symbols, symbolAt, if_pos bound, found]
  rfl

/-- Every symbol is that of a class or function, completed, or that of a declared variable. -/
theorem Represents.symbol_cases (nodup : v.declared.Nodup) {i : Nat} {symbol : Symbol}
    (found : r.table.symbols[i]? = some symbol) :
    (∃ old, b.table.symbols[i]? = some old ∧ symbol = v.completed b old) ∨
      ∃ id ∈ v.declared, i = (v.idOf b id).index ∧ symbol = ⟨v.idOf b id, tree.nameAt id,
        .var (v.variableType id), b.scopeAt id, id, tree.locationAt id⟩ := by
  by_cases old : i < b.table.symbols.size
  · have foundOld : b.table.symbols[i]? = some b.table.symbols[i] := by simp [old]
    have isOld : r.table.symbols[i]? = some (v.completed b b.table.symbols[i]) :=
      @old_symbol tree b r v rep ⟨i⟩ _ foundOld
    rw [found, Option.some.injEq] at isOld
    exact .inl ⟨_, foundOld, isOld⟩
  · have isNew := found
    rw [rep.symbols, symbolAt, if_neg old, Option.map_eq_some_iff] at isNew
    obtain ⟨id, foundId, -⟩ := isNew
    obtain ⟨bound, isId⟩ := List.getElem?_eq_some_iff.mp foundId
    have member := List.mem_of_getElem? foundId
    have position : i = (v.idOf b id).index := by
      have := nodup.idxOf_getElem _ bound
      rw [isId] at this
      simp only [idOf]
      omega
    rw [position, rep.variable_symbol member, Option.some.injEq] at found
    exact .inr ⟨id, member, position, found.symm⟩

end Symbols

theorem completed_isVariable (registered : Registered tree b) {i : Nat} {symbol : Symbol}
    (found : b.table.symbols[i]? = some symbol) :
    (v.completed b symbol).kind.isVariable = false := by
  rcases registered.fresh i symbol found with ⟨own, kind⟩ | ⟨own, kind⟩ <;>
    simp [completed, kind, SymbolKind.isVariable]

section Lookups

variable (prepared : Prepared tree b) (rep : v.Represents tree b r)
include prepared rep

theorem Represents.findVariable_eq_ok (nodup : v.declared.Nodup) {id : NodeId}
    (reached : tree.Reachable id) (name : String) :
    ∃ found, r.table.findVariable (b.scopeAt id) name = .ok found ∧
      found.isSome = v.hasVariable tree b (b.scopeAt id) name := by
  have known := prepared.registered.scope_known prepared.formed reached
  obtain ⟨found, read, isSome⟩ :=
    rep.ordered.findVariable_isSome_iff (rep.frames.size_eq ▸ known) name
  refine ⟨found, read, Bool.eq_iff_iff.mpr (isSome.trans ?_)⟩
  simp only [hasVariable, List.any_eq_true, Bool.and_eq_true, decide_eq_true_eq]
  constructor
  · rintro ⟨i, symbol, foundSymbol, here, named, isVariable⟩
    rcases rep.symbol_cases nodup foundSymbol with ⟨old, foundOld, rfl⟩ | ⟨other, member, -, rfl⟩
    · rw [completed_isVariable prepared.registered foundOld] at isVariable
      cases isVariable
    · exact ⟨other, member, here, named⟩
  · rintro ⟨other, member, here, named⟩
    exact ⟨_, _, rep.variable_symbol member, here, named, rfl⟩

/-- A class is looked up among the classes of registration. -/
theorem Represents.lookupClass_eq_ok {id : NodeId} (reached : tree.Reachable id) (name : String) :
    r.table.lookupClass (b.scopeAt id) name = .ok none ∧ b.classAt (b.scopeAt id) name = none ∨
      ∃ symbol x, r.table.lookupClass (b.scopeAt id) name = .ok (some symbol) ∧
        r.table.symbol symbol = .ok x ∧ x.kind.ownScope = b.classAt (b.scopeAt id) name := by
  have known := prepared.registered.scope_known prepared.formed reached
  have registered := prepared.registered
  obtain ⟨found, read⟩ := registered.ordered.lookupClass_isOk registered.nested known name
  have same := rep.completes.lookupClass_eq rep.ordered registered.ordered registered.nested
    registered.distinct known name
  rw [same, read]
  cases found with
  | none => exact .inl ⟨rfl, by simp [Resolution.classAt, read]⟩
  | some symbol =>
    obtain ⟨old, foundOld, -⟩ :=
      registered.ordered.lookupClass_isClass registered.nested known read
    obtain ⟨kind, kept, own, -⟩ := rep.completes.kept _ _ foundOld
    exact .inr ⟨symbol, _, rfl, by rw [SymbolTable.symbol, kept, orDangling_some],
      by simp [Resolution.classAt, read, foundOld, own]⟩

end Lookups

/-- What a lookup of a class finds has a class scope of its own. -/
theorem classAt_isClassScope (prepared : Prepared tree b) {id : NodeId}
    (reached : tree.Reachable id) {name : String} {own : ScopeId}
    (found : b.classAt (b.scopeAt id) name = some own) : b.IsClassScope own := by
  have known := prepared.registered.scope_known prepared.formed reached
  have registered := prepared.registered
  obtain ⟨symbol, read⟩ := registered.ordered.lookupClass_isOk registered.nested known name
  cases symbol with
  | none => simp [Resolution.classAt, read] at found
  | some symbol =>
    obtain ⟨x, foundX, isClass⟩ :=
      registered.ordered.lookupClass_isClass registered.nested known read
    simp only [Resolution.classAt, read, foundX, Option.bind_some] at found
    obtain ⟨scope, foundScope, owner⟩ := registered.owned.own _ x own foundX found
    obtain ⟨y, foundY, -, -, sort⟩ := registered.owned.owner _ scope _ foundScope owner
    obtain rfl : x = y := Option.some.inj (foundX.symm.trans foundY)
    rw [isClass] at sort
    cases kind : scope.kind with
    | classScope symbol => exact ⟨symbol, by simp [Resolution.scopeKind, foundScope, kind]⟩
    | _ => simp [kind, ScopeKind.isClass] at sort

theorem mem_of_mapM {find : NodeId → Option Ty} {ids : List NodeId} {types : List Ty}
    (found : ids.mapM find = some types) {type : Ty} (member : type ∈ types) :
    ∃ id ∈ ids, find id = some type := by
  induction ids generalizing types with
  | nil =>
    simp only [List.mapM_nil, Option.pure_def, Option.some.injEq] at found
    simp [← found] at member
  | cons id ids ih =>
    simp only [List.mapM_cons, Option.bind_eq_bind, Option.pure_def, Option.bind_eq_some_iff,
      Option.some.injEq] at found
    obtain ⟨first, isFirst, rest, isRest, rfl⟩ := found
    rcases List.mem_cons.mp member with rfl | later
    · exact ⟨id, List.mem_cons_self .., isFirst⟩
    · obtain ⟨other, listed, isType⟩ := ih isRest later
      exact ⟨other, List.mem_cons_of_mem _ listed, isType⟩

/-- Types that are found one by one share what holds of each of them. -/
theorem mapM_formed {holds : Ty → Prop} {find : NodeId → Option Ty}
    (each : ∀ id type, find id = some type → holds type) {ids : List NodeId} {types : List Ty}
    (found : ids.mapM find = some types) : ∀ type ∈ types, holds type := by
  intro type member
  obtain ⟨id, -, isType⟩ := mem_of_mapM found member
  exact each id type isType

theorem Grounded.signature_formed (grounded : v.Grounded tree b) {function : SymbolId}
    {types : List Ty} (signature : v.signature function = some types) :
    ∀ type ∈ types, type.Formed b.IsClassScope v.types.functions.size :=
  mapM_formed grounded.variableTyped signature

section Signatures

variable (prepared : Prepared tree b) (rep : v.Represents tree b r) (grounded : v.Grounded tree b)
include rep

theorem Represents.variableTypes_eq_ok (ids : List NodeId) (members : ∀ id ∈ ids, id ∈ v.declared) :
    r.table.variableTypes (ids.map (v.idOf b)) = .ok (ids.mapM v.variableType) := by
  induction ids with
  | nil => rfl
  | cons id ids ih =>
    simp only [List.map_cons, SymbolTable.variableTypes, SymbolTable.symbol,
      rep.variable_symbol (members id (by simp)), orDangling_some, ok_bind,
      SymbolKind.variableType, List.mapM_cons, ih fun other member => members other (by simp [member])]
    cases v.variableType id with
    | none => rfl
    | some type => cases ids.mapM v.variableType <;> rfl

include grounded

theorem Represents.parameterTypes_eq_ok {id : SymbolId} {symbol : Symbol} {own : ScopeId}
    (found : b.table.symbols[id.index]? = some symbol) (isId : symbol.id = id)
    (kind : symbol.kind = .function own none []) :
    r.table.parameterTypes id = .ok (v.signature id) := by
  simp only [SymbolTable.parameterTypes, SymbolTable.symbol, rep.old_symbol found, orDangling_some,
    ok_bind, completed, kind, isId]
  exact rep.variableTypes_eq_ok _ (grounded.parameters id)

include prepared

/-- Whether a symbol accepts some arguments: only functions do. -/
theorem Represents.accepts_eq_ok {arguments : List Ty}
    (known : ∀ type ∈ arguments, type.Formed b.IsClassScope v.types.functions.size) {id : SymbolId}
    {symbol : Symbol} (found : r.table.symbols[id.index]? = some symbol) :
    r.table.accepts r.types arguments id =
      .ok (b.table.holds (fun s => !s.kind.isVariable && !s.kind.isClass) id &&
        v.accepts arguments id) := by
  rcases rep.symbol_cases grounded.nodup found with ⟨old, foundOld, rfl⟩ | ⟨other, member, new, rfl⟩
  · have isId := prepared.registered.ordered.symbol_id _ old foundOld
    rcases prepared.registered.fresh _ old foundOld with ⟨own, kind⟩ | ⟨own, kind⟩
    · simp [SymbolTable.accepts, SymbolTable.parameterTypes, SymbolTable.symbol, found, completed,
        kind, SymbolTable.holds, foundOld, SymbolKind.isClass, pure, Except.pure]
    · have isFunction :
          b.table.holds (fun s => !s.kind.isVariable && !s.kind.isClass) id = true := by
        simp [SymbolTable.holds, foundOld, kind, SymbolKind.isVariable, SymbolKind.isClass]
      simp only [SymbolTable.accepts, rep.parameterTypes_eq_ok grounded foundOld isId kind, ok_bind,
        isFunction, Bool.true_and, View.accepts]
      cases signature : v.signature id with
      | none => rfl
      | some declared =>
        obtain ⟨answer, compared, -⟩ := TypeTable.matchParameterTypes_spec grounded.types known
          (grounded.signature_formed signature)
        cases answer <;> simp [rep.types, compared, View.sameTypes]
  · have beyond : b.table.symbols[id.index]? = none := by
      rw [Array.getElem?_eq_none_iff, new, idOf]
      simp
    simp [SymbolTable.accepts, SymbolTable.parameterTypes, SymbolTable.symbol, found,
      SymbolTable.holds, beyond, pure, Except.pure]

/-- A function is found by its signature among the functions of registration. -/
theorem Represents.findFunction_eq_ok {scope : ScopeId} (known : scope.index < b.table.scopes.size)
    (name : String) {arguments : List Ty}
    (formed : ∀ type ∈ arguments, type.Formed b.IsClassScope v.types.functions.size) :
    r.table.findFunction r.types scope name arguments =
      .ok ((b.functionsAt scope name).find? (v.accepts arguments)) := by
  have registered := prepared.registered
  have knownToo : scope.index < r.table.scopes.size := rep.frames.size_eq ▸ known
  rw [rep.ordered.findFunction_eq knownToo name fun id member => by
    obtain ⟨symbol, found, -⟩ := (rep.ordered.mem_listing knownToo).mp member
    exact rep.accepts_eq_ok prepared grounded formed found]
  congr 1
  rw [Resolution.functionsAt, List.find?_filter]
  refine rep.completes.find_listing rep.ordered registered.ordered registered.distinct known
    (fun id new => ?_) fun id member => ?_
  · have beyond : b.table.symbols[id.index]? = none := Array.getElem?_eq_none_iff.mpr new
    simp [SymbolTable.holds, beyond]
  · obtain ⟨symbol, found, -⟩ := (registered.ordered.mem_listing known).mp member
    have named : (symbol.name == name) = decide (symbol.name = name) := by
      by_cases same : symbol.name = name <;> simp [same]
    simp only [SymbolTable.holds, rep.old_symbol found, found, Option.any_some, completed, named]
    cases v.accepts arguments id <;> simp [Bool.and_assoc]

end Signatures

section Texts

variable (prepared : Prepared tree b) (rep : v.Represents tree b r) (grounded : v.Grounded tree b)
include prepared rep

omit rep in
theorem classText_isOk {scope : ScopeId} (isClass : b.IsClassScope scope) (types : TypeTable) :
    ∃ text, ({ b with types := types } : Resolution).classText scope = .ok text := by
  obtain ⟨symbol, kind⟩ := isClass
  obtain ⟨s, found, isKind⟩ := Option.map_eq_some_iff.mp kind
  obtain ⟨x, foundX, -⟩ :=
    prepared.registered.owned.owner _ s symbol found (by rw [isKind]; rfl)
  exact ⟨x.name, by simp [Resolution.classText, SymbolTable.owner, SymbolTable.scope, found, isKind,
    ScopeKind.owner?, SymbolTable.symbol, foundX, pure, Except.pure]⟩

theorem Represents.classText_eq {scope : ScopeId} (isClass : b.IsClassScope scope)
    (types : TypeTable) :
    r.classText scope = ({ b with types := types } : Resolution).classText scope := by
  obtain ⟨symbol, kind⟩ := isClass
  obtain ⟨s, found, isKind⟩ := Option.map_eq_some_iff.mp kind
  obtain ⟨x, foundX, -⟩ :=
    prepared.registered.owned.owner _ s symbol found (by rw [isKind]; rfl)
  obtain ⟨t, foundT, sameKind, -⟩ := rep.frames.symm.exists_scope found
  simp [Resolution.classText, SymbolTable.owner, SymbolTable.scope, found, foundT, sameKind, isKind,
    ScopeKind.owner?, SymbolTable.symbol, foundX, rep.old_symbol foundX, completed, pure, Except.pure]

include grounded

theorem Represents.optionalTypeText_eq_ok {type : Option Ty}
    (known : ∀ t, type = some t → t.Formed b.IsClassScope v.types.functions.size) :
    r.optionalTypeText type = .ok (v.textOf b type) := by
  cases type with
  | none => rfl
  | some type =>
    let shown : Resolution := { b with types := v.types }
    obtain ⟨text, isText⟩ := Resolution.typeText_isOk (r := shown) grounded.types
      (fun scope isClass => classText_isOk prepared isClass v.types) (known type rfl)
    have same : r.typeText type = shown.typeText type :=
      Resolution.typeText_extends (r := shown) grounded.types
        (by rw [rep.types]; exact TypeTable.Extends.refl _)
        (fun scope isClass => rep.classText_eq prepared isClass v.types) (known type rfl)
    simp only [Resolution.optionalTypeText, same, isText, View.textOf, shown]

theorem Represents.signatureText_eq_ok {id : SymbolId} {symbol : Symbol} {own : ScopeId}
    (found : b.table.symbols[id.index]? = some symbol) (isId : symbol.id = id)
    (kind : symbol.kind = .function own none []) :
    r.signatureText id = .ok (v.signatureText b id) := by
  have texts : ((v.parameters id).map (v.idOf b)).mapM (fun parameter => do
      r.optionalTypeText (← r.table.symbol parameter).kind.variableType) =
        .ok ((v.parameters id).map fun p => v.textOf b (v.variableType p)) := by
    rw [List.mapM_map]
    refine mapM_eq_ok _ fun p member => ?_
    simp only [Function.comp_apply, SymbolTable.symbol,
      rep.variable_symbol (grounded.parameters id p member), orDangling_some, ok_bind,
      SymbolKind.variableType]
    exact rep.optionalTypeText_eq_ok prepared grounded fun t isType =>
      grounded.variableTyped p t isType
  simp only [Resolution.signatureText, SymbolTable.symbol, rep.old_symbol found, orDangling_some,
    ok_bind, completed, kind, SymbolKind.parameters, isId]
  simp only [SymbolTable.symbol] at texts
  rw [texts]
  simp [View.signatureText, Resolution.nameOf, found, pure, Except.pure]

end Texts

end ScriptSemantics.View
