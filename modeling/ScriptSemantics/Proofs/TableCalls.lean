import ScriptSemantics.Proofs.TidyTables

/-!
# Tables built by any calls

Whoever holds a table may call it in any order and with any arguments. A call that succeeds does one
of four things: it adds a symbol, opens a scope with a symbol of its own, opens a block, or changes
what one symbol names. Each keeps the table coherent, also where a scope was opened in itself.
-/
namespace ScriptSemantics

namespace SymbolKind

/-- A change that leaves alone what sort of symbol this is and which scope is its own. -/
def Keeps (change : SymbolKind → SymbolKind) : Prop :=
  ∀ kind, (change kind).ownScope = kind.ownScope ∧ (change kind).isClass = kind.isClass

theorem keeps_withVariableType (type : Option Ty) : Keeps (withVariableType type) := by
  rintro ⟨⟩ <;> exact ⟨rfl, rfl⟩

theorem keeps_withReturnType (type : Option Ty) : Keeps (withReturnType type) := by
  rintro ⟨⟩ <;> exact ⟨rfl, rfl⟩

theorem keeps_withParameter (parameter : SymbolId) : Keeps (withParameter parameter) := by
  rintro ⟨⟩ <;> exact ⟨rfl, rfl⟩

theorem keeps_withSuperclass (superclass : ScopeId) : Keeps (withSuperclass superclass) := by
  rintro ⟨⟩ <;> exact ⟨rfl, rfl⟩

end SymbolKind

namespace SymbolTable

variable {table after : SymbolTable}

/-- A call that changes a table. -/
inductive Call where
  | addSymbol (scope : ScopeId) (name : String) (kind : SymbolKind) (node : NodeId)
      (location : Location)
  | declareVariable (scope : ScopeId) (name : String) (node : NodeId) (location : Location)
  | declareFunction (enclosing : ScopeId) (name : String) (node : NodeId) (location : Location)
  | declareClass (enclosing : ScopeId) (name : String) (node : NodeId) (location : Location)
  | pushBlock (enclosing : ScopeId)
  | setVariableType (id : SymbolId) (type : Option Ty)
  | setReturnType (function : SymbolId) (type : Option Ty)
  | pushParameter (function parameter : SymbolId)
  | setSuperclass (symbol : SymbolId) (superclass : ScopeId)
  deriving DecidableEq, Repr

/-- The table that a call leaves, without the numbers that it answers. -/
def perform (table : SymbolTable) : Call → Except Fault SymbolTable
  | .addSymbol scope name kind node location =>
    Prod.snd <$> table.addSymbol scope name kind node location
  | .declareVariable scope name node location =>
    Prod.snd <$> table.declareVariable scope name node location
  | .declareFunction enclosing name node location =>
    Prod.snd <$> table.declareFunction enclosing name node location
  | .declareClass enclosing name node location =>
    Prod.snd <$> table.declareClass enclosing name node location
  | .pushBlock enclosing => Prod.snd <$> table.pushBlock enclosing
  | .setVariableType id type => table.setVariableType id type
  | .setReturnType function type => table.setReturnType function type
  | .pushParameter function parameter => table.pushParameter function parameter
  | .setSuperclass symbol superclass => table.setSuperclass symbol superclass

/-- The scope in which a call opens another. -/
def Call.opensIn : Call → Option ScopeId
  | .declareFunction enclosing .. | .declareClass enclosing .. | .pushBlock enclosing =>
    some enclosing
  | _ => none

/-- What a call may do to a table, by the scope in which it opens another. That one need not be
there before: it may be the one opened. -/
inductive Change (table : SymbolTable) : Option ScopeId → SymbolTable → Prop
  | symbol (scope : ScopeId) (name : String) (kind : SymbolKind) (node : NodeId)
      (location : Location) (known : scope.index < table.scopes.size) :
      table.Change none (table.withSymbol scope name kind node location)
  | owner (scopeKind : SymbolId → ScopeKind) (symbolKind : ScopeId → SymbolKind)
      (enclosing : ScopeId) (name : String) (node : NodeId) (location : Location)
      (known : enclosing.index ≤ table.scopes.size)
      (owner : ∀ id, (scopeKind id).owner? = some id)
      (own : ∀ scope, (symbolKind scope).ownScope = some scope)
      (sort : ∀ id scope, (scopeKind id).isClass = (symbolKind scope).isClass) :
      table.Change (some enclosing)
        (table.withOwner scopeKind symbolKind enclosing name node location)
  | block (enclosing : ScopeId) (known : enclosing.index ≤ table.scopes.size) :
      table.Change (some enclosing) (table.withBlock enclosing)
  | kind (id : SymbolId) (change : SymbolKind → SymbolKind)
      (keeps : SymbolKind.Keeps change) :
      table.Change none (table.withKind id change)

/-- A symbol is added to a table with one scope more only in that scope or in an older one. -/
theorem pushScope_addSymbol_known {scopeKind : ScopeKind} {enclosing : ScopeId} {name : String}
    {symbolKind : SymbolKind} {node : NodeId} {location : Location}
    {answer : SymbolId × SymbolTable}
    (added : (table.pushScope scopeKind enclosing).addSymbol enclosing name symbolKind node
      location = .ok answer) : enclosing.index ≤ table.scopes.size := by
  have known := addSymbol_known added
  rw [pushScope_scopes_size] at known
  omega

theorem pushBlock_known {enclosing : ScopeId} {answer : ScopeId × SymbolTable}
    (pushed : table.pushBlock enclosing = .ok answer) : enclosing.index ≤ table.scopes.size := by
  by_contra unknown
  have missing : ¬ enclosing.index < table.scopes.size + 1 := by omega
  simp [pushBlock, updateScope, SymbolTable.scope, missing, pushScope] at pushed

theorem updateKind_change {id : SymbolId} {change : SymbolKind → SymbolKind}
    (keeps : SymbolKind.Keeps change) (updated : table.updateKind id change = .ok after) :
    table.Change none after := by
  rw [updateKind_eq_ok (updateKind_known updated)] at updated
  cases updated
  exact .kind id change keeps

/-- A call that succeeds makes one of the changes. -/
theorem perform_change {call : Call} (performed : table.perform call = .ok after) :
    table.Change call.opensIn after := by
  cases call with
  | addSymbol scope name kind node location =>
    obtain ⟨answer, added, rfl⟩ := map_eq_ok_iff.mp performed
    have known := addSymbol_known added
    rw [addSymbol_eq_ok known] at added
    cases added
    exact .symbol _ _ _ _ _ known
  | declareVariable scope name node location =>
    obtain ⟨answer, added, rfl⟩ := map_eq_ok_iff.mp performed
    rw [declareVariable] at added
    have known := addSymbol_known added
    rw [addSymbol_eq_ok known] at added
    cases added
    exact .symbol _ _ _ _ _ known
  | declareFunction enclosing name node location =>
    obtain ⟨answer, declared, rfl⟩ := map_eq_ok_iff.mp performed
    obtain ⟨_, added, -⟩ := bind_eq_ok_iff.mp declared
    have known := pushScope_addSymbol_known added
    rw [declareFunction_eq_ok known] at declared
    cases declared
    exact .owner .functionScope (.function · none []) enclosing name node location known
      (fun _ => rfl) (fun _ => rfl) fun _ _ => rfl
  | declareClass enclosing name node location =>
    obtain ⟨answer, declared, rfl⟩ := map_eq_ok_iff.mp performed
    obtain ⟨_, added, -⟩ := bind_eq_ok_iff.mp declared
    have known := pushScope_addSymbol_known added
    rw [declareClass_eq_ok known] at declared
    cases declared
    exact .owner .classScope (.classType · none) enclosing name node location known
      (fun _ => rfl) (fun _ => rfl) fun _ _ => rfl
  | pushBlock enclosing =>
    obtain ⟨answer, pushed, rfl⟩ := map_eq_ok_iff.mp performed
    have known := pushBlock_known pushed
    rw [pushBlock_eq_ok known] at pushed
    cases pushed
    exact .block _ known
  | setVariableType id type =>
    exact updateKind_change (SymbolKind.keeps_withVariableType _) performed
  | setReturnType function type =>
    exact updateKind_change (SymbolKind.keeps_withReturnType _) performed
  | pushParameter function parameter =>
    exact updateKind_change (SymbolKind.keeps_withParameter _) performed
  | setSuperclass symbol superclass =>
    exact updateKind_change (SymbolKind.keeps_withSuperclass _) performed

/-- Where a symbol given by number is listed: by its place, and by its number beside others at the
same place. -/
def rank (table : SymbolTable) (id : SymbolId) : (ℕ ×ₗ ℕ) ×ₗ ℕ := toLex (table.place id, id.index)

/-- Every scope lists its symbols by rank. -/
def Ranked (table : SymbolTable) : Prop :=
  ∀ (i : Nat) (scope : Scope), table.scopes[i]? = some scope →
    scope.symbols.Pairwise fun a b => table.rank a ≤ table.rank b

theorem rank_le_iff {a b : SymbolId} (earlier : a.index ≤ b.index) :
    table.rank a ≤ table.rank b ↔ table.place a ≤ table.place b := by
  rw [rank, rank, Prod.Lex.toLex_le_toLex]
  constructor
  · rintro (less | ⟨same, -⟩)
    · exact less.le
    · exact same.le
  · intro le
    rcases le.lt_or_eq with less | same
    · exact .inl less
    · exact .inr ⟨same, earlier⟩

/-- The symbol added last stands after all others at its place. -/
theorem Ranked.withSymbol (ranked : table.Ranked) (ordered : table.Ordered) (scope : ScopeId)
    (name : String) (kind : SymbolKind) (node : NodeId) (location : Location) :
    (table.withSymbol scope name kind node location).Ranked := by
  refine ordered.sorted_withSymbol scope name kind node location (fun id bound => ?_)
    (fun id bound => ?_) ranked
  · rw [rank, rank, withSymbol_place_old _ _ _ _ _ (Nat.ne_of_lt bound)]
  · rw [rank_le_iff (by exact bound.le), staysBefore_iff _ _ _ _ _ bound]

theorem Ranked.of_listings (ranked : table.Ranked)
    (places : ∀ id, after.place id = table.place id)
    (listings : ∀ (i : Nat) (s : Scope), after.scopes[i]? = some s →
      s.symbols = [] ∨ ∃ old, table.scopes[i]? = some old ∧ s.symbols = old.symbols) :
    after.Ranked := by
  intro i s found
  have ranks : after.rank = table.rank := funext fun id => by rw [rank, rank, places]
  rw [ranks]
  rcases listings i s found with empty | ⟨old, foundOld, same⟩
  · rw [empty]
    exact .nil
  · rw [same]
    exact ranked i old foundOld

theorem Ranked.pushScope (ranked : table.Ranked) (kind : ScopeKind) (enclosing : ScopeId) :
    (table.pushScope kind enclosing).Ranked := by
  refine ranked.of_listings (fun _ => rfl) fun i s found => ?_
  rw [pushScope_scopes] at found
  split at found
  · cases found
    exact .inl rfl
  · exact .inr ⟨s, found, rfl⟩

theorem Ranked.withBlock (ranked : table.Ranked) (enclosing : ScopeId) :
    (table.withBlock enclosing).Ranked := by
  refine (ranked.pushScope .blockScope enclosing).of_listings (fun _ => rfl) fun i s found => ?_
  rw [withBlock_scopes, Option.map_eq_some_iff] at found
  obtain ⟨old, foundOld, rfl⟩ := found
  refine .inr ⟨old, foundOld, ?_⟩
  split <;> rfl

theorem Ranked.withKind (ranked : table.Ranked) (id : SymbolId)
    (change : SymbolKind → SymbolKind) : (table.withKind id change).Ranked :=
  ranked.of_listings (withKind_place id change) fun _ s found => .inr ⟨s, found, rfl⟩

/-- Scopes keep their owners when symbols are added or change what else they name. -/
theorem Attributed.of_sameFrames (attributed : table.Attributed) (same : after.SameFrames table)
    (kept : ∀ (i : Nat) (symbol : Symbol), table.symbols[i]? = some symbol →
      ∃ later, after.symbols[i]? = some later ∧ later.enclosing = symbol.enclosing ∧
        later.kind.ownScope = symbol.kind.ownScope ∧
        later.kind.isClass = symbol.kind.isClass) : after.Attributed := by
  intro i s id found ofScope
  obtain ⟨old, foundOld, kind, around, -⟩ := same.exists_scope found
  obtain ⟨x, foundX, ownX, aroundX, sortX⟩ := attributed i old id foundOld (kind ▸ ofScope)
  obtain ⟨later, foundLater, enclosing, own, sort⟩ := kept _ x foundX
  refine ⟨later, foundLater, own.trans ownX, ?_, ?_⟩
  · rw [← around, aroundX, enclosing]
  · rw [← kind, sortX, sort]

theorem Attributed.withSymbol (attributed : table.Attributed) (scope : ScopeId) (name : String)
    (kind : SymbolKind) (node : NodeId) (location : Location) :
    (table.withSymbol scope name kind node location).Attributed := by
  refine attributed.of_sameFrames (withSymbol_sameFrames _ _ _ _ _) fun i symbol found => ?_
  have bound := (Array.getElem?_eq_some_iff.mp found).1
  exact ⟨symbol, by rw [withSymbol_symbols, if_neg (Nat.ne_of_lt bound), found], rfl, rfl, rfl⟩

theorem Attributed.withKind (attributed : table.Attributed) (id : SymbolId)
    {change : SymbolKind → SymbolKind} (keeps : SymbolKind.Keeps change) :
    (table.withKind id change).Attributed := by
  refine attributed.of_sameFrames (fun _ => rfl) fun i symbol found => ?_
  refine ⟨_, by rw [withKind_symbols, found, Option.map_some], ?_⟩
  split
  · exact ⟨rfl, keeps symbol.kind⟩
  · exact ⟨rfl, rfl, rfl⟩

/-- What holds of a table whatever calls have built it. -/
structure Built (table : SymbolTable) : Prop where
  ordered : table.Ordered
  ranked : table.Ranked
  linked : table.Linked
  attributed : table.Attributed

theorem Built.new (name : String) : (SymbolTable.new name).Built where
  ordered := .new name
  ranked i s found := by
    obtain ⟨-, rfl⟩ := new_scopes found
    exact .nil
  linked := (Nested.new name).linked
  attributed := (Owned.new name).owner

/-- One change keeps what holds of every table. -/
theorem Built.change (built : table.Built) {opened : Option ScopeId}
    (change : table.Change opened after) : after.Built := by
  obtain ⟨ordered, ranked, linked, attributed⟩ := built
  cases change with
  | symbol scope name kind node location known =>
    exact ⟨ordered.withSymbol _ _ _ _ _ known, ranked.withSymbol ordered _ _ _ _ _,
      linked.of_sameFrames (withSymbol_sameFrames _ _ _ _ _), attributed.withSymbol _ _ _ _ _⟩
  | owner scopeKind symbolKind enclosing name node location known owner own sort =>
    exact ⟨ordered.withOwner _ _ _ known,
      (ranked.pushScope _ _).withSymbol (ordered.pushScope _ _) _ _ _ _ _,
      (withOwner_opens name node location owner).linked linked known
        (ScopeKind.ne_namespace_of_owner (owner _)),
      attributed.withOwner _ _ _ owner own sort⟩
  | block enclosing known =>
    exact ⟨ordered.withBlock _, ranked.withBlock _,
      withBlock_opens.linked linked known fun _ => by simp, attributed.withBlock _⟩
  | kind id change keeps =>
    exact ⟨ordered.withKind _ _, ranked.withKind _ _, linked.of_sameFrames fun _ => rfl,
      attributed.withKind _ keeps⟩

theorem Built.run (built : table.Built) {calls : List Call}
    (ran : calls.foldlM perform table = .ok after) : after.Built := by
  induction calls generalizing table with
  | nil =>
    cases ran
    exact built
  | cons call calls ih =>
    rw [List.foldlM_cons] at ran
    obtain ⟨next, performed, rest⟩ := bind_eq_ok_iff.mp ran
    exact ih (built.change (perform_change performed)) rest

/-- What a caller may rely on: numbers are positions; a scope lists exactly its symbols, once each,
by their starts, then by their nodes, then in the order in which they were added; the scope of a
class or a function has an owner, which is in the scope around it and has it for its own; and a
block is in one list of blocks, once, which is that of the scope around it. -/
structure Coherent (table : SymbolTable) : Prop where
  scope_id : ∀ (i : Nat) (scope : Scope), table.scopes[i]? = some scope → scope.id = ⟨i⟩
  symbol_id : ∀ (i : Nat) (symbol : Symbol), table.symbols[i]? = some symbol → symbol.id = ⟨i⟩
  listed : ∀ (i : Nat) (scope : Scope), table.scopes[i]? = some scope →
    ∀ id : SymbolId, id ∈ scope.symbols ↔
      ∃ symbol : Symbol, table.symbols[id.index]? = some symbol ∧ symbol.enclosing = ⟨i⟩
  once : ∀ (i : Nat) (scope : Scope), table.scopes[i]? = some scope → scope.symbols.Nodup
  sorted : ∀ (i : Nat) (scope : Scope), table.scopes[i]? = some scope →
    scope.symbols.Pairwise fun a b => table.place a < table.place b ∨
      table.place a = table.place b ∧ a.index < b.index
  owner : ∀ (i : Nat) (scope : Scope), table.scopes[i]? = some scope →
    (scope.kind.isClass = true ∨ scope.kind.isFunction = true) →
    ∃ (id : SymbolId) (symbol : Symbol), table.owner ⟨i⟩ = .ok (some id) ∧
      table.symbols[id.index]? = some symbol ∧ symbol.kind.ownScope = some ⟨i⟩ ∧
      scope.enclosing = some symbol.enclosing
  block : ∀ (i : Nat) (scope : Scope), table.scopes[i]? = some scope → scope.kind = .blockScope →
    ∃ (enclosing : ScopeId) (around : Scope), scope.enclosing = some enclosing ∧
      table.scopes[enclosing.index]? = some around ∧ ⟨i⟩ ∈ around.blocks ∧
      (table.scopes.toList.flatMap Scope.blocks).count ⟨i⟩ = 1

/-- No block is listed twice, by one scope or by two: it names the one that lists it. -/
theorem Linked.blocks_apart (linked : table.Linked) :
    (table.scopes.toList.flatMap Scope.blocks).Nodup := by
  refine List.nodup_flatMap.mpr ⟨fun scope member => ?_, ?_⟩
  · obtain ⟨i, found⟩ := List.mem_iff_getElem?.mp member
    exact linked.blocks_nodup i scope (by simpa using found)
  · rw [List.pairwise_iff_getElem]
    intro i j boundI boundJ before block inI inJ
    rw [Array.getElem_toList] at inI inJ
    have here := (linked.mem_blocks i _ (by simp) block).mp inI
    have there := (linked.mem_blocks j _ (by simp) block).mp inJ
    obtain ⟨inner, found, -, around⟩ := here
    obtain ⟨other, foundOther, -, aroundOther⟩ := there
    rw [found, Option.some.injEq] at foundOther
    subst foundOther
    rw [around, Option.some.injEq, ScopeId.mk.injEq] at aroundOther
    omega

theorem Built.coherent (built : table.Built) : table.Coherent where
  scope_id := built.ordered.scope_id
  symbol_id := built.ordered.symbol_id
  listed := built.ordered.listed
  once := built.ordered.nodup
  sorted i s found := by
    refine ((built.ranked i s found).and (built.ordered.nodup i s found)).imp fun {a b} both => ?_
    obtain ⟨le, different⟩ := both
    have ranks : table.rank a ≠ table.rank b := fun same =>
      different (congrArg SymbolId.mk (Prod.ext_iff.mp (toLex.injective same)).2)
    exact Prod.Lex.toLex_lt_toLex.mp (lt_of_le_of_ne le ranks)
  owner i s found sort := by
    obtain ⟨id, isOwner⟩ : ∃ id, s.kind.owner? = some id := by
      cases kind : s.kind <;> simp_all [ScopeKind.isClass, ScopeKind.isFunction, ScopeKind.owner?]
    obtain ⟨symbol, foundSymbol, own, around, -⟩ := built.attributed i s id found isOwner
    refine ⟨id, symbol, ?_, foundSymbol, own, around⟩
    simp [SymbolTable.owner, SymbolTable.scope, found, isOwner, pure, Except.pure]
  block i s found isBlock := by
    have inside : i ≠ 0 := by
      rintro rfl
      obtain ⟨name, isSpace⟩ := (built.linked.namespace_iff 0 s found).mpr rfl
      rw [isBlock] at isSpace
      cases isSpace
    obtain ⟨enclosing, around, before⟩ := built.linked.enclosed i s found inside
    have bound := (Array.getElem?_eq_some_iff.mp found).1
    obtain ⟨outer, foundOuter⟩ : ∃ outer, table.scopes[enclosing.index]? = some outer :=
      scope_exists (by omega)
    have member : ⟨i⟩ ∈ outer.blocks :=
      (built.linked.mem_blocks _ outer foundOuter ⟨i⟩).mpr ⟨s, found, isBlock, around⟩
    refine ⟨enclosing, outer, around, foundOuter, member, ?_⟩
    refine List.count_eq_one_of_mem built.linked.blocks_apart (List.mem_flatMap.mpr ?_)
    exact ⟨outer, Array.mem_toList_iff.mpr (Array.mem_of_getElem? foundOuter), member⟩

/-- Any calls leave a coherent table. -/
theorem calls_keep_coherent {name : String} {calls : List Call}
    (ran : calls.foldlM perform (.new name) = .ok table) : table.Coherent :=
  ((Built.new name).run ran).coherent

/-- Symbols out of order, two of them at one place and one with a scope that no call opened, and
then a function and a block whose scopes stand in themselves. -/
def tiedCalls : List Call :=
  [.declareClass ⟨0⟩ "A" ⟨5⟩ ⟨10, 20⟩, .declareVariable ⟨1⟩ "x" ⟨3⟩ ⟨14, 15⟩,
    .addSymbol ⟨1⟩ "y" (.classType ⟨9⟩ none) ⟨3⟩ ⟨14, 16⟩, .declareVariable ⟨1⟩ "z" ⟨2⟩ ⟨12, 13⟩,
    .declareFunction ⟨2⟩ "f" ⟨4⟩ ⟨17, 19⟩, .pushBlock ⟨3⟩, .pushBlock ⟨1⟩, .setSuperclass ⟨2⟩ ⟨7⟩]

theorem calls_keep_coherent_tied : ∃ table, tiedCalls.foldlM perform (.new "global") = .ok table ∧
    table.scopes.toList.map (fun scope => (scope.symbols, scope.blocks)) =
      [([⟨0⟩], []), ([⟨3⟩, ⟨1⟩, ⟨2⟩], [⟨4⟩]), ([⟨4⟩], []), ([], [⟨3⟩]), ([], [])] ∧
    table.Coherent := by
  have listings : (fun table : SymbolTable => table.scopes.toList.map fun scope =>
      (scope.symbols, scope.blocks)) <$> tiedCalls.foldlM perform (.new "global") =
      .ok [([⟨0⟩], []), ([⟨3⟩, ⟨1⟩, ⟨2⟩], [⟨4⟩]), ([⟨4⟩], []), ([], [⟨3⟩]), ([], [])] := rfl
  obtain ⟨table, ran, listed⟩ := map_eq_ok_iff.mp listings
  exact ⟨table, ran, listed, calls_keep_coherent ran⟩

end SymbolTable

end ScriptSemantics
