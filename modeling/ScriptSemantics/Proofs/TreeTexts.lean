import Mathlib.Data.Option.Basic
import ScriptSemantics.Proofs.JsonTexts
import ScriptSemantics.Syntax.Format

/-!
# Written trees are read back

The text of a tree is read back as that tree, whatever its productions, texts and numbers, and
whether or not the numbers name nodes. The format bounds numbers only by their width: 32 bits for
nodes and 64 for the ends of locations.
-/
namespace ScriptSemantics

theorem Double.round_le (n : Nat) : round n ≤ 2 * n := by
  rcases Nat.eq_zero_or_pos n with rfl | positive
  · decide
  · have unit : Nat.pow 2 (n.log2 + 1 - 53) ≤ n :=
      (Nat.pow_le_pow_right (by omega) (by omega)).trans (Nat.log2_self_le (by omega))
    have whole : n / Nat.pow 2 (n.log2 + 1 - 53) * Nat.pow 2 (n.log2 + 1 - 53) ≤ n :=
      Nat.div_mul_le_self _ _
    unfold round
    simp only [Nat.add_mul]
    split <;> omega

namespace Numeral

theorem gather_eq (digits : List Char) (significand : Nat)
    (small : Nat.ofDigitChars 10 digits significand < significandLimit) :
    gather significand digits = (Nat.ofDigitChars 10 digits significand, digits.length) := by
  induction digits generalizing significand with
  | nil => simp [gather]
  | cons c digits ih =>
    have next : significand * 10 + digitsValue [c] = 10 * significand + (c.toNat - '0'.toNat) := by
      simp only [digitsValue, Nat.ofDigitChars_cons, Nat.ofDigitChars_nil]
      omega
    rw [Nat.ofDigitChars_cons, ← next] at small ⊢
    have grows : significand * 10 + digitsValue [c] ≤
        Nat.ofDigitChars 10 digits (significand * 10 + digitsValue [c]) := by
      rw [Nat.ofDigitChars_eq_ofDigitChars_zero]
      exact (Nat.le_mul_of_pos_left _ (Nat.pow_pos (by omega))).trans (Nat.le_add_right _ _)
    simp only [gather]
    rw [if_pos (by omega), ih _ small]
    rfl

theorem inRange_ofNat {n : Nat} (small : n < significandLimit) : (ofNat n).inRange = true := by
  have value : Nat.ofDigitChars 10 (Nat.toDigits 10 n) 0 = n := Nat.ofDigitChars_ten_toDigits
  have gathered := gather_eq (Nat.toDigits 10 n) 0 (by rwa [value])
  have one : Double.round 1 = 1 := by decide
  have wide : 2 * significandLimit < Double.overflowLimit := by decide +kernel
  have rounded := Double.round_le n
  have kept : scalesFinite n 0 = true := by
    by_cases zero : n = 0
    · simp [scalesFinite, zero]
    · have product : Double.round n * 1 < Double.overflowLimit := by omega
      simpa [scalesFinite, zero, one] using product
  simpa [inRange, ofNat, gathered, value, gather] using kept

end Numeral

namespace Json

theorem list?_ofList {α : Type} {write : α → Json} {read : Json → Option α} {items : List α}
    (back : ∀ a ∈ items, read (write a) = some a) : list? read (ofList write items) = some items := by
  have each : (items.map write).mapM read = some items := by
    induction items with
    | nil => rfl
    | cons a items ih =>
      simp [List.mapM_cons, back a (by simp), ih fun b member => back b (by simp [member])]
  simpa [list?, ofList, toItems?] using each

/-- Members with the names that they are written with. -/
def named (members : List (String × Json)) : Members := members.map fun m => (some m.1, m.2)

theorem record_eq (members : List (String × Json)) : record members = .object (named members) := rfl

theorem namesAreTexts_named (members : List (String × Json)) :
    namesAreTexts (named members) = true := by simp [namesAreTexts, named]

/-- Where no name is repeated, a member is the only one of its name. -/
theorem unique?_named {members : List (String × Json)} (distinct : (members.map Prod.fst).Nodup)
    (name : String) : unique? (named members) name = some (members.lookup name) := by
  have values : valuesOf (named members) name = (members.lookup name).toList := by
    induction members with
    | nil => rfl
    | cons m members ih =>
      obtain ⟨key, value⟩ := m
      obtain ⟨first, rest⟩ := List.nodup_cons.mp distinct
      by_cases same : key = name
      · subst same
        have absent : ∀ m ∈ members, m.1 ≠ key := by
          rintro m member rfl
          exact first (List.mem_map.mpr ⟨m, member, rfl⟩)
        have others : valuesOf (named members) key = [] := by
          simp only [valuesOf, named, List.map_eq_nil_iff, List.filter_eq_nil_iff, List.mem_map]
          rintro _ ⟨m, member, rfl⟩
          simpa using absent m member
        simpa [valuesOf, named, List.lookup_cons] using others
      · have other : (name == key) = false := by simpa using Ne.symm same
        simpa [valuesOf, named, List.lookup_cons, same, other] using ih rest
  unfold unique?
  rw [values]
  cases members.lookup name <;> rfl

/-- What an optional member is read as, if it is there. -/
def readOptional {α : Type} (read : Json → Option α) : Option Json → Option (Option α)
  | none | some .null => some none
  | some value => (read value).map some

theorem required?_named {α : Type} {members : List (String × Json)}
    (distinct : (members.map Prod.fst).Nodup) (name : String) (read : Json → Option α) :
    required? (named members) name read = (members.lookup name).bind read := by
  simp [required?, unique?_named distinct]

theorem optional?_named {α : Type} {members : List (String × Json)}
    (distinct : (members.map Prod.fst).Nodup) (name : String) (read : Json → Option α) :
    optional? (named members) name read = readOptional read (members.lookup name) := by
  simp only [optional?, unique?_named distinct, Option.bind_eq_bind, Option.bind_some]
  rfl

theorem natUpTo?_ofNat {bound n : Nat} (narrow : n ≤ bound) :
    natUpTo? bound (ofNat n) = some n := by
  simp [natUpTo?, ofNat, toNat?, narrow]

theorem toText?_text (s : String) : (text s).toText? = some s := rfl

theorem membersKeepable_eq_all (depth : Nat) (members : Members) :
    membersKeepable depth members = members.all fun m => m.1.isSome && m.2.keepable depth := by
  induction members with
  | nil => rfl
  | cons m members ih =>
    rw [List.all_cons, ← ih]
    rfl

/-- Some of the members of a record can be kept if all their values can. -/
theorem membersKeepable_filter {depth : Nat} {members : List (String × Json)}
    (each : ∀ m ∈ members, m.2.keepable depth = true) (chosen : Option String × Json → Bool) :
    membersKeepable depth ((named members).filter chosen) = true := by
  rw [membersKeepable_eq_all, List.all_eq_true]
  intro m kept
  obtain ⟨listed, -⟩ := List.mem_filter.mp kept
  obtain ⟨m, member, rfl⟩ := List.mem_map.mp listed
  simpa using each m member

theorem keepable_ofNat (depth : Nat) {n : Nat} (small : n < Numeral.significandLimit) :
    (ofNat n).keepable depth = true := Numeral.inRange_ofNat small

theorem keepable_ofList {α : Type} (depth : Nat) {write : α → Json} {items : List α}
    (each : ∀ a ∈ items, (write a).keepable depth = true) :
    (ofList write items).keepable (depth + 1) = true := by
  have all : itemsKeepable depth (items.map write) = true := by
    induction items with
    | nil => rfl
    | cons a items ih =>
      simp [itemsKeepable, each a (by simp), ih fun b member => each b (by simp [member])]
  exact all

end Json

/-- Whether all node numbers of a list have 32 bits. -/
def NodeId.Narrow (ids : List NodeId) : Prop := ∀ id ∈ ids, id.index ≤ greatest

namespace NodeId

theorem narrow_cons {id : NodeId} {ids : List NodeId} :
    Narrow (id :: ids) ↔ id.index ≤ greatest ∧ Narrow ids := List.forall_mem_cons

theorem narrow_append {first second : List NodeId} :
    Narrow (first ++ second) ↔ Narrow first ∧ Narrow second := List.forall_mem_append

end NodeId

/-- Node numbers of 32 bits and a location of 64 bits. -/
structure Node.Narrow (node : Node) : Prop where
  children : NodeId.Narrow node.children
  start_le : node.location.startByte ≤ Location.greatest
  end_le : node.location.endByte ≤ Location.greatest

/-- All numbers of the tree are as narrow as the format wants them. Whether they name nodes does not
matter. -/
structure SyntaxTree.Narrow (tree : SyntaxTree) : Prop where
  nodes : ∀ node ∈ tree.nodes, node.Narrow
  root_le : tree.root.index ≤ NodeId.greatest

instance (ids : List NodeId) : Decidable (NodeId.Narrow ids) :=
  inferInstanceAs (Decidable (∀ id ∈ ids, id.index ≤ NodeId.greatest))

instance (node : Node) : Decidable node.Narrow :=
  decidable_of_iff (NodeId.Narrow node.children ∧ node.location.startByte ≤ Location.greatest ∧
    node.location.endByte ≤ Location.greatest)
    ⟨fun ⟨children, start, stop⟩ => ⟨children, start, stop⟩,
      fun ⟨children, start, stop⟩ => ⟨children, start, stop⟩⟩

instance (tree : SyntaxTree) : Decidable tree.Narrow :=
  decidable_of_iff ((∀ node ∈ tree.nodes.toList, node.Narrow) ∧
    tree.root.index ≤ NodeId.greatest)
    ⟨fun ⟨nodes, root⟩ => ⟨fun node member => nodes node (by simpa using member), root⟩,
      fun ⟨nodes, root⟩ => ⟨fun node member => nodes node (by simpa using member), root⟩⟩

theorem NodeId.ofJson?_toJson {id : NodeId} (narrow : id.index ≤ greatest) :
    ofJson? id.toJson = some id := by
  simp [ofJson?, toJson, Json.natUpTo?_ofNat narrow]

theorem NodeId.readOptional_ofOption {id : Option NodeId} (narrow : Narrow id.toList) :
    Json.readOptional ofJson? (some (.ofOption toJson id)) = some id := by
  cases id with
  | none => rfl
  | some id =>
    have back := ofJson?_toJson (narrow id (by simp))
    have notNull : id.toJson ≠ .null := nofun
    simp [Json.readOptional, Json.ofOption, back]

theorem NodeId.list?_ofList {ids : List NodeId} (narrow : Narrow ids) :
    Json.list? ofJson? (.ofList toJson ids) = some ids :=
  Json.list?_ofList fun id member => ofJson?_toJson (narrow id member)

theorem NodeId.keepable_toJson {id : NodeId} (narrow : id.index ≤ greatest) (depth : Nat) :
    id.toJson.keepable depth = true :=
  Json.keepable_ofNat depth (by unfold greatest at narrow; unfold Numeral.significandLimit; omega)

theorem NodeId.keepable_ofList {ids : List NodeId} (narrow : Narrow ids) (depth : Nat) :
    (Json.ofList toJson ids).keepable (depth + 1) = true :=
  Json.keepable_ofList depth fun id member => keepable_toJson (narrow id member) depth

theorem NodeId.keepable_ofOption {id : Option NodeId} (narrow : Narrow id.toList) (depth : Nat) :
    (Json.ofOption toJson id).keepable depth = true := by
  cases id with
  | none => rfl
  | some id => exact keepable_toJson (narrow id (by simp)) depth

theorem Location.ofJson?_toJson {l : Location} (start : l.startByte ≤ greatest)
    (stop : l.endByte ≤ greatest) : ofJson? l.toJson = some l := by
  have distinct : (["start_byte", "end_byte"] : List String).Nodup := by decide
  simp [ofJson?, toJson, Json.record_eq, Json.namesAreTexts_named, Json.required?_named,
    List.lookup_cons, Json.natUpTo?_ofNat start, Json.natUpTo?_ofNat stop]

theorem Location.keepable_toJson {l : Location} (start : l.startByte ≤ greatest)
    (stop : l.endByte ≤ greatest) (depth : Nat) : l.toJson.keepable (depth + 1) = true := by
  have small {n : Nat} (narrow : n ≤ greatest) : (Json.ofNat n).keepable depth = true :=
    Json.keepable_ofNat depth (by unfold greatest at narrow; unfold Numeral.significandLimit; omega)
  simp [toJson, Json.record, Json.keepable, Json.membersKeepable, small start, small stop]

theorem PrimitiveKeyword.ofJson?_text (keyword : PrimitiveKeyword) :
    ofJson? (.text keyword.text) = some keyword := by
  simp [ofJson?, Json.text]

theorem NodeKind.ofJson?_tag (kind : NodeKind) : ofJson? (.text kind.tag) = some kind := by
  cases kind <;> decide

/-- The members of a node as they are written. -/
def Node.members (node : Node) : List (String × Json) :=
  ("kind", .text node.kind.tag) :: node.production.fields ++ [("location", node.location.toJson)]

theorem Node.toJson_eq (node : Node) : node.toJson = .object (Json.named node.members) := rfl

theorem Node.members_distinct (node : Node) : (node.members.map Prod.fst).Nodup := by
  obtain ⟨production, location⟩ := node
  cases production <;> simp [members, Production.fields]

/-- Every production is read back from its fields. -/
theorem Production.ofMembers?_members {node : Node}
    (narrow : NodeId.Narrow node.children) :
    ofMembers? (Json.named node.members) node.kind = some node.production := by
  simp only [ofMembers?, Json.required?_named node.members_distinct,
    Json.optional?_named node.members_distinct]
  obtain ⟨production, location⟩ := node
  cases production
  all_goals
    simp only [Node.children, children, NodeId.narrow_cons, NodeId.narrow_append] at narrow
    simp [narrow, Node.kind, kind, Node.members, fields, List.lookup_cons, NodeId.list?_ofList,
      NodeId.ofJson?_toJson, NodeId.readOptional_ofOption, Json.toText?_text,
      PrimitiveKeyword.ofJson?_text]

/-- The values of all members nest at most one bracket and hold only numbers of 64 bits. -/
theorem Node.keepable_members {node : Node} (narrow : node.Narrow) (depth : Nat) :
    ∀ m ∈ node.members, m.2.keepable (depth + 1) = true := by
  obtain ⟨narrow, start, stop⟩ := narrow
  have here := Location.keepable_toJson start stop depth
  have kept (s : String) : (Json.text s).keepable (depth + 1) = true := rfl
  obtain ⟨production, location⟩ := node
  cases production
  all_goals
    simp only [Node.children, Production.children, NodeId.narrow_cons, NodeId.narrow_append]
      at narrow
    simp [narrow, here, kept, members, Production.fields, NodeId.keepable_toJson,
      NodeId.keepable_ofList, NodeId.keepable_ofOption]

theorem Node.ofJson?_toJson {node : Node} (narrow : node.Narrow) :
    ofJson? node.toJson = some node := by
  have kept := Json.membersKeepable_filter (node.keepable_members narrow 123)
    fun m => m.1 != some "location"
  have kind : Json.required? (Json.named node.members) "kind" NodeKind.ofJson? = some node.kind := by
    rw [Json.required?_named node.members_distinct]
    exact NodeKind.ofJson?_tag node.kind
  have place : node.members.lookup "location" = some node.location.toJson := by
    obtain ⟨production, location⟩ := node
    cases production <;> simp [members, Production.fields, List.lookup_cons]
  have location : Location.ofMembers? (Json.named node.members) = some node.location := by
    simp [Location.ofMembers?, Json.unique?_named node.members_distinct, place,
      Location.ofJson?_toJson narrow.start_le narrow.end_le]
  rw [Node.toJson_eq]
  simp [ofJson?, memberDepth, kept, kind, location, Production.ofMembers?_members narrow.children]

theorem NodeId.plain_ofList (ids : List NodeId) : (Json.ofList toJson ids).Plain :=
  .ofList fun id _ => .number id.index

theorem NodeId.plain_ofOption (id : Option NodeId) : (Json.ofOption toJson id).Plain := by
  cases id with
  | none => exact .null
  | some id => exact .number id.index

theorem Node.plain_toJson (node : Node) : node.toJson.Plain := by
  have place : node.location.toJson.Plain := .record (by
    simp only [List.forall_mem_cons, List.not_mem_nil, false_implies, implies_true, and_true]
    exact ⟨.number _, .number _⟩)
  have child (id : NodeId) : id.toJson.Plain := .number id.index
  have text (s : String) : (Json.text s).Plain := .string s
  refine .record (List.forall_mem_append.mpr ⟨List.forall_mem_cons.mpr ⟨text _, ?_⟩, ?_⟩)
  · obtain ⟨production, location⟩ := node
    cases production
    all_goals simp [Production.fields, child, text, NodeId.plain_ofList, NodeId.plain_ofOption]
  · simpa using place

theorem SyntaxTree.plain_toJson (tree : SyntaxTree) : tree.toJson.Plain := by
  have nodes : (Json.ofList Node.toJson tree.nodes.toList).Plain :=
    .ofList fun node _ => node.plain_toJson
  have root : tree.root.toJson.Plain := .number tree.root.index
  exact .record (by simpa using ⟨nodes, root⟩)

/-- A tree is read back from its JSON. -/
theorem SyntaxTree.ofJson?_toJson {tree : SyntaxTree} (narrow : tree.Narrow) :
    ofJson? tree.toJson = some tree := by
  have nodes : Node.listOfJson? (.ofList Node.toJson tree.nodes.toList) = some tree.nodes := by
    have each : Json.list? Node.ofJson? (.ofList Node.toJson tree.nodes.toList) =
        some tree.nodes.toList :=
      Json.list?_ofList fun node member =>
        Node.ofJson?_toJson (narrow.nodes node (by simpa using member))
    simp [Node.listOfJson?, each]
  have root := NodeId.ofJson?_toJson narrow.root_le
  simp [ofJson?, toJson, Json.record_eq, Json.namesAreTexts_named, Json.required?_named,
    List.lookup_cons, nodes, root]

/-- A tree is read back from its text, whatever it holds and whether or not it is valid, if its
numbers have the widths of the format. -/
theorem parse_render {tree : SyntaxTree} (narrow : tree.Narrow) :
    SyntaxTree.parse? tree.render = some tree := by
  have text : Json.parse? tree.render = some tree.toJson := tree.plain_toJson.parse?_render
  rw [SyntaxTree.parse?, text, Option.bind_some, SyntaxTree.ofJson?_toJson narrow]

/-- A tree with the widest numbers, none of which names a node, and with texts of a quote, a
backslash, control characters and characters beyond 16 bits. -/
def SyntaxTree.extreme : SyntaxTree where
  nodes := #[
    ⟨.functionDeclaration "\"\\/\n\x00\x1f\x7fé😀" none [⟨4294967295⟩, ⟨0⟩] ⟨7⟩,
      ⟨18446744073709551615, 0⟩⟩,
    ⟨.typeOrVoid (some ⟨4294967295⟩), ⟨0, 18446744073709551615⟩⟩,
    ⟨.primitiveType .string, .origin⟩]
  root := ⟨4294967295⟩

theorem parse_render_extreme :
    SyntaxTree.extreme.Narrow ∧
      SyntaxTree.parse? SyntaxTree.extreme.render = some SyntaxTree.extreme := by
  have narrow : SyntaxTree.extreme.Narrow := by decide
  exact ⟨narrow, parse_render narrow⟩

end ScriptSemantics
