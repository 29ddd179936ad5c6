import Mathlib.Data.List.Forall2
import ScriptSemantics.Proofs.TreeTexts

/-!
# Presentations of trees

A tree can be written in more than one way: the members of an object may come in any order, an
optional child may be left out where it is null, and so may a location at the origin. All of them
are read as that tree. Beyond this the reader is strict: an object is no node if it lacks its kind or
a field that is not optional, or if it repeats its kind, a field of its production or its location.
-/
namespace ScriptSemantics

namespace Json

/-- The same value with the members of its objects in any order. -/
inductive Reordered : Json → Json → Prop
  | null : Reordered .null .null
  | bool (value : Bool) : Reordered (.bool value) (.bool value)
  | number (value : Numeral) : Reordered (.number value) (.number value)
  | string (text : Option String) : Reordered (.string text) (.string text)
  | array {items others : List Json} (each : List.Forall₂ Reordered items others) :
      Reordered (.array items) (.array others)
  | object {members middle others : Members}
      (names : members.map Prod.fst = middle.map Prod.fst)
      (values : List.Forall₂ Reordered (members.map Prod.snd) (middle.map Prod.snd))
      (perm : middle.Perm others) : Reordered (.object members) (.object others)

theorem Reordered.refl : (json : Json) → Reordered json json
  | .null => .null
  | .bool value => .bool value
  | .number value => .number value
  | .string text => .string text
  | .array items => .array (List.forall₂_same.mpr fun item _ => refl item)
  | .object members => by
    refine .object rfl ?_ (.refl _)
    rw [List.forall₂_map_left_iff, List.forall₂_map_right_iff, List.forall₂_same]
    intro m member
    have inner : sizeOf m = 1 + sizeOf m.1 + sizeOf m.2 := by cases m; rfl
    have outer := List.sizeOf_lt_of_mem member
    have smaller : sizeOf m.2 < 1 + sizeOf members := by omega
    exact refl m.2

/-- A value in another order holds only plain numbers if the value does. -/
theorem Plain.of_reordered {json other : Json} (plain : json.Plain)
    (reordered : Reordered json other) : other.Plain := by
  induction plain generalizing other with
  | null => cases reordered; exact .null
  | bool value => cases reordered; exact .bool value
  | number n => cases reordered; exact .number n
  | string text => cases reordered; exact .string text
  | @array items _ ih =>
    cases reordered with
    | @array _ others each =>
      refine .array ?_
      clear * - ih each
      induction each with
      | nil => simp
      | cons here _ rest =>
        rw [List.forall_mem_cons] at ih ⊢
        exact ⟨ih.1 here, rest ih.2⟩
  | @object members _ ih =>
    cases reordered with
    | @object _ middle others names values perm =>
      suffices all : ∀ m ∈ middle, m.2.Plain from
        .object fun m member => all m (perm.mem_iff.mpr member)
      clear * - ih values
      induction members generalizing middle with
      | nil =>
        obtain rfl : middle = [] := by simpa using values
        simp
      | cons m members rest =>
        cases middle with
        | nil => simp
        | cons o middle =>
          rw [List.forall_mem_cons] at ih ⊢
          obtain ⟨here, values⟩ := List.forall₂_cons.mp values
          exact ⟨ih.1 here, rest ih.2 values⟩

variable {members others : Members} {name : String}

theorem mem_valuesOf {value : Json} : value ∈ valuesOf members name ↔ (some name, value) ∈ members := by
  simp [valuesOf]

/-- A member is there at most once exactly if its values are those of an option. -/
theorem unique?_eq_some_iff {answer : Option Json} :
    unique? members name = some answer ↔ valuesOf members name = answer.toList := by
  unfold unique?
  split <;> cases answer <;> simp_all

theorem mem_of_unique? {answer : Option Json} (unique : unique? members name = some answer)
    {value : Json} : (some name, value) ∈ members ↔ answer = some value := by
  rw [← mem_valuesOf, unique?_eq_some_iff.mp unique, Option.mem_toList]

theorem required?_congr {α : Type} (same : unique? members name = unique? others name)
    (read : Json → Option α) : required? members name read = required? others name read := by
  simp only [required?, same]

theorem optional?_congr {α : Type} (same : unique? members name = unique? others name)
    (read : Json → Option α) : optional? members name read = optional? others name read := by
  simp only [optional?, same]

/-- Where no name is repeated, the value of a name is found under it. -/
theorem lookup_eq_some_iff_mem {members : List (String × Json)}
    (distinct : (members.map Prod.fst).Nodup) {value : Json} :
    members.lookup name = some value ↔ (name, value) ∈ members := by
  rw [← mem_of_unique? (unique?_named distinct name), named, List.mem_map]
  constructor
  · rintro ⟨m, member, same⟩
    obtain ⟨key, other⟩ := m
    cases same
    exact member
  · exact fun member => ⟨_, member, rfl⟩

/-- A reordered object has under a name what the object has there, reordered. -/
theorem Reordered.valuesOf {json : Json} (reordered : Reordered (.object members) json) :
    ∃ others, json = .object others ∧ namesAreTexts others = namesAreTexts members ∧
      ∀ name, ∃ values, List.Forall₂ Reordered (valuesOf members name) values ∧
        values.Perm (Json.valuesOf others name) := by
  cases reordered with
  | @object _ middle others names values perm =>
    refine ⟨others, rfl, ?_, fun name =>
      ⟨Json.valuesOf middle name, ?_, (perm.filter _).map _⟩⟩
    · have texts (members : Members) :
          namesAreTexts members = (members.map Prod.fst).all Option.isSome := by
        simp [namesAreTexts, Function.comp_def]
      rw [namesAreTexts, ← perm.all_eq, ← namesAreTexts, texts, texts, names]
    · clear perm
      induction members generalizing middle with
      | nil =>
        obtain rfl : middle = [] := by simpa using names
        exact .nil
      | cons m members ih =>
        cases middle with
        | nil => simp at names
        | cons o middle =>
          obtain ⟨first, names⟩ := List.cons.inj names
          obtain ⟨here, values⟩ := List.forall₂_cons.mp values
          have rest := ih names values
          by_cases same : m.1 = some name
          · simpa [Json.valuesOf, List.filter_cons, same, ← first] using And.intro here rest
          · simpa [Json.valuesOf, List.filter_cons, same, ← first] using rest

/-- A member that is there at most once is so in a reordered object. -/
theorem Reordered.unique? (reordered : Reordered (.object members) (.object others))
    {answer : Option Json} (unique : unique? members name = some answer) :
    ∃ answer', Json.unique? others name = some answer' ∧ Option.Rel Reordered answer answer' := by
  obtain ⟨_, same, -, each⟩ := reordered.valuesOf
  cases same
  obtain ⟨values, related, perm⟩ := each name
  rw [unique?_eq_some_iff.mp unique] at related
  cases answer with
  | none =>
    obtain rfl := List.forall₂_nil_left_iff.mp related
    exact ⟨none, unique?_eq_some_iff.mpr perm.nil_eq.symm, .none⟩
  | some value =>
    obtain ⟨value', rest, here, none, rfl⟩ := List.forall₂_cons_left_iff.mp related
    obtain rfl := List.forall₂_nil_left_iff.mp none
    exact ⟨some value', unique?_eq_some_iff.mpr (List.singleton_perm.mp perm).symm, .some here⟩

/-- A value that has no other order. -/
def Rigid (json : Json) : Prop := ∀ other, Reordered json other → other = json

theorem rigid_null : Rigid .null := by rintro _ ⟨⟩; rfl

theorem rigid_text (s : String) : Rigid (text s) := by rintro _ ⟨⟩; rfl

theorem rigid_ofNat (n : Nat) : Rigid (ofNat n) := by rintro _ ⟨⟩; rfl

theorem rigid_ofList {α : Type} {write : α → Json} {items : List α}
    (each : ∀ a ∈ items, (write a).Rigid) : (ofList write items).Rigid := by
  intro json reordered
  cases reordered with
  | @array _ others related =>
    congr 1
    induction items generalizing others with
    | nil => exact List.forall₂_nil_left_iff.mp related
    | cons a items ih =>
      obtain ⟨other, rest, here, further, rfl⟩ := List.forall₂_cons_left_iff.mp related
      rw [List.forall_mem_cons] at each
      rw [List.map_cons, each.1 other here, ih each.2 further]

/-- A member whose value has no other order is the same in a reordered object. -/
theorem Reordered.unique?_of_rigid (reordered : Reordered (.object members) (.object others))
    {answer : Option Json} (unique : Json.unique? members name = some answer)
    (rigid : ∀ value, answer = some value → value.Rigid) :
    Json.unique? others name = some answer := by
  obtain ⟨answer', unique', related⟩ := reordered.unique? unique
  rw [unique']
  cases related with
  | none => rfl
  | @some value value' here => rw [rigid value rfl value' here]

theorem Reordered.of_record {members : List (String × Json)} {json : Json}
    (reordered : Reordered (record members) json) :
    ∃ others, json = .object others ∧ namesAreTexts others = true := by
  obtain ⟨others, same, texts, -⟩ := reordered.valuesOf
  exact ⟨others, same, texts.trans (namesAreTexts_named members)⟩

theorem Reordered.required?_of_rigid {α : Type} {members : List (String × Json)}
    (distinct : (members.map Prod.fst).Nodup)
    (reordered : Reordered (record members) (.object others))
    (rigid : ∀ value, members.lookup name = some value → value.Rigid) (read : Json → Option α) :
    required? others name read = (members.lookup name).bind read := by
  have same := reordered.unique?_of_rigid (unique?_named distinct name) rigid
  rw [← required?_named distinct]
  exact required?_congr (same.trans (unique?_named distinct name).symm) read

end Json

theorem Location.ofJson?_of_reordered {l : Location} (start : l.startByte ≤ greatest)
    (stop : l.endByte ≤ greatest) {json : Json} (reordered : Json.Reordered l.toJson json) :
    ofJson? json = some l := by
  unfold toJson at reordered
  obtain ⟨others, rfl, texts⟩ := reordered.of_record
  have first : Json.required? others "start_byte" (Json.natUpTo? greatest) = some l.startByte := by
    rw [reordered.required?_of_rigid (by simp) (by simp [Json.rigid_ofNat])]
    exact Json.natUpTo?_ofNat start
  have last : Json.required? others "end_byte" (Json.natUpTo? greatest) = some l.endByte := by
    rw [reordered.required?_of_rigid (by simp) (by simp [List.lookup_cons, Json.rigid_ofNat])]
    exact Json.natUpTo?_ofNat stop
  simp [ofJson?, texts, first, last]

/-- The children that a node of a kind may have or not. -/
def NodeKind.optionalFields : NodeKind → List String
  | .classDeclaration => ["superclass"]
  | .functionDeclaration => ["return_type"]
  | .variableDeclarator => ["initializer"]
  | .typeOrVoid => ["type_type"]
  | _ => []

namespace Node

variable {node : Node}

/-- A member that may be left out: an optional child that is null, or the location if it is the
origin. -/
def Omissible (node : Node) (member : String × Json) : Prop :=
  member.1 ∈ node.kind.optionalFields ∧ member.2 = .null ∨
    member.1 = "location" ∧ node.location = .origin

/-- The members of a node, perhaps without some that may be left out. -/
structure Abridged (node : Node) (kept : List (String × Json)) : Prop where
  sublist : kept.Sublist node.members
  omissible : ∀ member ∈ node.members, member ∉ kept → node.Omissible member

/-- A value presents a node: perhaps without members that may be left out, and in any order. -/
def Presents (node : Node) (json : Json) : Prop :=
  ∃ kept, node.Abridged kept ∧ Json.Reordered (.record kept) json

theorem Abridged.distinct {kept : List (String × Json)} (abridged : node.Abridged kept) :
    (kept.map Prod.fst).Nodup := node.members_distinct.sublist (abridged.sublist.map _)

theorem Abridged.lookup_cases {kept : List (String × Json)} (abridged : node.Abridged kept)
    (name : String) : kept.lookup name = node.members.lookup name ∨
      kept.lookup name = none ∧ ∃ value, node.members.lookup name = some value ∧
        node.Omissible (name, value) := by
  have inKept {value : Json} := @Json.lookup_eq_some_iff_mem name kept abridged.distinct value
  have inNode {value : Json} :=
    @Json.lookup_eq_some_iff_mem name node.members node.members_distinct value
  cases isKept : kept.lookup name with
  | some value => exact .inl (inNode.mpr (abridged.sublist.subset (inKept.mp isKept))).symm
  | none =>
    cases isThere : node.members.lookup name with
    | none => exact .inl rfl
    | some value =>
      refine .inr ⟨rfl, value, rfl, abridged.omissible _ (inNode.mp isThere) fun member => ?_⟩
      cases isKept.symm.trans (inKept.mpr member)

theorem rigid_members {name : String} {value : Json} (member : (name, value) ∈ node.members)
    (other : name ≠ "location") : value.Rigid := by
  have child (id : NodeId) : id.toJson.Rigid := Json.rigid_ofNat id.index
  have children (ids : List NodeId) : (Json.ofList NodeId.toJson ids).Rigid :=
    Json.rigid_ofList fun id _ => child id
  have option (id : Option NodeId) : (Json.ofOption NodeId.toJson id).Rigid := by
    cases id with
    | none => exact Json.rigid_null
    | some id => exact child id
  have all : ∀ m ∈ node.members, m.1 ≠ "location" → m.2.Rigid := by
    obtain ⟨production, location⟩ := node
    cases production <;>
      simp [members, Production.fields, child, children, option, Json.rigid_text]
  exact all _ member other

section Presents

variable {others : Json.Members} (presents : node.Presents (.object others))
include presents

/-- Apart from the location, a presentation has the members of the node, or none for an optional
child that is null. -/
theorem Presents.unique?_cases {name : String} (other : name ≠ "location") :
    Json.unique? others name = some (node.members.lookup name) ∨
      Json.unique? others name = some none ∧ node.members.lookup name = some .null ∧
        name ∈ node.kind.optionalFields := by
  obtain ⟨kept, abridged, reordered⟩ := presents
  have same := reordered.unique?_of_rigid (Json.unique?_named abridged.distinct name)
    fun value isKept => rigid_members
      (abridged.sublist.subset ((Json.lookup_eq_some_iff_mem abridged.distinct).mp isKept)) other
  rw [same]
  rcases abridged.lookup_cases name with keeps | ⟨omits, value, isThere, omissible⟩
  · exact .inl (congrArg some keeps)
  · obtain ⟨field, rfl⟩ := omissible.resolve_right fun place => other place.1
    exact .inr ⟨congrArg some omits, isThere, field⟩

theorem Presents.required?_eq {α : Type} {name : String} (other : name ≠ "location")
    (needed : name ∉ node.kind.optionalFields) (read : Json → Option α) :
    Json.required? others name read = Json.required? (Json.named node.members) name read := by
  refine Json.required?_congr ?_ read
  rw [Json.unique?_named node.members_distinct]
  exact (presents.unique?_cases other).resolve_right fun missing => needed missing.2.2

theorem Presents.optional?_eq {α : Type} {name : String} (other : name ≠ "location")
    (read : Json → Option α) :
    Json.optional? others name read = Json.optional? (Json.named node.members) name read := by
  rw [Json.optional?_named node.members_distinct]
  rcases presents.unique?_cases other with same | ⟨omits, isNull, -⟩
  · rw [← Json.optional?_named node.members_distinct]
    refine Json.optional?_congr ?_ read
    rw [same, Json.unique?_named node.members_distinct]
  · simp [Json.optional?, omits, isNull, Json.readOptional]

/-- A presentation is read as the same production. -/
theorem Presents.ofMembers?_eq {kind : NodeKind} (isKind : node.kind = kind) :
    Production.ofMembers? others kind = Production.ofMembers? (Json.named node.members) kind := by
  have required {α : Type} {name : String} (fixed : name ∉ "location" :: kind.optionalFields)
      (read : Json → Option α) :
      Json.required? others name read = Json.required? (Json.named node.members) name read := by
    rw [List.mem_cons, not_or, ← isKind] at fixed
    exact presents.required?_eq fixed.1 fixed.2 read
  have optional {α : Type} {name : String} (other : name ≠ "location") (read : Json → Option α) :=
    presents.optional?_eq other read
  cases kind <;> simp (disch := decide) only [Production.ofMembers?, required, optional]

theorem Presents.location_eq (narrow : node.Narrow) :
    Location.ofMembers? others = some node.location := by
  obtain ⟨kept, abridged, reordered⟩ := presents
  have place : node.members.lookup "location" = some node.location.toJson :=
    (Json.lookup_eq_some_iff_mem node.members_distinct).mpr (by simp [members])
  obtain ⟨answer, unique, related⟩ :=
    reordered.unique? (Json.unique?_named abridged.distinct "location")
  rcases abridged.lookup_cases "location" with keeps | ⟨omits, value, isThere, omissible⟩
  · rw [keeps, place] at related
    cases related with
    | @some _ value here =>
      simp only [Location.ofMembers?, unique, Option.bind_eq_bind, Option.bind_some]
      exact Location.ofJson?_of_reordered narrow.start_le narrow.end_le here
  · rw [omits] at related
    cases related
    have origin : node.location = .origin := by
      rcases omissible with ⟨field, -⟩ | ⟨-, origin⟩
      · cases kind : node.kind <;> simp [kind, NodeKind.optionalFields] at field
      · exact origin
    simp [Location.ofMembers?, unique, origin]

/-- What is kept of a presentation until its kind is known can be kept. -/
theorem Presents.keepable (narrow : node.Narrow) :
    Json.membersKeepable memberDepth (others.filter fun m => m.1 != some "location") = true := by
  rw [Json.membersKeepable_eq_all, List.all_eq_true]
  rintro ⟨key, value⟩ listed
  obtain ⟨member, notPlace⟩ := List.mem_filter.mp listed
  have texts : Json.namesAreTexts others = true := by
    obtain ⟨kept, -, reordered⟩ := presents
    obtain ⟨_, same, texts, -⟩ := reordered.valuesOf
    cases same
    rw [texts]
    exact Json.namesAreTexts_named kept
  obtain ⟨name, rfl⟩ := Option.isSome_iff_exists.mp (List.all_eq_true.mp texts _ member)
  have other : name ≠ "location" := by simpa using notPlace
  have isThere : node.members.lookup name = some value := by
    rcases presents.unique?_cases other with same | ⟨omits, -⟩
    · exact (Json.mem_of_unique? same).mp member
    · cases (Json.mem_of_unique? omits).mp member
  have inNode := (Json.lookup_eq_some_iff_mem node.members_distinct).mp isThere
  have kept : value.keepable memberDepth = true := node.keepable_members narrow 123 _ inNode
  simpa using kept

theorem Presents.kind_eq : Json.required? others "kind" NodeKind.ofJson? = some node.kind := by
  have needed : "kind" ∉ node.kind.optionalFields := by cases node.kind <;> decide
  rw [presents.required?_eq (by decide) needed, Json.required?_named node.members_distinct]
  exact NodeKind.ofJson?_tag node.kind

theorem Presents.ofJson?_eq (narrow : node.Narrow) : ofJson? (.object others) = some node := by
  simp [ofJson?, presents.keepable narrow, presents.kind_eq, presents.ofMembers?_eq rfl,
    Production.ofMembers?_members narrow.children, presents.location_eq narrow]

end Presents

end Node

namespace SyntaxTree

/-- A value presents a tree: each node perhaps without members that may be left out, and all objects
in any order. -/
def Presents (tree : SyntaxTree) (json : Json) : Prop :=
  ∃ items, List.Forall₂ (fun node item => ∃ kept, node.Abridged kept ∧ item = .record kept)
      tree.nodes.toList items ∧
    Json.Reordered (.record [("nodes", .array items), ("root", tree.root.toJson)]) json

theorem presents_toJson (tree : SyntaxTree) : tree.Presents tree.toJson := by
  refine ⟨tree.nodes.toList.map Node.toJson, ?_, .refl _⟩
  rw [List.forall₂_map_right_iff, List.forall₂_same]
  exact fun node _ => ⟨node.members, ⟨.refl _, fun m member left => absurd member left⟩, rfl⟩

theorem listOfJson?_of_presents {nodes : List Node} (narrow : ∀ node ∈ nodes, node.Narrow)
    {items others : List Json}
    (abridged : List.Forall₂ (fun node item => ∃ kept, node.Abridged kept ∧ item = .record kept)
      nodes items) (reordered : List.Forall₂ Json.Reordered items others) :
    Json.list? Node.ofJson? (.array others) = some nodes := by
  suffices each : others.mapM Node.ofJson? = some nodes by simpa [Json.list?, Json.toItems?] using each
  induction abridged generalizing others with
  | nil =>
    obtain rfl := List.forall₂_nil_left_iff.mp reordered
    rfl
  | @cons node item nodes items here _ ih =>
    obtain ⟨kept, isAbridged, rfl⟩ := here
    obtain ⟨json, rest, same, further, rfl⟩ := List.forall₂_cons_left_iff.mp reordered
    rw [List.forall_mem_cons] at narrow
    obtain ⟨others, rfl, -⟩ := same.of_record
    have read := Node.Presents.ofJson?_eq ⟨kept, isAbridged, same⟩ narrow.1
    simp [List.mapM_cons, read, ih narrow.2 further]

/-- Every presentation of a tree is read as the tree. -/
theorem Presents.ofJson?_eq {tree : SyntaxTree} {json : Json} (presents : tree.Presents json)
    (narrow : tree.Narrow) : ofJson? json = some tree := by
  obtain ⟨items, abridged, reordered⟩ := presents
  obtain ⟨others, rfl, texts⟩ := reordered.of_record
  have root : Json.required? others "root" NodeId.ofJson? = some tree.root := by
    rw [reordered.required?_of_rigid (by simp)
      (by simp [List.lookup_cons, NodeId.toJson, Json.rigid_ofNat])]
    exact NodeId.ofJson?_toJson narrow.root_le
  have nodes : Json.required? others "nodes" Node.listOfJson? = some tree.nodes := by
    obtain ⟨answer, there, related⟩ := reordered.unique? (Json.unique?_named (by simp) "nodes")
    cases related with
    | some same =>
      cases same with
      | array each =>
        have read := listOfJson?_of_presents (fun node member =>
          narrow.nodes node (by simpa using member)) abridged each
        simp [Json.required?, there, Node.listOfJson?, read]
  simp [ofJson?, texts, root, nodes]

end SyntaxTree

namespace Json

variable {members : Members} {name : String}

theorem unique?_of_required? {α : Type} {read : Json → Option α} {a : α}
    (is : required? members name read = some a) :
    ∃ value, unique? members name = some (some value) := by
  simp only [required?, Option.bind_eq_bind, Option.bind_eq_some_iff] at is
  obtain ⟨answer, unique, value, rfl, -⟩ := is
  exact ⟨value, unique⟩

theorem unique?_of_optional? {α : Type} {read : Json → Option α} {a : Option α}
    (is : optional? members name read = some a) : ∃ answer, unique? members name = some answer := by
  simp only [optional?, Option.bind_eq_bind, Option.bind_eq_some_iff] at is
  obtain ⟨answer, unique, -⟩ := is
  exact ⟨answer, unique⟩

/-- Without the members of one name, the others are as they were. -/
theorem unique?_filter {other : String} (different : other ≠ name) :
    unique? (members.filter fun m => m.1 != some name) other = unique? members other := by
  have keeps : (members.filter fun m => m.1 == some other && m.1 != some name) =
      members.filter fun m => m.1 == some other := by
    refine List.filter_congr fun m _ => ?_
    by_cases here : m.1 = some other <;> simp [here, different]
  rw [unique?, valuesOf, List.filter_filter, keeps]
  rfl

end Json

/-- A production is read only from members with each of its fields once, or not at all if it is
optional. -/
theorem Production.unique?_of_ofMembers? {members : Json.Members} {production other : Production}
    (read : ofMembers? members production.kind = some other) :
    ∀ name ∈ production.fields.map Prod.fst, ∃ answer, Json.unique? members name = some answer ∧
      (answer = none → name ∈ production.kind.optionalFields) := by
  cases production
  all_goals
    simp only [kind, ofMembers?, Option.bind_eq_bind, Option.bind_eq_some_iff] at read
    simp only [fields, List.map_cons, List.map_nil, List.forall_mem_cons, kind,
      NodeKind.optionalFields]
    grind [→ Json.unique?_of_required?, → Json.unique?_of_optional?]

namespace Node

variable {node : Node} {others : Json.Members}

/-- The members of a presentation of a node, spoiled under one name, that of the kind, of a field or
of the location: there is more than one member of that name, or there is none although it is needed. -/
def Spoiled (node : Node) (others : Json.Members) : Prop :=
  ∃ presented name, node.Presents (.object presented) ∧ name ∈ node.members.map Prod.fst ∧
    (others.filter fun m => m.1 != some name) = (presented.filter fun m => m.1 != some name) ∧
    (2 ≤ (Json.valuesOf others name).length ∨
      Json.valuesOf others name = [] ∧ name ∉ "location" :: node.kind.optionalFields)

/-- A spoiled object is no node. -/
theorem Spoiled.ofJson?_eq_none (spoiled : node.Spoiled others) : ofJson? (.object others) = none := by
  obtain ⟨presented, name, presents, isName, rest, wrong⟩ := spoiled
  have same {other : String} (different : other ≠ name) :
      Json.unique? others other = Json.unique? presented other := by
    rw [← Json.unique?_filter different, rest, Json.unique?_filter different]
  have broken (answer : Option Json) (unique : Json.unique? others name = some answer) :
      answer = none ∧ name ∉ "location" :: node.kind.optionalFields := by
    rw [Json.unique?_eq_some_iff.mp unique] at wrong
    cases answer with
    | none => exact ⟨rfl, by simpa using wrong⟩
    | some value => simp at wrong
  refine Option.eq_none_iff_forall_ne_some.mpr fun other read => ?_
  simp only [ofJson?, Option.bind_eq_bind, Option.bind_eq_some_iff] at read
  obtain ⟨-, -, kind, isKind, production, isProduction, location, isLocation, -⟩ := read
  by_cases kindName : name = "kind"
  · subst kindName
    obtain ⟨value, unique⟩ := Json.unique?_of_required? isKind
    cases (broken _ unique).1
  -- Under any other name the kind is still read, so the fields of the production are asked for.
  rw [Json.required?_congr (same (Ne.symm kindName)), presents.kind_eq] at isKind
  obtain rfl := Option.some.inj isKind
  simp only [members, List.map_append, List.map_cons, List.map_nil, List.mem_append, List.mem_cons,
    kindName, false_or, List.not_mem_nil, or_false] at isName
  rcases isName with field | rfl
  · obtain ⟨answer, unique, optional⟩ := Production.unique?_of_ofMembers? isProduction name field
    obtain ⟨rfl, needed⟩ := broken answer unique
    exact needed (List.mem_cons_of_mem _ (optional rfl))
  · simp only [Location.ofMembers?, Option.bind_eq_bind, Option.bind_eq_some_iff] at isLocation
    obtain ⟨answer, unique, -⟩ := isLocation
    exact (broken answer unique).2 (by simp)

end Node

/-- A tree with an object among its nodes that is no node is not read. -/
theorem SyntaxTree.ofJson?_eq_none {outer : Json.Members} {items : List Json}
    (nodes : (some "nodes", .array items) ∈ outer) {item : Json} (member : item ∈ items)
    (broken : Node.ofJson? item = none) : ofJson? (.object outer) = none := by
  have unread : items.mapM Node.ofJson? = none := by
    clear nodes
    induction items with
    | nil => cases member
    | cons first items ih =>
      rcases List.mem_cons.mp member with rfl | member
      · simp [List.mapM_cons, broken]
      · simp [List.mapM_cons, ih member]
  refine Option.eq_none_iff_forall_ne_some.mpr fun tree read => ?_
  simp only [ofJson?, Json.required?, Option.bind_eq_bind, Option.bind_eq_some_iff] at read
  obtain ⟨-, -, array, ⟨answer, unique, value, rfl, isArray⟩, -⟩ := read
  cases (Json.mem_of_unique? unique).mp nodes
  simp [Node.listOfJson?, Json.list?, Json.toItems?, unread] at isArray

theorem SyntaxTree.Presents.plain {tree : SyntaxTree} {json : Json} (presents : tree.Presents json) :
    json.Plain := by
  obtain ⟨items, abridged, reordered⟩ := presents
  refine Json.Plain.of_reordered ?_ reordered
  clear reordered
  have nodes : (Json.array items).Plain := by
    refine .array ?_
    generalize tree.nodes.toList = nodes at abridged
    induction abridged with
    | nil => simp
    | @cons node item _ _ here _ ih =>
      obtain ⟨kept, isAbridged, rfl⟩ := here
      refine List.forall_mem_cons.mpr ⟨.record fun m member => ?_, ih⟩
      cases node.plain_toJson with
      | object each => exact each _ (List.mem_map_of_mem (isAbridged.sublist.subset member))
  exact .record (by simpa using ⟨nodes, .number tree.root.index⟩)

/-- What is written for a tree is one of its presentations, and each of them is read as the tree, as
a value and from any text that spells it. No value is read, and no text, that has a spoiled object
among the nodes, whatever else it has. -/
theorem presentations_read_back {tree : SyntaxTree} (narrow : tree.Narrow) :
    (tree.Presents tree.toJson ∧ ∀ json, tree.Presents json →
      SyntaxTree.ofJson? json = some tree ∧ SyntaxTree.parse? json.render = some tree ∧
      ∀ source, Json.parse? source = some json → SyntaxTree.parse? source = some tree) ∧
    ∀ (node : Node) others, node.Spoiled others → ∀ items, .object others ∈ items →
      ∀ outer, (some "nodes", .array items) ∈ outer →
        SyntaxTree.ofJson? (.object outer) = none ∧
        ∀ source, Json.parse? source = some (.object outer) → SyntaxTree.parse? source = none := by
  refine ⟨⟨tree.presents_toJson, fun json presents => ?_⟩,
    fun node others spoiled items member outer nodes => ?_⟩
  · have read := presents.ofJson?_eq narrow
    have text (source : String) (spells : Json.parse? source = some json) :
        SyntaxTree.parse? source = some tree := by
      rw [SyntaxTree.parse?, spells, Option.bind_some, read]
    exact ⟨read, text _ presents.plain.parse?_render, text⟩
  · have unread := SyntaxTree.ofJson?_eq_none nodes member spoiled.ofJson?_eq_none
    exact ⟨unread, fun source spells => by rw [SyntaxTree.parse?, spells, Option.bind_some, unread]⟩

/-- The class `A` without superclass, members and location. -/
def SyntaxTree.sparse : SyntaxTree where
  nodes := #[⟨.classDeclaration "A" none [], .origin⟩]
  root := ⟨0⟩

/-- What remains of the class, out of order. -/
def Json.sparseClass : Members :=
  named [("body", .array []), ("kind", .text "class_declaration"), ("name", .text "A")]

theorem Node.presents_sparseClass :
    Presents ⟨.classDeclaration "A" none [], .origin⟩ (.object Json.sparseClass) := by
  refine ⟨[("kind", .text "class_declaration"), ("name", .text "A"), ("body", .array [])],
    ⟨.cons_cons _ (.cons_cons _ (.cons _ (.cons_cons _ (.cons _ .slnil)))), fun m member left => ?_⟩,
    .object rfl (List.forall₂_same.mpr fun value _ => .refl value) (@List.perm_append_comm _ [_, _] [_])⟩
  simp only [members, Production.fields, kind, Production.kind, NodeKind.tag, List.cons_append,
    List.nil_append, List.mem_cons, List.not_mem_nil, or_false] at member
  rcases member with rfl | rfl | rfl | rfl | rfl
  · simp at left
  · simp at left
  · exact .inl ⟨by decide, rfl⟩
  · simp [Json.ofList] at left
  · exact .inr ⟨rfl, rfl⟩

/-- The tree is read with its root before its nodes, and not at all if the class lacks its kind. -/
theorem presentations_read_back_sparse :
    SyntaxTree.sparse.Narrow ∧
      SyntaxTree.ofJson? (.record [("root", .ofNat 0), ("nodes", .array [.object Json.sparseClass])]) =
        some .sparse ∧
      SyntaxTree.ofJson? (.record [("root", .ofNat 0),
        ("nodes", .array [.record [("body", .array []), ("name", .text "A")]])]) = none := by
  have narrow : SyntaxTree.sparse.Narrow := by decide
  obtain ⟨⟨-, reads⟩, refuses⟩ := presentations_read_back narrow
  obtain ⟨kept, abridged, reordered⟩ := Node.presents_sparseClass
  have presents : SyntaxTree.sparse.Presents
      (.record [("root", .ofNat 0), ("nodes", .array [.object Json.sparseClass])]) :=
    ⟨[.record kept], .cons ⟨kept, abridged, rfl⟩ .nil,
      @Json.Reordered.object _
        (Json.named [("nodes", .array [.object Json.sparseClass]), ("root", .ofNat 0)]) _ rfl
        (.cons (.array (.cons reordered .nil)) (.cons (.refl _) .nil)) (.swap _ _ [])⟩
  have lacksKind : Node.Spoiled ⟨.classDeclaration "A" none [], .origin⟩
      (Json.named [("body", .array []), ("name", .text "A")]) :=
    ⟨Json.sparseClass, "kind", Node.presents_sparseClass, by simp [Node.members], rfl,
      .inr ⟨rfl, by decide⟩⟩
  exact ⟨narrow, (reads _ presents).1,
    (refuses _ _ lacksKind [_] (List.mem_singleton.mpr rfl) _
      (List.mem_cons_of_mem _ (List.mem_singleton.mpr rfl))).1⟩

end ScriptSemantics
