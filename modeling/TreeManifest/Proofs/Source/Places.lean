import TreeManifest.Proofs.Source.WellFormed

/-!
# What definitions are read off

A place of a tree is a node that a child of the root puts forward, with the child of the root before
it. The definitions of a tree are read off its places in order, at most one off each
(`definitionsOf_eq`). The name of a node is its first child that is a name and, if there is none, the
name of its first declarator (`Node.name?_of_label`, `Node.name?_of_declarator`). Members are named
one by one in the first body of a node.
-/

namespace TreeManifest.Source

variable {language : Language} {octets : List UInt8} {tree : List Node}

def Language.scripts : List Language := [.javascript, .typescript, .tsx]

-- ---------------------------------------------------------------------------
-- Places
-- ---------------------------------------------------------------------------

/-- A node that may declare something, and the child of the root that comes before it or before its
wrapper. -/
structure Place where
  previous : Option Node
  node : Node

namespace Place

def definition? (language : Language) (octets : List UInt8) (place : Place) : Option Definition :=
  place.node.declared? language octets place.previous

def name? (language : Language) (octets : List UInt8) (place : Place) : Option String :=
  (place.definition? language octets).map (·.name)

end Place

def placesAfter (language : Language) : (previous : Option Node) → List Node → List Place
  | _, [] => []
  | previous, child :: rest =>
    (child.candidates language).map (Place.mk previous) ++ placesAfter language (some child) rest

def places (language : Language) (tree : List Node) : List Place := placesAfter language none tree

theorem Node.declared?_of_declares {node : Node} {previous : Option Node} {kind : Kind}
    (hrole : language.role? node.type = some (.declares kind)) :
    node.declared? language octets previous = node.definition? language octets previous kind := by
  simp only [declared?, hrole]

theorem definitionsAfter_eq (previous : Option Node) (tree : List Node) :
    definitionsAfter language octets previous tree =
      (placesAfter language previous tree).filterMap (Place.definition? language octets) := by
  induction tree generalizing previous with
  | nil => rfl
  | cons child rest ih =>
    rw [definitionsAfter, placesAfter, List.filterMap_append, ← ih, Node.definitions_eq,
      List.filterMap_map]
    rfl

theorem definitionsOf_eq :
    definitionsOf language octets tree =
      (places language tree).filterMap (Place.definition? language octets) :=
  definitionsAfter_eq none tree

theorem exists_place {node : Node} {kind : Kind}
    (hrole : language.role? node.type = some (.declares kind)) (hnode : node ∈ tree)
    (previous : Option Node) : ∃ before, ⟨before, node⟩ ∈ placesAfter language previous tree := by
  induction tree generalizing previous with
  | nil => cases hnode
  | cons child rest ih =>
    rcases List.mem_cons.mp hnode with rfl | hrest
    · refine ⟨previous, List.mem_append_left _ (List.mem_map.mpr ⟨node, ?_, rfl⟩)⟩
      simp [Node.candidates, hrole]
    · obtain ⟨before, hplace⟩ := ih hrest (some child)
      exact ⟨before, List.mem_append_right _ hplace⟩

namespace Place

variable {place : Place} {kind : Kind} {name : String} {d : Definition}

theorem mem_definitionsOf (hplace : place ∈ places language tree)
    (hd : place.definition? language octets = some d) : d ∈ definitionsOf language octets tree := by
  rw [definitionsOf_eq]
  exact List.mem_filterMap.mpr ⟨place, hplace, hd⟩

theorem toList_name? (place : Place) :
    (place.name? language octets).toList =
      (place.definition? language octets).toList.map (·.name) := by
  rw [name?]
  cases place.definition? language octets <;> rfl

theorem definition?_eq (hrole : language.role? place.node.type = some (.declares kind)) :
    place.definition? language octets =
      place.node.definition? language octets place.previous kind :=
  Node.declared?_of_declares hrole

theorem exists_definition (place : Place)
    (hrole : language.role? place.node.type = some (.declares kind))
    (hname : place.node.name? octets = some name) :
    ∃ d, place.definition? language octets = some d ∧ d.name = name ∧
      d.line = place.node.row + 1 ∧
      d.members = if kind.hasMembers then place.node.memberNames octets else [] := by
  rw [definition?_eq hrole, Node.definition?, hname]
  exact ⟨_, rfl, rfl, rfl, rfl⟩

theorem name?_eq (hrole : language.role? place.node.type = some (.declares kind)) :
    place.name? language octets = place.node.name? octets := by
  rw [name?, definition?_eq hrole, Node.definition?, Option.map_map]
  exact Option.map_id'

end Place

-- ---------------------------------------------------------------------------
-- Names
-- ---------------------------------------------------------------------------

namespace Node

variable {node label : Node}

def label? (node : Node) : Option Node :=
  node.children.find? fun child => nameTypes.contains child.type

def declarator? (node : Node) : Option Node :=
  node.children.find? fun child => declaratorTypes.contains child.type

theorem name?_of_label (h : node.label? = some label) : node.name? octets = label.text? octets := by
  obtain ⟨type, named, start, stop, row, children⟩ := node
  rw [name?, show children.find? _ = some label from h]

theorem declaratorName?_eq (nodes : List Node) :
    declaratorName? octets nodes =
      (nodes.find? fun child => declaratorTypes.contains child.type).bind (name? octets) := by
  induction nodes with
  | nil => rfl
  | cons node rest ih =>
    rw [declaratorName?, List.find?_cons]
    by_cases h : declaratorTypes.contains node.type = true
    · simp only [h, if_true, Option.bind_some]
    · simp only [h, Bool.false_eq_true, if_false, ih]

theorem name?_of_declarator (h : node.label? = none) :
    node.name? octets = node.declarator?.bind (name? octets) := by
  obtain ⟨type, named, start, stop, row, children⟩ := node
  rw [name?, show children.find? _ = none from h]
  exact declaratorName?_eq children

-- ---------------------------------------------------------------------------
-- Members
-- ---------------------------------------------------------------------------

def body? (node : Node) : Option Node :=
  node.children.find? fun child => bodyTypes.contains child.type

structure IsMember (node : Node) : Prop where
  named : node.named = true
  comment : node.type ∉ commentTypes
  statement : node.type ≠ "expression_statement"

theorem memberNames_of_body {body : Node} (h : node.body? = some body) :
    node.memberNames octets = body.children.filterMap (memberName? octets) := by
  rw [memberNames, show node.children.find? _ = some body from h]

theorem memberNames_of_bodiless (h : node.body? = none) : node.memberNames octets = [] := by
  rw [memberNames, show node.children.find? _ = none from h]

theorem memberName?_of_isMember (h : node.IsMember) :
    node.memberName? octets = node.memberTarget.name? octets := by
  simp [memberName?, isComment, h.named, h.comment, h.statement]

theorem memberName?_of_not_isMember (h : ¬node.IsMember) : node.memberName? octets = none := by
  unfold memberName?
  split
  · rfl
  · next hcounts =>
    simp only [isComment, Bool.or_eq_true, List.contains_eq_mem, decide_eq_true_eq,
      Bool.not_eq_true', Bool.not_eq_false, not_or] at hcounts
    exact absurd ⟨hcounts.1.2, hcounts.1.1, hcounts.2⟩ h

end Node

end TreeManifest.Source
