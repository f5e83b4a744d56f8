import TreeManifest.Proofs.Source.Places

/-!
# Several names in one declaration

A variable declaration of the script languages and a type declaration of Go are groups: they can
declare one name after the other. A group gives at most one definition, which has the name of its first
item. So all names of a group are told exactly if no later item has a name (`definitionsOf_group`).
-/

namespace TreeManifest.Source

variable {language : Language} {octets : List UInt8} {tree : List Node} {node : Node}

/-- A declaration of variables in the script languages, or of types in Go. -/
def IsGroup (language : Language) (node : Node) : Prop :=
  language ∈ Language.scripts ∧ node.type = "lexical_declaration" ∨
    language = .go ∧ node.type = "type_declaration"

theorem IsGroup.role (h : IsGroup language node) :
    ∃ kind, language.role? node.type = some (.declares kind) := by
  have hvariables : ∀ language ∈ Language.scripts,
      language.role? "lexical_declaration" = some (.declares .variableName) := by decide
  rcases h with ⟨hlanguage, htype⟩ | ⟨rfl, htype⟩
  · rw [htype]
    exact ⟨.variableName, hvariables language hlanguage⟩
  · rw [htype]
    exact ⟨.typeName, by decide⟩

namespace Node

def isItem (node : Node) : Bool := ["variable_declarator", "type_spec"].contains node.type

def items (node : Node) : List Node := node.children.filter isItem

theorem isItem_eq (h : node.type ≠ "function_declarator") :
    node.isItem = declaratorTypes.contains node.type := by
  simp [isItem, declaratorTypes, h]

/-- Apart from functions, the first item is the first declarator. -/
theorem declarator?_eq (h : ∀ child ∈ node.children, child.type ≠ "function_declarator") :
    node.declarator? = node.items.head? := by
  rw [items, declarator?, ← List.head?_filter,
    List.filter_congr fun child hm => isItem_eq (h child hm)]

end Node

theorem toList_eq_filterMap_iff {α β : Type} {f : α → Option β} (items : List α) :
    (items.head?.bind f).toList = items.filterMap f ↔ ∀ later ∈ items.tail, f later = none := by
  cases items with
  | nil => simp
  | cons first later =>
    rw [List.head?_cons, List.tail_cons, Option.bind_some, ← List.filterMap_eq_nil_iff,
      List.filterMap_cons]
    rcases f first with _ | name <;> simp [eq_comm]

/-- A group gives at most one definition. Unless a child of the group is a name itself, it has the
name of the first declarator; then all names of items are told exactly if no later item has one. -/
theorem definitionsOf_group {place : Place} {front back : List Place} (octets : List UInt8)
    (hplaces : places language tree = front ++ place :: back) (hgroup : IsGroup language place.node) :
    definitionsOf language octets tree =
        front.filterMap (Place.definition? language octets) ++
          (place.definition? language octets).toList ++
          back.filterMap (Place.definition? language octets) ∧
      (∀ label, place.node.label? = some label →
        place.name? language octets = label.text? octets) ∧
      (place.node.label? = none →
        place.name? language octets = place.node.declarator?.bind (Node.name? octets) ∧
        ((∀ child ∈ place.node.children, child.type ≠ "function_declarator") →
          ((place.definition? language octets).toList.map (·.name) =
              place.node.items.filterMap (Node.name? octets) ↔
            ∀ later ∈ place.node.items.tail, later.name? octets = none))) := by
  obtain ⟨kind, hrole⟩ := hgroup.role
  rw [← Place.toList_name?, Place.name?_eq hrole, definitionsOf_eq, hplaces]
  refine ⟨?_, fun label => Node.name?_of_label, fun hlabel => ⟨Node.name?_of_declarator hlabel,
    fun hfunction => ?_⟩⟩
  · rw [List.filterMap_append, List.append_assoc, List.filterMap_cons]
    cases place.definition? language octets <;> rfl
  · rw [Node.name?_of_declarator hlabel, Node.declarator?_eq hfunction]
    exact toList_eq_filterMap_iff place.node.items

def groupOctets : List UInt8 := Text.Utf8.encode "type (A int; B string)"

def typeGroup : Node :=
  ⟨"type_declaration", true, 0, 22, 0,
    [⟨"type", false, 0, 4, 0, []⟩, ⟨"(", false, 5, 6, 0, []⟩,
      ⟨"type_spec", true, 6, 11, 0,
        [⟨"type_identifier", true, 6, 7, 0, []⟩, ⟨"type_identifier", true, 8, 11, 0, []⟩]⟩,
      ⟨";", false, 11, 12, 0, []⟩,
      ⟨"type_spec", true, 13, 21, 0,
        [⟨"type_identifier", true, 13, 14, 0, []⟩, ⟨"type_identifier", true, 15, 21, 0, []⟩]⟩,
      ⟨")", false, 21, 22, 0, []⟩]⟩

def variableOctets : List UInt8 := Text.Utf8.encode "export const a = 1"

def variableGroup : Node :=
  ⟨"lexical_declaration", true, 7, 18, 0,
    [⟨"const", false, 7, 12, 0, []⟩,
      ⟨"variable_declarator", true, 13, 18, 0, [⟨"identifier", true, 13, 14, 0, []⟩]⟩]⟩

def exportedGroup : Node :=
  ⟨"export_statement", true, 0, 18, 0, [⟨"export", false, 0, 6, 0, []⟩, variableGroup]⟩

/-- Of two types in a group only the first is told; an exported variable alone in its group is. -/
theorem definitionsOf_group_types :
    (definitionsOf .go groupOctets [typeGroup]).map (·.name) = ["A"] ∧
      typeGroup.items.filterMap (Node.name? groupOctets) = ["A", "B"] ∧
      ((Place.mk none typeGroup).definition? .go groupOctets).toList.map (·.name) ≠
        typeGroup.items.filterMap (Node.name? groupOctets) ∧
      ((Place.mk none variableGroup).definition? .typescript variableOctets).toList.map (·.name) =
        variableGroup.items.filterMap (Node.name? variableOctets) := by
  have htypes : places .go [typeGroup] = [] ++ ⟨none, typeGroup⟩ :: [] := rfl
  have hvariables : places .typescript [exportedGroup] =
      [⟨none, ⟨"export", false, 0, 6, 0, []⟩⟩] ++ ⟨none, variableGroup⟩ :: [] := rfl
  have htold := (definitionsOf_group groupOctets htypes (.inr ⟨rfl, rfl⟩)).2.2 rfl
  have hall :=
    (definitionsOf_group variableOctets hvariables (.inl ⟨by decide, rfl⟩)).2.2 rfl
  refine ⟨by decide +kernel, by decide +kernel, ?_, ?_⟩
  · rw [Ne, htold.2 (by decide)]
    decide +kernel
  · rw [hall.2 (by decide)]
    decide +kernel

end TreeManifest.Source
