import Mathlib.Data.List.Forall2
import TreeManifest.Proofs.Source.WellFormed

/-!
# Definitions in the order of the source

A walk over a tree meets each node before its children and these in order (`walk`). The nodes that
the children of the root put forward are met in their own order, each once (`candidates_sublist`),
and the definitions are those of some of them. So definitions belong to different places of the walk,
from its front to its end, and their lines go up wherever the rows of the walk do
(`definitionsOf_ordered`).
-/

namespace TreeManifest.Source

variable {language : Language} {octets : List UInt8} {previous : Option Node} {tree : List Node}
  {definitions : List Definition}

-- ---------------------------------------------------------------------------
-- The walk over a tree
-- ---------------------------------------------------------------------------

mutual

def Node.walk : Node → List Node
  | ⟨type, named, start, stop, row, children⟩ =>
    ⟨type, named, start, stop, row, children⟩ :: walk children

def walk : List Node → List Node
  | [] => []
  | node :: rest => node.walk ++ walk rest

end

theorem Node.walk_eq (node : Node) : node.walk = node :: Source.walk node.children := by
  cases node
  rfl

theorem sublist_walk (nodes : List Node) : nodes.Sublist (walk nodes) := by
  induction nodes with
  | nil => exact .slnil
  | cons node rest ih =>
    rw [walk, Node.walk_eq]
    exact (ih.trans (List.sublist_append_right _ _)).cons_cons node

theorem Node.candidates_sublist_walk (node : Node) : (node.candidates language).Sublist node.walk := by
  rw [walk_eq, candidates]
  split
  · exact (sublist_walk node.children).cons node
  · exact (List.nil_sublist _).cons_cons node

theorem candidates_sublist (tree : List Node) :
    (tree.flatMap (Node.candidates language)).Sublist (walk tree) := by
  induction tree with
  | nil => exact .slnil
  | cons node rest ih =>
    rw [List.flatMap_cons, walk]
    exact node.candidates_sublist_walk.append ih

-- ---------------------------------------------------------------------------
-- Nodes and their definitions
-- ---------------------------------------------------------------------------

def Declares (language : Language) (octets : List UInt8) (node : Node) (d : Definition) : Prop :=
  ∃ kind previous, language.role? node.type = some (.declares kind) ∧
    node.definition? language octets previous kind = some d

theorem Declares.line_eq {node : Node} {d : Definition} (h : Declares language octets node d) :
    d.line = node.row + 1 := by
  obtain ⟨kind, previous, -, hd⟩ := h
  obtain ⟨name, -, rfl⟩ := Option.map_eq_some_iff.mp hd
  rfl

theorem exists_declares_candidates (language : Language) (octets : List UInt8)
    (previous : Option Node) (nodes : List Node) :
    ∃ declarations : List Node, declarations.Sublist nodes ∧
      List.Forall₂ (Declares language octets) declarations
        (nodes.filterMap (Node.declared? language octets previous)) := by
  induction nodes with
  | nil => exact ⟨[], .slnil, .nil⟩
  | cons node rest ih =>
    obtain ⟨declarations, hsub, hall⟩ := ih
    rcases hd : node.declared? language octets previous with _ | d
    · rw [List.filterMap_cons_none hd]
      exact ⟨declarations, hsub.cons node, hall⟩
    · obtain ⟨kind, hrole, hdefinition⟩ := Node.declared?_eq_some.mp hd
      rw [List.filterMap_cons_some hd]
      exact ⟨node :: declarations, hsub.cons_cons node,
        .cons ⟨kind, previous, hrole, hdefinition⟩ hall⟩

/-- The definitions of a tree are those of a part of its walk, in the same order. -/
theorem exists_declares_walk (language : Language) (octets : List UInt8) (previous : Option Node)
    (tree : List Node) :
    ∃ declarations : List Node, declarations.Sublist (walk tree) ∧
      List.Forall₂ (Declares language octets) declarations
        (definitionsAfter language octets previous tree) := by
  suffices h : ∃ declarations : List Node,
      declarations.Sublist (tree.flatMap (Node.candidates language)) ∧
        List.Forall₂ (Declares language octets) declarations
          (definitionsAfter language octets previous tree) by
    obtain ⟨declarations, hsub, hall⟩ := h
    exact ⟨declarations, hsub.trans (candidates_sublist tree), hall⟩
  induction tree generalizing previous with
  | nil => exact ⟨[], .slnil, .nil⟩
  | cons node rest ih =>
    obtain ⟨front, hfront, hdeclared⟩ :=
      exists_declares_candidates language octets previous (node.candidates language)
    obtain ⟨later, hlater, hall⟩ := ih (some node)
    refine ⟨front ++ later, ?_, ?_⟩
    · rw [List.flatMap_cons]
      exact hfront.append hlater
    · rw [definitionsAfter, Node.definitions_eq]
      exact List.rel_append hdeclared hall

-- ---------------------------------------------------------------------------
-- Order
-- ---------------------------------------------------------------------------

theorem sorted_lines {declarations : List Node}
    (hall : List.Forall₂ (Declares language octets) declarations definitions)
    (hrows : declarations.Pairwise fun node later => node.row ≤ later.row) :
    definitions.Pairwise fun d later => d.line ≤ later.line := by
  have hlines : definitions.map (·.line) = declarations.map fun node => (node.row : Int) + 1 := by
    induction hall with
    | nil => rfl
    | cons hd _ ih => rw [List.map_cons, List.map_cons, hd.line_eq, ih hrows.of_cons]
  have hsorted : (declarations.map fun node => (node.row : Int) + 1).Pairwise (· ≤ ·) :=
    List.pairwise_map.mpr (hrows.imp fun h => by omega)
  rw [← hlines] at hsorted
  exact List.pairwise_map.mp hsorted

theorem exists_positions {declarations nodes : List Node} (hsub : declarations.Sublist nodes)
    (hall : List.Forall₂ (Declares language octets) declarations definitions) :
    ∃ positions : List (Fin nodes.length), positions.Pairwise (· < ·) ∧
      List.Forall₂ (fun position d => Declares language octets nodes[position] d) positions
        definitions := by
  obtain ⟨positions, rfl, hpositions⟩ := List.sublist_eq_map_getElem hsub
  exact ⟨positions, hpositions, List.forall₂_map_left_iff.mp hall⟩

/-- The definitions of a tree are those of declarations at increasing places of its walk. If rows
never go back along the walk, lines never go back along the definitions. -/
theorem definitionsOf_ordered
    (hrows : (walk tree).Pairwise fun node later => node.row ≤ later.row) :
    (definitionsOf language octets tree).Pairwise (fun d later => d.line ≤ later.line) ∧
      ∃ positions : List (Fin (walk tree).length), positions.Pairwise (· < ·) ∧
        List.Forall₂ (fun position d => Declares language octets (walk tree)[position] d) positions
          (definitionsOf language octets tree) := by
  obtain ⟨declarations, hsub, hall⟩ :=
    exists_declares_walk language octets none tree
  exact ⟨sorted_lines hall (hrows.sublist hsub), exists_positions hsub hall⟩

def exportedOctets : List UInt8 :=
  Text.Utf8.encode "let a\nexport let b, c\nexport\nclass D"

def exportedTree : List Node :=
  [⟨"lexical_declaration", true, 0, 5, 0,
      [⟨"variable_declarator", true, 4, 5, 0, [⟨"identifier", true, 4, 5, 0, []⟩]⟩]⟩,
    ⟨"export_statement", true, 6, 21, 1,
      [⟨"lexical_declaration", true, 13, 18, 1,
          [⟨"variable_declarator", true, 17, 18, 1, [⟨"identifier", true, 17, 18, 1, []⟩]⟩]⟩,
        ⟨"lexical_declaration", true, 20, 21, 1,
          [⟨"variable_declarator", true, 20, 21, 1, [⟨"identifier", true, 20, 21, 1, []⟩]⟩]⟩]⟩,
    ⟨"export_statement", true, 22, 36, 2,
      [⟨"export", false, 22, 28, 2, []⟩,
        ⟨"class_declaration", true, 29, 36, 3, [⟨"type_identifier", true, 35, 36, 3, []⟩]⟩]⟩]

theorem definitionsOf_ordered_exported :
    ((walk exportedTree).Pairwise fun node later => node.row ≤ later.row) ∧
      (definitionsOf .typescript exportedOctets exportedTree).map (fun d => (d.name, d.line)) =
        [("a", 1), ("b", 2), ("c", 2), ("D", 4)] ∧
      ∃ positions : List (Fin (walk exportedTree).length), positions.Pairwise (· < ·) ∧
        List.Forall₂
          (fun position d => Declares .typescript exportedOctets (walk exportedTree)[position] d)
          positions (definitionsOf .typescript exportedOctets exportedTree) := by
  have hrows : (walk exportedTree).Pairwise fun node later => node.row ≤ later.row := by decide
  exact ⟨hrows, by decide +kernel, (definitionsOf_ordered hrows).2⟩

end TreeManifest.Source
