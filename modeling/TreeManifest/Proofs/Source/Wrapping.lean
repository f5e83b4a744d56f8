import Mathlib.Data.List.Forall2
import TreeManifest.Proofs.Source.Places

/-!
# Exports and decorations

An export or a decoration that is put around a declaration is not seen in the definitions of the
file (`definitionsOf_wrapped`). What is told of the declaration is read off its own node, except for a
comment before it, which comes before the wrapper then; and neither the wrapper nor the declaration
is a comment for the node that follows. So it holds for any number of wrapped declarations at once
(`definitionsAfter_wrapped`).
-/

namespace TreeManifest.Source

variable {language : Language} {octets : List UInt8} {previous previous' : Option Node}
  {node wrapper : Node}

/-- A node around one declaration, with nothing else in it that is looked at: an export in the script
languages, a decorated definition in Python. -/
structure Wraps (language : Language) (wrapper node : Node) : Prop where
  type : language ∈ Language.scripts ∧ wrapper.type = "export_statement" ∨
    language = .python ∧ wrapper.type = "decorated_definition"
  declares : ∃ kind, language.role? node.type = some (.declares kind)
  children : ∃ front back, wrapper.children = front ++ node :: back ∧
    ∀ other ∈ front ++ back, language.role? other.type = none

theorem Wraps.role (h : Wraps language wrapper node) :
    language.role? wrapper.type = some .wraps := by
  have hexport : ∀ language ∈ Language.scripts,
      language.role? "export_statement" = some .wraps := by decide
  rcases h.type with ⟨hlanguage, htype⟩ | ⟨rfl, htype⟩
  · rw [htype]
    exact hexport language hlanguage
  · rw [htype]
    decide

-- ---------------------------------------------------------------------------
-- Comments
-- ---------------------------------------------------------------------------

theorem role?_of_isComment (h : node.isComment = true) : language.role? node.type = none := by
  simp only [Node.isComment, commentTypes, List.contains_eq_mem, List.mem_cons, List.not_mem_nil,
    or_false, decide_eq_true_eq] at h
  rcases h with h | h <;> rw [h] <;> cases language <;> decide

theorem isComment_of_role {role : Role} (h : language.role? node.type = some role) :
    node.isComment = false := by
  by_contra hcomment
  rw [role?_of_isComment (by simpa using hcomment)] at h
  cases h

/-- Of what comes before a declaration only a comment counts. -/
theorem Node.documentation?_congr
    (h : previous'.filter Node.isComment = previous.filter Node.isComment) :
    node.documentation? language octets previous' =
      node.documentation? language octets previous := by
  simp only [documentation?, h]

theorem Node.definition?_congr {kind : Kind}
    (h : previous'.filter Node.isComment = previous.filter Node.isComment) :
    node.definition? language octets previous' kind =
      node.definition? language octets previous kind := by
  simp only [definition?, documentation?_congr h]

theorem Node.declared?_congr
    (h : previous'.filter Node.isComment = previous.filter Node.isComment) :
    node.declared? language octets previous' = node.declared? language octets previous := by
  simp only [declared?, definition?_congr h]

theorem Node.definitions_congr
    (h : previous'.filter Node.isComment = previous.filter Node.isComment) :
    node.definitions language octets previous' = node.definitions language octets previous := by
  have hdeclared : declared? language octets previous' = declared? language octets previous :=
    funext fun _ => declared?_congr h
  simp only [definitions, hdeclared, definition?_congr h]

-- ---------------------------------------------------------------------------
-- Wrapped declarations
-- ---------------------------------------------------------------------------

theorem Node.declared?_of_role_eq_none (h : language.role? node.type = none) :
    node.declared? language octets previous = none := by
  simp only [declared?, h]

theorem filterMap_declared?_eq_nil {nodes : List Node}
    (h : ∀ other ∈ nodes, language.role? other.type = none) :
    nodes.filterMap (Node.declared? language octets previous) = [] :=
  List.filterMap_eq_nil_iff.mpr fun other hm => Node.declared?_of_role_eq_none (h other hm)

theorem Wraps.definitions_eq (h : Wraps language wrapper node) :
    wrapper.definitions language octets previous = node.definitions language octets previous := by
  obtain ⟨kind, hkind⟩ := h.declares
  obtain ⟨front, back, hchildren, hother⟩ := h.children
  obtain ⟨hfront, hback⟩ := List.forall_mem_append.mp hother
  calc wrapper.definitions language octets previous
      = wrapper.children.filterMap (Node.declared? language octets previous) := by
        simp only [Node.definitions, h.role]
    _ = (node.declared? language octets previous).toList := by
        rw [hchildren, List.filterMap_append, filterMap_declared?_eq_nil hfront,
          List.nil_append, List.filterMap_cons, filterMap_declared?_eq_nil hback]
        cases node.declared? language octets previous <;> rfl
    _ = node.definitions language octets previous := by
        simp only [Node.definitions, hkind, Node.declared?_of_declares hkind]

def IsWrapped (language : Language) (node' node : Node) : Prop :=
  node' = node ∨ Wraps language node' node

theorem IsWrapped.definitions_eq {node' : Node} (h : IsWrapped language node' node) :
    node'.definitions language octets previous = node.definitions language octets previous := by
  rcases h with rfl | h
  · rfl
  · exact h.definitions_eq

/-- A wrapper is no comment for the node after it, and neither is what it wraps. -/
theorem IsWrapped.filter_isComment {node' : Node} (h : IsWrapped language node' node) :
    (some node').filter Node.isComment = (some node).filter Node.isComment := by
  rcases h with rfl | h
  · rfl
  · obtain ⟨kind, hkind⟩ := h.declares
    simp [Option.filter, isComment_of_role h.role, isComment_of_role hkind]

/-- Any number of declarations can be wrapped. The induction goes along both trees; what stays alike
is the comment, if any, that the next node comes after. -/
theorem definitionsAfter_wrapped {tree tree' : List Node}
    (h : List.Forall₂ (IsWrapped language) tree' tree)
    (hprevious : previous'.filter Node.isComment = previous.filter Node.isComment) :
    definitionsAfter language octets previous' tree' =
      definitionsAfter language octets previous tree := by
  induction h generalizing previous previous' with
  | nil => rfl
  | cons hnode _ ih =>
    rw [definitionsAfter, definitionsAfter, hnode.definitions_eq,
      Node.definitions_congr hprevious, ih hnode.filter_isComment]

/-- A wrapper around a declaration leaves the definitions of the file as they are, that of the
declaration among them. -/
theorem definitionsOf_wrapped (h : Wraps language wrapper node) (before after : List Node) :
    definitionsOf language octets (before ++ wrapper :: after) =
        definitionsOf language octets (before ++ node :: after) ∧
      ∀ name, node.name? octets = some name →
        ∃ d ∈ definitionsOf language octets (before ++ wrapper :: after),
          d.name = name ∧ d.line = node.row + 1 := by
  have hsame : ∀ nodes : List Node, List.Forall₂ (IsWrapped language) nodes nodes :=
    fun nodes => List.forall₂_same.mpr fun _ _ => .inl rfl
  have heq : definitionsOf language octets (before ++ wrapper :: after) =
      definitionsOf language octets (before ++ node :: after) :=
    definitionsAfter_wrapped (List.rel_append (hsame before) (.cons (.inr h) (hsame after))) rfl
  refine ⟨heq, fun name hname => ?_⟩
  obtain ⟨kind, hkind⟩ := h.declares
  have hnode : node ∈ before ++ node :: after := List.mem_append_right before List.mem_cons_self
  obtain ⟨previous, hplace⟩ := exists_place hkind hnode none
  obtain ⟨d, hd, hdname, hdline, -⟩ := Place.exists_definition ⟨previous, node⟩ hkind hname
  rw [heq]
  exact ⟨d, Place.mem_definitionsOf hplace hd, hdname, hdline⟩

def remarkedOctets : List UInt8 :=
  Text.Utf8.encode "/** Makes. */\nexport /* all */\nclass A \x7b\x7d\nlet b"

def remarkedClass : Node :=
  ⟨"class_declaration", true, 31, 41, 2,
    [⟨"class", false, 31, 36, 2, []⟩, ⟨"type_identifier", true, 37, 38, 2, []⟩,
      ⟨"class_body", true, 39, 41, 2, []⟩]⟩

def remarkedExport : Node :=
  ⟨"export_statement", true, 14, 41, 1,
    [⟨"export", false, 14, 20, 1, []⟩, ⟨"comment", true, 21, 30, 1, []⟩, remarkedClass]⟩

def remarkedTree (node : Node) : List Node :=
  [⟨"comment", true, 0, 13, 0, []⟩, node,
    ⟨"lexical_declaration", true, 42, 47, 3,
      [⟨"let", false, 42, 45, 3, []⟩,
        ⟨"variable_declarator", true, 46, 47, 3, [⟨"identifier", true, 46, 47, 3, []⟩]⟩]⟩]

theorem definitionsOf_wrapped_remarkedTree :
    Wraps .typescript remarkedExport remarkedClass ∧
      definitionsOf .typescript remarkedOctets (remarkedTree remarkedExport) =
        definitionsOf .typescript remarkedOctets (remarkedTree remarkedClass) ∧
      (definitionsOf .typescript remarkedOctets (remarkedTree remarkedExport)).map
        (fun d => (d.name, d.line, d.docstring)) = [("A", 3, some "Makes."), ("b", 4, none)] := by
  have hwraps : Wraps .typescript remarkedExport remarkedClass :=
    { type := .inl ⟨by decide, rfl⟩
      declares := ⟨.classLike, by decide⟩
      children := ⟨[⟨"export", false, 14, 20, 1, []⟩, ⟨"comment", true, 21, 30, 1, []⟩], [], rfl,
        by simp only [List.append_nil, List.forall_mem_cons]; decide⟩ }
  exact ⟨hwraps, (definitionsOf_wrapped hwraps [_] [_]).1, by decide +kernel⟩

end TreeManifest.Source
