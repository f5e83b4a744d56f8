import TreeManifest.Proofs.Source.Places

/-!
# Declarations are named by their declarators

A declaration or a member with a declarator is reported by the name that is found in its first
declarator, unless one of its own children is a name and reads otherwise: then it is reported by that
child (`Reported.by_declarator`). So the type that is written in front of a declarator, if it is a
name, takes its place.
-/

namespace TreeManifest.Source

variable {octets : List UInt8} {node declarator : Node} {reported : Option String}

inductive Reported (octets : List UInt8) (node : Node) : Option String → Prop
  | definition {language : Language} {tree : List Node} {place : Place} {kind : Kind}
      (hplace : place ∈ places language tree) (hnode : place.node = node)
      (hrole : language.role? node.type = some (.declares kind)) :
      Reported octets node (place.name? language octets)
  | member {holder body member : Node} (hbody : holder.body? = some body)
      (hmember : member ∈ body.children) (hcounts : member.IsMember)
      (htarget : member.memberTarget = node) :
      Reported octets node (member.memberName? octets)

theorem Reported.eq (h : Reported octets node reported) : reported = node.name? octets := by
  cases h with
  | definition _ hnode hrole =>
    subst hnode
    exact Place.name?_eq hrole
  | member _ _ hcounts htarget => rw [Node.memberName?_of_isMember hcounts, htarget]

/-- A declarator in a declaration names it, exactly if no child of the declaration is a name that
reads otherwise; the first such child names it then. -/
theorem Reported.by_declarator (h : Reported octets node reported)
    (hdeclarator : node.declarator? = some declarator) :
    (reported = declarator.name? octets ↔
      ∀ label, node.label? = some label → label.text? octets = declarator.name? octets) ∧
    ∀ label, node.label? = some label → reported = label.text? octets := by
  obtain rfl := h.eq
  rcases hlabel : node.label? with _ | label
  · rw [Node.name?_of_declarator hlabel, hdeclarator, Option.bind_some]
    simp
  · rw [Node.name?_of_label hlabel]
    simp

def signedOctets : List UInt8 :=
  Text.Utf8.encode "int g(void) \x7b\x7d\nT f(void) \x7b\x7d\nclass A \x7b T x; \x7d"

def signedDeclarator (start row : Nat) : Node :=
  ⟨"function_declarator", true, start, start + 7, row,
    [⟨"identifier", true, start, start + 1, row, []⟩,
      ⟨"parameter_list", true, start + 1, start + 7, row, []⟩]⟩

def signedFunction (type : Node) (start row : Nat) : Node :=
  ⟨"function_definition", true, type.start, start + 10, row,
    [type, signedDeclarator start row,
      ⟨"compound_statement", true, start + 8, start + 10, row, []⟩]⟩

def plainFunction : Node := signedFunction ⟨"primitive_type", true, 0, 3, 0, []⟩ 4 0

def typeNode (start row : Nat) : Node := ⟨"type_identifier", true, start, start + 1, row, []⟩

def typedFunction : Node := signedFunction (typeNode 15 1) 17 1

def typedField : Node :=
  ⟨"field_declaration", true, 38, 42, 2,
    [typeNode 38 2,
      ⟨"variable_declarator", true, 40, 41, 2, [⟨"identifier", true, 40, 41, 2, []⟩]⟩]⟩

def typedClass : Node :=
  ⟨"class_declaration", true, 28, 44, 2,
    [⟨"identifier", true, 34, 35, 2, []⟩, ⟨"class_body", true, 36, 44, 2, [typedField]⟩]⟩

/-- The plain function has the name in its declarator; the other one and the field have that of
their type. -/
theorem Reported.by_declarator_typed :
    (Place.mk none plainFunction).name? .c signedOctets = some "g" ∧
      (signedDeclarator 17 1).name? signedOctets = some "f" ∧
      (Place.mk (some plainFunction) typedFunction).name? .c signedOctets = some "T" ∧
      typedClass.memberNames signedOctets = ["T"] ∧
      typedField.memberName? signedOctets = some "T" := by
  have hplaces : places .c [plainFunction, typedFunction] =
      [⟨none, plainFunction⟩, ⟨some plainFunction, typedFunction⟩] := rfl
  have hrole : Language.role? .c "function_definition" = some (.declares .function) := by decide
  have hplain : Reported signedOctets plainFunction
      ((Place.mk none plainFunction).name? .c signedOctets) :=
    .definition (by rw [hplaces]; exact List.mem_cons_self) rfl hrole
  have htyped : Reported signedOctets typedFunction
      ((Place.mk (some plainFunction) typedFunction).name? .c signedOctets) :=
    .definition (by rw [hplaces]; exact List.mem_cons_of_mem _ List.mem_cons_self) rfl hrole
  have hfield : Reported signedOctets typedField (typedField.memberName? signedOctets) :=
    .member (show typedClass.body? = _ from rfl) List.mem_cons_self
      ⟨rfl, by decide, by decide⟩ rfl
  have hname : (signedDeclarator 4 0).name? signedOctets = some "g" := by decide +kernel
  have hfirst : (typeNode 15 1).text? signedOctets = some "T" := by decide +kernel
  have hsecond : (typeNode 38 2).text? signedOctets = some "T" := by decide +kernel
  refine ⟨?_, by decide +kernel, ?_, by decide +kernel, ?_⟩
  · rw [← hname]
    exact (hplain.by_declarator rfl).1.mpr fun label h => nomatch h
  · rw [← hfirst]
    exact (htyped.by_declarator rfl).2 _ rfl
  · rw [← hsecond]
    exact (hfield.by_declarator rfl).2 _ rfl

end TreeManifest.Source
