import TreeManifest.Source.Language
import TreeManifest.Source.Node
import TreeManifest.Text.Blank
import TreeManifest.Text.Lines

/-!
# Declarations in syntax trees

What is told about a declaration: its name, its signature, its documentation and its members. All of
it is read off the node and, for documentation in a comment, off the node before it. A tree's
definitions are those of the declarations among the children of its root, wrapped ones included, in
the order of the source.
-/

namespace TreeManifest.Source

/-- What is told about a declaration. `kind` is the text of a `Kind` here; definitions that come
from elsewhere may have other kinds. -/
structure Definition where
  name : String
  kind : String
  /-- The row of the declaration, counted from one. -/
  line : Int
  signature : Option String
  docstring : Option String
  members : List String
  deriving DecidableEq, Repr

def nameTypes : List String := ["identifier", "name", "type_identifier", "property_identifier"]

/-- Nodes whose own name is the name of the declaration around them. -/
def declaratorTypes : List String := ["variable_declarator", "type_spec", "function_declarator"]

def parameterTypes : List String := ["parameters", "formal_parameters", "parameter_list"]

def bodyTypes : List String := ["block", "class_body", "declaration_list", "field_declaration_list"]

def commentTypes : List String := ["comment", "block_comment"]

namespace Node

def isComment (node : Node) : Bool := commentTypes.contains node.type

mutual

/-- The name of a declaration: its first name node, which must cover some text, or the name of its
first declarator. -/
def name? (octets : List UInt8) : Node → Option String
  | ⟨_, _, _, _, _, children⟩ =>
    match children.find? fun child => nameTypes.contains child.type with
    | some child => child.text? octets
    | none => declaratorName? octets children

def declaratorName? (octets : List UInt8) : List Node → Option String
  | [] => none
  | node :: rest =>
    if declaratorTypes.contains node.type then name? octets node
    else declaratorName? octets rest

end

mutual

def parameters? : Node → Option Node
  | ⟨_, _, _, _, _, children⟩ =>
    match children.find? fun child => parameterTypes.contains child.type with
    | some child => some child
    | none => declaratorParameters? children

def declaratorParameters? : List Node → Option Node
  | [] => none
  | node :: rest =>
    if node.type = "function_declarator" then parameters? node else declaratorParameters? rest

end

/-- The text after the parameters in languages that put the result's type there. -/
def resultText (language : Language) (octets : List UInt8) (node : Node) : String :=
  if language = .python then
    match node.children.find? fun child => child.type = "type" with
    | some child => match child.text? octets with
      | some text => " -> " ++ text
      | none => ""
    | none => ""
  else ""

def signature? (language : Language) (octets : List UInt8) (name : String) (node : Node) :
    Option String :=
  node.parameters?.map fun parameters =>
    name ++ String.ofList (parameters.chars octets) ++ node.resultText language octets

def leadingString? (block : Node) : Option Node :=
  match block.children with
  | [] => none
  | statement :: _ =>
    if statement.type = "expression_statement" then
      statement.children.find? fun part => part.type = "string"
    else none

def bodyDocumentation? (octets : List UInt8) (node : Node) : Option String :=
  let blocks := node.children.filter fun child => child.type = "block"
  (blocks.findSome? leadingString?).bind fun string =>
    let quoted := Text.trimWhile (fun c => c = '"' || c = '\'') (string.chars octets)
    nonEmpty? (Text.trim quoted)

def commentLine (line : List Char) : List Char :=
  let marks := fun c : Char => c = '/' || c = '*'
  Text.trim (Text.trimWhile marks (Text.trim line))

def commentDocumentation? (octets : List UInt8) (comment : Node) : Option String :=
  let lines := (Text.splitLines (comment.chars octets)).map commentLine
  nonEmpty? (List.intercalate [' '] (lines.filter (· ≠ [])))

/-- The documentation of a declaration whose outermost wrapper comes after `previous`. -/
def documentation? (language : Language) (octets : List UInt8) (previous : Option Node)
    (node : Node) : Option String :=
  if language = .python then node.bodyDocumentation? octets
  else (previous.filter isComment).bind (commentDocumentation? octets)

def isDefinition (node : Node) : Bool := "definition".toList.isSuffixOf node.type.toList

/-- The definition that a decorated member wraps; other members stand for themselves. -/
def memberTarget (member : Node) : Node :=
  if member.type = "decorated_definition" then
    (member.children.find? isDefinition).getD member
  else member

def memberName? (octets : List UInt8) (member : Node) : Option String :=
  if member.isComment || !member.named || member.type = "expression_statement" then none
  else member.memberTarget.name? octets

def memberNames (octets : List UInt8) (node : Node) : List String :=
  match node.children.find? fun child => bodyTypes.contains child.type with
  | some body => body.children.filterMap (memberName? octets)
  | none => []

def definition? (language : Language) (octets : List UInt8) (previous : Option Node) (kind : Kind)
    (node : Node) : Option Definition :=
  (node.name? octets).map fun name =>
    { name
      kind := kind.text
      line := node.row + 1
      signature := node.signature? language octets name
      docstring := node.documentation? language octets previous
      members := if kind.hasMembers then node.memberNames octets else [] }

/-- The definition of a node that declares something itself. -/
def declared? (language : Language) (octets : List UInt8) (previous : Option Node) (node : Node) :
    Option Definition :=
  match language.role? node.type with
  | some (.declares kind) => node.definition? language octets previous kind
  | _ => none

/-- The definitions of a child of the root, which comes after `previous`: its own, or those of the
declarations that it wraps. -/
def definitions (language : Language) (octets : List UInt8) (previous : Option Node)
    (node : Node) : List Definition :=
  match language.role? node.type with
  | some .wraps => node.children.filterMap (declared? language octets previous)
  | some (.declares kind) => (node.definition? language octets previous kind).toList
  | none => []

end Node

def definitionsAfter (language : Language) (octets : List UInt8) :
    (previous : Option Node) → List Node → List Definition
  | _, [] => []
  | previous, node :: rest =>
    node.definitions language octets previous ++ definitionsAfter language octets (some node) rest

def definitionsOf (language : Language) (octets : List UInt8) (tree : List Node) :
    List Definition :=
  definitionsAfter language octets none tree

end TreeManifest.Source
