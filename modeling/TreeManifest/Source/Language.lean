/-!
# Source languages

The languages whose files are looked into: their extensions, the grammar that parses each of them,
and what the types of its syntax trees' nodes stand for. A node either declares something of a kind
or wraps a declaration; nodes of other types are not looked at.
-/

namespace TreeManifest.Source

inductive Language where
  | python
  | javascript
  | typescript
  | tsx
  | java
  | go
  | rust
  | c
  | cpp
  deriving DecidableEq, Repr

inductive Kind where
  | function
  | classLike
  | interface
  | typeName
  | variableName
  deriving DecidableEq, Repr

def Kind.text : Kind → String
  | function => "function"
  | classLike => "class"
  | interface => "interface"
  | typeName => "type"
  | variableName => "variable"

def Kind.hasMembers : Kind → Bool
  | classLike | interface => true
  | function | typeName | variableName => false

inductive Role where
  | declares (kind : Kind)
  | wraps
  deriving DecidableEq, Repr

structure Grammar where
  package : String
  entry : String
  deriving DecidableEq, Repr

namespace Language

def all : List Language := [python, javascript, typescript, tsx, java, go, rust, c, cpp]

def name : Language → String
  | python => "python"
  | javascript => "javascript"
  | typescript => "typescript"
  | tsx => "tsx"
  | java => "java"
  | go => "go"
  | rust => "rust"
  | c => "c"
  | cpp => "cpp"

def extensions : Language → List String
  | python => [".py", ".pyi"]
  | javascript => [".js", ".mjs", ".cjs", ".jsx"]
  | typescript => [".ts", ".mts", ".cts"]
  | tsx => [".tsx"]
  | java => [".java"]
  | go => [".go"]
  | rust => [".rs"]
  | c => [".c", ".h"]
  | cpp => [".cpp", ".cc", ".cxx", ".hpp", ".hxx", ".hh"]

def ofExtension? (extension : String) : Option Language :=
  all.find? fun language => language.extensions.contains extension

/-- Two languages can share a package; no two share a package and an entry. -/
def grammar : Language → Grammar
  | python => ⟨"tree_sitter_python", "language"⟩
  | javascript => ⟨"tree_sitter_javascript", "language"⟩
  | typescript => ⟨"tree_sitter_typescript", "language_typescript"⟩
  | tsx => ⟨"tree_sitter_typescript", "language_tsx"⟩
  | java => ⟨"tree_sitter_java", "language"⟩
  | go => ⟨"tree_sitter_go", "language"⟩
  | rust => ⟨"tree_sitter_rust", "language"⟩
  | c => ⟨"tree_sitter_c", "language"⟩
  | cpp => ⟨"tree_sitter_cpp", "language"⟩

def scriptRoles : List (String × Role) :=
  [("function_declaration", .declares .function),
    ("generator_function_declaration", .declares .function),
    ("class_declaration", .declares .classLike),
    ("export_statement", .wraps),
    ("lexical_declaration", .declares .variableName)]

def typedScriptRoles : List (String × Role) :=
  scriptRoles ++
    [("abstract_class_declaration", .declares .classLike),
      ("interface_declaration", .declares .interface),
      ("type_alias_declaration", .declares .typeName),
      ("enum_declaration", .declares .typeName)]

def roles : Language → List (String × Role)
  | python =>
    [("function_definition", .declares .function),
      ("class_definition", .declares .classLike),
      ("decorated_definition", .wraps)]
  | javascript => scriptRoles
  | typescript | tsx => typedScriptRoles
  | java =>
    [("class_declaration", .declares .classLike),
      ("interface_declaration", .declares .interface),
      ("enum_declaration", .declares .classLike),
      ("record_declaration", .declares .classLike)]
  | go =>
    [("function_declaration", .declares .function),
      ("method_declaration", .declares .function),
      ("type_declaration", .declares .typeName)]
  | rust =>
    [("function_item", .declares .function),
      ("impl_item", .declares .classLike),
      ("struct_item", .declares .classLike),
      ("enum_item", .declares .typeName),
      ("trait_item", .declares .interface)]
  | c =>
    [("function_definition", .declares .function),
      ("struct_specifier", .declares .classLike),
      ("enum_specifier", .declares .typeName)]
  | cpp =>
    [("function_definition", .declares .function),
      ("class_specifier", .declares .classLike),
      ("struct_specifier", .declares .classLike),
      ("namespace_definition", .declares .classLike)]

def role? (language : Language) (nodeType : String) : Option Role :=
  language.roles.lookup nodeType

end Language

end TreeManifest.Source
