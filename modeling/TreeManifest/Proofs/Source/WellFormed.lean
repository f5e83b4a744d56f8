import TreeManifest.Proofs.Text.Line
import TreeManifest.Source.Declaration

/-!
# Definitions are well formed

Whatever a tree looks like and whatever octets its nodes cover, each of its definitions has a name,
one of five kinds, the line of a node that the root or a wrapper below it holds, and texts without
blanks at their ends (`definitionsOf_wellFormed`). A child of the root puts forward itself or, if it
wraps, its children (`Node.candidates`), and only declarations with a name among these become
definitions (`declared?_eq_some`).
-/

namespace TreeManifest.Source

open Text (IsTrimmed)

variable {language : Language} {octets : List UInt8} {previous : Option Node} {node : Node}
  {tree : List Node} {cs : List Char} {name text : String} {d : Definition}

-- ---------------------------------------------------------------------------
-- Names
-- ---------------------------------------------------------------------------

theorem nonEmpty?_eq_some : nonEmpty? cs = some text ↔ cs ≠ [] ∧ String.ofList cs = text := by
  unfold nonEmpty?
  split <;> simp [*]

theorem nonEmpty?_ne_empty (h : nonEmpty? cs = some text) : text ≠ "" := by
  obtain ⟨hcs, rfl⟩ := nonEmpty?_eq_some.mp h
  exact fun heq => hcs (String.ofList_eq_empty_iff.mp heq)

mutual

/-- A name covers some text, also at the end of a chain of declarators. -/
theorem Node.name?_ne_empty {node : Node} (h : node.name? octets = some name) : name ≠ "" := by
  obtain ⟨type, named, start, stop, row, children⟩ := node
  rw [Node.name?] at h
  split at h
  · exact nonEmpty?_ne_empty h
  · exact Node.declaratorName?_ne_empty h

theorem Node.declaratorName?_ne_empty {nodes : List Node}
    (h : Node.declaratorName? octets nodes = some name) : name ≠ "" := by
  cases nodes with
  | nil => cases h
  | cons node rest =>
    rw [Node.declaratorName?] at h
    split at h
    · exact Node.name?_ne_empty h
    · exact Node.declaratorName?_ne_empty h

end

theorem Node.memberName?_ne_empty (h : node.memberName? octets = some name) : name ≠ "" := by
  unfold memberName? at h
  split at h
  · cases h
  · exact name?_ne_empty h

theorem Node.ne_empty_of_mem_memberNames (h : name ∈ node.memberNames octets) : name ≠ "" := by
  unfold memberNames at h
  split at h
  · obtain ⟨member, -, hname⟩ := List.mem_filterMap.mp h
    exact memberName?_ne_empty hname
  · cases h

-- ---------------------------------------------------------------------------
-- Signatures and documentation
-- ---------------------------------------------------------------------------

theorem Node.name_prefix_signature (h : node.signature? language octets name = some text) :
    name.toList <+: text.toList := by
  obtain ⟨parameters, -, rfl⟩ := Option.map_eq_some_iff.mp h
  rw [String.append_assoc, String.toList_append]
  exact List.prefix_append _ _

def IsDocumentation (text : String) : Prop := text ≠ "" ∧ IsTrimmed text.toList

theorem isDocumentation_of_nonEmpty (hcs : IsTrimmed cs) (h : nonEmpty? cs = some text) :
    IsDocumentation text := by
  refine ⟨nonEmpty?_ne_empty h, ?_⟩
  obtain ⟨-, rfl⟩ := nonEmpty?_eq_some.mp h
  rwa [String.toList_ofList]

theorem Node.bodyDocumentation?_clean (h : node.bodyDocumentation? octets = some text) :
    IsDocumentation text := by
  obtain ⟨string, -, htext⟩ := Option.bind_eq_some_iff.mp h
  exact isDocumentation_of_nonEmpty (Text.isTrimmed_trim _) htext

theorem Node.commentDocumentation?_clean (h : node.commentDocumentation? octets = some text) :
    IsDocumentation text := by
  refine isDocumentation_of_nonEmpty (IsTrimmed.intercalate _ fun line hm => ?_) h
  obtain ⟨hm, hline⟩ := List.mem_filter.mp hm
  obtain ⟨written, -, rfl⟩ := List.mem_map.mp hm
  exact ⟨Text.isTrimmed_trim _, by simpa using hline⟩

theorem Node.documentation?_clean
    (h : node.documentation? language octets previous = some text) : IsDocumentation text := by
  unfold documentation? at h
  split at h
  · exact bodyDocumentation?_clean h
  · obtain ⟨comment, -, htext⟩ := Option.bind_eq_some_iff.mp h
    exact commentDocumentation?_clean htext

-- ---------------------------------------------------------------------------
-- Declarations in a tree
-- ---------------------------------------------------------------------------

def Node.candidates (language : Language) (node : Node) : List Node :=
  if language.role? node.type = some .wraps then node.children else [node]

theorem Node.definitions_eq :
    node.definitions language octets previous =
      (node.candidates language).filterMap (declared? language octets previous) := by
  unfold definitions candidates
  rcases hrole : language.role? node.type with _ | kind | _
  · simp [declared?, hrole]
  · rcases hd : node.definition? language octets previous kind <;> simp [declared?, hrole, hd]
  · simp

theorem Node.declared?_eq_some :
    node.declared? language octets previous = some d ↔
      ∃ kind, language.role? node.type = some (.declares kind) ∧
        node.definition? language octets previous kind = some d := by
  unfold declared?
  rcases language.role? node.type with _ | kind | _ <;> simp

/-- A definition is declared by a node that a child of the root puts forward. -/
theorem exists_declared (h : d ∈ definitionsAfter language octets previous tree) :
    ∃ child ∈ tree, ∃ node ∈ child.candidates language, ∃ previous,
      node.declared? language octets previous = some d := by
  induction tree generalizing previous with
  | nil => cases h
  | cons child rest ih =>
    rcases List.mem_append.mp h with h | h
    · rw [Node.definitions_eq] at h
      obtain ⟨node, hnode, hdeclared⟩ := List.mem_filterMap.mp h
      exact ⟨child, List.mem_cons_self, node, hnode, previous, hdeclared⟩
    · obtain ⟨other, hother, hnode⟩ := ih h
      exact ⟨other, List.mem_cons_of_mem child hother, hnode⟩

-- ---------------------------------------------------------------------------
-- Well-formed definitions
-- ---------------------------------------------------------------------------

def IsOutermost (language : Language) (tree : List Node) (node : Node) : Prop :=
  node ∈ tree ∨ ∃ wrapper ∈ tree, language.role? wrapper.type = some .wraps ∧
    node ∈ wrapper.children

/-- What every definition of a tree satisfies. -/
structure Definition.IsWellFormed (language : Language) (tree : List Node) (d : Definition) :
    Prop where
  name : d.name ≠ ""
  kind : d.kind ∈ ["function", "class", "interface", "type", "variable"]
  line : ∃ node, IsOutermost language tree node ∧ d.line = node.row + 1
  signature : ∀ text, d.signature = some text → d.name.toList <+: text.toList
  docstring : ∀ text, d.docstring = some text → IsDocumentation text
  members : ∀ member ∈ d.members, member ≠ ""
  memberless : d.kind ≠ "class" → d.kind ≠ "interface" → d.members = []

theorem isOutermost_of_candidate {child : Node} (hchild : child ∈ tree)
    (h : node ∈ child.candidates language) : IsOutermost language tree node := by
  unfold Node.candidates at h
  split at h
  · next hwraps => exact .inr ⟨child, hchild, hwraps, h⟩
  · exact .inl (List.mem_singleton.mp h ▸ hchild)

theorem kind_text_mem (kind : Kind) :
    kind.text ∈ ["function", "class", "interface", "type", "variable"] := by
  cases kind <;> decide

theorem isWellFormed_of_definition {kind : Kind} (hnode : IsOutermost language tree node)
    (h : node.definition? language octets previous kind = some d) :
    d.IsWellFormed language tree := by
  obtain ⟨name, hname, rfl⟩ := Option.map_eq_some_iff.mp h
  refine ⟨node.name?_ne_empty hname, kind_text_mem kind, ⟨node, hnode, rfl⟩,
    fun _ => Node.name_prefix_signature, fun _ => Node.documentation?_clean, fun member hm => ?_,
    fun hclass hinterface => ?_⟩
  · dsimp only at hm
    split at hm
    · exact Node.ne_empty_of_mem_memberNames hm
    · cases hm
  · cases kind with
    | classLike => exact absurd rfl hclass
    | interface => exact absurd rfl hinterface
    | function | typeName | variableName => rfl

/-- Every definition of every tree is well formed. -/
theorem definitionsOf_wellFormed (h : d ∈ definitionsOf language octets tree) :
    d.IsWellFormed language tree := by
  obtain ⟨child, hchild, node, hnode, previous, hdeclared⟩ := exists_declared h
  obtain ⟨kind, -, hdefinition⟩ := Node.declared?_eq_some.mp hdeclared
  exact isWellFormed_of_definition (isOutermost_of_candidate hchild hnode) hdefinition

def decoratedOctets : List UInt8 :=
  Text.Utf8.encode "@d\nclass A:\n '" ++ [0xFF] ++ Text.Utf8.encode "'\n def m(self): pass"

def decoratedTree : List Node :=
  [⟨"decorated_definition", true, 0, 35, 0,
    [⟨"decorator", true, 0, 2, 0, []⟩,
      ⟨"class_definition", true, 3, 35, 1,
        [⟨"class", false, 3, 8, 1, []⟩, ⟨"identifier", true, 9, 10, 1, []⟩,
          ⟨":", false, 10, 11, 1, []⟩,
          ⟨"block", true, 13, 35, 2,
            [⟨"expression_statement", true, 13, 16, 2, [⟨"string", true, 13, 16, 2, []⟩]⟩,
              ⟨"function_definition", true, 18, 35, 3,
                [⟨"def", false, 18, 21, 3, []⟩, ⟨"identifier", true, 22, 23, 3, []⟩,
                  ⟨"parameters", true, 23, 29, 3, []⟩]⟩]⟩]⟩]⟩]

def decoratedClass : Definition :=
  { name := "A", kind := "class", line := 2, signature := none, docstring := some "\uFFFD",
    members := ["m"] }

theorem definitionsOf_wellFormed_decorated :
    decoratedClass ∈ definitionsOf .python decoratedOctets decoratedTree ∧
      decoratedClass.IsWellFormed .python decoratedTree := by
  have hm : decoratedClass ∈ definitionsOf .python decoratedOctets decoratedTree := by
    decide +kernel
  exact ⟨hm, definitionsOf_wellFormed hm⟩

end TreeManifest.Source
