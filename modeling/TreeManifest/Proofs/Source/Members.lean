import TreeManifest.Proofs.Source.Places

/-!
# Members of classes and interfaces

The members that are told of a class or an interface are those of its body, in order: each node of the
body that is neither a comment nor an expression, if the grammar names it and it has a name
(`ListsMembers`). Bodies of interfaces and enumerations have types of their own in the grammars of
TypeScript and Java. These are not looked into, so nothing is told of what they hold
(`definition_members`).
-/

namespace TreeManifest.Source

variable {language : Language} {octets : List UInt8} {tree : List Node} {node body : Node}
  {name : String} {names : List String}

-- ---------------------------------------------------------------------------
-- Names of members
-- ---------------------------------------------------------------------------

/-- What a member is called: by its own name, or by that of the first definition in it if it is a
decorated one. -/
inductive IsCalled (octets : List UInt8) : Node → String → Prop
  | plain {member : Node} {name : String} (htype : member.type ≠ "decorated_definition")
      (hname : member.name? octets = some name) : IsCalled octets member name
  | decorated {member target : Node} {front back : List Node} {name : String}
      (htype : member.type = "decorated_definition")
      (hchildren : member.children = front ++ target :: back)
      (hfront : ∀ other ∈ front, other.isDefinition = false)
      (htarget : target.isDefinition = true) (hname : target.name? octets = some name) :
      IsCalled octets member name
  | bare {member : Node} {name : String} (htype : member.type = "decorated_definition")
      (hchildren : ∀ child ∈ member.children, child.isDefinition = false)
      (hname : member.name? octets = some name) : IsCalled octets member name

theorem isCalled_iff : IsCalled octets node name ↔ node.memberTarget.name? octets = some name := by
  unfold Node.memberTarget
  constructor
  · intro h
    cases h with
    | plain htype hname => rwa [if_neg htype]
    | decorated htype hchildren hfront htarget hname =>
      have hfound : node.children.find? Node.isDefinition = some _ :=
        List.find?_eq_some_iff_append.mpr ⟨htarget, _, _, hchildren, by simpa using hfront⟩
      rwa [if_pos htype, hfound, Option.getD_some]
    | bare htype hchildren hname =>
      have hmissing : node.children.find? Node.isDefinition = none :=
        List.find?_eq_none.mpr (by simpa using hchildren)
      rwa [if_pos htype, hmissing, Option.getD_none]
  · intro h
    split at h
    · next htype =>
      rcases hfound : node.children.find? Node.isDefinition with _ | target
      · rw [hfound, Option.getD_none] at h
        exact .bare htype (by simpa using List.find?_eq_none.mp hfound) h
      · rw [hfound, Option.getD_some] at h
        obtain ⟨htarget, front, back, hchildren, hfront⟩ := List.find?_eq_some_iff_append.mp hfound
        exact .decorated htype hchildren (by simpa using hfront) htarget h
    · next htype => exact .plain htype h

/-- The members among nodes are told in order, each once, and nothing else is. -/
inductive ListsMembers (octets : List UInt8) : List Node → List String → Prop
  | nil : ListsMembers octets [] []
  | named {node : Node} {rest : List Node} {name : String} {names : List String}
      (hmember : node.IsMember) (hname : IsCalled octets node name)
      (hrest : ListsMembers octets rest names) : ListsMembers octets (node :: rest) (name :: names)
  | skipped {node : Node} {rest : List Node} {names : List String}
      (hnode : node.IsMember → ∀ name, ¬IsCalled octets node name)
      (hrest : ListsMembers octets rest names) : ListsMembers octets (node :: rest) names

theorem memberName?_eq_some :
    node.memberName? octets = some name ↔ node.IsMember ∧ IsCalled octets node name := by
  by_cases hmember : node.IsMember
  · rw [Node.memberName?_of_isMember hmember, isCalled_iff]
    simp [hmember]
  · rw [Node.memberName?_of_not_isMember hmember]
    simp [hmember]

theorem listsMembers_iff {nodes : List Node} :
    ListsMembers octets nodes names ↔ nodes.filterMap (Node.memberName? octets) = names := by
  constructor
  · intro h
    induction h with
    | nil => rfl
    | named hmember hname _ ih =>
      rw [List.filterMap_cons_some (memberName?_eq_some.mpr ⟨hmember, hname⟩), ih]
    | @skipped node rest names hnode _ ih =>
      have hnone : node.memberName? octets = none := Option.eq_none_iff_forall_ne_some.mpr
        fun name h => hnode (memberName?_eq_some.mp h).1 name (memberName?_eq_some.mp h).2
      rw [List.filterMap_cons_none hnone, ih]
  · rintro rfl
    induction nodes with
    | nil => exact .nil
    | cons node rest ih =>
      rcases hname : node.memberName? octets with _ | name
      · rw [List.filterMap_cons_none hname]
        refine .skipped (fun hmember name hcalled => ?_) ih
        rw [memberName?_eq_some.mpr ⟨hmember, hcalled⟩] at hname
        cases hname
      · rw [List.filterMap_cons_some hname]
        obtain ⟨hmember, hcalled⟩ := memberName?_eq_some.mp hname
        exact .named hmember hcalled ih

-- ---------------------------------------------------------------------------
-- Bodies
-- ---------------------------------------------------------------------------

def Language.bodies (language : Language) : List String :=
  if language ∈ [.typescript, .tsx, .java] then bodyTypes ++ ["interface_body", "enum_body"]
  else bodyTypes

def Language.bodyOf? (language : Language) (node : Node) : Option Node :=
  node.children.find? fun child => language.bodies.contains child.type

theorem Language.bodyTypes_subset (language : Language) : bodyTypes ⊆ language.bodies := by
  unfold bodies
  split
  · exact List.subset_append_left _ _
  · exact List.Subset.refl _

theorem body?_of_bodyOf? (h : language.bodyOf? node = some body) (hbody : body.type ∈ bodyTypes) :
    node.body? = some body := by
  obtain ⟨-, front, back, hchildren, hfront⟩ := List.find?_eq_some_iff_append.mp h
  refine List.find?_eq_some_iff_append.mpr ⟨by simpa using hbody, front, back, hchildren, ?_⟩
  intro other hm
  have hother := hfront other hm
  simp only [List.contains_eq_mem, Bool.not_eq_true', decide_eq_false_iff_not] at hother ⊢
  exact fun hin => hother (language.bodyTypes_subset hin)

theorem body?_eq_none (h : ∀ child ∈ node.children, child.type ∉ bodyTypes) : node.body? = none :=
  List.find?_eq_none.mpr fun child hm => by simpa using h child hm

/-- The members of a class or an interface are all told, in the order of its body, unless its body is
of a type that is not looked into. -/
theorem definition_members {place : Place} {kind : Kind} (hplace : place ∈ places language tree)
    (hrole : language.role? place.node.type = some (.declares kind))
    (hkind : kind ∈ [.classLike, .interface]) (hname : place.node.name? octets = some name) :
    ∃ d ∈ definitionsOf language octets tree, place.definition? language octets = some d ∧
      (∀ body, language.bodyOf? place.node = some body → body.type ∈ bodyTypes →
        ListsMembers octets body.children d.members) ∧
      ((∀ child ∈ place.node.children, child.type ∉ bodyTypes) → d.members = []) := by
  have hmembers : kind.hasMembers = true := by
    simp only [List.mem_cons, List.not_mem_nil, or_false] at hkind
    rcases hkind with rfl | rfl <;> rfl
  obtain ⟨d, hd, -, -, hlist⟩ := place.exists_definition hrole hname
  rw [if_pos hmembers] at hlist
  refine ⟨d, Place.mem_definitionsOf hplace hd, hd, fun body hbody htype => ?_, fun hnone => ?_⟩
  · rw [hlist, Node.memberNames_of_body (body?_of_bodyOf? hbody htype)]
    exact listsMembers_iff.mpr rfl
  · rw [hlist, Node.memberNames_of_bodiless (body?_eq_none hnone)]

def memberOctets : List UInt8 :=
  Text.Utf8.encode "class A:\n \"d\"\n @p\n def m(self): pass\n # c\n def n(self): pass"

def memberBody : Node :=
  ⟨"block", true, 10, 60, 1,
    [⟨"expression_statement", true, 10, 13, 1, [⟨"string", true, 10, 13, 1, []⟩]⟩,
      ⟨"decorated_definition", true, 15, 36, 2,
        [⟨"decorator", true, 15, 17, 2, [⟨"identifier", true, 16, 17, 2, []⟩]⟩,
          ⟨"function_definition", true, 19, 36, 3,
            [⟨"def", false, 19, 22, 3, []⟩, ⟨"identifier", true, 23, 24, 3, []⟩,
              ⟨"parameters", true, 24, 30, 3, []⟩]⟩]⟩,
      ⟨"comment", true, 38, 41, 4, []⟩,
      ⟨"function_definition", true, 43, 60, 5,
        [⟨"def", false, 43, 46, 5, []⟩, ⟨"identifier", true, 47, 48, 5, []⟩,
          ⟨"parameters", true, 48, 54, 5, []⟩]⟩]⟩

def memberClass : Node :=
  ⟨"class_definition", true, 0, 60, 0,
    [⟨"class", false, 0, 5, 0, []⟩, ⟨"identifier", true, 6, 7, 0, []⟩,
      ⟨":", false, 7, 8, 0, []⟩, memberBody]⟩

def interfaceOctets : List UInt8 := Text.Utf8.encode "interface I \x7b a: string \x7d"

def interfaceBody : Node :=
  ⟨"interface_body", true, 12, 25, 0,
    [⟨"\x7b", false, 12, 13, 0, []⟩,
      ⟨"property_signature", true, 14, 23, 0, [⟨"property_identifier", true, 14, 15, 0, []⟩]⟩,
      ⟨"\x7d", false, 24, 25, 0, []⟩]⟩

def memberInterface : Node :=
  ⟨"interface_declaration", true, 0, 25, 0,
    [⟨"interface", false, 0, 9, 0, []⟩, ⟨"type_identifier", true, 10, 11, 0, []⟩, interfaceBody]⟩

/-- The members of the class are told, and those of the interface are not. -/
theorem definition_members_classAndInterface :
    (definitionsOf .python memberOctets [memberClass]).map (·.members) = [["m", "n"]] ∧
      (∃ d ∈ definitionsOf .python memberOctets [memberClass],
        ListsMembers memberOctets memberBody.children d.members) ∧
      ∃ d ∈ definitionsOf .typescript interfaceOctets [memberInterface],
        d.members = [] ∧ ¬ListsMembers interfaceOctets interfaceBody.children d.members := by
  have hclass : ⟨none, memberClass⟩ ∈ places .python [memberClass] := List.mem_singleton.mpr rfl
  have hinterface : ⟨none, memberInterface⟩ ∈ places .typescript [memberInterface] :=
    List.mem_singleton.mpr rfl
  have hclassRole : Language.role? .python memberClass.type = some (.declares .classLike) := by
    decide
  have hinterfaceRole :
      Language.role? .typescript memberInterface.type = some (.declares .interface) := by decide
  have hclassName : memberClass.name? memberOctets = some "A" := by decide +kernel
  have hinterfaceName : memberInterface.name? interfaceOctets = some "I" := by decide +kernel
  obtain ⟨d, hd, -, htold, -⟩ := definition_members hclass hclassRole (by decide) hclassName
  obtain ⟨e, he, -, -, hnone⟩ :=
    definition_members hinterface hinterfaceRole (by decide) hinterfaceName
  have hempty : e.members = [] := hnone (by simp [memberInterface, interfaceBody, bodyTypes])
  refine ⟨by decide +kernel, ⟨d, hd, htold memberBody rfl (by decide)⟩, e, he, hempty, ?_⟩
  rw [listsMembers_iff, hempty]
  decide +kernel

end TreeManifest.Source
