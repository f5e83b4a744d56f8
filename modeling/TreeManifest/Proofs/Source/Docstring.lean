import TreeManifest.Proofs.Source.Places

/-!
# Documentation in the body of a declaration

A declaration whose body starts with a string is documented by what the string holds between its
quotes, without the blanks around that. The quotes are not told apart from the text, though: all
that stand at its ends go as well. So the text is taken as it is exactly if it neither begins nor
ends with a quote of either kind (`definition_docstring`).
-/

namespace TreeManifest.Source

variable {octets : List UInt8} {tree : List Node} {node string block : Node} {name : String}
  {cs ds body quotes front back : List Char}

-- ---------------------------------------------------------------------------
-- Quotes
-- ---------------------------------------------------------------------------

def isQuote (c : Char) : Bool := c = '"' || c = '\''

def quoteStyles : List (List Char) :=
  ["\"".toList, "'".toList, "\"\"\"".toList, "'''".toList]

structure HasPlainEnds (cs : List Char) : Prop where
  head : ∀ c ∈ cs.head?, isQuote c = false
  last : ∀ c ∈ cs.getLast?, isQuote c = false

theorem isQuote_of_style (h : quotes ∈ quoteStyles) : ∀ c ∈ quotes, isQuote c = true := by
  have hall : quoteStyles.all (fun quotes => quotes.all isQuote) = true := by decide
  exact List.all_eq_true.mp (List.all_eq_true.mp hall quotes h)

/-- Quotes are no blanks, so trimming loses none of them. -/
theorem countP_trim (cs : List Char) : (Text.trim cs).countP isQuote = cs.countP isQuote := by
  obtain ⟨front, back, hparts, hfront, hback, -⟩ := Text.exists_margins Text.isBlank cs
  have hnone : ∀ ds : List Char, (∀ c ∈ ds, Text.isBlank c = true) → ds.countP isQuote = 0 := by
    refine fun ds hds => List.countP_eq_zero.mpr fun c hc hquote => ?_
    simp only [isQuote, Bool.or_eq_true, decide_eq_true_eq] at hquote
    rcases hquote with rfl | rfl <;> exact absurd (hds _ hc) (by decide)
  conv_rhs => rw [hparts]
  rw [List.countP_append, List.countP_append, hnone front hfront, hnone back hback, Nat.zero_add,
    Nat.add_zero, Text.trim]

theorem nonEmpty?_inj : nonEmpty? cs = nonEmpty? ds ↔ cs = ds := by
  unfold nonEmpty?
  split <;> split <;> simp_all [String.ofList_inj]

/-- A text is the same with and without the quotes at its ends exactly if it has none there. -/
theorem trim_trimWhile_eq_iff :
    Text.trim (Text.trimWhile isQuote cs) = Text.trim cs ↔ HasPlainEnds cs := by
  obtain ⟨front, back, hparts, hfront, hback, hhead, hlast⟩ := Text.exists_margins isQuote cs
  constructor
  · intro h
    -- As many quotes are left as there were, so none was cut off.
    have hcount : cs.countP isQuote = (Text.trimWhile isQuote cs).countP isQuote := by
      rw [← countP_trim cs, ← h, countP_trim]
    conv_lhs at hcount => rw [hparts]
    rw [List.countP_append, List.countP_append, List.countP_eq_length.mpr hfront,
      List.countP_eq_length.mpr hback] at hcount
    have hnofront : front = [] := List.length_eq_zero_iff.mp (by omega)
    have hnoback : back = [] := List.length_eq_zero_iff.mp (by omega)
    rw [hnofront, hnoback, List.nil_append, List.append_nil] at hparts
    rw [hparts]
    exact ⟨hhead, hlast⟩
  · intro h
    rw [Text.trimWhile_eq_self h.head h.last]

-- ---------------------------------------------------------------------------
-- Strings in bodies
-- ---------------------------------------------------------------------------

/-- A block starts with a string: its first statement is an expression, and the string is the first
one in that. -/
inductive OpensWith (string block : Node) : Prop
  | intro {statement : Node} {rest front back : List Node}
      (hblock : block.children = statement :: rest)
      (hstatement : statement.type = "expression_statement")
      (hparts : statement.children = front ++ string :: back) (hstring : string.type = "string")
      (hfront : ∀ part ∈ front, part.type ≠ "string") : OpensWith string block

/-- The body of a declaration starts with a string: a block does, and no block before it. -/
inductive StartsWith (string node : Node) : Prop
  | intro {block : Node} {front back : List Node}
      (hchildren : node.children = front ++ block :: back) (hblock : block.type = "block")
      (hopens : OpensWith string block)
      (hfront : ∀ other ∈ front, other.type = "block" → ∀ text, ¬OpensWith text other) :
      StartsWith string node

theorem leadingString?_eq_some : block.leadingString? = some string ↔ OpensWith string block := by
  unfold Node.leadingString?
  constructor
  · intro h
    split at h
    · cases h
    · next statement rest hblock =>
      split at h
      · next hstatement =>
        obtain ⟨hstring, front, back, hparts, hfront⟩ := List.find?_eq_some_iff_append.mp h
        exact .intro hblock hstatement hparts (by simpa using hstring) (by simpa using hfront)
      · cases h
  · rintro ⟨hblock, hstatement, hparts, hstring, hfront⟩
    rw [hblock]
    simp only [hstatement, if_true]
    exact List.find?_eq_some_iff_append.mpr
      ⟨by simpa using hstring, _, _, hparts, by simpa using hfront⟩

theorem StartsWith.leadingString? (h : StartsWith string node) :
    (node.children.filter fun child => child.type = "block").findSome? Node.leadingString? =
      some string := by
  obtain @⟨block, front, back, hchildren, hblock, hopens, hfront⟩ := h
  have hnone : ∀ other ∈ front.filter fun child => child.type = "block",
      other.leadingString? = none := by
    intro other hm
    obtain ⟨hm, htype⟩ := List.mem_filter.mp hm
    refine Option.eq_none_iff_forall_ne_some.mpr fun text htext => ?_
    exact hfront other hm (by simpa using htype) text (leadingString?_eq_some.mp htext)
  rw [hchildren, List.filter_append, List.filter_cons_of_pos (by simpa using hblock),
    List.findSome?_append, List.findSome?_eq_none_iff.mpr hnone, Option.none_or,
    List.findSome?_cons, leadingString?_eq_some.mpr hopens]

theorem bodyDocumentation?_quoted (hstarts : StartsWith string node)
    (hquotes : quotes ∈ quoteStyles) (htext : string.chars octets = quotes ++ body ++ quotes) :
    node.bodyDocumentation? octets = nonEmpty? (Text.trim (Text.trimWhile isQuote body)) := by
  have hquote := isQuote_of_style hquotes
  unfold Node.bodyDocumentation?
  simp only [hstarts.leadingString?, Option.bind_some, htext]
  rw [← Text.trimWhile_append hquote hquote]
  rfl

/-- The documentation of a function or a class whose body starts with a quoted text: what is left of
the text without the quotes at its ends, which is the text itself if it has none there and never
otherwise. -/
theorem definition_docstring {place : Place} {kind : Kind} (hplace : place ∈ places .python tree)
    (hrole : Language.role? .python place.node.type = some (.declares kind))
    (hname : place.node.name? octets = some name) (hstarts : StartsWith string place.node)
    (hquotes : quotes ∈ quoteStyles) (htext : string.chars octets = quotes ++ body ++ quotes) :
    ∃ d ∈ definitionsOf .python octets tree, place.definition? .python octets = some d ∧
      (d.docstring = nonEmpty? (Text.trim body) ↔ HasPlainEnds body) ∧
      ∃ front kept back, body = front ++ kept ++ back ∧ (∀ c ∈ front ++ back, isQuote c = true) ∧
        HasPlainEnds kept ∧ d.docstring = nonEmpty? (Text.trim kept) := by
  obtain ⟨d, hd⟩ : ∃ d, place.definition? .python octets = some d :=
    (place.exists_definition hrole hname).imp fun _ h => h.1
  have hdocstring : d.docstring = nonEmpty? (Text.trim (Text.trimWhile isQuote body)) := by
    rw [Place.definition?_eq hrole, Node.definition?, hname, Option.map_some,
      Option.some.injEq] at hd
    rw [← hd, ← bodyDocumentation?_quoted hstarts hquotes htext]
    rfl
  obtain ⟨front, back, hparts, hfront, hback, hhead, hlast⟩ := Text.exists_margins isQuote body
  refine ⟨d, Place.mem_definitionsOf hplace hd, hd, ?_, front, _, back, hparts, ?_, ⟨hhead, hlast⟩,
    hdocstring⟩
  · rw [hdocstring, nonEmpty?_inj, trim_trimWhile_eq_iff]
  · exact fun c hc => (List.mem_append.mp hc).elim (hfront c) (hback c)

def quotedOctets : List UInt8 :=
  Text.Utf8.encode "@d\ndef f():\n \"\"\"say 'hi'\"\"\"\nclass A:\n 'a \"b\" c'"

def quotedBlock (string : Node) : Node :=
  ⟨"block", true, string.start, string.stop, string.row,
    [⟨"expression_statement", true, string.start, string.stop, string.row, [string]⟩]⟩

def endingQuote : Node := ⟨"string", true, 13, 27, 2, []⟩

def innerQuotes : Node := ⟨"string", true, 38, 47, 4, []⟩

def quotedFunction : Node :=
  ⟨"function_definition", true, 3, 27, 1,
    [⟨"def", false, 3, 6, 1, []⟩, ⟨"identifier", true, 7, 8, 1, []⟩,
      ⟨"parameters", true, 8, 10, 1, []⟩, ⟨":", false, 10, 11, 1, []⟩, quotedBlock endingQuote]⟩

def quotedClass : Node :=
  ⟨"class_definition", true, 28, 47, 3,
    [⟨"class", false, 28, 33, 3, []⟩, ⟨"identifier", true, 34, 35, 3, []⟩,
      ⟨":", false, 35, 36, 3, []⟩, quotedBlock innerQuotes]⟩

def quotedTree : List Node :=
  [⟨"decorated_definition", true, 0, 27, 0, [⟨"decorator", true, 0, 2, 0, []⟩, quotedFunction]⟩,
    quotedClass]

theorem startsWith_quotedBlock (front : List Node)
    (hchildren : node.children = front ++ [quotedBlock string]) (hstring : string.type = "string")
    (hfront : ∀ other ∈ front, other.type ≠ "block") : StartsWith string node :=
  .intro hchildren rfl (.intro rfl rfl (List.nil_append _).symm hstring (List.forall_mem_nil _))
    fun other hm htype => absurd htype (hfront other hm)

/-- The function loses the quote at the end of its text; the class keeps those within its text. -/
theorem definition_docstring_quotedTree :
    (∃ d ∈ definitionsOf .python quotedOctets quotedTree,
      d.name = "f" ∧ d.docstring = some "say 'hi" ∧ d.docstring ≠ some "say 'hi'") ∧
    ∃ d ∈ definitionsOf .python quotedOctets quotedTree, d.docstring = some "a \"b\" c" := by
  have hfunction : ⟨none, quotedFunction⟩ ∈ places .python quotedTree :=
    List.mem_cons_of_mem _ List.mem_cons_self
  have hfunctionRole :
      Language.role? .python quotedFunction.type = some (.declares .function) := by decide
  have hfunctionName : quotedFunction.name? quotedOctets = some "f" := by decide +kernel
  have hfunctionStarts : StartsWith endingQuote quotedFunction :=
    startsWith_quotedBlock [_, _, _, _] rfl rfl (by simp)
  have hfunctionText : endingQuote.chars quotedOctets =
      "\"\"\"".toList ++ "say 'hi'".toList ++ "\"\"\"".toList := by decide +kernel
  have hclass : ⟨some _, quotedClass⟩ ∈ places .python quotedTree :=
    List.mem_cons_of_mem _ (List.mem_cons_of_mem _ List.mem_cons_self)
  have hclassRole : Language.role? .python quotedClass.type = some (.declares .classLike) := by
    decide
  have hclassName : quotedClass.name? quotedOctets = some "A" := by decide +kernel
  have hclassStarts : StartsWith innerQuotes quotedClass :=
    startsWith_quotedBlock [_, _, _] rfl rfl (by simp)
  have hclassText : innerQuotes.chars quotedOctets =
      "'".toList ++ "a \"b\" c".toList ++ "'".toList := by decide +kernel
  obtain ⟨d, hd, hdefinition, htaken, -⟩ := definition_docstring hfunction hfunctionRole
    hfunctionName hfunctionStarts (by decide) hfunctionText
  obtain ⟨e, he, -, htaken', -⟩ := definition_docstring hclass hclassRole hclassName hclassStarts
    (by decide) hclassText
  have hread : ((Place.mk none quotedFunction).definition? .python quotedOctets).map
      (fun d => (d.name, d.docstring)) = some ("f", some "say 'hi") := by decide +kernel
  rw [hdefinition, Option.map_some, Option.some.injEq, Prod.mk.injEq] at hread
  have hplain : HasPlainEnds "a \"b\" c".toList :=
    ⟨fun _ h => Option.some.inj h ▸ rfl, fun _ h => Option.some.inj h ▸ rfl⟩
  refine ⟨⟨d, hd, hread.1, hread.2, fun h => ?_⟩, e, he, htaken'.mpr hplain⟩
  have hends := (htaken.mp h).last
  exact absurd (hends '\'' rfl) (by decide)

end TreeManifest.Source
