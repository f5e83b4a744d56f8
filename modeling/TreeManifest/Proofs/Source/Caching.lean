import TreeManifest.Proofs.Source.Accounts

/-!
# Parsers that are kept

Calls hand the parsers that they obtain on to the calls after them. That shows in nothing that a call
gives as long as the same grammars can be had: each answer is the one of a call without any parser
(`answers_kept`). Where what can be had changes from call to call, a language can be parsed if its
grammar can be had or an earlier call obtained a parser for it, and the answer depends on nothing
else that happened before. A parser is obtained for the first file of a language that is looked
into while the grammar is there; a grammar that is missing is asked for again.
-/

namespace TreeManifest.Source

variable {fs : FileSystem} {directory : Location} {grammars : Grammars} {parsers : Parsers}
  {source : SourceFile} {sources : List SourceFile} {language : Language}

-- ---------------------------------------------------------------------------
-- Without kept parsers
-- ---------------------------------------------------------------------------

/-- What the parsers of the languages give. A parser gives the same whenever it was obtained. -/
abbrev Parse := Language → List UInt8 → Option (List Node)

def plainFile (parsable : Language → Bool) (parse : Parse) (fs : FileSystem) (directory : Location)
    (source : SourceFile) : Report (Option FileDefinitions) :=
  if parsable source.language then
    match parseFile ⟨[], [], parse⟩ fs (Path.ofLocation (directory ++ [source.name])) source with
    | .ok file => ⟨[], .ok file⟩
    | .error event => ⟨[event], .ok none⟩
  else ⟨[.grammarUnavailable source.language.name], .ok none⟩

def plainFiles (parsable : Language → Bool) (parse : Parse) (fs : FileSystem)
    (directory : Location) : List SourceFile → Report (List FileDefinitions)
  | [] => pure []
  | source :: sources => do
    let file ← plainFile parsable parse fs directory source
    let files ← plainFiles parsable parse fs directory sources
    return file.toList ++ files

def plainExtract (parsable : Language → Bool) (parse : Parse) (limit : Int) (fs : FileSystem)
    (p : Path) : Report DefinitionSet := do
  let directory ← Report.ofExcept (fs.resolve p)
  Report.ofExcept (Listing.directoryAt fs directory)
  let sources ← Report.ofExcept (sourcesIn fs directory)
  let kept := keptCount sources.length limit
  let files ← plainFiles parsable parse fs directory (sources.take kept)
  return ⟨(Path.ofLocation directory).toString, files, (sources.drop kept).map (·.name)⟩

theorem extractFile_plain :
    plainFile (hasParser grammars parsers) grammars.parse fs directory source =
      ⟨(extractFile grammars fs directory parsers source).events,
        .ok (extractFile grammars fs directory parsers source).file⟩ := by
  unfold plainFile extractFile hasParser
  have hparse : parseFile ⟨[], [], grammars.parse⟩ fs
      (Path.ofLocation (directory ++ [source.name])) source =
      parseFile grammars fs (Path.ofLocation (directory ++ [source.name])) source := rfl
  rw [hparse]
  split
  · rcases parseFile grammars fs (Path.ofLocation (directory ++ [source.name])) source <;> rfl
  · rfl

/-- Files give with kept parsers what they give without, and leave the parsers of their languages
that are on offer. The induction hands the parsers on; what carries it is that a file leaves the
same languages parsable. -/
theorem extractFiles_plain (sources : List SourceFile) :
    ∃ events files after,
      extractFiles grammars fs directory parsers sources = ⟨events, .ok (files, after)⟩ ∧
      plainFiles (hasParser grammars parsers) grammars.parse fs directory sources =
        ⟨events, .ok files⟩ ∧
      ∀ language, language ∈ after ↔ language ∈ parsers ∨
        grammars.offers language = true ∧ ∃ source ∈ sources, source.language = language := by
  induction sources generalizing parsers with
  | nil => exact ⟨[], [], parsers, rfl, rfl, by simp⟩
  | cons source sources ih =>
    obtain ⟨events, files, after, hextract, hplain, hafter⟩ :=
      @ih (extractFile grammars fs directory parsers source).parsers
    have hsame : hasParser grammars (extractFile grammars fs directory parsers source).parsers =
        hasParser grammars parsers := funext fun _ => hasParser_extractFile _
    rw [hsame] at hplain
    refine ⟨(extractFile grammars fs directory parsers source).events ++ events,
      (extractFile grammars fs directory parsers source).file.toList ++ files, after, ?_, ?_,
      fun language => ?_⟩
    · rw [extractFiles, hextract]
      rfl
    · simp only [plainFiles, extractFile_plain, hplain, bind, Report.bind, pure, Report.pure,
        List.append_nil]
    · rw [hafter, mem_parsers_extractFile, or_assoc, eq_comm (a := language),
        and_comm (a := source.language = language)]
      simp only [List.mem_cons, exists_eq_or_imp, and_or_left]

-- ---------------------------------------------------------------------------
-- One call
-- ---------------------------------------------------------------------------

structure Query where
  missingPackages : List String
  missingEntries : List String
  fs : FileSystem
  path : Path
  limit : Int

namespace Query

variable {parse : Parse} {query : Query}

def atHand (parse : Parse) (query : Query) : Grammars :=
  ⟨query.missingPackages, query.missingEntries, parse⟩

def answer (parse : Parse) (parsers : Parsers) (query : Query) : Report DefinitionSet :=
  let report := extract (query.atHand parse) query.limit query.fs parsers query.path
  ⟨report.events, report.result.map Prod.fst⟩

def parsersAfter (parse : Parse) (parsers : Parsers) (query : Query) : Parsers :=
  match (extract (query.atHand parse) query.limit query.fs parsers query.path).result with
  | .ok (_, after) => after
  | .error _ => parsers

def opened (query : Query) : Except Failure (List SourceFile) := do
  let directory ← query.fs.resolve query.path
  Listing.directoryAt query.fs directory
  let sources ← sourcesIn query.fs directory
  return sources.take (keptCount sources.length query.limit)

/-- A call obtains the parser of a language, or finds it there: the grammar is on offer, and the
call looks into a file of the language. -/
def Obtains (parse : Parse) (query : Query) (language : Language) : Prop :=
  (query.atHand parse).offers language = true ∧
    ∃ sources, query.opened = .ok sources ∧ ∃ source ∈ sources, source.language = language

/-- What a call comes to: a failure before the first file, or the set that it gives without kept
parsers and the parsers of what it opened. -/
theorem extract_cases (parse : Parse) (parsers : Parsers) (query : Query) :
    let given := extract (query.atHand parse) query.limit query.fs parsers query.path
    let plain := plainExtract (hasParser (query.atHand parse) parsers) parse query.limit query.fs
      query.path
    (∃ failure, query.opened = .error failure ∧ given = ⟨[], .error failure⟩ ∧
      plain = ⟨[], .error failure⟩) ∨
    ∃ sources events set after, query.opened = .ok sources ∧ given = ⟨events, .ok (set, after)⟩ ∧
      plain = ⟨events, .ok set⟩ ∧
      ∀ language, language ∈ after ↔ language ∈ parsers ∨
        (query.atHand parse).offers language = true ∧
          ∃ source ∈ sources, source.language = language := by
  unfold opened extract plainExtract
  rcases query.fs.resolve query.path with failure | directory
  · exact .inl ⟨failure, rfl, rfl, rfl⟩
  rcases hdirectory : Listing.directoryAt query.fs directory with failure | _
  · left
    simp [bind, Report.bind, Except.bind, Report.ofExcept, hdirectory]
  rcases hsources : sourcesIn query.fs directory with failure | sources
  · left
    simp [bind, Report.bind, Except.bind, Report.ofExcept, hdirectory, hsources]
  right
  obtain ⟨events, files, after, hextract, hplain, hafter⟩ :=
    @extractFiles_plain query.fs directory (query.atHand parse) parsers
      (sources.take (keptCount sources.length query.limit))
  have hparse : (query.atHand parse).parse = parse := rfl
  rw [hparse] at hplain
  refine ⟨_, events, ⟨(Path.ofLocation directory).toString, files,
    (sources.drop (keptCount sources.length query.limit)).map (·.name)⟩, after, ?_, ?_, ?_, hafter⟩
  · simp only [bind, Except.bind, hdirectory, hsources, pure, Except.pure]
  · simp only [bind, Report.bind, Report.ofExcept, hdirectory, hsources, hextract, pure,
      Report.pure, List.nil_append, List.append_nil]
  · simp only [bind, Report.bind, Report.ofExcept, hdirectory, hsources, hplain, pure,
      Report.pure, List.nil_append, List.append_nil]

theorem answer_eq : query.answer parse parsers =
    plainExtract (hasParser (query.atHand parse) parsers) parse query.limit query.fs
      query.path := by
  obtain ⟨failure, -, hgiven, hplain⟩ | ⟨_, _, _, _, -, hgiven, hplain, -⟩ :=
    extract_cases parse parsers query
  all_goals rw [hplain, answer, hgiven]; rfl

theorem mem_parsersAfter : language ∈ query.parsersAfter parse parsers ↔
    language ∈ parsers ∨ query.Obtains parse language := by
  obtain ⟨failure, hopened, hgiven, -⟩ | ⟨sources, _, _, _, hopened, hgiven, -, hafter⟩ :=
    extract_cases parse parsers query
  · simp [parsersAfter, Obtains, hgiven, hopened]
  · simp [parsersAfter, Obtains, hgiven, hopened, hafter]

end Query

-- ---------------------------------------------------------------------------
-- Calls one after the other
-- ---------------------------------------------------------------------------

variable {parse : Parse} {queries before after : List Query} {query : Query}

def answers (parse : Parse) : Parsers → List Query → List (Report DefinitionSet)
  | _, [] => []
  | parsers, query :: queries =>
    query.answer parse parsers :: answers parse (query.parsersAfter parse parsers) queries

def parsersAfterAll (parse : Parse) (parsers : Parsers) (queries : List Query) : Parsers :=
  queries.foldl (fun parsers query => query.parsersAfter parse parsers) parsers

theorem mem_parsersAfterAll : language ∈ parsersAfterAll parse parsers queries ↔
    language ∈ parsers ∨ ∃ query ∈ queries, query.Obtains parse language := by
  induction queries generalizing parsers with
  | nil => simp [parsersAfterAll]
  | cons query queries ih =>
    have hstep : parsersAfterAll parse parsers (query :: queries) =
        parsersAfterAll parse (query.parsersAfter parse parsers) queries := rfl
    rw [hstep, ih, Query.mem_parsersAfter, or_assoc]
    simp only [List.mem_cons, exists_eq_or_imp]

@[simp] theorem length_answers : (answers parse parsers queries).length = queries.length := by
  induction queries generalizing parsers with
  | nil => rfl
  | cons query queries ih => rw [answers, List.length_cons, ih, List.length_cons]

theorem answers_append : answers parse parsers (before ++ after) =
    answers parse parsers before ++ answers parse (parsersAfterAll parse parsers before) after := by
  induction before generalizing parsers with
  | nil => rfl
  | cons query before ih =>
    rw [List.cons_append, answers, ih]
    rfl

theorem getElem?_answers (before after : List Query) (query : Query) :
    (answers parse [] (before ++ query :: after))[before.length]? =
      some (plainExtract (hasParser (query.atHand parse) (parsersAfterAll parse [] before)) parse
        query.limit query.fs query.path) := by
  rw [answers_append, answers, List.getElem?_append_right (by simp), length_answers, Nat.sub_self,
    List.getElem?_cons_zero, Query.answer_eq]

theorem hasParser_parsersAfterAll :
    hasParser (query.atHand parse) (parsersAfterAll parse [] before) language = true ↔
      (query.atHand parse).offers language = true ∨
        ∃ earlier ∈ before, earlier.Obtains parse language := by
  simp only [hasParser, Bool.or_eq_true, List.contains_iff_mem, mem_parsersAfterAll,
    List.not_mem_nil, false_or, or_comm]

theorem Query.answer_of_offers (h : ∀ language ∈ parsers, (query.atHand parse).offers language) :
    query.answer parse parsers = query.answer parse [] := by
  have hsame : hasParser (query.atHand parse) parsers = hasParser (query.atHand parse) [] := by
    funext language
    rw [Bool.eq_iff_iff]
    simp only [hasParser, Bool.or_eq_true, List.contains_iff_mem, List.not_mem_nil, false_or]
    exact ⟨fun hparser => hparser.elim (h language) id, .inr⟩
  rw [answer_eq, answer_eq, hsame]

/-- The invariant of the calls is that only parsers of languages on offer are kept. -/
theorem answers_of_offers {offers : Language → Bool}
    (hoffers : ∀ query ∈ queries, (query.atHand parse).offers = offers)
    (h : ∀ language ∈ parsers, offers language = true) :
    answers parse parsers queries = queries.map (Query.answer parse []) := by
  induction queries generalizing parsers with
  | nil => rfl
  | cons query queries ih =>
    obtain ⟨hquery, hqueries⟩ := List.forall_mem_cons.mp hoffers
    subst hquery
    rw [answers, List.map_cons, Query.answer_of_offers h, ih hqueries]
    intro language hkept
    exact (Query.mem_parsersAfter.mp hkept).elim (h language) And.left

/-- Calls with the same grammars on offer give what each of them gives alone, with the same failures
and events. If what is on offer changes, the files of a language are parsed exactly if its grammar
is on offer now or an earlier call obtained a parser for it, and a call depends on no more of what
was before it. -/
theorem answers_kept (parse : Parse) (queries : List Query) :
    (∀ offers, (∀ query ∈ queries, (query.atHand parse).offers = offers) →
      answers parse [] queries = queries.map (Query.answer parse [])) ∧
    ∀ before query after, queries = before ++ query :: after →
      ∃ parsable : Language → Bool,
        (∀ language, parsable language = true ↔ (query.atHand parse).offers language = true ∨
          ∃ earlier ∈ before, earlier.Obtains parse language) ∧
        (answers parse [] queries)[before.length]? =
          some (plainExtract parsable parse query.limit query.fs query.path) := by
  constructor
  · exact fun offers hoffers => answers_of_offers hoffers (List.forall_mem_nil _)
  · rintro before query after rfl
    exact ⟨_, fun _ => hasParser_parsersAfterAll, getElem?_answers before after query⟩

def linkedQuery (missingPackages : List String) : Query :=
  ⟨missingPackages, [], linkedTree, ⟨.top, ["d"]⟩, 50⟩

/-- The parser for Python of a first call serves the second, for which the grammar is gone. -/
theorem answers_kept_linkedTree :
    let first := linkedQuery ["tree_sitter_go"]
    let second := linkedQuery ["tree_sitter_go", "tree_sitter_python"]
    let calls := answers plainGrammars.parse []
    calls [first, first] = [first, first].map (Query.answer plainGrammars.parse []) ∧
      (second.atHand plainGrammars.parse).offers .python = false ∧
      ∃ parsable : Language → Bool, parsable .python = true ∧ parsable .go = false ∧
        (calls [first, second])[1]? =
          some (plainExtract parsable plainGrammars.parse 50 linkedTree ⟨.top, ["d"]⟩) := by
  intro first second calls
  obtain ⟨hfixed, -⟩ := answers_kept plainGrammars.parse [first, first]
  obtain ⟨-, hchanging⟩ := answers_kept plainGrammars.parse [first, second]
  obtain ⟨parsable, hparsable, hanswer⟩ := hchanging [first] second [] rfl
  have hopened : first.opened = .ok [⟨"a.py", .python⟩, ⟨"b.PY", .python⟩, ⟨"c.go", .go⟩,
      ⟨"y.py", .python⟩, ⟨"z.py", .python⟩] := rfl
  have hobtains : first.Obtains plainGrammars.parse .python :=
    ⟨by decide, _, hopened, ⟨"a.py", .python⟩, List.mem_cons_self, rfl⟩
  refine ⟨hfixed (first.atHand plainGrammars.parse).offers (by simp), by decide, parsable, ?_, ?_,
    hanswer⟩
  · exact (hparsable .python).mpr (.inr ⟨first, List.mem_singleton_self first, hobtains⟩)
  · rw [Bool.eq_false_iff, ne_eq, hparsable]
    rintro (hoffers | ⟨earlier, hearlier, hoffers, -⟩)
    · exact absurd hoffers (by decide)
    · rw [List.mem_singleton.mp hearlier] at hoffers
      exact absurd hoffers (by decide)

end TreeManifest.Source
