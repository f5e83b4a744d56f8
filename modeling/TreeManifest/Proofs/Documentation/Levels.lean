import TreeManifest.Proofs.Collection.Inner
import TreeManifest.Proofs.Documentation.Disclosure
import TreeManifest.Proofs.Documentation.Independence

/-!
# Runs on two levels

A run asks for its first-level directories in order, and for each of them only if definitions can
be looked for there (`documentDirectories_asks`). So a run on such a directory itself asks for it as
its root (`run_asks_root`), and it says of the directory what the run on the root above says
(`run_levels_agree`).
-/

namespace TreeManifest.Documentation

variable {σ : Type} {plan : Plan} {client : Client σ} {grammars : Source.Grammars} {limit : Int}
  {fs : FileSystem} {s : Session σ} {analysis : Mapping String String} {root directory : Path}
  {directories : List Path}

def Searchable (fs : FileSystem) (directory : Path) : Prop :=
  ∃ location, fs.resolve directory = .ok location ∧ Listing.directoryAt fs location = .ok () ∧
    ∃ sources, Source.sourcesIn fs location = .ok sources

theorem parsing_searchable {parsers : Source.Parsers} :
    (∃ found, (Extractor.parsing grammars limit fs parsers directory).result = .ok found) ↔
      Searchable fs directory := by
  constructor
  · rintro ⟨⟨definitions, after⟩, hx⟩
    obtain ⟨set, hs, -⟩ := Extractor.parsing_eq_ok.mp hx
    exact Source.extract_ok.mp ⟨_, hs⟩
  · intro h
    obtain ⟨⟨set, after⟩, hs⟩ : ∃ found,
        (Source.extract grammars limit fs parsers directory).result = .ok found :=
      Source.extract_ok.mpr h
    exact ⟨_, Extractor.parsing_eq_ok.mpr ⟨set, hs, rfl⟩⟩

theorem documentDirectory_unfound {failure : Failure}
    (hx : (plan.extractor s.fs s.parsers directory).result = .error failure) :
    ∃ s₁, (documentDirectory plan client analysis root directory).run s = (.error failure, s₁) ∧
      s₁.requests = s.requests := by
  rw [documentDirectory_run, extract_run]
  rcases hr : plan.extractor s.fs s.parsers directory with ⟨events, result⟩
  rw [hr] at hx
  obtain rfl : result = .error failure := hx
  exact ⟨_, rfl, rfl⟩

/-- What a loop over directories asks: for the first of them, in which definitions can be looked for
in the tree as it was before. -/
theorem documentDirectories_asks (hextractor : plan.extractor = .parsing grammars limit)
    (hname : IsBare plan.manifestName) (hfs : fs.IsTree) (htree : s.fs.IsTree)
    (hgrown : fs.Extends s.fs)
    (hparts : ∀ directory ∈ directories, ∀ part ∈ directory.parts, Path.IsPart part) :
    ∃ found : List Json,
      ((documentDirectories plan client analysis root directories).run s).2.requests =
        s.requests ++ List.zipWith (directoryAsk plan analysis root) directories found ∧
      ∀ directory ∈ directories.take found.length, Searchable fs directory := by
  induction directories generalizing s with
  | nil => exact ⟨[], by simp [documentDirectories, Run.run_pure]⟩
  | cons directory rest ih =>
    obtain ⟨hfirst, hrest⟩ := List.forall_mem_cons.mp hparts
    rcases hx : (plan.extractor s.fs s.parsers directory).result with failure | found
    · obtain ⟨s₁, hrun, hrequests⟩ : ∃ s₁, (documentDirectory plan client analysis root directory).run
          s = (.error failure, s₁) ∧ s₁.requests = s.requests := documentDirectory_unfound hx
      rw [documentDirectories, Run.run_bind_error hrun]
      exact ⟨[], by simpa using hrequests, by simp⟩
    · have hasks : ((documentDirectory plan client analysis root directory).run s).2.requests =
          s.requests ++ [directoryAsk plan analysis root directory found.1] :=
        documentDirectory_asks hx
      have hsearchable : Searchable fs directory := by
        rw [hextractor] at hx
        refine parsing_searchable.mp
          (Extractor.parsing_frame hgrown.frame.symm htree hfs (fun top _ => ?_) s.parsers hx)
        exact (hgrown.names_sublist hfs htree top).subset
      rw [documentDirectories, Run.run_bind]
      rcases hrun : (documentDirectory plan client analysis root directory).run s with
        ⟨failure | ⟨⟩, s₁⟩
      · rw [hrun] at hasks
        exact ⟨[found.1], by simpa using hasks, by simpa using hsearchable⟩
      · rw [hrun] at hasks
        rcases documentDirectory_cases hrun with ⟨definitions, -, hstep⟩ | ⟨failure, hr, -⟩
        · obtain ⟨htree₁, hgrown₁⟩ := hstep.tree htree hname hfirst
          obtain ⟨more, hrequests, hmore⟩ := ih htree₁ (hgrown.trans hgrown₁) hrest
          refine ⟨found.1 :: more, ?_, ?_⟩
          · simp only at hasks
            simp [hrequests, hasks]
          · simpa using ⟨hsearchable, hmore⟩
        · cases hr

theorem Stuck.asks_once {possible : Request → Prop} {s' : Session σ} {requests : List Request}
    (h : Stuck plan client possible directory s s')
    (hrequests : s'.requests = s.requests ++ requests) : requests.length ≤ 1 := by
  have hlength := congrArg List.length hrequests
  rcases h.requests with hsame | ⟨request, -, hmore⟩
  · simp only [hsame, List.length_append] at hlength
    omega
  · simp only [hmore, List.length_append, List.length_singleton] at hlength
    omega

/-- What a run asks after its first request, and about which of its directories. -/
theorem documentAll_asks {root : Location} {requests : List Request} {request : Request} {k : Nat}
    (hsound : Sound plan root s.fs) (hextractor : plan.extractor = .parsing grammars limit)
    (hrequests : ((documentAll plan client (Path.ofLocation root)).run s).2.requests =
      s.requests ++ requests)
    (hrequest : requests[k + 1]? = some request) :
    ∃ collection directories directory definitions,
      (Collection.collect s.fs .walking (Path.ofLocation root).toString plan.maxListed).result =
        .ok collection ∧
      FirstLevel.select s.fs (Path.ofLocation root) collection.directories = .ok directories ∧
      directories[k]? = some directory ∧ Searchable s.fs directory ∧
      request = directoryAsk plan collection.analysis (Path.ofLocation root) directory definitions ∧
      ∀ base, s.fs.resolve (Path.ofLocation root) = .ok base → Collected.AtBase s.fs root base := by
  rcases hrun : (documentAll plan client (Path.ofLocation root)).run s with ⟨result, s'⟩
  rw [hrun] at hrequests
  rcases documentAll_cases hsound.lister hrun with
    ⟨failure, -, hroot⟩ | ⟨definitions, collection, s₁, hc, hstep, -, hrest⟩
  · have hcurrent : ({ s with current := Path.ofLocation root } : Session σ).current =
        Path.ofLocation root := rfl
    rcases documentRoot_cases hsound.lister hcurrent hroot with ⟨_, _, hr, -⟩ | ⟨_, -, hstuck⟩
    · cases hr
    -- A run that is stuck at its root has no second request.
    have hlength : requests.length ≤ 1 := hstuck.asks_once hrequests
    obtain ⟨hlt, -⟩ := List.getElem?_eq_some_iff.mp hrequest
    omega
  · obtain ⟨base, top, items, hcollected⟩ := Collection.collect_ok hsound.isTree hsound.isPart hc
    obtain ⟨directories, hselect⟩ := hcollected.select_total hsound.isTree
    obtain ⟨htree, hgrown⟩ := hstep.tree hsound.isTree hsound.name hsound.isPart
    have hselect' := FirstLevel.select_eq hgrown.frame hsound.isTree htree ▸ hselect
    obtain ⟨found, hasks, hsearchable⟩ := @documentDirectories_asks σ plan client grammars limit s.fs
      s₁ collection.analysis (Path.ofLocation root) directories hextractor hsound.name hsound.isTree
      htree hgrown (selected_parts hselect)
    rw [hrest directories hselect', hstep.requests, List.append_assoc] at hasks
    obtain rfl := List.append_cancel_left (hrequests.symm.trans hasks)
    rw [List.singleton_append, List.getElem?_cons_succ, List.getElem?_zipWith_eq_some] at hrequest
    obtain ⟨directory, definitions, hdirectory, hdefinitions, rfl⟩ := hrequest
    refine ⟨collection, directories, directory, definitions, hc, hselect, hdirectory, ?_, rfl, ?_⟩
    · obtain ⟨hlt, -⟩ := List.getElem?_eq_some_iff.mp hdefinitions
      have htaken : (directories.take found.length)[k]? = some directory := by
        rwa [List.getElem?_take_of_lt hlt]
      exact hsearchable directory (List.mem_of_getElem? htaken)
    · exact fun _ => hstep.atBase hsound.isTree rfl

theorem run_asks_root {text : String} {root : Location} {collection : Collection}
    (hextractor : plan.extractor = .parsing grammars limit) (hlister : plan.lister = .walking)
    (hlocate : s.fs.locate (Path.ofString text) = .ok root)
    (hsearchable : Searchable s.fs (Path.ofLocation root))
    (hcollect : (Collection.collect s.fs .walking (Path.ofLocation root).toString
      plan.maxListed).result = .ok collection) :
    ∃ definitions more, ((run plan client text).run s).2.requests = s.requests ++
      rootAsk plan collection.analysis (Path.ofLocation root) definitions :: more := by
  obtain ⟨found, hx⟩ : ∃ found, (plan.extractor s.fs s.parsers (Path.ofLocation root)).result =
      .ok found := hextractor ▸ parsing_searchable.mpr hsearchable
  have hasks := @documentRoot_asks σ plan client { s with current := Path.ofLocation root } _ hlister
    _ _ hx hcollect
  obtain ⟨more, hmore⟩ := @documentAll_grows σ plan client (Path.ofLocation root) s
  refine ⟨found.1, more, ?_⟩
  rw [run_requests hlocate, ← hmore, hasks]
  simp

/-- What a request for a directory says of it is what the first request of a run on the directory
itself says of it, whatever the two runs name their manifests, find as definitions and get as
answers. -/
theorem run_levels_agree {τ : Type} (plan plan' : Plan) (grammars grammars' : Source.Grammars)
    (limit limit' : Int) (client : Client σ) (client' : Client τ) (text text' : String)
    (s : Session σ) (t : Session τ) (root directory : Location) (k : Nat) (requests : List Request)
    (request : Request) (hextractor : plan.extractor = .parsing grammars limit)
    (hextractor' : plan'.extractor = .parsing grammars' limit') (hlister : plan.lister = .walking)
    (hlister' : plan'.lister = .walking) (hname : Setting.isBareName plan.manifestName = true)
    (hsame : t.fs = s.fs) (htree : Transparent s.fs root directory)
    (hlocate : s.fs.locate (Path.ofString text) = .ok root)
    (hlocate' : t.fs.locate (Path.ofString text') = .ok directory)
    (hwhole : ∀ listing, (Listing.list s.fs (Path.ofLocation root).toString true
      plan.maxListed).result = .ok listing → listing.truncated = false)
    (hwhole' : ∀ listing, (Listing.list t.fs (Path.ofLocation directory).toString true
      plan'.maxListed).result = .ok listing → listing.truncated = false)
    (hplanned : (planned plan s.fs (Path.ofLocation root))[k + 1]? = some (Path.ofLocation directory))
    (hrequests : ((run plan client text).run s).2.requests = s.requests ++ requests)
    (hrequest : requests[k + 1]? = some request) :
    ∃ collection collection' part whole more,
      (Collection.collect s.fs .walking (Path.ofLocation root).toString plan.maxListed).result =
        .ok collection ∧
      (Collection.collect t.fs .walking (Path.ofLocation directory).toString
        plan'.maxListed).result = .ok collection' ∧
      (∃ definitions, part = Prompt.directoryContent definitions collection.analysis
        Prompt.Template.text (Path.ofLocation root) (Path.ofLocation directory) plan.manifestName) ∧
      (∃ definitions, whole = Prompt.rootContent definitions collection'.analysis
        Prompt.Template.text (Path.ofLocation directory) plan'.manifestName) ∧
      request = Prompt.request plan.manifestName part ∧
      ((run plan' client' text').run t).2.requests =
        t.requests ++ Prompt.request plan'.manifestName whole :: more ∧
      part.analysis = whole.analysis := by
  have hfs := htree.isTree
  have hsound := sound_of_locate hlister hname hfs hlocate
  rw [run_requests hlocate] at hrequests
  obtain ⟨collection, directories, place, definitions, hcollect, hselect, hplace, hsearchable, rfl,
    hatBase⟩ := documentAll_asks hsound hextractor hrequests hrequest
  rw [planned_of_select hlister hcollect hselect, List.getElem?_cons_succ, hplace,
    Option.some.injEq] at hplanned
  subst hplanned
  have hm : Path.ofLocation directory ∈ directories := List.mem_of_getElem? hplace
  obtain ⟨base, top, items, hcollected⟩ := Collection.collect_ok hfs hsound.isPart hcollect
  have hbase := hatBase base hcollected.resolve
  obtain ⟨rfl, name, -, heq, -⟩ := hcollected.selected_child hfs hbase hselect _ hm
  obtain rfl : directory = root ++ [name] := congrArg Path.parts heq
  obtain rfl := hcollected.top_eq hfs hbase
  -- The run on the directory looks for definitions and lists before it writes anything.
  rw [hsame] at hwhole' hlocate' ⊢
  obtain ⟨collection', hcollect', hscope⟩ :=
    hcollected.scope_inner htree hbase hcollect hselect hm hwhole hwhole'
  obtain ⟨definitions', more, hasks⟩ := @run_asks_root τ plan' client' grammars' limit' t text'
    (top ++ [name]) collection' hextractor' hlister' (hsame ▸ hlocate') (hsame ▸ hsearchable)
    (hsame ▸ hcollect')
  exact ⟨collection, collection', _, _, more, hcollect, hcollect', ⟨definitions, rfl⟩,
    ⟨definitions', rfl⟩, rfl, hasks, hscope.symm⟩

def layeredTree : FileSystem where
  entries := [(["w"], .directory), (["w", "README.md"], .file (Text.Utf8.encode "# W")),
    (["w", "a"], .directory), (["w", "a", ".env"], .file []),
    (["w", "a", "in"], .directory), (["w", "a", "in", "notes.md"], .file (Text.Utf8.encode "# In")),
    (["w", "a", "tmp"], .directory), (["w", "a", "tmp", "x.py"], .file []),
    (["w", "a", "x.py"], .file (Text.Utf8.encode "def f(): pass"))]
  working := ["w"]
  home := "/home"
  unreadable := []

theorem run_levels_agree_layeredTree : ∃ request more part whole,
    ((run sourcePlan readyClient "/w").run (Session.start layeredTree 0)).2.requests[1]? =
        some request ∧
      request = Prompt.request "m.py" part ∧
      ((run sealedPlan readyClient "/w/a").run (Session.start layeredTree 0)).2.requests =
        Prompt.request "m.yaml" whole :: more ∧
      part.analysis = whole.analysis := by
  have hlocate : layeredTree.locate (Path.ofString "/w") = .ok ["w"] := rfl
  have hlocate' : layeredTree.locate (Path.ofString "/w/a") = .ok ["w", "a"] := rfl
  have hhome : layeredTree.locate (Path.ofString "~") = .ok ["home"] := rfl
  have hlinks : ∀ below ≠ [], ∀ target, layeredTree.entryAt? (["w"] ++ below) ≠ some (.link target) := by
    intro below _ target hentry
    have hnone : ∀ binding ∈ layeredTree.entries, binding.2 ≠ .link target := by simp [layeredTree]
    rw [FileSystem.entryAt?, if_neg (by simp)] at hentry
    exact hnone _ (Mapping.mem_of_get? hentry) rfl
  have htree : Transparent layeredTree ["w"] ["w", "a"] :=
    ⟨by decide, hlinks, by decide, by decide, by decide, by decide, by simp [hhome]⟩
  have hlist : ∀ listing, (Listing.list layeredTree (Path.ofLocation ["w"]).toString true
      sourcePlan.maxListed).result = .ok listing → listing.truncated = false := by
    intro listing hl
    have hwhole : (Listing.list layeredTree (Path.ofLocation ["w"]).toString true
        sourcePlan.maxListed).result.toOption.map (·.truncated) = some false := by decide +kernel
    rw [hl] at hwhole
    exact Option.some.inj hwhole
  have hlist' : ∀ listing, (Listing.list layeredTree (Path.ofLocation ["w", "a"]).toString true
      sealedPlan.maxListed).result = .ok listing → listing.truncated = false := by
    intro listing hl
    have hwhole : (Listing.list layeredTree (Path.ofLocation ["w", "a"]).toString true
        sealedPlan.maxListed).result.toOption.map (·.truncated) = some false := by decide +kernel
    rw [hl] at hwhole
    exact Option.some.inj hwhole
  have hplanned : (planned sourcePlan layeredTree (Path.ofLocation ["w"]))[1]? =
      some (Path.ofLocation ["w", "a"]) := by decide +kernel
  have hsome : (((run sourcePlan readyClient "/w").run
      (Session.start layeredTree 0)).2.requests[1]?).isSome = true := by decide +kernel
  obtain ⟨request, hrequest⟩ := Option.isSome_iff_exists.mp hsome
  obtain ⟨_, _, part, whole, more, -, -, -, -, hpart, hwhole, hsame⟩ := run_levels_agree sourcePlan
    sealedPlan functionGrammars functionGrammars 50 50 readyClient readyClient "/w" "/w/a"
    (Session.start layeredTree 0) (Session.start layeredTree 0) ["w"] ["w", "a"] 0 _ request rfl rfl
    rfl rfl (by decide) rfl htree hlocate hlocate' hlist hlist' hplanned (List.nil_append _).symm
    hrequest
  exact ⟨request, more, part, whole, hrequest, hpart, hwhole, hsame⟩

end TreeManifest.Documentation
