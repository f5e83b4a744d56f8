import TreeManifest.Proofs.Collection
import TreeManifest.Proofs.Documentation.Effect
import TreeManifest.Proofs.Listing.Grown
import TreeManifest.Proofs.Source.Extraction

/-!
# Runs side by side

Two trees with the same files, whose listed files have the same contents, are one tree for the
descriptions in a request. Definitions are looked for in every source file directly in a directory,
listed or not. So two runs on such trees take the same steps with the same requests up to a
directory in which they find different definitions (`documentAll_mirrored`).
-/

namespace TreeManifest

open FileSystem (Alike Nearer)

-- ---------------------------------------------------------------------------
-- The same collection
-- ---------------------------------------------------------------------------

namespace Collection

variable {fs fs' : FileSystem}

theorem collect_alike (h : fs.Alike fs') (hfs : fs.IsTree) (hfs' : fs'.IsTree) {root : String}
    {limit : Int} (hrules : ∀ base, fs.locate (Path.ofString root) = .ok base →
      Listing.rulesOf fs base = Listing.rulesOf fs' base)
    (hread : ∀ listing, (Listing.list fs root true limit).result = .ok listing →
      ∀ entry ∈ listing.entries, fs.read (Path.ofString entry) = fs'.read (Path.ofString entry)) :
    collect fs .walking root limit = collect fs' .walking root limit := by
  unfold collect Lister.walking
  rw [← Listing.list_alike h hfs hfs' hrules]
  refine Report.bind_congr fun listing hlist => ?_
  have hdescribed : ∀ file ∈ describedOf listing.entries,
      fs.read (Path.ofString file) = fs'.read (Path.ofString file) := by
    intro file hm
    exact hread listing hlist file (List.mem_filter.mp (List.mem_filter.mp hm).1).1
  have hall := describeAll_congr hdescribed []
  unfold describedOf at hall
  simp only [ofListing, hall]

end Collection

namespace Documentation

variable {σ : Type} {plan : Plan} {client : Client σ} {grammars : Source.Grammars} {limit : Int}
  {fs fs' : FileSystem} {s s' t t' : Session σ} {directory : Path}

-- ---------------------------------------------------------------------------
-- Steps side by side
-- ---------------------------------------------------------------------------

/-- Two sessions that have asked the same so far, on trees with the same files. Since `fs` and `fs'`
no further contents have come to differ. -/
structure Mirrored (fs fs' : FileSystem) (s t : Session σ) : Prop where
  isTree : s.fs.IsTree
  isTree' : t.fs.IsTree
  frame : fs.SameFrame s.fs
  nearer : fs.Nearer fs' s.fs t.fs
  parsers : s.parsers = t.parsers
  client : s.client = t.client
  requests : s.requests = t.requests

def Differs (plan : Plan) (directory : Path) (s t : Session σ) : Prop :=
  ∃ found found', (plan.extractor s.fs s.parsers directory).result = .ok found ∧
    (plan.extractor t.fs t.parsers directory).result = .ok found' ∧
    found.1.indented ≠ found'.1.indented

theorem Mirrored.of_same (h : Mirrored fs fs' s t) (hfs : s'.fs = s.fs) (hfs' : t'.fs = t.fs)
    (hparsers : s'.parsers = t'.parsers) (hclient : s'.client = t'.client)
    (hrequests : s'.requests = t'.requests) : Mirrored fs fs' s' t' :=
  ⟨hfs ▸ h.isTree, hfs' ▸ h.isTree', hfs ▸ h.frame, hfs ▸ hfs' ▸ h.nearer, hparsers, hclient,
    hrequests⟩

theorem extract_mirrored (hextractor : plan.extractor = .parsing grammars limit)
    (h : Mirrored fs fs' s t) (directory : Path) :
    (∃ failure failure' s₁ t₁, (extract plan directory).run s = (.error failure, s₁) ∧
        (extract plan directory).run t = (.error failure', t₁) ∧ Mirrored fs fs' s₁ t₁) ∨
      ∃ found found' s₁ t₁, (extract plan directory).run s = (.ok found.1, s₁) ∧
        (extract plan directory).run t = (.ok found'.1, t₁) ∧ Mirrored fs fs' s₁ t₁ ∧
        (plan.extractor s.fs s.parsers directory).result = .ok found ∧
        (plan.extractor t.fs t.parsers directory).result = .ok found' := by
  rw [extract_run, extract_run]
  rcases hx : plan.extractor s.fs s.parsers directory with ⟨events, failure | ⟨definitions, after⟩⟩
  · rcases hy : plan.extractor t.fs t.parsers directory with
      ⟨events', failure' | ⟨definitions', after'⟩⟩
    · refine .inl ⟨failure, failure', _, _, rfl, rfl, ?_⟩
      exact h.of_same rfl rfl h.parsers h.client h.requests
    · rw [hextractor] at hx hy
      obtain ⟨found, hfound, -⟩ :=
        Extractor.parsing_alike h.nearer.alike.symm h.isTree' h.isTree (congrArg Report.result hy)
      rw [← h.parsers, hx] at hfound
      cases hfound
  · rw [hextractor] at hx
    obtain ⟨definitions', hfound, -⟩ :=
      Extractor.parsing_alike h.nearer.alike h.isTree h.isTree' (congrArg Report.result hx)
    rw [h.parsers, ← hextractor] at hfound
    rcases hy : plan.extractor t.fs t.parsers directory with ⟨events', result⟩
    rw [hy] at hfound
    obtain rfl : result = .ok (definitions', after) := hfound
    refine .inr ⟨_, _, _, _, rfl, rfl, ?_, rfl, rfl⟩
    exact h.of_same rfl rfl rfl h.client h.requests

theorem look_mirrored {α : Type} {step : FileSystem → Report α} (h : Mirrored fs fs' s t)
    (hsame : (step s.fs).result = (step t.fs).result) :
    ∃ s₁ t₁, (Run.look step).run s = ((step s.fs).result, s₁) ∧
      (Run.look step).run t = ((step s.fs).result, t₁) ∧ Mirrored fs fs' s₁ t₁ := by
  rw [Run.run_look, Run.run_look, ← hsame]
  exact ⟨_, _, rfl, rfl, h.isTree, h.isTree', h.frame, h.nearer, h.parsers, h.client, h.requests⟩

/-- Definitions that differ come from a source file whose contents differ. -/
theorem Differs.differing (hextractor : plan.extractor = .parsing grammars limit)
    (h : Mirrored fs fs' s t) (hfs : fs.IsTree) (hfs' : fs'.IsTree) (halike : fs.Alike fs')
    (hd : Differs plan directory s t) : ∃ place name location octets octets',
      fs.resolve directory = .ok place ∧
        Source.Differing fs fs' place name location octets octets' := by
  obtain ⟨⟨definitions, after⟩, ⟨definitions', after'⟩, hx, hy, hne⟩ := hd
  rw [hextractor] at hx hy
  obtain ⟨_, hfound, hdiffer⟩ := Extractor.parsing_alike h.nearer.alike h.isTree h.isTree' hx
  rw [h.parsers, hy] at hfound
  cases hfound
  obtain ⟨place, name, location, octets, octets', hresolve, hdiffering⟩ :=
    hdiffer fun heq => hne (congrArg Json.indented heq)
  -- The contents have differed from the start.
  have hcontents : s.fs.entryAt? location ≠ t.fs.entryAt? location := by
    rw [h.isTree.entryAt?_of_find hdiffering.find, h.isTree'.entryAt?_of_find hdiffering.find']
    exact fun heq => hdiffering.ne (by simpa using heq)
  obtain ⟨first, first', hfirst, hfirst', hnefirst⟩ :=
    halike.file_of_ne (h.nearer.entry location hcontents)
  obtain ⟨there, hfind, -⟩ := h.frame.symm.find_ok hdiffering.find
  obtain rfl := hfs.entryAt?_of_find hfind
  have hfind' := halike.find_eq hfs' hfind
  rw [hfirst] at hfind
  rw [hfirst'] at hfind'
  rw [← h.frame.resolve_eq hfs h.isTree] at hresolve
  exact ⟨place, name, location, first, first', hresolve, hdiffering.isSource, hfind, hfind',
    h.frame.unreadable ▸ hdiffering.readable, hnefirst⟩

theorem document_mirrored (hname : IsBare plan.manifestName)
    (hparts : ∀ part ∈ directory.parts, Path.IsPart part) (h : Mirrored fs fs' s t)
    (request : Request) : ∃ s₁ t₁, Mirrored fs fs' s₁ t₁ ∧
      ((document plan client directory request).run s = (.ok (), s₁) ∧
          (document plan client directory request).run t = (.ok (), t₁) ∨
        ∃ failure failure',
          (document plan client directory request).run s = (.error failure, s₁) ∧
            (document plan client directory request).run t = (.error failure', t₁)) := by
  have hanswered : Mirrored fs fs' (Run.answered client request s) (Run.answered client request t) :=
    h.of_same rfl rfl h.parsers (by simp only [Run.answered, Run.asked, h.client])
      (by simp only [Run.answered, Run.asked, h.requests])
  have htext : (Manifest.absorb t.usage.recordCall (client request t.client).1).2 =
      (Manifest.absorb s.usage.recordCall (client request s.client).1).2 := by
    rw [h.client]
    exact Manifest.absorb_text_eq _ _ _
  rcases ha : (Manifest.absorb s.usage.recordCall (client request s.client).1).2 with failure | text
  · exact ⟨_, _, hanswered, .inr ⟨failure, failure, document_unanswered ha,
      document_unanswered (htext.trans ha)⟩⟩
  rcases FileSystem.writeText_alike h.nearer.alike h.isTree h.isTree'
    (directory.child plan.manifestName) text with
      ⟨after, after', hw, hw', hnearer⟩ | ⟨failure, failure', hw, hw'⟩
  · have hchild := hname.child_parts hparts
    obtain ⟨htree, hgrown⟩ := FileSystem.writeText_tree h.isTree hchild hw
    obtain ⟨htree', -⟩ := FileSystem.writeText_tree h.isTree' hchild hw'
    refine ⟨_, _, ?_, .inl ⟨document_ok (Run.generateManifest_ok ha hw),
      document_ok (Run.generateManifest_ok (htext.trans ha) hw')⟩⟩
    exact ⟨htree, htree', h.frame.trans hgrown.frame,
      ⟨hnearer.alike, fun location hne => h.nearer.entry location (hnearer.entry location hne)⟩,
      h.parsers, hanswered.client, hanswered.requests⟩
  · exact ⟨_, _, hanswered, .inr ⟨failure, failure', document_unwritten ha hw,
      document_unwritten (htext.trans ha) hw'⟩⟩

-- ---------------------------------------------------------------------------
-- Requests for definitions
-- ---------------------------------------------------------------------------

theorem request_eq_iff (name : String) (content : Prompt.Content) (definitions definitions' : Json) :
    Prompt.request name { content with definitions := definitions } =
        Prompt.request name { content with definitions := definitions' } ↔
      definitions.indented = definitions'.indented := by
  constructor
  · intro h
    have htext := congrArg (fun request : Request => request.messages.map (·.content.toList)) h
    simp only [Prompt.request, Prompt.Content.text, String.join_cons, String.toList_append,
      List.map_cons, List.map_nil, List.cons.injEq, and_true, List.append_cancel_left_eq,
      List.append_cancel_right_eq, ← List.append_assoc] at htext
    exact String.toList_inj.mp htext
  · intro h
    simp only [Prompt.request, Prompt.Content.text, h]

theorem directoryAsk_eq_iff {analysis : Mapping String String} {root : Path}
    {definitions definitions' : Json} :
    directoryAsk plan analysis root directory definitions =
        directoryAsk plan analysis root directory definitions' ↔
      definitions.indented = definitions'.indented :=
  request_eq_iff plan.manifestName (Prompt.directoryContent definitions analysis
    Prompt.Template.text root directory plan.manifestName) definitions definitions'

theorem rootAsk_eq_iff {analysis : Mapping String String} {root : Path}
    {definitions definitions' : Json} :
    rootAsk plan analysis root definitions = rootAsk plan analysis root definitions' ↔
      definitions.indented = definitions'.indented :=
  request_eq_iff plan.manifestName (Prompt.rootContent definitions analysis
    Prompt.Template.text root plan.manifestName) definitions definitions'

-- ---------------------------------------------------------------------------
-- Directories side by side
-- ---------------------------------------------------------------------------

/-- A step for a directory makes different definitions different requests, or it has the same
outcome in both sessions. -/
theorem documentDirectory_mirrored (hextractor : plan.extractor = .parsing grammars limit)
    (hname : IsBare plan.manifestName) (hparts : ∀ part ∈ directory.parts, Path.IsPart part)
    (h : Mirrored fs fs' s t) (analysis : Mapping String String) (root : Path) :
    Differs plan directory s t ∨ ∃ s₁ t₁, Mirrored fs fs' s₁ t₁ ∧
      ((documentDirectory plan client analysis root directory).run s = (.ok (), s₁) ∧
          (documentDirectory plan client analysis root directory).run t = (.ok (), t₁) ∨
        ∃ failure failure',
          (documentDirectory plan client analysis root directory).run s = (.error failure, s₁) ∧
            (documentDirectory plan client analysis root directory).run t = (.error failure', t₁)) := by
  have hstart : Mirrored fs fs' { s with current := directory } { t with current := directory } :=
    h.of_same rfl rfl h.parsers h.client h.requests
  rw [documentDirectory_run, documentDirectory_run]
  rcases extract_mirrored hextractor hstart directory with
    ⟨failure, failure', s₁, t₁, hx, hy, hmirrored⟩ | ⟨found, found', s₁, t₁, hx, hy, hmirrored, hs, ht⟩
  · rw [hx, hy]
    exact .inr ⟨s₁, t₁, hmirrored, .inr ⟨failure, failure', rfl, rfl⟩⟩
  · by_cases hsame : found.1.indented = found'.1.indented
    · rw [hx, hy]
      simp only
      rw [← directoryAsk_eq_iff.mpr hsame]
      exact .inr (document_mirrored hname hparts hmirrored _)
    · exact .inl ⟨found, found', hs, ht, hsame⟩

inductive Starts (plan : Plan) (client : Client σ) (analysis : Mapping String String) (root : Path) :
    List Path → Session σ → Path → Session σ → Prop
  | here (directory : Path) (rest : List Path) (s : Session σ) :
      Starts plan client analysis root (directory :: rest) s directory s
  | later {directory : Path} {rest : List Path} {s s₁ s₂ : Session σ} {next : Path}
      (h : (documentDirectory plan client analysis root directory).run s = (.ok (), s₁)) :
      Starts plan client analysis root rest s₁ next s₂ →
      Starts plan client analysis root (directory :: rest) s next s₂

variable {analysis : Mapping String String} {root : Path} {directories : List Path}

theorem Starts.mem (h : Starts plan client analysis root directories s directory s') :
    directory ∈ directories := by
  induction h with
  | here directory rest s => exact List.mem_cons_self
  | later _ _ ih => exact List.mem_cons_of_mem _ ih

theorem documentDirectories_mirrored (hextractor : plan.extractor = .parsing grammars limit)
    (hname : IsBare plan.manifestName)
    (hparts : ∀ directory ∈ directories, ∀ part ∈ directory.parts, Path.IsPart part)
    (h : Mirrored fs fs' s t) :
    ((documentDirectories plan client analysis root directories).run s).2.requests =
        ((documentDirectories plan client analysis root directories).run t).2.requests ∨
      ∃ directory s₁ t₁, Starts plan client analysis root directories s directory s₁ ∧
        Starts plan client analysis root directories t directory t₁ ∧ Mirrored fs fs' s₁ t₁ ∧
        Differs plan directory s₁ t₁ := by
  induction directories generalizing s t with
  | nil => exact .inl h.requests
  | cons directory rest ih =>
    rw [List.forall_mem_cons] at hparts
    rcases documentDirectory_mirrored hextractor hname hparts.1 h analysis root with
      hdiffers | ⟨s₁, t₁, hmirrored, ⟨hs, ht⟩ | ⟨failure, failure', hs, ht⟩⟩
    · exact .inr ⟨directory, s, t, .here directory rest s, .here directory rest t, h, hdiffers⟩
    · rw [documentDirectories, Run.run_bind_ok hs, Run.run_bind_ok ht]
      rcases ih hparts.2 hmirrored with hsame | ⟨next, s₂, t₂, hs₂, ht₂, hrest⟩
      · exact .inl hsame
      · exact .inr ⟨next, s₂, t₂, .later hs hs₂, .later ht ht₂, hrest⟩
    · rw [documentDirectories, Run.run_bind_error hs, Run.run_bind_error ht]
      exact .inl hmirrored.requests

-- ---------------------------------------------------------------------------
-- The root and what follows it
-- ---------------------------------------------------------------------------

inductive Begins (plan : Plan) (client : Client σ) (root : Path) (s : Session σ) :
    Path → Session σ → Prop
  | root {collection : Collection} (hc : (Collection.collect s.fs .walking root.toString
        plan.maxListed).result = .ok collection) : Begins plan client root s root s
  | directory {collection : Collection} {directories : List Path} {s₁ s₂ : Session σ}
      {directory : Path}
      (hroot : (documentRoot plan client root).run { s with current := root } = (.ok collection, s₁))
      (hselect : FirstLevel.select s₁.fs root collection.directories = .ok directories)
      (hstarts : Starts plan client collection.analysis root directories s₁ directory s₂) :
      Begins plan client root s directory s₂

theorem documentRoot_mirrored (hextractor : plan.extractor = .parsing grammars limit)
    (hlister : plan.lister = .walking) (hname : IsBare plan.manifestName)
    (hparts : ∀ part ∈ root.parts, Path.IsPart part) (h : Mirrored fs fs' s t)
    (hcollect : Collection.collect s.fs .walking root.toString plan.maxListed =
      Collection.collect t.fs .walking root.toString plan.maxListed) :
    (Differs plan root s t ∧ ∃ collection, (Collection.collect s.fs .walking root.toString
        plan.maxListed).result = .ok collection) ∨
      ∃ s₁ t₁, Mirrored fs fs' s₁ t₁ ∧
        ((∃ collection, (documentRoot plan client root).run s = (.ok collection, s₁) ∧
            (documentRoot plan client root).run t = (.ok collection, t₁)) ∨
          ∃ failure failure', (documentRoot plan client root).run s = (.error failure, s₁) ∧
            (documentRoot plan client root).run t = (.error failure', t₁)) := by
  rw [documentRoot_run hlister, documentRoot_run hlister]
  rcases extract_mirrored hextractor h root with
    ⟨failure, failure', s₁, t₁, hx, hy, hmirrored⟩ | ⟨found, found', s₁, t₁, hx, hy, hmirrored, hs, ht⟩
  · rw [hx, hy]
    exact .inr ⟨s₁, t₁, hmirrored, .inr ⟨failure, failure', rfl, rfl⟩⟩
  -- An extraction writes nothing: what is collected afterwards is what is collected at the start.
  obtain ⟨hsfs, -⟩ := extract_looks client hx
  obtain ⟨htfs, -⟩ := extract_looks client hy
  obtain ⟨s₂, t₂, hlook, hlook', hmirrored'⟩ := @look_mirrored σ fs fs' s₁ t₁ Collection
    (fun fs => Collection.collect fs .walking root.toString plan.maxListed) hmirrored
    (by rw [hsfs.fs, htfs.fs, hcollect])
  rw [hsfs.fs] at hlook hlook'
  rw [hx, hy]
  simp only [hlook, hlook']
  rcases (Collection.collect s.fs .walking root.toString plan.maxListed).result with
    failure | collection
  · exact .inr ⟨s₂, t₂, hmirrored', .inr ⟨failure, failure, rfl, rfl⟩⟩
  by_cases hsame : found.1.indented = found'.1.indented
  · simp only
    rw [← rootAsk_eq_iff.mpr hsame]
    obtain ⟨s₃, t₃, hmirrored'', ⟨hd, hd'⟩ | ⟨failure, failure', hd, hd'⟩⟩ :=
      @document_mirrored σ plan client fs fs' s₂ t₂ root hname hparts hmirrored'
        (rootAsk plan collection.analysis root found.1)
    · rw [hd, hd']
      exact .inr ⟨s₃, t₃, hmirrored'', .inl ⟨collection, rfl, rfl⟩⟩
    · rw [hd, hd']
      exact .inr ⟨s₃, t₃, hmirrored'', .inr ⟨failure, failure', rfl, rfl⟩⟩
  · exact .inl ⟨⟨found, found', hs, ht, hsame⟩, collection, rfl⟩

theorem selected_parts {directories : List Path} {listed : List String}
    (h : FirstLevel.select fs root listed = .ok directories) :
    ∀ directory ∈ directories, ∀ part ∈ directory.parts, Path.IsPart part := by
  intro directory hm part hp
  obtain ⟨_, _, -, hselected⟩ := FirstLevel.select_ok h
  obtain ⟨text, -, rfl⟩ := List.mem_map.mp (hselected.sublist.subset hm)
  exact Path.isPart_of_mem_partsOf hp

/-- Two runs on a root ask the same, or come to a directory that they find differently. -/
theorem documentAll_mirrored (hextractor : plan.extractor = .parsing grammars limit)
    (hlister : plan.lister = .walking) (hname : IsBare plan.manifestName)
    (hparts : ∀ part ∈ root.parts, Path.IsPart part) (h : Mirrored fs fs' s t)
    (hcollect : Collection.collect s.fs .walking root.toString plan.maxListed =
      Collection.collect t.fs .walking root.toString plan.maxListed) :
    ((documentAll plan client root).run s).2.requests =
        ((documentAll plan client root).run t).2.requests ∨
      ∃ directory s₁ t₁, Begins plan client root s directory s₁ ∧
        Begins plan client root t directory t₁ ∧ Mirrored fs fs' s₁ t₁ ∧
        Differs plan directory s₁ t₁ := by
  have hstart : Mirrored fs fs' { s with current := root } { t with current := root } :=
    h.of_same rfl rfl h.parsers h.client h.requests
  rw [documentAll_run, documentAll_run]
  rcases @documentRoot_mirrored σ plan client grammars limit fs fs' { s with current := root }
    { t with current := root } root hextractor hlister hname hparts hstart hcollect with
      ⟨hdiffers, collection, hc⟩ |
        ⟨s₁, t₁, hmirrored, ⟨collection, hs, ht⟩ | ⟨failure, failure', hs, ht⟩⟩
  · exact .inr ⟨root, s, t, .root hc, .root (hcollect ▸ hc), h, hdiffers⟩
  · rw [hs, ht]
    have hselect : FirstLevel.select s₁.fs root collection.directories =
        FirstLevel.select t₁.fs root collection.directories :=
      FirstLevel.select_eq hmirrored.nearer.alike.frame hmirrored.isTree hmirrored.isTree'
    simp only
    rw [← hselect]
    rcases hd : FirstLevel.select s₁.fs root collection.directories with failure | directories
    · exact .inl hmirrored.requests
    · rcases documentDirectories_mirrored hextractor hname (selected_parts hd) hmirrored with
        hsame | ⟨directory, s₂, t₂, hs₂, ht₂, hrest⟩
      · exact .inl hsame
      · exact .inr ⟨directory, s₂, t₂, .directory hs hd hs₂, .directory ht (hselect ▸ hd) ht₂, hrest⟩
  · rw [hs, ht]
    exact .inl hmirrored.requests

end Documentation

end TreeManifest
