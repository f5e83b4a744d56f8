import TreeManifest.Proofs.Documentation.Account
import TreeManifest.Proofs.Settings.ManifestName

/-!
# Where the manifests of a run lie

However a run ends, and whatever lists the files, extracts the definitions or answers: it has
written one manifest after the other, each for a directory that it asked about, and directly in it
(`Placed`). A directory is the root or lies directly in the root. In the file system nothing else
changes, and a manifest gets out of its directory only if there was a link of its name before.
-/

namespace TreeManifest.Documentation

variable {σ : Type} {plan : Plan} {client : Client σ} {root directory : Path}
  {directories others : List Path} {s s' s'' : Session σ} {request : Request}

/-- The path of the manifest of a directory: the name of the manifests, read as a path, after it. -/
def manifestPath (plan : Plan) (directory : Path) : Path :=
  directory.join (Path.ofString plan.manifestName)

theorem manifestPath_eq (hname : IsBare plan.manifestName) (directory : Path) :
    manifestPath plan directory = directory.child plan.manifestName :=
  Path.join_of_isBare hname directory

/-- A directory that a run may document: the root, or one directly in it that is not hidden. -/
structure Documented (root directory : Path) : Prop where
  near : directory = root ∨ FirstLevel.isCandidate root directory = true
  anchor : directory.anchor = .top
  isPart : ∀ part ∈ directory.parts, Path.IsPart part

theorem Documented.ofString_manifestPath (h : Documented root directory)
    (hname : IsBare plan.manifestName) :
    Path.ofString (manifestPath plan directory).toString = manifestPath plan directory := by
  have hlocation : manifestPath plan directory =
      Path.ofLocation (directory.child plan.manifestName).parts := by
    rw [manifestPath_eq hname, Path.child, h.anchor, Path.ofLocation]
  rw [hlocation]
  exact Path.ofString_toString (hname.child_parts h.isPart)

/-- A place that the manifest of a directory takes: where its path leads to. That is in the
directory itself unless the path is a link. -/
structure Takes (plan : Plan) (fs : FileSystem) (directory : Path) (location : Location) : Prop where
  find : ∃ entry, fs.find (manifestPath plan directory) = .ok (location, entry)
  within : fs.isLink (manifestPath plan directory) = false →
    ∃ base, fs.find directory = .ok (base, some .directory) ∧
      location = base ++ [plan.manifestName]

/-- Between two sessions the manifests of directories were written, and nothing else. Each was asked
for in its turn. -/
structure Placed (plan : Plan) (root : Path) (directories : List Path) (s s' : Session σ) :
    Prop where
  documented : ∀ directory ∈ directories, Documented root directory
  asked : ∃ requests, s'.requests = s.requests ++ requests ∧
    List.Forall₂ (Asks plan root) directories requests
  manifests : s'.manifests = s.manifests ++
    directories.map fun directory => (manifestPath plan directory).toString
  isTree : s'.fs.IsTree
  frame : s.fs.SameFrame s'.fs
  changed : ∀ location, s'.fs.entryAt? location ≠ s.fs.entryAt? location →
    ∃ directory ∈ directories, Takes plan s.fs directory location

structure Still (s s' : Session σ) : Prop where
  fs : s'.fs = s.fs
  manifests : s'.manifests = s.manifests
  requests : s'.requests = s.requests

/-- Between two sessions nothing was written, and at most one request was made. -/
structure Rests (s s' : Session σ) : Prop where
  fs : s'.fs = s.fs
  manifests : s'.manifests = s.manifests
  requests : s'.requests = s.requests ∨ ∃ request, s'.requests = s.requests ++ [request]

theorem Takes.of_frame {fs fs' : FileSystem} {location : Location}
    (h : Takes plan fs directory location) (hframe : fs.SameFrame fs') :
    Takes plan fs' directory location := by
  obtain ⟨entry, hfind⟩ := h.find
  obtain ⟨entry', hfind', -⟩ := hframe.find_ok hfind
  refine ⟨⟨entry', hfind'⟩, fun hlink => ?_⟩
  obtain ⟨base, hbase, hlocation⟩ := h.within (hframe.isLink_eq _ ▸ hlink)
  exact ⟨base, hframe.find_directory hbase, hlocation⟩

theorem Still.trans (h : Still s s') (h' : Still s' s'') : Still s s'' :=
  ⟨h'.fs.trans h.fs, h'.manifests.trans h.manifests, h'.requests.trans h.requests⟩

theorem Still.placed (h : Still s s') (hfs : s.fs.IsTree) : Placed plan root [] s s' where
  documented := List.forall_mem_nil _
  asked := ⟨[], by simp [h.requests], .nil⟩
  manifests := by simp [h.manifests]
  isTree := h.fs ▸ hfs
  frame := h.fs ▸ .refl _
  changed := fun _ hne => absurd (by rw [h.fs]) hne

theorem Still.rests (h : Still s s') : Rests s s' := ⟨h.fs, h.manifests, .inl h.requests⟩

theorem Rests.of_still (h : Still s s') (h' : Rests s' s'') : Rests s s'' where
  fs := h'.fs.trans h.fs
  manifests := h'.manifests.trans h.manifests
  requests := h.requests ▸ h'.requests

theorem Placed.trans (h : Placed plan root directories s s') (h' : Placed plan root others s' s'') :
    Placed plan root (directories ++ others) s s'' := by
  obtain ⟨requests, hrequests, hasks⟩ := h.asked
  obtain ⟨requests', hrequests', hasks'⟩ := h'.asked
  refine ⟨fun directory hm => (List.mem_append.mp hm).elim (h.documented _) (h'.documented _),
    ⟨requests ++ requests', ?_, List.rel_append hasks hasks'⟩, ?_, h'.isTree,
    h.frame.trans h'.frame, fun location hne => ?_⟩
  · rw [hrequests', hrequests, List.append_assoc]
  · rw [h'.manifests, h.manifests, List.map_append, List.append_assoc]
  · -- What has changed between the first and the last has changed in one of the two parts.
    by_cases hlater : s''.fs.entryAt? location = s'.fs.entryAt? location
    · obtain ⟨directory, hm, htakes⟩ := h.changed location (hlater ▸ hne)
      exact ⟨directory, List.mem_append_left _ hm, htakes⟩
    · obtain ⟨directory, hm, htakes⟩ := h'.changed location hlater
      exact ⟨directory, List.mem_append_right _ hm, htakes.of_frame h.frame.symm⟩

-- ---------------------------------------------------------------------------
-- One directory
-- ---------------------------------------------------------------------------

theorem extract_still {result : Except Failure Json}
    (h : (extract plan directory).run s = (result, s')) : Still s s' := by
  rw [extract_run] at h
  split at h <;> cases h <;> exact ⟨rfl, rfl, rfl⟩

theorem document_placed {result : Except Failure Unit} (hname : IsBare plan.manifestName)
    (hfs : s.fs.IsTree) (hdirectory : Documented root directory)
    (hask : Asks plan root directory request)
    (h : (document plan client directory request).run s = (result, s')) :
    result = .ok () ∧ Placed plan root [directory] s s' ∨
      ∃ failure, result = .error failure ∧ Rests s s' := by
  rcases ha : (Manifest.absorb s.usage.recordCall (client request s.client).1).2 with failure | text
  · rw [document_unanswered ha] at h
    cases h
    exact .inr ⟨failure, rfl, rfl, rfl, .inr ⟨request, rfl⟩⟩
  rcases hw : Manifest.writeText s.fs (directory.child plan.manifestName) text with failure | fs
  · rw [document_unwritten ha hw] at h
    cases h
    exact .inr ⟨failure, rfl, rfl, rfl, .inr ⟨request, rfl⟩⟩
  · rw [document_ok (Run.generateManifest_ok ha hw)] at h
    cases h
    have hparts := hname.child_parts hdirectory.isPart
    obtain ⟨htree, hgrown⟩ := FileSystem.writeText_tree hfs hparts hw
    obtain ⟨-, there, entry, hfind, hother⟩ := FileSystem.writeText_read hfs hparts hw
    refine .inl ⟨rfl, ⟨List.forall_mem_singleton.mpr hdirectory,
      ⟨[request], rfl, .cons hask .nil⟩, ?_, htree, hgrown.frame, fun location hne => ?_⟩⟩
    · rw [List.map_singleton, manifestPath_eq hname]
      rfl
    · obtain rfl : location = there := by_contra fun hl => hne (hother location hl)
      refine ⟨directory, List.mem_singleton_self _, ?_, ?_⟩
      · exact ⟨entry, by rw [manifestPath_eq hname, hfind]⟩
      · rw [manifestPath_eq hname]
        intro hlink
        obtain ⟨base, hbase, -, hresult, -⟩ := hfs.find_child_ok hname.isPart.ne_empty
          hname.isPart.ne_dot hname.ne_up hlink hfind
        exact ⟨base, hbase, congrArg Prod.fst hresult⟩

/-- What a step does before its last part changes nothing that counts. -/
theorem Still.document_placed {result : Except Failure Unit} (hstill : Still s s')
    (hname : IsBare plan.manifestName) (hfs : s.fs.IsTree) (hdirectory : Documented root directory)
    (hask : Asks plan root directory request)
    (h : (document plan client directory request).run s' = (result, s'')) :
    result = .ok () ∧ Placed plan root [directory] s s'' ∨
      ∃ failure, result = .error failure ∧ Rests s s'' :=
  (Documentation.document_placed hname (hstill.fs ▸ hfs) hdirectory hask h).imp
    (fun ⟨hok, hplaced⟩ => ⟨hok, (hstill.placed hfs).trans hplaced⟩)
    (fun ⟨failure, herror, hrests⟩ => ⟨failure, herror, hrests.of_still hstill⟩)

theorem documentDirectory_placed {result : Except Failure Unit} {analysis : Mapping String String}
    (hname : IsBare plan.manifestName) (hfs : s.fs.IsTree) (hdirectory : Documented root directory)
    (h : (documentDirectory plan client analysis root directory).run s = (result, s')) :
    result = .ok () ∧ Placed plan root [directory] s s' ∨
      ∃ failure, result = .error failure ∧ Rests s s' := by
  have hcurrent : Still s { s with current := directory } := ⟨rfl, rfl, rfl⟩
  rw [documentDirectory_run] at h
  rcases hx : (extract plan directory).run { s with current := directory } with
    ⟨failure | definitions, s₁⟩
  · rw [hx] at h
    cases h
    exact .inr ⟨failure, rfl, (hcurrent.trans (extract_still hx)).rests⟩
  · rw [hx] at h
    exact (hcurrent.trans (extract_still hx)).document_placed hname hfs hdirectory
      (.directory directory definitions analysis) h

theorem documentRoot_placed {result : Except Failure Collection}
    (hname : IsBare plan.manifestName) (hfs : s.fs.IsTree) (hroot : Documented root root)
    (h : (documentRoot plan client root).run s = (result, s')) :
    (∃ collection, result = .ok collection ∧ Placed plan root [root] s s') ∨
      ∃ failure, result = .error failure ∧ Rests s s' := by
  rw [documentRoot_run rfl] at h
  rcases hx : (extract plan root).run s with ⟨failure | definitions, s₁⟩
  · rw [hx] at h
    cases h
    exact .inr ⟨failure, rfl, (extract_still hx).rests⟩
  rw [hx] at h
  simp only [Run.run_look] at h
  have hcollect : Still s { s₁ with events := s₁.events ++
      (Collection.collect s₁.fs plan.lister root.toString plan.maxListed).events } :=
    (extract_still hx).trans ⟨rfl, rfl, rfl⟩
  rcases hc : (Collection.collect s₁.fs plan.lister root.toString plan.maxListed).result with
    failure | collection
  · rw [hc] at h
    cases h
    exact .inr ⟨failure, rfl, hcollect.rests⟩
  rw [hc] at h
  simp only at h
  rcases hd : (document plan client root (rootAsk plan collection.analysis root definitions)).run
      { s₁ with events := s₁.events ++
        (Collection.collect s₁.fs plan.lister root.toString plan.maxListed).events } with ⟨ending, s₂⟩
  rw [hd] at h
  rcases hcollect.document_placed hname hfs hroot (.root definitions collection.analysis) hd with
    ⟨rfl, hplaced⟩ | ⟨failure, rfl, hrests⟩
  · cases h
    exact .inl ⟨collection, rfl, hplaced⟩
  · cases h
    exact .inr ⟨failure, rfl, hrests⟩

-- ---------------------------------------------------------------------------
-- The whole run
-- ---------------------------------------------------------------------------

def PlacedOnly (plan : Plan) (root : Path) (directories : List Path) (s s' : Session σ) : Prop :=
  ∃ between, Placed plan root directories s between ∧ Rests between s'

theorem PlacedOnly.of_placed (h : Placed plan root directories s s') :
    PlacedOnly plan root directories s s' :=
  ⟨s', h, rfl, rfl, .inl rfl⟩

theorem PlacedOnly.of_rests (hfs : s.fs.IsTree) (h : Rests s s') : PlacedOnly plan root [] s s' :=
  ⟨s, Still.placed ⟨rfl, rfl, rfl⟩ hfs, h⟩

theorem Placed.placedOnly (h : Placed plan root directories s s')
    (h' : PlacedOnly plan root others s' s'') :
    PlacedOnly plan root (directories ++ others) s s'' :=
  let ⟨between, hplaced, hrests⟩ := h'
  ⟨between, h.trans hplaced, hrests⟩

theorem documentDirectories_placed {result : Except Failure Unit} {analysis : Mapping String String}
    (hname : IsBare plan.manifestName) (hfs : s.fs.IsTree)
    (hall : ∀ directory ∈ directories, Documented root directory)
    (h : (documentDirectories plan client analysis root directories).run s = (result, s')) :
    ∃ done, PlacedOnly plan root done s s' := by
  induction directories generalizing s with
  | nil =>
    cases h
    exact ⟨[], .of_rests hfs ⟨rfl, rfl, .inl rfl⟩⟩
  | cons directory rest ih =>
    obtain ⟨hdirectory, hrest⟩ := List.forall_mem_cons.mp hall
    rw [documentDirectories, Run.run_bind] at h
    rcases hd : (documentDirectory plan client analysis root directory).run s with ⟨ending, s₁⟩
    rw [hd] at h
    rcases documentDirectory_placed hname hfs hdirectory hd with
      ⟨rfl, hplaced⟩ | ⟨failure, rfl, hrests⟩
    · obtain ⟨done, hdone⟩ := ih hplaced.isTree hrest h
      exact ⟨[directory] ++ done, hplaced.placedOnly hdone⟩
    · cases h
      exact ⟨[], .of_rests hfs hrests⟩

theorem documented_of_select {fs : FileSystem} {location : Location} {listed : List String}
    (h : FirstLevel.select fs (Path.ofLocation location) listed = .ok directories) :
    ∀ directory ∈ directories, Documented (Path.ofLocation location) directory := by
  intro directory hm
  obtain ⟨_, _, -, hselected⟩ := FirstLevel.select_ok h
  have hcandidate := hselected.isCandidate directory hm
  obtain ⟨text, -, rfl⟩ := List.mem_map.mp (hselected.sublist.subset hm)
  have hparent := of_decide_eq_true (Bool.and_eq_true_iff.mp hcandidate).1
  exact ⟨.inr hcandidate, congrArg Path.anchor hparent, fun _ => Path.isPart_of_mem_partsOf⟩

theorem documentAll_placed {result : Except Failure Unit} {location : Location}
    (hname : IsBare plan.manifestName) (hfs : s.fs.IsTree)
    (hlocation : ∀ part ∈ location, Path.IsPart part)
    (h : (documentAll plan client (Path.ofLocation location)).run s = (result, s')) :
    ∃ directories, PlacedOnly plan (Path.ofLocation location) directories s s' ∧
      (result = .ok () → Path.ofLocation location ∈ directories) := by
  have hcurrent : Still s { s with current := Path.ofLocation location } := ⟨rfl, rfl, rfl⟩
  have htree : ({ s with current := Path.ofLocation location } : Session σ).fs.IsTree := hfs
  have hroot : Documented (Path.ofLocation location) (Path.ofLocation location) :=
    ⟨.inl rfl, rfl, hlocation⟩
  rw [documentAll_run] at h
  rcases hr : (documentRoot plan client (Path.ofLocation location)).run
    { s with current := Path.ofLocation location } with ⟨ending, s₁⟩
  rw [hr] at h
  rcases documentRoot_placed hname htree hroot hr with
    ⟨collection, rfl, hplaced⟩ | ⟨failure, rfl, hrests⟩
  · have hfirst := (hcurrent.placed hfs).trans hplaced
    simp only at h
    rcases hselect : FirstLevel.select s₁.fs (Path.ofLocation location) collection.directories with
      failure | directories
    · rw [hselect] at h
      cases h
      exact ⟨_, .of_placed hfirst, fun hok => nomatch hok⟩
    · rw [hselect] at h
      obtain ⟨done, hdone⟩ := documentDirectories_placed hname hplaced.isTree
        (documented_of_select hselect) h
      exact ⟨_, hfirst.placedOnly hdone, fun _ => List.mem_cons_self⟩
  · cases h
    exact ⟨[], .of_rests hfs (hrests.of_still hcurrent), fun hok => nomatch hok⟩

structure Lies (plan : Plan) (root : Path) (directories : List Path) (s s' : Session σ)
    (result : Except Failure Outcome) : Prop where
  placed : PlacedOnly plan root directories s s'
  /-- The texts that tell of the manifests tell their paths. -/
  told : ∀ directory ∈ directories,
    Path.ofString (manifestPath plan directory).toString = manifestPath plan directory
  outcome : ∀ outcome, result = .ok outcome → root ∈ directories ∧
    outcome.path = (manifestPath plan root).toString ∧ outcome.manifests = s'.manifests

theorem run_lies {text : String} {location : Location} (hname : IsBare plan.manifestName)
    (hfs : s.fs.IsTree) (hlocate : s.fs.locate (Path.ofString text) = .ok location) :
    ∃ directories, Lies plan (Path.ofLocation location) directories s
      ((run plan client text).run s).2 ((run plan client text).run s).1 := by
  rcases hall : (documentAll plan client (Path.ofLocation location)).run s with ⟨result, s'⟩
  obtain ⟨directories, ⟨between, hplaced, hrests⟩, hroot⟩ :=
    documentAll_placed hname hfs (hfs.locate_parts hlocate) hall
  have htold : ∀ directory ∈ directories,
      Path.ofString (manifestPath plan directory).toString = manifestPath plan directory :=
    fun directory hm => (hplaced.documented directory hm).ofString_manifestPath hname
  refine ⟨directories, ?_⟩
  rw [run_located hlocate]
  rcases result with failure | ⟨⟩
  · rw [logged_error hall]
    refine ⟨⟨between, hplaced, ?_⟩, htold, fun _ hok => nomatch hok⟩
    -- The log of a failure is kept besides the manifests.
    cases failure.isHandled <;> exact ⟨hrests.fs, hrests.manifests, hrests.requests⟩
  · rw [logged_ok hall]
    refine ⟨⟨between, hplaced, hrests.fs, hrests.manifests, hrests.requests⟩, htold, ?_⟩
    rintro _ ⟨⟩
    exact ⟨hroot rfl, by rw [manifestPath_eq hname]; rfl, rfl⟩

/-- The names that pass are those that stay in any directory: not empty, without a slash, and
neither of the dot names. Settings hold no others, and each manifest of a run lies directly in the
directory that it is about. -/
theorem manifests_placed (name : String) :
    (Setting.manifestNameOf (.str name) = .ok name ↔
      name ≠ "" ∧ '/' ∉ name.toList ∧ name ≠ "." ∧ name ≠ "..") ∧
    (∀ fs environment given settings, (Settings.read fs environment given).result = .ok settings →
      settings.manifestName = name → Setting.manifestNameOf (.str name) = .ok name) ∧
    (Setting.manifestNameOf (.str name) = .ok name →
      (∀ directory : Path, (directory.join (Path.ofString name)).parent = directory ∧
        (directory.join (Path.ofString name)).name = name) ∧
      ∀ (σ : Type) (plan : Plan) (client : Client σ) (text : String) (s : Session σ),
        plan.manifestName = name → s.fs.IsTree →
        (∀ failure, s.fs.locate (Path.ofString text) = .error failure →
          (run plan client text).run s = (.error failure, s)) ∧
        ∀ root, s.fs.locate (Path.ofString text) = .ok root →
          ∃ directories, Lies plan (Path.ofLocation root) directories s
            ((run plan client text).run s).2 ((run plan client text).run s).1) := by
  have hpasses : Setting.manifestNameOf (.str name) = .ok name ↔ IsBare name := by
    rw [Setting.manifestNameOf_eq_ok]
    exact and_iff_right rfl
  rw [hpasses]
  refine ⟨isBare_iff, ?_, fun hname => ⟨fun directory => ?_, ?_⟩⟩
  · rintro fs environment given settings hread rfl
    exact Settings.isBare_manifestName hread
  · rw [Path.join_of_isBare hname]
    exact ⟨Path.parent_child directory name, Path.name_child directory name⟩
  · rintro σ plan client text s rfl hfs
    exact ⟨fun failure => run_unlocated, fun root => run_lies hname hfs⟩

theorem manifests_placed_smallTree :
    Setting.manifestNameOf (.str "m.yaml") = .ok "m.yaml" ∧
      ((Path.ofString "/w/a").join (Path.ofString "m.yaml")).parent = Path.ofString "/w/a" ∧
      (∃ directories, Lies smallPlan (Path.ofLocation ["w"]) directories
        (Session.start smallTree 0)
        ((run smallPlan readyClient "/w").run (Session.start smallTree 0)).2
        ((run smallPlan readyClient "/w").run (Session.start smallTree 0)).1) ∧
      ((run smallPlan readyClient "/w").run (Session.start smallTree 0)).2.manifests =
        ["/w/m.yaml", "/w/a/m.yaml", "/w/b/m.yaml"] := by
  obtain ⟨hpasses, -, hplaced⟩ := manifests_placed "m.yaml"
  have hname : Setting.manifestNameOf (.str "m.yaml") = .ok "m.yaml" := hpasses.mpr (by decide)
  have hfs : (Session.start smallTree 0).fs.IsTree := by decide
  obtain ⟨hjoin, hlies⟩ := hplaced hname
  refine ⟨hname, (hjoin _).1, ?_, by decide +kernel⟩
  exact (hlies Nat smallPlan readyClient "/w" _ rfl hfs).2 ["w"] locate_smallTree

end TreeManifest.Documentation
