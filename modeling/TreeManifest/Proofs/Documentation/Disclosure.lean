import TreeManifest.Proofs.Documentation.Course
import TreeManifest.Proofs.Documentation.Mirror

/-!
# What a run tells of files that are not listed

A description of a directory reads the files that are listed, its definitions come from every source
file directly in it. Of two trees that differ only in files that are not listed, a run asks the same
exactly as long as it finds the same definitions in them, and where it does not, the contents of such
a file have reached the model (`run_requests_ne_iff`).
-/

namespace TreeManifest.Documentation

variable {σ : Type} {plan : Plan} {client : Client σ} {grammars : Source.Grammars} {limit : Int}
  {fs fs' : FileSystem} {s s' t t' : Session σ} {analysis : Mapping String String}
  {root directory : Path} {directories : List Path}

-- ---------------------------------------------------------------------------
-- Requests stay
-- ---------------------------------------------------------------------------

theorem document_requests (request : Request) (s : Session σ) :
    ((document plan client directory request).run s).2.requests = s.requests ++ [request] := by
  rcases ha : (Manifest.absorb s.usage.recordCall (client request s.client).1).2 with failure | text
  · rw [document_unanswered ha]
    rfl
  rcases hw : Manifest.writeText s.fs (directory.child plan.manifestName) text with failure | fs
  · rw [document_unwritten ha hw]
    rfl
  · rw [document_ok (Run.generateManifest_ok ha hw)]
    rfl

theorem extract_requests {found : Json × Source.Parsers}
    (hx : (plan.extractor s.fs s.parsers directory).result = .ok found) :
    ∃ s₁, (extract plan directory).run s = (.ok found.1, s₁) ∧ s₁.fs = s.fs ∧
      s₁.requests = s.requests := by
  rw [extract_run]
  rcases hr : plan.extractor s.fs s.parsers directory with ⟨events, result⟩
  rw [hr] at hx
  obtain rfl : result = .ok found := hx
  exact ⟨_, rfl, rfl, rfl⟩

theorem documentDirectory_asks {found : Json × Source.Parsers}
    (hx : (plan.extractor s.fs s.parsers directory).result = .ok found) :
    ((documentDirectory plan client analysis root directory).run s).2.requests =
      s.requests ++ [directoryAsk plan analysis root directory found.1] := by
  obtain ⟨s₁, hrun, -, hrequests⟩ : ∃ s₁, (extract plan directory).run
      { s with current := directory } = (.ok found.1, s₁) ∧ s₁.fs = s.fs ∧
        s₁.requests = s.requests := extract_requests hx
  rw [documentDirectory_run, hrun]
  simp only
  rw [document_requests, hrequests]

theorem documentDirectory_grows (analysis : Mapping String String) (root directory : Path)
    (s : Session σ) : s.requests <+:
      ((documentDirectory plan client analysis root directory).run s).2.requests := by
  rcases hrun : (documentDirectory plan client analysis root directory).run s with ⟨result, s'⟩
  rcases documentDirectory_cases hrun with ⟨_, -, hstep⟩ | ⟨_, -, hstuck⟩
  · exact ⟨_, hstep.requests.symm⟩
  · rcases hstuck.requests with hsame | ⟨request, -, hmore⟩
    · exact ⟨[], by rw [hsame, List.append_nil]⟩
    · exact ⟨[request], hmore.symm⟩

theorem documentDirectories_grows (analysis : Mapping String String) (root : Path)
    (directories : List Path) (s : Session σ) : s.requests <+:
      ((documentDirectories plan client analysis root directories).run s).2.requests := by
  induction directories generalizing s with
  | nil => exact List.prefix_rfl
  | cons directory rest ih =>
    have hfirst := @documentDirectory_grows σ plan client analysis root directory s
    rw [documentDirectories, Run.run_bind]
    rcases hrun : (documentDirectory plan client analysis root directory).run s with
      ⟨failure | ⟨⟩, s₁⟩
    · rw [hrun] at hfirst
      exact hfirst
    · rw [hrun] at hfirst
      exact hfirst.trans (ih s₁)

theorem Starts.asks (h : Starts plan client analysis root directories s directory s')
    {found : Json × Source.Parsers}
    (hx : (plan.extractor s'.fs s'.parsers directory).result = .ok found) :
    s'.requests ++ [directoryAsk plan analysis root directory found.1] <+:
      ((documentDirectories plan client analysis root directories).run s).2.requests := by
  induction h with
  | here directory rest s =>
    have hasks : ((documentDirectory plan client analysis root directory).run s).2.requests =
        s.requests ++ [directoryAsk plan analysis root directory found.1] :=
      documentDirectory_asks hx
    rw [documentDirectories, Run.run_bind]
    rcases hrun : (documentDirectory plan client analysis root directory).run s with
      ⟨failure | ⟨⟩, s₁⟩
    · rw [hrun] at hasks
      exact hasks ▸ List.prefix_rfl
    · rw [hrun] at hasks
      exact hasks ▸ documentDirectories_grows analysis root rest s₁
  | later hrun _ ih =>
    rw [documentDirectories, Run.run_bind_ok hrun]
    exact ih hx

theorem Starts.requests (h : Starts plan client analysis root directories s directory s') :
    s.requests <+: s'.requests := by
  induction h with
  | here directory rest s => exact List.prefix_rfl
  | @later first rest s s₁ s₂ next hrun _ ih =>
    have hfirst := @documentDirectory_grows σ plan client analysis root first s
    rw [hrun] at hfirst
    exact hfirst.trans ih

theorem documentRoot_asks (hlister : plan.lister = .walking) {found : Json × Source.Parsers}
    {collection : Collection}
    (hx : (plan.extractor s.fs s.parsers root).result = .ok found)
    (hc : (Collection.collect s.fs .walking root.toString plan.maxListed).result = .ok collection) :
    ((documentRoot plan client root).run s).2.requests =
      s.requests ++ [rootAsk plan collection.analysis root found.1] := by
  obtain ⟨s₁, hrun, hfs, hrequests⟩ := extract_requests hx
  obtain ⟨s₂, hlook, hrequests'⟩ : ∃ s₂, (Run.look fun fs =>
      Collection.collect fs .walking root.toString plan.maxListed).run s₁ = (.ok collection, s₂) ∧
        s₂.requests = s₁.requests := ⟨_, Run.run_look_ok (hfs ▸ hc), rfl⟩
  have hasks := @document_requests σ plan client root
    (rootAsk plan collection.analysis root found.1) s₂
  rw [documentRoot_run hlister, hrun]
  simp only [hlook]
  rw [hrequests', hrequests] at hasks
  rcases hd : (document plan client root (rootAsk plan collection.analysis root found.1)).run s₂ with
    ⟨failure | ⟨⟩, s₃⟩
  · rw [hd] at hasks
    exact hasks
  · rw [hd] at hasks
    exact hasks

theorem documentAll_grows (root : Path) (s : Session σ) :
    ((documentRoot plan client root).run { s with current := root }).2.requests <+:
      ((documentAll plan client root).run s).2.requests := by
  rw [documentAll_run]
  rcases (documentRoot plan client root).run { s with current := root } with
    ⟨failure | collection, s₁⟩
  · exact List.prefix_rfl
  simp only
  rcases FirstLevel.select s₁.fs root collection.directories with failure | directories
  · exact List.prefix_rfl
  · exact documentDirectories_grows collection.analysis root directories s₁

/-- What a step on the way asks stays among the requests of the run. -/
theorem Begins.asks (hlister : plan.lister = .walking)
    (h : Begins plan client root s directory s') {found : Json × Source.Parsers}
    (hx : (plan.extractor s'.fs s'.parsers directory).result = .ok found) :
    ∃ collection, (Collection.collect s.fs .walking root.toString plan.maxListed).result =
        .ok collection ∧
      (s'.requests = s.requests ∧ s.requests ++ [rootAsk plan collection.analysis root found.1] <+:
          ((documentAll plan client root).run s).2.requests ∨
        s.requests.length < s'.requests.length ∧
          s'.requests ++ [directoryAsk plan collection.analysis root directory found.1] <+:
            ((documentAll plan client root).run s).2.requests) := by
  cases h with
  | @root collection hc =>
    refine ⟨collection, hc, .inl ⟨rfl, ?_⟩⟩
    have hasks := @documentRoot_asks σ plan client { s with current := root } root hlister found
      collection hx hc
    rw [← hasks]
    exact documentAll_grows root s
  | @directory collection directories s₁ _ _ hroot hselect hstarts =>
    have hcurrent : ({ s with current := root } : Session σ).current = root := rfl
    rcases documentRoot_cases hlister hcurrent hroot with
      ⟨definitions, _, hr, hc, hstep⟩ | ⟨failure, hr, -⟩
    · cases hr
      refine ⟨collection, hc, .inr ⟨?_, ?_⟩⟩
      · have hgrows := hstarts.requests.length_le
        rw [hstep.requests, List.length_append] at hgrows
        exact hgrows
      · rw [documentAll_run, hroot]
        simp only [hselect]
        exact hstarts.asks hx
    · cases hr

theorem eq_of_front {xs zs : List Request} {request request' : Request}
    (h : xs ++ [request] <+: zs) (h' : xs ++ [request'] <+: zs) : request = request' := by
  have hlength : (xs ++ [request]).length = (xs ++ [request']).length := by simp
  have heq := (List.prefix_of_prefix_length_le h h' hlength.le).eq_of_length hlength
  exact List.singleton_inj.mp (List.append_cancel_left heq)

theorem Begins.differs (hlister : plan.lister = .walking)
    (hcollect : Collection.collect s.fs .walking root.toString plan.maxListed =
      Collection.collect t.fs .walking root.toString plan.maxListed)
    (hrequests : s.requests = t.requests) (h : Begins plan client root s directory s')
    (h' : Begins plan client root t directory t') (hsame : s'.requests = t'.requests)
    (hd : Differs plan directory s' t') :
    ((documentAll plan client root).run s).2.requests ≠
      ((documentAll plan client root).run t).2.requests := by
  intro hall
  obtain ⟨found, found', hx, hx', hne⟩ := hd
  obtain ⟨collection, hc, hasks⟩ := h.asks hlister hx
  obtain ⟨collection', hc', hasks'⟩ := h'.asks hlister hx'
  rw [← hcollect, hc] at hc'
  cases hc'
  rw [← hall] at hasks'
  rcases hasks with ⟨hfirst, hasks⟩ | ⟨hlater, hasks⟩ <;>
    rcases hasks' with ⟨hfirst', hasks'⟩ | ⟨hlater', hasks'⟩
  · rw [← hrequests] at hasks'
    exact hne (rootAsk_eq_iff.mp (eq_of_front hasks hasks'))
  · rw [← hsame, hfirst, hrequests] at hlater'
    exact absurd hlater' (Nat.lt_irrefl _)
  · rw [hsame, hfirst', hrequests] at hlater
    exact absurd hlater (Nat.lt_irrefl _)
  · rw [← hsame] at hasks'
    exact hne (directoryAsk_eq_iff.mp (eq_of_front hasks hasks'))

theorem Begins.planned (hsound : Sound plan location s.fs)
    (h : Begins plan client (Path.ofLocation location) s directory s') :
    directory ∈ planned plan s.fs (Path.ofLocation location) := by
  cases h with
  | root => exact List.mem_cons_self
  | @directory collection directories s₁ _ _ hroot hselect hstarts =>
    have hcurrent : ({ s with current := Path.ofLocation location } : Session σ).current =
        Path.ofLocation location := rfl
    rcases documentRoot_cases hsound.lister hcurrent hroot with
      ⟨definitions, _, hr, hc, hstep⟩ | ⟨failure, hr, -⟩
    · cases hr
      obtain ⟨hs₁, hgrown⟩ := hstep.tree hsound.isTree hsound.name hsound.isPart
      rw [← FirstLevel.select_eq hgrown.frame hsound.isTree hs₁] at hselect
      rw [planned_of_select hsound.lister hc hselect]
      exact List.mem_cons_of_mem _ hstarts.mem
    · cases hr

-- ---------------------------------------------------------------------------
-- Files that are not listed
-- ---------------------------------------------------------------------------

/-- Two trees that a listing of `root` does not tell apart: their ignore files are the same, and so
is the content of every file that is listed. -/
structure Veiled (limit : Int) (root : Location) (fs fs' : FileSystem) : Prop where
  ignore : ∀ base, fs.resolve (Path.ofLocation root) = .ok base →
    fs'.status (Path.ofLocation (base ++ [".gitignore"])) =
      fs.status (Path.ofLocation (base ++ [".gitignore"]))
  listed : ∀ listing,
    (Listing.list fs (Path.ofLocation root).toString true limit).result = .ok listing →
      ∀ entry ∈ listing.entries, fs.read (Path.ofString entry) = fs'.read (Path.ofString entry)

def Unlisted (limit : Int) (root : Location) (fs : FileSystem) (location : Location) : Prop :=
  ∀ listing, (Listing.list fs (Path.ofLocation root).toString true limit).result = .ok listing →
    ∀ path ∈ listing.entries, ∀ entry, fs.find (Path.ofString path) ≠ .ok (location, entry)

/-- A directory has a source file whose contents differ and that is not listed. -/
def Discloses (limit : Int) (root : Location) (fs fs' : FileSystem) (directory : Path) : Prop :=
  ∃ place name location octets octets', fs.resolve directory = .ok place ∧
    Source.Differing fs fs' place name location octets octets' ∧ Unlisted limit root fs location

theorem Veiled.unlisted {place location : Location} {name : String} {octets octets' : List UInt8}
    (h : Veiled limit location fs fs') (hfs : fs.IsTree) (halike : fs.Alike fs')
    (hfs' : fs'.IsTree) (hd : Source.Differing fs fs' place name there octets octets') :
    Unlisted limit location fs there := by
  intro listing hlist path hm entry hfind
  have hread := h.listed listing hlist path hm
  have hfind' := halike.find_eq hfs' hfind
  obtain rfl := hfs.entryAt?_of_find hfind
  rw [hfs.entryAt?_of_find hd.find] at hfind
  rw [hfs'.entryAt?_of_find hd.find'] at hfind'
  simp only [FileSystem.read, hfind, hfind', ← halike.frame.unreadable, if_neg hd.readable] at hread
  exact hd.ne (Except.ok.inj hread)

theorem Veiled.collect_eq {location : Location} (h : Veiled limit location fs fs')
    (halike : fs.Alike fs') (hfs : fs.IsTree) (hfs' : fs'.IsTree)
    (hparts : ∀ part ∈ location, Path.IsPart part) :
    Collection.collect fs .walking (Path.ofLocation location).toString limit =
      Collection.collect fs' .walking (Path.ofLocation location).toString limit := by
  refine Collection.collect_alike halike hfs hfs' (fun base hlocate => ?_) h.listed
  rw [Path.ofString_toString hparts] at hlocate
  exact (Listing.rulesOf_congr halike.frame.unreadable.symm
    (halike.find_congr hfs' (h.ignore base hlocate))).symm

theorem run_requests {text : String} {location : Location}
    (h : s.fs.locate (Path.ofString text) = .ok location) :
    ((run plan client text).run s).2.requests =
      ((documentAll plan client (Path.ofLocation location)).run s).2.requests := by
  rw [run_located h]
  rcases hall : (documentAll plan client (Path.ofLocation location)).run s with ⟨failure | ⟨⟩, s₁⟩
  · rw [logged_error hall]
    cases failure.isHandled <;> rfl
  · rw [logged_ok hall]

/-- Two runs on trees that the listing does not tell apart ask differently exactly if they come to a
directory whose definitions they find differently. That directory has a source file whose contents
differ and that is not listed. -/
theorem run_requests_ne_iff (plan : Plan) (grammars : Source.Grammars) (limit : Int)
    (client : Client σ) (text : String) (s t : Session σ)
    (hextractor : plan.extractor = .parsing grammars limit) (hlister : plan.lister = .walking)
    (hname : Setting.isBareName plan.manifestName = true) (hfs : s.fs.IsTree) (hfs' : t.fs.IsTree)
    (halike : s.fs.Alike t.fs)
    (hveiled : ∀ root, s.fs.locate (Path.ofString text) = .ok root →
      Veiled plan.maxListed root s.fs t.fs)
    (hparsers : s.parsers = t.parsers) (hclient : s.client = t.client)
    (hrequests : s.requests = t.requests) :
    (((run plan client text).run s).2.requests ≠ ((run plan client text).run t).2.requests ↔
      ∃ root, s.fs.locate (Path.ofString text) = .ok root ∧ ∃ directory s₁ t₁,
        Begins plan client (Path.ofLocation root) s directory s₁ ∧
        Begins plan client (Path.ofLocation root) t directory t₁ ∧
        s₁.requests = t₁.requests ∧ Differs plan directory s₁ t₁) ∧
    (((run plan client text).run s).2.requests ≠ ((run plan client text).run t).2.requests →
      ∃ root, s.fs.locate (Path.ofString text) = .ok root ∧
        ∃ directory ∈ planned plan s.fs (Path.ofLocation root),
          Discloses plan.maxListed root s.fs t.fs directory) := by
  have hlocate' := halike.frame.locate_eq hfs hfs' (Path.ofString text)
  rcases hlocate : s.fs.locate (Path.ofString text) with failure | root
  · rw [run_unlocated hlocate, run_unlocated (hlocate' ▸ hlocate)]
    simp [hrequests]
  have hveiled := hveiled root hlocate
  have hparts := hfs.locate_parts hlocate
  have hsound : Sound plan root s.fs := ⟨hlister, isBare_of_isBareName hname, hfs, hparts⟩
  have hcollect := hveiled.collect_eq halike hfs hfs' hparts
  have hstart : Mirrored s.fs t.fs s t :=
    ⟨hfs, hfs', .refl s.fs, ⟨halike, fun _ hne => hne⟩, hparsers, hclient, hrequests⟩
  rw [run_requests hlocate, run_requests (hlocate' ▸ hlocate)]
  have hmirrored := @documentAll_mirrored σ plan client grammars limit s.fs t.fs s t
    (Path.ofLocation root) hextractor hlister hsound.name hparts hstart hcollect
  refine ⟨⟨fun hne => ?_, ?_⟩, fun hne => ?_⟩
  · obtain ⟨directory, s₁, t₁, hs, ht, hsame, hdiffers⟩ := hmirrored.resolve_left hne
    exact ⟨root, rfl, directory, s₁, t₁, hs, ht, hsame.requests, hdiffers⟩
  · rintro ⟨_, heq, directory, s₁, t₁, hs, ht, hsame, hdiffers⟩
    cases heq
    exact hs.differs hlister hcollect hrequests ht hsame hdiffers
  · obtain ⟨directory, s₁, t₁, hs, ht, hsame, hdiffers⟩ := hmirrored.resolve_left hne
    obtain ⟨place, name, there, octets, octets', hresolve, hdiffering⟩ :=
      hdiffers.differing hextractor hsame hfs hfs' halike
    exact ⟨root, rfl, directory, hs.planned hsound, place, name, there, octets, octets', hresolve,
      hdiffering, hveiled.unlisted hfs halike hfs' hdiffering⟩

def sealedTree (source : String) : FileSystem :=
  FileSystem.put
    { entries := [(["w"], .directory),
        (["w", ".gitignore"], .file (Text.Utf8.encode "secret.py\n")), (["w", "main.py"], .file [])]
      working := ["w"]
      home := "/home"
      unreadable := [] }
    ["w", "secret.py"] (.file (Text.Utf8.encode source))

def functionGrammars : Source.Grammars where
  missingPackages := []
  missingEntries := []
  parse := fun _ octets =>
    if octets = [] then some []
    else some [⟨"function_definition", true, 0, 13, 0, [⟨"def", false, 0, 3, 0, []⟩,
      ⟨"identifier", true, 4, 5, 0, []⟩, ⟨"parameters", true, 5, 7, 0, []⟩,
      ⟨":", false, 7, 8, 0, []⟩, ⟨"block", true, 9, 13, 0, []⟩]⟩]

def sealedPlan : Plan where
  manifestName := "m.yaml"
  maxListed := 10
  extractor := .parsing functionGrammars 50
  lister := .walking

/-- The two trees differ in what a step finds in them. The characters of the printed definitions show
it already, so no strings are compared. -/
theorem sealedTree_differs :
    Differs sealedPlan (Path.ofLocation ["w"]) (Session.start (sealedTree "") 0)
      (Session.start (sealedTree "def f(): pass") 0) := by
  have hchars : ∃ found found',
      (sealedPlan.extractor (sealedTree "") [] (Path.ofLocation ["w"])).result.toOption =
        some found ∧
      (sealedPlan.extractor (sealedTree "def f(): pass") [] (Path.ofLocation ["w"])).result.toOption =
        some found' ∧
      found.1.indentedChars 0 ≠ found'.1.indentedChars 0 := by
    refine ⟨_, _, rfl, rfl, ?_⟩
    decide +kernel
  obtain ⟨found, found', hfound, hfound', hne⟩ := hchars
  exact ⟨found, found', eq_ok_of_toOption hfound, eq_ok_of_toOption hfound',
    fun heq => hne (String.ofList_injective heq)⟩

theorem run_requests_ne_sealedTree :
    ((run sealedPlan readyClient "/w").run (Session.start (sealedTree "") 0)).2.requests ≠
        ((run sealedPlan readyClient "/w").run
          (Session.start (sealedTree "def f(): pass") 0)).2.requests ∧
      ∃ directory ∈ planned sealedPlan (sealedTree "") (Path.ofLocation ["w"]),
        Discloses 10 ["w"] (sealedTree "") (sealedTree "def f(): pass") directory := by
  have hlocate : (sealedTree "").locate (Path.ofString "/w") = .ok ["w"] := rfl
  have hresolve : (sealedTree "").resolve (Path.ofLocation ["w"]) = .ok ["w"] := rfl
  have hlist : (Listing.list (sealedTree "") (Path.ofLocation ["w"]).toString true 10).result.toOption =
      some ⟨["/w/.gitignore", "/w/main.py"], false⟩ := by decide +kernel
  have hveiled : ∀ root, (sealedTree "").locate (Path.ofString "/w") = .ok root →
      Veiled 10 root (sealedTree "") (sealedTree "def f(): pass") := by
    intro root hroot
    cases hlocate.symm.trans hroot
    refine ⟨fun base hbase => ?_, fun listing hlisting => ?_⟩
    · cases hresolve.symm.trans hbase
      decide
    · rw [hlisting] at hlist
      cases hlist
      decide
  have halike : (sealedTree "").Alike (sealedTree "def f(): pass") :=
    FileSystem.alike_put (by decide) (by decide) _ _
  obtain ⟨_, hc⟩ : ∃ collection, (Collection.collect (sealedTree "") .walking
      (Path.ofLocation ["w"]).toString 10).result = .ok collection :=
    exists_ok_of_isSome (by decide +kernel)
  obtain ⟨_, hc'⟩ : ∃ collection, (Collection.collect (sealedTree "def f(): pass") .walking
      (Path.ofLocation ["w"]).toString 10).result = .ok collection :=
    exists_ok_of_isSome (by decide +kernel)
  have hiff := run_requests_ne_iff sealedPlan functionGrammars 50 readyClient "/w"
    (Session.start (sealedTree "") 0) (Session.start (sealedTree "def f(): pass") 0)
    rfl rfl (by decide) (by decide) (by decide) halike hveiled rfl rfl rfl
  have hne := hiff.1.mpr ⟨["w"], hlocate, Path.ofLocation ["w"], _, _, .root hc, .root hc', rfl,
    sealedTree_differs⟩
  obtain ⟨root, hroot, hdiscloses⟩ := hiff.2 hne
  cases hlocate.symm.trans hroot
  exact ⟨hne, hdiscloses⟩

end TreeManifest.Documentation
