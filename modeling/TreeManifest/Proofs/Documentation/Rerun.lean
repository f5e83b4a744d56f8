import TreeManifest.Proofs.Documentation.Course
import TreeManifest.Proofs.Listing.Grown
import TreeManifest.Proofs.Source.Extraction

/-!
# Running again

What a run has left, its steps go through again without a change (`Settled`, `Steps.settled`). The
manifests are files that the second listing holds in addition, so the directories of the second run
are the first of those of the first one (`Collection.collect_grown`), and each of them gets the
reply that it got before (`run_again`).
-/

namespace TreeManifest

open FileSystem (Extends)

-- ---------------------------------------------------------------------------
-- The second collection
-- ---------------------------------------------------------------------------

theorem Collection.collect_grown {fs fs' : FileSystem} {root : String} {limit : Int}
    {collection : Collection} {base : Location} (h : fs.Extends fs') (hfs : fs.IsTree)
    (hfs' : fs'.IsTree) (hlocate : fs.locate (Path.ofString root) = .ok base)
    (hrules : Listing.rulesOf fs' base = Listing.rulesOf fs base)
    (hc : (collect fs .walking root limit).result = .ok collection) :
    ∃ again, (collect fs' .walking root limit).result = .ok again ∧
      again.directories <+: collection.directories := by
  obtain ⟨listing, hlist, hdirectories, -⟩ := list_of_collect hc
  obtain ⟨listing', hlist', hfront⟩ := Listing.list_grown h hfs hfs' hlocate hrules hlist
  obtain ⟨again, hagain, hdirectories'⟩ := collect_of_list hlist'
  exact ⟨again, hagain, hdirectories' ▸ hdirectories ▸ hfront⟩

namespace Documentation

variable {plan : Plan}

-- ---------------------------------------------------------------------------
-- Steps that change nothing
-- ---------------------------------------------------------------------------

structure Settled (plan : Plan) (fs : FileSystem) (directory : Path) (reply : Reply) : Prop where
  extracted : ∀ parsers, ∃ found, (plan.extractor fs parsers directory).result = .ok found
  answered : ∀ usage, (Manifest.absorb usage reply).2 = .ok reply.text
  written : Manifest.writeText fs (directory.child plan.manifestName) reply.text = .ok fs

section
variable {σ : Type} {client : Client σ} {s : Session σ} {directory : Path}

theorem extract_found (h : ∃ found, (plan.extractor s.fs s.parsers directory).result = .ok found) :
    ∃ definitions s', (extract plan directory).run s = (.ok definitions, s') ∧ s'.fs = s.fs ∧
      s'.client = s.client := by
  obtain ⟨⟨definitions, parsers⟩, hfound⟩ := h
  rw [extract_run]
  rcases hx : plan.extractor s.fs s.parsers directory with ⟨events, result⟩
  rw [hx] at hfound
  obtain rfl : result = .ok (definitions, parsers) := hfound
  exact ⟨definitions, _, rfl, rfl, rfl⟩

theorem document_settled {request : Request}
    (h : Settled plan s.fs directory (client request s.client).1) :
    ∃ s', (document plan client directory request).run s = (.ok (), s') ∧ s'.fs = s.fs ∧
      s'.client = (client request s.client).2 :=
  ⟨_, document_ok (Run.generateManifest_ok (h.answered s.usage.recordCall) h.written), rfl, rfl⟩

end

variable {answers : Nat → Reply} {t : Session Nat} {directory : Path}

theorem documentDirectory_settled (analysis : Mapping String String) (root : Path)
    (h : Settled plan t.fs directory (answers t.client)) :
    ∃ t', (documentDirectory plan (.scripted answers) analysis root directory).run t =
      (.ok (), t') ∧ t'.fs = t.fs ∧ t'.client = t.client + 1 := by
  have hmodify : (modify fun s : Session Nat => { s with current := directory } : Run Nat Unit).run t =
      (.ok (), { t with current := directory }) := rfl
  obtain ⟨definitions, t₁, hx, hfs, hclient⟩ : ∃ definitions t₁,
      (extract plan directory).run { t with current := directory } = (.ok definitions, t₁) ∧
        t₁.fs = t.fs ∧ t₁.client = t.client := extract_found (h.extracted t.parsers)
  have hsettled : Settled plan t₁.fs directory (answers t₁.client) := hfs ▸ hclient ▸ h
  obtain ⟨t₂, hd, hfs', hclient'⟩ : ∃ t₂, (document plan (.scripted answers) directory
      (directoryAsk plan analysis root directory definitions)).run t₁ = (.ok (), t₂) ∧
        t₂.fs = t₁.fs ∧ t₂.client = t₁.client + 1 := document_settled hsettled
  refine ⟨t₂, ?_, hfs'.trans hfs, hclient'.trans (congrArg (· + 1) hclient)⟩
  unfold documentDirectory
  rw [Run.run_bind_ok hmodify, Run.run_bind_ok hx]
  exact hd

theorem documentDirectories_settled (analysis : Mapping String String) (root : Path)
    {directories : List Path} (h : ∀ p ∈ directories.zipIdx t.client,
      Settled plan t.fs p.1 (answers p.2)) :
    ∃ t', (documentDirectories plan (.scripted answers) analysis root directories).run t =
      (.ok (), t') ∧ t'.fs = t.fs := by
  induction directories generalizing t with
  | nil => exact ⟨t, rfl, rfl⟩
  | cons directory rest ih =>
    rw [List.zipIdx_cons, List.forall_mem_cons] at h
    obtain ⟨t₁, hrun, hfs, hclient⟩ := documentDirectory_settled analysis root h.1
    obtain ⟨t₂, hrest, hfs'⟩ := @ih t₁ (hfs ▸ hclient ▸ h.2)
    refine ⟨t₂, ?_, hfs'.trans hfs⟩
    rw [documentDirectories, Run.run_bind_ok hrun]
    exact hrest

theorem documentRoot_settled {root : Path} {collection : Collection}
    (hlister : plan.lister = .walking) (h : Settled plan t.fs root (answers t.client))
    (hc : (Collection.collect t.fs .walking root.toString plan.maxListed).result = .ok collection) :
    ∃ t', (documentRoot plan (.scripted answers) root).run t = (.ok collection, t') ∧
      t'.fs = t.fs ∧ t'.client = t.client + 1 := by
  obtain ⟨definitions, t₁, hx, hfs, hclient⟩ : ∃ definitions t₁,
      (extract plan root).run t = (.ok definitions, t₁) ∧ t₁.fs = t.fs ∧ t₁.client = t.client :=
    extract_found (h.extracted t.parsers)
  obtain ⟨t₂, hlook, hfs', hclient'⟩ : ∃ t₂, (Run.look fun fs =>
      Collection.collect fs plan.lister root.toString plan.maxListed).run t₁ =
        (.ok collection, t₂) ∧ t₂.fs = t₁.fs ∧ t₂.client = t₁.client :=
    ⟨_, Run.run_look_ok (by rw [hfs, hlister, hc]), rfl, rfl⟩
  have hsettled : Settled plan t₂.fs root (answers t₂.client) :=
    hfs' ▸ hclient' ▸ hfs ▸ hclient ▸ h
  obtain ⟨t₃, hd, hfs'', hclient''⟩ : ∃ t₃, (document plan (.scripted answers) root
      (rootAsk plan collection.analysis root definitions)).run t₂ = (.ok (), t₃) ∧
        t₃.fs = t₂.fs ∧ t₃.client = t₂.client + 1 := document_settled hsettled
  refine ⟨t₃, ?_, hfs''.trans (hfs'.trans hfs), ?_⟩
  · unfold documentRoot
    rw [Run.run_bind_ok hx, Run.run_bind_ok hlook]
    exact Run.run_bind_ok hd
  · rw [hclient'', hclient', hclient]

theorem run_settled {text : String} {root : Location} {collection : Collection}
    {directories : List Path} (hlister : plan.lister = .walking)
    (hlocate : t.fs.locate (Path.ofString text) = .ok root)
    (hc : (Collection.collect t.fs .walking (Path.ofLocation root).toString plan.maxListed).result =
      .ok collection)
    (hs : FirstLevel.select t.fs (Path.ofLocation root) collection.directories = .ok directories)
    (h : ∀ p ∈ (Path.ofLocation root :: directories).zipIdx t.client,
      Settled plan t.fs p.1 (answers p.2)) :
    ∃ outcome t', (run plan (.scripted answers) text).run t = (.ok outcome, t') ∧ t'.fs = t.fs := by
  rw [List.zipIdx_cons, List.forall_mem_cons] at h
  have hmodify : (modify fun s : Session Nat => { s with current := Path.ofLocation root } :
      Run Nat Unit).run t = (.ok (), { t with current := Path.ofLocation root }) := rfl
  obtain ⟨t₁, hroot, hfs, hclient⟩ : ∃ t₁,
      (documentRoot plan (.scripted answers) (Path.ofLocation root)).run
        { t with current := Path.ofLocation root } = (.ok collection, t₁) ∧
          t₁.fs = t.fs ∧ t₁.client = t.client + 1 := documentRoot_settled hlister h.1 hc
  obtain ⟨t₂, hlook, hfs', hclient'⟩ : ∃ t₂, (Run.look fun fs => Report.ofExcept
      (FirstLevel.select fs (Path.ofLocation root) collection.directories)).run t₁ =
        (.ok directories, t₂) ∧ t₂.fs = t₁.fs ∧ t₂.client = t₁.client :=
    ⟨_, Run.run_look_ok (by rw [hfs, hs]; rfl), rfl, rfl⟩
  obtain ⟨t₃, hrest, hfs''⟩ : ∃ t₃, (documentDirectories plan (.scripted answers)
      collection.analysis (Path.ofLocation root) directories).run t₂ = (.ok (), t₃) ∧
        t₃.fs = t₂.fs := by
    refine documentDirectories_settled _ _ ?_
    rw [hfs', hclient', hfs, hclient]
    exact h.2
  have hall : (documentAll plan (.scripted answers) (Path.ofLocation root)).run t = (.ok (), t₃) := by
    unfold documentAll
    rw [Run.run_bind_ok hmodify, Run.run_bind_ok hroot, Run.run_bind_ok hlook]
    exact hrest
  rw [run_located hlocate, logged_ok hall]
  exact ⟨_, _, rfl, hfs''.trans (hfs'.trans hfs)⟩

-- ---------------------------------------------------------------------------
-- After a run
-- ---------------------------------------------------------------------------

variable {s s' : Session Nat} {turns : List Turn} {grammars : Source.Grammars} {limit : Int}
  {text : String}

/-- A step that has succeeded is settled in a tree that has grown since and holds its manifest. -/
theorem Step.settled {turn : Turn} {fs : FileSystem}
    (hextractor : plan.extractor = .parsing grammars limit)
    (h : Step plan (.scripted answers) turn s s') (hfs : s.fs.IsTree) (htree : fs.IsTree)
    (hgrown : s.fs.Extends fs) (hread : fs.read (turn.directory.child plan.manifestName) =
      .ok (Text.Utf8.encode (answers s.client).text)) :
    Settled plan fs turn.directory (answers s.client) := by
  obtain ⟨usage, hanswered, hwrite⟩ := h.written
  refine ⟨fun parsers => ?_, fun other => ?_, ?_⟩
  · have hfound := h.extracted
    rw [hextractor] at hfound ⊢
    exact Extractor.parsing_frame hgrown.frame hfs htree
      (fun _ hs => hgrown.names_unsearchable hfs htree hs) parsers hfound
  · exact (Manifest.absorb_text_eq other usage (answers s.client)).trans hanswered
  · obtain ⟨hnull, hfirst⟩ := FileSystem.writeText_eq_ok.mp hwrite
    exact FileSystem.writeText_eq_ok.mpr ⟨hnull, htree.write_read hgrown.frame hfirst hread⟩

/-- Every step is settled in the tree that the steps leave. -/
theorem Steps.settled (hextractor : plan.extractor = .parsing grammars limit)
    (h : Steps plan (.scripted answers) turns s s') (hname : IsBare plan.manifestName)
    (hlink : ∀ turn ∈ turns, s.fs.isLink (turn.directory.child plan.manifestName) = false)
    (hfs : s.fs.IsTree)
    (hread : List.Forall₂ (fun turn reply => s'.fs.read (turn.directory.child plan.manifestName) =
        .ok (Text.Utf8.encode reply.text))
      turns ((Client.scripted answers).replies s.client (turns.map (·.request)))) :
    ∀ p ∈ (turns.map (·.directory)).zipIdx s.client, Settled plan s'.fs p.1 (answers p.2) := by
  induction h with
  | nil => exact List.forall_mem_nil _
  | @cons turn turns s₀ s₁ s₂ hstep hsteps ih =>
    obtain ⟨_, heffect⟩ := (Steps.cons hstep hsteps).effect hfs hname hlink
    rw [List.forall_mem_cons] at hlink
    cases hread with
    | cons hfirst hrest =>
      rw [List.map_cons, List.zipIdx_cons, List.forall_mem_cons]
      refine ⟨hstep.settled hextractor hfs heffect.isTree heffect.grown hfirst, ?_⟩
      obtain ⟨location, htarget, hput⟩ := hstep.effect hfs hname hlink.1
      have hafter : s₁.fs.IsTree ∧ s₀.fs.Extends s₁.fs := hput ▸ htarget.put hfs
      have hstate : s₁.client = s₀.client + 1 := hstep.state
      rw [← hstate]
      refine ih ?_ hafter.1 (hstate ▸ hrest)
      exact fun other hm => hafter.2.frame.isLink_eq _ ▸ hlink.2 other hm

variable {root : Location} {collection : Collection} {definitions : Json}
  {directories : List Path}

theorem Course.rules {base top : Location} {items : List Item}
    (hsound : Sound plan root s.fs) (hlink : Linkless plan root s.fs)
    (hignore : plan.manifestName ≠ ".gitignore")
    (hplain : s.fs.isLink ((Path.ofLocation base).child ".gitignore") = false)
    (hcollected : Collected s.fs root plan.maxListed collection base top items)
    (h : Course plan (.scripted answers) root collection definitions directories turns s s') :
    Listing.rulesOf s'.fs base = Listing.rulesOf s.fs base := by
  obtain ⟨locations, heffect, -⟩ := h.effect hsound hlink
  have hbare : IsBare ".gitignore" := isBare_of_isBareName (by decide)
  have hkept : s'.fs.entryAt? (top ++ [".gitignore"]) = s.fs.entryAt? (top ++ [".gitignore"]) := by
    refine heffect.unchanged fun directory _ heq => hignore ?_
    obtain ⟨-, hnames⟩ := List.append_inj' heq rfl
    exact (List.cons.inj hnames).1.symm
  exact Listing.rulesOf_congr heffect.grown.frame.unreadable.symm
    (FileSystem.find_child_eq hsound.isTree heffect.isTree heffect.grown.frame hcollected.find hbare
      hplain hkept)

/-- A run on the tree that a run has left gives a result again and leaves the tree as it is. -/
theorem run_again (plan : Plan) (grammars : Source.Grammars) (limit : Int) (answers : Nat → Reply)
    (text : String) (s s' t : Session Nat) (outcome : Outcome)
    (hextractor : plan.extractor = .parsing grammars limit) (hlister : plan.lister = .walking)
    (hname : Setting.isBareName plan.manifestName = true)
    (hignore : plan.manifestName ≠ ".gitignore") (hfs : s.fs.IsTree)
    (hlink : ∀ root, s.fs.locate (Path.ofString text) = .ok root → Linkless plan root s.fs ∧
      s.fs.isLink ((Path.ofLocation root).child ".gitignore") = false)
    (h : (run plan (.scripted answers) text).run s = (.ok outcome, s'))
    (hclient : t.client = s.client) (hsame : t.fs = s'.fs) :
    ∃ again t', (run plan (.scripted answers) text).run t = (.ok again, t') ∧ t'.fs = t.fs := by
  obtain ⟨root, hlocate⟩ := locate_of_run_ok h
  obtain ⟨hlinkless, hplain⟩ := hlink root hlocate
  have hsound := sound_of_locate hlister hname hfs hlocate
  obtain ⟨collection, definitions, turns, s₁, hcourse, hleft, -⟩ := run_course hsound hlocate h
  obtain ⟨locations, heffect, hnodup⟩ := hcourse.effect hsound hlinkless
  have hleft' : t.fs = s₁.fs := hsame.trans hleft
  -- The second listing: more files under the same rules.
  obtain ⟨base, top, items, hcollected, hbase⟩ := hcourse.exists_items hsound
  have hplain' : s.fs.isLink ((Path.ofLocation base).child ".gitignore") = false := by
    rw [FileSystem.isLink_child_congr ".gitignore" (hbase.find hfs) hbase, hplain]
  have hbelow : s.fs.locate (Path.ofString (Path.ofLocation root).toString) = .ok base := by
    rw [Path.ofString_toString hsound.isPart]
    exact hcollected.resolve
  obtain ⟨again, hagain, hfront⟩ := Collection.collect_grown heffect.grown hfs heffect.isTree
    hbelow (hcourse.rules hsound hlinkless hignore hplain' hcollected) hcourse.collected
  -- Its directories are the first ones of before.
  obtain ⟨others, hselect⟩ : ∃ others,
      FirstLevel.select s₁.fs (Path.ofLocation root) again.directories = .ok others := by
    obtain ⟨_, _, _, hcollected'⟩ := Collection.collect_ok heffect.isTree hsound.isPart hagain
    exact hcollected'.select_total heffect.isTree
  have hfront : others <+: turns.map (·.directory) := FirstLevel.select_front hfront hselect
    (FirstLevel.select_eq heffect.grown.frame hfs heffect.isTree ▸ hcourse.selected)
  have hsettled := hcourse.steps.settled hextractor hsound.name ?_ hfs (heffect.read hnodup)
  · refine run_settled hlister ?_ (hleft' ▸ hagain) (hleft' ▸ hselect) ?_
    · rw [hleft', ← heffect.grown.frame.locate_eq hfs heffect.isTree, hlocate]
    · intro p hm
      rw [hleft']
      rw [hclient] at hm
      obtain ⟨rest, hrest⟩ := hfront
      refine hsettled p ?_
      rw [List.map_cons, ← hrest, ← List.cons_append, List.zipIdx_append]
      exact List.mem_append_left _ hm
  · intro turn hm
    refine hlinkless turn.directory ?_
    rw [planned_of_select hlister hcourse.collected hcourse.selected]
    exact List.mem_map.mpr ⟨turn, hm, rfl⟩

def crowdedPlan : Plan where
  manifestName := "a.yaml"
  maxListed := 2
  extractor := .parsing ⟨[], [], fun _ _ => none⟩ 50
  lister := .walking

theorem run_again_crowdedPlan :
    ∃ outcome s', (run crowdedPlan readyClient "/w").run (Session.start smallTree 0) =
        (.ok outcome, s') ∧ s'.manifests = ["/w/a.yaml", "/w/a/a.yaml", "/w/b/a.yaml"] ∧
      ∃ again t', (run crowdedPlan readyClient "/w").run (Session.start s'.fs 0) = (.ok again, t') ∧
        t'.fs = s'.fs ∧ t'.manifests = ["/w/a.yaml", "/w/a/a.yaml"] := by
  have hname : Setting.isBareName crowdedPlan.manifestName = true := by decide
  have hfs : (Session.start smallTree 0).fs.IsTree := by decide
  have hlinkless : Linkless crowdedPlan ["w"] smallTree := by
    unfold Linkless
    decide
  have hlink : ∀ root, (Session.start smallTree 0).fs.locate (Path.ofString "/w") = .ok root →
      Linkless crowdedPlan root smallTree ∧
        smallTree.isLink ((Path.ofLocation root).child ".gitignore") = false := by
    intro root hroot
    obtain rfl : ["w"] = root := Except.ok.inj (locate_smallTree.symm.trans hroot)
    exact ⟨hlinkless, by decide⟩
  have hok : ((run crowdedPlan readyClient "/w").run
      (Session.start smallTree 0)).1.toOption.isSome = true := by decide +kernel
  have hfirst : ((run crowdedPlan readyClient "/w").run (Session.start smallTree 0)).2.manifests =
      ["/w/a.yaml", "/w/a/a.yaml", "/w/b/a.yaml"] := by decide +kernel
  have hsecond : ((run crowdedPlan readyClient "/w").run (Session.start
      ((run crowdedPlan readyClient "/w").run (Session.start smallTree 0)).2.fs 0)).2.manifests =
      ["/w/a.yaml", "/w/a/a.yaml"] := by decide +kernel
  obtain ⟨outcome, s', h⟩ := Run.exists_run_ok hok
  rw [h] at hfirst hsecond
  obtain ⟨again, t', hagain, hsame⟩ := run_again crowdedPlan ⟨[], [], fun _ _ => none⟩ 50 _ "/w"
    (Session.start smallTree 0) s' (Session.start s'.fs 0) outcome rfl rfl hname (by decide) hfs
    hlink h rfl rfl
  refine ⟨outcome, s', h, hfirst, again, t', hagain, hsame, ?_⟩
  have hmanifests := congrArg (·.2.manifests) hagain
  exact hmanifests.symm.trans hsecond

end Documentation

end TreeManifest
