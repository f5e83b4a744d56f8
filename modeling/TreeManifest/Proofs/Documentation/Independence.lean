import TreeManifest.Proofs.Documentation.Disclosure
import TreeManifest.Proofs.Source.Locality

/-!
# What a run asks does not depend on the answers

A step looks for definitions in its directory before it writes there, and the manifests of the
steps before it are in other directories. So the definitions of a run are those of the tree as it
was before the run (`Course.findAll`), even where a manifest has the name of a source file. The
collection is made before the first manifest, so nothing that a model answers gets into a later
request (`run_requests_independent`).
-/

namespace TreeManifest

def FileSystem.LinklessBelow (fs : FileSystem) (location : Location) : Prop :=
  ∀ below ≠ [], ∀ target, fs.entryAt? (location ++ below) ≠ some (.link target)

namespace Documentation

open FileSystem (AgreeIn Target)
open Source (Parsers)

/-- The definitions of directories in a tree that nothing is written into, with the parsers handed
on from each directory to the next. -/
def findAll (extractor : Extractor) (fs : FileSystem) :
    Parsers → List Path → Except Failure (List Json)
  | _, [] => .ok []
  | parsers, directory :: rest => do
    let (definitions, parsers) ← (extractor fs parsers directory).result
    return definitions :: (← findAll extractor fs parsers rest)

theorem findAll_cons {extractor : Extractor} {fs : FileSystem} {parsers after : Parsers}
    {directory : Path} {rest : List Path} {definitions : Json} {more : List Json}
    (h : (extractor fs parsers directory).result = .ok (definitions, after))
    (hrest : findAll extractor fs after rest = .ok more) :
    findAll extractor fs parsers (directory :: rest) = .ok (definitions :: more) := by
  rw [findAll, h]
  simp only [bind, Except.bind, hrest]
  rfl

variable {σ τ : Type} {plan : Plan} {client : Client σ} {s s' : Session σ} {fs : FileSystem}
  {grammars : Source.Grammars} {limit : Int}

-- ---------------------------------------------------------------------------
-- Steps
-- ---------------------------------------------------------------------------

/-- A step finds the definitions of a tree that agrees in its directory, and leaves a tree that
agrees in all other ones. -/
theorem Step.agree {turn : Turn} {location : Location}
    (hextractor : plan.extractor = .parsing grammars limit) (hname : IsBare plan.manifestName)
    (hfs : fs.IsTree) (htree : s.fs.IsTree)
    (hfind : fs.find turn.directory = .ok (location, some .directory))
    (hagree : fs.AgreeIn s.fs location) (h : Step plan client turn s s') :
    (plan.extractor fs s.parsers turn.directory).result = .ok (turn.definitions, s'.parsers) ∧
      s'.fs.IsTree ∧
      ∀ other, other ≠ location → fs.AgreeIn s.fs other → fs.AgreeIn s'.fs other := by
  have hfind' := hagree.frame.find_directory hfind
  have hlink : s.fs.isLink (turn.directory.child plan.manifestName) = false := by
    refine htree.isLink_child hfind' ?_
    rw [hagree.entry]
    exact hagree.linkless plan.manifestName
  obtain ⟨there, htarget, hput⟩ := h.effect htree hname hlink
  cases htarget.find.symm.trans hfind'
  refine ⟨?_, hput ▸ (htarget.put htree).1, fun other hne hother => ?_⟩
  · rw [← h.extracted, hextractor, Extractor.parsing_local hagree hfs htree hfind]
  · rw [hput]
    exact hother.put hne.symm htarget.frame _

/-- Steps in distinct directories find the definitions of the tree before them. -/
theorem Steps.findAll {turns : List Turn} {locations : List Location}
    (h : Steps plan client turns s s') (hextractor : plan.extractor = .parsing grammars limit)
    (hname : IsBare plan.manifestName) (hfs : fs.IsTree) (htree : s.fs.IsTree)
    (hfind : List.Forall₂ (fun directory location =>
      fs.find directory = .ok (location, some .directory)) (turns.map (·.directory)) locations)
    (hnodup : locations.Nodup) (hagree : ∀ location ∈ locations, fs.AgreeIn s.fs location) :
    findAll plan.extractor fs s.parsers (turns.map (·.directory)) =
      .ok (turns.map (·.definitions)) := by
  induction h generalizing locations with
  | nil => rfl
  | cons hstep _ ih =>
    cases hfind with
    | cons hfirst hrest =>
      obtain ⟨hhere, hothers⟩ := List.forall_mem_cons.mp hagree
      obtain ⟨hnew, hdistinct⟩ := List.nodup_cons.mp hnodup
      obtain ⟨hfound, htree', hkept⟩ := hstep.agree hextractor hname hfs htree hfirst hhere
      refine findAll_cons hfound (ih htree' hrest hdistinct fun other hm => ?_)
      -- The manifest that is there by now is in none of the directories that are left.
      refine hkept other ?_ (hothers other hm)
      rintro rfl
      exact hnew hm

-- ---------------------------------------------------------------------------
-- Runs
-- ---------------------------------------------------------------------------

variable {root top : Location} {collection : Collection} {items : List Item}
  {definitions : Json} {turns : List Turn} {directories : List Path}

theorem Distinct.find {locations : List Location} (h : Distinct fs directories locations)
    (hfind : ∀ directory ∈ directories,
      ∃ location, fs.find directory = .ok (location, some .directory)) :
    List.Forall₂ (fun directory location => fs.find directory = .ok (location, some .directory))
      directories locations := by
  obtain ⟨hresolve, -⟩ := h
  induction hresolve with
  | nil => exact .nil
  | cons hfirst _ ih =>
    obtain ⟨⟨location, hf⟩, hrest⟩ := List.forall_mem_cons.mp hfind
    exact .cons (FileSystem.resolve_eq_find hfirst hf ▸ hf) (ih hrest)

theorem selected_linkless {locations : List Location} (hfs : fs.IsTree)
    (hcollected : Collected fs root limit collection root top items)
    (hbase : Collected.AtBase fs root root)
    (hselect : FirstLevel.select fs (Path.ofLocation root) collection.directories = .ok directories)
    (hdistinct : Distinct fs (Path.ofLocation root :: directories) (root :: locations))
    (hlinks : fs.LinklessBelow root) :
    ∀ location ∈ root :: locations, fs.AgreeIn fs location := by
  have hchild := hcollected.selected_child hfs hbase hselect
  refine List.forall_mem_cons.mpr ⟨.refl fun name => hlinks [name] (by simp), fun location hm => ?_⟩
  cases hdistinct.resolve with
  | cons _ hresolve =>
    obtain ⟨directory, hd, hr⟩ := FirstLevel.exists_of_mem_right hresolve hm
    obtain ⟨-, name, -, -, hr'⟩ := hchild directory hd
    cases hr.symm.trans hr'
    refine .refl fun other => ?_
    rw [List.append_assoc]
    exact hlinks [name, other] (by simp)

theorem Course.findAll (hsound : Sound plan root s.fs)
    (hextractor : plan.extractor = .parsing grammars limit) (hlinks : s.fs.LinklessBelow root)
    (h : Course plan client root collection definitions (turns.map (·.directory)) turns s s') :
    findAll plan.extractor s.fs s.parsers (Path.ofLocation root :: turns.map (·.directory)) =
      .ok (definitions :: turns.map (·.definitions)) := by
  obtain ⟨base, top, items, hcollected, hbase⟩ := h.exists_items hsound
  by_cases hroot : root = base
  · subst hroot
    obtain ⟨locations, hdistinct⟩ := selected_distinct hcollected h.selected
    have hfind := hdistinct.find (List.forall_mem_cons.mpr
      ⟨⟨root, hbase⟩, selected_find hsound.isTree hcollected h.selected⟩)
    exact h.steps.findAll hextractor hsound.name hsound.isTree hsound.isTree hfind hdistinct.nodup
      (selected_linkless hsound.isTree hcollected hbase h.selected hdistinct hlinks)
  · -- Nothing is selected below a root that leads elsewhere.
    have hnone : turns.map (·.directory) = [] := List.eq_nil_iff_forall_not_mem.mpr
      fun directory hm => hroot
        (hcollected.selected_child hsound.isTree hbase h.selected directory hm).1
    obtain rfl := List.map_eq_nil_iff.mp hnone
    cases h.steps with
    | cons hstep _ => exact findAll_cons hstep.extracted rfl

theorem Course.requests
    (h : Course plan client root collection definitions directories turns s s') :
    s'.requests = s.requests ++
      rootAsk plan collection.analysis (Path.ofLocation root) definitions ::
        List.zipWith (directoryAsk plan collection.analysis (Path.ofLocation root))
          (turns.map (·.directory)) (turns.map (·.definitions)) := by
  rw [h.steps.requests, List.map_cons, List.map_congr_left h.asked, List.zipWith_map,
    List.zipWith_self]
  rfl

/-- Two runs that give a result on the same tree ask the same, whatever their models answer. -/
theorem run_requests_independent (plan : Plan) (grammars : Source.Grammars) (limit : Int)
    (client : Client σ) (client' : Client τ) (text : String) (s s' : Session σ) (t t' : Session τ)
    (outcome outcome' : Outcome) (hextractor : plan.extractor = .parsing grammars limit)
    (hlister : plan.lister = .walking) (hname : Setting.isBareName plan.manifestName = true)
    (hfs : s.fs.IsTree)
    (hlinks : ∀ root, s.fs.locate (Path.ofString text) = .ok root → s.fs.LinklessBelow root)
    (hsame : t.fs = s.fs) (hparsers : t.parsers = s.parsers)
    (h : (run plan client text).run s = (.ok outcome, s'))
    (h' : (run plan client' text).run t = (.ok outcome', t')) :
    ∃ requests, s'.requests = s.requests ++ requests ∧ t'.requests = t.requests ++ requests := by
  obtain ⟨root, hlocate⟩ := locate_of_run_ok h
  have hsound := sound_of_locate hlister hname hfs hlocate
  obtain ⟨collection, definitions, turns, s₁, hcourse, -, hrequests⟩ := run_course hsound hlocate h
  obtain ⟨collection', definitions', turns', t₁, hcourse', -, hrequests'⟩ :=
    run_course (hsame ▸ hsound) (hsame ▸ hlocate) h'
  -- The collection and the selection are those of the tree before the runs.
  have hcollect := hcourse'.collected
  rw [hsame, hcourse.collected] at hcollect
  obtain rfl := Except.ok.inj hcollect
  have hselect := hcourse'.selected
  rw [hsame, hcourse.selected] at hselect
  have hdirectories := Except.ok.inj hselect
  have hfound := hcourse.findAll hsound hextractor (hlinks root hlocate)
  have hfound' := hcourse'.findAll (hsame ▸ hsound) hextractor (hsame ▸ hlinks root hlocate)
  rw [hsame, hparsers, ← hdirectories, hfound, Except.ok.injEq, List.cons.injEq] at hfound'
  obtain ⟨rfl, hdefinitions⟩ := hfound'
  refine ⟨_, hrequests.trans hcourse.requests, ?_⟩
  rw [hrequests', hcourse'.requests, ← hdirectories, ← hdefinitions]

def sourceTree : FileSystem where
  entries := [(["w"], .directory), (["w", "a"], .directory),
    (["w", "a", "x.py"], .file (Text.Utf8.encode "def f(): pass")), (["w", "b"], .directory)]
  working := ["w"]
  home := "/home"
  unreadable := []

def sourcePlan : Plan where
  manifestName := "m.py"
  maxListed := 10
  extractor := .parsing functionGrammars 50
  lister := .walking

def musingClient : Client Nat :=
  .scripted fun n =>
    ⟨[.reasoning "a function", .usage ⟨n, 1, none⟩, .text "def g(): pass"], [], none⟩

theorem run_requests_independent_sourceTree :
    ((run sourcePlan readyClient "/w").run (Session.start sourceTree 0)).2.requests =
        ((run sourcePlan musingClient "/w").run (Session.start sourceTree 0)).2.requests ∧
      ((run sourcePlan readyClient "/w").run (Session.start sourceTree 0)).2.requests.length = 3 ∧
      ((run sourcePlan readyClient "/w").run (Session.start sourceTree 0)).2.fs ≠
        ((run sourcePlan musingClient "/w").run (Session.start sourceTree 0)).2.fs := by
  have hlinks : ∀ root, sourceTree.locate (Path.ofString "/w") = .ok root →
      sourceTree.LinklessBelow root := by
    intro root _ below _ target hentry
    have hnone : ∀ binding ∈ sourceTree.entries, binding.2 ≠ .link target := by
      simp [sourceTree]
    have hne : root ++ below ≠ [] := by simp_all
    rw [FileSystem.entryAt?, if_neg hne] at hentry
    exact hnone _ (Mapping.mem_of_get? hentry) rfl
  have hok : ((run sourcePlan readyClient "/w").run
      (Session.start sourceTree 0)).1.toOption.isSome = true := by decide +kernel
  have hok' : ((run sourcePlan musingClient "/w").run
      (Session.start sourceTree 0)).1.toOption.isSome = true := by decide +kernel
  have hlength : ((run sourcePlan readyClient "/w").run
      (Session.start sourceTree 0)).2.requests.length = 3 := by decide +kernel
  have hfs : ((run sourcePlan readyClient "/w").run (Session.start sourceTree 0)).2.fs ≠
      ((run sourcePlan musingClient "/w").run (Session.start sourceTree 0)).2.fs := by
    decide +kernel
  refine ⟨?_, hlength, hfs⟩
  obtain ⟨outcome, s', h⟩ := Run.exists_run_ok hok
  obtain ⟨outcome', t', h'⟩ := Run.exists_run_ok hok'
  rw [h, h']
  obtain ⟨requests, hrequests, hrequests'⟩ := run_requests_independent sourcePlan
    functionGrammars 50 readyClient musingClient "/w" _ s' _ t' outcome outcome' rfl rfl (by decide)
    (by decide) hlinks rfl rfl h h'
  exact hrequests.trans hrequests'.symm

end Documentation

end TreeManifest
