import TreeManifest.Proofs.Collection
import TreeManifest.Proofs.Documentation.Effect

/-!
# The course of a run

The directories that a run is going to document are known before it starts: the root and the
first-level directories of the tree as it is then (`planned`). They stand for distinct locations
(`selected_distinct`), so no manifest takes the place of another one. A run documents the first of
them, one after the other, up to the first step that fails (`documentAll_course`); that step starts
from the session which the ones before it leave (`Fails`).
-/

namespace TreeManifest.Documentation

open FileSystem (Target putAll resolve_eq_find)

/-- The directories that a run documents, in order. A root that cannot be listed is alone. -/
def planned (plan : Plan) (fs : FileSystem) (root : Path) : List Path :=
  root :: match (Collection.collect fs plan.lister root.toString plan.maxListed).result with
    | .ok collection => (FirstLevel.select fs root collection.directories).toOption.getD []
    | .error _ => []

theorem planned_of_select {plan : Plan} {fs : FileSystem} {root : Path} {collection : Collection}
    {directories : List Path} (hlister : plan.lister = .walking)
    (hc : (Collection.collect fs .walking root.toString plan.maxListed).result = .ok collection)
    (hs : FirstLevel.select fs root collection.directories = .ok directories) :
    planned plan fs root = root :: directories := by
  rw [planned, hlister, hc]
  simp only [hs]
  rfl

structure Distinct (fs : FileSystem) (directories : List Path) (locations : List Location) :
    Prop where
  resolve : List.Forall₂ (fun directory location => fs.resolve directory = .ok location)
    directories locations
  nodup : locations.Nodup

variable {fs : FileSystem} {root : Location} {limit : Int} {collection : Collection}
  {base top : Location} {items : List Item} {directories : List Path}

theorem selected_distinct (h : Collected fs root limit collection base top items)
    (hs : FirstLevel.select fs (Path.ofLocation root) collection.directories = .ok directories) :
    ∃ locations, Distinct fs (Path.ofLocation root :: directories) (base :: locations) := by
  obtain ⟨locations, hselected⟩ := h.selected hs
  exact ⟨locations, .cons h.resolve hselected.resolve,
    hselected.nodup.cons fun hm => hselected.unseen _ hm (by simp)⟩

theorem selected_find (hfs : fs.IsTree) (h : Collected fs root limit collection base top items)
    (hs : FirstLevel.select fs (Path.ofLocation root) collection.directories = .ok directories) :
    ∀ directory ∈ directories, ∃ location, fs.find directory = .ok (location, some .directory) := by
  intro directory hm
  obtain ⟨item, hmem, hd, rfl⟩ := h.item_of_selected hs hm
  obtain ⟨location, hfind, -⟩ := h.resolve_directory hfs hmem hd
  exact ⟨location, hfind⟩

theorem targets_front {turns : List Turn} {name : String} {locations others : List Location}
    (ht : List.Forall₂ (fun turn location => fs.Target turn.directory name location) turns locations)
    (hp : turns.map (·.directory) <+: directories)
    (hr : List.Forall₂ (fun directory location => fs.resolve directory = .ok location)
      directories others) : locations <+: others := by
  induction ht generalizing directories others with
  | nil => exact ⟨_, rfl⟩
  | @cons turn location turns locations htarget _ ih =>
    cases hr with
    | nil => exact absurd (List.prefix_nil.mp hp) (by simp)
    | cons hresolve hrest =>
      obtain ⟨hhead, htail⟩ := List.cons_prefix_cons.mp hp
      subst hhead
      have hsame := resolve_eq_find hresolve htarget.find
      subst hsame
      exact (List.prefix_cons_inj location).mpr (ih htail hrest)

theorem not_target_of_next {turns : List Turn} {name : String} {locations others : List Location}
    {next : Path} {rest : List Path} {location : Location} {entry : Option Entry}
    (ht : List.Forall₂ (fun turn location => fs.Target turn.directory name location) turns locations)
    (hd : Distinct fs (turns.map (·.directory) ++ next :: rest) others)
    (hf : fs.find next = .ok (location, entry)) : location ∉ locations := by
  obtain ⟨more, rfl⟩ := targets_front ht (List.prefix_append _ _) hd.resolve
  have hdrop := List.forall₂_drop_append _ _ _ hd.resolve
  have hlength : locations.length = (turns.map (·.directory)).length := by
    rw [List.length_map, ht.length_eq]
  rw [hlength, List.drop_left] at hdrop
  cases hdrop with
  | cons hresolve _ =>
    have hsame := resolve_eq_find hresolve hf
    subst hsame
    exact fun hm => (List.nodup_append.mp hd.nodup).2.2 location hm location List.mem_cons_self rfl

-- ---------------------------------------------------------------------------
-- Runs
-- ---------------------------------------------------------------------------

/-- The steps of a run that has come past its root: those for the root and for the first ones of
the selected directories. -/
structure Course {σ : Type} (plan : Plan) (client : Client σ) (root : Location)
    (collection : Collection) (definitions : Json) (directories : List Path) (turns : List Turn)
    (s s' : Session σ) : Prop where
  collected : (Collection.collect s.fs .walking (Path.ofLocation root).toString
    plan.maxListed).result = .ok collection
  selected : FirstLevel.select s.fs (Path.ofLocation root) collection.directories = .ok directories
  front : turns.map (·.directory) <+: directories
  asked : ∀ turn ∈ turns, turn.request =
    directoryAsk plan collection.analysis (Path.ofLocation root) turn.directory turn.definitions
  steps : Steps plan client
    (rootTurn plan collection.analysis (Path.ofLocation root) definitions :: turns) s s'

variable {σ : Type} {plan : Plan} {client : Client σ} {s s' : Session σ} {definitions : Json}
  {turns : List Turn}

theorem Step.atBase {turn : Turn} (h : Step plan client turn s s')
    (hfs : s.fs.IsTree) (hturn : turn.directory = Path.ofLocation root)
    (hresolve : s.fs.resolve (Path.ofLocation root) = .ok base) : Collected.AtBase s.fs root base := by
  obtain ⟨_, -, hwrite⟩ := h.written
  unfold Manifest.writeText FileSystem.write at hwrite
  split at hwrite
  · cases hwrite
  rcases hf : s.fs.find (turn.directory.child plan.manifestName) with e | result
  · rw [hf] at hwrite
    cases hwrite
  obtain ⟨directory, hfind, -⟩ := hfs.find_append hf
  rw [hturn] at hfind
  rw [Collected.AtBase, hfind, FileSystem.resolve_eq_find hresolve hfind]

structure Sound (plan : Plan) (root : Location) (fs : FileSystem) : Prop where
  lister : plan.lister = .walking
  name : IsBare plan.manifestName
  isTree : fs.IsTree
  isPart : ∀ part ∈ root, Path.IsPart part

theorem sound_of_locate {text : String} (hlister : plan.lister = .walking)
    (hname : Setting.isBareName plan.manifestName = true) (hfs : fs.IsTree)
    (hlocate : fs.locate (Path.ofString text) = .ok root) : Sound plan root fs :=
  ⟨hlister, isBare_of_isBareName hname, hfs, hfs.locate_parts hlocate⟩

/-- A run that has come past its root has found it to be a directory. -/
theorem Course.exists_items (h : Course plan client root collection definitions directories turns s s')
    (hsound : Sound plan root s.fs) :
    ∃ base top items, Collected s.fs root plan.maxListed collection base top items ∧
      Collected.AtBase s.fs root base := by
  obtain ⟨base, top, items, hcollected⟩ :=
    Collection.collect_ok hsound.isTree hsound.isPart h.collected
  refine ⟨base, top, items, hcollected, ?_⟩
  cases h.steps with
  | cons hstep _ => exact hstep.atBase hsound.isTree rfl hcollected.resolve

/-- The step at which a run on a root from `s` fails, after `written` steps that have succeeded one
after the other. The failing step starts from the session that they leave, and leaves another one. -/
inductive Fails (plan : Plan) (client : Client σ) (root : Path) (s : Session σ) :
    (directory : Path) → (written : Nat) → Failure → Session σ → Prop
  | root {failure : Failure} {after : Session σ}
      (raised : (documentRoot plan client root).run { s with current := root } =
        (.error failure, after)) : Fails plan client root s root 0 failure after
  | directory {collection : Collection} {front rest : List Path} {next : Path} {failure : Failure}
      {s₁ s₂ after : Session σ}
      (first : (documentRoot plan client root).run { s with current := root } =
        (.ok collection, s₁))
      (selected : FirstLevel.select s₁.fs root collection.directories = .ok (front ++ next :: rest))
      (before : (documentDirectories plan client collection.analysis root front).run s₁ =
        (.ok (), s₂))
      (raised : (documentDirectory plan client collection.analysis root next).run s₂ =
        (.error failure, after)) : Fails plan client root s next (front.length + 1) failure after

theorem documentAll_course {result : Except Failure Unit} (hsound : Sound plan root s.fs)
    (h : (documentAll plan client (Path.ofLocation root)).run s = (result, s')) :
    (∃ failure, result = .error failure ∧
        (documentRoot plan client (Path.ofLocation root)).run
          { s with current := Path.ofLocation root } = (.error failure, s')) ∨
      ∃ collection definitions directories turns s₁,
        Course plan client root collection definitions directories turns s s₁ ∧
        (result = .ok () ∧ directories = turns.map (·.directory) ∧ s' = s₁ ∨
          ∃ failure next rest, result = .error failure ∧
            directories = turns.map (·.directory) ++ next :: rest ∧
            (documentDirectory plan client collection.analysis (Path.ofLocation root) next).run s₁ =
              (.error failure, s') ∧
            Fails plan client (Path.ofLocation root) s next (turns.length + 1) failure s') := by
  rcases documentAll_cases hsound.lister h with
    hroot | ⟨definitions, collection, s₀, hc, hstep, hfirst, hrest⟩
  · exact .inl hroot
  obtain ⟨base, top, items, hcollected⟩ := Collection.collect_ok hsound.isTree hsound.isPart hc
  obtain ⟨directories, hselect⟩ := hcollected.select_total hsound.isTree
  -- The first manifest does not change what is selected.
  obtain ⟨htree, hgrown⟩ := hstep.tree hsound.isTree hsound.name hsound.isPart
  have hselect' := FirstLevel.select_eq hgrown.frame hsound.isTree htree ▸ hselect
  obtain ⟨turns, s₁, hmore, hask, hbefore, hend⟩ :=
    documentDirectories_cases (hrest directories hselect')
  have hfront : turns.map (·.directory) <+: directories := by
    rcases hend with ⟨-, rfl, -⟩ | ⟨_, _, _, -, rfl, -⟩
    · exact List.prefix_rfl
    · exact List.prefix_append _ _
  refine .inr ⟨collection, definitions, directories, turns, s₁,
    ⟨hc, hselect, hfront, hask, .cons hstep hmore⟩, hend.imp_right ?_⟩
  rintro ⟨failure, next, rest, hr, rfl, hraised⟩
  have hfails := Fails.directory hfirst hselect' hbefore hraised
  rw [List.length_map] at hfails
  exact ⟨failure, next, rest, hr, rfl, hraised, hfails⟩

def Linkless (plan : Plan) (root : Location) (fs : FileSystem) : Prop :=
  ∀ directory ∈ planned plan fs (Path.ofLocation root),
    fs.isLink (directory.child plan.manifestName) = false

/-- Without links each manifest gets into a directory of its own. -/
theorem Course.effect (hsound : Sound plan root s.fs) (hlink : Linkless plan root s.fs)
    (h : Course plan client root collection definitions directories turns s s') :
    ∃ locations, Effect plan client
        (rootTurn plan collection.analysis (Path.ofLocation root) definitions :: turns) locations s s' ∧
      locations.Nodup := by
  obtain ⟨base, top, items, hcollected⟩ :=
    Collection.collect_ok hsound.isTree hsound.isPart h.collected
  obtain ⟨others, hdistinct⟩ := selected_distinct hcollected h.selected
  have hp := (List.prefix_cons_inj (Path.ofLocation root)).mpr h.front
  obtain ⟨locations, heffect⟩ := h.steps.effect hsound.isTree hsound.name fun turn hm => by
    refine hlink turn.directory ?_
    rw [planned_of_select hsound.lister h.collected h.selected]
    exact hp.subset (List.mem_map.mpr ⟨turn, hm, rfl⟩)
  exact ⟨locations, heffect,
    hdistinct.nodup.sublist (targets_front heffect.targets hp hdistinct.resolve).sublist⟩

-- ---------------------------------------------------------------------------
-- The whole run
-- ---------------------------------------------------------------------------

theorem logged_ok {run : Run σ Unit} (h : run.run s = (.ok (), s')) :
    (logged run).run s = (.ok (), s') :=
  Run.run_tryCatch_ok _ h

theorem logged_error {run : Run σ Unit} {failure : Failure} (h : run.run s = (.error failure, s')) :
    (logged run).run s = (.error failure,
      if failure.isHandled then
        { s' with events := s'.events ++ [.generationFailed (failedRun s' failure)] }
      else s') := by
  refine (Run.run_tryCatch_error _ h).trans ?_
  cases failure.isHandled <;> rfl

theorem run_unlocated {text : String} {failure : Failure}
    (h : s.fs.locate (Path.ofString text) = .error failure) :
    (run plan client text).run s = (.error failure, s) := by
  have hlook : (Run.look fun fs => Report.ofExcept (fs.locate (Path.ofString text))).run s =
      (.error failure, s) := by
    rw [Run.run_look]
    simp [Report.ofExcept, h]
  unfold run
  exact Run.run_bind_error hlook

theorem run_located {text : String} (h : s.fs.locate (Path.ofString text) = .ok root) :
    (run plan client text).run s =
      match (logged (documentAll plan client (Path.ofLocation root))).run s with
      | (.error failure, s') => (.error failure, s')
      | (.ok _, s') => (.ok (outcome plan (Path.ofLocation root) s'), { s' with
          events := s'.events ++
            [.generationComplete (completedRun (Path.ofLocation root) s')] }) := by
  have hlook : (Run.look fun fs => Report.ofExcept (fs.locate (Path.ofString text))).run s =
      (.ok root, s) := by
    rw [Run.run_look]
    simp [Report.ofExcept, h]
  unfold run
  rw [Run.run_bind_ok hlook]
  simp only
  rw [Run.run_bind]
  rcases (logged (documentAll plan client (Path.ofLocation root))).run s with ⟨failure | ⟨⟩, s'⟩
  · rfl
  · rfl

theorem locate_of_run_ok {text : String} {outcome : Outcome}
    (h : (run plan client text).run s = (.ok outcome, s')) :
    ∃ root, s.fs.locate (Path.ofString text) = .ok root := by
  rcases hlocate : s.fs.locate (Path.ofString text) with failure | root
  · rw [run_unlocated hlocate] at h
    cases h
  · exact ⟨root, rfl⟩

theorem run_ok {text : String} {outcome : Outcome}
    (hlocate : s.fs.locate (Path.ofString text) = .ok root)
    (h : (run plan client text).run s = (.ok outcome, s')) :
    ∃ s₁, (documentAll plan client (Path.ofLocation root)).run s = (.ok (), s₁) ∧
      s' = { s₁ with events := s₁.events ++
        [.generationComplete (completedRun (Path.ofLocation root) s₁)] } ∧
      outcome = Documentation.outcome plan (Path.ofLocation root) s₁ := by
  rw [run_located hlocate] at h
  rcases hall : (documentAll plan client (Path.ofLocation root)).run s with ⟨failure | ⟨⟩, s₁⟩
  · rw [logged_error hall] at h
    cases h
  · rw [logged_ok hall] at h
    cases h
    exact ⟨s₁, rfl, rfl, rfl⟩

theorem documentAll_ok (hsound : Sound plan root s.fs)
    (h : (documentAll plan client (Path.ofLocation root)).run s = (.ok (), s')) :
    ∃ collection definitions turns,
      Course plan client root collection definitions (turns.map (·.directory)) turns s s' := by
  rcases documentAll_course hsound h with
    ⟨failure, hr, -⟩ | ⟨collection, definitions, directories, turns, s₁, hcourse, hend⟩
  · cases hr
  rcases hend with ⟨-, rfl, rfl⟩ | ⟨failure, next, rest, hr, -⟩
  · exact ⟨collection, definitions, turns, hcourse⟩
  · cases hr

theorem run_course {text : String} {outcome : Outcome} (hsound : Sound plan root s.fs)
    (hlocate : s.fs.locate (Path.ofString text) = .ok root)
    (h : (run plan client text).run s = (.ok outcome, s')) :
    ∃ collection definitions turns s₁,
      Course plan client root collection definitions (turns.map (·.directory)) turns s s₁ ∧
      s'.fs = s₁.fs ∧ s'.requests = s₁.requests := by
  obtain ⟨s₁, hall, rfl, -⟩ := run_ok hlocate h
  obtain ⟨collection, definitions, turns, hcourse⟩ := documentAll_ok hsound hall
  exact ⟨collection, definitions, turns, s₁, hcourse, rfl, rfl⟩

-- ---------------------------------------------------------------------------
-- A small tree
-- ---------------------------------------------------------------------------

def smallTree : FileSystem where
  entries := [(["w"], .directory), (["w", "a"], .directory),
    (["w", "a", "notes.txt"], .file (Text.Utf8.encode "notes")), (["w", "b"], .directory),
    (["w", "b", "m.yaml"], .file (Text.Utf8.encode "old"))]
  working := ["w"]
  home := "/home"
  unreadable := []

def smallPlan : Plan where
  manifestName := "m.yaml"
  maxListed := 10
  extractor := fun _ parsers _ => Report.pure (.null, parsers)
  lister := .walking

def readyClient : Client Nat := .scripted fun _ => ⟨[.text "name: w"], [], none⟩

theorem locate_smallTree : smallTree.locate (Path.ofString "/w") = .ok ["w"] := rfl

end TreeManifest.Documentation
