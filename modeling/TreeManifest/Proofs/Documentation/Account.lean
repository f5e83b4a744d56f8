import TreeManifest.Proofs.Documentation.Course
import TreeManifest.Settings.Value

/-!
# What a run leaves, however it ends

A run writes manifests for the first of its planned directories and changes nothing else
(`Leaves`). If it gives a result, these are all of them; if a step fails, the run fails with the
failure of this step, and its log tells how many manifests there are (`Fails`).
-/

namespace TreeManifest.Documentation

open FirstLevel (exists_of_mem_right)

variable {σ : Type} {plan : Plan} {client : Client σ} {root : Path} {s s' : Session σ}

inductive Asks (plan : Plan) (root : Path) : Path → Request → Prop
  | root (definitions : Json) (analysis : Mapping String String) :
      Asks plan root root (rootAsk plan analysis root definitions)
  | directory (directory : Path) (definitions : Json) (analysis : Mapping String String) :
      Asks plan root directory (directoryAsk plan analysis root directory definitions)

/-- Two sessions between which the manifests of the first `written` planned directories were
written, and nothing else. Each was asked for in its turn, and holds the text of its reply. -/
structure Leaves (plan : Plan) (client : Client σ) (root : Path) (written : Nat)
    (s s' : Session σ) : Prop where
  manifests : s'.manifests = s.manifests ++ ((planned plan s.fs root).take written).map
    fun directory => (directory.child plan.manifestName).toString
  frame : s.fs.SameFrame s'.fs
  unchanged : ∀ location, s'.fs.entryAt? location ≠ s.fs.entryAt? location →
    ∃ directory ∈ (planned plan s.fs root).take written, ∃ entry,
      s.fs.find (directory.child plan.manifestName) = .ok (location, entry)
  asked : ∃ requests, s'.requests = s.requests ++ requests ∧
    written ≤ requests.length ∧ requests.length ≤ written + 1 ∧
    List.Forall₂ (Asks plan root) ((planned plan s.fs root).take requests.length) requests ∧
    List.Forall₂ (fun directory reply =>
        s'.fs.read (directory.child plan.manifestName) = .ok (Text.Utf8.encode reply.text))
      ((planned plan s.fs root).take written) ((client.replies s.client requests).take written)

/-- A run that comes to an end after `written` manifests, with the failure that its step for the
next directory raises. The manifest of this directory is as it was. -/
structure Halts (plan : Plan) (client : Client σ) (root directory : Path) (written : Nat)
    (failure : Failure) (s after : Session σ) : Prop where
  next : (planned plan s.fs root)[written]? = some directory
  raised : Fails plan client root s directory written failure after
  kept : after.fs.find (directory.child plan.manifestName) =
    s.fs.find (directory.child plan.manifestName)

def failureRecord (directory : Path) (written : Nat) (failure : Failure) : Event :=
  .generationFailed ⟨directory.toString, failure.category, written, failure.message⟩

/-- Between two sessions a run has logged that it failed, once and at its end. -/
def LogsFailure (plan : Plan) (client : Client σ) (directory : Path) (written : Nat)
    (failure : Failure) (s s' : Session σ) : Prop :=
  ∃ notes, s'.events = s.events ++ notes ++ [failureRecord directory written failure] ∧
    ∀ event ∈ notes, IsNote plan client event

/-- The account of a run on a root, from the session before it. -/
inductive Accounted (plan : Plan) (client : Client σ) (root : Path) (s : Session σ) :
    Except Failure Outcome × Session σ → Prop
  | finished (outcome : Outcome) (s' : Session σ)
      (leaves : Leaves plan client root (planned plan s.fs root).length s s')
      (manifests : outcome.manifests = (planned plan s.fs root).map
        fun directory => (directory.child plan.manifestName).toString) :
      Accounted plan client root s (.ok outcome, s')
  | failed (failure : Failure) (after s' : Session σ) (directory : Path) (written : Nat)
      (leaves : Leaves plan client root written s s')
      (halts : Halts plan client root directory written failure s after)
      (ends : s' = if failure.isHandled then
          { after with events := after.events ++ [failureRecord directory written failure] }
        else after)
      (logged : failure.isHandled = true → LogsFailure plan client directory written failure s s') :
      Accounted plan client root s (.error failure, s')

theorem Leaves.of_same {written : Nat} {s'' : Session σ} (h : Leaves plan client root written s s')
    (hfs : s''.fs = s'.fs) (hm : s''.manifests = s'.manifests) (hr : s''.requests = s'.requests) :
    Leaves plan client root written s s'' := by
  refine ⟨hm.trans h.manifests, hfs ▸ h.frame, ?_, ?_⟩
  · rw [hfs]
    exact h.unchanged
  · rw [hfs, hr]
    exact h.asked

-- ---------------------------------------------------------------------------
-- From steps to accounts
-- ---------------------------------------------------------------------------

variable {turns : List Turn} {locations : List Location}

theorem take_front {α : Type} {front whole : List α} (h : front <+: whole) :
    whole.take front.length = front := by
  obtain ⟨rest, rfl⟩ := h
  simp

theorem getElem?_take_succ {α : Type} {front whole : List α} (h : front <+: whole) {next : α}
    (hn : whole[front.length]? = some next) : whole.take (front.length + 1) = front ++ [next] := by
  rw [List.take_add_one, take_front h, hn]
  rfl

/-- A place that has changed is the target of a step, and so where a manifest path leads. -/
theorem Effect.exists_turn {s₁ : Session σ} {location : Location} (hfs : s.fs.IsTree)
    (h : Effect plan client turns locations s s₁)
    (hne : s₁.fs.entryAt? location ≠ s.fs.entryAt? location) :
    ∃ turn ∈ turns, ∃ entry,
      s.fs.find (turn.directory.child plan.manifestName) = .ok (location, entry) := by
  by_contra hnone
  refine hne (h.unchanged fun directory hd heq => hnone ?_)
  obtain ⟨turn, hturn, htarget⟩ := exists_of_mem_right h.targets hd
  exact ⟨turn, hturn, _, heq ▸ htarget.find_child hfs⟩

/-- The account of steps, and of a further request that the next step has made. -/
theorem leaves_of_steps {s₁ : Session σ} (hfs : s.fs.IsTree) (hsteps : Steps plan client turns s s₁)
    (heffect : Effect plan client turns locations s s₁) (hn : locations.Nodup)
    (hp : turns.map (·.directory) <+: planned plan s.fs root)
    (hasks : ∀ turn ∈ turns, Asks plan root turn.directory turn.request)
    (hsame : s'.fs = s₁.fs) (hm : s'.manifests = s₁.manifests)
    (hr : s'.requests = s₁.requests ∨ ∃ directory request,
      (planned plan s.fs root)[turns.length]? = some directory ∧ Asks plan root directory request ∧
        s'.requests = s₁.requests ++ [request]) :
    Leaves plan client root turns.length s s' := by
  have hlength : (turns.map (·.directory)).length = turns.length := List.length_map _
  have htake : (planned plan s.fs root).take turns.length = turns.map (·.directory) := by
    rw [← hlength, take_front hp]
  have hasked : List.Forall₂ (Asks plan root) (turns.map (·.directory)) (turns.map (·.request)) := by
    rw [List.forall₂_map_left_iff, List.forall₂_map_right_iff, List.forall₂_same]
    exact hasks
  have hread : List.Forall₂ (fun directory reply =>
      s'.fs.read (directory.child plan.manifestName) = .ok (Text.Utf8.encode reply.text))
      (turns.map (·.directory)) (client.replies s.client (turns.map (·.request))) := by
    rw [List.forall₂_map_left_iff, hsame]
    exact heffect.read hn
  have hreplies : (client.replies s.client (turns.map (·.request))).length = turns.length := by
    rw [Client.length_replies, List.length_map]
  refine ⟨?_, hsame ▸ heffect.grown.frame, ?_, ?_⟩
  · rw [hm, hsteps.manifests, htake, List.map_map]
    rfl
  · intro location hne
    rw [htake]
    obtain ⟨turn, hturn, entry, hfind⟩ := heffect.exists_turn hfs (hsame ▸ hne)
    exact ⟨turn.directory, List.mem_map_of_mem hturn, entry, hfind⟩
  · rcases hr with hr | ⟨directory, request, hnext, hask, hr⟩
    · refine ⟨turns.map (·.request), hr.trans hsteps.requests, ?_, ?_, ?_, ?_⟩
      · simp
      · simp
      · rw [List.length_map, htake]
        exact hasked
      · rw [htake, ← hreplies, List.take_length]
        exact hread
    · refine ⟨turns.map (·.request) ++ [request], ?_, ?_, ?_, ?_, ?_⟩
      · rw [hr, hsteps.requests, List.append_assoc]
      · simp
      · simp
      · rw [List.length_append, List.length_map, List.length_singleton, ← hlength,
          getElem?_take_succ hp (hlength ▸ hnext)]
        exact List.rel_append hasked (.cons hask .nil)
      · rw [htake, Client.replies_append,
          List.take_append_of_le_length (Nat.le_of_eq hreplies.symm), ← hreplies, List.take_length]
        exact hread

theorem halts_at_root {failure : Failure} (hlister : plan.lister = .walking)
    (h : (documentRoot plan client root).run { s with current := root } = (.error failure, s')) :
    Leaves plan client root 0 s s' ∧ Halts plan client root root 0 failure s s' ∧
      s'.current = root ∧ OnlyNotes plan client s s' := by
  have hcurrent : ({ s with current := root } : Session σ).current = root := rfl
  rcases documentRoot_cases hlister hcurrent h with ⟨_, _, hr, -⟩ | ⟨_, hr, hstuck⟩
  · cases hr
  have hfs : s'.fs = s.fs := hstuck.fs
  have hmanifests : s'.manifests = s.manifests := hstuck.manifests
  refine ⟨⟨by simp [hmanifests], hfs ▸ .refl _, fun _ hne => absurd (by rw [hfs]) hne, ?_⟩,
    ⟨rfl, .root h, by rw [hfs]⟩, hstuck.current, hstuck.notes⟩
  rcases hstuck.requests with hr | ⟨request, ⟨definitions, analysis, rfl⟩, hr⟩
  · exact ⟨[], by simpa using hr, Nat.le_refl 0, Nat.le_succ 0, .nil, .nil⟩
  · exact ⟨_, hr, Nat.zero_le _, Nat.le_refl 1, .cons (.root definitions analysis) .nil, .nil⟩

variable {location : Location} {collection : Collection} {definitions : Json}
  {directories : List Path}

theorem Course.leaves {s₁ : Session σ} (hsound : Sound plan location s.fs)
    (hlink : Linkless plan location s.fs)
    (h : Course plan client location collection definitions directories turns s s₁)
    (hsame : s'.fs = s₁.fs) (hm : s'.manifests = s₁.manifests)
    (hr : s'.requests = s₁.requests ∨ ∃ directory request,
      directories[turns.length]? = some directory ∧
        Asks plan (Path.ofLocation location) directory request ∧
        s'.requests = s₁.requests ++ [request]) :
    Leaves plan client (Path.ofLocation location) (turns.length + 1) s s' := by
  obtain ⟨locations, heffect, hn⟩ := h.effect hsound hlink
  have hplanned := planned_of_select hsound.lister h.collected h.selected
  refine leaves_of_steps hsound.isTree h.steps heffect hn ?_ ?_ hsame hm ?_
  · rw [hplanned]
    exact (List.prefix_cons_inj _).mpr h.front
  · intro turn hm
    rcases List.mem_cons.mp hm with rfl | hm
    · exact .root definitions collection.analysis
    · rw [h.asked turn hm]
      exact .directory turn.directory turn.definitions collection.analysis
  · rw [hplanned]
    exact hr

theorem Course.halts {s₁ : Session σ} {failure : Failure} {next : Path} {rest : List Path}
    (hsound : Sound plan location s.fs) (hlink : Linkless plan location s.fs)
    (h : Course plan client location collection definitions directories turns s s₁)
    (hall : directories = turns.map (·.directory) ++ next :: rest)
    (hrun : (documentDirectory plan client collection.analysis (Path.ofLocation location) next).run
      s₁ = (.error failure, s'))
    (hfails : Fails plan client (Path.ofLocation location) s next (turns.length + 1) failure s') :
    Leaves plan client (Path.ofLocation location) (turns.length + 1) s s' ∧
      Halts plan client (Path.ofLocation location) next (turns.length + 1) failure s s' ∧
      s'.current = next ∧ OnlyNotes plan client s s' := by
  rcases documentDirectory_cases hrun with ⟨_, hr, -⟩ | ⟨_, -, hstuck⟩
  · cases hr
  have hplanned := planned_of_select hsound.lister h.collected h.selected
  have hnext : directories[turns.length]? = some next := by
    rw [hall, List.getElem?_append_right (by simp)]
    simp
  have hmem : next ∈ directories := List.mem_of_getElem? hnext
  obtain ⟨base, top, items, hcollected⟩ :=
    Collection.collect_ok hsound.isTree hsound.isPart h.collected
  obtain ⟨others, hdistinct⟩ := selected_distinct hcollected h.selected
  obtain ⟨there, hfind⟩ := selected_find hsound.isTree hcollected h.selected next hmem
  obtain ⟨locations, heffect, -⟩ := h.effect hsound hlink
  -- The directories are distinct places, so what the turns wrote does not lie in the next one.
  have hunwritten : there ∉ locations :=
    not_target_of_next heffect.targets (hall ▸ hdistinct) hfind
  refine ⟨?_, ⟨?_, hfails, ?_⟩, hstuck.current, h.steps.notes.trans hstuck.notes⟩
  · refine h.leaves hsound hlink hstuck.fs hstuck.manifests ?_
    refine hstuck.requests.imp_right fun ⟨request, ⟨definitions', hq⟩, hr⟩ => ?_
    exact ⟨next, request, hnext, hq ▸ .directory next definitions' collection.analysis, hr⟩
  · rw [hplanned]
    exact hnext
  · rw [hstuck.fs]
    refine FileSystem.find_child_eq hsound.isTree heffect.isTree heffect.grown.frame hfind
      hsound.name ?_ ?_
    · exact hlink next (hplanned ▸ List.mem_cons_of_mem _ hmem)
    · refine heffect.unchanged fun directory hm heq => hunwritten ?_
      exact List.append_cancel_right heq ▸ hm

theorem documentAll_account {result : Except Failure Unit} (hsound : Sound plan location s.fs)
    (hlink : Linkless plan location s.fs)
    (h : (documentAll plan client (Path.ofLocation location)).run s = (result, s')) :
    result = .ok () ∧ Leaves plan client (Path.ofLocation location)
        (planned plan s.fs (Path.ofLocation location)).length s s' ∨
      ∃ failure directory written, result = .error failure ∧
        Leaves plan client (Path.ofLocation location) written s s' ∧
        Halts plan client (Path.ofLocation location) directory written failure s s' ∧
        s'.current = directory ∧ OnlyNotes plan client s s' := by
  rcases documentAll_course hsound h with
    ⟨failure, rfl, hroot⟩ | ⟨collection, definitions, directories, turns, s₁, hcourse, hend⟩
  · exact .inr ⟨failure, _, 0, rfl, halts_at_root hsound.lister hroot⟩
  rcases hend with ⟨rfl, hall, rfl⟩ | ⟨failure, next, rest, rfl, hall, hrun, hfails⟩
  · refine .inl ⟨rfl, ?_⟩
    rw [planned_of_select hsound.lister hcourse.collected hcourse.selected, List.length_cons, hall,
      List.length_map]
    exact hcourse.leaves hsound hlink rfl rfl (.inl rfl)
  · exact .inr ⟨failure, next, _, rfl, hcourse.halts hsound hlink hall hrun hfails⟩

-- ---------------------------------------------------------------------------
-- The whole run
-- ---------------------------------------------------------------------------

/-- Whatever fails, a run has written the manifests of the first of its directories and changed
nothing else, and tells how many. -/
theorem run_accounted (plan : Plan) (client : Client σ) (text : String) (s : Session σ)
    (hlister : plan.lister = .walking) (hname : Setting.isBareName plan.manifestName = true)
    (hfs : s.fs.IsTree) (hstart : s.manifests = []) :
    (∀ failure, s.fs.locate (Path.ofString text) = .error failure →
      (run plan client text).run s = (.error failure, s)) ∧
    ∀ root, s.fs.locate (Path.ofString text) = .ok root →
      Linkless plan root s.fs →
      Accounted plan client (Path.ofLocation root) s ((run plan client text).run s) := by
  constructor
  · exact fun failure => run_unlocated
  · intro root hlocate hlink
    have hsound := sound_of_locate hlister hname hfs hlocate
    rw [run_located hlocate]
    rcases hall : (documentAll plan client (Path.ofLocation root)).run s with ⟨result, s'⟩
    rcases documentAll_account hsound hlink hall with
      ⟨rfl, hleaves⟩ | ⟨failure, directory, written, rfl, hleaves, hhalts, hcurrent, hnotes⟩
    · rw [logged_ok hall]
      have hmanifests := hleaves.manifests
      rw [hstart, List.take_length, List.nil_append] at hmanifests
      exact .finished _ _ (hleaves.of_same rfl rfl rfl) hmanifests
    · rw [logged_error hall]
      have hcount : s'.manifests.length = written := by
        rw [hleaves.manifests, hstart, List.nil_append, List.length_map, List.length_take]
        exact Nat.min_eq_left (Nat.le_of_lt (List.getElem?_eq_some_iff.mp hhalts.next).1)
      have hrecord : .generationFailed (failedRun s' failure) =
          failureRecord directory written failure := by
        rw [failureRecord, failedRun, hcurrent, hcount]
      rw [hrecord]
      refine .failed failure s' _ directory written ?_ hhalts rfl fun hhandled => ?_
      · split <;> exact hleaves.of_same rfl rfl rfl
      · obtain ⟨notes, hevents, hn⟩ := hnotes
        refine ⟨notes, ?_, hn⟩
        rw [if_pos hhandled, hevents]

def breakingClient : Client Nat :=
  .scripted fun n =>
    ⟨[.text "name: ", .reasoning "a root", .text "w"], [], if n = 2 then some .hugeInteger else none⟩

theorem run_accounted_breakingClient :
    Accounted smallPlan breakingClient (Path.ofLocation ["w"]) (Session.start smallTree 0)
        ((run smallPlan breakingClient "/w").run (Session.start smallTree 0)) ∧
      ((run smallPlan breakingClient "/w").run (Session.start smallTree 0)).2.manifests =
        ["/w/m.yaml", "/w/a/m.yaml"] := by
  have hname : Setting.isBareName smallPlan.manifestName = true := by decide
  have hfs : (Session.start smallTree 0).fs.IsTree := by decide
  have hlink : Linkless smallPlan ["w"] smallTree := by
    unfold Linkless
    decide
  refine ⟨(run_accounted smallPlan breakingClient "/w" (Session.start smallTree 0) rfl hname hfs
    rfl).2 ["w"] locate_smallTree hlink, ?_⟩
  decide +kernel

end TreeManifest.Documentation
