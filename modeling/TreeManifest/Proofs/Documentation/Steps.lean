import TreeManifest.Proofs.Reply
import TreeManifest.Proofs.Report
import TreeManifest.Proofs.Run

/-!
# The steps of a run

One step documents one directory. A step that succeeds asks once and writes once (`Step`); one that
fails changes no file (`Stuck`). The loop over the directories is a sequence of steps that succeed,
up to the first one that fails (`documentDirectories_cases`).
-/

namespace TreeManifest.Documentation

variable {σ : Type} {plan : Plan} {client : Client σ} {s s' s'' : Session σ}

/-- An event that a run keeps: a record of a failed run comes from the extractor or the client. -/
def IsNote (plan : Plan) (client : Client σ) (event : Event) : Prop :=
  event.isFailedRun = true →
    (∃ fs parsers directory, event ∈ (plan.extractor fs parsers directory).events) ∨
      ∃ request state, event ∈ (client request state).1.events

def OnlyNotes (plan : Plan) (client : Client σ) (s s' : Session σ) : Prop :=
  ∃ notes, s'.events = s.events ++ notes ∧ ∀ event ∈ notes, IsNote plan client event

theorem OnlyNotes.refl (s : Session σ) : OnlyNotes plan client s s :=
  ⟨[], by simp, List.forall_mem_nil _⟩

theorem OnlyNotes.trans (h : OnlyNotes plan client s s') (h' : OnlyNotes plan client s' s'') :
    OnlyNotes plan client s s'' := by
  obtain ⟨notes, he, hn⟩ := h
  obtain ⟨notes', he', hn'⟩ := h'
  exact ⟨notes ++ notes', by rw [he', he, List.append_assoc],
    fun event hm => (List.mem_append.mp hm).elim (hn event) (hn' event)⟩

theorem OnlyNotes.of_quiet {α : Type} {report : Report α} (hq : report.Quiet)
    (he : s'.events = s.events ++ report.events) : OnlyNotes plan client s s' :=
  ⟨report.events, he, fun event hm hf => absurd hf (by simp [hq event hm])⟩

structure Turn where
  directory : Path
  definitions : Json
  request : Request

/-- A step that has succeeded. -/
structure Step (plan : Plan) (client : Client σ) (turn : Turn) (s s' : Session σ) : Prop where
  extracted : (plan.extractor s.fs s.parsers turn.directory).result =
    .ok (turn.definitions, s'.parsers)
  written : ∃ usage, (Manifest.absorb usage (client turn.request s.client).1).2 =
      .ok (client turn.request s.client).1.text ∧
    Manifest.writeText s.fs (turn.directory.child plan.manifestName)
      (client turn.request s.client).1.text = .ok s'.fs
  state : s'.client = (client turn.request s.client).2
  requests : s'.requests = s.requests ++ [turn.request]
  manifests : s'.manifests =
    s.manifests ++ [(turn.directory.child plan.manifestName).toString]
  notes : OnlyNotes plan client s s'

/-- A step that has failed: what it asked, if it came that far, is among the possible requests. -/
structure Stuck (plan : Plan) (client : Client σ) (possible : Request → Prop) (directory : Path)
    (s s' : Session σ) : Prop where
  fs : s'.fs = s.fs
  requests : s'.requests = s.requests ∨
    ∃ request, possible request ∧ s'.requests = s.requests ++ [request]
  manifests : s'.manifests = s.manifests
  current : s'.current = directory
  notes : OnlyNotes plan client s s'

inductive Steps (plan : Plan) (client : Client σ) : List Turn → Session σ → Session σ → Prop
  | nil {s₀ : Session σ} : Steps plan client [] s₀ s₀
  | cons {turn : Turn} {turns : List Turn} {s₀ s₁ s₂ : Session σ} :
      Step plan client turn s₀ s₁ → Steps plan client turns s₁ s₂ →
      Steps plan client (turn :: turns) s₀ s₂

/-- A part of a step that has only looked at the file system. -/
structure Looks (plan : Plan) (client : Client σ) (s s' : Session σ) : Prop where
  fs : s'.fs = s.fs
  state : s'.client = s.client
  requests : s'.requests = s.requests
  manifests : s'.manifests = s.manifests
  current : s'.current = s.current
  notes : OnlyNotes plan client s s'

theorem Looks.trans (h : Looks plan client s s') (h' : Looks plan client s' s'') :
    Looks plan client s s'' :=
  ⟨h'.fs.trans h.fs, h'.state.trans h.state, h'.requests.trans h.requests,
    h'.manifests.trans h.manifests, h'.current.trans h.current, h.notes.trans h'.notes⟩

-- ---------------------------------------------------------------------------
-- The parts of a step
-- ---------------------------------------------------------------------------

section
variable {directory : Path} {request : Request} {failure : Failure}

theorem extract_run (plan : Plan) (directory : Path) (s : Session σ) :
    (extract plan directory).run s =
      match plan.extractor s.fs s.parsers directory with
      | ⟨events, .ok (definitions, parsers)⟩ =>
        (.ok definitions, { s with parsers, events := s.events ++ events })
      | ⟨events, .error failure⟩ => (.error failure, { s with events := s.events ++ events }) := by
  unfold extract
  rw [Run.run_bind_ok (show (get : Run σ (Session σ)).run s = (.ok s, s) from rfl), Run.run_bind,
    Run.run_look]
  rcases plan.extractor s.fs s.parsers directory with ⟨events, failure | ⟨definitions, parsers⟩⟩ <;> rfl

theorem onlyNotes_of_extractor {parsers : Source.Parsers} {fs : FileSystem}
    (he : s'.events = s.events ++ (plan.extractor fs parsers directory).events) :
    OnlyNotes plan client s s' :=
  ⟨_, he, fun _ hm _ => .inl ⟨fs, parsers, directory, hm⟩⟩

theorem extract_looks {result : Except Failure Json} (client : Client σ)
    (h : (extract plan directory).run s = (result, s')) :
    Looks plan client s s' ∧
      ((plan.extractor s.fs s.parsers directory).result.map (·.1) = result) ∧
      ∀ definitions, result = .ok definitions →
        (plan.extractor s.fs s.parsers directory).result = .ok (definitions, s'.parsers) := by
  rw [extract_run] at h
  rcases hx : plan.extractor s.fs s.parsers directory with ⟨events, failure | ⟨definitions, parsers⟩⟩
  · rw [hx] at h
    cases h
    refine ⟨⟨rfl, rfl, rfl, rfl, rfl, ?_⟩, rfl, fun definitions hd => by cases hd⟩
    exact onlyNotes_of_extractor (by rw [hx])
  · rw [hx] at h
    cases h
    refine ⟨⟨rfl, rfl, rfl, rfl, rfl, ?_⟩, rfl, fun definitions hd => by cases hd; rfl⟩
    exact onlyNotes_of_extractor (by rw [hx])

theorem onlyNotes_of_answer (he : s'.events = s.events ++ (client request s.client).1.events) :
    OnlyNotes plan client s s' :=
  ⟨_, he, fun _ hm _ => .inr ⟨request, s.client, hm⟩⟩

theorem document_ok {s' : Session σ} {text : String}
    (h : (Run.generateManifest client request (directory.child plan.manifestName)).run s =
      (.ok text, s')) :
    (document plan client directory request).run s = (.ok (), { s' with
      manifests := s'.manifests ++ [(directory.child plan.manifestName).toString] }) := by
  unfold document
  rw [Run.run_bind_ok h]
  rfl

theorem document_unanswered
    (h : (Manifest.absorb s.usage.recordCall (client request s.client).1).2 = .error failure) :
    (document plan client directory request).run s =
      (.error failure, Run.answered client request s) := by
  unfold document
  exact Run.run_bind_error (Run.generateManifest_unanswered _ h)

theorem document_unwritten {text : String}
    (h : (Manifest.absorb s.usage.recordCall (client request s.client).1).2 = .ok text)
    (hw : Manifest.writeText s.fs (directory.child plan.manifestName) text = .error failure) :
    (document plan client directory request).run s =
      (.error failure, Run.answered client request s) := by
  unfold document
  exact Run.run_bind_error (Run.generateManifest_unwritten h hw)

theorem document_cases {result : Except Failure Unit} {definitions : Json}
    (hlook : Looks plan client s s')
    (hx : (plan.extractor s.fs s.parsers directory).result = .ok (definitions, s'.parsers))
    (h : (document plan client directory request).run s' = (result, s'')) :
    result = .ok () ∧ Step plan client ⟨directory, definitions, request⟩ s s'' ∨
      ∃ failure, result = .error failure ∧
        Stuck plan client (· = request) s.current s s'' := by
  have hanswer : OnlyNotes plan client s (Run.answered client request s') :=
    hlook.notes.trans (onlyNotes_of_answer rfl)
  -- Without an answer and without a place to write it to, the tree stays and the call is counted.
  have hstuck : Stuck plan client (· = request) s.current s (Run.answered client request s') :=
    ⟨hlook.fs, .inr ⟨request, rfl, by simp [Run.answered, Run.asked, hlook.requests]⟩,
      hlook.manifests, hlook.current, hanswer⟩
  rcases ha : (Manifest.absorb s'.usage.recordCall (client request s'.client).1).2 with failure | text
  · rw [document_unanswered ha] at h
    cases h
    exact .inr ⟨failure, rfl, hstuck⟩
  rcases hw : Manifest.writeText s'.fs (directory.child plan.manifestName) text with failure | fs
  · rw [document_unwritten ha hw] at h
    cases h
    exact .inr ⟨failure, rfl, hstuck⟩
  · rw [document_ok (Run.generateManifest_ok ha hw)] at h
    cases h
    have htext := Manifest.absorb_ok ha
    refine .inl ⟨rfl, hx, ⟨s'.usage.recordCall, ?_, ?_⟩, ?_, ?_, ?_, ?_⟩
    · rw [← hlook.state, ← htext, ha]
    · rw [← hlook.state, ← hlook.fs, ← htext, hw]
    · rw [← hlook.state]
      rfl
    · rw [← hlook.requests]
      rfl
    · rw [← hlook.manifests]
      rfl
    · refine hanswer.trans ⟨_, rfl, ?_⟩
      intro event hm hf
      rw [List.mem_singleton.mp hm] at hf
      cases hf

def directoryAsk (plan : Plan) (analysis : Mapping String String) (root directory : Path)
    (definitions : Json) : Request :=
  Prompt.directoryRequest definitions analysis Prompt.Template.text root directory plan.manifestName

def rootAsk (plan : Plan) (analysis : Mapping String String) (root : Path) (definitions : Json) :
    Request :=
  Prompt.rootRequest definitions analysis Prompt.Template.text root plan.manifestName

def rootTurn (plan : Plan) (analysis : Mapping String String) (root : Path) (definitions : Json) :
    Turn :=
  ⟨root, definitions, rootAsk plan analysis root definitions⟩

theorem documentDirectory_run (analysis : Mapping String String) (root directory : Path)
    (s : Session σ) :
    (documentDirectory plan client analysis root directory).run s =
      match (extract plan directory).run { s with current := directory } with
      | (.ok definitions, s₁) => (document plan client directory
          (directoryAsk plan analysis root directory definitions)).run s₁
      | (.error failure, s₁) => (.error failure, s₁) := by
  have hmodify : (modify fun s : Session σ => { s with current := directory } : Run σ Unit).run s =
      (.ok (), { s with current := directory }) := rfl
  unfold documentDirectory
  rw [Run.run_bind_ok hmodify, Run.run_bind]
  rcases (extract plan directory).run { s with current := directory } with ⟨_ | _, _⟩ <;> rfl

theorem documentRoot_run {lister : Lister} (hlister : plan.lister = lister) (root : Path)
    (s : Session σ) :
    (documentRoot plan client root).run s =
      match (extract plan root).run s with
      | (.error failure, s₁) => (.error failure, s₁)
      | (.ok definitions, s₁) =>
        match (Run.look fun fs => Collection.collect fs lister root.toString
            plan.maxListed).run s₁ with
        | (.error failure, s₂) => (.error failure, s₂)
        | (.ok collection, s₂) =>
          match (document plan client root
              (rootAsk plan collection.analysis root definitions)).run s₂ with
          | (.error failure, s₃) => (.error failure, s₃)
          | (.ok _, s₃) => (.ok collection, s₃) := by
  unfold documentRoot
  rw [hlister, Run.run_bind]
  rcases (extract plan root).run s with ⟨failure | definitions, s₁⟩
  · rfl
  simp only
  rw [Run.run_bind]
  rcases (Run.look fun fs => Collection.collect fs lister root.toString plan.maxListed).run s₁ with
    ⟨failure | collection, s₂⟩
  · rfl
  simp only
  rw [Run.run_bind]
  unfold rootAsk
  rcases (document plan client root (Prompt.rootRequest definitions collection.analysis
    Prompt.Template.text root plan.manifestName)).run s₂ with ⟨failure | ⟨⟩, s₃⟩ <;> rfl

theorem documentDirectory_cases {result : Except Failure Unit} {analysis : Mapping String String}
    {root : Path} (h : (documentDirectory plan client analysis root directory).run s = (result, s')) :
    (∃ definitions, result = .ok () ∧ Step plan client
        ⟨directory, definitions, directoryAsk plan analysis root directory definitions⟩ s s') ∨
      ∃ failure, result = .error failure ∧ Stuck plan client
        (∃ definitions, · = directoryAsk plan analysis root directory definitions) directory s s' := by
  rw [documentDirectory_run] at h
  rcases hx : (extract plan directory).run { s with current := directory } with
    ⟨failure | definitions, s₁⟩
  · rw [hx] at h
    cases h
    obtain ⟨hlook, -⟩ := extract_looks client hx
    exact .inr ⟨failure, rfl, hlook.fs, .inl hlook.requests, hlook.manifests, hlook.current,
      hlook.notes⟩
  · rw [hx] at h
    obtain ⟨hlook, -, hdefinitions⟩ := extract_looks client hx
    rcases document_cases hlook (hdefinitions definitions rfl) h with ⟨hr, hstep⟩ | ⟨failure, hr, hs⟩
    · exact .inl ⟨definitions, hr, hstep.extracted, hstep.written, hstep.state, hstep.requests,
        hstep.manifests, hstep.notes⟩
    · refine .inr ⟨failure, hr, hs.fs, ?_, hs.manifests, hs.current, hs.notes⟩
      exact hs.requests.imp_right fun ⟨request, hq, he⟩ => ⟨request, ⟨definitions, hq⟩, he⟩

theorem documentRoot_cases {result : Except Failure Collection} {root : Path}
    (hlister : plan.lister = .walking) (hcurrent : s.current = root)
    (h : (documentRoot plan client root).run s = (result, s')) :
    (∃ definitions collection, result = .ok collection ∧
        (Collection.collect s.fs .walking root.toString plan.maxListed).result = .ok collection ∧
        Step plan client (rootTurn plan collection.analysis root definitions) s s') ∨
      ∃ failure, result = .error failure ∧ Stuck plan client
        (∃ definitions analysis, · = rootAsk plan analysis root definitions) root s s' := by
  rw [documentRoot_run hlister] at h
  rcases hx : (extract plan root).run s with ⟨failure | definitions, s₁⟩
  · rw [hx] at h
    cases h
    obtain ⟨hlook, -⟩ := extract_looks client hx
    exact .inr ⟨failure, rfl, hlook.fs, .inl hlook.requests, hlook.manifests,
      hlook.current.trans hcurrent, hlook.notes⟩
  rw [hx] at h
  obtain ⟨hlook, -, hdefinitions⟩ := extract_looks client hx
  simp only [Run.run_look] at h
  -- The collection changes nothing but the events.
  have hlook' : Looks plan client s { s₁ with events := s₁.events ++
      (Collection.collect s₁.fs .walking root.toString plan.maxListed).events } :=
    hlook.trans ⟨rfl, rfl, rfl, rfl, rfl, .of_quiet (Collection.collect_quiet _ _ _) rfl⟩
  rcases hc : (Collection.collect s₁.fs .walking root.toString plan.maxListed).result with
    failure | collection
  · rw [hc] at h
    cases h
    exact .inr ⟨failure, rfl, hlook'.fs, .inl hlook'.requests, hlook'.manifests,
      hlook'.current.trans hcurrent, hlook'.notes⟩
  · rw [hc] at h
    simp only at h
    rcases hd : (document plan client root (rootAsk plan collection.analysis root definitions)).run
        { s₁ with events := s₁.events ++
          (Collection.collect s₁.fs .walking root.toString plan.maxListed).events } with ⟨ending, s₂⟩
    rw [hd] at h
    rcases document_cases hlook' (hdefinitions definitions rfl) hd with
      ⟨rfl, hstep⟩ | ⟨failure, rfl, hs⟩
    · cases h
      exact .inl ⟨definitions, collection, rfl, hlook.fs ▸ hc, hstep⟩
    · cases h
      refine .inr ⟨failure, rfl, hs.fs, ?_, hs.manifests, hs.current.trans hcurrent, hs.notes⟩
      exact hs.requests.imp_right fun ⟨request, hq, he⟩ =>
        ⟨request, ⟨definitions, collection.analysis, hq⟩, he⟩

end

-- ---------------------------------------------------------------------------
-- All directories
-- ---------------------------------------------------------------------------

theorem documentDirectories_cases {result : Except Failure Unit} {analysis : Mapping String String}
    {root : Path} {directories : List Path}
    (h : (documentDirectories plan client analysis root directories).run s = (result, s')) :
    ∃ turns s₁, Steps plan client turns s s₁ ∧
      (∀ turn ∈ turns,
        turn.request = directoryAsk plan analysis root turn.directory turn.definitions) ∧
      (documentDirectories plan client analysis root (turns.map (·.directory))).run s =
        (.ok (), s₁) ∧
      (result = .ok () ∧ directories = turns.map (·.directory) ∧ s' = s₁ ∨
        ∃ failure directory rest, result = .error failure ∧
          directories = turns.map (·.directory) ++ directory :: rest ∧
          (documentDirectory plan client analysis root directory).run s₁ = (.error failure, s')) := by
  induction directories generalizing s with
  | nil =>
    cases h
    exact ⟨[], _, .nil, List.forall_mem_nil _, rfl, .inl ⟨rfl, rfl, rfl⟩⟩
  | cons directory rest ih =>
    rw [documentDirectories, Run.run_bind] at h
    rcases hd : (documentDirectory plan client analysis root directory).run s with ⟨ending, s₁⟩
    rw [hd] at h
    rcases documentDirectory_cases hd with ⟨definitions, rfl, hstep⟩ | ⟨failure, rfl, -⟩
    · obtain ⟨turns, s₂, hsteps, hask, hfront, hend⟩ := ih h
      refine ⟨_ :: turns, s₂, .cons hstep hsteps, ?_, (Run.run_bind_ok hd).trans hfront, ?_⟩
      · intro turn hm
        rcases List.mem_cons.mp hm with rfl | hm
        · rfl
        · exact hask turn hm
      · rcases hend with ⟨hr, rfl, hs⟩ | ⟨failure, other, rest', hr, rfl, hrun⟩
        · exact .inl ⟨hr, rfl, hs⟩
        · exact .inr ⟨failure, other, rest', hr, rfl, hrun⟩
    · cases h
      exact ⟨[], s, .nil, List.forall_mem_nil _, rfl,
        .inr ⟨failure, directory, rest, rfl, rfl, hd⟩⟩

theorem documentAll_run (root : Path) (s : Session σ) :
    (documentAll plan client root).run s =
      match (documentRoot plan client root).run { s with current := root } with
      | (.error failure, s₁) => (.error failure, s₁)
      | (.ok collection, s₁) =>
        match FirstLevel.select s₁.fs root collection.directories with
        | .error failure => (.error failure, s₁)
        | .ok directories =>
          (documentDirectories plan client collection.analysis root directories).run s₁ := by
  have hmodify : (modify fun s : Session σ => { s with current := root } : Run σ Unit).run s =
      (.ok (), { s with current := root }) := rfl
  unfold documentAll
  rw [Run.run_bind_ok hmodify, Run.run_bind]
  rcases (documentRoot plan client root).run { s with current := root } with
    ⟨failure | collection, s₁⟩
  · rfl
  simp only
  rw [Run.run_bind, Run.run_look]
  rcases FirstLevel.select s₁.fs root collection.directories with failure | directories <;>
    simp [Report.ofExcept]

/-- A run stops at its first step, or goes on with the directories that it selects after it. -/
theorem documentAll_cases {result : Except Failure Unit} {root : Path}
    (hlister : plan.lister = .walking) (h : (documentAll plan client root).run s = (result, s')) :
    (∃ failure, result = .error failure ∧
        (documentRoot plan client root).run { s with current := root } = (.error failure, s')) ∨
      ∃ definitions collection s₁,
        (Collection.collect s.fs .walking root.toString plan.maxListed).result = .ok collection ∧
        Step plan client (rootTurn plan collection.analysis root definitions) s s₁ ∧
        (documentRoot plan client root).run { s with current := root } = (.ok collection, s₁) ∧
        ∀ directories, FirstLevel.select s₁.fs root collection.directories = .ok directories →
          (documentDirectories plan client collection.analysis root directories).run s₁ =
            (result, s') := by
  rw [documentAll_run] at h
  rcases hroot : (documentRoot plan client root).run { s with current := root } with ⟨ending, s₁⟩
  rw [hroot] at h
  have hcurrent : ({ s with current := root } : Session σ).current = root := rfl
  rcases documentRoot_cases hlister hcurrent hroot with
    ⟨definitions, collection, rfl, hc, hstep⟩ | ⟨failure, rfl, -⟩
  · refine .inr ⟨definitions, collection, s₁, hc, ?_, rfl, ?_⟩
    · exact ⟨hstep.extracted, hstep.written, hstep.state, hstep.requests, hstep.manifests,
        hstep.notes⟩
    · intro directories hselect
      simp only [hselect] at h
      exact h
  · cases h
    exact .inl ⟨failure, rfl, rfl⟩

end TreeManifest.Documentation
