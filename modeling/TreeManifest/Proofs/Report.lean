import TreeManifest.Collection

/-!
# Laws of reports

Steps in sequence give a value if all of them do (`result_bind_ok`), and their events are those of
the steps (`mem_events_bind`). Listing and describing files notes no failed run
(`collect_quiet`): only the run itself tells that it has failed.
-/

namespace TreeManifest

def Event.isFailedRun : Event → Bool
  | .generationFailed _ => true
  | _ => false

section
variable {ε α β : Type}

theorem bind_ok {x : Except ε α} {f : α → Except ε β} {result : β} :
    (x >>= f) = .ok result ↔ ∃ value, x = .ok value ∧ f value = .ok result := by
  cases x <;> simp [bind, Except.bind]

theorem map_ok {x : Except ε α} {f : α → β} {result : β} :
    x.map f = .ok result ↔ ∃ value, x = .ok value ∧ f value = result := by
  cases x <;> simp [Except.map]

theorem mapError_ok {ε' : Type} {x : Except ε α} {f : ε → ε'} {value : α} :
    x.mapError f = .ok value ↔ x = .ok value := by
  cases x with
  | error e => exact ⟨nofun, nofun⟩
  | ok found => exact ⟨fun h => congrArg _ (Except.ok.inj h), fun h => congrArg _ (Except.ok.inj h)⟩

theorem eq_ok_of_toOption {x : Except ε α} {value : α} (h : x.toOption = some value) :
    x = .ok value := by
  cases x <;> simp_all [Except.toOption]

theorem exists_ok_of_map {x : Except ε α} {f : α → β} {found : β}
    (h : x.toOption.map f = some found) : ∃ value, x = .ok value ∧ f value = found := by
  obtain ⟨value, hx, hf⟩ := Option.map_eq_some_iff.mp h
  exact ⟨value, eq_ok_of_toOption hx, hf⟩

theorem exists_ok_of_isSome {x : Except ε α} (h : x.toOption.isSome = true) :
    ∃ value, x = .ok value := by
  obtain ⟨value, hx⟩ := Option.isSome_iff_exists.mp h
  exact ⟨value, eq_ok_of_toOption hx⟩

end

namespace Report

variable {α β : Type}

theorem result_bind (report : Report α) (next : α → Report β) :
    (report >>= next).result = report.result.bind fun value => (next value).result := by
  show (report.bind next).result = _
  unfold Report.bind
  cases report.result <;> rfl

theorem bind_congr {report : Report α} {next next' : α → Report β}
    (h : ∀ value, report.result = .ok value → next value = next' value) :
    (report >>= next) = (report >>= next') := by
  show report.bind next = report.bind next'
  unfold Report.bind
  cases hr : report.result with
  | error failure => rfl
  | ok value => simp only [h value hr]

theorem result_bind_ok {report : Report α} {next : α → Report β} {result : β} :
    (report >>= next).result = .ok result ↔
      ∃ value, report.result = .ok value ∧ (next value).result = .ok result := by
  rw [result_bind]
  exact bind_ok

theorem mem_events_bind {report : Report α} {next : α → Report β} {event : Event}
    (h : event ∈ (report >>= next).events) :
    event ∈ report.events ∨ ∃ value, event ∈ (next value).events := by
  change event ∈ (report.bind next).events at h
  unfold Report.bind at h
  cases hr : report.result with
  | error failure =>
    rw [hr] at h
    exact .inl h
  | ok value =>
    rw [hr] at h
    exact (List.mem_append.mp h).imp_right fun hm => ⟨value, hm⟩

def Quiet (report : Report α) : Prop := ∀ event ∈ report.events, event.isFailedRun = false

theorem quiet_pure (value : α) : (pure value : Report α).Quiet := List.forall_mem_nil _

theorem quiet_ofExcept (result : Except Failure α) : (ofExcept result).Quiet := List.forall_mem_nil _

theorem quiet_note {event : Event} (h : event.isFailedRun = false) : (note event).Quiet := by
  intro other ho
  exact List.mem_singleton.mp ho ▸ h

theorem Quiet.bind {report : Report α} {next : α → Report β} (h : report.Quiet)
    (hn : ∀ value, (next value).Quiet) : (report >>= next).Quiet := by
  intro event he
  rcases mem_events_bind he with hm | ⟨value, hm⟩
  · exact h event hm
  · exact hn value event hm

end Report

open Report (quiet_pure quiet_ofExcept quiet_note)

theorem Listing.cut_quiet (limit : Nat) (visits : List Visit) : (cut limit visits).Quiet := by
  induction visits generalizing limit with
  | nil => rw [cut]; exact List.forall_mem_nil _
  | cons visit rest ih =>
    cases visit with
    | unreadable directory =>
      rw [cut]
      intro event he
      rcases List.mem_cons.mp he with rfl | he
      · rfl
      · exact ih limit event he
    | failed failure => rw [cut]; exact List.forall_mem_nil _
    | item item =>
      cases limit with
      | zero => rw [cut]; exact List.forall_mem_nil _
      | succ limit => rw [cut]; exact ih limit

theorem Listing.list_quiet (fs : FileSystem) (root : String) (recursive : Bool) (limit : Int) :
    (list fs root recursive limit).Quiet := by
  refine (quiet_ofExcept _).bind fun base => (quiet_ofExcept _).bind fun _ => ?_
  refine (quiet_ofExcept _).bind fun isRefused => ?_
  have hwalk : (Report.ofExcept (rulesOf fs base) >>= fun rules =>
      cut limit.toNat (Walk.visits fs ⟨base, rules.ignores⟩ recursive)).Quiet :=
    (quiet_ofExcept _).bind fun rules => cut_quiet _ _
  cases isRefused with
  | true => exact (quiet_note rfl).bind fun _ => quiet_pure _
  | false => exact hwalk

theorem Description.describe_quiet (fs : FileSystem) (path : String) :
    (describe fs path).Quiet := by
  unfold describe
  simp only
  split
  · exact List.forall_mem_nil _
  · exact quiet_note rfl

theorem Collection.describeAll_quiet (fs : FileSystem) (analysis : Mapping String String)
    (files : List String) : (describeAll fs analysis files).Quiet := by
  induction files generalizing analysis with
  | nil => exact quiet_pure _
  | cons file files ih => exact (Description.describe_quiet fs file).bind fun _ => ih _

theorem Collection.collect_quiet (fs : FileSystem) (root : String) (limit : Int) :
    (collect fs .walking root limit).Quiet := by
  refine (Listing.list_quiet fs root true limit).bind fun listing => ?_
  have hrest : ∀ files directories : List String,
      ((describeAll fs [] (files.filter (!isHiddenEntry ·))) >>= fun analysis =>
        Report.note (.filesCollected root files.length directories.length analysis.length) >>= fun _ =>
          (pure ⟨listing.entries, files, directories, analysis, listing.truncated⟩ :
            Report Collection)).Quiet := fun files directories =>
    (describeAll_quiet fs [] _).bind fun _ => (quiet_note rfl).bind fun _ => quiet_pure _
  unfold ofListing
  simp only
  split
  · exact (quiet_note rfl).bind fun _ => hrest _ _
  · exact hrest _ _

end TreeManifest
