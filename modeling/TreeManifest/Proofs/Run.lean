import TreeManifest.Documentation
import TreeManifest.Proofs.Report

/-!
# Laws of runs

How the operations of a run change its session (`run_look`, `run_ask`, `run_absorb`), and one law
for each way in which the writing of a manifest ends. What follows an operation starts in the
session that the operation leaves (`run_bind`).
-/

namespace TreeManifest

variable {σ α β : Type}

namespace Run

theorem run_pure (value : α) (s : Session σ) : (pure value : Run σ α).run s = (.ok value, s) := rfl

theorem run_bind (x : Run σ α) (f : α → Run σ β) (s : Session σ) :
    (x >>= f).run s = match x.run s with
      | (.ok value, s') => (f value).run s'
      | (.error failure, s') => (.error failure, s') := by
  obtain ⟨result, s', h⟩ : ∃ result s', x.run s = (result, s') := ⟨_, _, rfl⟩
  show StateT.run (x >>= f).run s = _
  rw [ExceptT.run_bind, StateT.run_bind, StateT.run, h]
  cases result <;> rfl

theorem run_bind_ok {x : Run σ α} {f : α → Run σ β} {s s' : Session σ} {value : α}
    (h : x.run s = (.ok value, s')) : (x >>= f).run s = (f value).run s' := by
  rw [run_bind, h]

theorem run_bind_error {x : Run σ α} {f : α → Run σ β} {s s' : Session σ} {failure : Failure}
    (h : x.run s = (.error failure, s')) : (x >>= f).run s = (.error failure, s') := by
  rw [run_bind, h]

theorem exists_run_ok {x : Run σ α} {s : Session σ} (h : (x.run s).1.toOption.isSome = true) :
    ∃ value s', x.run s = (.ok value, s') := by
  obtain ⟨value, hx⟩ := exists_ok_of_isSome h
  exact ⟨value, _, Prod.ext hx rfl⟩

theorem exists_run_ok_of_map {x : Run σ α} {s : Session σ} {f : α → β} {found : β}
    (h : (x.run s).1.toOption.map f = some found) :
    ∃ value s', x.run s = (.ok value, s') ∧ f value = found := by
  obtain ⟨value, hx, hf⟩ := exists_ok_of_map h
  exact ⟨value, _, Prod.ext hx rfl, hf⟩

theorem run_get_bind (f : Session σ → Run σ α) (s : Session σ) :
    ((get : Run σ (Session σ)) >>= f).run s = (f s).run s := rfl

theorem run_look (step : FileSystem → Report α) (s : Session σ) :
    (look step).run s =
      ((step s.fs).result, { s with events := s.events ++ (step s.fs).events }) := by
  show (look.ofExcept (step s.fs).result).run
    { s with events := s.events ++ (step s.fs).events } = _
  cases (step s.fs).result <;> rfl

theorem run_look_ok {step : FileSystem → Report α} {s : Session σ} {value : α}
    (h : (step s.fs).result = .ok value) :
    (look step).run s = (.ok value, { s with events := s.events ++ (step s.fs).events }) := by
  rw [run_look, h]

theorem run_tryCatch_ok {x : Run σ α} (handler : Failure → Run σ α) {s s' : Session σ} {value : α}
    (h : x.run s = (.ok value, s')) : (tryCatch x handler).run s = (.ok value, s') := by
  unfold ExceptT.run at h
  show StateT.run (ExceptT.tryCatch x handler).run s = _
  rw [ExceptT.tryCatch, ExceptT.run_mk, StateT.run_bind, StateT.run, h]
  rfl

theorem run_tryCatch_error {x : Run σ α} (handler : Failure → Run σ α) {s s' : Session σ}
    {failure : Failure} (h : x.run s = (.error failure, s')) :
    (tryCatch x handler).run s = (handler failure).run s' := by
  unfold ExceptT.run at h
  show StateT.run (ExceptT.tryCatch x handler).run s = _
  rw [ExceptT.tryCatch, ExceptT.run_mk, StateT.run_bind, StateT.run, h]
  rfl

def asked (client : Client σ) (request : Request) (s : Session σ) : Session σ :=
  { s with
    usage := s.usage.recordCall
    client := (client request s.client).2
    requests := s.requests ++ [request]
    events := s.events ++ (client request s.client).1.events }

def answered (client : Client σ) (request : Request) (s : Session σ) : Session σ :=
  { asked client request s with
    usage := (Manifest.absorb s.usage.recordCall (client request s.client).1).1 }

theorem run_ask (client : Client σ) (request : Request) (s : Session σ) :
    (ask client request).run s = (.ok (client request s.client).1, asked client request s) := rfl

theorem run_absorb (reply : Reply) (s : Session σ) :
    (absorb reply).run s =
      ((Manifest.absorb s.usage reply).2, { s with usage := (Manifest.absorb s.usage reply).1 }) := by
  rw [absorb, run_get_bind]
  obtain ⟨usage, text⟩ := Manifest.absorb s.usage reply
  cases text <;> rfl

theorem run_absorb_asked (client : Client σ) (request : Request) (s : Session σ) :
    (absorb (client request s.client).1).run (asked client request s) =
      ((Manifest.absorb s.usage.recordCall (client request s.client).1).2,
        answered client request s) :=
  run_absorb _ _

theorem write_ok {p : Path} {text : String} {s : Session σ} {fs : FileSystem}
    (h : Manifest.writeText s.fs p text = .ok fs) :
    (write p text).run s = (.ok (), { s with fs }) := by
  rw [write, run_get_bind, h]
  rfl

theorem write_error {p : Path} {text : String} {s : Session σ} {failure : Failure}
    (h : Manifest.writeText s.fs p text = .error failure) :
    (write p text).run s = (.error failure, s) := by
  rw [write, run_get_bind, h]
  rfl

theorem generateManifest_unanswered {client : Client σ} {request : Request} {s : Session σ}
    {failure : Failure} (p : Path)
    (h : (Manifest.absorb s.usage.recordCall (client request s.client).1).2 = .error failure) :
    (generateManifest client request p).run s = (.error failure, answered client request s) := by
  unfold generateManifest
  rw [run_bind_ok (run_ask client request s), run_bind_error]
  rw [run_absorb_asked, h]

theorem generateManifest_unwritten {client : Client σ} {request : Request} {s : Session σ}
    {failure : Failure} {p : Path} {text : String}
    (h : (Manifest.absorb s.usage.recordCall (client request s.client).1).2 = .ok text)
    (hw : Manifest.writeText s.fs p text = .error failure) :
    (generateManifest client request p).run s = (.error failure, answered client request s) := by
  have habsorb := run_absorb_asked client request s
  rw [h] at habsorb
  unfold generateManifest
  rw [run_bind_ok (run_ask client request s), run_bind_ok habsorb, run_bind_error]
  exact write_error hw

theorem generateManifest_ok {client : Client σ} {request : Request} {s : Session σ} {p : Path}
    {text : String} {fs : FileSystem}
    (h : (Manifest.absorb s.usage.recordCall (client request s.client).1).2 = .ok text)
    (hw : Manifest.writeText s.fs p text = .ok fs) :
    (generateManifest client request p).run s = (.ok text, { answered client request s with
      fs := fs
      events := (answered client request s).events ++ [.manifestWritten p.toString text.length] }) := by
  have habsorb := run_absorb_asked client request s
  rw [h] at habsorb
  have hwrite : (write p text).run (answered client request s) =
      (.ok (), { answered client request s with fs }) := write_ok hw
  unfold generateManifest
  rw [run_bind_ok (run_ask client request s), run_bind_ok habsorb, run_bind_ok hwrite]
  rfl

/-- A reply that makes a text is counted, and its text is written or the writing fails. -/
theorem generateManifest_answered {client : Client σ} {request : Request} {s s' : Session σ}
    {p : Path} {usage : Usage} {text : String} {result : Except Failure String}
    (h : Manifest.absorb s.usage.recordCall (client request s.client).1 = (usage, .ok text))
    (hrun : (generateManifest client request p).run s = (result, s')) :
    s'.usage = usage ∧
      (∀ fs, Manifest.writeText s.fs p text = .ok fs → result = .ok text ∧ s'.fs = fs) ∧
      ∀ failure, Manifest.writeText s.fs p text = .error failure →
        result = .error failure ∧ s'.fs = s.fs := by
  have hanswered : (answered client request s).usage = usage := congrArg Prod.fst h
  have htext := congrArg Prod.snd h
  rcases hw : Manifest.writeText s.fs p text with failure | fs
  · rw [generateManifest_unwritten htext hw] at hrun
    cases hrun
    exact ⟨hanswered, fun _ hfs => (nomatch hfs),
      fun _ hf => ⟨congrArg Except.error (Except.error.inj hf), rfl⟩⟩
  · rw [generateManifest_ok htext hw] at hrun
    cases hrun
    exact ⟨hanswered, fun _ hfs => ⟨rfl, Except.ok.inj hfs⟩, fun _ hf => (nomatch hf)⟩

end Run

end TreeManifest
