import TreeManifest.Proofs.Documentation.Course

/-!
# Runs of corresponding clients

Two clients correspond if their replies are the same and the state of one is a function of the state
of the other. A run looks at replies alone and hands the state on, so the runs of two such clients
differ in nothing but that state (`Recasts.run`).
-/

namespace TreeManifest

variable {σ τ α β : Type} {f : σ → τ}

def Session.recast (f : σ → τ) (s : Session σ) : Session τ :=
  ⟨s.fs, s.parsers, s.usage, f s.client, s.requests, s.events, s.current, s.manifests⟩

def Client.Recasts (f : σ → τ) (client : Client σ) (client' : Client τ) : Prop :=
  ∀ request state,
    client' request (f state) = ((client request state).1, f (client request state).2)

/-- The same run for another client: it ends the same way, from the same session. -/
def Recasts (f : σ → τ) (x : Run σ α) (y : Run τ α) : Prop :=
  ∀ s, y.run (s.recast f) = ((x.run s).1, (x.run s).2.recast f)

namespace Recasts

-- ---------------------------------------------------------------------------
-- The operations of a run
-- ---------------------------------------------------------------------------

theorem pure (value : α) : Recasts f (Pure.pure value : Run σ α) (Pure.pure value) := fun _ => rfl

theorem throw (failure : Failure) :
    Recasts f (MonadExcept.throw failure : Run σ α) (MonadExcept.throw failure) := fun _ => rfl

theorem modify {g : Session σ → Session σ} {h : Session τ → Session τ}
    (hg : ∀ s, h (s.recast f) = (g s).recast f) :
    Recasts f (modify g : Run σ PUnit) (modify h) := fun s => congrArg (Prod.mk _) (hg s)

theorem bind {x : Run σ α} {y : Run τ α} {g : α → Run σ β} {h : α → Run τ β} (hx : Recasts f x y)
    (hg : ∀ value, Recasts f (g value) (h value)) : Recasts f (x >>= g) (y >>= h) := by
  intro s
  rw [Run.run_bind, Run.run_bind, hx s]
  rcases x.run s with ⟨failure | value, s₁⟩
  · rfl
  · exact hg value s₁

/-- What is read from a session, where it does not tell the two apart. -/
theorem get_bind {g : Session σ → Run σ α} {h : Session τ → Run τ α}
    (hg : ∀ s, Recasts f (g s) (h (s.recast f))) :
    Recasts f ((get : Run σ (Session σ)) >>= g) ((get : Run τ (Session τ)) >>= h) :=
  fun s => hg s s

theorem log (event : Event) : Recasts f (Run.log event) (Run.log event) := modify fun _ => by rfl

theorem look (step : FileSystem → Report α) : Recasts f (Run.look step) (Run.look step) := by
  intro s
  rw [Run.run_look, Run.run_look]
  rfl

theorem absorb (reply : Reply) : Recasts f (Run.absorb reply) (Run.absorb reply) := by
  intro s
  rw [Run.run_absorb, Run.run_absorb]
  rfl

theorem write (p : Path) (text : String) : Recasts f (Run.write p text) (Run.write p text) := by
  refine get_bind fun s => ?_
  rcases hw : Manifest.writeText s.fs p text with failure | fs
  · simpa only [Session.recast, hw] using throw failure
  · simpa only [Session.recast, hw] using modify fun _ => by rfl

theorem ask {client : Client σ} {client' : Client τ} (hclient : client.Recasts f client')
    (request : Request) : Recasts f (Run.ask client request) (Run.ask client' request) := by
  intro s
  have hreply := hclient request s.client
  rw [Run.run_ask, Run.run_ask]
  simp only [Run.asked, Session.recast, hreply]

theorem generateManifest {client : Client σ} {client' : Client τ}
    (hclient : client.Recasts f client') (request : Request) (p : Path) :
    Recasts f (Run.generateManifest client request p) (Run.generateManifest client' request p) :=
  (ask hclient request).bind fun reply => (absorb reply).bind fun text =>
    (write p text).bind fun _ => (log _).bind fun _ => pure text

-- ---------------------------------------------------------------------------
-- The parts of a run
-- ---------------------------------------------------------------------------

variable {plan : Documentation.Plan} {client : Client σ} {client' : Client τ}

theorem extract (directory : Path) :
    Recasts f (Documentation.extract plan directory) (Documentation.extract plan directory) :=
  get_bind fun _ => (look _).bind fun _ => (modify fun _ => by rfl).bind fun _ => pure _

theorem document (hclient : client.Recasts f client') (directory : Path) (request : Request) :
    Recasts f (Documentation.document plan client directory request)
      (Documentation.document plan client' directory request) :=
  (generateManifest hclient request _).bind fun _ => modify fun _ => by rfl

theorem documentRoot (hclient : client.Recasts f client') (root : Path) :
    Recasts f (Documentation.documentRoot plan client root)
      (Documentation.documentRoot plan client' root) :=
  (extract root).bind fun _ => (look _).bind fun _ => (document hclient root _).bind fun _ => pure _

theorem documentDirectory (hclient : client.Recasts f client')
    (analysis : Mapping String String) (root directory : Path) :
    Recasts f (Documentation.documentDirectory plan client analysis root directory)
      (Documentation.documentDirectory plan client' analysis root directory) :=
  (modify fun _ => by rfl).bind fun _ => (extract directory).bind fun _ => document hclient directory _

theorem documentDirectories (hclient : client.Recasts f client')
    (analysis : Mapping String String) (root : Path) (directories : List Path) :
    Recasts f (Documentation.documentDirectories plan client analysis root directories)
      (Documentation.documentDirectories plan client' analysis root directories) := by
  induction directories with
  | nil => exact pure ()
  | cons directory rest ih =>
    exact (documentDirectory hclient analysis root directory).bind fun _ => ih

theorem documentAll (hclient : client.Recasts f client') (root : Path) :
    Recasts f (Documentation.documentAll plan client root)
      (Documentation.documentAll plan client' root) :=
  (modify fun _ => by rfl).bind fun _ => (documentRoot hclient root).bind fun collection =>
    (look _).bind fun _ => documentDirectories hclient collection.analysis root _

theorem logged {x : Run σ Unit} {y : Run τ Unit} (hx : Recasts f x y) :
    Recasts f (Documentation.logged x) (Documentation.logged y) := by
  intro s
  have hy := hx s
  rcases hr : x.run s with ⟨failure | ⟨⟩, s₁⟩
  · rw [hr] at hy
    rw [Documentation.logged_error hr, Documentation.logged_error hy]
    cases failure.isHandled <;> rfl
  · rw [hr] at hy
    rw [Documentation.logged_ok hr, Documentation.logged_ok hy]

theorem run (hclient : client.Recasts f client') (text : String) :
    Recasts f (Documentation.run plan client text) (Documentation.run plan client' text) :=
  (look _).bind fun _ => (documentAll hclient _).logged.bind fun _ => get_bind fun _ =>
    (log _).bind fun _ => get_bind fun _ => pure _

end Recasts

end TreeManifest
