import TreeManifest.Proofs.Documentation.Course
import TreeManifest.Proofs.Usage

/-!
# The usage of a run

All calls of a run share the counters. Whatever else a run does, its requests and manifests come
from calls that were answered and written, one after the other, and at most one last call that was
not (`run_ends`). So the counters of a run that gives a result are the sums over all reports of all
replies, and a report with a negative number ends the run at its call (`run_usage`).
-/

namespace TreeManifest

/-- What a session keeps of its calls. -/
structure Books (σ : Type) where
  fs : FileSystem
  usage : Usage
  client : σ
  requests : List Request
  manifests : List String

def Session.books {σ : Type} (s : Session σ) : Books σ :=
  ⟨s.fs, s.usage, s.client, s.requests, s.manifests⟩

def Manifest.writeAll (fs : FileSystem) (texts : List (Path × String)) :
    Except Failure FileSystem :=
  texts.foldlM (fun fs written => writeText fs written.1 written.2) fs

namespace Documentation

variable {σ α β : Type} {client : Client σ} {b b₁ b' : Books σ} {request : Request}
  {failure : Failure}

structure Call (client : Client σ) (request : Request) (p : Path) (b b' : Books σ) : Prop where
  absorbed : Manifest.absorb b.usage.recordCall (client request b.client).1 =
    (b'.usage, .ok (client request b.client).1.text)
  written : Manifest.writeText b.fs p (client request b.client).1.text = .ok b'.fs
  state : b'.client = (client request b.client).2
  requests : b'.requests = b.requests ++ [request]
  manifests : b'.manifests = b.manifests ++ [p.toString]

/-- A call that has failed: its reply makes no text, or the text cannot be written. -/
structure Dropped (client : Client σ) (request : Request) (failure : Failure) (b b' : Books σ) :
    Prop where
  failed : (Manifest.absorb b.usage.recordCall (client request b.client).1).2 = .error failure ∨
    ∃ text, (Manifest.absorb b.usage.recordCall (client request b.client).1).2 = .ok text
  fs : b'.fs = b.fs
  requests : b'.requests = b.requests ++ [request]
  manifests : b'.manifests = b.manifests

inductive Calls (client : Client σ) : List (Request × Path) → Books σ → Books σ → Prop
  | nil {b₀ : Books σ} : Calls client [] b₀ b₀
  | cons {request : Request} {p : Path} {calls : List (Request × Path)} {b₀ b₁ b₂ : Books σ} :
      Call client request p b₀ b₁ → Calls client calls b₁ b₂ →
      Calls client ((request, p) :: calls) b₀ b₂

theorem Calls.append {calls more : List (Request × Path)} (h : Calls client calls b b₁)
    (h' : Calls client more b₁ b') : Calls client (calls ++ more) b b' := by
  induction h with
  | nil => exact h'
  | cons hcall _ ih => exact .cons hcall (ih h')

/-- How a part of a run ends: with a value, with a failure between two calls, or during one. -/
inductive Ends (client : Client σ) (b : Books σ) : Except Failure α → Books σ → Prop
  | done (value : α) {calls : List (Request × Path)} {b' : Books σ} (h : Calls client calls b b') :
      Ends client b (.ok value) b'
  | between {failure : Failure} {calls : List (Request × Path)} {b' : Books σ}
      (h : Calls client calls b b') : Ends client b (.error failure) b'
  | during {failure : Failure} {calls : List (Request × Path)} {request : Request}
      {b₁ b' : Books σ} (h : Calls client calls b b₁)
      (hd : Dropped client request failure b₁ b') : Ends client b (.error failure) b'

theorem Ends.of_calls {calls : List (Request × Path)} {result : Except Failure α}
    (h : Calls client calls b b₁) (h' : Ends client b₁ result b') : Ends client b result b' := by
  cases h' with
  | done value h' => exact .done value (h.append h')
  | between h' => exact .between (h.append h')
  | during h' hd => exact .during (h.append h') hd

def KeepsBooks (client : Client σ) (x : Run σ α) : Prop :=
  ∀ s, Ends client s.books (x.run s).1 (x.run s).2.books

namespace KeepsBooks

theorem of_eq {x : Run σ α} (h : ∀ s, (x.run s).2.books = s.books) : KeepsBooks client x := by
  intro s
  rw [h s]
  cases (x.run s).1 with
  | ok value => exact .done value .nil
  | error failure => exact .between .nil

theorem bind {x : Run σ α} {f : α → Run σ β} (h : KeepsBooks client x)
    (hf : ∀ value, KeepsBooks client (f value)) : KeepsBooks client (x >>= f) := by
  intro s
  have hx := h s
  rw [Run.run_bind]
  generalize hr : x.run s = r at hx ⊢
  obtain ⟨failure | value, s₁⟩ := r
  · cases hx with
    | between hcalls => exact .between hcalls
    | during hcalls hd => exact .during hcalls hd
  · cases hx with
    | done _ hcalls => exact (hf value s₁).of_calls hcalls

theorem pure (value : α) : KeepsBooks client (Pure.pure value : Run σ α) := of_eq fun _ => rfl

theorem get : KeepsBooks client (MonadState.get : Run σ (Session σ)) := of_eq fun _ => rfl

theorem look (step : FileSystem → Report α) : KeepsBooks client (Run.look step) :=
  of_eq fun s => by rw [Run.run_look]; rfl

theorem log (event : Event) : KeepsBooks client (Run.log event) := of_eq fun _ => rfl

variable {plan : Plan}

theorem extract (directory : Path) : KeepsBooks client (Documentation.extract plan directory) :=
  get.bind fun _ => (look _).bind fun _ => (of_eq fun _ => rfl).bind fun _ => pure _

theorem document (directory : Path) (request : Request) :
    KeepsBooks client (Documentation.document plan client directory request) := by
  intro s
  rcases ha : (Manifest.absorb s.usage.recordCall (client request s.client).1).2 with failure | text
  · rw [document_unanswered ha]
    exact .during .nil ⟨.inl ha, rfl, rfl, rfl⟩
  rcases hw : Manifest.writeText s.fs (directory.child plan.manifestName) text with failure | fs
  · rw [document_unwritten ha hw]
    exact .during .nil ⟨.inr ⟨text, ha⟩, rfl, rfl, rfl⟩
  · rw [document_ok (Run.generateManifest_ok ha hw)]
    have htext := Manifest.absorb_ok ha
    exact .done _ (.cons ⟨Prod.ext rfl (htext ▸ ha), htext ▸ hw, rfl, rfl, rfl⟩ .nil)

theorem documentRoot (root : Path) :
    KeepsBooks client (Documentation.documentRoot plan client root) :=
  (extract root).bind fun _ => (look _).bind fun _ => (document root _).bind fun _ => pure _

theorem documentDirectories (analysis : Mapping String String) (root : Path)
    (directories : List Path) :
    KeepsBooks client (Documentation.documentDirectories plan client analysis root directories) := by
  induction directories with
  | nil => exact pure ()
  | cons directory rest ih =>
    have hdirectory :
        KeepsBooks client (documentDirectory plan client analysis root directory) :=
      (of_eq fun _ => rfl).bind fun _ => (extract directory).bind fun _ => document directory _
    exact hdirectory.bind fun _ => ih

theorem documentAll (root : Path) :
    KeepsBooks client (Documentation.documentAll plan client root) :=
  (of_eq fun _ => rfl).bind fun _ => (documentRoot root).bind fun _ => (look _).bind fun _ =>
    documentDirectories _ root _

theorem logged {x : Run σ Unit} (h : KeepsBooks client x) :
    KeepsBooks client (Documentation.logged x) := by
  intro s
  have hx := h s
  generalize hr : x.run s = r at hx
  obtain ⟨failure | ⟨⟩, s₁⟩ := r
  · rw [logged_error hr]
    have hbooks : (if failure.isHandled then
        { s₁ with events := s₁.events ++ [.generationFailed (failedRun s₁ failure)] }
        else s₁).books = s₁.books := by
      split <;> rfl
    rw [hbooks]
    exact hx
  · rw [logged_ok hr]
    exact hx

end KeepsBooks

theorem run_ends (plan : Plan) (client : Client σ) (text : String) :
    KeepsBooks client (run plan client text) :=
  (KeepsBooks.look _).bind fun _ => (KeepsBooks.documentAll _).logged.bind fun _ =>
    KeepsBooks.get.bind fun _ => (KeepsBooks.log _).bind fun _ => KeepsBooks.get.bind fun _ =>
      KeepsBooks.pure _

-- ---------------------------------------------------------------------------
-- What calls leave
-- ---------------------------------------------------------------------------

/-- What requests and manifests leave: the texts of the first replies are written to the paths, one
after the other. -/
structure Ledger (client : Client σ) (requests : List Request) (paths : List Path)
    (b b' : Books σ) : Prop where
  asked : b'.requests = b.requests ++ requests
  made : b'.manifests = b.manifests ++ paths.map Path.toString
  written : Manifest.writeAll b.fs
    (paths.zip ((client.replies b.client requests).map Reply.text)) = .ok b'.fs

variable {calls : List (Request × Path)}

theorem Call.replies_cons {p : Path} (h : Call client request p b b₁) (requests : List Request) :
    client.replies b.client (request :: requests) =
      (client request b.client).1 :: client.replies b₁.client requests := by
  rw [h.state]
  rfl

namespace Calls

theorem state (h : Calls client calls b b') :
    b'.client = client.after b.client (calls.map (·.1)) := by
  induction h with
  | nil => rfl
  | cons hcall _ ih => rw [ih, hcall.state]; rfl

theorem ledger (h : Calls client calls b b') :
    Ledger client (calls.map (·.1)) (calls.map (·.2)) b b' := by
  induction h with
  | nil => exact ⟨by simp, by simp, rfl⟩
  | cons hcall _ ih =>
    refine ⟨?_, ?_, ?_⟩
    · rw [ih.asked, hcall.requests]
      simp
    · rw [ih.made, hcall.manifests]
      simp
    · rw [List.map_cons, List.map_cons, hcall.replies_cons]
      exact bind_ok.mpr ⟨_, hcall.written, ih.written⟩

theorem counted (h : Calls client calls b b') :
    Counted calls.length ((client.replies b.client (calls.map (·.1))).flatMap Reply.usages)
      b.usage b'.usage := by
  induction h with
  | nil => exact .nil _
  | cons hcall _ ih =>
    rw [List.map_cons, hcall.replies_cons, List.length_cons, Nat.add_comm]
    have hreply := (Manifest.absorb_counted hcall.absorbed).1
    exact ((Counted.recordCall _).append hreply).append ih

theorem not_negative (h : Calls client calls b b') :
    ∀ reply ∈ client.replies b.client (calls.map (·.1)),
      ¬ ∃ call ∈ reply.readUsages, call.Negative := by
  induction h with
  | nil => exact List.forall_mem_nil _
  | @cons request _ _ b₀ _ _ hcall _ ih =>
    rw [List.map_cons, hcall.replies_cons]
    refine List.forall_mem_cons.mpr ⟨fun ⟨call, hm, hn⟩ => ?_, ih⟩
    have hread := (client request b₀.client).1.readUsages_subset hm
    exact (Manifest.absorb_counted hcall.absorbed).2 call hread hn

theorem replies_concat (h : Calls client calls b b₁) (request : Request) :
    client.replies b.client (calls.map (·.1) ++ [request]) =
      client.replies b.client (calls.map (·.1)) ++ [(client request b₁.client).1] := by
  rw [Client.replies_append, h.state]
  rfl

theorem ledger_dropped (h : Calls client calls b b₁) (hd : Dropped client request failure b₁ b') :
    Ledger client (calls.map (·.1) ++ [request]) (calls.map (·.2)) b b' := by
  have hlength : (calls.map (·.2)).length =
      ((client.replies b.client (calls.map (·.1))).map Reply.text).length := by
    simp [Client.length_replies]
  refine ⟨?_, hd.manifests.trans h.ledger.made, ?_⟩
  · rw [hd.requests, h.ledger.asked, List.append_assoc]
  · rw [h.replies_concat, List.map_append, ← List.append_nil (calls.map (·.2)),
      List.zip_append hlength, List.zip_nil_left, List.append_nil, hd.fs]
    exact h.ledger.written

/-- Only the reply to a call that fails can report a negative number, since the others have made
manifests. -/
theorem last_of_negative (h : Calls client calls b b₁) {k : Nat} {reply : Reply}
    (hk : (client.replies b.client (calls.map (·.1) ++ [request]))[k]? = some reply)
    (hn : ∃ call ∈ reply.readUsages, call.Negative) :
    k = calls.length ∧ reply = (client request b₁.client).1 := by
  have hlength : (client.replies b.client (calls.map (·.1))).length = calls.length := by
    simp [Client.length_replies]
  rw [h.replies_concat] at hk
  rcases Nat.lt_or_ge k calls.length with hlt | hge
  · rw [List.getElem?_append_left (hlength ▸ hlt)] at hk
    exact absurd hn (h.not_negative reply (List.mem_of_getElem? hk))
  · rw [List.getElem?_append_right (hlength ▸ hge), List.getElem?_singleton, hlength] at hk
    split at hk
    · exact ⟨by omega, (Option.some.inj hk).symm⟩
    · cases hk

end Calls

theorem Dropped.of_negative (h : Dropped client request failure b b')
    (hd : ∀ call ∈ (client request b.client).1.usages, call.PricedInDoubles)
    (hn : ∃ call ∈ (client request b.client).1.readUsages, call.Negative) :
    ∃ call ∈ (client request b.client).1.readUsages, call.Negative ∧
      failure = .negativeUsage call.inputTokens call.outputTokens call.charge := by
  obtain ⟨call, hm, hneg, habsorb⟩ := Manifest.absorb_negative b.usage.recordCall hd hn
  refine ⟨call, hm, hneg, ?_⟩
  rcases h.failed with hfailed | ⟨text, htext⟩
  · exact Except.error.inj (hfailed.symm.trans habsorb)
  · cases htext.symm.trans habsorb

-- ---------------------------------------------------------------------------
-- The whole run
-- ---------------------------------------------------------------------------

structure Totals (calls : Nat) (usages : List CallUsage) (usage : Usage) : Prop where
  inputTokens : usage.inputTokens = (usages.map (·.inputTokens)).sum
  outputTokens : usage.outputTokens = (usages.map (·.outputTokens)).sum
  cost : usage.cost = (usages.map (·.price)).foldl (· + ·) 0.0
  calls : usage.calls = calls

theorem Totals.of_counted {n : Nat} {usages : List CallUsage} {usage : Usage}
    (h : Counted n usages .zero usage) (hd : ∀ call ∈ usages, call.PricedInDoubles) :
    Totals n usages usage :=
  ⟨h.inputTokens.trans (Int.zero_add _), h.outputTokens.trans (Int.zero_add _),
    (h.cost hd Decimal.unsigned_zero).1, h.calls.trans (Nat.zero_add _)⟩

variable {plan : Plan} {text : String} {s s' : Session σ}

/-- A result gives the counters and manifests of its session, and the log ends with its calls. -/
theorem run_ok_books {outcome : Outcome} (h : (run plan client text).run s = (.ok outcome, s')) :
    outcome.usage = s'.usage ∧ outcome.manifests = s'.manifests ∧
      ∃ completed, s'.events.getLast? = some (.generationComplete completed) ∧
        completed.calls = s'.usage.calls := by
  obtain ⟨root, hlocate⟩ := locate_of_run_ok h
  obtain ⟨s₁, -, rfl, rfl⟩ := run_ok hlocate h
  exact ⟨rfl, rfl, _, List.getLast?_concat, rfl⟩

def PricesInDoubles (client : Client σ) : Prop :=
  ∀ request state, ∀ call ∈ (client request state).1.usages, call.PricedInDoubles

theorem PricesInDoubles.replies (hd : PricesInDoubles client) (state : σ)
    (requests : List Request) :
    ∀ call ∈ (client.replies state requests).flatMap Reply.usages, call.PricedInDoubles := by
  intro call hm
  obtain ⟨reply, hreply, hcall⟩ := List.mem_flatMap.mp hm
  obtain ⟨request, state, rfl⟩ := Client.exists_of_mem_replies hreply
  exact hd request state call hcall

/-- What a run with given requests and manifests has counted. -/
structure Metered (client : Client σ) (s s' : Session σ) (result : Except Failure Outcome)
    (requests : List Request) (paths : List Path) : Prop where
  ledger : Ledger client requests paths s.books s'.books
  totals : ∀ outcome, result = .ok outcome →
    Totals requests.length ((client.replies s.client requests).flatMap Reply.usages) outcome.usage
  manifests : ∀ outcome, result = .ok outcome →
    outcome.manifests = paths.map Path.toString ∧ paths.length = requests.length
  logged : ∀ outcome, result = .ok outcome →
    ∃ completed, s'.events.getLast? = some (.generationComplete completed) ∧
      completed.calls = requests.length
  /-- A negative number ends the run at its call, whose manifest is not written. -/
  refused : ∀ k reply, (client.replies s.client requests)[k]? = some reply →
    (∃ call ∈ reply.readUsages, call.Negative) →
    requests.length = k + 1 ∧ paths.length = k ∧ ∃ call ∈ reply.readUsages, call.Negative ∧
      result = .error (.negativeUsage call.inputTokens call.outputTokens call.charge)

/-- A run that gives a result has counted every report of every reply once, and each of its calls has
made a manifest. A report with a negative number that the reading of a reply comes to ends the run:
the call is the last one, and the manifests are those of the calls before it. -/
theorem run_usage (plan : Plan) (client : Client σ) (text : String) (s s' : Session σ)
    (result : Except Failure Outcome) (hd : PricesInDoubles client) (husage : s.usage = .zero)
    (hmanifests : s.manifests = []) (hrun : (run plan client text).run s = (result, s')) :
    ∃ requests paths, Metered client s s' result requests paths := by
  have hends := run_ends plan client text s
  rw [hrun] at hends
  cases hends with
  | @done outcome calls _ h =>
    obtain ⟨hsame, hmade, completed, hlast, hlogged⟩ := run_ok_books hrun
    have hcounted := h.counted
    rw [show s.books.usage = .zero from husage, ← List.length_map (·.1)] at hcounted
    have htotals := Totals.of_counted hcounted (hd.replies s.client _)
    have hpaths : s'.manifests = (calls.map (·.2)).map Path.toString :=
      h.ledger.made.trans (by rw [Session.books, hmanifests, List.nil_append])
    refine ⟨_, _, h.ledger, ?_, ?_, ?_,
      fun k reply hk hn => absurd hn (h.not_negative reply (List.mem_of_getElem? hk))⟩
    · rintro _ ⟨⟩
      exact hsame ▸ htotals
    · rintro _ ⟨⟩
      exact ⟨hmade.trans hpaths, by rw [List.length_map, List.length_map]⟩
    · rintro _ ⟨⟩
      exact ⟨completed, hlast, hlogged.trans htotals.calls⟩
  | between h =>
    exact ⟨_, _, h.ledger, fun _ ho => (nomatch ho), fun _ ho => (nomatch ho),
      fun _ ho => (nomatch ho),
      fun k reply hk hn => absurd hn (h.not_negative reply (List.mem_of_getElem? hk))⟩
  | @during failure calls request b₁ _ h hdrop =>
    refine ⟨_, _, h.ledger_dropped hdrop, fun _ ho => (nomatch ho), fun _ ho => (nomatch ho),
      fun _ ho => (nomatch ho), fun k reply hk hn => ?_⟩
    obtain ⟨rfl, rfl⟩ := h.last_of_negative hk hn
    obtain ⟨call, hm, hneg, rfl⟩ := hdrop.of_negative (hd request b₁.client) hn
    exact ⟨by simp, List.length_map .., call, hm, hneg, rfl⟩

/-- A client that reports its usage in two pieces of each answer, the second of them without a
price, and in its third call a negative number if `overdrawn` is set. -/
def meteredClient (overdrawn : Bool) : Client Nat :=
  .scripted fun n =>
    ⟨[.text "name: ", .usage ⟨3, 1, some (.real 0.1)⟩, .reasoning "a root",
      .usage ⟨if overdrawn && n = 2 then -1 else n, 2, none⟩, .text "w",
      .usage ⟨0, 0, some (.real (-0.0))⟩], [], none⟩

theorem run_usage_meteredClient :
    (∃ requests paths, Metered (meteredClient false) (Session.start smallTree 0)
        ((run smallPlan (meteredClient false) "/w").run (Session.start smallTree 0)).2
        ((run smallPlan (meteredClient false) "/w").run (Session.start smallTree 0)).1
        requests paths) ∧
      (∃ requests paths, Metered (meteredClient true) (Session.start smallTree 0)
        ((run smallPlan (meteredClient true) "/w").run (Session.start smallTree 0)).2
        ((run smallPlan (meteredClient true) "/w").run (Session.start smallTree 0)).1
        requests paths) ∧
      ((run smallPlan (meteredClient false) "/w").run (Session.start smallTree 0)).1.toOption.map
        (fun outcome => (outcome.usage.inputTokens, outcome.usage.calls)) = some (12, 3) ∧
      ((run smallPlan (meteredClient true) "/w").run (Session.start smallTree 0)).2.manifests =
        ["/w/m.yaml", "/w/a/m.yaml"] := by
  have hdoubles : ∀ overdrawn, PricesInDoubles (meteredClient overdrawn) := by
    intro overdrawn request n call hm
    simp only [meteredClient, Client.scripted, Reply.usages, Chunk.usage?, List.filterMap_cons,
      List.filterMap_nil, List.mem_cons, List.not_mem_nil, or_false] at hm
    rcases hm with rfl | rfl | rfl <;> simp [CallUsage.PricedInDoubles]
  refine ⟨run_usage _ _ _ _ _ _ (hdoubles false) rfl rfl Prod.mk.eta.symm,
    run_usage _ _ _ _ _ _ (hdoubles true) rfl rfl Prod.mk.eta.symm, ?_, ?_⟩
  · decide +kernel
  · decide +kernel

end Documentation

end TreeManifest
