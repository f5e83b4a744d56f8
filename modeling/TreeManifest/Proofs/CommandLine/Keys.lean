import TreeManifest.CommandLine.Program
import TreeManifest.Proofs.Documentation.Recast

/-!
# Where keys go

A key goes to its own provider and nowhere else: two runs whose settings differ in the keys alone
give the same result, write the same files, log the same events and make the same calls, except for
the key that a call carries (`document_keys`).
-/

namespace TreeManifest

-- ---------------------------------------------------------------------------
-- The provider of a model
-- ---------------------------------------------------------------------------

/-- A model of a provider: up to its first slash, if it has any, its name is the provider's name in
any case. -/
def OfProvider (provider model : String) : Prop :=
  ∃ head tail, model.toList = head ++ tail ∧ '/' ∉ head ∧ (tail = [] ∨ tail.head? = some '/') ∧
    head.map Char.toLower = provider.toList

/-- Of all characters outside ASCII only the Kelvin sign has its lower case in ASCII. -/
theorem Text.lowerChar_eq_iff {c d : Char} (hk : d ≠ 'k') (hkelvin : d.toNat ≠ 0x212A) :
    Text.lowerChar c = d ↔ c.toLower = d := by
  unfold Text.lowerChar
  by_cases hc : c.toNat = 0x212A
  · obtain rfl : c = Char.ofNat 0x212A := by rw [← hc, Char.ofNat_toNat]
    refine iff_of_false ?_ ?_
    · rw [if_pos hc]
      exact hk.symm
    · rintro rfl
      exact hkelvin (by decide)
  · rw [if_neg hc]

theorem map_eq_iff_map_eq {α β : Type} {f g : α → β} {xs : List α} {ys : List β}
    (h : ∀ y ∈ ys, ∀ x, f x = y ↔ g x = y) : xs.map f = ys ↔ xs.map g = ys := by
  induction xs generalizing ys with
  | nil => rfl
  | cons x xs ih =>
    cases ys with
    | nil => simp
    | cons y ys =>
      obtain ⟨hy, hys⟩ := List.forall_mem_cons.mp h
      rw [List.map_cons, List.map_cons, List.cons.injEq, List.cons.injEq, hy, ih hys]

theorem head?_dropWhile_ne {cs : List Char} {c : Char} :
    cs.dropWhile (· ≠ c) = [] ∨ (cs.dropWhile (· ≠ c)).head? = some c := by
  induction cs with
  | nil => exact .inl rfl
  | cons d cs ih =>
    by_cases hd : d = c
    · simp [hd]
    · simpa [hd] using ih

namespace Settings

theorem ofProvider_iff {settings : Settings} {provider : String}
    (hplain : (provider.toList.all fun c => c != 'k' && c.toNat != 0x212A) = true) :
    OfProvider provider settings.model ↔ settings.provider = provider := by
  have hplain : ∀ c ∈ provider.toList, c ≠ 'k' ∧ c.toNat ≠ 0x212A := by
    simpa [List.all_eq_true] using hplain
  have hlower : ∀ head : List Char,
      Text.lower (String.ofList head) = provider ↔ head.map Char.toLower = provider.toList := by
    intro head
    rw [Text.lower, String.toList_ofList, ← map_eq_iff_map_eq fun d hd c =>
      Text.lowerChar_eq_iff (hplain d hd).1 (hplain d hd).2]
    constructor
    · rintro rfl
      rw [String.toList_ofList]
    · intro h
      rw [h, String.ofList_toList]
  unfold Settings.provider
  rw [hlower]
  constructor
  · rintro ⟨head, tail, hmodel, hslash, htail, hhead⟩
    have hfront : ∀ c ∈ head, decide (c ≠ '/') = true := fun c hc =>
      decide_eq_true fun hcs => hslash (hcs ▸ hc)
    have hstop : tail.takeWhile (· ≠ '/') = [] := by
      rcases htail with rfl | htail
      · rfl
      · obtain ⟨rest, rfl⟩ := List.head?_eq_some_iff.mp htail
        rfl
    rw [hmodel, List.takeWhile_append_of_pos hfront, hstop, List.append_nil]
    exact hhead
  · intro h
    refine ⟨_, _, List.takeWhile_append_dropWhile.symm, fun hslash => ?_, head?_dropWhile_ne, h⟩
    simpa using List.all_eq_true.mp List.all_takeWhile _ hslash

theorem ofProvider_anthropic {settings : Settings} :
    OfProvider "anthropic" settings.model ↔ settings.provider = "anthropic" :=
  ofProvider_iff rfl

theorem ofProvider_openai {settings : Settings} :
    OfProvider "openai" settings.model ↔ settings.provider = "openai" :=
  ofProvider_iff rfl

def HoldsKey (settings : Settings) (key : String) : Prop :=
  key ≠ "" ∧
    (OfProvider "anthropic" settings.model ∧ key = settings.anthropicKey ∨
      OfProvider "openai" settings.model ∧ key = settings.openaiKey)

theorem apiKey?_eq_some {settings : Settings} {key : String} :
    settings.apiKey? = some key ↔ settings.HoldsKey key := by
  have hdistinct : ¬ ("openai" = "anthropic") := by decide
  rw [HoldsKey, ofProvider_anthropic, ofProvider_openai, apiKey?]
  by_cases ha : settings.provider = "anthropic"
  · simp only [ha, Ne.symm hdistinct, if_true, true_and, false_and, or_false]
    grind
  · by_cases ho : settings.provider = "openai"
    · simp only [ho, hdistinct, if_true, if_false, true_and, false_and, false_or]
      grind
    · simp [ha, ho]

end Settings

-- ---------------------------------------------------------------------------
-- Calls with another key
-- ---------------------------------------------------------------------------

namespace Provider

def Call.withKey (key : Option String) (call : Call) : Call :=
  { call with model := { call.model with apiKey := key } }

def Call.openArguments (call : Call) : List (String × Json) :=
  call.arguments.filter fun argument => argument.1 ≠ "api_key"

def SameButKeys (calls calls' : List Call) : Prop :=
  List.Forall₂ (fun call call' => call.openArguments = call'.openArguments) calls calls'

def CarryKey (settings : Settings) (calls : List Call) : Prop :=
  ∀ call ∈ calls, ∀ value,
    ("api_key", value) ∈ call.arguments ↔ ∃ key, settings.HoldsKey key ∧ value = .str key

theorem Call.openArguments_withKey (key : Option String) (call : Call) :
    (call.withKey key).openArguments = call.openArguments := by
  have hkey : ∀ key : Option String, ((key.map fun key => ("api_key", Json.str key)).toList.filter
      fun argument => decide (argument.1 ≠ "api_key")) = [] := by
    intro key
    cases key <;> rfl
  simp only [Call.openArguments, Call.arguments, Call.withKey, List.filter_append, hkey]

theorem Call.mem_arguments_key {call : Call} {value : Json} :
    ("api_key", value) ∈ call.arguments ↔ ∃ key, call.model.apiKey = some key ∧ value = .str key := by
  simp [Call.arguments, eq_comm]

theorem sameButKeys_withKey (key : Option String) (calls : List Call) :
    SameButKeys calls (calls.map (·.withKey key)) := by
  refine List.forall₂_map_right_iff.mpr (List.forall₂_same.mpr fun call _ => ?_)
  exact (call.openArguments_withKey key).symm

theorem client_recasts (behaviour : Behaviour) (model : Model) (key : Option String) :
    (client behaviour model).Recasts (List.map (·.withKey key))
      (client behaviour { model with apiKey := key }) := by
  intro request calls
  unfold client
  rw [List.length_map]
  rcases outcomeFrom behaviour.opening (maxAttempts - 1) calls.length with ⟨outcome, made⟩
  simp only [List.map_append, List.map_replicate, Call.withKey]

end Provider

-- ---------------------------------------------------------------------------
-- Runs with other keys
-- ---------------------------------------------------------------------------

namespace CommandLine

open Provider (SameButKeys CarryKey)

def Machine.runs (m : Machine) (plan : Documentation.Plan) (root : String) (settings : Settings) :
    Except Failure Documentation.Outcome × Session (List Provider.Call) :=
  (Documentation.run plan (Provider.client m.provider settings.toModel) root).run
    (Session.start m.fs [])

/-- What a run gives with other keys, except for the keys of its calls. -/
structure RunsAlike (x y : Except Failure Documentation.Outcome × Session (List Provider.Call)) :
    Prop where
  result : y.1 = x.1
  fs : y.2.fs = x.2.fs
  events : y.2.events = x.2.events
  requests : y.2.requests = x.2.requests
  manifests : y.2.manifests = x.2.manifests
  calls : SameButKeys x.2.client y.2.client

structure FinishesAlike (x y : Finish) : Prop where
  exit : y.exit = x.exit
  output : y.output = x.output
  errors : y.errors = x.errors
  events : y.events = x.events
  fs : y.fs = x.fs
  calls : SameButKeys x.calls y.calls

theorem runsAlike_withKey (key : Option String)
    (x : Except Failure Documentation.Outcome × Session (List Provider.Call)) :
    RunsAlike x (x.1, x.2.recast (List.map (·.withKey key))) :=
  ⟨rfl, rfl, rfl, rfl, rfl, Provider.sameButKeys_withKey key _⟩

theorem finishesAlike_withKey (key : Option String) (x : Finish) :
    FinishesAlike x { x with calls := x.calls.map (·.withKey key) } :=
  ⟨rfl, rfl, rfl, rfl, rfl, Provider.sameButKeys_withKey key _⟩

theorem runs_withKey (m : Machine) (plan : Documentation.Plan) (root : String) (settings : Settings)
    (anthropicKey openaiKey : String) :
    let settings' := { settings with anthropicKey, openaiKey }
    m.runs plan root settings' = ((m.runs plan root settings).1,
      (m.runs plan root settings).2.recast (List.map (·.withKey settings'.apiKey?))) :=
  Recasts.run (Provider.client_recasts m.provider settings.toModel _) root
    (Session.start m.fs [])

theorem runs_carryKey (m : Machine) (plan : Documentation.Plan) (root : String)
    (settings : Settings) : CarryKey settings (m.runs plan root settings).2.client := by
  intro call hcall value
  have hsame : (m.runs plan root settings).2.client =
      (m.runs plan root settings).2.client.map (·.withKey settings.apiKey?) :=
    congrArg (·.2.client) (runs_withKey m plan root settings settings.anthropicKey settings.openaiKey)
  rw [hsame] at hcall
  obtain ⟨call, -, rfl⟩ := List.mem_map.mp hcall
  simp only [Provider.Call.mem_arguments_key, Provider.Call.withKey, Settings.apiKey?_eq_some]

theorem document_withKey (m : Machine) (root : String) (settings : Settings)
    (anthropicKey openaiKey : String) (threshold : Nat) (early : List Event) :
    let settings' := { settings with anthropicKey, openaiKey }
    m.document root settings' threshold early = { m.document root settings threshold early with
      calls := (m.document root settings threshold early).calls.map (·.withKey settings'.apiKey?) } := by
  have hruns := runs_withKey m
    { manifestName := settings.manifestName
      maxListed := settings.maxListed
      extractor := .parsing m.grammars settings.maxDefinitions
      lister := .walking } root settings anthropicKey openaiKey
  unfold Machine.runs at hruns
  simp only [Machine.document, hruns]
  generalize (Documentation.run _ _ root).run (Session.start m.fs []) = x
  rcases x with ⟨failure | outcome, session⟩
  · rfl
  · rfl

structure KeysConfined (m : Machine) (plan : Documentation.Plan) (root : String)
    (settings settings' : Settings) : Prop where
  runs : RunsAlike (m.runs plan root settings) (m.runs plan root settings')
  finishes : ∀ threshold early, FinishesAlike (m.document root settings threshold early)
    (m.document root settings' threshold early)
  carried : CarryKey settings (m.runs plan root settings).2.client
  carried' : CarryKey settings' (m.runs plan root settings').2.client
  /-- The key of a provider matters to its own models alone. -/
  others : (OfProvider "anthropic" settings.model → settings'.anthropicKey = settings.anthropicKey) →
    (OfProvider "openai" settings.model → settings'.openaiKey = settings.openaiKey) →
    m.runs plan root settings' = m.runs plan root settings

/-- Settings that differ in the keys alone make runs that are alike but for the keys of their calls,
and each call carries the key of its own provider and no other. -/
theorem document_keys (m : Machine) (plan : Documentation.Plan) (root : String) (settings : Settings)
    (anthropicKey openaiKey : String) :
    KeysConfined m plan root settings { settings with anthropicKey, openaiKey } := by
  have hruns := runs_withKey m plan root settings anthropicKey openaiKey
  refine ⟨?_, fun threshold early => ?_, runs_carryKey m plan root settings,
    runs_carryKey m plan root _, fun hanthropic hopenai => ?_⟩
  · rw [hruns]
    exact runsAlike_withKey _ _
  · rw [document_withKey m root settings anthropicKey openaiKey threshold early]
    exact finishesAlike_withKey _ _
  · have hkey : { settings with anthropicKey, openaiKey }.apiKey? = settings.apiKey? := by
      refine Option.ext fun key => ?_
      rw [Settings.apiKey?_eq_some, Settings.apiKey?_eq_some, Settings.HoldsKey, Settings.HoldsKey]
      refine and_congr_right fun _ => or_congr (and_congr_right fun hmodel => ?_)
        (and_congr_right fun hmodel => ?_)
      · exact iff_of_eq (congrArg (key = ·) (hanthropic hmodel))
      · exact iff_of_eq (congrArg (key = ·) (hopenai hmodel))
    have hsame := runs_withKey m plan root settings settings.anthropicKey settings.openaiKey
    rw [hruns, hkey]
    exact hsame.symm

end CommandLine

end TreeManifest
