import TreeManifest.LogSetup

/-!
# What setting up the log settles

The program and the libraries beside it act on the log in any order, and an action may fail. Before
the first set-up nothing of the log is held (`Untouched`); the first set-up settles it for good
(`Settled`), whatever is done later. What it settles includes the levels of the suppressed loggers:
they are held at the warning level only if the level of the first set-up is known, since the set-up
is marked as done before it reads its level, so that no later one makes up for it.
-/

namespace TreeManifest.LogSetup

inductive Action where
  | setUp (level : String)
  | setLevel (level : String)
  | cleanUp
  | addHandler (logger : String)
  | propagate (logger : String) (propagates : Bool)
  deriving DecidableEq, Repr

def apply (s : LogSetup) : Action → Step
  | .setUp level => s.setUp level
  | .setLevel level => s.setLevel level
  | .cleanUp => (s.cleanUp, none)
  | .addHandler logger => (s.addHandler logger, none)
  | .propagate logger propagates => (s.setPropagation logger propagates, none)

/-- The state after a sequence of actions, which goes on after one that fails. -/
def after (s : LogSetup) (actions : List Action) : LogSetup :=
  actions.foldl (fun s action => (s.apply action).1) s

def loggerLevels (s : LogSetup) : List (String × Nat) := s.loggers.map fun l => (l.name, l.level)

def firstSetUp? (actions : List Action) : Option String :=
  actions.findSome? fun
    | .setUp level => some level
    | _ => none

/-- The level at which a first set-up leaves the suppressed loggers. -/
def heldLevel (level : String) : Nat :=
  match levelOf level with
  | .ok _ => warningLevel
  | .error _ => unsetLevel

structure Untouched (user : Option String) (s : LogSetup) : Prop where
  isSetUp : s.isSetUp = false
  providerLevel : s.providerLevel = user
  configurations : s.configurations = []
  levels : s.loggerLevels = suppressedLoggers.map (·, unsetLevel)

/-- From the first set-up on; `user` is the provider's level as the user has it. -/
structure Settled (user : Option String) (held : Nat) (s : LogSetup) : Prop where
  isSetUp : s.isSetUp = true
  providerLevel : s.providerLevel = some (user.getD "WARNING")
  configurations : s.configurations = [configuration]
  levels : s.loggerLevels = suppressedLoggers.map (·, held)

variable {s : LogSetup} {user : Option String} {held : Nat} {level : String}

-- ---------------------------------------------------------------------------
-- Changes to the loggers
-- ---------------------------------------------------------------------------

theorem loggerLevels_changeLoggers (s : LogSetup) (names : List String) {change : Logger → Logger}
    (hchange : ∀ l, (change l).name = l.name ∧ (change l).level = l.level) :
    (s.changeLoggers names change).loggerLevels = s.loggerLevels := by
  simp only [loggerLevels, changeLoggers, List.map_map]
  refine List.map_congr_left fun l _ => ?_
  by_cases hmem : names.contains l.name = true <;>
    simp only [Function.comp_apply, hmem, Bool.false_eq_true, ↓reduceIte, hchange l]

theorem loggerLevels_hold {names : List String} (old : Nat)
    (h : s.loggerLevels = names.map (·, old)) (new : Nat) :
    (s.changeLoggers names fun l => { l with level := new }).loggerLevels =
      names.map (·, new) := by
  have hnames : s.loggers.map (·.name) = names := by
    simpa [loggerLevels, Function.comp_def] using congrArg (List.map Prod.fst) h
  have hlisted : ∀ l ∈ s.loggers, names.contains l.name = true := by
    intro l hl
    simp only [← hnames, List.contains_iff_mem]
    exact List.mem_map_of_mem hl
  calc (s.changeLoggers names fun l => { l with level := new }).loggerLevels
      = s.loggers.map fun l => (l.name, new) := by
        simp only [loggerLevels, changeLoggers, List.map_map]
        refine List.map_congr_left fun l hl => ?_
        simp only [Function.comp_apply, hlisted l hl, ↓reduceIte]
    _ = names.map (·, new) := by simp [← hnames]

-- ---------------------------------------------------------------------------
-- One action
-- ---------------------------------------------------------------------------

theorem setUp_of_isSetUp (h : s.isSetUp = true) (level : String) : s.setUp level = (s, none) := by
  simp [setUp, h]

theorem setUp_returns (h : s.isSetUp = false) (level : String) :
    (s.setUp level).2 = none ↔ ∃ value, levelOf level = .ok value := by
  unfold setUp setLevel
  rcases levelOf level with failure | value <;> simp [h]

theorem Untouched.setUp (h : Untouched user s) (level : String) :
    Settled user (heldLevel level) (s.setUp level).1 := by
  have hlevels := h.levels
  unfold LogSetup.setUp LogSetup.setLevel heldLevel
  rcases levelOf level with failure | value
  · constructor <;> simp_all [h.isSetUp, h.providerLevel, h.configurations, loggerLevels]
  · simp only [h.isSetUp, Bool.false_eq_true, ↓reduceIte]
    constructor
    · rfl
    · simp [changeLoggers, h.providerLevel]
    · simp [changeLoggers, h.configurations]
    · exact loggerLevels_hold unsetLevel h.levels warningLevel

theorem apply_frame (s : LogSetup) {action : Action} (h : ∀ level, action ≠ .setUp level) :
    (s.apply action).1.isSetUp = s.isSetUp ∧
      (s.apply action).1.providerLevel = s.providerLevel ∧
      (s.apply action).1.configurations = s.configurations ∧
      (s.apply action).1.loggerLevels = s.loggerLevels := by
  cases action with
  | setUp level => exact absurd rfl (h level)
  | setLevel level =>
    simp only [apply, setLevel]
    rcases levelOf level with failure | value <;> exact ⟨rfl, rfl, rfl, rfl⟩
  | cleanUp =>
    simp only [apply, cleanUp]
    by_cases hcleaned : s.isCleaned = true
    · simp [hcleaned]
    · simp only [hcleaned, Bool.false_eq_true, ↓reduceIte]
      exact ⟨rfl, rfl, rfl, loggerLevels_changeLoggers _ _ fun _ => ⟨rfl, rfl⟩⟩
  | addHandler logger =>
    exact ⟨rfl, rfl, rfl, loggerLevels_changeLoggers _ _ fun _ => ⟨rfl, rfl⟩⟩
  | propagate logger propagates =>
    exact ⟨rfl, rfl, rfl, loggerLevels_changeLoggers _ _ fun _ => ⟨rfl, rfl⟩⟩

theorem Untouched.apply (h : Untouched user s) {action : Action}
    (haction : ∀ level, action ≠ .setUp level) : Untouched user (s.apply action).1 := by
  obtain ⟨hset, hprovider, hconfigurations, hlevels⟩ := apply_frame s haction
  exact ⟨hset.trans h.isSetUp, hprovider.trans h.providerLevel,
    hconfigurations.trans h.configurations, hlevels.trans h.levels⟩

/-- No action unsettles the log: a set-up does nothing any more, the others leave it alone. -/
theorem Settled.apply (h : Settled user held s) (action : Action) :
    Settled user held (s.apply action).1 := by
  by_cases haction : ∃ level, action = .setUp level
  · obtain ⟨level, rfl⟩ := haction
    simpa [LogSetup.apply, setUp_of_isSetUp h.isSetUp] using h
  · obtain ⟨hset, hprovider, hconfigurations, hlevels⟩ :=
      apply_frame s fun level hlevel => haction ⟨level, hlevel⟩
    exact ⟨hset.trans h.isSetUp, hprovider.trans h.providerLevel,
      hconfigurations.trans h.configurations, hlevels.trans h.levels⟩

theorem Settled.forall_level_iff (h : Settled user held s) (level : Nat) :
    (∀ l ∈ s.loggers, l.level = level) ↔ held = level := by
  have hlevels : s.loggers.map (·.level) = suppressedLoggers.map fun _ => held := by
    simpa [loggerLevels, Function.comp_def] using congrArg (List.map Prod.snd) h.levels
  have hmapped : (∀ l ∈ s.loggers, l.level = level) ↔
      ∀ other ∈ s.loggers.map (·.level), other = level := by simp
  rw [hmapped, hlevels]
  simp [suppressedLoggers, providerLoggers]

-- ---------------------------------------------------------------------------
-- A sequence of actions
-- ---------------------------------------------------------------------------

theorem untouched_initial (user : Option String) : Untouched user (initial user) :=
  ⟨rfl, rfl, rfl, rfl⟩

theorem Settled.after (h : Settled user held s) (actions : List Action) :
    Settled user held (s.after actions) := by
  induction actions generalizing s with
  | nil => exact h
  | cons action rest ih => exact ih (h.apply action)

/-- Where a sequence leads that starts before the first set-up. -/
theorem Untouched.after (h : Untouched user s) (actions : List Action) :
    match firstSetUp? actions with
    | some level => Settled user (heldLevel level) (s.after actions)
    | none => Untouched user (s.after actions) := by
  induction actions generalizing s with
  | nil => exact h
  | cons action rest ih =>
    cases action with
    -- The first set-up settles the log; the rest of the sequence keeps that.
    | setUp level => exact (h.setUp level).after rest
    | setLevel level => exact ih (h.apply fun _ hne => nomatch hne)
    | cleanUp => exact ih (h.apply fun _ hne => nomatch hne)
    | addHandler logger => exact ih (h.apply fun _ hne => nomatch hne)
    | propagate logger propagates => exact ih (h.apply fun _ hne => nomatch hne)

theorem firstSetUp?_append (before : List Action) (level : String) (later : List Action) :
    firstSetUp? (before ++ .setUp level :: later) = some ((firstSetUp? before).getD level) := by
  induction before with
  | nil => rfl
  | cons action rest ih => cases action <;> first | rfl | exact ih

/-- From a set-up on, whether it returns or fails, the provider's level is set, to the user's if
there is one, and the root logger is configured once, for every sequence of actions before and after
it. The suppressed loggers are held at the warning level exactly if the level of the first set-up of
the sequence is known; a set-up returns exactly if it is not the first or its level is known. -/
theorem setUp_settles (user : Option String) (before : List Action) (level : String)
    (later : List Action) :
    Settled user (heldLevel ((firstSetUp? before).getD level))
        ((initial user).after (before ++ .setUp level :: later)) ∧
      (((∀ l ∈ ((initial user).after (before ++ .setUp level :: later)).loggers,
          l.level = warningLevel) ↔
        ∃ value, levelOf ((firstSetUp? before).getD level) = .ok value)) ∧
      ((((initial user).after before).setUp level).2 = none ↔
        (firstSetUp? before).isSome = true ∨ ∃ value, levelOf level = .ok value) := by
  have hsettled : Settled user (heldLevel ((firstSetUp? before).getD level))
      ((initial user).after (before ++ .setUp level :: later)) := by
    simpa only [firstSetUp?_append] using
      (untouched_initial user).after (before ++ .setUp level :: later)
  refine ⟨hsettled, ?_, ?_⟩
  · rw [hsettled.forall_level_iff, heldLevel]
    rcases levelOf ((firstSetUp? before).getD level) with failure | value <;>
      simp [warningLevel, unsetLevel]
  · have hbefore := (untouched_initial user).after before
    rcases hfirst : firstSetUp? before with _ | first
    · simp only [hfirst] at hbefore
      simpa using setUp_returns hbefore.isSetUp level
    · simp only [hfirst] at hbefore
      simp [setUp_of_isSetUp hbefore.isSetUp]

example : let s := (initial none).after [.setUp "bogus", .setUp "INFO"]
    s.isSetUp = true ∧ ∀ l ∈ s.loggers, l.level = unsetLevel := by decide

end TreeManifest.LogSetup
