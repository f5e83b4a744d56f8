import TreeManifest.CommandLine.Program
import TreeManifest.Proofs.Documentation.Failures

/-!
# How the program ends

The generating command prints the summary of a run that gives a result, reports an error and ends
with code 1, or ends with a failure that nobody handles. The failures of the last kind are known
exactly (`Escapes`): the root, the environment file and the level of the log are looked at where no
failure is handled yet. No failure of the run itself is among them (`generating_ends`).
-/

namespace TreeManifest

namespace LogSetup

variable {name value : String} {failure : Failure}

theorem levelOf_eq_error : levelOf name = .error failure ↔
    (∀ level, (Text.upper name, level) ∉ levels) ∧
      ((Text.upper name, failure) ∈ otherNames ∨
        (∀ other, (Text.upper name, other) ∉ otherNames) ∧
          failure = .unknownLevel (Text.upper name)) := by
  have hlevels : (∀ level, (Text.upper name, level) ∉ levels) ↔
      levels.lookup (Text.upper name) = none := by
    rw [List.lookup_eq_none_iff]
    constructor
    · rintro h ⟨other, level⟩ hm
      exact bne_iff_ne.mpr fun he => h level (he ▸ hm)
    · intro h level hm
      exact bne_iff_ne.mp (h _ hm) rfl
  rw [hlevels]
  unfold levelOf
  simp only
  rcases levels.lookup (Text.upper name) with _ | level
  · by_cases hformat : Text.upper name = "BASIC_FORMAT"
    · simp [otherNames, hformat, @eq_comm _ failure]
    · by_cases hstyles : Text.upper name = "_STYLES"
      · simp [otherNames, List.lookup_cons, hstyles, @eq_comm _ failure]
      · simp [otherNames, List.lookup_cons, hformat, hstyles, beq_false_of_ne hformat,
          beq_false_of_ne hstyles, @eq_comm _ failure]
  · simp

end LogSetup

namespace FileSystem

variable {fs : FileSystem} {p : Path} {failure : Failure}

/-- A path that starts in the home directory of a user, who has no name if it is the one of the
program. -/
def StartsAtHome (p : Path) (user : List Char) : Prop :=
  p.anchor = .here ∧ ∃ first rest, p.parts = first :: rest ∧ first.toList = '~' :: user

/-- No home directory of a user is known, or one whose own path starts with a tilde. -/
def Homeless (fs : FileSystem) (user : List Char) : Prop :=
  ∀ home, fs.homeOf? (String.ofList user) = some home → home.toList.head? = some '~'

theorem StartsAtHome.expandHome {user : List Char} (h : StartsAtHome p user) :
    ∃ rest, fs.expandHome p =
      if user.any (·.toNat = 0) then .error .nullInPath
      else match fs.homeOf? (String.ofList user) with
        | none => .error .unknownHome
        | some home =>
          if home.toList.head? = some '~' then .error .unknownHome
          else .ok ⟨(homePath home).anchor, (homePath home).parts ++ rest⟩ := by
  obtain ⟨anchor, parts⟩ := p
  obtain ⟨rfl, first, rest, rfl, hfirst⟩ := h
  refine ⟨rest, ?_⟩
  rcases hhome : fs.homeOf? (String.ofList user) with _ | home <;>
    simp [FileSystem.expandHome, hfirst, hhome]

theorem expandHome_of_not_home (h : ∀ user, ¬ StartsAtHome p user) : fs.expandHome p = .ok p := by
  unfold expandHome
  split
  · rename_i first rest hanchor hparts
    split
    · rename_i user hfirst
      exact absurd ⟨hanchor, first, rest, hparts, hfirst⟩ (h user)
    · rfl
  · rfl

theorem StartsAtHome.unique {user other : List Char} (h : StartsAtHome p user)
    (h' : StartsAtHome p other) : user = other := by
  obtain ⟨-, first, rest, hparts, hfirst⟩ := h
  obtain ⟨-, first', rest', hparts', hfirst'⟩ := h'
  cases hparts.symm.trans hparts'
  exact (List.cons.inj (hfirst.symm.trans hfirst')).2

theorem expandHome_eq_error :
    fs.expandHome p = .error failure ↔ ∃ user, StartsAtHome p user ∧
      (user.any (·.toNat = 0) = true ∧ failure = .nullInPath ∨
        user.any (·.toNat = 0) = false ∧ fs.Homeless user ∧ failure = .unknownHome) := by
  by_cases hhome : ∃ user, StartsAtHome p user
  case neg =>
    rw [expandHome_of_not_home (not_exists.mp hhome)]
    exact ⟨fun h => (nomatch h), fun ⟨user, hstarts, _⟩ => absurd ⟨user, hstarts⟩ hhome⟩
  obtain ⟨user, hstarts⟩ := hhome
  obtain ⟨rest, hexpand⟩ := @StartsAtHome.expandHome fs p user hstarts
  have hiff : fs.expandHome p = .error failure ↔
      (user.any (·.toNat = 0) = true ∧ failure = .nullInPath ∨
        user.any (·.toNat = 0) = false ∧ fs.Homeless user ∧ failure = .unknownHome) := by
    rw [hexpand, Homeless]
    cases user.any (·.toNat = 0) with
    | true => simp [eq_comm]
    | false =>
      rcases fs.homeOf? (String.ofList user) with _ | home
      · simp [eq_comm]
      · by_cases hagain : home.toList.head? = some '~' <;> simp [hagain, @eq_comm _ failure]
  rw [hiff]
  exact ⟨fun h => ⟨user, hstarts, h⟩, fun ⟨other, hother, h⟩ => hstarts.unique hother ▸ h⟩

theorem locate_eq_error : fs.locate p = .error failure ↔
    fs.expandHome p = .error failure ∨
      ∃ q, fs.expandHome p = .ok q ∧
        ((hasNull q = true ∧ failure = .nullInPath) ∨
          hasNull q = false ∧ ∃ e location, fs.find q = .error e ∧
            fs.resolvePath q = .looped location ∧
            fs.status (Path.ofLocation location) = .error .tooManyLinks ∧
            failure = .linkLoop (Path.ofLocation location).toString) := by
  unfold locate
  rcases fs.expandHome p with other | q
  · simp [bind, Except.bind]
  · simp only [bind, Except.bind, reduceCtorEq, false_or, Except.ok.injEq, exists_eq_left']
    rcases hnull : hasNull q with _ | _
    · simp [resolve_eq_error hnull]
    · simp [resolve, hnull, eq_comm]

end FileSystem

namespace Settings

variable {fs : FileSystem} {environment : Mapping String String} {failure : Failure}

def envFile : Path := Path.ofString envFileName

theorem fileValues_eq_error : fileValues fs environment = .error failure ↔
    (∃ e, fs.Refused envFile e ∧ failure = .access e envFile.toString) ∨
      (∃ location octets, fs.find envFile = .ok (location, some (.file octets)) ∧
        location ∈ fs.unreadable ∧ failure = .access .denied envFile.toString) ∨
      ∃ octets malformed, fs.read envFile = .ok octets ∧
        Text.Utf8.decodeStrict octets = .error malformed ∧ failure = .malformedText malformed := by
  have hnull : FileSystem.hasNull envFile = false := by decide
  have henv : Path.ofString envFileName = envFile := rfl
  have hrefused : (∃ e, fs.Refused envFile e ∧ failure = .access e envFile.toString) ↔
      fs.isFile? envFile = .error failure :=
    (FileSystem.ask_status_eq_error.trans (and_iff_right hnull)).symm
  rw [hrefused]
  change (fs.isFile? envFile >>= _) = .error failure ↔ _
  by_cases hfile : fs.isFile? envFile = .ok true
  case neg =>
    have hnone {location : Location} {octets : List UInt8} :
        fs.find envFile ≠ .ok (location, some (.file octets)) := fun hfind =>
      hfile (FileSystem.isFile?_eq_true.mpr ⟨hnull, location, octets, hfind⟩)
    have hunread {octets : List UInt8} : fs.read envFile ≠ .ok octets := fun hread => by
      obtain ⟨location, hfind, -⟩ := FileSystem.read_eq_ok.mp hread
      exact hnone hfind
    rcases htest : fs.isFile? envFile with other | _ | _
    · simp [bind, Except.bind, hnone, hunread]
    · simp [bind, Except.bind, pure, Except.pure, hnone, hunread]
    · exact absurd htest hfile
  obtain ⟨-, location, octets, hfind⟩ := FileSystem.isFile?_eq_true.mp hfile
  by_cases hlocked : location ∈ fs.unreadable
  · have hread : fs.read envFile = .error .denied := by simp [FileSystem.read, hfind, hlocked]
    simp [bind, Except.bind, throw, throwThe, MonadExceptOf.throw, hfile, hread, hfind, hlocked,
      FileSystem.pathFailure, henv, @eq_comm _ failure]
  · have hread : fs.read envFile = .ok octets := by simp [FileSystem.read, hfind, hlocked]
    rcases hdecode : Text.Utf8.decodeStrict octets with malformed | cs <;>
      simp [bind, Except.bind, throw, throwThe, MonadExceptOf.throw, pure, Except.pure, hfile, hread,
        hfind, hlocked, hdecode, henv, @eq_comm _ failure]

end Settings

namespace CommandLine

variable {m : Machine} {g : Generation} {failure : Failure} {finish : Finish}

def Generation.rootPath (g : Generation) : Path := Path.ofString (g.root.getD "")

theorem Generation.ofString_root (g : Generation) :
    Path.ofString (g.root.getD "") = g.rootPath := rfl

def Generation.levelName (g : Generation) (settings : Settings) : String :=
  if g.verbose then "DEBUG" else settings.logLevel

theorem Generation.level_eq (g : Generation) (settings : Settings) :
    (if g.verbose then "DEBUG" else settings.logLevel) = g.levelName settings := rfl

/-- The root is a directory, so that the settings are read. -/
structure Machine.Begins (m : Machine) (g : Generation) (root : Location) : Prop where
  located : m.fs.locate g.rootPath = .ok root
  isDirectory : m.fs.isDirectory? (Path.ofLocation root) = .ok true

/-- The settings have been read, so that the level of the log is set. -/
structure Machine.Configures (m : Machine) (g : Generation) (root : Location)
    (settings : Settings) : Prop extends m.Begins g root where
  settings : (Settings.read m.fs m.environment (overrides g)).result = .ok settings

/-- Why the generating command ends with a failure that nobody handles. -/
inductive Escapes (m : Machine) (g : Generation) : Failure → Prop
  /-- The root starts in a home directory that is not known. -/
  | home {user : List Char} (starts : FileSystem.StartsAtHome g.rootPath user)
      (named : user.any (·.toNat = 0) = false) (h : m.fs.Homeless user) : Escapes m g .unknownHome
  | nullUser {user : List Char} (starts : FileSystem.StartsAtHome g.rootPath user)
      (h : user.any (·.toNat = 0) = true) : Escapes m g .nullInPath
  | null {p : Path} (expanded : m.fs.expandHome g.rootPath = .ok p)
      (h : FileSystem.hasNull p = true) : Escapes m g .nullInPath
  /-- The root leads into a loop of links. -/
  | loop {p : Path} {e : AccessError} {location : Location}
      (expanded : m.fs.expandHome g.rootPath = .ok p) (hnull : FileSystem.hasNull p = false)
      (h : m.fs.find p = .error e) (looped : m.fs.resolvePath p = .looped location)
      (many : m.fs.status (Path.ofLocation location) = .error .tooManyLinks) :
      Escapes m g (.linkLoop (Path.ofLocation location).toString)
  /-- The system refuses to look the root up. -/
  | refusedRoot {root : Location} {e : AccessError} (located : m.fs.locate g.rootPath = .ok root)
      (hnull : FileSystem.hasNull (Path.ofLocation root) = false)
      (h : m.fs.Refused (Path.ofLocation root) e) :
      Escapes m g (.access e (Path.ofLocation root).toString)
  | refusedEnvFile {root : Location} {e : AccessError} (begins : m.Begins g root)
      (h : m.fs.Refused Settings.envFile e) : Escapes m g (.access e Settings.envFile.toString)
  /-- The environment file cannot be opened. -/
  | lockedEnvFile {root location : Location} {octets : List UInt8} (begins : m.Begins g root)
      (h : m.fs.find Settings.envFile = .ok (location, some (.file octets)))
      (locked : location ∈ m.fs.unreadable) :
      Escapes m g (.access .denied Settings.envFile.toString)
  /-- The environment file is not in UTF-8. -/
  | malformedEnvFile {root : Location} {octets : List UInt8} {malformed : Text.Utf8.Malformed}
      (begins : m.Begins g root) (h : m.fs.read Settings.envFile = .ok octets)
      (bad : Text.Utf8.decodeStrict octets = .error malformed) :
      Escapes m g (.malformedText malformed)
  /-- The level of the log is no name that the logging library has. -/
  | unknownLevel {root : Location} {settings : Settings} (configures : m.Configures g root settings)
      (quiet : g.verbose = false)
      (hlevel : ∀ level, (Text.upper settings.logLevel, level) ∉ LogSetup.levels)
      (hother : ∀ failure, (Text.upper settings.logLevel, failure) ∉ LogSetup.otherNames) :
      Escapes m g (.unknownLevel (Text.upper settings.logLevel))
  /-- The level of the log is the name of something else. -/
  | unusableLevel {root : Location} {settings : Settings} {failure : Failure}
      (configures : m.Configures g root settings) (quiet : g.verbose = false)
      (hlevel : ∀ level, (Text.upper settings.logLevel, level) ∉ LogSetup.levels)
      (hother : (Text.upper settings.logLevel, failure) ∈ LogSetup.otherNames) :
      Escapes m g failure

/-- The end of a run that prints an error. -/
structure Reported (finish : Finish) : Prop where
  exit : finish.exit = .code 1
  errors : ∃ text, finish.errors = "Error: " ++ text ++ "\n"

-- ---------------------------------------------------------------------------
-- Before the run
-- ---------------------------------------------------------------------------

theorem generate_unlocated (h : m.fs.locate g.rootPath = .error failure) :
    (m.generate g).exit = .failed failure := by
  simp [Machine.generate, g.ofString_root, h, bind, Except.bind, Machine.finish]

theorem generate_untested {root : Location} (h : m.fs.locate g.rootPath = .ok root)
    (hd : m.fs.isDirectory? (Path.ofLocation root) = .error failure) :
    (m.generate g).exit = .failed failure := by
  simp [Machine.generate, g.ofString_root, h, hd, bind, Except.bind, Machine.finish]

theorem generate_unreadable {root : Location} (h : m.Begins g root)
    (hfile : Settings.fileValues m.fs m.environment = .error failure) :
    (m.generate g).exit = .failed failure := by
  simp [Machine.generate, g.ofString_root, h.located, h.isDirectory, bind, Except.bind, pure,
    Except.pure, Settings.read, hfile, Machine.finish]

theorem generate_unlevelled {root : Location} {settings : Settings}
    (h : m.Configures g root settings)
    (hl : LogSetup.levelOf (g.levelName settings) = .error failure) :
    (m.generate g).exit = .failed failure := by
  simp [Machine.generate, g.ofString_root, h.located, h.isDirectory, bind, Except.bind, pure,
    Except.pure, h.settings, g.level_eq, LogSetup.setLevel, hl, Machine.finish]

theorem Escapes.generate (h : Escapes m g failure) : (m.generate g).exit = .failed failure := by
  cases h with
  | home hstarts hnamed h =>
    exact generate_unlocated (FileSystem.locate_eq_error.mpr
      (.inl (FileSystem.expandHome_eq_error.mpr ⟨_, hstarts, .inr ⟨hnamed, h, rfl⟩⟩)))
  | nullUser hstarts h =>
    exact generate_unlocated (FileSystem.locate_eq_error.mpr
      (.inl (FileSystem.expandHome_eq_error.mpr ⟨_, hstarts, .inl ⟨h, rfl⟩⟩)))
  | null hexpand h =>
    exact generate_unlocated (FileSystem.locate_eq_error.mpr (.inr ⟨_, hexpand, .inl ⟨h, rfl⟩⟩))
  | loop hexpand hnull h hlooped hmany =>
    exact generate_unlocated (FileSystem.locate_eq_error.mpr
      (.inr ⟨_, hexpand, .inr ⟨hnull, _, _, h, hlooped, hmany, rfl⟩⟩))
  | refusedRoot hlocated hnull h =>
    exact generate_untested hlocated (FileSystem.ask_status_eq_error.mpr ⟨hnull, _, h, rfl⟩)
  | refusedEnvFile hbegins h =>
    exact generate_unreadable hbegins (Settings.fileValues_eq_error.mpr (.inl ⟨_, h, rfl⟩))
  | lockedEnvFile hbegins h hlocked =>
    exact generate_unreadable hbegins
      (Settings.fileValues_eq_error.mpr (.inr (.inl ⟨_, _, h, hlocked, rfl⟩)))
  | malformedEnvFile hbegins h hbad =>
    exact generate_unreadable hbegins
      (Settings.fileValues_eq_error.mpr (.inr (.inr ⟨_, _, h, hbad, rfl⟩)))
  | unknownLevel hconfigures hquiet hlevel hother =>
    refine generate_unlevelled hconfigures ?_
    rw [Generation.levelName, hquiet]
    exact LogSetup.levelOf_eq_error.mpr ⟨hlevel, .inr ⟨hother, rfl⟩⟩
  | unusableLevel hconfigures hquiet hlevel hother =>
    refine generate_unlevelled hconfigures ?_
    rw [Generation.levelName, hquiet]
    exact LogSetup.levelOf_eq_error.mpr ⟨hlevel, .inl hother⟩

end CommandLine

end TreeManifest
