import TreeManifest.Failure
import TreeManifest.Proofs.FileSystem.Follow

/-!
# What does not depend on files

Two file systems have the same frame if they differ only in their files: in what files hold and in
which of the free names are files. Following a path then takes the same way in both
(`SameFrame.find_view`). So the directories that paths lead to, their resolved locations and the
links are the same (`isDirectory?_eq`, `resolve_eq`, `isLink_eq`).
-/

namespace TreeManifest

/-- What an entry is for a walk along paths: a file ends it as a free name does. -/
def Entry.frame : Option Entry → Option Entry
  | some (.file _) => none
  | entry => entry

/-- An error on the way for a walk along paths: what is missing is no directory. -/
def AccessError.frame : AccessError → AccessError
  | .notFound => .notDirectory
  | e => e

namespace FileSystem

/-- The directories and the links are the same. -/
structure SameFrame (fs fs' : FileSystem) : Prop where
  working : fs.working = fs'.working
  home : fs.home = fs'.home
  homes : fs.homes = fs'.homes
  unreadable : fs.unreadable = fs'.unreadable
  unsearchable : fs.unsearchable = fs'.unsearchable
  unwritable : fs.unwritable = fs'.unwritable
  entry : ∀ location, Entry.frame (fs.entryAt? location) = Entry.frame (fs'.entryAt? location)

variable {fs fs' fs'' : FileSystem} {location : Location}

theorem SameFrame.refl (fs : FileSystem) : fs.SameFrame fs :=
  ⟨rfl, rfl, rfl, rfl, rfl, rfl, fun _ => rfl⟩

theorem SameFrame.symm (h : fs.SameFrame fs') : fs'.SameFrame fs :=
  ⟨h.working.symm, h.home.symm, h.homes.symm, h.unreadable.symm, h.unsearchable.symm,
    h.unwritable.symm, fun l => (h.entry l).symm⟩

theorem SameFrame.trans (h : fs.SameFrame fs') (h' : fs'.SameFrame fs'') : fs.SameFrame fs'' :=
  ⟨h.working.trans h'.working, h.home.trans h'.home, h.homes.trans h'.homes,
    h.unreadable.trans h'.unreadable, h.unsearchable.trans h'.unsearchable,
    h.unwritable.trans h'.unwritable, fun l => (h.entry l).trans (h'.entry l)⟩

theorem frame_eq_directory {entry : Option Entry} :
    Entry.frame entry = some .directory ↔ entry = some .directory := by
  cases entry with
  | none => simp [Entry.frame]
  | some e => cases e <;> simp [Entry.frame]

theorem frame_eq_link {entry : Option Entry} {target : String} :
    Entry.frame entry = some (.link target) ↔ entry = some (.link target) := by
  cases entry with
  | none => simp [Entry.frame]
  | some e => cases e <;> simp [Entry.frame]

theorem SameFrame.isDirectoryAt_eq (h : fs.SameFrame fs') :
    fs.isDirectoryAt location = fs'.isDirectoryAt location := by
  rw [Bool.eq_iff_iff, isDirectoryAt_iff, isDirectoryAt_iff, ← frame_eq_directory, h.entry,
    frame_eq_directory]

theorem SameFrame.link_iff (h : fs.SameFrame fs') {target : String} :
    fs.entryAt? location = some (.link target) ↔ fs'.entryAt? location = some (.link target) := by
  rw [← frame_eq_link, h.entry, frame_eq_link]

-- ---------------------------------------------------------------------------
-- Following paths
-- ---------------------------------------------------------------------------

def scanView : Except AccessError Stop → Except AccessError Stop
  | .ok (.reached location entry) => .ok (.reached location (Entry.frame entry))
  | .ok (.link directory target rest) => .ok (.link directory target rest)
  | .error e => .error e.frame

/-- The result of following a path, with files and free names alike. -/
def view : Except AccessError (Location × Option Entry) → Except AccessError (Location × Option Entry)
  | .ok (location, entry) => .ok (location, Entry.frame entry)
  | .error e => .error e.frame

theorem scan_file {octets : List UInt8} {parts : List String}
    (h : fs.entryAt? location = some (.file octets)) :
    scanView (fs.scan location parts) =
      if parts = [] then .ok (.reached location none) else .error .notDirectory := by
  cases parts with
  | nil => simp [scan, h, scanView, Entry.frame]
  | cons part rest =>
    simp [scan, isDirectoryAt, h, scanView, AccessError.frame]

/-- Of an entry that a scan meets, only the frame is seen. -/
theorem scanView_sought {part : String} (hd : fs.isDirectoryAt location = true)
    (hs : location ∉ fs.unsearchable) (hname : IsSought part) (rest : List String) :
    scanView (fs.scan location (part :: rest)) =
      match Entry.frame (fs.entryAt? (location ++ [part])) with
      | some (.link target) => .ok (.link location target rest)
      | some _ => scanView (fs.scan (location ++ [part]) rest)
      | none => if rest = [] then .ok (.reached (location ++ [part]) none)
        else .error .notDirectory := by
  rw [scan_sought hd hs hname]
  rcases he : fs.entryAt? (location ++ [part]) with _ | octets | _ | target
  · simp only [Entry.frame]
    split <;> rfl
  · exact scan_file he
  · rfl
  · rfl

theorem SameFrame.scan_view (h : fs.SameFrame fs') (parts : List String) :
    scanView (fs.scan location parts) = scanView (fs'.scan location parts) := by
  induction parts generalizing location with
  | nil =>
    simp [scan, scanView, h.entry location]
  | cons part rest ih =>
    by_cases hname : fs.isDirectoryAt location = true ∧ location ∉ fs.unsearchable ∧ IsSought part
    · obtain ⟨hd, hs, hname⟩ := hname
      rw [scanView_sought hd hs hname,
        scanView_sought (h.isDirectoryAt_eq ▸ hd) (h.unsearchable ▸ hs) hname, h.entry, ih]
    · simp only [scan, ← h.isDirectoryAt_eq, ← h.unsearchable]
      split
      · rfl
      split
      · exact ih
      split
      · rfl
      split
      · exact ih
      split
      · exact ih
      split
      · rfl
      next hd hne hs hdot hup hsize =>
        exact absurd ⟨by simpa using hd, hs, hne, hdot, hup, Nat.le_of_not_lt hsize⟩ hname

theorem SameFrame.scan_error (h : fs.SameFrame fs') {parts : List String} {e : AccessError}
    (hscan : fs.scan location parts = .error e) :
    ∃ e', fs'.scan location parts = .error e' ∧ e.frame = e'.frame := by
  have hview := @SameFrame.scan_view fs fs' location h parts
  rw [hscan] at hview
  rcases hscan' : fs'.scan location parts with e' | _ | _ <;> simp [hscan', scanView] at hview
  exact ⟨e', rfl, hview⟩

theorem SameFrame.scan_reached (h : fs.SameFrame fs') {parts : List String} {there : Location}
    {entry : Option Entry} (hscan : fs.scan location parts = .ok (.reached there entry)) :
    ∃ entry', fs'.scan location parts = .ok (.reached there entry') ∧
      Entry.frame entry = Entry.frame entry' := by
  have hview := @SameFrame.scan_view fs fs' location h parts
  rw [hscan] at hview
  rcases hscan' : fs'.scan location parts with _ | ⟨_, entry'⟩ | _ <;>
    simp [hscan', scanView] at hview
  exact ⟨entry', by rw [hview.1], hview.2⟩

theorem SameFrame.scan_link (h : fs.SameFrame fs') {parts rest : List String}
    {directory : Location} {target : String}
    (hscan : fs.scan location parts = .ok (.link directory target rest)) :
    fs'.scan location parts = .ok (.link directory target rest) := by
  have hview := @SameFrame.scan_view fs fs' location h parts
  rw [hscan] at hview
  rcases hscan' : fs'.scan location parts with _ | _ | _ <;> simp [hscan', scanView] at hview
  rw [hview.1, hview.2.1, hview.2.2]

theorem SameFrame.follow_view (h : fs.SameFrame fs') (links : Nat) (parts : List String) :
    view (fs.follow links location parts) = view (fs'.follow links location parts) := by
  fun_induction follow fs links location parts with
  | case1 links location parts e hscan =>
    obtain ⟨e', hscan', hframe⟩ := h.scan_error hscan
    rw [follow_of_scan_error hscan', view, view, hframe]
  | case2 links location parts there entry hscan =>
    obtain ⟨entry', hscan', hframe⟩ := h.scan_reached hscan
    rw [follow_of_scan_reached hscan', view, view, hframe]
  | case3 location parts directory target rest hscan =>
    rw [follow_zero_of_scan_link (h.scan_link hscan)]
  | case4 location parts directory target rest hscan links ih =>
    rw [ih, follow_succ_of_scan_link (h.scan_link hscan)]

theorem SameFrame.find_view (h : fs.SameFrame fs') (p : Path) :
    view (fs.find p) = view (fs'.find p) := by
  have hstart : fs.start p = fs'.start p := by rw [start, start, h.working]
  rw [find, find, hstart]
  exact h.follow_view maxLinks p.parts

theorem SameFrame.find_ok (h : fs.SameFrame fs') {p : Path} {entry : Option Entry}
    (hf : fs.find p = .ok (location, entry)) :
    ∃ entry', fs'.find p = .ok (location, entry') ∧ Entry.frame entry = Entry.frame entry' := by
  have hview := h.find_view p
  rw [hf] at hview
  rcases hf' : fs'.find p with e | ⟨l, entry'⟩ <;> rw [hf'] at hview
  · simp [view] at hview
  · simp only [view, Except.ok.injEq, Prod.mk.injEq] at hview
    exact ⟨entry', by rw [hview.1], hview.2⟩

theorem SameFrame.find_error (h : fs.SameFrame fs') {p : Path} {e : AccessError}
    (hf : fs.find p = .error e) : ∃ e', fs'.find p = .error e' ∧ e.frame = e'.frame := by
  have hview := h.find_view p
  rw [hf] at hview
  rcases hf' : fs'.find p with e' | ⟨l, entry'⟩ <;> rw [hf'] at hview
  · exact ⟨e', rfl, by simpa [view] using hview⟩
  · simp [view] at hview

theorem SameFrame.find_directory (h : fs.SameFrame fs') {p : Path}
    (hf : fs.find p = .ok (location, some .directory)) :
    fs'.find p = .ok (location, some .directory) := by
  obtain ⟨entry', hf', hframe⟩ := h.find_ok hf
  rw [hf', frame_eq_directory.mp (hframe.symm.trans rfl)]

-- ---------------------------------------------------------------------------
-- Tests
-- ---------------------------------------------------------------------------

theorem answer_eq_true {holds : Entry → Bool} {there : Except AccessError Entry} :
    answer holds there = .ok true ↔ ∃ entry, there = .ok entry ∧ holds entry = true := by
  rcases there with e | entry
  · cases e <;> simp [answer, AccessError.isRefusal]
  · simp [answer]

theorem ask_ok (p : Path) (holds : Entry → Bool) (entry : Entry) :
    ask p holds (.ok entry) = .ok (!hasNull p && holds entry) := by
  unfold ask answer
  cases hasNull p <;> rfl

theorem ask_eq_true {p : Path} {holds : Entry → Bool} {there : Except AccessError Entry} :
    ask p holds there = .ok true ↔
      hasNull p = false ∧ ∃ entry, there = .ok entry ∧ holds entry = true := by
  rw [← answer_eq_true]
  unfold ask
  cases hasNull p <;> rcases answer holds there with e | holds <;> simp [Except.mapError]

/-- A test fails on what leaves open whether anything is there. -/
theorem ask_eq_error {p : Path} {holds : Entry → Bool} {there : Except AccessError Entry}
    {failure : Failure} :
    ask p holds there = .error failure ↔
      hasNull p = false ∧ ∃ e, e.isRefusal = true ∧ there = .error e ∧ failure = pathFailure p e := by
  unfold ask answer
  cases hasNull p with
  | true => simp
  | false =>
    rcases there with e | entry
    · constructor
      · intro h
        by_cases he : e.isRefusal = true
        · simp only [he, Bool.false_eq_true, ↓reduceIte, Except.mapError, Except.error.injEq] at h
          exact ⟨rfl, e, he, rfl, h.symm⟩
        · simp [he, Except.mapError] at h
      · rintro ⟨-, other, he, ⟨⟩, rfl⟩
        simp [he, Except.mapError]
    · simp [Except.mapError]

/-- Of an error on the way, a test shows no more than the frame. -/
theorem ask_frame {e e' : AccessError} (h : e.frame = e'.frame) (p : Path) (holds : Entry → Bool) :
    ask p holds (.error e) = ask p holds (.error e') := by
  cases e <;> cases e' <;> first | rfl | cases h

theorem status_of_find {p : Path} {entry : Entry} (h : fs.find p = .ok (location, some entry)) :
    fs.status p = .ok entry := by
  simp [status, h]

theorem status_of_find_none {p : Path} (h : fs.find p = .ok (location, none)) :
    fs.status p = .error .notFound := by
  simp [status, h]

theorem status_of_find_error {p : Path} {e : AccessError} (h : fs.find p = .error e) :
    fs.status p = .error e := by
  simp [status, h]

theorem status_eq_ok {p : Path} {entry : Entry} :
    fs.status p = .ok entry ↔ ∃ location, fs.find p = .ok (location, some entry) := by
  rcases hf : fs.find p with e | ⟨location, _ | other⟩ <;> simp [status, hf]

/-- The error by which a path leads nowhere is one of the frame, unless it is that nothing is
there. -/
theorem SameFrame.status_error (h : fs.SameFrame fs') {p : Path} {e : AccessError}
    (hs : fs.status p = .error e) (he : e.isRefusal = true ∨ e = .tooManyLinks) :
    fs'.status p = .error e := by
  have hfind : fs.find p = .error e := by
    rcases hf : fs.find p with e' | ⟨location, _ | entry⟩
    · rw [status_of_find_error hf] at hs
      cases hs
      rfl
    · rw [status_of_find_none hf] at hs
      cases hs
      simp [AccessError.isRefusal] at he
    · rw [status_of_find hf] at hs
      cases hs
  obtain ⟨e', hf', hframe⟩ := h.find_error hfind
  rw [status_of_find_error hf']
  cases e <;> cases e' <;> first | rfl | exact absurd he (by decide) | cases hframe

theorem read_eq_ok {p : Path} {octets : List UInt8} :
    fs.read p = .ok octets ↔ ∃ location,
      fs.find p = .ok (location, some (.file octets)) ∧ location ∉ fs.unreadable := by
  unfold read
  rcases fs.find p with e | ⟨location, _ | _ | _ | _⟩
  · simp
  · simp
  · simp only [Except.ok.injEq, Prod.mk.injEq, Option.some.injEq, Entry.file.injEq]
    split <;> simp_all
  · simp
  · simp

/-- What a path leads to cannot be told. -/
structure Refused (fs : FileSystem) (p : Path) (e : AccessError) : Prop where
  isRefusal : e.isRefusal = true
  find : fs.find p = .error e

theorem ask_status_eq_error {p : Path} {holds : Entry → Bool} {failure : Failure} :
    ask p holds (fs.status p) = .error failure ↔
      hasNull p = false ∧ ∃ e, fs.Refused p e ∧ failure = pathFailure p e := by
  rw [ask_eq_error]
  refine and_congr_right fun _ => exists_congr fun e => ?_
  constructor
  · rintro ⟨he, hs, hfailure⟩
    rcases hf : fs.find p with other | ⟨location, _ | entry⟩
    · rw [status_of_find_error hf] at hs
      exact ⟨⟨he, Except.error.inj hs ▸ hf⟩, hfailure⟩
    · rw [status_of_find_none hf] at hs
      cases hs
      cases he
    · rw [status_of_find hf] at hs
      cases hs
  · rintro ⟨⟨he, hf⟩, hfailure⟩
    exact ⟨he, status_of_find_error hf, hfailure⟩

theorem isDirectory?_eq_true {p : Path} :
    fs.isDirectory? p = .ok true ↔
      hasNull p = false ∧ ∃ location, fs.find p = .ok (location, some .directory) := by
  simp [isDirectory?, ask_eq_true, status_eq_ok]

theorem isFile?_eq_true {p : Path} :
    fs.isFile? p = .ok true ↔
      hasNull p = false ∧ ∃ location octets, fs.find p = .ok (location, some (.file octets)) := by
  rw [isFile?, ask_eq_true]
  refine and_congr_right fun _ => ?_
  constructor
  · rintro ⟨_ | _ | _, hs, hfile⟩
    · obtain ⟨location, hf⟩ := status_eq_ok.mp hs
      exact ⟨location, _, hf⟩
    · cases hfile
    · cases hfile
  · rintro ⟨location, octets, hf⟩
    exact ⟨_, status_of_find hf, rfl⟩

theorem isLink?_eq_true {p : Path} :
    fs.isLink? p = .ok true ↔ hasNull p = false ∧ fs.isLink p = true := by
  rw [isLink?, ask_eq_true, isLink]
  rcases fs.named p with e | entry <;> simp

theorem SameFrame.isDirectory?_eq (h : fs.SameFrame fs') (p : Path) :
    fs.isDirectory? p = fs'.isDirectory? p := by
  unfold isDirectory?
  rcases hf : fs.find p with e | ⟨location, entry⟩
  · obtain ⟨e', hf', hframe⟩ := h.find_error hf
    rw [status_of_find_error hf, status_of_find_error hf']
    exact ask_frame hframe p _
  · obtain ⟨entry', hf', hframe⟩ := h.find_ok hf
    rw [status, status, hf, hf']
    rcases entry with _ | ⟨_ | _ | _⟩ <;> rcases entry' with _ | ⟨_ | _ | _⟩ <;>
      first | rfl | cases hframe

theorem SameFrame.isFile?_error (h : fs.SameFrame fs') {p : Path} {failure : Failure}
    (hf : fs.isFile? p = .error failure) : fs'.isFile? p = .error failure := by
  obtain ⟨hnull, e, he, hs, rfl⟩ := ask_eq_error.mp hf
  exact ask_eq_error.mpr ⟨hnull, e, he, h.status_error hs (.inl he), rfl⟩

/-- What is said of a link is the same; all else that is named is none. -/
theorem SameFrame.ask_isLink (h : fs.SameFrame fs') (p q : Path) :
    ask q Entry.isLink (fs.named p) = ask q Entry.isLink (fs'.named p) := by
  unfold named
  rcases hf : fs.find p.parent with e | ⟨location, entry⟩
  · obtain ⟨e', hf', hframe⟩ := h.find_error hf
    rw [hf']
    exact ask_frame hframe q _
  obtain ⟨entry', hf', -⟩ := h.find_ok hf
  rw [hf']
  simp only
  rcases hscan : fs.scan location [p.name] with e | ⟨there, entry⟩ | ⟨directory, target, rest⟩
  · obtain ⟨e', hscan', hframe⟩ := h.scan_error hscan
    rw [hscan']
    exact ask_frame hframe q _
  · obtain ⟨entry', hscan', hframe⟩ := h.scan_reached hscan
    rw [hscan']
    rcases entry with _ | ⟨_ | _ | _⟩ <;> rcases entry' with _ | ⟨_ | _ | _⟩ <;>
      first | rfl | cases hframe
  · rw [h.scan_link hscan]

theorem SameFrame.isLink?_eq (h : fs.SameFrame fs') (p : Path) : fs.isLink? p = fs'.isLink? p :=
  h.ask_isLink p p

theorem isLink_iff_ask {p : Path} :
    fs.isLink p = true ↔ ask ⟨.here, []⟩ Entry.isLink (fs.named p) = .ok true := by
  rw [ask_eq_true, isLink]
  rcases fs.named p with e | entry <;> simp [hasNull]

theorem SameFrame.isLink_eq (h : fs.SameFrame fs') (p : Path) : fs.isLink p = fs'.isLink p := by
  rw [Bool.eq_iff_iff, isLink_iff_ask, isLink_iff_ask, h.ask_isLink]

-- ---------------------------------------------------------------------------
-- Resolved locations
-- ---------------------------------------------------------------------------

def linkCost : Location × Entry → Nat
  | (_, .link target) => (targetParts target).length + 2
  | _ => 0

theorem foldr_linkCost (entries : Mapping Location Entry) :
    (entries.map linkCost).foldr (· + ·) 0 =
      ((entries.filter fun binding => binding.2.isLink).map linkCost).foldr (· + ·) 0 := by
  induction entries with
  | nil => rfl
  | cons binding rest ih =>
    obtain ⟨location, entry⟩ := binding
    cases entry <;> simp [Entry.isLink, linkCost, ih]

theorem SameFrame.links_perm (h : fs.SameFrame fs') (hfs : fs.IsTree) (hfs' : fs'.IsTree) :
    (fs.entries.filter fun binding => binding.2.isLink).Perm
      (fs'.entries.filter fun binding => binding.2.isLink) := by
  have hnodup : ∀ {fs : FileSystem}, fs.IsTree → fs.entries.Nodup := fun hfs =>
    List.Nodup.of_map _ hfs.nodup
  have hmem : ∀ {fs fs' : FileSystem}, fs.SameFrame fs' → fs.IsTree → ∀ binding : Location × Entry,
      binding.2.isLink = true → binding ∈ fs.entries → binding ∈ fs'.entries := by
    rintro fs fs' h hfs ⟨location, entry⟩ hl hm
    cases entry with
    | link target =>
      have hne := (hfs.below location (List.mem_map.mpr ⟨_, hm, rfl⟩)).1
      have hentry := h.link_iff.mp (hfs.entryAt?_of_mem hm)
      rw [entryAt?, if_neg hne] at hentry
      exact Mapping.mem_of_get? hentry
    | file octets => simp [Entry.isLink] at hl
    | directory => simp [Entry.isLink] at hl
  rw [List.perm_ext_iff_of_nodup ((hnodup hfs).filter _) ((hnodup hfs').filter _)]
  intro binding
  simp only [List.mem_filter]
  constructor
  · rintro ⟨hm, hl⟩
    exact ⟨hmem h hfs binding hl hm, hl⟩
  · rintro ⟨hm, hl⟩
    exact ⟨hmem h.symm hfs' binding hl hm, hl⟩

theorem resolveFuel_eq_linkCost (parts : List String) :
    fs.resolveFuel parts =
      parts.length + 1 + (fs.working.length + 2) * (fs.entries.map linkCost).foldr (· + ·) 0 := by
  unfold resolveFuel
  congr 4

theorem SameFrame.resolveFuel_eq (h : fs.SameFrame fs') (hfs : fs.IsTree) (hfs' : fs'.IsTree)
    (parts : List String) : fs.resolveFuel parts = fs'.resolveFuel parts := by
  have hsum : (fs.entries.map linkCost).foldr (· + ·) 0 =
      (fs'.entries.map linkCost).foldr (· + ·) 0 := by
    rw [foldr_linkCost fs.entries, foldr_linkCost fs'.entries]
    exact ((h.links_perm hfs hfs').map linkCost).sum_nat
  rw [resolveFuel_eq_linkCost, resolveFuel_eq_linkCost, hsum, h.working]

theorem SameFrame.place_eq (h : fs.SameFrame fs') (p : Path) : fs.place p = fs'.place p := by
  rw [place, place, start, start, h.working]

theorem SameFrame.start_eq (h : fs.SameFrame fs') (p : Path) : fs.start p = fs'.start p := by
  rw [start, start, h.working]

theorem SameFrame.linkAt?_eq (h : fs.SameFrame fs') (p : Path) : fs.linkAt? p = fs'.linkAt? p := by
  unfold linkAt?
  rw [← h.start_eq]
  rcases hscan : fs.scan (fs.start p) p.parts with e | ⟨there, entry⟩ | ⟨directory, target, rest⟩
  · obtain ⟨e', hscan', -⟩ := h.scan_error hscan
    rw [hscan']
  · obtain ⟨entry', hscan', -⟩ := h.scan_reached hscan
    rw [hscan']
  · rw [h.scan_link hscan]

theorem SameFrame.resolveTasks_eq (h : fs.SameFrame fs') (fuel : Nat)
    (opened : Mapping Path (Option Path)) (p : Path) (tasks : List Task) :
    fs.resolveTasks fuel opened p tasks = fs'.resolveTasks fuel opened p tasks := by
  induction fuel generalizing opened p tasks with
  | zero => rw [resolveTasks, resolveTasks, h.place_eq]
  | succ fuel ih =>
    cases tasks with
    | nil => rw [resolveTasks, resolveTasks, h.place_eq]
    | cons task tasks =>
      cases task with
      | close link => rw [resolveTasks, resolveTasks, ih]
      | part name =>
        simp only [resolveTasks, ih, ← h.place_eq, ← h.linkAt?_eq]

theorem SameFrame.resolve_eq (h : fs.SameFrame fs') (hfs : fs.IsTree) (hfs' : fs'.IsTree)
    (p : Path) : fs.resolve p = fs'.resolve p := by
  have hpath : fs.resolvePath p = fs'.resolvePath p := by
    rw [resolvePath, resolvePath, h.resolveFuel_eq hfs hfs', h.resolveTasks_eq]
  have hmissing : fs.resolveMissing p = fs'.resolveMissing p := by
    rw [resolveMissing, resolveMissing, hpath]
    cases fs'.resolvePath p with
    | resolved location => rfl
    | looped location =>
      simp only
      split
      · rename_i hs
        rw [h.status_error hs (.inr rfl)]
      · rename_i hs
        split
        · rename_i hs'
          exact absurd (h.symm.status_error hs' (.inr rfl)) hs
        · rfl
  rw [resolve, resolve, hmissing]
  split
  · rfl
  · cases hf : fs.find p with
    | error e =>
      obtain ⟨e', hf', -⟩ := h.find_error hf
      rw [hf']
    | ok found =>
      obtain ⟨location, entry⟩ := found
      obtain ⟨entry', hf', -⟩ := h.find_ok hf
      rw [hf']

theorem SameFrame.locate_eq (h : fs.SameFrame fs') (hfs : fs.IsTree) (hfs' : fs'.IsTree)
    (p : Path) : fs.locate p = fs'.locate p := by
  have hexpand : fs.expandHome p = fs'.expandHome p := by
    simp only [expandHome, homeOf?, h.home, h.homes]
  rw [locate, locate, hexpand]
  cases fs'.expandHome p with
  | error e => rfl
  | ok q => exact h.resolve_eq hfs hfs' q

end FileSystem

end TreeManifest
