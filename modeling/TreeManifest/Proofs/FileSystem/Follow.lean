import TreeManifest.Proofs.FileSystem.Tree

/-!
# Where paths lead in a tree

In a tree a path leads to an existing location that is no link, or to a name that is free in an
existing directory (`IsTree.find_ok`). An existing location is where its own text leads
(`IsTree.find_ofLocation`), and a path with a name below it leads below what the path leads to
(`find_child`, `find_child_ok`), unless the name is that of a link. All this holds as far as the
directories on the way may be searched; a path through another one is refused (`find_child_denied`).
-/

namespace TreeManifest

/-- A name that a directory can be asked for. -/
structure IsSought (name : String) : Prop where
  ne_empty : name ≠ ""
  ne_dot : name ≠ "."
  ne_up : name ≠ ".."
  size_le : name.utf8ByteSize ≤ FileSystem.maxNameSize

theorem IsName.isSought {name : String} (h : IsName name) : IsSought name :=
  ⟨h.isPart.ne_empty, h.isPart.ne_dot, h.ne_up, h.size_le⟩

namespace FileSystem

def Stop.location : Stop → Location
  | reached location _ => location
  | link directory _ _ => directory

variable {fs : FileSystem} {location : Location}

def Present (fs : FileSystem) (location : Location) : Prop :=
  ∃ entry, fs.entryAt? location = some entry ∧ ∀ target, entry ≠ .link target

theorem present_of_isDirectoryAt (h : fs.isDirectoryAt location = true) : fs.Present location :=
  ⟨.directory, isDirectoryAt_iff.mp h, fun _ => Entry.noConfusion⟩

def IsStep (part : String) : Prop := '/' ∉ part.toList

theorem isStep_of_mem_targetParts {target part : String} (h : part ∈ targetParts target) :
    IsStep part := by
  have hsplit : part ∈ ((Path.splitSlashes target.toList).map String.ofList).filter (· ≠ "") →
      IsStep part := by
    intro hm
    obtain ⟨piece, hpiece, rfl⟩ := List.mem_map.mp (List.mem_of_mem_filter hm)
    rw [IsStep, String.toList_ofList]
    exact Path.slash_not_mem_of_mem_splitSlashes hpiece
  simp only [targetParts] at h
  split at h
  · rcases List.mem_append.mp h with hm | hm
    · exact hsplit hm
    · rw [List.mem_singleton.mp hm, IsStep]
      decide
  · exact hsplit h

def Reachable (fs : FileSystem) (location : Location) : Prop :=
  ∀ front, front <+: location → front ≠ location → front ∉ fs.unsearchable

theorem reachable_top : fs.Reachable [] :=
  fun _ hfront hne => absurd (List.prefix_nil.mp hfront) hne

theorem Reachable.of_prefix {front : Location} (h : fs.Reachable location)
    (hfront : front <+: location) : fs.Reachable front := by
  intro other hother hne
  refine h other (hother.trans hfront) ?_
  rintro rfl
  exact hne (hother.eq_of_length (Nat.le_antisymm hother.length_le hfront.length_le))

theorem reachable_concat {name : String} :
    fs.Reachable (location ++ [name]) ↔ fs.Reachable location ∧ location ∉ fs.unsearchable := by
  constructor
  · intro h
    have hfront : location <+: location ++ [name] := List.prefix_append _ _
    exact ⟨h.of_prefix hfront, h location hfront (by simp)⟩
  · rintro ⟨h, hs⟩ front hfront hne
    rcases List.prefix_concat_iff.mp hfront with rfl | hfront
    · exact absurd rfl hne
    · by_cases heq : front = location
      · exact heq ▸ hs
      · exact h front hfront heq

-- ---------------------------------------------------------------------------
-- One part
-- ---------------------------------------------------------------------------

theorem scan_denied {part : String} (hd : fs.isDirectoryAt location = true)
    (hs : location ∈ fs.unsearchable) (hne : part ≠ "") (rest : List String) :
    fs.scan location (part :: rest) = .error .denied := by
  simp [scan, hd, hs, hne]

theorem scan_long {part : String} (hd : fs.isDirectoryAt location = true)
    (hs : location ∉ fs.unsearchable) (hdot : part ≠ ".") (hup : part ≠ "..")
    (hsize : maxNameSize < part.utf8ByteSize) (rest : List String) :
    fs.scan location (part :: rest) = .error .nameTooLong := by
  have hne : part ≠ "" := by
    rintro rfl
    exact absurd hsize (by decide)
  simp [scan, hd, hs, hne, hdot, hup, hsize]

theorem scan_sought {name : String} (hd : fs.isDirectoryAt location = true)
    (hs : location ∉ fs.unsearchable) (hname : IsSought name) (rest : List String) :
    fs.scan location (name :: rest) = match fs.entryAt? (location ++ [name]) with
      | some (.link target) => .ok (.link location target rest)
      | some _ => fs.scan (location ++ [name]) rest
      | none => if rest = [] then .ok (.reached (location ++ [name]) none)
        else .error .notFound := by
  rcases hentry : fs.entryAt? (location ++ [name]) with _ | _ | _ | target <;>
    simp [scan, hd, hs, hname.ne_empty, hname.ne_dot, hname.ne_up, Nat.not_lt.mpr hname.size_le,
      hentry]

-- ---------------------------------------------------------------------------
-- What a path ends at
-- ---------------------------------------------------------------------------

theorem scan_entry {parts : List String} {there : Location} {entry : Option Entry}
    (h : fs.scan location parts = .ok (.reached there entry)) : entry = fs.entryAt? there := by
  fun_induction scan fs location parts with
  | case1 location =>
    cases h
    rfl
  | case2 | case4 | case7 | case8 | case11 => cases h
  | case3 location rest hd ih => exact ih h
  | case5 location rest hd hs hne ih => exact ih h
  | case6 location rest hd hs hne hdot ih => exact ih h
  | case9 location part rest hd hne hs hdot hup hsize found hl he ih => exact ih h
  | case10 location part hd hne hs hdot hup hsize hnone =>
    cases h
    exact hnone.symm

theorem follow_entry {links : Nat} {parts : List String} {there : Location} {entry : Option Entry}
    (h : fs.follow links location parts = .ok (there, entry)) : entry = fs.entryAt? there := by
  fun_induction follow fs links location parts with
  | case1 | case3 => cases h
  | case2 links location parts other found hscan =>
    cases h
    exact scan_entry hscan
  | case4 location parts directory target rest hscan links ih => exact ih h

theorem find_entry {p : Path} {entry : Option Entry} (h : fs.find p = .ok (location, entry)) :
    entry = fs.entryAt? location :=
  follow_entry h

-- ---------------------------------------------------------------------------
-- One scan
-- ---------------------------------------------------------------------------

def Given (parts : List String) (part : String) : Prop := part ∈ parts ∨ IsStep part

/-- A name below an existing directory that may be searched. -/
def IsFree (fs : FileSystem) (parts : List String) (location : Location) : Prop :=
  ∃ directory name, location = directory ++ [name] ∧ fs.isDirectoryAt directory = true ∧
    directory ∉ fs.unsearchable ∧ Given parts name ∧ IsSought name

/-- Where a scan ends: at an existing location, at a free name, or before a link. -/
def StopsAt (fs : FileSystem) (parts : List String) : Stop → Prop
  | .reached location entry =>
    entry = fs.entryAt? location ∧
      (fs.Present location ∨ entry = none ∧ fs.IsFree parts location)
  | .link directory target rest =>
    fs.isDirectoryAt directory = true ∧
      (∃ name, fs.entryAt? (directory ++ [name]) = some (.link target)) ∧ rest ⊆ parts

theorem StopsAt.reached_mono {parts others : List String} {entry : Option Entry}
    (h : fs.StopsAt parts (.reached location entry))
    (hsub : ∀ part ∈ parts, Given others part) : fs.StopsAt others (.reached location entry) := by
  obtain ⟨he, hp | ⟨hn, directory, name, hl, hd, hs, hm, hname⟩⟩ := h
  · exact ⟨he, .inl hp⟩
  · exact ⟨he, .inr ⟨hn, directory, name, hl, hd, hs, hm.elim (hsub name) .inr, hname⟩⟩

theorem StopsAt.mono {parts others : List String} {stop : Stop} (h : fs.StopsAt parts stop)
    (hsub : parts ⊆ others) : fs.StopsAt others stop := by
  cases stop with
  | reached location entry => exact h.reached_mono fun _ hm => .inl (hsub hm)
  | link directory target rest =>
    obtain ⟨hd, hl, hr⟩ := h
    exact ⟨hd, hl, fun _ hm => hsub (hr hm)⟩

theorem IsTree.present_dropLast (hfs : fs.IsTree) (hd : ¬ (!fs.isDirectoryAt location) = true) :
    fs.Present location.dropLast :=
  present_of_isDirectoryAt (hfs.isDirectoryAt_dropLast (isDirectoryAt_iff.mp (by simpa using hd)))

theorem IsTree.scan_ok (hfs : fs.IsTree) {parts : List String} {stop : Stop}
    (hp : fs.Present location) (h : fs.scan location parts = .ok stop) : fs.StopsAt parts stop := by
  fun_induction scan fs location parts with
  | case1 location =>
    cases h
    exact ⟨rfl, .inl hp⟩
  | case2 | case4 | case7 | case11 => cases h
  | case3 location rest hd ih => exact (ih hp h).mono (List.subset_cons_self _ _)
  | case5 location rest hd hs hne ih => exact (ih hp h).mono (List.subset_cons_self _ _)
  | case6 location rest hd hs hne hdot ih =>
    exact (ih (hfs.present_dropLast hd) h).mono (List.subset_cons_self _ _)
  | case8 location part rest hd hne hs hdot hup hsize target hl =>
    cases h
    exact ⟨by simpa using hd, ⟨part, hl⟩, List.subset_cons_self _ _⟩
  | case9 location part rest hd hne hs hdot hup hsize entry hl he ih =>
    exact (ih ⟨entry, he, hl⟩ h).mono (List.subset_cons_self _ _)
  | case10 location part hd hne hs hdot hup hsize hnone =>
    cases h
    exact ⟨hnone.symm, .inr ⟨rfl, location, part, rfl, by simpa using hd, hs,
      .inl List.mem_cons_self, ⟨hne, hdot, hup, Nat.le_of_not_lt hsize⟩⟩⟩

/-- A scan of more parts goes on where the scan of the first ones stops. -/
theorem IsTree.scan_append (hfs : fs.IsTree) (parts more : List String) (hp : fs.Present location) :
    match fs.scan location parts with
    | .error e => fs.scan location (parts ++ more) = .error e
    | .ok (.reached other (some _)) => fs.scan location (parts ++ more) = fs.scan other more
    | .ok (.reached _ none) => more ≠ [] → fs.scan location (parts ++ more) = .error .notFound
    | .ok (.link directory target rest) =>
      fs.scan location (parts ++ more) = .ok (.link directory target (rest ++ more)) := by
  fun_induction scan fs location parts with
  | case1 location =>
    obtain ⟨entry, he, -⟩ := hp
    simp [he]
  | case2 location part rest hd => simp [scan, hd]
  | case3 location rest hd ih => simpa [scan, hd] using ih hp
  | case4 location part rest hd hne hs => simp [scan, hd, hne, hs]
  | case5 location rest hd hs hne ih => simpa [scan, hd, hs] using ih hp
  | case6 location rest hd hs hne hdot ih =>
    simpa [scan, hd, hs] using ih (hfs.present_dropLast hd)
  | case7 location part rest hd hne hs hdot hup hsize => simp [scan, hd, hne, hs, hdot, hup, hsize]
  | case8 location part rest hd hne hs hdot hup hsize target hl =>
    simp [scan, hd, hne, hs, hdot, hup, hsize, hl]
  | case9 location part rest hd hne hs hdot hup hsize entry hl he ih =>
    have hgo : fs.scan location (part :: rest ++ more) =
        fs.scan (location ++ [part]) (rest ++ more) := by
      rw [List.cons_append, scan_sought (by simpa using hd) hs
        ⟨hne, hdot, hup, Nat.le_of_not_lt hsize⟩, he]
      cases entry with
      | link target => exact absurd rfl (hl target)
      | file | directory => rfl
    rw [hgo]
    exact ih ⟨entry, he, hl⟩
  | case10 location part hd hne hs hdot hup hsize hnone =>
    intro hmore
    simp [scan, hd, hne, hs, hdot, hup, hsize, hnone, hmore]
  | case11 location part rest hd hne hs hdot hup hsize hnone hrest =>
    simp [scan, hd, hne, hs, hdot, hup, hsize, hnone, hrest]

theorem scan_name {name : String} (hd : fs.isDirectoryAt location = true)
    (hs : location ∉ fs.unsearchable) (hname : IsSought name)
    (hl : ∀ target, fs.entryAt? (location ++ [name]) ≠ some (.link target)) :
    fs.scan location [name] =
      .ok (.reached (location ++ [name]) (fs.entryAt? (location ++ [name]))) := by
  rw [scan_sought hd hs hname]
  rcases he : fs.entryAt? (location ++ [name]) with _ | _ | _ | target
  · rfl
  · exact congrArg (fun entry => Except.ok (Stop.reached _ entry)) he
  · exact congrArg (fun entry => Except.ok (Stop.reached _ entry)) he
  · exact absurd he (hl target)

theorem scan_reachable {parts : List String} {stop : Stop} (hr : fs.Reachable location)
    (h : fs.scan location parts = .ok stop) : fs.Reachable stop.location := by
  fun_induction scan fs location parts with
  | case1 location =>
    cases h
    exact hr
  | case2 | case4 | case7 | case11 => cases h
  | case3 location rest hd ih => exact ih hr h
  | case5 location rest hd hs hne ih => exact ih hr h
  | case6 location rest hd hs hne hdot ih => exact ih (hr.of_prefix (List.dropLast_prefix _)) h
  | case8 location part rest hd hne hs hdot hup hsize target hl =>
    cases h
    exact hr
  | case9 location part rest hd hne hs hdot hup hsize entry hl he ih =>
    exact ih (reachable_concat.mpr ⟨hr, hs⟩) h
  | case10 location part hd hne hs hdot hup hsize hnone =>
    cases h
    exact reachable_concat.mpr ⟨hr, hs⟩

-- ---------------------------------------------------------------------------
-- Through links
-- ---------------------------------------------------------------------------

theorem follow_of_scan_error {links : Nat} {parts : List String} {e : AccessError}
    (h : fs.scan location parts = .error e) : fs.follow links location parts = .error e := by
  unfold follow; rw [h]

theorem follow_of_scan_reached {links : Nat} {parts : List String} {other : Location}
    {entry : Option Entry} (h : fs.scan location parts = .ok (.reached other entry)) :
    fs.follow links location parts = .ok (other, entry) := by
  unfold follow; rw [h]

theorem follow_zero_of_scan_link {parts rest : List String} {directory : Location} {target : String}
    (h : fs.scan location parts = .ok (.link directory target rest)) :
    fs.follow 0 location parts = .error .tooManyLinks := by
  unfold follow; rw [h]

theorem follow_succ_of_scan_link {links : Nat} {parts rest : List String} {directory : Location}
    {target : String} (h : fs.scan location parts = .ok (.link directory target rest)) :
    fs.follow (links + 1) location parts =
      fs.follow links (targetBase directory target) (targetParts target ++ rest) := by
  rw [follow, h]

theorem isDirectoryAt_targetBase {directory : Location} {target : String}
    (h : fs.isDirectoryAt directory = true) :
    fs.isDirectoryAt (targetBase directory target) = true := by
  unfold targetBase
  split
  · exact isDirectoryAt_top
  · exact h

theorem IsTree.follow_ok (hfs : fs.IsTree) {links : Nat} {parts : List String} {other : Location}
    {entry : Option Entry} (hp : fs.Present location)
    (h : fs.follow links location parts = .ok (other, entry)) :
    fs.StopsAt parts (.reached other entry) := by
  fun_induction follow fs links location parts with
  | case1 | case3 => cases h
  | case2 links location parts there found hscan =>
    cases h
    exact hfs.scan_ok hp hscan
  | case4 location parts directory target rest hscan links ih =>
    obtain ⟨hd, -, hrest⟩ := hfs.scan_ok hp hscan
    refine (ih (present_of_isDirectoryAt (isDirectoryAt_targetBase hd)) h).reached_mono ?_
    intro part hm
    rcases List.mem_append.mp hm with hm | hm
    · exact .inr (isStep_of_mem_targetParts hm)
    · exact .inl (hrest hm)

/-- Following more parts goes on where following the first ones ends, with no more links left. -/
theorem IsTree.follow_append (hfs : fs.IsTree) (links : Nat) (parts more : List String)
    (hp : fs.Present location) :
    match fs.follow links location parts with
    | .error e => fs.follow links location (parts ++ more) = .error e
    | .ok (other, some _) =>
      ∃ left ≤ links, fs.follow links location (parts ++ more) = fs.follow left other more
    | .ok (_, none) => more ≠ [] → fs.follow links location (parts ++ more) = .error .notFound := by
  fun_induction follow fs links location parts with
  | case1 links location parts e hscan =>
    have happ := hfs.scan_append parts more hp
    rw [hscan] at happ
    exact follow_of_scan_error happ
  | case2 links location parts other entry hscan =>
    have happ := hfs.scan_append parts more hp
    rw [hscan] at happ
    cases entry with
    | none => exact fun hne => follow_of_scan_error (happ hne)
    | some entry => exact ⟨links, Nat.le_refl _, by rw [follow, follow, happ]⟩
  | case3 location parts directory target rest hscan =>
    have happ := hfs.scan_append parts more hp
    rw [hscan] at happ
    exact follow_zero_of_scan_link happ
  | case4 location parts directory target rest hscan links ih =>
    have happ := hfs.scan_append parts more hp
    have hbase : fs.isDirectoryAt (targetBase directory target) = true :=
      isDirectoryAt_targetBase (hfs.scan_ok hp hscan).1
    have hrec := ih (present_of_isDirectoryAt hbase)
    rw [hscan] at happ
    rw [follow_succ_of_scan_link happ, ← List.append_assoc]
    generalize fs.follow links (targetBase directory target) (targetParts target ++ rest) =
      result at hrec
    rcases result with e | ⟨other, _ | entry⟩
    · exact hrec
    · exact hrec
    · obtain ⟨left, hle, heq⟩ := hrec
      exact ⟨left, Nat.le_succ_of_le hle, heq⟩

-- ---------------------------------------------------------------------------
-- Paths
-- ---------------------------------------------------------------------------

theorem IsTree.isDirectoryAt_start (hfs : fs.IsTree) (p : Path) :
    fs.isDirectoryAt (fs.start p) = true := by
  unfold start
  split
  · exact hfs.working
  · exact isDirectoryAt_top

theorem IsTree.find_ok (hfs : fs.IsTree) {p : Path} {entry : Option Entry}
    (h : fs.find p = .ok (location, entry)) : fs.StopsAt p.parts (.reached location entry) :=
  hfs.follow_ok (present_of_isDirectoryAt (hfs.isDirectoryAt_start p)) h

theorem IsTree.entryAt?_of_find (hfs : fs.IsTree) {p : Path} {entry : Option Entry}
    (h : fs.find p = .ok (location, entry)) : fs.entryAt? location = entry :=
  (hfs.find_ok h).1.symm

theorem IsTree.isDirectoryAt_of_find (hfs : fs.IsTree) {p : Path}
    (h : fs.find p = .ok (location, some .directory)) : fs.isDirectoryAt location = true :=
  isDirectoryAt_iff.mpr (hfs.entryAt?_of_find h)

theorem IsTree.not_link_of_find (hfs : fs.IsTree) {p : Path} {entry : Option Entry}
    (h : fs.find p = .ok (location, entry)) (target : String) : entry ≠ some (.link target) := by
  obtain ⟨he, ⟨there, hthere, hl⟩ | ⟨hn, -⟩⟩ := hfs.find_ok h
  · rw [he, hthere]
    exact fun heq => hl target (Option.some.inj heq)
  · simp [hn]

theorem follow_reachable {links : Nat} {parts : List String} {there : Location}
    {entry : Option Entry} (hr : fs.Reachable location)
    (h : fs.follow links location parts = .ok (there, entry)) : fs.Reachable there := by
  fun_induction follow fs links location parts with
  | case1 | case3 => cases h
  | case2 links location parts other found hscan =>
    cases h
    exact scan_reachable hr hscan
  | case4 location parts directory target rest hscan links ih =>
    refine ih ?_ h
    unfold targetBase
    split
    · exact reachable_top
    · exact scan_reachable hr hscan

theorem find_reachable {p : Path} {entry : Option Entry} (hp : p.anchor ≠ .here)
    (h : fs.find p = .ok (location, entry)) : fs.Reachable location := by
  refine follow_reachable ?_ h
  rw [start, if_neg hp]
  exact reachable_top

theorem IsTree.scan_location (hfs : fs.IsTree) {front rest : List String}
    (hp : fs.Present (front ++ rest)) :
    fs.scan front rest = .ok (.reached (front ++ rest) (fs.entryAt? (front ++ rest))) ∨
      ¬ fs.Reachable (front ++ rest) ∧ fs.scan front rest = .error .denied := by
  induction rest generalizing front with
  | nil => simp [scan]
  | cons name rest ih =>
    obtain ⟨entry, he, hl⟩ := hp
    have hd := hfs.isDirectoryAt_of_front he (List.cons_ne_nil name rest)
    have hname := (hfs.isName he name (by simp)).isSought
    by_cases hs : front ∈ fs.unsearchable
    · refine .inr ⟨fun hr => ?_, scan_denied hd hs hname.ne_empty rest⟩
      exact hr front (List.prefix_append _ _) (by simp) hs
    rw [List.append_cons] at he ⊢
    have hnext : fs.Present (front ++ [name]) := by
      cases rest with
      | nil => exact ⟨entry, by simpa using he, hl⟩
      | cons next rest =>
        exact present_of_isDirectoryAt (hfs.isDirectoryAt_of_front he (List.cons_ne_nil next rest))
    have hgo : fs.scan front (name :: rest) = fs.scan (front ++ [name]) rest := by
      obtain ⟨there, hthere, hnone⟩ := hnext
      rw [scan_sought hd hs hname, hthere]
      cases there with
      | link target => exact absurd rfl (hnone target)
      | file | directory => rfl
    rw [hgo]
    exact ih ⟨entry, he, hl⟩

/-- The text of an existing location leads there, or is refused on the way. -/
theorem IsTree.find_ofLocation_cases (hfs : fs.IsTree) (hp : fs.Present location) :
    fs.find (Path.ofLocation location) = .ok (location, fs.entryAt? location) ∨
      ¬ fs.Reachable location ∧ fs.find (Path.ofLocation location) = .error .denied := by
  rcases @IsTree.scan_location fs hfs [] location hp with hscan | ⟨hr, hscan⟩
  · exact .inl (follow_of_scan_reached hscan)
  · exact .inr ⟨hr, follow_of_scan_error hscan⟩

theorem IsTree.eq_of_find_ofLocation (hfs : fs.IsTree) (hp : fs.Present location)
    {result : Location × Option Entry} (h : fs.find (Path.ofLocation location) = .ok result) :
    result = (location, fs.entryAt? location) := by
  rcases hfs.find_ofLocation_cases hp with hfind | ⟨-, hfind⟩ <;> rw [hfind] at h
  · exact (Except.ok.inj h).symm
  · cases h

theorem IsTree.find_ofLocation (hfs : fs.IsTree) (hp : fs.Present location)
    (hr : fs.Reachable location) :
    fs.find (Path.ofLocation location) = .ok (location, fs.entryAt? location) :=
  (hfs.find_ofLocation_cases hp).resolve_right fun h => h.1 hr

theorem IsTree.find_directory (hfs : fs.IsTree) (hd : fs.isDirectoryAt location = true)
    (hr : fs.Reachable location) :
    fs.find (Path.ofLocation location) = .ok (location, some .directory) := by
  rw [hfs.find_ofLocation (present_of_isDirectoryAt hd) hr, isDirectoryAt_iff.mp hd]

/-- Where a path from the top leads to a directory, so does the text of its location. -/
theorem IsTree.find_found (hfs : fs.IsTree) {p : Path} (hp : p.anchor ≠ .here)
    (h : fs.find p = .ok (location, some .directory)) :
    fs.find (Path.ofLocation location) = .ok (location, some .directory) :=
  hfs.find_directory (hfs.isDirectoryAt_of_find h) (find_reachable hp h)

theorem IsTree.find_child_eq_follow (hfs : fs.IsTree) {p : Path}
    (h : fs.find p = .ok (location, some .directory)) (name : String) :
    ∃ left, fs.find (p.child name) = fs.follow left location [name] := by
  have happ := hfs.follow_append maxLinks p.parts [name]
    (present_of_isDirectoryAt (hfs.isDirectoryAt_start p))
  rw [show fs.follow maxLinks (fs.start p) p.parts = fs.find p from rfl, h] at happ
  obtain ⟨left, -, heq⟩ := happ
  exact ⟨left, heq⟩

theorem IsTree.find_child (hfs : fs.IsTree) {p : Path} {name : String}
    (h : fs.find p = .ok (location, some .directory)) (hs : location ∉ fs.unsearchable)
    (hname : IsSought name)
    (hl : ∀ target, fs.entryAt? (location ++ [name]) ≠ some (.link target)) :
    fs.find (p.child name) = .ok (location ++ [name], fs.entryAt? (location ++ [name])) := by
  obtain ⟨left, heq⟩ := hfs.find_child_eq_follow h name
  rw [heq]
  exact follow_of_scan_reached (scan_name (hfs.isDirectoryAt_of_find h) hs hname hl)

theorem IsTree.find_child_long (hfs : fs.IsTree) {p : Path} {name : String}
    (h : fs.find p = .ok (location, some .directory)) (hs : location ∉ fs.unsearchable)
    (hdot : name ≠ ".") (hup : name ≠ "..") (hsize : maxNameSize < name.utf8ByteSize) :
    fs.find (p.child name) = .error .nameTooLong := by
  obtain ⟨left, heq⟩ := hfs.find_child_eq_follow h name
  rw [heq]
  exact follow_of_scan_error (scan_long (hfs.isDirectoryAt_of_find h) hs hdot hup hsize [])

theorem IsTree.find_child_denied (hfs : fs.IsTree) {p : Path} {name : String}
    (h : fs.find p = .ok (location, some .directory)) (hs : location ∈ fs.unsearchable)
    (hne : name ≠ "") : fs.find (p.child name) = .error .denied := by
  obtain ⟨left, heq⟩ := hfs.find_child_eq_follow h name
  rw [heq]
  exact follow_of_scan_error (scan_denied (hfs.isDirectoryAt_of_find h) hs hne [])

/-- A path that leads somewhere leads through its front, which is a directory. -/
theorem IsTree.find_append (hfs : fs.IsTree) {p : Path} {part : String} {rest : List String}
    {result : Location × Option Entry} (h : fs.find ⟨p.anchor, p.parts ++ part :: rest⟩ = .ok result) :
    ∃ directory, fs.find p = .ok (directory, some .directory) ∧
      ∃ left, fs.follow left directory (part :: rest) = .ok result := by
  have happ := hfs.follow_append maxLinks p.parts (part :: rest)
    (present_of_isDirectoryAt (hfs.isDirectoryAt_start p))
  rw [show fs.follow maxLinks (fs.start p) p.parts = fs.find p from rfl] at happ
  rw [show fs.find ⟨p.anchor, p.parts ++ part :: rest⟩ =
    fs.follow maxLinks (fs.start p) (p.parts ++ part :: rest) from rfl] at h
  cases hp : fs.find p with
  | error e => simp only [hp] at happ; rw [happ] at h; cases h
  | ok found =>
    obtain ⟨other, entry⟩ := found
    simp only [hp] at happ
    cases entry with
    | none => rw [happ (List.cons_ne_nil _ _)] at h; cases h
    | some entry =>
      obtain ⟨left, -, heq⟩ := happ
      rw [heq] at h
      -- The first of the further parts requires a directory before it.
      have hd : fs.isDirectoryAt other = true := by
        by_contra hnd
        rw [follow_of_scan_error (e := .notDirectory) (by simp [scan, hnd])] at h
        cases h
      have hentry := hfs.entryAt?_of_find hp
      rw [isDirectoryAt_iff.mp hd, Option.some.injEq] at hentry
      exact ⟨other, by rw [hentry], left, h⟩

/-- What a name is in the directory that a path leads to. -/
theorem named_child {p : Path} {name : String} {entry : Option Entry}
    (h : fs.find p = .ok (location, entry)) :
    fs.named (p.child name) = (fs.scan location [name]).bind Stop.entry := by
  simp only [named, Path.parent_child, Path.name_child, h]

theorem IsTree.named_eq (hfs : fs.IsTree) {p : Path} {name : String}
    (h : fs.find p = .ok (location, some .directory)) (hs : location ∉ fs.unsearchable)
    (hname : IsSought name) :
    fs.named (p.child name) = match fs.entryAt? (location ++ [name]) with
      | some entry => .ok entry
      | none => .error .notFound := by
  rw [named_child h, scan_sought (hfs.isDirectoryAt_of_find h) hs hname]
  rcases he : fs.entryAt? (location ++ [name]) with _ | _ | _ | target <;>
    simp only [scan, he, ↓reduceIte, Except.bind, Stop.entry]

theorem IsTree.named_denied (hfs : fs.IsTree) {p : Path} {name : String}
    (h : fs.find p = .ok (location, some .directory)) (hs : location ∈ fs.unsearchable)
    (hne : name ≠ "") : fs.named (p.child name) = .error .denied := by
  rw [named_child h, scan_denied (hfs.isDirectoryAt_of_find h) hs hne]
  rfl

theorem IsTree.isLink_child_iff (hfs : fs.IsTree) {p : Path} {name : String}
    (h : fs.find p = .ok (location, some .directory)) (hs : location ∉ fs.unsearchable)
    (hname : IsSought name) :
    fs.isLink (p.child name) = true ↔
      ∃ target, fs.entryAt? (location ++ [name]) = some (.link target) := by
  unfold isLink
  rw [hfs.named_eq h hs hname]
  rcases fs.entryAt? (location ++ [name]) with _ | _ | _ | target <;> simp [Entry.isLink]

/-- Only an entry of the directory is seen to be a link. -/
theorem IsTree.isLink_child (hfs : fs.IsTree) {p : Path} {name : String}
    (h : fs.find p = .ok (location, some .directory))
    (hl : ∀ target, fs.entryAt? (location ++ [name]) ≠ some (.link target)) :
    fs.isLink (p.child name) = false := by
  have hd := hfs.isDirectoryAt_of_find h
  have hup := isDirectoryAt_iff.mp (hfs.isDirectoryAt_dropLast (isDirectoryAt_iff.mp hd))
  unfold isLink
  rw [named_child h]
  simp only [scan, hd, Bool.not_true, Bool.false_eq_true, ↓reduceIte]
  split_ifs
  · simp [Except.bind, Stop.entry, Entry.isLink, isDirectoryAt_iff.mp hd]
  · rfl
  · simp [Except.bind, Stop.entry, Entry.isLink, isDirectoryAt_iff.mp hd]
  · simp [Except.bind, Stop.entry, Entry.isLink, hup]
  · rfl
  · rcases he : fs.entryAt? (location ++ [name]) with _ | _ | _ | target
    · rfl
    · simp [Except.bind, Stop.entry, Entry.isLink]
    · simp [Except.bind, Stop.entry, Entry.isLink]
    · exact absurd he (hl target)

theorem isLink_child_congr {p q : Path} {entry entry' : Option Entry} (name : String)
    (h : fs.find p = .ok (location, entry)) (h' : fs.find q = .ok (location, entry')) :
    fs.isLink (p.child name) = fs.isLink (q.child name) := by
  rw [isLink, isLink, named_child h, named_child h']

theorem IsTree.find_child_ok (hfs : fs.IsTree) {p : Path} {name : String}
    {result : Location × Option Entry} (hne : name ≠ "") (hdot : name ≠ ".") (hup : name ≠ "..")
    (hlink : fs.isLink (p.child name) = false) (h : fs.find (p.child name) = .ok result) :
    ∃ directory, fs.find p = .ok (directory, some .directory) ∧ directory ∉ fs.unsearchable ∧
      result = (directory ++ [name], fs.entryAt? (directory ++ [name])) ∧ IsSought name := by
  obtain ⟨directory, hp, left, hf⟩ := @IsTree.find_append fs hfs p name [] result h
  have hd := hfs.isDirectoryAt_of_find hp
  have hs : directory ∉ fs.unsearchable := by
    intro hs
    rw [follow_of_scan_error (scan_denied hd hs hne [])] at hf
    cases hf
  have hsize : name.utf8ByteSize ≤ maxNameSize := by
    by_contra hlong
    rw [follow_of_scan_error (scan_long hd hs hdot hup (Nat.lt_of_not_le hlong) [])] at hf
    cases hf
  have hname : IsSought name := ⟨hne, hdot, hup, hsize⟩
  have hl : ∀ target, fs.entryAt? (directory ++ [name]) ≠ some (.link target) := by
    intro target hentry
    rw [(hfs.isLink_child_iff hp hs hname).mpr ⟨target, hentry⟩] at hlink
    cases hlink
  rw [follow_of_scan_reached (scan_name hd hs hname hl)] at hf
  exact ⟨directory, hp, hs, (Except.ok.inj hf).symm, hname⟩

end FileSystem

end TreeManifest
