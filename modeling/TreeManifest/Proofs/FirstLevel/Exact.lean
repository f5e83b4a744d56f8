import TreeManifest.Proofs.FileSystem.Acyclic
import TreeManifest.Proofs.FirstLevel

/-!
# Each real directory once

Where links have no loops, the selection of first-level directories gives a result for every list of
entries that the system can look up, and says exactly what it is (`select_exact`): of the children
of the root that are not hidden, the first one that leads to each location other than the root's.
-/

namespace TreeManifest.FirstLevel

variable {fs : FileSystem} {root : Path} {location : Location}

/-- Of the candidates among paths, the one at a position is the first that leads where it leads. -/
def FirstAt (fs : FileSystem) (root : Path) (paths : List Path) (position : Nat) (p : Path) :
    Prop :=
  paths[position]? = some p ∧ ∀ earlier < position, ∀ other, paths[earlier]? = some other →
    isCandidate root other = true → fs.resolve other ≠ fs.resolve p

def InOrder (fs : FileSystem) (root : Path) (paths directories : List Path) : Prop :=
  ∃ positions : List Nat, positions.Pairwise (· < ·) ∧
    List.Forall₂ (FirstAt fs root paths) positions directories

structure Exact (fs : FileSystem) (root : Path) (location : Location) (entries : List String)
    (directories : List Path) : Prop where
  inOrder : InOrder fs root (entries.map Path.ofString) directories
  child : ∀ directory ∈ directories,
    ∃ name, directory = root.child name ∧ Path.isHiddenName name = false
  distinct : (directories.map fs.resolve).Nodup
  resolve : ∀ directory ∈ directories, ∃ other, fs.resolve directory = .ok other ∧ other ≠ location
  /-- Every entry that is a child, is not hidden and leads elsewhere has one that stands for it. -/
  complete : ∀ entry ∈ entries, ∀ name, Path.ofString entry = root.child name →
    Path.isHiddenName name = false → fs.resolve (Path.ofString entry) ≠ .ok location →
    ∃! directory, directory ∈ directories ∧
      fs.resolve directory = fs.resolve (Path.ofString entry)

-- ---------------------------------------------------------------------------
-- Candidates
-- ---------------------------------------------------------------------------

theorem isCandidate_child {name : String} :
    isCandidate root (root.child name) = !Path.isHiddenName name := by
  simp [isCandidate]

/-- A candidate is a child of the root, or the root itself at the top. -/
theorem eq_child_of_isCandidate {p : Path} (h : isCandidate root p = true) (hne : p ≠ root) :
    ∃ name, p = root.child name ∧ Path.isHiddenName name = false := by
  obtain ⟨anchor, parts⟩ := p
  simp only [isCandidate, Bool.and_eq_true, decide_eq_true_eq, Bool.not_eq_true'] at h
  obtain ⟨rfl, hhidden⟩ := h
  rcases List.eq_nil_or_concat parts with rfl | ⟨front, name, rfl⟩
  · exact absurd rfl hne
  · exact ⟨name, by simp [Path.child, Path.parent], by simpa [Path.name] using hhidden⟩

-- ---------------------------------------------------------------------------
-- Order
-- ---------------------------------------------------------------------------

variable {seen : List Location} {paths directories : List Path}

theorem firstAt_zero (p : Path) (paths : List Path) : FirstAt fs root (p :: paths) 0 p :=
  ⟨rfl, fun _ hlt => absurd hlt (Nat.not_lt_zero _)⟩

theorem FirstAt.succ {position : Nat} {p directory : Path}
    (h : FirstAt fs root paths position directory)
    (hp : isCandidate root p = true → fs.resolve p ≠ fs.resolve directory) :
    FirstAt fs root (p :: paths) (position + 1) directory := by
  refine ⟨h.1, fun earlier hlt other hother hc => ?_⟩
  cases earlier with
  | zero =>
    obtain rfl : p = other := Option.some.inj hother
    exact hp hc
  | succ earlier => exact h.2 earlier (Nat.lt_of_succ_lt_succ hlt) other hother hc

/-- Positions of directories among paths, none of which leads to a location that has been seen. -/
structure Chosen (fs : FileSystem) (root : Path) (seen : List Location) (paths : List Path)
    (positions : List Nat) (directories : List Path) : Prop where
  pairwise : positions.Pairwise (· < ·)
  first : List.Forall₂ (fun position directory => FirstAt fs root paths position directory ∧
    ∀ location ∈ seen, fs.resolve directory ≠ .ok location) positions directories

theorem Chosen.later {seen' : List Location} {positions : List Nat} {p : Path}
    (h : Chosen fs root seen' paths positions directories) (hsub : seen ⊆ seen')
    (hp : isCandidate root p = true → ∃ location, fs.resolve p = .ok location ∧ location ∈ seen') :
    Chosen fs root seen (p :: paths) (positions.map (· + 1)) directories := by
  refine ⟨h.pairwise.map _ fun _ _ => Nat.succ_lt_succ, List.forall₂_map_left_iff.mpr ?_⟩
  refine h.first.imp fun position directory ⟨hfirst, hnew⟩ =>
    ⟨hfirst.succ fun hc => ?_, fun location hm => hnew location (hsub hm)⟩
  obtain ⟨location, hr, hm⟩ := hp hc
  exact hr ▸ (hnew location hm).symm

theorem selectNew_chosen (h : selectNew fs root seen paths = .ok directories) :
    ∃ positions, Chosen fs root seen paths positions directories := by
  induction paths generalizing seen directories with
  | nil =>
    cases h
    exact ⟨[], .nil, .nil⟩
  | cons p paths ih =>
    rcases selectNew_cons_cases fs root seen p with
      ⟨hseen, heq⟩ | ⟨location, hc, hr, hmem, heq⟩ | ⟨failure, heq⟩ <;> rw [heq] at h
    · obtain ⟨positions, hpositions⟩ := ih h
      exact ⟨_, hpositions.later (List.Subset.refl seen) hseen⟩
    · obtain ⟨rest, hrest, rfl⟩ := map_ok.mp h
      obtain ⟨positions, hpositions⟩ := ih hrest
      obtain ⟨hpairwise, hfirst⟩ := hpositions.later (List.subset_cons_self location seen)
        fun _ => ⟨location, hr, List.mem_cons_self⟩
      refine ⟨0 :: positions.map (· + 1), .cons (by simp) hpairwise,
        .cons ⟨firstAt_zero p paths, fun other hm hother => ?_⟩ hfirst⟩
      rw [hr, Except.ok.injEq] at hother
      exact hmem (hother ▸ hm)
    · cases h

-- ---------------------------------------------------------------------------
-- The first level of a root
-- ---------------------------------------------------------------------------

theorem resolve_of_hasNull {p : Path} (h : FileSystem.hasNull p = true) :
    fs.resolve p = .error .nullInPath := by
  simp [FileSystem.resolve, h]

theorem selectNew_null (hok : ∀ p ∈ paths, isCandidate root p = true →
      FileSystem.hasNull p = false → ∃ location, fs.resolve p = .ok location)
    (h : ∃ p ∈ paths, isCandidate root p = true ∧ FileSystem.hasNull p = true) :
    selectNew fs root seen paths = .error .nullInPath := by
  induction paths generalizing seen with
  | nil =>
    obtain ⟨p, hm, -⟩ := h
    cases hm
  | cons p paths ih =>
    have hrest := fun other hm => hok other (List.mem_cons_of_mem p hm)
    by_cases hp : isCandidate root p = true ∧ FileSystem.hasNull p = true
    · exact selectNew_cons_error hp.1 (resolve_of_hasNull hp.2)
    have hlater : ∃ p ∈ paths, isCandidate root p = true ∧ FileSystem.hasNull p = true := by
      obtain ⟨other, hm, hother⟩ := h
      rcases List.mem_cons.mp hm with rfl | hm
      · exact absurd hother hp
      · exact ⟨other, hm, hother⟩
    cases hc : isCandidate root p with
    | false =>
      rw [selectNew_cons_skip hc]
      exact ih hrest hlater
    | true =>
      have hnull : FileSystem.hasNull p = false := by simpa [hc] using hp
      obtain ⟨location, hr⟩ := hok p List.mem_cons_self hc hnull
      by_cases hmem : location ∈ seen
      · rw [selectNew_cons_seen hc hr hmem]
        exact ih hrest hlater
      · rw [selectNew_cons_new hc hr hmem, ih hrest hlater]
        rfl

theorem exact_of_select {entries : List String} (hroot : fs.resolve root = .ok location)
    (h : select fs root entries = .ok directories) :
    Exact fs root location entries directories := by
  obtain ⟨found, hfound, hselect⟩ := select_eq_ok.mp h
  obtain rfl : found = location := Except.ok.inj (hfound.symm.trans hroot)
  obtain ⟨locations, hs⟩ := selectNew_ok hselect
  have hresolve : ∀ directory ∈ directories,
      ∃ other, fs.resolve directory = .ok other ∧ other ≠ found := by
    intro directory hm
    obtain ⟨other, hother, hr⟩ := exists_of_mem_left hs.resolve hm
    exact ⟨other, hr, fun heq => hs.unseen other hother (heq ▸ List.mem_cons_self)⟩
  refine ⟨?_, fun directory hm => ?_, hs.nodup_resolve, hresolve, ?_⟩
  · obtain ⟨positions, hpositions⟩ := selectNew_chosen hselect
    exact ⟨positions, hpositions.pairwise, hpositions.first.imp fun _ _ hfirst => hfirst.1⟩
  · refine eq_child_of_isCandidate (hs.isCandidate directory hm) fun heq => ?_
    obtain ⟨other, hother, hne⟩ := hresolve directory hm
    rw [heq, hroot, Except.ok.injEq] at hother
    exact hne hother.symm
  · intro entry hm name hentry hhidden helse
    have hc : isCandidate root (Path.ofString entry) = true := by
      rw [hentry, isCandidate_child, hhidden]
      rfl
    obtain ⟨other, hr, hother⟩ := hs.complete _ (List.mem_map_of_mem hm) hc
    rw [hr] at helse ⊢
    have hlocation : other ∈ locations := hother.resolve_left fun hseen =>
      helse (by rw [List.mem_singleton.mp hseen])
    obtain ⟨directory, hd, hdirectory⟩ := exists_of_mem_right hs.resolve hlocation
    refine ⟨directory, ⟨hd, hdirectory⟩, fun other' ⟨hd', hother'⟩ => ?_⟩
    exact List.inj_on_of_nodup_map hs.nodup_resolve hd' hd (hother'.trans hdirectory.symm)

/-- Where links have no loops, the first level of a resolved root is selected from any entries: the
children of the root that are not hidden and lead elsewhere, each location under the first path to
it. Only a candidate that no system can look up, with the character U+0000 in it, is an error. -/
theorem select_exact (hfs : fs.IsAcyclic) {root : Location}
    (hroot : fs.resolve (.ofLocation root) = .ok root) (entries : List String) :
    if ∃ entry ∈ entries, isCandidate (.ofLocation root) (Path.ofString entry) = true ∧
        FileSystem.hasNull (Path.ofString entry) = true then
      select fs (.ofLocation root) entries = .error .nullInPath
    else ∃ directories, select fs (.ofLocation root) entries = .ok directories ∧
      Exact fs (.ofLocation root) root entries directories := by
  have hok : ∀ p ∈ entries.map Path.ofString, isCandidate (.ofLocation root) p = true →
      FileSystem.hasNull p = false → ∃ location, fs.resolve p = .ok location := by
    intro p _ hc hnull
    refine hfs.resolve_ok hnull ?_
    simp only [isCandidate, Bool.and_eq_true, decide_eq_true_eq] at hc
    exact congrArg Path.anchor hc.1
  split
  · next hnull =>
    obtain ⟨entry, hm, hc, hentry⟩ := hnull
    rw [select, hroot]
    exact selectNew_null hok ⟨_, List.mem_map_of_mem hm, hc, hentry⟩
  · next hnull =>
    have htotal : ∃ directories, select fs (.ofLocation root) entries = .ok directories := by
      refine select_total hroot fun p hm hc => hok p hm hc ?_
      obtain ⟨entry, hentry, rfl⟩ := List.mem_map.mp hm
      by_contra hnot
      exact hnull ⟨entry, hentry, hc, by simpa using hnot⟩
    obtain ⟨directories, hd⟩ := htotal
    exact ⟨directories, hd, exact_of_select hroot hd⟩

def aliasedTree : FileSystem where
  entries := [(["r"], .directory), (["r", "src"], .directory), (["r", "alias"], .link "./src/"),
    (["r", "self"], .link "/r"), (["r", "astray"], .link "../gone/x"), (["r", ".git"], .directory)]
  working := ["r"]
  home := "/home"
  unreadable := []

def aliasedEntries : List String :=
  ["/r/self/", "/r/alias/", "/r//src/", "/r/./src", "/r/.git/", "/r/..", "/r/src/deep/", "/x/",
    "/r/astray", "r/src"]

theorem select_exact_aliasedTree :
    aliasedTree.IsAcyclic ∧ aliasedTree.resolve (.ofLocation ["r"]) = .ok ["r"] ∧
      Exact aliasedTree (.ofLocation ["r"]) ["r"] aliasedEntries
        [.ofLocation ["r", "alias"], .ofLocation ["r", "astray"]] := by
  have hacyclic : aliasedTree.IsAcyclic :=
    FileSystem.isAcyclic_of_avoidsLoops (show aliasedTree.avoidsLoops 4 = true by decide +kernel)
  have hroot : aliasedTree.resolve (.ofLocation ["r"]) = .ok ["r"] := rfl
  have hexact := select_exact hacyclic hroot aliasedEntries
  rw [if_neg (by decide +kernel)] at hexact
  obtain ⟨directories, hselect, hdirectories⟩ := hexact
  have hvalue : select aliasedTree (.ofLocation ["r"]) aliasedEntries =
      .ok [.ofLocation ["r", "alias"], .ofLocation ["r", "astray"]] := rfl
  rw [hvalue, Except.ok.injEq] at hselect
  exact ⟨hacyclic, hroot, hselect ▸ hdirectories⟩

end TreeManifest.FirstLevel
