import TreeManifest.FirstLevel
import TreeManifest.Proofs.FileSystem.Frame
import TreeManifest.Proofs.Report

/-!
# What is selected

The selected directories are candidates from the given ones, in their order, and they stand for
distinct locations none of which is the root's (`select_ok`). Selection succeeds if every candidate
stands for a location (`select_total`), leaves out no candidate that is a location itself
(`selectNew_own`), depends on the frame of the file system alone (`select_eq`), and more directories
only add to what is selected (`selectNew_front`).
-/

namespace TreeManifest.FirstLevel

open FileSystem (SameFrame)

variable {fs : FileSystem} {root : Path} {seen : List Location} {paths directories : List Path}

theorem exists_of_mem_right {α β : Type} {R : α → β → Prop} {xs : List α} {ys : List β}
    (h : List.Forall₂ R xs ys) {y : β} (hm : y ∈ ys) : ∃ x ∈ xs, R x y := by
  induction h with
  | nil => simp at hm
  | cons hr _ ih =>
    rcases List.mem_cons.mp hm with rfl | hm
    · exact ⟨_, List.mem_cons_self, hr⟩
    · obtain ⟨x, hx, hxy⟩ := ih hm
      exact ⟨x, List.mem_cons_of_mem _ hx, hxy⟩

theorem exists_of_mem_left {α β : Type} {R : α → β → Prop} {xs : List α} {ys : List β}
    (h : List.Forall₂ R xs ys) {x : α} (hm : x ∈ xs) : ∃ y ∈ ys, R x y :=
  exists_of_mem_right h.flip hm

theorem selectNew_cons_skip {p : Path} (h : isCandidate root p = false) :
    selectNew fs root seen (p :: paths) = selectNew fs root seen paths := by
  simp [selectNew, h]

theorem selectNew_cons_seen {p : Path} {location : Location} (h : isCandidate root p = true)
    (hr : fs.resolve p = .ok location) (hs : location ∈ seen) :
    selectNew fs root seen (p :: paths) = selectNew fs root seen paths := by
  simp [selectNew, h, hr, hs, bind, Except.bind]

theorem selectNew_cons_new {p : Path} {location : Location} (h : isCandidate root p = true)
    (hr : fs.resolve p = .ok location) (hs : location ∉ seen) :
    selectNew fs root seen (p :: paths) =
      (selectNew fs root (location :: seen) paths).map (p :: ·) := by
  simp only [selectNew, h, ↓reduceIte, hr, bind, Except.bind, pure, Except.pure]
  rw [if_neg (by simpa using hs)]
  cases selectNew fs root (location :: seen) paths <;> rfl

theorem selectNew_cons_error {p : Path} {failure : Failure} (h : isCandidate root p = true)
    (hr : fs.resolve p = .error failure) :
    selectNew fs root seen (p :: paths) = .error failure := by
  simp [selectNew, h, hr, bind, Except.bind]

/-- Of one more path, a selection leaves it out, takes it with its location, or fails at it, whatever
the paths after it are. -/
theorem selectNew_cons_cases (fs : FileSystem) (root : Path) (seen : List Location) (p : Path) :
    (isCandidate root p = true → ∃ location, fs.resolve p = .ok location ∧ location ∈ seen) ∧
        (∀ paths, selectNew fs root seen (p :: paths) = selectNew fs root seen paths) ∨
      (∃ location, isCandidate root p = true ∧ fs.resolve p = .ok location ∧ location ∉ seen ∧
        ∀ paths, selectNew fs root seen (p :: paths) =
          (selectNew fs root (location :: seen) paths).map (p :: ·)) ∨
      ∃ failure, ∀ paths, selectNew fs root seen (p :: paths) = .error failure := by
  cases hc : isCandidate root p with
  | false => exact .inl ⟨nofun, fun _ => selectNew_cons_skip hc⟩
  | true =>
    rcases hr : fs.resolve p with failure | location
    · exact .inr (.inr ⟨failure, fun _ => selectNew_cons_error hc hr⟩)
    by_cases hmem : location ∈ seen
    · exact .inl ⟨fun _ => ⟨location, rfl, hmem⟩, fun _ => selectNew_cons_seen hc hr hmem⟩
    · exact .inr (.inl ⟨location, rfl, rfl, hmem, fun _ => selectNew_cons_new hc hr hmem⟩)

/-- What a selection gives, for locations that have been seen before it. -/
structure Selected (fs : FileSystem) (root : Path) (seen : List Location)
    (paths directories : List Path) (locations : List Location) : Prop where
  resolve : List.Forall₂ (fun directory location => fs.resolve directory = .ok location)
    directories locations
  nodup : locations.Nodup
  unseen : ∀ location ∈ locations, location ∉ seen
  sublist : directories.Sublist paths
  isCandidate : ∀ directory ∈ directories, isCandidate root directory = true
  /-- No candidate is lost, up to the location that it stands for. -/
  complete : ∀ p ∈ paths, FirstLevel.isCandidate root p = true →
    ∃ location, fs.resolve p = .ok location ∧ (location ∈ seen ∨ location ∈ locations)

theorem Selected.nil : Selected fs root seen [] [] [] where
  resolve := .nil
  nodup := List.nodup_nil
  unseen := List.forall_mem_nil _
  sublist := .slnil
  isCandidate := List.forall_mem_nil _
  complete := List.forall_mem_nil _

theorem Selected.nodup_resolve {locations : List Location}
    (h : Selected fs root seen paths directories locations) :
    (directories.map fs.resolve).Nodup := by
  have hmap : directories.map fs.resolve = locations.map .ok := by
    have hresolve := h.resolve
    rwa [← List.forall₂_eq_eq_eq, List.forall₂_map_left_iff, List.forall₂_map_right_iff]
  rw [hmap]
  exact h.nodup.map fun _ _ => Except.ok.inj

theorem Selected.skip {p : Path} {locations : List Location}
    (h : Selected fs root seen paths directories locations)
    (hseen : FirstLevel.isCandidate root p = true →
      ∃ location, fs.resolve p = .ok location ∧ location ∈ seen) :
    Selected fs root seen (p :: paths) directories locations := by
  refine ⟨h.resolve, h.nodup, h.unseen, h.sublist.cons p, h.isCandidate, ?_⟩
  intro other hm ho
  rcases List.mem_cons.mp hm with rfl | hm
  · obtain ⟨location, hr, hmem⟩ := hseen ho
    exact ⟨location, hr, .inl hmem⟩
  · exact h.complete other hm ho

theorem Selected.take {p : Path} {location : Location} {locations : List Location}
    (h : Selected fs root (location :: seen) paths directories locations)
    (hc : FirstLevel.isCandidate root p = true) (hr : fs.resolve p = .ok location)
    (hmem : location ∉ seen) :
    Selected fs root seen (p :: paths) (p :: directories) (location :: locations) := by
  have hnot : location ∉ locations := fun hm => h.unseen location hm List.mem_cons_self
  refine ⟨.cons hr h.resolve, h.nodup.cons hnot, ?_, h.sublist.cons_cons p,
    List.forall_mem_cons.mpr ⟨hc, h.isCandidate⟩, ?_⟩
  · refine List.forall_mem_cons.mpr ⟨hmem, fun other hm ho => ?_⟩
    exact h.unseen other hm (List.mem_cons_of_mem location ho)
  · refine List.forall_mem_cons.mpr ⟨fun _ => ⟨location, hr, .inr List.mem_cons_self⟩, ?_⟩
    intro other hm ho
    obtain ⟨found, hf, hseen⟩ := h.complete other hm ho
    refine ⟨found, hf, ?_⟩
    rcases hseen with hseen | hseen
    · rcases List.mem_cons.mp hseen with rfl | hseen
      · exact .inr List.mem_cons_self
      · exact .inl hseen
    · exact .inr (List.mem_cons_of_mem location hseen)

theorem selectNew_ok (h : selectNew fs root seen paths = .ok directories) :
    ∃ locations, Selected fs root seen paths directories locations := by
  induction paths generalizing seen directories with
  | nil =>
    cases h
    exact ⟨[], .nil⟩
  | cons p paths ih =>
    rcases selectNew_cons_cases fs root seen p with
      ⟨hseen, heq⟩ | ⟨location, hc, hr, hmem, heq⟩ | ⟨failure, heq⟩ <;> rw [heq] at h
    · obtain ⟨locations, hs⟩ := ih h
      exact ⟨locations, hs.skip hseen⟩
    · obtain ⟨rest, hrest, rfl⟩ := map_ok.mp h
      obtain ⟨locations, hs⟩ := ih hrest
      exact ⟨location :: locations, hs.take hc hr hmem⟩
    · cases h

theorem selectNew_total
    (h : ∀ p ∈ paths, isCandidate root p = true → ∃ location, fs.resolve p = .ok location) :
    ∃ directories, selectNew fs root seen paths = .ok directories := by
  induction paths generalizing seen with
  | nil => exact ⟨[], rfl⟩
  | cons p paths ih =>
    have hrest := fun other hm => h other (List.mem_cons_of_mem p hm)
    cases hc : isCandidate root p with
    | false =>
      rw [selectNew_cons_skip hc]
      exact ih hrest
    | true =>
      obtain ⟨location, hr⟩ := h p List.mem_cons_self hc
      by_cases hmem : location ∈ seen
      · rw [selectNew_cons_seen hc hr hmem]
        exact ih hrest
      · rw [selectNew_cons_new hc hr hmem]
        obtain ⟨directories, hd⟩ := @ih (location :: seen) hrest
        exact ⟨p :: directories, by rw [hd]; rfl⟩

theorem selectNew_front {more selected : List Path}
    (h : selectNew fs root seen paths = .ok directories)
    (h' : selectNew fs root seen (paths ++ more) = .ok selected) : directories <+: selected := by
  induction paths generalizing seen directories selected with
  | nil =>
    cases h
    exact ⟨_, rfl⟩
  | cons p paths ih =>
    rw [List.cons_append] at h'
    rcases selectNew_cons_cases fs root seen p with
      ⟨-, heq⟩ | ⟨location, -, -, -, heq⟩ | ⟨failure, heq⟩ <;> rw [heq] at h h'
    · exact ih h h'
    · obtain ⟨rest, hrest, rfl⟩ := map_ok.mp h
      obtain ⟨rest', hrest', rfl⟩ := map_ok.mp h'
      exact (List.prefix_cons_inj p).mpr (ih hrest hrest')
    · cases h

/-- Every candidate is selected if the candidates are new locations themselves. -/
theorem selectNew_own {locations : List Location} (hn : locations.Nodup)
    (hown : ∀ location ∈ locations, isCandidate root (Path.ofLocation location) = true →
      fs.resolve (Path.ofLocation location) = .ok location ∧ location ∉ seen) :
    selectNew fs root seen (locations.map Path.ofLocation) =
      .ok ((locations.map Path.ofLocation).filter (isCandidate root)) := by
  induction locations generalizing seen with
  | nil => rfl
  | cons location rest ih =>
    obtain ⟨hnot, hrest⟩ := List.nodup_cons.mp hn
    obtain ⟨hfirst, hothers⟩ := List.forall_mem_cons.mp hown
    rw [List.map_cons]
    cases hc : isCandidate root (Path.ofLocation location) with
    | false =>
      rw [selectNew_cons_skip hc, ih hrest hothers, List.filter_cons_of_neg (by simp [hc])]
    | true =>
      obtain ⟨hresolve, hnew⟩ := hfirst hc
      rw [selectNew_cons_new hc hresolve hnew, ih hrest, List.filter_cons_of_pos hc]
      · rfl
      · intro other hm ho
        obtain ⟨hr, hunseen⟩ := hothers other hm ho
        refine ⟨hr, ?_⟩
        rintro (_ | ⟨_, hseen⟩)
        · exact hnot hm
        · exact hunseen hseen

theorem selectNew_congr {fs' : FileSystem} (h : ∀ p, fs.resolve p = fs'.resolve p) :
    selectNew fs root seen paths = selectNew fs' root seen paths := by
  induction paths generalizing seen with
  | nil => rfl
  | cons p paths ih => simp only [selectNew, h, ih]

-- ---------------------------------------------------------------------------
-- The first level of a root
-- ---------------------------------------------------------------------------

variable {listed : List String}

theorem select_eq_ok : select fs root listed = .ok directories ↔
    ∃ location, fs.resolve root = .ok location ∧
      selectNew fs root [location] (listed.map Path.ofString) = .ok directories := by
  unfold select
  exact bind_ok

theorem select_total {location : Location} (hroot : fs.resolve root = .ok location)
    (h : ∀ p ∈ listed.map Path.ofString, isCandidate root p = true →
      ∃ location, fs.resolve p = .ok location) :
    ∃ directories, select fs root listed = .ok directories := by
  obtain ⟨directories, hd⟩ := selectNew_total h
  exact ⟨directories, select_eq_ok.mpr ⟨location, hroot, hd⟩⟩

theorem select_congr {fs' : FileSystem} (h : ∀ p, fs.resolve p = fs'.resolve p) :
    select fs root listed = select fs' root listed := by
  simp only [select, h, selectNew_congr h]

theorem select_eq {fs' : FileSystem} (h : fs.SameFrame fs') (hfs : fs.IsTree) (hfs' : fs'.IsTree) :
    select fs root listed = select fs' root listed :=
  select_congr fun p => h.resolve_eq hfs hfs' p

theorem select_ok (h : select fs root listed = .ok directories) :
    ∃ location locations, fs.resolve root = .ok location ∧
      Selected fs root [location] (listed.map Path.ofString) directories locations := by
  obtain ⟨location, hroot, hd⟩ := select_eq_ok.mp h
  obtain ⟨locations, hs⟩ := selectNew_ok hd
  exact ⟨location, locations, hroot, hs⟩

theorem select_front {more : List String}
    (hmore : listed <+: more) {others : List Path} (h : select fs root listed = .ok directories)
    (h' : select fs root more = .ok others) : directories <+: others := by
  obtain ⟨rest, rfl⟩ := hmore
  obtain ⟨location, hroot, hd⟩ := select_eq_ok.mp h
  obtain ⟨location', hroot', hd'⟩ := select_eq_ok.mp h'
  rw [hroot, Except.ok.injEq] at hroot'
  subst hroot'
  rw [List.map_append] at hd'
  exact selectNew_front hd hd'

end TreeManifest.FirstLevel
