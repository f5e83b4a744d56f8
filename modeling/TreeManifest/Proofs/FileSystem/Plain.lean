import TreeManifest.Failure
import TreeManifest.Proofs.FileSystem.Follow

/-!
# Resolved locations have plain names

Whatever a path stands for is a location whose text is read back as this location
(`IsTree.resolve_parts`, `IsTree.locate_parts`): no name in it is empty, a single dot, or has a
slash. This includes what is only written out, below a loop of links or below what is missing.
-/

namespace TreeManifest.FileSystem

open Path (IsPart)

variable {fs : FileSystem} {location : Location} {p : Path}

theorem isPart_of_isStep {part : String} (h : IsStep part) (hdot : ¬ (part = "" ∨ part = ".")) :
    IsPart part :=
  ⟨fun he => hdot (.inl he), fun he => hdot (.inr he), h⟩

theorem isStep_of_isPart {part : String} (h : IsPart part) : IsStep part := h.slash_not_mem

theorem writeOut_parts {parts : List String} (hl : ∀ part ∈ location, IsPart part)
    (hp : ∀ part ∈ parts, IsStep part) : ∀ part ∈ writeOut location parts, IsPart part := by
  induction parts generalizing location with
  | nil => exact hl
  | cons name rest ih =>
    refine ih ?_ fun part hm => hp part (List.mem_cons_of_mem name hm)
    unfold writePart
    split
    · exact fun part hm => hl part (List.dropLast_subset location hm)
    split
    · exact hl
    · rename_i hdot
      intro part hm
      rcases List.mem_append.mp hm with hm | hm
      · exact hl part hm
      · rw [List.mem_singleton.mp hm]
        exact isPart_of_isStep (hp name List.mem_cons_self) hdot

theorem IsTree.isPart_start (hfs : fs.IsTree) (p : Path) : ∀ part ∈ fs.start p, IsPart part :=
  fun part hm => (hfs.isName (isDirectoryAt_iff.mp (hfs.isDirectoryAt_start p)) part hm).isPart

theorem IsTree.place_parts (hfs : fs.IsTree) (hp : ∀ part ∈ p.parts, IsPart part) :
    ∀ part ∈ fs.place p, IsPart part :=
  writeOut_parts (hfs.isPart_start p) fun part hm => isStep_of_isPart (hp part hm)

-- ---------------------------------------------------------------------------
-- Links worked out
-- ---------------------------------------------------------------------------

theorem above_parts (hp : ∀ part ∈ p.parts, IsPart part) : ∀ part ∈ (above p).parts, IsPart part := by
  have hup : IsPart ".." := ⟨by decide, by decide, by decide⟩
  unfold above
  split
  · split
    · intro part hm
      exact List.mem_singleton.mp hm ▸ hup
    · exact hp
  split
  · intro part hm
    rcases List.mem_append.mp hm with hm | hm
    · exact hp part hm
    · exact List.mem_singleton.mp hm ▸ hup
  · exact fun part hm => hp part (List.dropLast_subset p.parts hm)

def Resolution.place : Resolution → Location
  | .resolved l => l
  | .looped l => l

/-- What a resolution goes on with: plain names behind it, in the links that are known and in the
path so far, and names to follow before it. -/
structure Plain (opened : Mapping Path (Option Path)) (p : Path) (tasks : List Task) : Prop where
  opened : ∀ link known, Mapping.get? link opened = some (some known) →
    ∀ part ∈ known.parts, IsPart part
  parts : ∀ part ∈ p.parts, IsPart part
  tasks : ∀ name, Task.part name ∈ tasks → IsStep name

theorem Plain.tail {opened : Mapping Path (Option Path)} {task : Task} {tasks : List Task}
    (h : Plain opened p (task :: tasks)) : Plain opened p tasks :=
  ⟨h.opened, h.parts, fun name hm => h.tasks name (List.mem_cons_of_mem task hm)⟩

theorem Plain.put {opened : Mapping Path (Option Path)} {tasks : List Task}
    (h : Plain opened p tasks) {link : Path} {value : Option Path}
    (hvalue : ∀ known, value = some known → ∀ part ∈ known.parts, IsPart part) :
    Plain (Mapping.put link value opened) p tasks := by
  refine ⟨fun other known hget => ?_, h.parts, h.tasks⟩
  by_cases ho : other = link
  · subst ho
    rw [Mapping.get?_put_self, Option.some.injEq] at hget
    exact hvalue known hget
  · rw [Mapping.get?_put_of_ne ho] at hget
    exact h.opened other known hget

theorem Plain.child_parts {opened : Mapping Path (Option Path)} {name : String} {tasks : List Task}
    (h : Plain opened p (.part name :: tasks)) (hdot : ¬ (name = "" ∨ name = ".")) :
    ∀ part ∈ (p.child name).parts, IsPart part := by
  intro part hm
  rcases List.mem_append.mp hm with hm | hm
  · exact h.parts part hm
  · rw [List.mem_singleton.mp hm]
    exact isPart_of_isStep (h.tasks name List.mem_cons_self) hdot

/-- A link that is met for the first time puts the names of its target before what is left. -/
theorem Plain.open_link {opened : Mapping Path (Option Path)} {task : Task} {tasks : List Task}
    (h : Plain opened p (task :: tasks)) (link : Path) (target : String) :
    Plain (Mapping.put link none opened) (targetStart p target)
      ((targetParts target).map .part ++ .close link :: tasks) := by
  refine Plain.put ⟨h.opened, ?_, ?_⟩ fun known hk => by cases hk
  · unfold targetStart
    split
    · exact List.forall_mem_nil _
    · exact h.parts
  · intro part hm
    rcases List.mem_append.mp hm with hm | hm
    · obtain ⟨_, hmem, heq⟩ := List.mem_map.mp hm
      exact Task.part.inj heq ▸ isStep_of_mem_targetParts hmem
    · rcases List.mem_cons.mp hm with heq | hm
      · cases heq
      · exact h.tail.tasks part hm

theorem Plain.isStep_of_mem_filterMap {opened : Mapping Path (Option Path)} {tasks : List Task}
    (h : Plain opened p tasks) : ∀ part ∈ tasks.filterMap Task.part?, IsStep part := by
  intro part hm
  obtain ⟨task, ht, hpart⟩ := List.mem_filterMap.mp hm
  cases task with
  | close link => cases hpart
  | part name => exact Option.some.inj hpart ▸ h.tasks name ht

theorem IsTree.resolveTasks_parts (hfs : fs.IsTree) {fuel : Nat}
    {opened : Mapping Path (Option Path)} {tasks : List Task} (h : Plain opened p tasks) :
    ∀ part ∈ (fs.resolveTasks fuel opened p tasks).place, IsPart part := by
  fun_induction FileSystem.resolveTasks fs fuel opened p tasks with
  | case1 | case2 => exact hfs.place_parts h.parts
  | case3 fuel opened p link tasks ih =>
    exact ih (h.tail.put fun known hk => Option.some.inj hk ▸ h.parts)
  | case4 fuel opened p name tasks hdot ih => exact ih h.tail
  | case5 fuel opened p tasks hdot ih => exact ih ⟨h.opened, above_parts h.parts, h.tail.tasks⟩
  | case6 fuel opened p name tasks hdot hup next target hentry known hget ih =>
    exact ih ⟨h.opened, h.opened _ known hget, h.tail.tasks⟩
  | case7 fuel opened p name tasks hdot hup next target hentry hget =>
    exact writeOut_parts (hfs.place_parts (h.child_parts hdot)) h.tail.isStep_of_mem_filterMap
  | case8 fuel opened p name tasks hdot hup next target hentry hget ih =>
    exact ih (h.open_link next target)
  | case9 fuel opened p name tasks hdot hup next hno ih =>
    exact ih ⟨h.opened, h.child_parts hdot, h.tail.tasks⟩

theorem IsTree.resolvePath_parts (hfs : fs.IsTree) (hp : ∀ part ∈ p.parts, IsPart part) :
    ∀ part ∈ (fs.resolvePath p).place, IsPart part := by
  refine hfs.resolveTasks_parts ⟨fun link known hget => by simp [Mapping.get?] at hget, ?_, ?_⟩
  · split <;> exact List.forall_mem_nil _
  · intro name hm
    obtain ⟨_, hmem, heq⟩ := List.mem_map.mp hm
    exact Task.part.inj heq ▸ isStep_of_isPart (hp _ hmem)

-- ---------------------------------------------------------------------------
-- Paths
-- ---------------------------------------------------------------------------

theorem IsTree.find_parts (hfs : fs.IsTree) {entry : Option Entry}
    (hp : ∀ part ∈ p.parts, IsPart part) (h : fs.find p = .ok (location, entry)) :
    ∀ part ∈ location, IsPart part := by
  obtain ⟨-, ⟨there, hthere, -⟩ | ⟨-, directory, name, rfl, hd, -, hgiven, hname⟩⟩ :=
    hfs.find_ok h
  · exact fun part hm => (hfs.isName hthere part hm).isPart
  · intro part hm
    rcases List.mem_append.mp hm with hm | hm
    · exact (hfs.isName (isDirectoryAt_iff.mp hd) part hm).isPart
    · rw [List.mem_singleton.mp hm]
      rcases hgiven with hmem | hstep
      · exact hp name hmem
      · exact isPart_of_isStep hstep fun h => h.elim hname.ne_empty hname.ne_dot

theorem resolve_of_find {result : Location × Option Entry} (hnull : hasNull p = false)
    (h : fs.find p = .ok result) : fs.resolve p = .ok result.1 := by
  simp [resolve, hnull, h]

theorem resolve_eq_find {other : Location} {entry : Option Entry}
    (hr : fs.resolve p = .ok location) (hf : fs.find p = .ok (other, entry)) : other = location := by
  unfold resolve at hr
  split at hr
  · cases hr
  · rw [hf] at hr
    exact Except.ok.inj hr

theorem IsTree.resolve_parts (hfs : fs.IsTree) (hp : ∀ part ∈ p.parts, IsPart part)
    (h : fs.resolve p = .ok location) : ∀ part ∈ location, IsPart part := by
  unfold resolve at h
  split at h
  · cases h
  split at h
  · rename_i found entry hf
    cases h
    exact hfs.find_parts hp hf
  · have hparts := hfs.resolvePath_parts hp
    unfold resolveMissing at h
    cases hr : fs.resolvePath p with
    | resolved other =>
      rw [hr] at h hparts
      cases h
      exact hparts
    | looped other =>
      rw [hr] at h hparts
      simp only at h
      split at h
      · cases h
      · cases h
        exact hparts

theorem homePath_parts (home : String) : ∀ part ∈ (homePath home).parts, IsPart part := by
  unfold homePath
  split
  · exact List.forall_mem_nil _
  · exact fun part => Path.isPart_of_mem_partsOf

theorem expandHome_parts {q : Path} (hp : ∀ part ∈ p.parts, IsPart part)
    (h : fs.expandHome p = .ok q) : ∀ part ∈ q.parts, IsPart part := by
  unfold expandHome at h
  split at h
  · next first rest hanchor hparts =>
    split at h
    · split at h
      · cases h
      split at h
      · cases h
      split at h
      · cases h
      · next home hhome htilde =>
        cases h
        intro part hm
        rcases List.mem_append.mp hm with hm | hm
        · exact homePath_parts home part hm
        · exact hp part (hparts ▸ List.mem_cons_of_mem first hm)
    · cases h
      exact hp
  · cases h
    exact hp

theorem IsTree.locate_parts (hfs : fs.IsTree) {text : String}
    (h : fs.locate (Path.ofString text) = .ok location) : ∀ part ∈ location, IsPart part := by
  unfold locate at h
  cases hq : fs.expandHome (Path.ofString text) with
  | error e => rw [hq] at h; cases h
  | ok q =>
    rw [hq] at h
    exact hfs.resolve_parts (expandHome_parts (fun part => Path.isPart_of_mem_partsOf) hq) h

end TreeManifest.FileSystem
