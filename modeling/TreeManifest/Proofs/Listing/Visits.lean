import TreeManifest.Listing
import TreeManifest.Proofs.FileSystem.Frame
import TreeManifest.Proofs.FileSystem.Plain

/-!
# What a walk visits

A walk whose base leads to a directory lists names in directories that lie below the base and are
reached without links (`visits_item`). The items directly in the base come first, and every other
item lies below one of the directories among them (`visits_eq_append`). No walk needs more levels
than there are entries (`visitLevels_eq`).
-/

namespace TreeManifest

namespace Listing

open FileSystem

variable {fs : FileSystem} {walk : Walk} {top directory location : Location} {item : Item}

-- ---------------------------------------------------------------------------
-- One directory
-- ---------------------------------------------------------------------------

structure Admitted (fs : FileSystem) (item : Item) : Prop where
  ofDirectory : item.isDirectory = true →
    fs.isLink (Path.ofLocation item.location) = false ∧
      fs.isDirectory? (Path.ofLocation item.location) = .ok true ∧
      Path.isHiddenName (Path.ofLocation item.location).name = false
  ofFile : item.isDirectory = false → fs.isFile? (Path.ofLocation item.location) = .ok true

/-- A link is excluded unless it leads to no directory and not out of the base. -/
theorem excludesLink_eq_false {p : Path} : walk.excludesLink fs p = .ok false ↔
    fs.isLink? p = .ok false ∨ fs.isLink? p = .ok true ∧ fs.isDirectory? p = .ok false ∧
      ∃ location, fs.resolve p = .ok location ∧ walk.base <+: location := by
  unfold Walk.excludesLink Walk.admitsLink
  rcases fs.isLink? p with failure | _ | _
  · simp [bind, Except.bind]
  · simp [bind, Except.bind, pure, Except.pure]
  · rcases fs.isDirectory? p with failure | _ | _
    · simp [bind, Except.bind, Except.map]
    · rcases fs.resolve p with failure | location <;>
        simp [bind, Except.bind, pure, Except.pure, Except.map]
    · simp [bind, Except.bind, pure, Except.pure, Except.map]

theorem admit?_eq_some : walk.admit? fs location = .ok (some item) ↔
    walk.excludesLink fs (Path.ofLocation location) = .ok false ∧
      (item = ⟨location, true⟩ ∧ fs.isDirectory? (Path.ofLocation location) = .ok true ∧
          Path.isHiddenName (Path.ofLocation location).name = false ∧
          (Path.ofLocation location).name ∉ skippedDirectories ∧
          walk.ignores (walk.relative location ++ "/") = false ∨
        item = ⟨location, false⟩ ∧ fs.isDirectory? (Path.ofLocation location) = .ok false ∧
          fs.isFile? (Path.ofLocation location) = .ok true ∧
          walk.ignores (walk.relative location) = false) := by
  unfold Walk.admit?
  simp only [bind, Except.bind, pure, Except.pure]
  rcases walk.excludesLink fs (Path.ofLocation location) with failure | _ | _
  · simp
  · rcases fs.isDirectory? (Path.ofLocation location) with failure | _ | _
    · simp
    · rcases fs.isFile? (Path.ofLocation location) with failure | _ | _
      · simp
      · simp
      · cases walk.ignores (walk.relative location) <;> simp [@eq_comm _ item]
    · by_cases hname : Path.isHiddenName (Path.ofLocation location).name = true ∨
          (Path.ofLocation location).name ∈ skippedDirectories
      · grind
      · cases walk.ignores (walk.relative location ++ "/") <;> simp_all [@eq_comm _ item]
  · simp

theorem admit?_some (h : walk.admit? fs location = .ok (some item)) :
    item.location = location ∧ Admitted fs item := by
  obtain ⟨hlink, ⟨rfl, hdir, hhidden, -⟩ | ⟨rfl, -, hfile, -⟩⟩ := admit?_eq_some.mp h
  · refine ⟨rfl, ⟨fun _ => ⟨?_, hdir, hhidden⟩, fun hd => absurd hd.symm Bool.false_ne_true⟩⟩
    rcases excludesLink_eq_false.mp hlink with hno | ⟨-, hno, -⟩
    · refine Bool.eq_false_iff.mpr fun hyes => ?_
      cases hno.symm.trans (isLink?_eq_true.mpr ⟨(isDirectory?_eq_true.mp hdir).1, hyes⟩)
    · rw [hdir] at hno
      cases hno
  · exact ⟨rfl, ⟨fun hd => absurd hd Bool.false_ne_true, fun _ => hfile⟩⟩

/-- A directory that a walk reaches, by names below its base. -/
structure Reached (fs : FileSystem) (walk : Walk) (top : Location) (below : List String) : Prop where
  names : ∀ name ∈ below, IsName name
  find : fs.find (Path.ofLocation (walk.base ++ below)) = .ok (top ++ below, some .directory)

/-- An item that a walk lists, by its name in a directory that the walk reaches. -/
structure Listed (fs : FileSystem) (walk : Walk) (top : Location) (below : List String)
    (name : String) (item : Item) : Prop where
  reached : Reached fs walk top below
  isName : IsName name
  location : item.location = walk.base ++ (below ++ [name])
  admitted : Admitted fs item

variable {below : List String} {name : String}

theorem reached_base (h : fs.find (Path.ofLocation walk.base) = .ok (top, some .directory)) :
    Reached fs walk top [] :=
  ⟨List.forall_mem_nil _, by simpa using h⟩

theorem Listed.reached_child (hfs : fs.IsTree) (h : Listed fs walk top below name item)
    (hd : item.isDirectory = true) : Reached fs walk top (below ++ [name]) := by
  obtain ⟨hlink, hdir, -⟩ := h.admitted.ofDirectory hd
  obtain ⟨-, location, hfind⟩ := isDirectory?_eq_true.mp hdir
  have hchild : Path.ofLocation item.location =
      (Path.ofLocation (walk.base ++ below)).child name := by
    rw [h.location, ← List.append_assoc]
    rfl
  rw [hchild] at hlink hfind
  obtain ⟨directory, hparent, -, hresult, -⟩ := hfs.find_child_ok h.isName.isPart.ne_empty
    h.isName.isPart.ne_dot h.isName.ne_up hlink hfind
  rw [h.reached.find, Except.ok.injEq, Prod.mk.injEq] at hparent
  obtain ⟨rfl, -⟩ := hparent
  refine ⟨?_, ?_⟩
  · intro other hm
    rcases List.mem_append.mp hm with hm | hm
    · exact h.reached.names other hm
    · exact List.mem_singleton.mp hm ▸ h.isName
  · rw [← h.location, hchild, hfind, (Prod.mk.inj hresult).1, List.append_assoc]

theorem item_mem_visitDirectory : Visit.item item ∈ walk.visitDirectory fs directory ↔
    ∃ names, fs.namesAt (Path.ofLocation directory) = .ok names ∧
      ∃ name ∈ names, walk.admit? fs (directory ++ [name]) = .ok (some item) := by
  unfold Walk.visitDirectory
  rcases fs.namesAt (Path.ofLocation directory) with e | names
  · by_cases hdenied : e = .denied ∧ directory ≠ walk.base <;> simp [hdenied]
  simp only [Except.ok.injEq, exists_eq_left', List.mem_filterMap]
  refine exists_congr fun name => and_congr_right fun _ => ?_
  rcases walk.admit? fs (directory ++ [name]) with failure | _ | other <;> simp

theorem visitDirectory_item (hfs : fs.IsTree) (hr : Reached fs walk top below)
    (h : Visit.item item ∈ walk.visitDirectory fs (walk.base ++ below)) :
    ∃ name, Listed fs walk top below name item := by
  obtain ⟨names, hnames, name, hm, hadmits⟩ := item_mem_visitDirectory.mp h
  unfold namesAt at hnames
  rw [hr.find] at hnames
  simp only at hnames
  split at hnames
  · cases hnames
  cases hnames
  obtain ⟨entry, he⟩ := hfs.mem_names.mp hm
  obtain ⟨hlocation, hadmitted⟩ := admit?_some hadmits
  exact ⟨name, hr, hfs.isName he name (by simp), by rw [hlocation, List.append_assoc], hadmitted⟩

-- ---------------------------------------------------------------------------
-- All levels
-- ---------------------------------------------------------------------------

theorem mem_directoriesOf {visits : List Visit} :
    location ∈ directoriesOf visits ↔ Visit.item ⟨location, true⟩ ∈ visits := by
  unfold directoriesOf
  rw [List.mem_filterMap]
  constructor
  · rintro ⟨visit, hm, hv⟩
    split at hv
    · cases hv; exact hm
    · cases hv
  · exact fun hm => ⟨_, hm, rfl⟩

def AllReached (fs : FileSystem) (walk : Walk) (top : Location) (directories : List Location) :
    Prop :=
  ∀ directory ∈ directories, ∃ below, directory = walk.base ++ below ∧ Reached fs walk top below

theorem allReached_base (h : fs.find (Path.ofLocation walk.base) = .ok (top, some .directory)) :
    AllReached fs walk top [walk.base] := by
  intro directory hm
  exact ⟨[], by simpa using hm, reached_base h⟩

theorem AllReached.visit (hfs : fs.IsTree) {directories : List Location}
    (hd : AllReached fs walk top directories)
    (h : Visit.item item ∈ directories.flatMap (walk.visitDirectory fs)) :
    ∃ below name, Listed fs walk top below name item ∧ walk.base ++ below ∈ directories := by
  obtain ⟨directory, hm, hv⟩ := List.mem_flatMap.mp h
  obtain ⟨below, rfl, hr⟩ := hd directory hm
  obtain ⟨name, hlisted⟩ := visitDirectory_item hfs hr hv
  exact ⟨below, name, hlisted, hm⟩

theorem AllReached.next (hfs : fs.IsTree) {directories : List Location}
    (hd : AllReached fs walk top directories) :
    AllReached fs walk top (directoriesOf (directories.flatMap (walk.visitDirectory fs))) := by
  intro directory hm
  obtain ⟨below, name, hlisted, -⟩ := hd.visit hfs (mem_directoriesOf.mp hm)
  exact ⟨below ++ [name], hlisted.location, hlisted.reached_child hfs rfl⟩

theorem visitLevels_nil (depth : Nat) : walk.visitLevels fs depth [] = [] := by
  cases depth <;> rfl

theorem visitLevels_succ (depth : Nat) (directories : List Location) :
    walk.visitLevels fs (depth + 1) directories =
      directories.flatMap (walk.visitDirectory fs) ++
        walk.visitLevels fs depth (directoriesOf (directories.flatMap (walk.visitDirectory fs))) := by
  cases directories with
  | nil => exact (visitLevels_nil depth).symm
  | cons first rest => rfl

/-- Every item lies below one of the directories that the walk goes on from. -/
theorem visitLevels_item (hfs : fs.IsTree) {depth : Nat} {directories : List Location}
    (hd : AllReached fs walk top directories)
    (h : Visit.item item ∈ walk.visitLevels fs depth directories) :
    ∃ below name, Listed fs walk top below name item ∧
      ∃ directory ∈ directories, directory <+: walk.base ++ below := by
  induction depth generalizing directories with
  | zero => simp [Walk.visitLevels] at h
  | succ depth ih =>
    rw [visitLevels_succ] at h
    rcases List.mem_append.mp h with hm | hm
    · obtain ⟨below, name, hlisted, hdir⟩ := hd.visit hfs hm
      exact ⟨below, name, hlisted, _, hdir, List.prefix_rfl⟩
    · obtain ⟨below, name, hlisted, directory, hdir, hfront⟩ := ih (hd.next hfs) hm
      obtain ⟨below', name', hlisted', hdir'⟩ := hd.visit hfs (mem_directoriesOf.mp hdir)
      have hlocation : directory = walk.base ++ below' ++ [name'] := by
        rw [List.append_assoc]
        exact hlisted'.location
      exact ⟨below, name, hlisted, _, hdir',
        (hlocation ▸ List.prefix_append _ _).trans hfront⟩

theorem visits_eq_append (hfs : fs.IsTree)
    (hbase : fs.find (Path.ofLocation walk.base) = .ok (top, some .directory)) :
    ∃ first deeper, walk.visits fs true = first ++ deeper ∧
      (∀ item, Visit.item item ∈ first → ∃ name, Listed fs walk top [] name item) ∧
      ∀ item, Visit.item item ∈ deeper → ∃ outer below name,
        Listed fs walk top (outer :: below) name item ∧
          Visit.item ⟨walk.base ++ [outer], true⟩ ∈ first := by
  have hall := allReached_base hbase
  refine ⟨[walk.base].flatMap (walk.visitDirectory fs), _, rfl, ?_, ?_⟩
  · intro item hm
    obtain ⟨below, name, hlisted, hdir⟩ := hall.visit hfs hm
    have hbelow : below = [] := by simpa using hdir
    exact ⟨name, hbelow ▸ hlisted⟩
  · intro item hm
    obtain ⟨below, name, hlisted, directory, hdir, hfront⟩ := visitLevels_item hfs (hall.next hfs) hm
    obtain ⟨below', outer, hlisted', hdir'⟩ := hall.visit hfs (mem_directoriesOf.mp hdir)
    have hbelow : below' = [] := by simpa using hdir'
    subst hbelow
    have hlocation : directory = walk.base ++ [outer] := hlisted'.location
    subst hlocation
    obtain ⟨rest, hrest⟩ := hfront
    rw [List.append_assoc, List.append_cancel_left_eq] at hrest
    subst hrest
    exact ⟨outer, rest, name, hlisted, mem_directoriesOf.mp hdir⟩

theorem visits_item (hfs : fs.IsTree)
    (hbase : fs.find (Path.ofLocation walk.base) = .ok (top, some .directory))
    (h : Visit.item item ∈ walk.visits fs true) :
    ∃ below name, Listed fs walk top below name item := by
  obtain ⟨first, deeper, heq, hfirst, hdeeper⟩ := visits_eq_append hfs hbase
  rw [heq] at h
  rcases List.mem_append.mp h with hm | hm
  · obtain ⟨name, hlisted⟩ := hfirst item hm
    exact ⟨[], name, hlisted⟩
  · obtain ⟨outer, below, name, hlisted, -⟩ := hdeeper item hm
    exact ⟨outer :: below, name, hlisted⟩

theorem Reached.length_le (hfs : fs.IsTree) (h : Reached fs walk top below) :
    below.length ≤ fs.entries.length := by
  have hlength := hfs.length_le (hfs.entryAt?_of_find h.find)
  rw [List.length_append] at hlength
  omega

/-- Levels beyond the number of entries are empty. -/
theorem visitLevels_eq (hfs : fs.IsTree) {levels depth : Nat} {directories : List Location}
    (hd : ∀ directory ∈ directories, ∃ below, directory = walk.base ++ below ∧
      Reached fs walk top below ∧ fs.entries.length < below.length + levels)
    (hle : levels ≤ depth) :
    walk.visitLevels fs depth directories = walk.visitLevels fs levels directories := by
  induction levels generalizing depth directories with
  | zero =>
    have hnil : directories = [] := by
      refine List.eq_nil_iff_forall_not_mem.mpr fun directory hm => ?_
      obtain ⟨below, -, hr, hlt⟩ := hd directory hm
      exact absurd (hr.length_le hfs) (by omega)
    rw [hnil, visitLevels_nil, visitLevels_nil]
  | succ levels ih =>
    obtain ⟨depth, rfl⟩ : ∃ n, depth = n + 1 := ⟨depth - 1, by omega⟩
    rw [visitLevels_succ, visitLevels_succ]
    congr 1
    refine ih ?_ (by omega)
    intro directory hm
    have hall : AllReached fs walk top directories := fun d hm =>
      (hd d hm).imp fun _ h => ⟨h.1, h.2.1⟩
    obtain ⟨below, name, hlisted, hdir⟩ := hall.visit hfs (mem_directoriesOf.mp hm)
    obtain ⟨below', heq, -, hlt⟩ := hd _ hdir
    have hsame : below' = below := (List.append_cancel_left heq).symm
    subst hsame
    exact ⟨below' ++ [name], hlisted.location, hlisted.reached_child hfs rfl, by simp; omega⟩

theorem visits_eq_visitLevels (hfs : fs.IsTree)
    (hbase : fs.find (Path.ofLocation walk.base) = .ok (top, some .directory)) {depth : Nat}
    (hle : maxLevels fs ≤ depth) :
    walk.visits fs true = walk.visitLevels fs depth [walk.base] := by
  have hreached : ∀ directory ∈ [walk.base], ∃ below, directory = walk.base ++ below ∧
      Reached fs walk top below ∧ fs.entries.length < below.length + maxLevels fs := by
    intro directory hm
    exact ⟨[], by simpa using hm, reached_base hbase, by simp [maxLevels]⟩
  exact (visitLevels_eq hfs hreached hle).symm

end Listing

end TreeManifest
