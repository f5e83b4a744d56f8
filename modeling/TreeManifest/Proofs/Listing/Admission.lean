import Mathlib.Logic.Function.Iterate
import TreeManifest.Proofs.FileSystem.Extends
import TreeManifest.Proofs.Listing.Limit

/-!
# What is listed

An item of a walk is a directory or a file that is admitted by itself (`Admissible`), and every
directory between the base and it is admitted as well and can be read (`Passable`). A walk visits
these directories and no others (`mem_visits`), whatever it ignores. Where none of the visits fails,
the listing from which nothing is left out is known exactly (`list_exact`).
-/

namespace TreeManifest

namespace FileSystem

/-- No name has the character U+0000 in it, as no system lets one have. -/
def NullFree (fs : FileSystem) : Prop :=
  ∀ location ∈ Mapping.keys fs.entries, hasNull (Path.ofLocation location) = false

instance (fs : FileSystem) : Decidable fs.NullFree :=
  inferInstanceAs (Decidable (∀ location ∈ Mapping.keys fs.entries,
    hasNull (Path.ofLocation location) = false))

theorem hasNull_append (location more : Location) :
    hasNull (Path.ofLocation (location ++ more)) =
      (hasNull (Path.ofLocation location) || hasNull (Path.ofLocation more)) :=
  List.any_append

theorem NullFree.hasNull_of_entryAt? {fs : FileSystem} {location : Location} {entry : Entry}
    (h : fs.NullFree) (he : fs.entryAt? location = some entry) :
    hasNull (Path.ofLocation location) = false := by
  by_cases hne : location = []
  · subst hne
    rfl
  · exact h location (mem_keys_of_entryAt? he hne)

end FileSystem

namespace Listing

open FileSystem

variable {fs : FileSystem} {walk : Walk} {top : Location} {below : List String} {name : String}
  {isDirectory : Bool}

-- ---------------------------------------------------------------------------
-- What a walk admits
-- ---------------------------------------------------------------------------

/-- A name in a directory is listed, as a directory or as a file. The directory is reached by the
names `below` the base of the walk, which leads to `top`. -/
inductive Admissible (fs : FileSystem) (walk : Walk) (top : Location) (below : List String)
    (name : String) : (isDirectory : Bool) → Prop
  | directory (entry : fs.entryAt? (top ++ below ++ [name]) = some .directory)
      (shown : Path.isHiddenName name = false) (kept : name ∉ skippedDirectories)
      (unmatched : walk.ignores (String.intercalate "/" (below ++ [name]) ++ "/") = false) :
      Admissible fs walk top below name true
  | file {location : Location} {octets : List UInt8}
      (leads : fs.find (Path.ofLocation (walk.base ++ below ++ [name])) =
        .ok (location, some (.file octets)))
      (inside : ∀ target, fs.entryAt? (top ++ below ++ [name]) = some (.link target) →
        walk.base <+: location)
      (unmatched : walk.ignores (String.intercalate "/" (below ++ [name])) = false) :
      Admissible fs walk top below name false

inductive Passable (fs : FileSystem) (walk : Walk) (top : Location) : (below : List String) → Prop
  | base : Passable fs walk top []
  | child {below : List String} {name : String} (h : Passable fs walk top below)
      (admissible : Admissible fs walk top below name true)
      (readable : fs.namesAt (Path.ofLocation (walk.base ++ below ++ [name])) ≠ .error .denied) :
      Passable fs walk top (below ++ [name])

theorem relative_below (walk : Walk) (below : List String) (name : String) :
    walk.relative (walk.base ++ below ++ [name]) = String.intercalate "/" (below ++ [name]) := by
  simp [Walk.relative]

theorem name_ofLocation_concat (location : Location) (name : String) :
    (Path.ofLocation (location ++ [name])).name = name := by
  simp [Path.name, Path.ofLocation]

theorem Reached.child_eq (hfs : fs.IsTree) (hr : Reached fs walk top below)
    {result : Location × Option Entry}
    (h : fs.find (Path.ofLocation (walk.base ++ below ++ [name])) = .ok result) :
    ∃ left, fs.follow left (top ++ below) [name] = .ok result := by
  obtain ⟨directory, hparent, hleft⟩ :=
    @IsTree.find_append fs hfs (Path.ofLocation (walk.base ++ below)) name [] _ h
  rw [hr.find, Except.ok.injEq, Prod.mk.injEq] at hparent
  exact hparent.1 ▸ hleft

theorem Reached.find_denied (hfs : fs.IsTree) (hr : Reached fs walk top below)
    (hs : top ++ below ∈ fs.unsearchable) (hne : name ≠ "") :
    fs.find (Path.ofLocation (walk.base ++ below ++ [name])) = .error .denied :=
  hfs.find_child_denied hr.find hs hne

theorem Admissible.entry (hfs : fs.IsTree) (hr : Reached fs walk top below)
    (h : Admissible fs walk top below name isDirectory) :
    ∃ entry, fs.entryAt? (top ++ below ++ [name]) = some entry := by
  cases h with
  | directory entry _ _ _ => exact ⟨_, entry⟩
  | @file location octets leads _ _ =>
    obtain ⟨left, hf⟩ := hr.child_eq hfs leads
    have hd := hfs.isDirectoryAt_of_find hr.find
    have hup := hfs.isDirectoryAt_dropLast (isDirectoryAt_iff.mp hd)
    rcases he : fs.entryAt? (top ++ below ++ [name]) with _ | entry
    · -- The path would end at a directory or at a free name.
      unfold follow at hf
      simp only [scan, hd, he, Bool.not_true, Bool.false_eq_true, ↓reduceIte] at hf
      split_ifs at hf <;> simp_all [isDirectoryAt_iff]
    · exact ⟨entry, rfl⟩

theorem Admissible.reached (hfs : fs.IsTree) (hr : Reached fs walk top below)
    (hs : top ++ below ∉ fs.unsearchable) (h : Admissible fs walk top below name true) :
    Reached fs walk top (below ++ [name]) := by
  cases h with
  | directory entry _ _ _ =>
    have hname := hfs.isName entry name (by simp)
    have hlink : ∀ target, fs.entryAt? (top ++ below ++ [name]) ≠ some (.link target) := by
      simp only [entry, ne_eq, Option.some.injEq, reduceCtorEq, not_false_eq_true, implies_true]
    have hfind := hfs.find_child hr.find hs hname.isSought hlink
    refine ⟨?_, ?_⟩
    · simpa [or_imp, forall_and] using ⟨hr.names, hname⟩
    · rw [entry, List.append_assoc] at hfind
      rw [← List.append_assoc]
      exact hfind

/-- The names of a directory can be read only if the one above it may be searched. -/
theorem Reached.searchable (hfs : fs.IsTree) (hr : Reached fs walk top below) {entry : Entry}
    (he : fs.entryAt? (top ++ below ++ [name]) = some entry)
    (hreadable : fs.namesAt (Path.ofLocation (walk.base ++ below ++ [name])) ≠ .error .denied) :
    top ++ below ∉ fs.unsearchable := by
  intro hs
  have hname := hfs.isName he name (by simp)
  exact hreadable (by simp only [namesAt, hr.find_denied hfs hs hname.isPart.ne_empty])

theorem Passable.readable (hbase : fs.namesAt (Path.ofLocation walk.base) ≠ .error .denied)
    (h : Passable fs walk top below) :
    fs.namesAt (Path.ofLocation (walk.base ++ below)) ≠ .error .denied := by
  cases h with
  | base => simpa using hbase
  | child _ _ hreadable => rwa [← List.append_assoc]

theorem Passable.reached (hfs : fs.IsTree)
    (hbase : fs.find (Path.ofLocation walk.base) = .ok (top, some .directory))
    (h : Passable fs walk top below) : Reached fs walk top below := by
  induction h with
  | base => exact reached_base hbase
  | child _ hadmissible hreadable ih =>
    obtain ⟨entry, he⟩ := hadmissible.entry hfs ih
    exact hadmissible.reached hfs ih (ih.searchable hfs he hreadable)

theorem isDirectory?_of_file {p : Path} {location : Location} {octets : List UInt8}
    (hnull : hasNull p = false) (h : fs.find p = .ok (location, some (.file octets))) :
    fs.isDirectory? p = .ok false := by
  rw [FileSystem.isDirectory?, status_of_find h, ask_ok, hnull]
  rfl

theorem hasNull_below {entry : Entry} (hnull : fs.NullFree)
    (hbase : hasNull (Path.ofLocation walk.base) = false)
    (he : fs.entryAt? (top ++ below ++ [name]) = some entry) :
    hasNull (Path.ofLocation (walk.base ++ below ++ [name])) = false := by
  have hentry := hnull.hasNull_of_entryAt? he
  simp_all [hasNull_append]

/-- Nothing in a directory that may not be searched can be asked for. -/
theorem admit?_denied (hfs : fs.IsTree) (hr : Reached fs walk top below)
    (hs : top ++ below ∈ fs.unsearchable) (hne : name ≠ "")
    (hnull : hasNull (Path.ofLocation (walk.base ++ below ++ [name])) = false) :
    walk.admit? fs (walk.base ++ below ++ [name]) =
      .error (.access .denied (Path.ofLocation (walk.base ++ below ++ [name])).toString) := by
  have hlink : fs.isLink? (Path.ofLocation (walk.base ++ below ++ [name])) =
      .error (.access .denied (Path.ofLocation (walk.base ++ below ++ [name])).toString) :=
    ask_eq_error.mpr ⟨hnull, .denied, rfl, hfs.named_denied hr.find hs hne, rfl⟩
  simp only [Walk.admit?, Walk.excludesLink, hlink]
  rfl

theorem Reached.isLink? {entry : Entry} (hfs : fs.IsTree) (hr : Reached fs walk top below)
    (hs : top ++ below ∉ fs.unsearchable) (hname : IsSought name)
    (hnull : hasNull (Path.ofLocation (walk.base ++ below ++ [name])) = false)
    (he : fs.entryAt? (top ++ below ++ [name]) = some entry) :
    fs.isLink? (Path.ofLocation (walk.base ++ below ++ [name])) = .ok entry.isLink := by
  have hnamed : fs.named (Path.ofLocation (walk.base ++ below ++ [name])) = .ok entry :=
    (hfs.named_eq hr.find hs hname).trans (by rw [he])
  rw [FileSystem.isLink?, hnamed, ask_ok, hnull]
  simp

theorem admissible_of_admitted {item : Item} {entry : Entry} (hfs : fs.IsTree)
    (hr : Reached fs walk top below) (hs : top ++ below ∉ fs.unsearchable)
    (he : fs.entryAt? (top ++ below ++ [name]) = some entry)
    (h : walk.admit? fs (walk.base ++ below ++ [name]) = .ok (some item)) :
    Admissible fs walk top below name item.isDirectory := by
  have hname := hfs.isName he name (by simp)
  have hadmitted := (admit?_some h).2
  have hlocation := (admit?_some h).1
  have hlink : fs.isLink (Path.ofLocation (walk.base ++ below ++ [name])) = true ↔
      ∃ target, fs.entryAt? (top ++ below ++ [name]) = some (.link target) :=
    hfs.isLink_child_iff hr.find hs hname.isSought
  rw [admit?_eq_some, relative_below, name_ofLocation_concat] at h
  obtain ⟨hx, ⟨rfl, hdir, hshown, hkept, hunmatched⟩ | ⟨rfl, -, hfile, hunmatched⟩⟩ := h
  · obtain ⟨hno, -⟩ := hadmitted.ofDirectory rfl
    obtain ⟨-, location, hfind⟩ := isDirectory?_eq_true.mp hdir
    have hleads := hfs.find_child hr.find hs hname.isSought
      (not_exists.mp fun ht => absurd (hlink.mpr ht) (Bool.eq_false_iff.mp hno))
    rw [show (Path.ofLocation (walk.base ++ below)).child name =
      Path.ofLocation (walk.base ++ below ++ [name]) from rfl, hfind] at hleads
    exact .directory (Prod.mk.inj (Except.ok.inj hleads)).2.symm hshown hkept hunmatched
  · obtain ⟨hnull, location, octets, hfind⟩ := isFile?_eq_true.mp hfile
    refine .file hfind ?_ hunmatched
    intro target htarget
    have hyes := isLink?_eq_true.mpr ⟨hnull, hlink.mpr ⟨target, htarget⟩⟩
    rcases excludesLink_eq_false.mp hx with hno | ⟨-, -, other, hresolve, hinside⟩
    · cases hyes.symm.trans hno
    · rwa [resolve_eq_find hresolve hfind]

theorem Admissible.admitted (hfs : fs.IsTree) (hr : Reached fs walk top below)
    (hs : top ++ below ∉ fs.unsearchable)
    (hnull : hasNull (Path.ofLocation (walk.base ++ below ++ [name])) = false)
    (h : Admissible fs walk top below name isDirectory) :
    walk.admit? fs (walk.base ++ below ++ [name]) =
      .ok (some ⟨walk.base ++ below ++ [name], isDirectory⟩) := by
  obtain ⟨entry, he⟩ := h.entry hfs hr
  have hname := hfs.isName he name (by simp)
  have hlink := hr.isLink? hfs hs hname.isSought hnull he
  rw [admit?_eq_some, relative_below, name_ofLocation_concat]
  cases h with
  | directory hentry hshown hkept hunmatched =>
    have hno : ∀ target, fs.entryAt? (top ++ below ++ [name]) ≠ some (.link target) := by
      simp only [hentry, ne_eq, Option.some.injEq, reduceCtorEq, not_false_eq_true, implies_true]
    have hfind := hfs.find_child hr.find hs hname.isSought hno
    have hdir := isDirectory?_eq_true.mpr ⟨hnull, _, hentry ▸ hfind⟩
    cases he.symm.trans hentry
    exact ⟨excludesLink_eq_false.mpr (.inl hlink),
      .inl ⟨rfl, hdir, hshown, hkept, hunmatched⟩⟩
  | @file location octets hfind hinside hunmatched =>
    have hdir := isDirectory?_of_file hnull hfind
    have hfile := isFile?_eq_true.mpr ⟨hnull, location, octets, hfind⟩
    refine ⟨excludesLink_eq_false.mpr ?_, .inr ⟨rfl, hdir, hfile, hunmatched⟩⟩
    cases entry with
    | file | directory => exact .inl hlink
    | link target =>
      exact .inr ⟨hlink, hdir, location, resolve_of_find hnull hfind, hinside target he⟩

-- ---------------------------------------------------------------------------
-- One directory
-- ---------------------------------------------------------------------------

theorem Reached.namesAt (hr : Reached fs walk top below) :
    fs.namesAt (Path.ofLocation (walk.base ++ below)) =
      if top ++ below ∈ fs.unreadable then .error .denied else .ok (fs.names (top ++ below)) := by
  simp [FileSystem.namesAt, hr.find]

theorem item_mem_reached {item : Item} (hfs : fs.IsTree) (hnull : fs.NullFree)
    (hbase : hasNull (Path.ofLocation walk.base) = false) (hr : Reached fs walk top below) :
    Visit.item item ∈ walk.visitDirectory fs (walk.base ++ below) ↔
      fs.namesAt (Path.ofLocation (walk.base ++ below)) ≠ .error .denied ∧
        top ++ below ∉ fs.unsearchable ∧
        ∃ name, Admissible fs walk top below name item.isDirectory ∧
          item.location = walk.base ++ below ++ [name] := by
  rw [item_mem_visitDirectory, hr.namesAt]
  by_cases hdenied : top ++ below ∈ fs.unreadable
  · simp [hdenied]
  simp only [hdenied, ↓reduceIte, Except.ok.injEq, exists_eq_left', ne_eq, reduceCtorEq,
    not_false_eq_true, true_and]
  constructor
  · rintro ⟨name, hm, hadmits⟩
    obtain ⟨entry, he⟩ := hfs.mem_names.mp hm
    have hs : top ++ below ∉ fs.unsearchable := by
      intro hs
      rw [admit?_denied hfs hr hs (hfs.isName he name (by simp)).isPart.ne_empty
        (hasNull_below hnull hbase he)] at hadmits
      cases hadmits
    exact ⟨hs, name, admissible_of_admitted hfs hr hs he hadmits, (admit?_some hadmits).1⟩
  · rintro ⟨hs, name, hadmissible, hlocation⟩
    obtain ⟨entry, he⟩ := hadmissible.entry hfs hr
    have hadmits := hadmissible.admitted hfs hr hs (hasNull_below hnull hbase he)
    rw [← hlocation] at hadmits
    exact ⟨name, hfs.mem_names.mpr ⟨entry, he⟩, by rwa [← hlocation]⟩

theorem failed_mem_visitDirectory {directory : Location} {failure : Failure} :
    Visit.failed failure ∈ walk.visitDirectory fs directory ↔
    (∃ e, fs.namesAt (Path.ofLocation directory) = .error e ∧
        ¬ (e = .denied ∧ directory ≠ walk.base) ∧
      failure = .access e (Path.ofLocation directory).toString) ∨
    ∃ names, fs.namesAt (Path.ofLocation directory) = .ok names ∧
      ∃ name ∈ names, walk.admit? fs (directory ++ [name]) = .error failure := by
  unfold Walk.visitDirectory
  rcases fs.namesAt (Path.ofLocation directory) with e | names
  · by_cases hdenied : e = .denied ∧ directory ≠ walk.base
    · simp [hdenied]
    · simp only [if_neg hdenied, List.mem_singleton, Visit.failed.injEq, Except.error.injEq,
        reduceCtorEq, false_and, exists_false, or_false, exists_eq_left']
      exact (and_iff_right hdenied).symm
  simp only [reduceCtorEq, false_and, exists_false, Except.ok.injEq, exists_eq_left', false_or,
    List.mem_filterMap]
  refine exists_congr fun name => and_congr_right fun _ => ?_
  rcases walk.admit? fs (directory ++ [name]) with failure | _ | other <;> simp

-- ---------------------------------------------------------------------------
-- All levels
-- ---------------------------------------------------------------------------

def Walk.nextLevel (fs : FileSystem) (walk : Walk) (directories : List Location) : List Location :=
  directoriesOf (directories.flatMap (walk.visitDirectory fs))

theorem mem_visitLevels {visit : Visit} {depth : Nat} {directories : List Location} :
    visit ∈ walk.visitLevels fs depth directories ↔
      ∃ n < depth, visit ∈
        ((walk.nextLevel fs)^[n] directories).flatMap (walk.visitDirectory fs) := by
  induction depth generalizing directories with
  | zero => simp [Walk.visitLevels]
  | succ depth ih =>
    rw [visitLevels_succ, List.mem_append, Nat.exists_lt_succ_left, ih]
    rfl

theorem readable_of_mem {visit : Visit} {directory : Location}
    (hvisit : ∀ other, visit ≠ .unreadable other)
    (hbase : fs.namesAt (Path.ofLocation walk.base) ≠ .error .denied)
    (h : visit ∈ walk.visitDirectory fs directory) :
    fs.namesAt (Path.ofLocation directory) ≠ .error .denied := by
  intro hdenied
  by_cases hd : directory = walk.base
  · exact hbase (hd ▸ hdenied)
  · rw [Walk.visitDirectory, hdenied] at h
    simp only [hd, ne_eq, not_false_eq_true, and_self, ↓reduceIte, List.mem_singleton] at h
    exact hvisit directory h

/-- The directories `n` levels below the base that can be read. -/
theorem mem_nextLevel {directory : Location} (hfs : fs.IsTree) (hnull : fs.NullFree)
    (hbase : hasNull (Path.ofLocation walk.base) = false)
    (hfind : fs.find (Path.ofLocation walk.base) = .ok (top, some .directory))
    (hreadable : fs.namesAt (Path.ofLocation walk.base) ≠ .error .denied) (n : Nat) :
    (directory ∈ (walk.nextLevel fs)^[n] [walk.base] ∧
      fs.namesAt (Path.ofLocation directory) ≠ .error .denied) ↔
      ∃ below, below.length = n ∧ directory = walk.base ++ below ∧
        Passable fs walk top below := by
  induction n generalizing directory with
  | zero =>
    constructor
    · rintro ⟨hm, -⟩
      exact ⟨[], rfl, by simpa using hm, .base⟩
    · rintro ⟨below, hlength, rfl, -⟩
      obtain rfl := List.eq_nil_of_length_eq_zero hlength
      exact ⟨by simp, by simpa using hreadable⟩
  | succ n ih =>
    rw [Function.iterate_succ_apply', Walk.nextLevel, mem_directoriesOf, List.mem_flatMap]
    constructor
    · rintro ⟨⟨above, hm, hitem⟩, hread⟩
      obtain ⟨below, rfl, rfl, hpassable⟩ :=
        ih.mp ⟨hm, readable_of_mem (fun _ => Visit.noConfusion) hreadable hitem⟩
      obtain ⟨-, -, name, hadmissible, hlocation⟩ :=
        (item_mem_reached hfs hnull hbase (hpassable.reached hfs hfind)).mp hitem
      obtain rfl : directory = walk.base ++ below ++ [name] := hlocation
      exact ⟨below ++ [name], by simp, by simp, hpassable.child hadmissible hread⟩
    · rintro ⟨_, hlength, rfl, hpassable⟩
      cases hpassable with
      | base => cases hlength
      | @child below name hbelow hadmissible hread =>
        have hreached := hbelow.reached hfs hfind
        obtain ⟨hm, habove⟩ := ih.mpr ⟨below, by simpa using hlength, rfl, hbelow⟩
        obtain ⟨entry, he⟩ := hadmissible.entry hfs hreached
        have hitem : Visit.item ⟨walk.base ++ below ++ [name], true⟩ ∈
            walk.visitDirectory fs (walk.base ++ below) :=
          (item_mem_reached hfs hnull hbase hreached).mpr
            ⟨habove, hreached.searchable hfs he hread, name, hadmissible, rfl⟩
        rw [List.append_assoc] at hread hitem
        exact ⟨⟨_, hm, hitem⟩, hread⟩

/-- What a walk visits that can be read: what is in its base and in the directories through which it
passes. -/
theorem mem_visits {visit : Visit} {recursive : Bool} (hfs : fs.IsTree) (hnull : fs.NullFree)
    (hbase : hasNull (Path.ofLocation walk.base) = false)
    (hfind : fs.find (Path.ofLocation walk.base) = .ok (top, some .directory))
    (hreadable : fs.namesAt (Path.ofLocation walk.base) ≠ .error .denied)
    (hvisit : ∀ other, visit ≠ .unreadable other) :
    visit ∈ walk.visits fs recursive ↔ ∃ below, (recursive = true ∨ below = []) ∧
      Passable fs walk top below ∧ visit ∈ walk.visitDirectory fs (walk.base ++ below) := by
  rw [Walk.visits, mem_visitLevels]
  constructor
  · rintro ⟨n, hn, hm⟩
    obtain ⟨directory, hd, hm⟩ := List.mem_flatMap.mp hm
    obtain ⟨below, rfl, rfl, hpassable⟩ := (mem_nextLevel hfs hnull hbase hfind hreadable n).mp
      ⟨hd, readable_of_mem hvisit hreadable hm⟩
    refine ⟨below, ?_, hpassable, hm⟩
    cases recursive with
    | true => exact .inl rfl
    | false => exact .inr (List.eq_nil_of_length_eq_zero (Nat.lt_one_iff.mp hn))
  · rintro ⟨below, hdeep, hpassable, hm⟩
    have hlevel := ((mem_nextLevel hfs hnull hbase hfind hreadable below.length).mpr
      ⟨below, rfl, rfl, hpassable⟩).1
    refine ⟨below.length, ?_, List.mem_flatMap.mpr ⟨_, hlevel, hm⟩⟩
    rcases hdeep with rfl | rfl
    · exact Nat.lt_succ_of_le ((hpassable.reached hfs hfind).length_le hfs)
    · cases recursive <;> simp [maxLevels]

theorem item_mem_visits {item : Item} (hfs : fs.IsTree) (hnull : fs.NullFree)
    (hbase : hasNull (Path.ofLocation walk.base) = false)
    (hfind : fs.find (Path.ofLocation walk.base) = .ok (top, some .directory))
    (hreadable : fs.namesAt (Path.ofLocation walk.base) ≠ .error .denied)
    (hok : ∀ failure, Visit.failed failure ∉ walk.visits fs true) :
    Visit.item item ∈ walk.visits fs true ↔ ∃ below name, Passable fs walk top below ∧
      Admissible fs walk top below name item.isDirectory ∧
        item.location = walk.base ++ below ++ [name] := by
  have hmem {visit : Visit} (hvisit : ∀ other, visit ≠ .unreadable other) :=
    @mem_visits fs walk top visit true hfs hnull hbase hfind hreadable hvisit
  rw [hmem fun _ => Visit.noConfusion]
  constructor
  · rintro ⟨below, -, hpassable, hm⟩
    obtain ⟨-, -, name, hitem⟩ :=
      (item_mem_reached hfs hnull hbase (hpassable.reached hfs hfind)).mp hm
    exact ⟨below, name, hpassable, hitem⟩
  · rintro ⟨below, name, hpassable, hadmissible, hlocation⟩
    have hr := hpassable.reached hfs hfind
    obtain ⟨entry, he⟩ := hadmissible.entry hfs hr
    have hread := hpassable.readable hreadable
    refine ⟨below, .inl rfl, hpassable, (item_mem_reached hfs hnull hbase hr).mpr
      ⟨hread, fun hs => ?_, name, hadmissible, hlocation⟩⟩
    -- A directory that may not be searched would have failed at this name.
    refine hok _ ((hmem fun _ => Visit.noConfusion).mpr ⟨below, .inl rfl, hpassable,
      failed_mem_visitDirectory.mpr (.inr ⟨fs.names (top ++ below), ?_, name,
        hfs.mem_names.mpr ⟨entry, he⟩, admit?_denied hfs hr hs
          (hfs.isName he name (by simp)).isPart.ne_empty (hasNull_below hnull hbase he)⟩)⟩)
    rw [hr.namesAt, if_neg]
    intro hdenied
    exact hread (by rw [hr.namesAt, if_pos hdenied])

-- ---------------------------------------------------------------------------
-- Listings from which nothing is left out
-- ---------------------------------------------------------------------------

/-- The entries are those of what is admissible where the walk can pass, and each of them stands for
a location in the directory `top`, to which the base leads. -/
structure Exact (fs : FileSystem) (walk : Walk) (top : Location) (entries : List String) :
    Prop where
  mem_iff : ∀ entry, entry ∈ entries ↔ ∃ below name isDirectory, Passable fs walk top below ∧
    Admissible fs walk top below name isDirectory ∧
      entry = Item.text ⟨walk.base ++ below ++ [name], isDirectory⟩
  inside : ∀ entry ∈ entries, ∃ location, fs.resolve (Path.ofString entry) = .ok location ∧
    top <+: location

theorem top_eq_of_inside {location : Location} {octets : List UInt8} (hfs : fs.IsTree)
    (hfind : fs.find (Path.ofLocation walk.base) = .ok (top, some .directory))
    (he : fs.entryAt? location = some (.file octets)) (h : walk.base <+: location) :
    top = walk.base := by
  obtain ⟨rest, rfl⟩ := h
  have hpresent : fs.Present walk.base := by
    by_cases hrest : rest = []
    · exact ⟨.file octets, by simpa [hrest] using he, fun _ => Entry.noConfusion⟩
    · exact present_of_isDirectoryAt (hfs.isDirectoryAt_of_front he hrest)
  exact (Prod.mk.inj (hfs.eq_of_find_ofLocation hpresent hfind)).1

theorem Admissible.inside (hfs : fs.IsTree)
    (hfind : fs.find (Path.ofLocation walk.base) = .ok (top, some .directory))
    (hr : Reached fs walk top below) (hs : top ++ below ∉ fs.unsearchable)
    (hnull : hasNull (Path.ofLocation (walk.base ++ below ++ [name])) = false)
    (h : Admissible fs walk top below name isDirectory) :
    ∃ location, fs.resolve (Path.ofLocation (walk.base ++ below ++ [name])) = .ok location ∧
      top <+: location := by
  obtain ⟨entry, he⟩ := h.entry hfs hr
  have hname := hfs.isName he name (by simp)
  by_cases hlink : ∃ target, fs.entryAt? (top ++ below ++ [name]) = some (.link target)
  · obtain ⟨target, htarget⟩ := hlink
    cases h with
    | directory hentry _ _ _ =>
      rw [htarget] at hentry
      cases hentry
    | @file location octets hleads hinside _ =>
      have hprefix := hinside target htarget
      have htop := top_eq_of_inside hfs hfind (hfs.entryAt?_of_find hleads) hprefix
      exact ⟨location, resolve_of_find hnull hleads, htop ▸ hprefix⟩
  · have hleads := hfs.find_child hr.find hs hname.isSought (not_exists.mp hlink)
    refine ⟨top ++ below ++ [name], resolve_of_find hnull hleads, ?_⟩
    simp

theorem readable_of_cut {limit : Nat} {listing : Listing}
    (h : (cut limit (walk.visits fs true)).result = .ok listing) :
    fs.namesAt (Path.ofLocation walk.base) ≠ .error .denied := by
  intro hdenied
  have hvisits : ∃ failure rest, walk.visits fs true = .failed failure :: rest := by
    unfold Walk.visits
    rw [if_pos rfl, maxLevels, visitLevels_succ, List.flatMap_singleton]
    simp [Walk.visitDirectory, hdenied]
  obtain ⟨failure, rest, hvisits⟩ := hvisits
  cases limit <;> simp [hvisits, cut, Report.fail] at h

theorem exact_of_cut {limit : Nat} {entries : List String} (hfs : fs.IsTree) (hnull : fs.NullFree)
    (hparts : ∀ part ∈ walk.base, Path.IsPart part)
    (hbase : hasNull (Path.ofLocation walk.base) = false)
    (hfind : fs.find (Path.ofLocation walk.base) = .ok (top, some .directory))
    (h : (cut limit (walk.visits fs true)).result = .ok ⟨entries, false⟩) :
    Exact fs walk top entries := by
  obtain ⟨items, hwhole, rfl⟩ := whole_of_cut h
  obtain ⟨rfl, hok⟩ := whole_ok hwhole
  have hreadable := readable_of_cut h
  have hmem := fun item =>
    @item_mem_visits fs walk top item hfs hnull hbase hfind hreadable hok
  refine ⟨fun entry => ?_, fun entry hm => ?_⟩
  · simp only [List.mem_map, mem_itemsOf, hmem]
    constructor
    · rintro ⟨⟨location, isDirectory⟩, ⟨below, name, hpassable, hadmissible, rfl⟩, rfl⟩
      exact ⟨below, name, isDirectory, hpassable, hadmissible, rfl⟩
    · rintro ⟨below, name, isDirectory, hpassable, hadmissible, rfl⟩
      exact ⟨_, ⟨below, name, hpassable, hadmissible, rfl⟩, rfl⟩
  · obtain ⟨item, hitem, rfl⟩ := List.mem_map.mp hm
    have hvisit := mem_itemsOf.mp hitem
    obtain ⟨outer, last, hlisted⟩ := visits_item hfs hfind hvisit
    obtain ⟨below, -, hpassable, hm⟩ :=
      (mem_visits hfs hnull hbase hfind hreadable fun _ => Visit.noConfusion).mp hvisit
    have hreached := hpassable.reached hfs hfind
    obtain ⟨-, hs, name, hadmissible, hlocation⟩ :=
      (item_mem_reached hfs hnull hbase hreached).mp hm
    obtain ⟨entry, he⟩ := hadmissible.entry hfs hreached
    rw [(Entered.listed rfl hlisted).ofString_text hparts, hlocation]
    exact hadmissible.inside hfs hfind hreached hs (hasNull_below hnull hbase he)

/-- A listing from which nothing is left out holds exactly what is admissible under the root. The
rules of its ignore file are of no account for this: any other choice of ignored paths is followed
in the same way. -/
theorem list_exact (fs : FileSystem) (root : String) (limit : Int) (entries : List String)
    (hfs : fs.IsTree) (hnull : fs.NullFree) (hroot : Unprotected fs root)
    (hlist : (list fs root true limit).result = .ok ⟨entries, false⟩) :
    ∃ walk top, WalkOf fs root walk ∧
      fs.find (Path.ofLocation walk.base) = .ok (top, some .directory) ∧
      Exact fs walk top entries ∧
      ∀ (ignores : String → Bool) (bound : Nat) (others : List String),
        (cut bound (Walk.visits fs ⟨walk.base, ignores⟩ true)).result = .ok ⟨others, false⟩ →
          Exact fs ⟨walk.base, ignores⟩ top others := by
  obtain ⟨walk, hwalk⟩ := exists_walkOf_of_list hroot hlist
  obtain ⟨hbase, top, hfind⟩ := isDirectory?_eq_true.mp hwalk.isDirectory
  have hparts := hfs.locate_parts hwalk.locate
  refine ⟨walk, top, hwalk, hfind, ?_, ?_⟩
  · rw [hwalk.list_result] at hlist
    exact exact_of_cut hfs hnull hparts hbase hfind hlist
  · intro ignores bound others hcut
    exact @exact_of_cut fs ⟨walk.base, ignores⟩ top bound others hfs hnull hparts hbase hfind hcut

theorem list_exact_mixedTree : ∃ walk top, WalkOf mixedTree "/w" walk ∧
    mixedTree.find (Path.ofLocation walk.base) = .ok (top, some .directory) ∧
    Exact mixedTree walk top
      ["/w/.gitignore", "/w/a/", "/w/inside", "/w/locked/", "/w/z", "/w/a/deep"] := by
  have hlist : (list mixedTree "/w" true 10).result = .ok
      ⟨["/w/.gitignore", "/w/a/", "/w/inside", "/w/locked/", "/w/z", "/w/a/deep"], false⟩ :=
    eq_ok_of_toOption (by decide +kernel)
  obtain ⟨walk, top, hwalk, hfind, hexact, -⟩ := list_exact mixedTree "/w" 10 _ (by decide)
    (by decide) unprotected_mixedTree hlist
  exact ⟨walk, top, hwalk, hfind, hexact⟩

end Listing

end TreeManifest
