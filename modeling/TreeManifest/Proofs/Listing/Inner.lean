import TreeManifest.Proofs.Listing.Order
import TreeManifest.Proofs.Listing.Survival

/-!
# A walk from further in

A walk without rules that meets no links passes through a directory below its base as a walk from
there does. So level by level the second walk lists what the first one lists below its base, in the
same order (`Nested.itemsOf_visits`), and it fails only where the first one fails
(`Nested.visits_subset`). If neither listing is cut off, the one from further in holds the entries of
the other one that lie below (`Nested.list_eq`).
-/

namespace TreeManifest.Listing

open FileSystem

variable {fs : FileSystem} {outer inner : Walk} {directory location : Location}
  {directories : List Location}

/-- A walk and one from a readable directory directly in its base. Neither has rules, and no link
lies below the bases. -/
structure Nested (fs : FileSystem) (outer inner : Walk) : Prop where
  isTree : fs.IsTree
  base : ∃ name, inner.base = outer.base ++ [name]
  find : fs.find (Path.ofLocation outer.base) = .ok (outer.base, some .directory)
  linkless : ∀ below ≠ [], ∀ target, fs.entryAt? (outer.base ++ below) ≠ some (.link target)
  readable : inner.base ∉ fs.unreadable
  ignores : ∀ path, outer.ignores path = false
  ignores' : ∀ path, inner.ignores path = false

def liesBelow (base : Location) (item : Item) : Bool := base.isPrefixOf item.location.dropLast

def firstLevel (fs : FileSystem) (walk : Walk) : List Location :=
  directoriesOf ([walk.base].flatMap (walk.visitDirectory fs))

theorem parent_of_listed {walk : Walk} {item : Item} (hfs : fs.IsTree)
    (hm : item ∈ itemsOf (directories.flatMap (walk.visitDirectory fs))) :
    ∃ directory ∈ directories, ∃ name, item.location = directory ++ [name] := by
  obtain ⟨directory, hdirectory, hvisit⟩ := List.mem_flatMap.mp (mem_itemsOf.mp hm)
  exact ⟨directory, hdirectory,
    (visitDirectory_sorted hfs walk directory).2 item (mem_itemsOf.mpr hvisit)⟩

-- ---------------------------------------------------------------------------
-- One directory
-- ---------------------------------------------------------------------------

namespace Nested

theorem length_base (h : Nested fs outer inner) : inner.base.length = outer.base.length + 1 := by
  obtain ⟨name, hbase⟩ := h.base
  simp [hbase]

theorem admit?_eq (h : Nested fs outer inner)
    (hlink : fs.isLink (Path.ofLocation location) = false) :
    inner.admit? fs location = outer.admit? fs location := by
  have hexcludes : ∀ walk : Walk, walk.excludesLink fs (Path.ofLocation location) =
      fs.isLink? (Path.ofLocation location) := by
    intro walk
    unfold Walk.excludesLink
    rcases hask : fs.isLink? (Path.ofLocation location) with failure | _ | _
    · rfl
    · rfl
    · cases hlink.symm.trans (isLink?_eq_true.mp hask).2
  simp only [Walk.admit?, hexcludes, h.ignores, h.ignores']

theorem isLink_child (h : Nested fs outer inner) {below : List String}
    (hr : Reached fs outer outer.base below) (name : String) :
    fs.isLink (Path.ofLocation (outer.base ++ below ++ [name])) = false := by
  refine h.isTree.isLink_child hr.find fun target => ?_
  rw [List.append_assoc]
  exact h.linkless (below ++ [name]) (by simp) target

/-- Both walks see the same in a directory that is not above the second one's base. -/
theorem visitDirectory_eq (h : Nested fs outer inner) {below : List String}
    (hr : Reached fs outer outer.base below) (hin : inner.base <+: outer.base ++ below) :
    inner.visitDirectory fs (outer.base ++ below) =
      outer.visitDirectory fs (outer.base ++ below) := by
  simp only [Walk.visitDirectory, h.admit?_eq (h.isLink_child hr _)]
  rcases hnames : fs.namesAt (Path.ofLocation (outer.base ++ below)) with e | names
  · have hinner : outer.base ++ below ≠ inner.base := by
      intro heq
      have hreadable : fs.namesAt (Path.ofLocation (outer.base ++ below)) =
          .ok (fs.names (outer.base ++ below)) :=
        namesAt_eq_ok.mpr ⟨_, hr.find, heq ▸ h.readable, rfl⟩
      cases hnames.symm.trans hreadable
    have houter : outer.base ++ below ≠ outer.base := by
      intro heq
      have hlength := hin.length_le
      rw [heq, h.length_base] at hlength
      omega
    simp [hinner, houter]
  · rfl

/-- In directories of one level, the second walk lists what the first one lists below its base. -/
theorem itemsOf_level (h : Nested fs outer inner) (hall : AllReached fs outer outer.base directories) :
    itemsOf ((directories.filter (inner.base.isPrefixOf ·)).flatMap (inner.visitDirectory fs)) =
      (itemsOf (directories.flatMap (outer.visitDirectory fs))).filter (liesBelow inner.base) := by
  induction directories with
  | nil => rfl
  | cons directory rest ih =>
    obtain ⟨⟨below, rfl, hr⟩, hrest⟩ := List.forall_mem_cons.mp hall
    have hchild : ∀ item ∈ itemsOf (outer.visitDirectory fs (outer.base ++ below)),
        liesBelow inner.base item = inner.base.isPrefixOf (outer.base ++ below) := by
      intro item hm
      obtain ⟨name, hlocation⟩ := (visitDirectory_sorted h.isTree outer _).2 item hm
      rw [liesBelow, hlocation, List.dropLast_concat]
    rw [List.flatMap_cons, itemsOf_append, List.filter_append, ← ih hrest]
    by_cases hin : inner.base <+: outer.base ++ below
    · have hin' := List.isPrefixOf_iff_prefix.mpr hin
      rw [List.filter_cons_of_pos hin', List.flatMap_cons, itemsOf_append,
        h.visitDirectory_eq hr hin, List.filter_eq_self.mpr fun item hm => (hchild item hm).trans hin']
    · have hout : inner.base.isPrefixOf (outer.base ++ below) ≠ true :=
        fun hp => hin (List.isPrefixOf_iff_prefix.mp hp)
      have hnone : (itemsOf (outer.visitDirectory fs (outer.base ++ below))).filter
          (liesBelow inner.base) = [] :=
        List.filter_eq_nil_iff.mpr fun item hm => hchild item hm ▸ hout
      rw [List.filter_cons_of_neg hout, hnone, List.nil_append]

theorem directoriesOf_level (h : Nested fs outer inner)
    (hall : AllReached fs outer outer.base directories)
    (hlength : ∀ directory ∈ directories, inner.base.length ≤ directory.length) :
    directoriesOf ((directories.filter (inner.base.isPrefixOf ·)).flatMap (inner.visitDirectory fs)) =
      (directoriesOf (directories.flatMap (outer.visitDirectory fs))).filter
        (inner.base.isPrefixOf ·) := by
  rw [directoriesOf_eq, directoriesOf_eq, h.itemsOf_level hall, List.filter_filter, List.filter_map,
    List.filter_filter]
  congr 1
  refine List.filter_congr fun item hm => ?_
  obtain ⟨directory, hdirectory, name, hlocation⟩ := parent_of_listed h.isTree hm
  -- What lies in a directory of this level is longer than the base.
  have hne : inner.base ≠ directory ++ [name] := by
    intro heq
    have hlong := hlength directory hdirectory
    rw [heq, List.length_append, List.length_singleton] at hlong
    omega
  have hbelow : inner.base.isPrefixOf (directory ++ [name]) = inner.base.isPrefixOf directory := by
    rw [Bool.eq_iff_iff, List.isPrefixOf_iff_prefix, List.isPrefixOf_iff_prefix,
      List.prefix_concat_iff, or_iff_right hne]
  simp only [liesBelow, Function.comp_apply, hlocation, List.dropLast_concat, hbelow]
  exact Bool.and_comm _ _

-- ---------------------------------------------------------------------------
-- All levels
-- ---------------------------------------------------------------------------

theorem length_next (h : Nested fs outer inner)
    (hlength : ∀ directory ∈ directories, inner.base.length ≤ directory.length) :
    ∀ directory ∈ directoriesOf (directories.flatMap (outer.visitDirectory fs)),
      inner.base.length ≤ directory.length := by
  intro location hm
  obtain ⟨directory, hdirectory, name, hlocation⟩ :=
    parent_of_listed h.isTree (mem_itemsOf.mpr (mem_directoriesOf.mp hm))
  obtain rfl : location = directory ++ [name] := hlocation
  have hlong := hlength directory hdirectory
  simp only [List.length_append, List.length_singleton]
  omega

theorem itemsOf_visitLevels (h : Nested fs outer inner) (levels : Nat)
    (hall : AllReached fs outer outer.base directories)
    (hlength : ∀ directory ∈ directories, inner.base.length ≤ directory.length) :
    itemsOf (inner.visitLevels fs levels (directories.filter (inner.base.isPrefixOf ·))) =
      (itemsOf (outer.visitLevels fs levels directories)).filter (liesBelow inner.base) := by
  induction levels generalizing directories with
  | zero => rfl
  | succ levels ih =>
    rw [visitLevels_succ, visitLevels_succ, itemsOf_append, itemsOf_append, List.filter_append,
      h.itemsOf_level hall, h.directoriesOf_level hall hlength,
      ih (hall.next h.isTree) (h.length_next hlength)]

theorem visitLevels_subset (h : Nested fs outer inner) (levels : Nat)
    (hall : AllReached fs outer outer.base directories)
    (hlength : ∀ directory ∈ directories, inner.base.length ≤ directory.length) :
    inner.visitLevels fs levels (directories.filter (inner.base.isPrefixOf ·)) ⊆
      outer.visitLevels fs levels directories := by
  induction levels generalizing directories with
  | zero => exact List.Subset.refl _
  | succ levels ih =>
    rw [visitLevels_succ, visitLevels_succ, h.directoriesOf_level hall hlength]
    refine List.append_subset.mpr ⟨fun visit hm => ?_, ?_⟩
    · obtain ⟨directory, hdirectory, hvisit⟩ := List.mem_flatMap.mp hm
      obtain ⟨hmem, hin⟩ := List.mem_filter.mp hdirectory
      obtain ⟨below, rfl, hr⟩ := hall directory hmem
      rw [h.visitDirectory_eq hr (List.isPrefixOf_iff_prefix.mp hin)] at hvisit
      exact List.mem_append_left _ (List.mem_flatMap.mpr ⟨_, hmem, hvisit⟩)
    · exact List.Subset.trans (ih (hall.next h.isTree) (h.length_next hlength))
        (List.subset_append_right _ _)

-- ---------------------------------------------------------------------------
-- Whole walks
-- ---------------------------------------------------------------------------

theorem allReached_firstLevel (h : Nested fs outer inner) :
    AllReached fs outer outer.base (firstLevel fs outer) :=
  (allReached_base h.find).next h.isTree

theorem length_firstLevel (h : Nested fs outer inner) :
    ∀ directory ∈ firstLevel fs outer, directory.length = inner.base.length := by
  have hlevel := @IsLevel.next fs outer [outer.base] h.isTree _ (isLevel_base outer.base)
  rw [h.length_base]
  exact hlevel.length

theorem filter_firstLevel (h : Nested fs outer inner)
    (hlisted : ⟨inner.base, true⟩ ∈ itemsOf (outer.visits fs true)) :
    (firstLevel fs outer).filter (inner.base.isPrefixOf ·) = [inner.base] := by
  have hlevel := @IsLevel.next fs outer [outer.base] h.isTree _ (isLevel_base outer.base)
  have hmem : inner.base ∈ firstLevel fs outer := by
    obtain ⟨deeper, hvisits, hdeeper⟩ := itemsOf_visits h.isTree outer
    rw [hvisits] at hlisted
    rcases List.mem_append.mp hlisted with hfirst | hfar
    · rw [firstLevel, List.flatMap_singleton]
      exact mem_directoriesOf.mpr (mem_itemsOf.mp hfirst)
    · have hlong := hdeeper _ hfar
      simp only [h.length_base] at hlong
      omega
  have hfilter : (firstLevel fs outer).filter (inner.base.isPrefixOf ·) =
      (firstLevel fs outer).filter (· == inner.base) := by
    refine List.filter_congr fun directory hm => ?_
    rw [Bool.eq_iff_iff, List.isPrefixOf_iff_prefix, beq_iff_eq]
    exact ⟨fun hp => (hp.eq_of_length (h.length_firstLevel directory hm).symm).symm,
      fun heq => heq ▸ List.prefix_rfl⟩
  have hnodup : (firstLevel fs outer).Nodup := hlevel.sorted.imp Precedes.ne
  rw [hfilter, List.filter_beq, List.count_eq_one_of_mem hnodup hmem]
  rfl

theorem find_inner (h : Nested fs outer inner)
    (hlisted : ⟨inner.base, true⟩ ∈ itemsOf (outer.visits fs true)) :
    fs.find (Path.ofLocation inner.base) = .ok (inner.base, some .directory) := by
  have hmem : inner.base ∈ (firstLevel fs outer).filter (inner.base.isPrefixOf ·) := by
    rw [h.filter_firstLevel hlisted]
    exact List.mem_singleton_self _
  obtain ⟨below, hbase, hr⟩ := h.allReached_firstLevel _ (List.mem_of_mem_filter hmem)
  rw [hbase]
  exact hr.find

theorem visits_eq (h : Nested fs outer inner) :
    outer.visits fs true = [outer.base].flatMap (outer.visitDirectory fs) ++
      outer.visitLevels fs (maxLevels fs) (firstLevel fs outer) := by
  rw [visits_eq_visitLevels h.isTree h.find (Nat.le_succ (maxLevels fs)), visitLevels_succ]
  rfl

theorem itemsOf_visits (h : Nested fs outer inner)
    (hlisted : ⟨inner.base, true⟩ ∈ itemsOf (outer.visits fs true)) :
    itemsOf (inner.visits fs true) =
      (itemsOf (outer.visits fs true)).filter (liesBelow inner.base) := by
  have hdirectly : (itemsOf ([outer.base].flatMap (outer.visitDirectory fs))).filter
      (liesBelow inner.base) = [] := by
    rw [← h.itemsOf_level (allReached_base h.find), List.filter_cons_of_neg]
    · rfl
    · rw [List.isPrefixOf_iff_prefix]
      intro hp
      have hlength := hp.length_le
      rw [h.length_base] at hlength
      omega
  rw [h.visits_eq, itemsOf_append, List.filter_append, hdirectly, List.nil_append,
    ← h.itemsOf_visitLevels (maxLevels fs) h.allReached_firstLevel
      (fun directory hm => (h.length_firstLevel directory hm).ge),
    h.filter_firstLevel hlisted,
    ← visits_eq_visitLevels h.isTree (h.find_inner hlisted) (Nat.le_refl _)]

theorem visits_subset (h : Nested fs outer inner)
    (hlisted : ⟨inner.base, true⟩ ∈ itemsOf (outer.visits fs true)) :
    inner.visits fs true ⊆ outer.visits fs true := by
  have hsubset := h.visitLevels_subset (maxLevels fs) h.allReached_firstLevel
    (fun directory hm => (h.length_firstLevel directory hm).ge)
  rw [h.filter_firstLevel hlisted] at hsubset
  rw [h.visits_eq, visits_eq_visitLevels h.isTree (h.find_inner hlisted) (Nat.le_refl _)]
  exact List.Subset.trans hsubset (List.subset_append_right _ _)

theorem list_eq {root root' : String} {limit limit' : Int} {entries : List String}
    (h : Nested fs outer inner) (houter : WalkOf fs root outer) (hinner : WalkOf fs root' inner)
    (hlisted : ⟨inner.base, true⟩ ∈ itemsOf (outer.visits fs true))
    (hlist : (list fs root true limit).result = .ok ⟨entries, false⟩)
    (hwhole : ∀ listing, (list fs root' true limit').result = .ok listing →
      listing.truncated = false) :
    entries = (itemsOf (outer.visits fs true)).map Item.text ∧
      (list fs root' true limit').result =
        .ok ⟨((itemsOf (outer.visits fs true)).filter (liesBelow inner.base)).map Item.text,
          false⟩ := by
  rw [houter.list_result] at hlist
  obtain ⟨items, hitems, rfl⟩ := whole_of_cut hlist
  obtain ⟨rfl, hsound⟩ := whole_ok hitems
  refine ⟨rfl, ?_⟩
  rw [hinner.list_result] at hwhole ⊢
  rcases hcut : (cut limit'.toNat (inner.visits fs true)).result with failure | ⟨entries, truncated⟩
  · exact absurd (h.visits_subset hlisted (failed_of_cut hcut)) (hsound failure)
  · obtain rfl : truncated = false := hwhole _ hcut
    obtain ⟨items, hitems', rfl⟩ := whole_of_cut hcut
    obtain ⟨rfl, -⟩ := whole_ok hitems'
    rw [h.itemsOf_visits hlisted]

end Nested

end TreeManifest.Listing
