import TreeManifest.Proofs.Collection
import TreeManifest.Proofs.Listing.Inner

/-!
# A collection from further in

Files with distinct paths are described one by one, each by a text of its own
(`describeAll_distinct`), and only what lies below a directory is told within it. So a collection of
a first-level directory tells within it what the collection of the root tells
(`Collected.scope_inner`), as long as nothing in the tree makes a listing from above see something
else than one from there (`Transparent`).
-/

namespace TreeManifest

open FileSystem
open Listing (Entered Nested Walk WalkOf isProtected itemsOf liesBelow rulesOf)

-- ---------------------------------------------------------------------------
-- Roots without rules
-- ---------------------------------------------------------------------------

namespace Listing

variable {fs : FileSystem} {base : Location}

theorem rulesOf_eq_nil (hfs : fs.IsTree)
    (hfind : fs.find (Path.ofLocation base) = .ok (base, some .directory))
    (hs : base ∉ fs.unsearchable) (hfree : fs.entryAt? (base ++ [".gitignore"]) = none) :
    rulesOf fs base = .ok [] := by
  have hchild : fs.find (ignoreFile base) = .ok (base ++ [".gitignore"], none) :=
    hfree ▸ hfs.find_child hfind hs ⟨by decide, by decide, by decide, by decide⟩ (by simp [hfree])
  have hnone : fs.exists? (ignoreFile base) = .ok false := by
    unfold exists? ask
    rw [status_of_find_none hchild]
    cases hasNull (ignoreFile base) <;> rfl
  simp only [rulesOf]
  rw [← ignoreFile, hnone]
  rfl

def ruleless (base : Location) : Walk := ⟨base, Ignore.Rules.ignores []⟩

end Listing

open Listing (ruleless)

/-- A tree in which a directory is seen from a root above it as from itself: no link lies below the
root, neither of them has an ignore file, and the directory can be read and searched and is not the
home directory. -/
structure Transparent (fs : FileSystem) (root directory : Location) : Prop where
  isTree : fs.IsTree
  linkless : ∀ below ≠ [], ∀ target, fs.entryAt? (root ++ below) ≠ some (.link target)
  free : fs.entryAt? (root ++ [".gitignore"]) = none
  free' : fs.entryAt? (directory ++ [".gitignore"]) = none
  readable : directory ∉ fs.unreadable
  searchable : directory ∉ fs.unsearchable
  notHome : fs.locate (Path.ofString "~") ≠ .ok directory

-- ---------------------------------------------------------------------------
-- Descriptions of distinct files
-- ---------------------------------------------------------------------------

namespace Collection

theorem describeAll_eq {fs : FileSystem} {text : String → String}
    (htext : ∀ file, (Description.describe fs file).result = .ok (text file))
    (analysis : Mapping String String) (files : List String) :
    (describeAll fs analysis files).result =
      .ok (files.foldl (fun m file => Mapping.put file (text file) m) analysis) := by
  induction files generalizing analysis with
  | nil => rfl
  | cons file files ih => exact Report.result_bind_ok.mpr ⟨_, htext file, ih _⟩

/-- Distinct files are described in order, each by a text that does not depend on the others. -/
theorem describeAll_distinct (fs : FileSystem) : ∃ text : String → String,
    ∀ files : List String, files.Nodup →
      (describeAll fs [] files).result = .ok (files.map fun file => (file, text file)) := by
  obtain ⟨text, htext⟩ := Classical.axiomOfChoice (describe_ok fs)
  refine ⟨text, fun files hnodup => ?_⟩
  have hkeys : (Mapping.keys (files.map fun file => (file, text file))).Nodup := by
    simpa [Mapping.keys, Function.comp_def] using hnodup
  rw [describeAll_eq htext, ← Mapping.ofList_eq_self hkeys, Mapping.ofList, List.foldl_map]

def isDescribed (item : Item) : Bool := !isHiddenEntry item.text && !isDirectoryEntry item.text

theorem describedOf_map (items : List Item) :
    describedOf (items.map Item.text) = (items.filter isDescribed).map Item.text := by
  rw [describedOf, List.filter_filter, List.filter_map]
  rfl

end Collection

theorem Prompt.scopedBindings_filter {items : List Item} {text : String → String}
    {keeps : Item → Bool} {directory : Path}
    (h : ∀ item ∈ items, keeps item = false → scopedKey? directory item.text = none) :
    scopedBindings ((items.filter keeps).map fun item => (item.text, text item.text)) directory =
      scopedBindings (items.map fun item => (item.text, text item.text)) directory := by
  rw [scopedBindings, scopedBindings, List.filterMap_map, List.filterMap_map, List.filterMap_filter]
  refine List.filterMap_congr fun item hm => ?_
  cases hkeeps : keeps item with
  | true => simp
  | false => simp [h item hm hkeeps]

-- ---------------------------------------------------------------------------
-- Collections
-- ---------------------------------------------------------------------------

variable {fs : FileSystem} {root base top location : Location} {limit : Int}
  {collection : Collection} {items : List Item} {directories : List Path}

namespace Collected

theorem listed_of_selected (h : Collected fs root limit collection base top items)
    (hs : FirstLevel.select fs (Path.ofLocation root) collection.directories = .ok directories)
    (hm : Path.ofLocation location ∈ directories) : ⟨location, true⟩ ∈ items := by
  obtain ⟨⟨other, isDirectory⟩, hmem, hd, heq⟩ := h.item_of_selected hs hm
  obtain rfl : isDirectory = true := hd
  obtain rfl : location = other := congrArg Path.parts heq
  exact hmem

end Collected

theorem Transparent.isProtected_eq_false (h : Transparent fs root location) (hne : location ≠ [])
    (hroot : isProtected fs root = .ok false) : isProtected fs location = .ok false := by
  rcases hprotected : isProtected fs location with failure | _ | _
  · obtain ⟨-, hhome⟩ := Listing.isProtected_eq_error.mp hprotected
    have htop : root ≠ [] := by
      rintro rfl
      cases hroot.symm.trans (Listing.isProtected_eq_true.mpr (.inl rfl))
    cases hroot.symm.trans (Listing.isProtected_eq_error.mpr ⟨htop, hhome⟩)
  · rfl
  · exact ((Listing.isProtected_eq_true.mp hprotected).elim hne h.notHome).elim

theorem walkOf_ruleless (hparts : ∀ part ∈ location, Path.IsPart part)
    (hresolve : fs.resolve (Path.ofLocation location) = .ok location)
    (hdir : fs.isDirectory? (Path.ofLocation location) = .ok true)
    (hprotected : isProtected fs location = .ok false) (hrules : rulesOf fs location = .ok []) :
    WalkOf fs (Path.ofLocation location).toString (ruleless location) := by
  refine ⟨?_, hdir, hprotected, [], hrules, rfl⟩
  rw [Path.ofString_toString hparts]
  exact hresolve

theorem nodup_text {walk : Walk} (hfs : fs.IsTree)
    (hfind : fs.find (Path.ofLocation walk.base) = .ok (top, some .directory))
    (hparts : ∀ part ∈ walk.base, Path.IsPart part) :
    ((itemsOf (walk.visits fs true)).map Item.text).Nodup := by
  have hsorted := (Listing.visits_ordered hfs walk true).sorted
  refine List.pairwise_map.mpr (hsorted.imp_of_mem fun {item other} hm hm' hprecedes heq => ?_)
  have hitem := (Listing.visits_entered hfs hfind item hm).1.ofString_text hparts
  have hother := (Listing.visits_entered hfs hfind other hm').1.ofString_text hparts
  rw [heq, hother] at hitem
  exact hprecedes.ne (congrArg Path.parts hitem).symm

theorem Collection.analysis_of_items {text : String → String} {place : String} {truncated : Bool}
    (htext : ∀ files : List String, files.Nodup →
      (describeAll fs [] files).result = .ok (files.map fun file => (file, text file)))
    (hlist : (Listing.list fs place true limit).result = .ok ⟨items.map Item.text, truncated⟩)
    (hnodup : (items.map Item.text).Nodup)
    (hcollect : (collect fs .walking place limit).result = .ok collection) :
    collection.analysis =
      (items.filter isDescribed).map fun item => (item.text, text item.text) := by
  obtain ⟨listing, hlist', -, hanalysis⟩ := list_of_collect hcollect
  cases hlist.symm.trans hlist'
  rw [describedOf_map, htext _ (hnodup.sublist (List.filter_sublist.map _)), List.map_map] at hanalysis
  exact (Except.ok.inj hanalysis).symm

theorem scopedKey?_of_not_below {item : Item} (hentered : Entered fs base top item)
    (hparts : ∀ part ∈ base, Path.IsPart part) (hdescribed : Collection.isDescribed item = true)
    (hout : liesBelow location item = false) :
    Prompt.scopedKey? (Path.ofLocation location) item.text = none := by
  have hfile : item.isDirectory = false := by
    rw [Collection.isDescribed, hentered.isDirectoryEntry_text hparts, Bool.and_eq_true,
      Bool.not_eq_true'] at hdescribed
    simpa using hdescribed.2
  rw [Item.text, if_neg (by simp [hfile])]
  refine Prompt.scopedKey?_eq_none (hentered.isPart hparts) fun hp => ?_
  by_contra hne
  obtain ⟨rest, hrest⟩ := hp
  have hrestne : rest ≠ [] := by
    rintro rfl
    exact hne (by simpa using hrest)
  have hin : liesBelow location item = true := by
    rw [liesBelow, ← hrest, List.dropLast_append_of_ne_nil hrestne, List.isPrefixOf_iff_prefix]
    exact List.prefix_append _ _
  rw [hin] at hout
  cases hout

namespace Collected

theorem nested_walks {name : String} (h : Collected fs root limit collection root root items)
    (ht : Transparent fs root (root ++ [name]))
    (hresolve : fs.resolve (Path.ofLocation (root ++ [name])) = .ok (root ++ [name]))
    (hitem : ⟨root ++ [name], true⟩ ∈ items) :
    WalkOf fs (Path.ofLocation root).toString (ruleless root) ∧
      WalkOf fs (Path.ofLocation (root ++ [name])).toString (ruleless (root ++ [name])) ∧
      Nested fs (ruleless root) (ruleless (root ++ [name])) ∧
      ⟨root ++ [name], true⟩ ∈ itemsOf ((ruleless root).visits fs true) := by
  have hfs := ht.isTree
  have hentered := h.entered hfs _ hitem
  have hfind := (hentered.find_child hfs).2.2
  have hdir := isDirectory?_eq_true.mpr ⟨h.hasNull, root, h.find⟩
  have hlists := h.lists
  cases hlists with
  | refused _ => simp at hitem
  | walked rules hprotected hread =>
    have hrules := Listing.rulesOf_eq_nil hfs h.find
      (Listing.searchable_of_rulesOf hfs hdir h.find hread) ht.free
    cases hread.symm.trans hrules
    refine ⟨?_, ?_, ?_, List.mem_of_mem_take hitem⟩
    · exact walkOf_ruleless h.isPart h.resolve hdir hprotected hrules
    · exact walkOf_ruleless (hentered.isPart h.isPart) hresolve
        (hentered.isDirectory? rfl h.hasNull h.find)
        (ht.isProtected_eq_false (by simp) hprotected)
        (Listing.rulesOf_eq_nil hfs hfind ht.searchable ht.free')
    · exact ⟨hfs, ⟨name, rfl⟩, h.find, ht.linkless, ht.readable, fun _ => rfl, fun _ => rfl⟩

/-- What a collection tells within a first-level directory is what a collection of this directory
tells within it. -/
theorem scope_inner {name : String} {limit' : Int}
    (h : Collected fs root limit collection root root items)
    (ht : Transparent fs root (root ++ [name])) (hbase : AtBase fs root root)
    (hcollect : (Collection.collect fs .walking (Path.ofLocation root).toString limit).result =
      .ok collection)
    (hs : FirstLevel.select fs (Path.ofLocation root) collection.directories = .ok directories)
    (hm : Path.ofLocation (root ++ [name]) ∈ directories)
    (hwhole : ∀ listing, (Listing.list fs (Path.ofLocation root).toString true limit).result =
      .ok listing → listing.truncated = false)
    (hwhole' : ∀ listing, (Listing.list fs (Path.ofLocation (root ++ [name])).toString true
      limit').result = .ok listing → listing.truncated = false) :
    ∃ collection', (Collection.collect fs .walking (Path.ofLocation (root ++ [name])).toString
        limit').result = .ok collection' ∧
      Prompt.scope collection'.analysis (Path.ofLocation (root ++ [name])) =
        Prompt.scope collection.analysis (Path.ofLocation (root ++ [name])) := by
  have hfs := ht.isTree
  obtain ⟨-, other, hname, heq, hresolve⟩ := h.selected_child hfs hbase hs _ hm
  obtain rfl : name = other := by simpa [Path.ofLocation] using heq
  have hitem := h.listed_of_selected hs hm
  obtain ⟨houter, hinner, hnested, hlisted⟩ := h.nested_walks ht hresolve hitem
  obtain ⟨⟨entries, truncated⟩, hlist, -⟩ := Collection.list_of_collect hcollect
  obtain rfl : truncated = false := hwhole _ hlist
  obtain ⟨rfl, hlist'⟩ := hnested.list_eq houter hinner hlisted hlist hwhole'
  obtain ⟨collection', hcollect', -⟩ := Collection.collect_of_list hlist'
  refine ⟨collection', hcollect', ?_⟩
  obtain ⟨base', top', items', h'⟩ :=
    Collection.collect_ok hfs ((h.entered hfs _ hitem).isPart h.isPart) hcollect'
  cases hresolve.symm.trans h'.resolve
  rw [(h'.below hfs).scope_root, (h.below hfs).scope_child hname.isPart]
  -- Both mappings come from one list of items.
  obtain ⟨text, htext⟩ := Collection.describeAll_distinct fs
  have hnodup := @nodup_text fs root (ruleless root) hfs h.find h.isPart
  rw [Collection.analysis_of_items htext hlist hnodup hcollect,
    Collection.analysis_of_items htext hlist' (hnodup.sublist (List.filter_sublist.map _)) hcollect',
    List.filter_comm]
  refine Prompt.scopedBindings_filter fun item hm hout => ?_
  obtain ⟨hmem, hdescribed⟩ := List.mem_filter.mp hm
  exact scopedKey?_of_not_below (Listing.visits_entered hfs h.find item hmem).1 h.isPart
    hdescribed hout

end Collected

end TreeManifest
