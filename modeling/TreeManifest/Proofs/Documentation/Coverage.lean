import TreeManifest.Proofs.Documentation.Course
import TreeManifest.Proofs.Listing.Admission
import TreeManifest.Proofs.Listing.Order
import TreeManifest.Proofs.Listing.Survival

/-!
# Which directories get a manifest

The names directly in a base are listed before everything below (`exists_outermost`), so nothing
that lies deeper takes the place of a first-level directory: a run writes manifests for the root and
for the directories among the first of these names (`run_covers`). This needs a root that stands for
itself. A root that stands for another location than its own text has a manifest of its own only.
-/

namespace TreeManifest

namespace Listing

open FileSystem

variable {fs : FileSystem} {walk : Walk} {top : Location}

structure Outermost (fs : FileSystem) (walk : Walk) (top : Location)
    (entries : List (String × Bool)) : Prop where
  sorted : entries.Pairwise fun entry other => entry.1 < other.1
  mem_iff : ∀ name isDirectory,
    (name, isDirectory) ∈ entries ↔ Admissible fs walk top [] name isDirectory

def itemAt (base : Location) (entry : String × Bool) : Item := ⟨base ++ [entry.1], entry.2⟩

theorem exists_outermost (hfs : fs.IsTree) (hnull : fs.NullFree)
    (hbase : hasNull (Path.ofLocation walk.base) = false)
    (hfind : fs.find (Path.ofLocation walk.base) = .ok (top, some .directory))
    (hreadable : fs.namesAt (Path.ofLocation walk.base) ≠ .error .denied)
    (hs : top ∉ fs.unsearchable) :
    ∃ entries, Outermost fs walk top entries ∧
      itemsOf (walk.visitDirectory fs walk.base) = entries.map (itemAt walk.base) := by
  obtain ⟨hsorted, hchild⟩ := visitDirectory_sorted hfs walk walk.base
  have hmem := fun item =>
    @item_mem_reached fs walk top [] item hfs hnull hbase (reached_base hfind)
  simp only [List.append_nil] at hmem
  generalize hitems : itemsOf (walk.visitDirectory fs walk.base) = items at hsorted hchild
  -- Items directly in the base are told by their names.
  let entryOf (item : Item) : String × Bool :=
    ((Path.ofLocation item.location).name, item.isDirectory)
  have hentry : ∀ item ∈ items, itemAt walk.base (entryOf item) = item := by
    intro item hm
    obtain ⟨name, hlocation⟩ := hchild item hm
    obtain ⟨location, isDirectory⟩ := item
    obtain rfl : location = walk.base ++ [name] := hlocation
    simp [itemAt, entryOf, name_ofLocation_concat]
  refine ⟨items.map entryOf, ⟨?_, fun name isDirectory => ?_⟩, ?_⟩
  · refine List.pairwise_map.mpr (hsorted.imp_of_mem ?_)
    intro item other hm hm' hprecedes
    rw [← hentry item hm, ← hentry other hm', itemAt, itemAt, precedes_append] at hprecedes
    rcases hprecedes with hlt | ⟨-, hlt⟩
    · exact absurd hlt (by simp)
    · simpa [List.cons_lt_cons_iff] using hlt
  · have hitem : (name, isDirectory) ∈ items.map entryOf ↔
        itemAt walk.base (name, isDirectory) ∈ items := by
      constructor
      · intro hm
        obtain ⟨item, hm, heq⟩ := List.mem_map.mp hm
        rwa [← heq, hentry item hm]
      · intro hm
        refine List.mem_map.mpr ⟨_, hm, ?_⟩
        simp [entryOf, itemAt, name_ofLocation_concat]
    rw [hitem, ← hitems, mem_itemsOf, hmem]
    simp [itemAt, hreadable, hs]
  · rw [List.map_map]
    exact ((List.map_congr_left hentry).trans (List.map_id _)).symm

end Listing

open FileSystem (IsTree present_of_isDirectoryAt)
open Listing (itemAt)

variable {fs : FileSystem} {root top : Location} {limit : Int} {collection : Collection}
  {items deeper : List Item} {entries : List (String × Bool)} {directories : List Path}

theorem isCandidate_iff {location : Location} :
    FirstLevel.isCandidate (Path.ofLocation root) (Path.ofLocation location) = true ↔
      location.dropLast = root ∧ Path.isHiddenName (Path.ofLocation location).name = false := by
  simp [FirstLevel.isCandidate, Path.parent, Path.ofLocation]

theorem not_isCandidate_of_length {location : Location} (hlt : root.length + 1 < location.length) :
    FirstLevel.isCandidate (Path.ofLocation root) (Path.ofLocation location) ≠ true := by
  intro hcandidate
  have hlength := congrArg List.length (isCandidate_iff.mp hcandidate).1
  rw [List.length_dropLast] at hlength
  omega

theorem filter_isCandidate (hshown : ∀ entry ∈ entries, entry.2 = true →
      Path.isHiddenName entry.1 = false)
    (hdeeper : ∀ item ∈ deeper, root.length + 1 < item.location.length) :
    ((((entries.map (itemAt root) ++ deeper).filter (·.isDirectory)).map (·.location)).map
        Path.ofLocation).filter (FirstLevel.isCandidate (Path.ofLocation root)) =
      (entries.filter (·.2)).map fun entry => Path.ofLocation (root ++ [entry.1]) := by
  induction entries with
  | nil =>
    refine List.filter_eq_nil_iff.mpr fun p hm => ?_
    obtain ⟨location, hlocation, rfl⟩ := List.mem_map.mp hm
    obtain ⟨item, hitem, rfl⟩ := List.mem_map.mp hlocation
    exact not_isCandidate_of_length (hdeeper item (List.mem_of_mem_filter hitem))
  | cons entry rest ih =>
    obtain ⟨hfirst, hrest⟩ := List.forall_mem_cons.mp hshown
    obtain ⟨name, isDirectory⟩ := entry
    cases isDirectory with
    | false => simpa [itemAt] using ih hrest
    | true =>
      have hcandidate : FirstLevel.isCandidate (Path.ofLocation root)
          (Path.ofLocation (root ++ [name])) = true :=
        isCandidate_iff.mpr ⟨by simp, by simpa [Listing.name_ofLocation_concat] using hfirst rfl⟩
      simpa [itemAt, hcandidate] using ih hrest

theorem Collected.resolve_itemAt {name : String}
    (h : Collected fs root limit collection root top items) (hfs : fs.IsTree)
    (hbase : Collected.AtBase fs root root) (hm : itemAt root (name, true) ∈ items) :
    Path.isHiddenName name = false ∧
      fs.resolve (Path.ofLocation (root ++ [name])) = .ok (root ++ [name]) := by
  obtain ⟨-, hshown, hfind⟩ := (h.entered hfs _ hm).find_child hfs
  obtain ⟨location, -, hresolve⟩ := h.resolve_directory hfs hm rfl
  obtain rfl := FileSystem.resolve_eq_find hresolve hfind
  rw [h.top_eq hfs hbase] at hresolve
  exact ⟨hshown, hresolve⟩

theorem Collected.resolve_candidate (h : Collected fs root limit collection root top items)
    (hfs : fs.IsTree) (hbase : Collected.AtBase fs root root)
    (hitems : items = entries.map (itemAt root) ++ deeper)
    (hdeeper : ∀ item ∈ deeper, root.length + 1 < item.location.length) :
    ∀ location ∈ (items.filter (·.isDirectory)).map (·.location),
      FirstLevel.isCandidate (Path.ofLocation root) (Path.ofLocation location) = true →
        fs.resolve (Path.ofLocation location) = .ok location ∧ location ∉ [root] := by
  intro location hm hcandidate
  obtain ⟨⟨_, isDirectory⟩, hitem, rfl⟩ := List.mem_map.mp hm
  obtain ⟨hmem, hd⟩ := List.mem_filter.mp hitem
  obtain rfl : isDirectory = true := hd
  rw [hitems] at hmem
  rcases List.mem_append.mp hmem with hfirst | hfar
  · obtain ⟨⟨name, isDirectory⟩, -, heq⟩ := List.mem_map.mp hfirst
    cases heq
    exact ⟨(h.resolve_itemAt hfs hbase (hitems ▸ hmem)).2, by simp⟩
  · exact absurd hcandidate (not_isCandidate_of_length (hdeeper _ hfar))

/-- The selected directories are those among the first names in the root. -/
theorem Collected.selected_outermost (h : Collected fs root limit collection root top items)
    (hfs : fs.IsTree) (hbase : Collected.AtBase fs root root)
    (hitems : items = entries.map (itemAt root) ++ deeper)
    (hdeeper : ∀ item ∈ deeper, root.length + 1 < item.location.length)
    (hnodup : (items.map (·.location)).Nodup)
    (hs : FirstLevel.select fs (Path.ofLocation root) collection.directories = .ok directories) :
    directories = (entries.filter (·.2)).map fun entry => Path.ofLocation (root ++ [entry.1]) := by
  have hlisted : collection.directories.map Path.ofString =
      ((items.filter (·.isDirectory)).map (·.location)).map Path.ofLocation := by
    rw [h.directories, List.map_map]
    rfl
  have hdistinct : ((items.filter (·.isDirectory)).map (·.location)).Nodup :=
    hnodup.sublist (List.filter_sublist.map _)
  have hown := h.resolve_candidate hfs hbase hitems hdeeper
  obtain ⟨location, hroot, hselect⟩ := FirstLevel.select_eq_ok.mp hs
  rw [h.resolve, Except.ok.injEq] at hroot
  subst hroot
  rw [hlisted, FirstLevel.selectNew_own hdistinct hown, Except.ok.injEq, hitems] at hselect
  rw [← hselect]
  refine filter_isCandidate ?_ hdeeper
  rintro ⟨name, _⟩ hm rfl
  refine (h.resolve_itemAt hfs hbase ?_).1
  rw [hitems]
  exact List.mem_append_left _ (List.mem_map.mpr ⟨_, hm, rfl⟩)

namespace Documentation

open Listing (Outermost Unprotected Walk itemsOf rulesOf)

def manifestOf (plan : Plan) (directory : Path) : String :=
  (directory.child plan.manifestName).toString

/-- Manifests for a root and for the directories among the first of its `entries`, which are all
names that are listed directly in it. -/
structure Covers (plan : Plan) (fs : FileSystem) (root : Location) (entries : List (String × Bool))
    (manifests : List String) : Prop where
  outermost : ∃ rules, rulesOf fs root = .ok rules ∧ Outermost fs ⟨root, rules.ignores⟩ root entries
  eq : manifests = (Path.ofLocation root ::
    ((entries.take plan.maxListed.toNat).filter (·.2)).map fun entry =>
      Path.ofLocation (root ++ [entry.1])).map (manifestOf plan)
  complete : entries.length ≤ plan.maxListed.toNat → ∀ entry ∈ entries, entry.2 = true →
    manifestOf plan (Path.ofLocation (root ++ [entry.1])) ∈ manifests

/-- A root that the system finds by its path stands for itself. -/
theorem root_eq_of_find {text : String} {q : Path} {base : Location}
    {result : Location × Option Entry} (hfs : fs.IsTree)
    (hlocate : fs.locate (Path.ofString text) = .ok root)
    (hq : fs.expandHome (Path.ofString text) = .ok q) (hfind : fs.find q = .ok result)
    (hbase : Collected.AtBase fs root base) : root = base := by
  obtain ⟨location, entry⟩ := result
  have hresolve : fs.resolve q = .ok root := by
    simpa [FileSystem.locate, hq, bind, Except.bind] using hlocate
  obtain rfl := FileSystem.resolve_eq_find hresolve hfind
  obtain ⟨rfl, hpresent | ⟨hfree, directory, name, rfl, hd, hs, -, hsought⟩⟩ := hfs.find_ok hfind
  · exact (congrArg Prod.fst (hfs.eq_of_find_ofLocation hpresent hbase)).symm
  · -- A free name is no directory.
    obtain ⟨there, habove, -⟩ := @IsTree.find_append fs hfs (Path.ofLocation directory) name [] _ hbase
    obtain ⟨rfl, -⟩ := Prod.mk.injEq .. ▸
      hfs.eq_of_find_ofLocation (present_of_isDirectoryAt hd) habove
    have hself := hfs.find_child habove hs hsought (by simp [hfree])
    rw [hfree] at hself
    cases hself.symm.trans hbase

theorem covers_selected {plan : Plan} (hfs : fs.IsTree) (hnull : fs.NullFree)
    (hunprotected : Listing.isProtected fs root ≠ .ok true)
    (hcollect : (Collection.collect fs .walking (Path.ofLocation root).toString
      plan.maxListed).result = .ok collection)
    (h : Collected fs root plan.maxListed collection root root items)
    (hselect : FirstLevel.select fs (Path.ofLocation root) collection.directories = .ok directories)
    (hbase : Collected.AtBase fs root root) :
    ∃ entries, Covers plan fs root entries
      ((Path.ofLocation root :: directories).map (manifestOf plan)) := by
  have hlists := h.lists
  cases hlists with
  | refused hprotected => exact absurd hprotected hunprotected
  | walked rules hprotected hrules =>
    have hwalk : Listing.WalkOf fs (Path.ofLocation root).toString ⟨root, rules.ignores⟩ := by
      refine ⟨?_, FileSystem.isDirectory?_eq_true.mpr ⟨h.hasNull, root, h.find⟩, hprotected, rules,
        hrules, rfl⟩
      rw [Path.ofString_toString h.isPart]
      exact h.resolve
    obtain ⟨listing, hlist, -⟩ := Collection.list_of_collect hcollect
    rw [hwalk.list_result] at hlist
    obtain ⟨entries, houtermost, hfirst⟩ := @Listing.exists_outermost fs ⟨root, rules.ignores⟩ root
      hfs hnull h.hasNull h.find (Listing.readable_of_cut hlist)
      (Listing.searchable_of_rulesOf hfs hwalk.isDirectory h.find hrules)
    obtain ⟨deeper, hvisits, hdeeper⟩ := Listing.itemsOf_visits hfs ⟨root, rules.ignores⟩
    have hdistinct := (Listing.visits_ordered hfs ⟨root, rules.ignores⟩ true).take
      plan.maxListed.toNat
    have hitems : (itemsOf (Walk.visits fs ⟨root, rules.ignores⟩ true)).take plan.maxListed.toNat =
        (entries.take plan.maxListed.toNat).map (itemAt root) ++
          deeper.take (plan.maxListed.toNat - entries.length) := by
      rw [hvisits, hfirst, List.take_append, List.length_map, List.map_take]
    -- What lies deeper comes after all of them, and nothing of it is selected.
    have hselected := h.selected_outermost hfs hbase hitems
      (fun item hm => hdeeper item (List.mem_of_mem_take hm))
      (List.pairwise_map.mpr (hdistinct.sorted.imp Listing.Precedes.ne)) hselect
    refine ⟨entries, ⟨rules, hrules, houtermost⟩, by rw [hselected], ?_⟩
    rw [hselected]
    intro hle entry hm hd
    refine List.mem_map_of_mem (List.mem_cons_of_mem _ (List.mem_map.mpr ⟨entry, ?_, rfl⟩))
    rw [List.take_of_length_le hle]
    exact List.mem_filter.mpr ⟨hm, hd⟩

/-- The manifests of a run belong to its root and to the directories among the first names that are
listed directly in it, as many as the limit allows, in the order of their names. What lies deeper
does not matter. This holds of every root that the system finds by its path. A root that is reached
through a loop of links may stand for another location than its text, and is then alone. -/
theorem run_covers {σ : Type} (plan : Plan) (client : Client σ) (text : String) (s s' : Session σ)
    (outcome : Outcome) (hlister : plan.lister = .walking)
    (hname : Setting.isBareName plan.manifestName = true) (hfs : s.fs.IsTree) (hnull : s.fs.NullFree)
    (hstart : s.manifests = []) (hroot : Unprotected s.fs text)
    (h : (run plan client text).run s = (.ok outcome, s')) :
    ∃ root base, s.fs.locate (Path.ofString text) = .ok root ∧
      s.fs.resolve (Path.ofLocation root) = .ok base ∧
      (∀ q result, s.fs.expandHome (Path.ofString text) = .ok q → s.fs.find q = .ok result →
        root = base) ∧
      (root = base → ∃ entries, Covers plan s.fs root entries outcome.manifests) ∧
      (root ≠ base → outcome.manifests = [manifestOf plan (Path.ofLocation root)]) := by
  obtain ⟨root, hlocate⟩ := locate_of_run_ok h
  have hsound := sound_of_locate hlister hname hfs hlocate
  obtain ⟨s₁, hall, -, rfl⟩ := run_ok hlocate h
  obtain ⟨collection, definitions, turns, hcourse⟩ := documentAll_ok hsound hall
  obtain ⟨base, top, items, hcollected, hbase⟩ := hcourse.exists_items hsound
  have hmanifests : (outcome plan (Path.ofLocation root) s₁).manifests =
      (Path.ofLocation root :: turns.map (·.directory)).map (manifestOf plan) := by
    rw [List.map_cons, List.map_map]
    exact hcourse.steps.manifests.trans (by rw [hstart]; rfl)
  refine ⟨root, base, hlocate, hcollected.resolve, ?_, ?_, ?_⟩
  · intro q result hq hfind
    exact root_eq_of_find hfs hlocate hq hfind hbase
  · rintro rfl
    obtain rfl := hcollected.top_eq hfs hbase
    have hunprotected := hroot.isProtected_ne hlocate
    rw [hmanifests]
    exact covers_selected hfs hnull hunprotected hcourse.collected hcollected hcourse.selected hbase
  · intro hne
    have hnone : turns.map (·.directory) = [] := by
      refine List.eq_nil_iff_forall_not_mem.mpr fun directory hm => hne ?_
      exact (hcollected.selected_child hfs hbase hcourse.selected directory hm).1
    rw [hmanifests, hnone]
    rfl

def loopedTree : FileSystem where
  entries := [(["w"], .directory), (["w", "d"], .directory), (["w", "d", "x"], .directory),
    (["w", "a"], .link "d"), (["w", "loop"], .link "loop")]
  working := ["w"]
  home := "/home"
  unreadable := []

theorem unprotected_loopedTree {text : String} {root : Location}
    (hlocate : loopedTree.locate (Path.ofString text) = .ok root) (hne : root ≠ [])
    (hhome : root ≠ ["home"]) : Unprotected loopedTree text := by
  intro base hbase
  have hfound : loopedTree.locate (Path.ofString "~") = .ok ["home"] := rfl
  cases hlocate.symm.trans hbase
  refine ⟨hne, fun heq => hhome ?_⟩
  exact Except.ok.inj (heq.symm.trans hfound)

/-- The subdirectory gets a manifest unless the root is named through the loop. -/
theorem run_covers_loopedTree :
    (∃ outcome s', (run smallPlan readyClient "/w/loop/../a").run (Session.start loopedTree 0) =
      (.ok outcome, s') ∧ outcome.manifests = ["/w/a/m.yaml"]) ∧
    ∃ outcome s', (run smallPlan readyClient "/w/a").run (Session.start loopedTree 0) =
      (.ok outcome, s') ∧ outcome.manifests = ["/w/d/m.yaml", "/w/d/x/m.yaml"] ∧
        ∃ entries, Covers smallPlan loopedTree ["w", "d"] entries outcome.manifests := by
  constructor
  · have hok : ((run smallPlan readyClient "/w/loop/../a").run
        (Session.start loopedTree 0)).1.toOption.isSome = true := by decide +kernel
    obtain ⟨outcome, s', h⟩ := Run.exists_run_ok hok
    have hlocate : loopedTree.locate (Path.ofString "/w/loop/../a") = .ok ["w", "a"] := by rfl
    have hresolve : loopedTree.resolve (Path.ofLocation ["w", "a"]) = .ok ["w", "d"] := by rfl
    obtain ⟨root, base, hroot, hbase, -, -, halone⟩ := run_covers smallPlan readyClient
      "/w/loop/../a" (Session.start loopedTree 0) s' outcome rfl (by decide) (by decide) (by decide)
      rfl (unprotected_loopedTree hlocate (by decide) (by decide)) h
    cases hlocate.symm.trans hroot
    cases hresolve.symm.trans hbase
    exact ⟨outcome, s', h, halone (by decide)⟩
  · have hok : ((run smallPlan readyClient "/w/a").run
        (Session.start loopedTree 0)).1.toOption.map (·.manifests) =
          some ["/w/d/m.yaml", "/w/d/x/m.yaml"] := by decide +kernel
    obtain ⟨outcome, s', h, hmanifests⟩ := Run.exists_run_ok_of_map hok
    have hlocate : loopedTree.locate (Path.ofString "/w/a") = .ok ["w", "d"] := by rfl
    have hresolve : loopedTree.resolve (Path.ofLocation ["w", "d"]) = .ok ["w", "d"] := by rfl
    obtain ⟨root, base, hroot, hbase, -, hcovers, -⟩ := run_covers smallPlan readyClient
      "/w/a" (Session.start loopedTree 0) s' outcome rfl (by decide) (by decide) (by decide) rfl
      (unprotected_loopedTree hlocate (by decide) (by decide)) h
    cases hlocate.symm.trans hroot
    cases hresolve.symm.trans hbase
    exact ⟨outcome, s', h, hmanifests, hcovers rfl⟩

end Documentation

end TreeManifest
