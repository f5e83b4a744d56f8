import TreeManifest.Proofs.FileSystem.Extends
import TreeManifest.Proofs.Listing.Limit

/-!
# The order of a listing

Names are sorted in each directory, and directories are visited in the order in which they were
listed. So a level that is sorted lists a sorted level (`IsLevel.next`), and the levels follow one
another: the items of a walk are sorted by depth and then by names (`visitLevels_sorted`). Every
directory is listed before what lies in it (`list_ordered`).
-/

namespace TreeManifest.Listing

open FileSystem

variable {fs : FileSystem} {walk : Walk} {directory : Location} {directories : List Location}

def Precedes (location other : Location) : Prop :=
  location.length < other.length ∨ location.length = other.length ∧ location < other

theorem Precedes.length_le {location other : Location} (h : Precedes location other) :
    location.length ≤ other.length :=
  h.elim Nat.le_of_lt fun h => h.1.le

theorem Precedes.ne {location other : Location} (h : Precedes location other) :
    location ≠ other := by
  rintro rfl
  rcases h with hlt | ⟨-, hlt⟩
  · exact Nat.lt_irrefl _ hlt
  · exact List.lt_irrefl location hlt

theorem precedes_append (base : Location) {below other : List String} :
    Precedes (base ++ below) (base ++ other) ↔ Precedes below other := by
  have hlt : base ++ below < base ++ other ↔ below < other := by
    induction base with
    | nil => simp
    | cons name base ih => simp [ih]
  simp [Precedes, hlt]

theorem append_lt_append {location other : Location} (hlength : location.length = other.length)
    (h : location < other) (more others : List String) : location ++ more < other ++ others := by
  induction location generalizing other with
  | nil => simp_all [List.length_eq_zero_iff.mp hlength.symm]
  | cons name location ih =>
    cases other with
    | nil => cases hlength
    | cons last other =>
      simp only [List.cons_append, List.cons_lt_cons_iff] at h ⊢
      exact h.imp_right fun ⟨hname, hrest⟩ => ⟨hname, ih (Nat.succ.inj hlength) hrest⟩

-- ---------------------------------------------------------------------------
-- One directory
-- ---------------------------------------------------------------------------

theorem sorted_names (hfs : fs.IsTree) (directory : Location) :
    (fs.names directory).Pairwise (· < ·) := by
  have hle : (fs.names directory).Pairwise (· ≤ ·) := pairwise_sortNames _
  exact (hle.and (hfs.nodup_names directory)).imp fun ⟨h, hne⟩ => Std.lt_of_le_of_ne h hne

theorem itemsOf_visitDirectory {names : List String}
    (h : fs.namesAt (Path.ofLocation directory) = .ok names) :
    itemsOf (walk.visitDirectory fs directory) =
      names.filterMap fun name => (walk.admit? fs (directory ++ [name])).toOption.join := by
  simp only [itemsOf, Walk.visitDirectory, h, List.filterMap_filterMap]
  refine List.filterMap_congr fun name _ => ?_
  rcases walk.admit? fs (directory ++ [name]) with failure | _ | item <;> rfl

theorem location_of_admitted {name : String} {item : Item}
    (h : (walk.admit? fs (directory ++ [name])).toOption.join = some item) :
    item.location = directory ++ [name] := by
  rcases hadmits : walk.admit? fs (directory ++ [name]) with failure | _ | other
  · simp [hadmits, Except.toOption] at h
  · simp [hadmits, Except.toOption] at h
  · simp only [hadmits, Except.toOption, Option.join_some, Option.some.injEq] at h
    exact h ▸ (admit?_some hadmits).1

theorem visitDirectory_sorted (hfs : fs.IsTree) (walk : Walk) (directory : Location) :
    (itemsOf (walk.visitDirectory fs directory)).Pairwise
        (fun item other => Precedes item.location other.location) ∧
      ∀ item ∈ itemsOf (walk.visitDirectory fs directory),
        ∃ name, item.location = directory ++ [name] := by
  rcases hnames : fs.namesAt (Path.ofLocation directory) with e | names
  · simp only [Walk.visitDirectory, hnames]
    split <;> simp [itemsOf]
  rw [itemsOf_visitDirectory hnames]
  obtain ⟨top, -, -, rfl⟩ := namesAt_eq_ok.mp hnames
  constructor
  · refine (sorted_names hfs top).filterMap _ ?_
    intro name other hlt item hitem item' hitem'
    rw [location_of_admitted hitem, location_of_admitted hitem', precedes_append]
    exact .inr ⟨rfl, List.cons_lt_cons_iff.mpr (.inl hlt)⟩
  · intro item hm
    obtain ⟨name, -, hitem⟩ := List.mem_filterMap.mp hm
    exact ⟨name, location_of_admitted hitem⟩

-- ---------------------------------------------------------------------------
-- All levels
-- ---------------------------------------------------------------------------

structure IsLevel (depth : Nat) (directories : List Location) : Prop where
  length : ∀ directory ∈ directories, directory.length = depth
  sorted : directories.Pairwise Precedes

theorem isLevel_base (base : Location) : IsLevel base.length [base] :=
  ⟨by simp, List.pairwise_singleton _ _⟩

theorem directoriesOf_eq (visits : List Visit) :
    directoriesOf visits = ((itemsOf visits).filter (·.isDirectory)).map (·.location) := by
  simp only [directoriesOf, itemsOf, List.filter_filterMap, List.map_filterMap]
  refine List.filterMap_congr fun visit _ => ?_
  rcases visit with ⟨location, _ | _⟩ | directory | failure <;> rfl

theorem IsLevel.items (hfs : fs.IsTree) {depth : Nat} (h : IsLevel depth directories) :
    (itemsOf (directories.flatMap (walk.visitDirectory fs))).Pairwise
        (fun item other => Precedes item.location other.location) ∧
      ∀ item ∈ itemsOf (directories.flatMap (walk.visitDirectory fs)),
        item.location.length = depth + 1 ∧ item.location.dropLast ∈ directories := by
  have heq : itemsOf (directories.flatMap (walk.visitDirectory fs)) =
      directories.flatMap fun directory => itemsOf (walk.visitDirectory fs directory) :=
    List.filterMap_flatMap
  have hchild := fun directory => (visitDirectory_sorted hfs walk directory).2
  rw [heq]
  constructor
  · refine List.pairwise_flatMap.mpr ⟨fun directory _ => ?_, ?_⟩
    · exact (visitDirectory_sorted hfs walk directory).1
    · refine (h.sorted.imp_of_mem fun {directory other} hm hm' hprecedes => ?_)
      intro item hitem item' hitem'
      obtain ⟨name, hlocation⟩ := hchild directory item hitem
      obtain ⟨name', hlocation'⟩ := hchild other item' hitem'
      have hlength : directory.length = other.length := (h.length _ hm).trans (h.length _ hm').symm
      have hlt : directory < other := (hprecedes.resolve_left (by omega)).2
      rw [hlocation, hlocation']
      exact .inr ⟨by simp [hlength], append_lt_append hlength hlt _ _⟩
  · intro item hm
    obtain ⟨directory, hdirectory, hitem⟩ := List.mem_flatMap.mp hm
    obtain ⟨name, hlocation⟩ := hchild directory item hitem
    simp [hlocation, h.length directory hdirectory, hdirectory]

theorem IsLevel.next (hfs : fs.IsTree) {depth : Nat} (h : IsLevel depth directories) :
    IsLevel (depth + 1) (directoriesOf (directories.flatMap (walk.visitDirectory fs))) := by
  obtain ⟨hsorted, hlength⟩ := @IsLevel.items fs walk directories hfs depth h
  rw [directoriesOf_eq]
  constructor
  · intro directory hm
    obtain ⟨item, hitem, rfl⟩ := List.mem_map.mp hm
    exact (hlength item (List.mem_of_mem_filter hitem)).1
  · exact (hsorted.filter _).map _ fun _ _ hprecedes => hprecedes

/-- The items of a walk are in order, and each lies in a directory from which the walk goes on or
in one that is listed. -/
theorem visitLevels_sorted (hfs : fs.IsTree) {levels depth : Nat} (h : IsLevel depth directories) :
    (itemsOf (walk.visitLevels fs levels directories)).Pairwise
        (fun item other => Precedes item.location other.location) ∧
      ∀ item ∈ itemsOf (walk.visitLevels fs levels directories),
        depth < item.location.length ∧ (item.location.dropLast ∈ directories ∨
          ⟨item.location.dropLast, true⟩ ∈ itemsOf (walk.visitLevels fs levels directories)) := by
  induction levels generalizing depth directories with
  | zero => simp [Walk.visitLevels, itemsOf]
  | succ levels ih =>
    obtain ⟨hfirst, hparent⟩ := @IsLevel.items fs walk directories hfs depth h
    obtain ⟨hrest, hparents⟩ := ih (h.next hfs)
    rw [visitLevels_succ, itemsOf_append]
    constructor
    · refine List.pairwise_append.mpr ⟨hfirst, hrest, fun item hm other hm' => .inl ?_⟩
      have hitem := (hparent item hm).1
      have hother := (hparents other hm').1
      omega
    · intro item hm
      rcases List.mem_append.mp hm with hm | hm
      · obtain ⟨hlength, hdirectory⟩ := hparent item hm
        exact ⟨by omega, .inl hdirectory⟩
      · obtain ⟨hlength, hdirectory | hdirectory⟩ := hparents item hm
        · refine ⟨by omega, .inr (List.mem_append_left _ ?_)⟩
          exact mem_itemsOf.mpr (mem_directoriesOf.mp hdirectory)
        · exact ⟨by omega, .inr (List.mem_append_right _ hdirectory)⟩

-- ---------------------------------------------------------------------------
-- Listings
-- ---------------------------------------------------------------------------

/-- Items in strict order, each directly in the base or in a directory that comes before it. -/
structure Ordered (base : Location) (items : List Item) : Prop where
  sorted : items.Pairwise fun item other => Precedes item.location other.location
  parent : ∀ front item rest, items = front ++ item :: rest →
    item.location.dropLast = base ∨ ⟨item.location.dropLast, true⟩ ∈ front

theorem mem_front {items front rest : List Item} {item other : Item}
    (hsorted : items.Pairwise fun item other => Precedes item.location other.location)
    (hitems : items = front ++ item :: rest) (hm : other ∈ items)
    (hlt : other.location.length < item.location.length) : other ∈ front := by
  subst hitems
  rcases List.mem_append.mp hm with hm | hm
  · exact hm
  rcases List.mem_cons.mp hm with rfl | hm
  · exact absurd hlt (Nat.lt_irrefl _)
  · have hrest := (List.pairwise_append.mp hsorted).2.1
    have hle := (List.rel_of_pairwise_cons hrest hm).length_le
    omega

theorem visits_ordered (hfs : fs.IsTree) (walk : Walk) (recursive : Bool) :
    Ordered walk.base (itemsOf (walk.visits fs recursive)) := by
  unfold Walk.visits
  obtain ⟨hsorted, hparent⟩ := visitLevels_sorted hfs (isLevel_base walk.base)
  refine ⟨hsorted, ?_⟩
  intro front item rest hitems
  obtain ⟨hlength, hdirectory | hlisted⟩ := hparent item (hitems ▸ by simp)
  · exact .inl (List.mem_singleton.mp hdirectory)
  · refine .inr (mem_front hsorted hitems hlisted ?_)
    simp only [List.length_dropLast]
    omega

theorem Ordered.take {base : Location} {items : List Item} (h : Ordered base items) (limit : Nat) :
    Ordered base (items.take limit) := by
  refine ⟨h.sorted.sublist (List.take_sublist _ _), ?_⟩
  intro front item rest hitems
  refine h.parent front item (rest ++ items.drop limit) ?_
  have hsplit := List.take_append_drop limit items
  simpa [hitems] using hsplit.symm

theorem itemsOf_visits (hfs : fs.IsTree) (walk : Walk) :
    ∃ deeper, itemsOf (walk.visits fs true) =
        itemsOf (walk.visitDirectory fs walk.base) ++ deeper ∧
      ∀ item ∈ deeper, walk.base.length + 1 < item.location.length := by
  unfold Walk.visits
  rw [if_pos rfl, maxLevels, visitLevels_succ, itemsOf_append, List.flatMap_singleton]
  refine ⟨_, rfl, fun item hm => ?_⟩
  have hnext := @IsLevel.next fs walk [walk.base] hfs _ (isLevel_base walk.base)
  rw [List.flatMap_singleton] at hnext
  exact ((visitLevels_sorted hfs hnext).2 item hm).1

theorem visits_entered {recursive : Bool} {top : Location} (hfs : fs.IsTree)
    (hfind : fs.find (Path.ofLocation walk.base) = .ok (top, some .directory)) :
    ∀ item ∈ itemsOf (walk.visits fs recursive), Entered fs walk.base top item ∧
      ∃ below, below ≠ [] ∧ item.location = walk.base ++ below := by
  intro item hm
  obtain ⟨below, name, hlisted, -⟩ :=
    visitLevels_item hfs (allReached_base hfind) (mem_itemsOf.mp hm)
  exact ⟨.listed rfl hlisted, below ++ [name], by simp, hlisted.location⟩

/-- Entries in strict order, by the number of names below the base and then name by name. No path is
among them twice, and what an entry lies in is the base, or a directory before it. -/
structure OrderedEntries (base : Location) (entries : List String) : Prop where
  sorted : ∃ belows : List Location,
    entries.map Path.ofString = belows.map (fun below => Path.ofLocation (base ++ below)) ∧
      [] ∉ belows ∧ belows.Pairwise Precedes
  nodup : (entries.map Path.ofString).Nodup
  parent : ∀ front entry rest, entries = front ++ entry :: rest →
    (Path.ofString entry).parent = Path.ofLocation base ∨
      ∃ outer ∈ front, Collection.isDirectoryEntry outer = true ∧
        Path.ofString outer = (Path.ofString entry).parent

theorem OrderedEntries.of_items {base : Location} {items : List Item} (h : Ordered base items)
    (hpath : ∀ item ∈ items, Path.ofString item.text = Path.ofLocation item.location)
    (hbelow : ∀ item ∈ items, ∃ below, below ≠ [] ∧ item.location = base ++ below)
    (hdirectory : ∀ item ∈ items, item.isDirectory = true →
      Collection.isDirectoryEntry item.text = true) :
    OrderedEntries base (items.map Item.text) := by
  have hdrop : ∀ item ∈ items, base ++ item.location.drop base.length = item.location := by
    intro item hm
    obtain ⟨below, -, hlocation⟩ := hbelow item hm
    simp [hlocation]
  have hpaths : (items.map Item.text).map Path.ofString =
      (items.map fun item => item.location.drop base.length).map
        fun below => Path.ofLocation (base ++ below) := by
    rw [List.map_map, List.map_map]
    refine List.map_congr_left fun item hm => ?_
    simp only [Function.comp_apply, hpath item hm, hdrop item hm]
  -- The items are sorted by whole locations. The base in front of all of them does not count.
  have hsorted : (items.map fun item => item.location.drop base.length).Pairwise Precedes := by
    refine List.pairwise_map.mpr (h.sorted.imp_of_mem ?_)
    intro item other hm hm' hprecedes
    rwa [← hdrop item hm, ← hdrop other hm', precedes_append] at hprecedes
  refine ⟨⟨_, hpaths, ?_, hsorted⟩, ?_, ?_⟩
  · intro hm
    obtain ⟨item, hitem, hempty⟩ := List.mem_map.mp hm
    obtain ⟨below, hne, hlocation⟩ := hbelow item hitem
    simp [hlocation, hne] at hempty
  · rw [hpaths]
    refine (hsorted.imp Precedes.ne).map _ ?_
    intro below other hne heq
    exact hne (List.append_cancel_left (congrArg Path.parts heq))
  · intro front entry rest heq
    obtain ⟨before, after, rfl, rfl, hafter⟩ := List.map_eq_append_iff.mp heq
    obtain ⟨item, more, rfl, rfl, -⟩ := List.map_eq_cons_iff.mp hafter
    rw [hpath item (by simp)]
    rcases h.parent before item more rfl with hbase | hlisted
    · exact .inl (hbase ▸ rfl)
    · have hmem := List.mem_append_left (item :: more) hlisted
      exact .inr ⟨_, List.mem_map_of_mem hlisted, hdirectory _ hmem rfl, hpath _ hmem⟩

theorem orderedEntries_of_cut {top : Location} {recursive : Bool} {limit : Nat} {listing : Listing}
    (hfs : fs.IsTree) (hparts : ∀ part ∈ walk.base, Path.IsPart part)
    (hfind : fs.find (Path.ofLocation walk.base) = .ok (top, some .directory))
    (h : (cut limit (walk.visits fs recursive)).result = .ok listing) :
    OrderedEntries walk.base listing.entries := by
  have hentered := fun item (hm : item ∈ (itemsOf (walk.visits fs recursive)).take limit) =>
    visits_entered hfs hfind item (List.mem_of_mem_take hm)
  rw [cut_ok h]
  refine .of_items ((visits_ordered hfs walk recursive).take limit) ?_ ?_ ?_
  · exact fun item hm => (hentered item hm).1.ofString_text hparts
  · exact fun item hm => (hentered item hm).2
  · intro item hm hdirectory
    obtain ⟨location, isDirectory⟩ := item
    cases hdirectory
    exact (hentered _ hm).1.isDirectoryEntry_text hparts

/-- Whatever the limit, the entries of a listing are in order below its base, and they would be so
with any other choice of ignored paths. -/
theorem list_ordered (fs : FileSystem) (root : String) (recursive : Bool) (limit : Int)
    (listing : Listing) (hfs : fs.IsTree) (hroot : Unprotected fs root)
    (hlist : (list fs root recursive limit).result = .ok listing) :
    ∃ base, fs.locate (Path.ofString root) = .ok base ∧ OrderedEntries base listing.entries ∧
      ∀ (ignores : String → Bool) (bound : Nat) (other : Listing),
        (cut bound (Walk.visits fs ⟨base, ignores⟩ recursive)).result = .ok other →
          OrderedEntries base other.entries := by
  obtain ⟨walk, hwalk⟩ := exists_walkOf_of_list hroot hlist
  obtain ⟨-, top, hfind⟩ := isDirectory?_eq_true.mp hwalk.isDirectory
  have hparts := hfs.locate_parts hwalk.locate
  rw [hwalk.list_result] at hlist
  refine ⟨walk.base, hwalk.locate, orderedEntries_of_cut hfs hparts hfind hlist, ?_⟩
  intro ignores bound other hother
  exact @orderedEntries_of_cut fs ⟨walk.base, ignores⟩ top recursive bound other hfs hparts hfind
    hother

theorem list_ordered_mixedTree : ∃ base, mixedTree.locate (Path.ofString "/w") = .ok base ∧
    OrderedEntries base ["/w/.gitignore", "/w/a/", "/w/inside", "/w/locked/", "/w/z"] := by
  have hlist : (list mixedTree "/w" true 5).result =
      .ok ⟨["/w/.gitignore", "/w/a/", "/w/inside", "/w/locked/", "/w/z"], true⟩ :=
    eq_ok_of_toOption (by decide +kernel)
  obtain ⟨base, hlocate, horder, -⟩ := list_ordered mixedTree "/w" true 5 _ (by decide)
    unprotected_mixedTree hlist
  exact ⟨base, hlocate, horder⟩

end TreeManifest.Listing
