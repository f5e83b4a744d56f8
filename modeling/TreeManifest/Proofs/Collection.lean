import TreeManifest.Proofs.FirstLevel
import TreeManifest.Proofs.Listing.Entries
import TreeManifest.Proofs.Prompt.Scope

/-!
# What is collected

Describing files always succeeds (`describeAll_ok`), so a collection is given whenever its listing
is (`collect_of_list`). Its directories and the files that it describes are items of the listing
(`collect_ok`). The listed directories stand for locations, so the first-level directories among
them can always be selected (`Collected.select_total`).
-/

namespace TreeManifest

namespace Collection

variable {fs fs' : FileSystem}

theorem describe_ok (fs : FileSystem) (file : String) :
    ∃ description, (Description.describe fs file).result = .ok description := by
  unfold Description.describe
  simp only
  split
  · exact ⟨_, rfl⟩
  · exact ⟨_, rfl⟩

theorem describeAll_ok (fs : FileSystem) (analysis : Mapping String String) (files : List String) :
    ∃ result, (describeAll fs analysis files).result = .ok result ∧
      ((Mapping.keys analysis).Nodup → (Mapping.keys result).Nodup) ∧
      ∀ key ∈ Mapping.keys result, key ∈ Mapping.keys analysis ∨ key ∈ files := by
  induction files generalizing analysis with
  | nil => exact ⟨analysis, rfl, id, fun _ => .inl⟩
  | cons file files ih =>
    obtain ⟨description, hd⟩ := describe_ok fs file
    obtain ⟨result, hr, hn, hk⟩ := ih (Mapping.put file description analysis)
    refine ⟨result, Report.result_bind_ok.mpr ⟨description, hd, hr⟩, ?_, ?_⟩
    · exact fun h => hn (Mapping.nodup_keys_put h)
    · intro key hm
      rcases hk key hm with hm | hm
      · rcases Mapping.mem_keys_put.mp hm with rfl | hm
        · exact .inr List.mem_cons_self
        · exact .inl hm
      · exact .inr (List.mem_cons_of_mem file hm)

theorem describe_congr {file : String}
    (h : fs.read (Path.ofString file) = fs'.read (Path.ofString file)) :
    Description.describe fs file = Description.describe fs' file := by
  unfold Description.describe
  dsimp only
  rw [h]

theorem describeAll_congr {files : List String}
    (h : ∀ file ∈ files, fs.read (Path.ofString file) = fs'.read (Path.ofString file))
    (analysis : Mapping String String) :
    describeAll fs analysis files = describeAll fs' analysis files := by
  induction files generalizing analysis with
  | nil => rfl
  | cons file files ih =>
    rw [List.forall_mem_cons] at h
    rw [describeAll, describeAll, describe_congr h.1]
    exact Report.bind_congr fun description _ => ih h.2 _

def describedOf (entries : List String) : List String :=
  (entries.filter (!isDirectoryEntry ·)).filter (!isHiddenEntry ·)

theorem ofListing_result (fs : FileSystem) (root : String) (limit : Int) (listing : Listing) :
    (ofListing fs root limit listing).result =
      (describeAll fs [] (describedOf listing.entries)).result.map fun analysis =>
        ⟨listing.entries, listing.entries.filter (!isDirectoryEntry ·),
          listing.entries.filter isDirectoryEntry, analysis, listing.truncated⟩ := by
  have hrest : ∀ (files directories : List String) (described : Report (Mapping String String)),
      (described >>= fun analysis =>
        Report.note (.filesCollected root files.length directories.length analysis.length) >>= fun _ =>
          (pure ⟨listing.entries, files, directories, analysis, listing.truncated⟩ :
            Report Collection)).result = described.result.map fun analysis =>
              ⟨listing.entries, files, directories, analysis, listing.truncated⟩ := by
    intro files directories described
    rw [Report.result_bind]
    cases described.result <;> rfl
  unfold ofListing
  simp only
  split
  · rw [Report.result_bind]
    exact hrest _ _ _
  · exact hrest _ _ _

theorem collect_of_list {root : String} {limit : Int} {listing : Listing}
    (h : (Listing.list fs root true limit).result = .ok listing) :
    ∃ collection, (collect fs .walking root limit).result = .ok collection ∧
      collection.directories = listing.entries.filter isDirectoryEntry := by
  obtain ⟨analysis, ha, -⟩ := describeAll_ok fs [] (describedOf listing.entries)
  have hresult := ofListing_result fs root limit listing
  rw [ha] at hresult
  exact ⟨_, Report.result_bind_ok.mpr ⟨listing, h, hresult⟩, rfl⟩

theorem list_of_collect {root : String} {limit : Int} {collection : Collection}
    (h : (collect fs .walking root limit).result = .ok collection) :
    ∃ listing, (Listing.list fs root true limit).result = .ok listing ∧
      collection.directories = listing.entries.filter isDirectoryEntry ∧
      (describeAll fs [] (describedOf listing.entries)).result = .ok collection.analysis := by
  obtain ⟨listing, hlist, hresult⟩ := Report.result_bind_ok.mp h
  rw [ofListing_result] at hresult
  rcases ha : (describeAll fs [] (describedOf listing.entries)).result with failure | analysis
  · rw [ha] at hresult; cases hresult
  · rw [ha] at hresult
    cases hresult
    exact ⟨listing, hlist, rfl, ha⟩

end Collection

open Listing (Lists Entered)

/-- A collection below a root, with the base and the items of its listing. -/
structure Collected (fs : FileSystem) (root : Location) (limit : Int) (collection : Collection)
    (base top : Location) (items : List Item) : Prop where
  resolve : fs.resolve (Path.ofLocation root) = .ok base
  isPart : ∀ part ∈ base, Path.IsPart part
  hasNull : FileSystem.hasNull (Path.ofLocation base) = false
  find : fs.find (Path.ofLocation base) = .ok (top, some .directory)
  lists : Lists fs base top limit.toNat items
  directories : collection.directories.map Path.ofString =
    (items.filter (·.isDirectory)).map fun item => Path.ofLocation item.location
  nodup : (Mapping.keys collection.analysis).Nodup
  described : ∀ key ∈ Mapping.keys collection.analysis,
    ∃ item ∈ items, item.isDirectory = false ∧ key = item.text

variable {fs : FileSystem} {root : Location} {limit : Int} {collection : Collection}

theorem Collection.collect_ok (hfs : fs.IsTree) (hroot : ∀ part ∈ root, Path.IsPart part)
    (h : (collect fs .walking (Path.ofLocation root).toString limit).result = .ok collection) :
    ∃ base top items, Collected fs root limit collection base top items := by
  obtain ⟨listing, hlist, hdirectories, hanalysis⟩ := list_of_collect h
  obtain ⟨base, top, items, hlocate, hnull, hfind, hlists, hentries⟩ := Listing.list_ok hlist
  have hresolve : fs.resolve (Path.ofLocation root) = .ok base := by
    rw [Path.ofString_toString hroot] at hlocate
    exact hlocate
  have hparts : ∀ part ∈ base, Path.IsPart part := hfs.resolve_parts hroot hresolve
  have hentered := hlists.entered hfs hfind
  obtain ⟨analysis, ha, hnodup, hkeys⟩ := describeAll_ok fs [] (describedOf listing.entries)
  rw [hanalysis, Except.ok.injEq] at ha
  subst ha
  refine ⟨base, top, items, hresolve, hparts, hnull, hfind, hlists, ?_, ?_, ?_⟩
  · rw [hdirectories, hentries]
    exact Listing.directories_of_entries hentered hparts
  · exact hnodup List.nodup_nil
  · intro key hm
    rcases hkeys key hm with hm | hm
    · exact absurd hm List.not_mem_nil
    obtain ⟨hfile, -⟩ := List.mem_filter.mp hm
    obtain ⟨hentry, hkind⟩ := List.mem_filter.mp hfile
    rw [hentries] at hentry
    obtain ⟨item, hitem, rfl⟩ := List.mem_map.mp hentry
    rw [(hentered item hitem).isDirectoryEntry_text hparts, Bool.not_eq_true'] at hkind
    exact ⟨item, hitem, hkind, rfl⟩

namespace Collected

variable {base top : Location} {items : List Item}

theorem entered (h : Collected fs root limit collection base top items) (hfs : fs.IsTree) :
    ∀ item ∈ items, Entered fs base top item :=
  h.lists.entered hfs h.find

theorem resolve_directory (h : Collected fs root limit collection base top items)
    (hfs : fs.IsTree) {item : Item} (hm : item ∈ items) (hd : item.isDirectory = true) :
    ∃ location, fs.find (Path.ofLocation item.location) = .ok (location, some .directory) ∧
      fs.resolve (Path.ofLocation item.location) = .ok location := by
  have hdir := (h.entered hfs item hm).isDirectory? hd h.hasNull h.find
  obtain ⟨hnull, location, hfind⟩ := FileSystem.isDirectory?_eq_true.mp hdir
  exact ⟨location, hfind, FileSystem.resolve_of_find hnull hfind⟩

theorem exists_item (h : Collected fs root limit collection base top items) {p : Path}
    (hm : p ∈ collection.directories.map Path.ofString) :
    ∃ item ∈ items, item.isDirectory = true ∧ p = Path.ofLocation item.location := by
  rw [h.directories] at hm
  obtain ⟨item, hi, rfl⟩ := List.mem_map.mp hm
  obtain ⟨hmem, hd⟩ := List.mem_filter.mp hi
  exact ⟨item, hmem, hd, rfl⟩

theorem select_total (h : Collected fs root limit collection base top items) (hfs : fs.IsTree) :
    ∃ directories,
      FirstLevel.select fs (Path.ofLocation root) collection.directories = .ok directories := by
  refine FirstLevel.select_total h.resolve fun p hm _ => ?_
  obtain ⟨item, hmem, hd, rfl⟩ := h.exists_item hm
  obtain ⟨location, -, hr⟩ := h.resolve_directory hfs hmem hd
  exact ⟨location, hr⟩

-- ---------------------------------------------------------------------------
-- The first level
-- ---------------------------------------------------------------------------

def AtBase (fs : FileSystem) (root base : Location) : Prop :=
  fs.find (Path.ofLocation root) = .ok (base, some .directory)

theorem AtBase.find (hfs : fs.IsTree) (h : AtBase fs root base) :
    fs.find (Path.ofLocation base) = .ok (base, some .directory) :=
  hfs.find_found (by simp [Path.ofLocation]) h

theorem top_eq (h : Collected fs root limit collection base top items) (hfs : fs.IsTree)
    (hbase : AtBase fs root base) : top = base := by
  have hfind := hbase.find hfs
  rw [h.find, Except.ok.injEq, Prod.mk.injEq] at hfind
  exact hfind.1

/-- Nothing that is listed lies below the text of a root that is not its base. -/
theorem root_eq_of_front (h : Collected fs root limit collection base top items) (hfs : fs.IsTree)
    (hbase : AtBase fs root base) {item : Item} (hm : item ∈ items)
    (hp : root <+: item.location.dropLast) : root = base := by
  have hd := (h.entered hfs item hm).isDirectoryAt_dropLast hfs (hbase.find hfs) (h.top_eq hfs hbase)
  obtain ⟨rest, hrest⟩ := hp
  rw [← hrest] at hd
  have hroot := FileSystem.present_of_isDirectoryAt (hfs.isDirectoryAt_of_append hd)
  exact (Prod.mk.inj (hfs.eq_of_find_ofLocation hroot hbase)).1.symm

variable {directories : List Path}

theorem selected (h : Collected fs root limit collection base top items)
    (hs : FirstLevel.select fs (Path.ofLocation root) collection.directories = .ok directories) :
    ∃ locations, FirstLevel.Selected fs (Path.ofLocation root) [base]
      (collection.directories.map Path.ofString) directories locations := by
  obtain ⟨location, locations, hroot, hselected⟩ := FirstLevel.select_ok hs
  rw [h.resolve, Except.ok.injEq] at hroot
  exact ⟨locations, hroot ▸ hselected⟩

theorem item_of_selected (h : Collected fs root limit collection base top items)
    (hs : FirstLevel.select fs (Path.ofLocation root) collection.directories = .ok directories)
    {directory : Path} (hm : directory ∈ directories) :
    ∃ item ∈ items, item.isDirectory = true ∧ directory = Path.ofLocation item.location := by
  obtain ⟨_, hselected⟩ := h.selected hs
  exact h.exists_item (hselected.sublist.subset hm)

/-- A selected directory is listed under one name in the base, which is the root then. -/
theorem selected_child (h : Collected fs root limit collection base top items) (hfs : fs.IsTree)
    (hbase : AtBase fs root base)
    (hs : FirstLevel.select fs (Path.ofLocation root) collection.directories = .ok directories) :
    ∀ directory ∈ directories, root = base ∧ ∃ name, IsName name ∧
      directory = Path.ofLocation (root ++ [name]) ∧ fs.resolve directory = .ok (root ++ [name]) := by
  intro directory hm
  obtain ⟨locations, hselected⟩ := h.selected hs
  obtain ⟨item, hmem, hd, rfl⟩ := h.item_of_selected hs hm
  have hcandidate := hselected.isCandidate _ hm
  simp only [FirstLevel.isCandidate, Path.parent, Path.ofLocation, Bool.and_eq_true,
    decide_eq_true_eq, Path.mk.injEq, true_and] at hcandidate
  obtain rfl := h.root_eq_of_front hfs hbase hmem (hcandidate.1 ▸ List.prefix_rfl)
  refine ⟨rfl, ?_⟩
  obtain ⟨found, hfound, hresolve⟩ := FirstLevel.exists_of_mem_left hselected.resolve hm
  rcases List.eq_nil_or_concat item.location with hnil | ⟨front, name, hconcat⟩
  · -- The top is above itself, and the root has been seen.
    have htop : Path.ofLocation item.location = Path.ofLocation root := by
      rw [hnil, ← hcandidate.1, hnil]
      rfl
    rw [htop, h.resolve, Except.ok.injEq] at hresolve
    exact absurd hfound fun hmem => hselected.unseen found hmem (by simp [hresolve])
  · rw [List.concat_eq_append] at hconcat
    obtain rfl : front = root := by
      rw [← hcandidate.1, hconcat, List.dropLast_concat]
    have hentered := h.entered hfs item hmem
    rw [show item = ⟨front ++ [name], true⟩ from by cases item; cases hd; cases hconcat; rfl] at hentered
    obtain ⟨hname, -, hfind⟩ := hentered.find_child hfs
    rw [h.top_eq hfs hbase] at hfind
    refine ⟨name, hname, by rw [hconcat], ?_⟩
    rw [hconcat] at hresolve ⊢
    rw [hresolve, FileSystem.resolve_eq_find hresolve hfind]

theorem mem_selected (h : Collected fs root limit collection root top items) (hfs : fs.IsTree)
    (hbase : AtBase fs root root)
    (hs : FirstLevel.select fs (Path.ofLocation root) collection.directories = .ok directories)
    {name : String} (hm : ⟨root ++ [name], true⟩ ∈ items) :
    Path.ofLocation (root ++ [name]) ∈ directories := by
  obtain ⟨hname, hhidden, hfind⟩ := (h.entered hfs _ hm).find_child hfs
  rw [h.top_eq hfs hbase] at hfind
  obtain ⟨locations, hselected⟩ := h.selected hs
  have hlisted : Path.ofLocation (root ++ [name]) ∈ collection.directories.map Path.ofString := by
    rw [h.directories]
    exact List.mem_map.mpr ⟨_, List.mem_filter.mpr ⟨hm, rfl⟩, rfl⟩
  have hcandidate : FirstLevel.isCandidate (Path.ofLocation root) (Path.ofLocation (root ++ [name])) =
      true := by
    simp [FirstLevel.isCandidate, Path.parent, Path.ofLocation, Path.name, hhidden]
  obtain ⟨found, hresolve, hseen⟩ := hselected.complete _ hlisted hcandidate
  obtain rfl := FileSystem.resolve_eq_find hresolve hfind
  rcases hseen with hseen | hseen
  · exact absurd (List.mem_singleton.mp hseen) (by simp)
  · obtain ⟨directory, hd, hr⟩ := FirstLevel.exists_of_mem_right hselected.resolve hseen
    obtain ⟨-, other, -, rfl, hr'⟩ := h.selected_child hfs hbase hs directory hd
    rw [hr, Except.ok.injEq] at hr'
    exact hr' ▸ hd

theorem selected_nodup (hs : FirstLevel.select fs (Path.ofLocation root) collection.directories =
    .ok directories) : directories.Nodup := by
  obtain ⟨_, _, -, hselected⟩ := FirstLevel.select_ok hs
  exact hselected.nodup_resolve.of_map _

theorem below (h : Collected fs root limit collection root top items) (hfs : fs.IsTree) :
    Prompt.Below root collection.analysis := by
  refine ⟨h.isPart, h.nodup, fun key hm => ?_⟩
  obtain ⟨item, hitem, hfile, rfl⟩ := h.described key hm
  obtain ⟨below, hne, hnames, hlocation, -⟩ := h.lists.outer hfs h.find hitem hfile
  refine ⟨below, hne, fun part hp => (hnames part hp).isPart, ?_⟩
  rw [← hlocation, Item.text, if_neg (by simp [hfile])]

theorem selected_names (h : Collected fs root limit collection base top items) (hfs : fs.IsTree)
    (hbase : AtBase fs root base)
    (hs : FirstLevel.select fs (Path.ofLocation root) collection.directories = .ok directories) :
    (∀ name ∈ directories.map Path.name, Path.IsPart name) ∧ (directories.map Path.name).Nodup ∧
      ∀ directory ∈ directories, directory = Path.ofLocation (root ++ [directory.name]) := by
  have hchild := h.selected_child hfs hbase hs
  have hname : ∀ directory ∈ directories, directory = Path.ofLocation (root ++ [directory.name]) := by
    intro directory hm
    obtain ⟨-, name, -, rfl, -⟩ := hchild directory hm
    simp [Path.name, Path.ofLocation]
  refine ⟨?_, ?_, hname⟩
  · intro name hm
    obtain ⟨directory, hd, rfl⟩ := List.mem_map.mp hm
    obtain ⟨-, name, hname, rfl, -⟩ := hchild directory hd
    simpa [Path.name, Path.ofLocation] using hname.isPart
  · refine (selected_nodup hs).map_on fun directory hd other ho heq => ?_
    rw [hname directory hd, hname other ho, heq]

/-- The descriptions within a root are divided among the root and the selected directories. -/
theorem partitioned_base (h : Collected fs root limit collection root top items) (hfs : fs.IsTree)
    (hbase : AtBase fs root root)
    (hs : FirstLevel.select fs (Path.ofLocation root) collection.directories = .ok directories) :
    Prompt.Partitioned (Prompt.scope collection.analysis (Path.ofLocation root))
      (directories.map fun directory =>
        (directory.name, Prompt.scope collection.analysis directory)) := by
  obtain ⟨hnames, hnodup, hdirectory⟩ := h.selected_names hfs hbase hs
  have hcover : ∀ name next rest, (∀ part ∈ name :: next :: rest, Path.IsPart part) →
      (Path.ofLocation (root ++ name :: next :: rest)).toString ∈
        Mapping.keys collection.analysis → name ∈ directories.map Path.name := by
    intro name next rest hparts hm
    obtain ⟨item, hitem, hfile, htext⟩ := h.described _ hm
    obtain ⟨below, -, -, hlocation, houter⟩ := h.lists.outer hfs h.find hitem hfile
    have hpart : ∀ part ∈ root ++ name :: next :: rest, Path.IsPart part := fun part hp =>
      (List.mem_append.mp hp).elim (h.isPart part) (hparts part)
    rw [Item.text, if_neg (by simp [hfile])] at htext
    have hsame := Path.toString_inj hpart ((h.entered hfs item hitem).isPart h.isPart) htext
    rw [hlocation, List.append_cancel_left_eq] at hsame
    have hselected := h.mem_selected hfs hbase hs (houter name next rest hsame.symm)
    exact List.mem_map.mpr ⟨_, hselected, by simp [Path.name, Path.ofLocation]⟩
  have hparts : (directories.map Path.name).map (fun name =>
      (name, Prompt.scope collection.analysis (Path.ofLocation (root ++ [name])))) =
      directories.map fun directory =>
        (directory.name, Prompt.scope collection.analysis directory) := by
    rw [List.map_map]
    refine List.map_congr_left fun directory hd => ?_
    simp only [Function.comp_apply]
    rw [← hdirectory directory hd]
  exact hparts ▸ Prompt.partitioned_scope (h.below hfs) hnames hnodup hcover

/-- Nothing is described within a root that is not the base of its listing. -/
theorem scopedBindings_eq_nil (h : Collected fs root limit collection base top items)
    (hfs : fs.IsTree) (hbase : AtBase fs root base) (hne : root ≠ base) :
    Prompt.scopedBindings collection.analysis (Path.ofLocation root) = [] := by
  refine List.filterMap_eq_nil_iff.mpr fun binding hm => ?_
  obtain ⟨key, description⟩ := binding
  obtain ⟨item, hitem, hfile, rfl⟩ := h.described key (Prompt.Below.mem_keys_of_mem hm)
  have hparts := (h.entered hfs item hitem).isPart h.isPart
  simp only [Item.text, hfile, Bool.false_eq_true, ↓reduceIte, Option.map_eq_none_iff]
  refine Prompt.scopedKey?_eq_none hparts fun hp => ?_
  by_contra hlocation
  obtain ⟨rest, hrest⟩ := hp
  have hrestne : rest ≠ [] := fun hnil => hlocation (by rw [← hrest, hnil, List.append_nil])
  refine hne (h.root_eq_of_front hfs hbase hitem ?_)
  rw [← hrest, List.dropLast_append_of_ne_nil hrestne]
  exact List.prefix_append _ _

theorem partitioned (h : Collected fs root limit collection base top items) (hfs : fs.IsTree)
    (hbase : AtBase fs root base)
    (hs : FirstLevel.select fs (Path.ofLocation root) collection.directories = .ok directories) :
    Prompt.Partitioned (Prompt.scope collection.analysis (Path.ofLocation root))
      (directories.map fun directory =>
        (directory.name, Prompt.scope collection.analysis directory)) := by
  by_cases hroot : root = base
  · subst hroot
    exact h.partitioned_base hfs hbase hs
  · have hnone : directories = [] := by
      refine List.eq_nil_iff_forall_not_mem.mpr fun directory hm => hroot ?_
      exact (h.selected_child hfs hbase hs directory hm).1
    rw [hnone, Prompt.scope, h.scopedBindings_eq_nil hfs hbase hroot]
    exact ⟨List.nodup_nil, .nil, List.forall_mem_nil _⟩

end Collected

end TreeManifest
