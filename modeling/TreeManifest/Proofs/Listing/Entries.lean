import TreeManifest.Proofs.Listing.Visits
import TreeManifest.Proofs.Report

/-!
# What a listing holds

A listing that is given holds the first items of the walk, as many as the limit allows
(`cut_ok`, `list_ok`). Each entry is the text of its item, and its path leads to this item again
(`Entered.ofString_text`).
-/

namespace TreeManifest.Listing

open FileSystem

variable {fs : FileSystem}

def itemsOf (visits : List Visit) : List Item :=
  visits.filterMap fun
    | .item item => some item
    | _ => none

theorem mem_itemsOf {visits : List Visit} {item : Item} :
    item ∈ itemsOf visits ↔ Visit.item item ∈ visits := by
  unfold itemsOf
  rw [List.mem_filterMap]
  constructor
  · rintro ⟨visit, hm, hv⟩
    split at hv
    · cases hv; exact hm
    · cases hv
  · exact fun hm => ⟨_, hm, rfl⟩

theorem itemsOf_append (visits more : List Visit) :
    itemsOf (visits ++ more) = itemsOf visits ++ itemsOf more :=
  List.filterMap_append

theorem cut_ok {limit : Nat} {visits : List Visit} {listing : Listing}
    (h : (cut limit visits).result = .ok listing) :
    listing.entries = ((itemsOf visits).take limit).map Item.text := by
  induction visits generalizing limit listing with
  | nil =>
    rw [cut] at h
    cases h
    simp [itemsOf]
  | cons visit rest ih =>
    cases visit with
    | unreadable directory =>
      rw [cut] at h
      exact ih h
    | failed failure => rw [cut] at h; cases h
    | item item =>
      cases limit with
      | zero =>
        rw [cut] at h
        cases h
        simp
      | succ limit =>
        rw [cut] at h
        rcases hr : (cut limit rest).result with failure | more
        · simp only [hr] at h; cases h
        · simp only [hr] at h
          cases h
          simp [ih hr, itemsOf]

-- ---------------------------------------------------------------------------
-- Listings
-- ---------------------------------------------------------------------------

/-- What there is to a listing of a base that leads to the directory `top`: the items listed, which
are the base alone if it may not be walked. -/
inductive Lists (fs : FileSystem) (base top : Location) (limit : Nat) : List Item → Prop
  | refused (h : isProtected fs base = .ok true) : Lists fs base top limit [⟨base, true⟩]
  | walked (rules : Ignore.Rules) (h : isProtected fs base = .ok false)
      (hr : rulesOf fs base = .ok rules) :
      Lists fs base top limit
        ((itemsOf (Walk.visits fs ⟨base, rules.ignores⟩ true)).take limit)

theorem directoryAt_ok {base : Location} :
    directoryAt fs base = .ok () ↔ fs.isDirectory? (Path.ofLocation base) = .ok true := by
  unfold directoryAt
  simp only [bind, Except.bind]
  rcases hd : fs.isDirectory? (Path.ofLocation base) with failure | _ | _
  · simp
  · simp [throw, throwThe, MonadExceptOf.throw]
  · simp [pure, Except.pure]

theorem list_ok {root : String} {limit : Int} {listing : Listing}
    (h : (list fs root true limit).result = .ok listing) :
    ∃ base top items, fs.locate (Path.ofString root) = .ok base ∧
      hasNull (Path.ofLocation base) = false ∧
      fs.find (Path.ofLocation base) = .ok (top, some .directory) ∧
      Lists fs base top limit.toNat items ∧ listing.entries = items.map Item.text := by
  unfold list at h
  obtain ⟨base, hlocate, h⟩ := Report.result_bind_ok.mp h
  obtain ⟨⟨⟩, hdir, h⟩ := Report.result_bind_ok.mp h
  obtain ⟨hnull, top, hfind⟩ := isDirectory?_eq_true.mp (directoryAt_ok.mp hdir)
  unfold ofBase at h
  obtain ⟨isRefused, hprotected, h⟩ := Report.result_bind_ok.mp h
  refine ⟨base, top, ?_⟩
  cases isRefused with
  | true =>
    cases h
    exact ⟨_, hlocate, hnull, hfind, .refused hprotected, rfl⟩
  | false =>
    obtain ⟨rules, hrules, h⟩ := Report.result_bind_ok.mp h
    exact ⟨_, hlocate, hnull, hfind, .walked rules hprotected hrules, cut_ok h⟩

inductive Entered (fs : FileSystem) (base top : Location) : Item → Prop
  | base : Entered fs base top ⟨base, true⟩
  | listed {walk : Walk} {below : List String} {name : String} {item : Item}
      (hbase : walk.base = base) (h : Listed fs walk top below name item) : Entered fs base top item

theorem Lists.entered (hfs : fs.IsTree) {base top : Location} {limit : Nat} {items : List Item}
    (h : Lists fs base top limit items)
    (hbase : fs.find (Path.ofLocation base) = .ok (top, some .directory)) :
    ∀ item ∈ items, Entered fs base top item := by
  intro item hm
  cases h with
  | refused _ =>
    rw [List.mem_singleton.mp hm]
    exact .base
  | walked rules _ _ =>
    have hvisit := mem_itemsOf.mp (List.mem_of_mem_take hm)
    obtain ⟨below, name, hlisted⟩ := visits_item hfs hbase hvisit
    exact .listed rfl hlisted

variable {base top : Location} {item : Item}

theorem Entered.isPart (h : Entered fs base top item)
    (hbase : ∀ part ∈ base, Path.IsPart part) : ∀ part ∈ item.location, Path.IsPart part := by
  cases h with
  | base => exact hbase
  | listed hwalk hlisted =>
    intro part hm
    rw [hlisted.location, hwalk, List.mem_append, List.mem_append] at hm
    rcases hm with hm | hm | hm
    · exact hbase part hm
    · exact (hlisted.reached.names part hm).isPart
    · exact List.mem_singleton.mp hm ▸ hlisted.isName.isPart

theorem Entered.ofString_text (h : Entered fs base top item)
    (hbase : ∀ part ∈ base, Path.IsPart part) :
    Path.ofString item.text = Path.ofLocation item.location := by
  unfold Item.text
  split
  · exact Path.ofString_directoryText (h.isPart hbase)
  · exact Path.ofString_toString (h.isPart hbase)

theorem Entered.isDirectoryEntry_text (h : Entered fs base top item)
    (hbase : ∀ part ∈ base, Path.IsPart part) :
    Collection.isDirectoryEntry item.text = item.isDirectory := by
  unfold Item.text
  split
  · rename_i hd
    rw [hd, Path.isDirectoryEntry_directoryText]
  · rename_i hd
    rw [Bool.not_eq_true] at hd
    have hparts := h.isPart hbase
    cases h with
    | base => cases hd
    | listed hwalk hlisted =>
      rw [hd]
      refine Path.isDirectoryEntry_toString ?_ hparts
      rw [hlisted.location]
      simp

theorem Entered.isDirectory? (h : Entered fs base top item) (hd : item.isDirectory = true)
    (hnull : hasNull (Path.ofLocation base) = false)
    (hbase : fs.find (Path.ofLocation base) = .ok (top, some .directory)) :
    fs.isDirectory? (Path.ofLocation item.location) = .ok true := by
  cases h with
  | base => exact isDirectory?_eq_true.mpr ⟨hnull, top, hbase⟩
  | listed hwalk hlisted => exact (hlisted.admitted.ofDirectory hd).2.1

theorem directory_entries {items : List Item} (h : ∀ item ∈ items, Entered fs base top item)
    (hbase : ∀ part ∈ base, Path.IsPart part) :
    (items.map Item.text).filter Collection.isDirectoryEntry =
      (items.filter (·.isDirectory)).map Item.text := by
  rw [List.filter_map]
  have hfilter : items.filter (Collection.isDirectoryEntry ∘ Item.text) =
      items.filter (·.isDirectory) :=
    List.filter_congr fun item hm => (h item hm).isDirectoryEntry_text hbase
  rw [hfilter]

theorem directories_of_entries {items : List Item}
    (h : ∀ item ∈ items, Entered fs base top item) (hbase : ∀ part ∈ base, Path.IsPart part) :
    ((items.map Item.text).filter Collection.isDirectoryEntry).map Path.ofString =
      (items.filter (·.isDirectory)).map fun item => Path.ofLocation item.location := by
  rw [directory_entries h hbase, List.map_map]
  exact List.map_congr_left fun item hm => (h item (List.mem_filter.mp hm).1).ofString_text hbase

theorem Entered.isDirectoryAt_dropLast (hfs : fs.IsTree) (h : Entered fs base top item)
    (hbase : fs.find (Path.ofLocation base) = .ok (base, some .directory)) (htop : top = base) :
    fs.isDirectoryAt item.location.dropLast = true := by
  cases h with
  | base => exact hfs.isDirectoryAt_dropLast (hfs.entryAt?_of_find hbase)
  | listed hwalk hlisted =>
    have hd := hfs.isDirectoryAt_of_find hlisted.reached.find
    rwa [hlisted.location, ← List.append_assoc, List.dropLast_concat, hwalk, ← htop]

theorem Entered.find_child (hfs : fs.IsTree) {name : String}
    (h : Entered fs base top ⟨base ++ [name], true⟩) :
    IsName name ∧ Path.isHiddenName name = false ∧
      fs.find (Path.ofLocation (base ++ [name])) = .ok (top ++ [name], some .directory) := by
  generalize hitem : (⟨base ++ [name], true⟩ : Item) = item at h
  cases h with
  | base => exact absurd (congrArg Item.location hitem) (by simp)
  | @listed walk below last _ hwalk hlisted =>
    subst hitem
    have hlocation := hlisted.location
    rw [hwalk] at hlocation
    have hnames : [] ++ [name] = below ++ [last] := List.append_cancel_left hlocation
    obtain ⟨rfl, hlast⟩ := List.append_inj' hnames rfl
    obtain rfl : name = last := (List.cons.inj hlast).1
    have hreached := (hlisted.reached_child hfs rfl).find
    rw [hwalk] at hreached
    refine ⟨hlisted.isName, ?_, hreached⟩
    have hhidden := (hlisted.admitted.ofDirectory rfl).2.2
    simpa [Path.name, Path.ofLocation] using hhidden

/-- A file is listed in the base, or below a directory in the base that is listed as well. -/
theorem Lists.outer (hfs : fs.IsTree) {limit : Nat} {items : List Item}
    (h : Lists fs base top limit items)
    (hbase : fs.find (Path.ofLocation base) = .ok (top, some .directory)) (hm : item ∈ items)
    (hfile : item.isDirectory = false) :
    ∃ below, below ≠ [] ∧ (∀ part ∈ below, IsName part) ∧ item.location = base ++ below ∧
      ∀ outer next rest, below = outer :: next :: rest → ⟨base ++ [outer], true⟩ ∈ items := by
  cases h with
  | refused _ =>
    rw [List.mem_singleton.mp hm] at hfile
    cases hfile
  | walked rules _ _ =>
    obtain ⟨first, deeper, hvisits, hfirst, hdeeper⟩ :=
      @visits_eq_append fs ⟨base, rules.ignores⟩ top hfs hbase
    rw [hvisits, itemsOf_append, List.take_append] at hm ⊢
    rcases List.mem_append.mp hm with hm | hm
    · obtain ⟨name, hlisted⟩ := hfirst item (mem_itemsOf.mp (List.mem_of_mem_take hm))
      refine ⟨[name], by simp, ?_, hlisted.location, ?_⟩
      · simpa using hlisted.isName
      · intro outer next rest heq
        simp at heq
    · obtain ⟨outer, below, name, hlisted, houter⟩ :=
        hdeeper item (mem_itemsOf.mp (List.mem_of_mem_take hm))
      -- Some item below the first level is listed, so all of the first level is.
      have hlimit : (itemsOf first).length ≤ limit := by
        by_contra hlt
        rw [Nat.sub_eq_zero_of_le (Nat.le_of_not_le hlt), List.take_zero] at hm
        simp at hm
      refine ⟨outer :: below ++ [name], by simp, ?_, by simpa using hlisted.location, ?_⟩
      · intro part hp
        rcases List.mem_append.mp hp with hp | hp
        · exact hlisted.reached.names part hp
        · exact List.mem_singleton.mp hp ▸ hlisted.isName
      · intro other next rest heq
        obtain ⟨rfl, -⟩ := List.cons.inj heq
        rw [List.take_of_length_le hlimit]
        exact List.mem_append_left _ (mem_itemsOf.mpr houter)

end TreeManifest.Listing
