import TreeManifest.Proofs.Listing.Entries

/-!
# The limit of a listing

Without a limit a walk lists all of its items or comes to a failure (`whole`). A limit takes the
first items of these and tells whether one of them was left out (`cut_of_whole`). So the listing
without a limit is the one that some limit leaves whole (`listAll_eq_ok`), what is not listed for
other reasons never counts, and a larger limit only adds entries at the end (`list_limit`).
-/

namespace TreeManifest.Listing

open FileSystem

variable {fs : FileSystem} {root : String} {recursive : Bool} {walk : Walk} {visits : List Visit}
  {items : List Item} {entries : List String}

-- ---------------------------------------------------------------------------
-- Walks without a limit
-- ---------------------------------------------------------------------------

def whole : List Visit → Except Failure (List Item)
  | [] => .ok []
  | .unreadable _ :: rest => whole rest
  | .failed failure :: _ => .error failure
  | .item item :: rest => (whole rest).map (item :: ·)

theorem whole_item_ok {item : Item} (h : whole (.item item :: visits) = .ok items) :
    ∃ rest, whole visits = .ok rest ∧ items = item :: rest := by
  rw [whole] at h
  rcases hr : whole visits with failure | rest
  · simp [hr, Except.map] at h
  · simp only [hr, Except.map, Except.ok.injEq] at h
    exact ⟨rest, rfl, h.symm⟩

theorem whole_ok (h : whole visits = .ok items) :
    items = itemsOf visits ∧ ∀ failure, Visit.failed failure ∉ visits := by
  induction visits generalizing items with
  | nil =>
    cases h
    simp [itemsOf]
  | cons visit rest ih =>
    cases visit with
    | unreadable directory => simpa [itemsOf] using ih h
    | failed failure => cases h
    | item item =>
      obtain ⟨more, hmore, rfl⟩ := whole_item_ok h
      simpa [itemsOf] using ih hmore

theorem cut_of_whole (h : whole visits = .ok items) (limit : Nat) :
    (cut limit visits).result =
      .ok ⟨(items.take limit).map Item.text, decide (limit < items.length)⟩ := by
  induction visits generalizing items limit with
  | nil =>
    cases h
    simp [cut, Report.pure]
  | cons visit rest ih =>
    cases visit with
    | unreadable directory => simpa [cut] using ih h limit
    | failed failure => cases h
    | item item =>
      obtain ⟨more, hmore, rfl⟩ := whole_item_ok h
      cases limit with
      | zero => simp [cut, Report.pure]
      | succ limit => simp [cut, ih hmore limit, Except.map]

theorem whole_of_cut {limit : Nat} (h : (cut limit visits).result = .ok ⟨entries, false⟩) :
    ∃ items, whole visits = .ok items ∧ entries = items.map Item.text := by
  induction visits generalizing limit entries with
  | nil =>
    cases h
    exact ⟨[], rfl, rfl⟩
  | cons visit rest ih =>
    cases visit with
    | unreadable directory => exact ih h
    | failed failure => cases h
    | item item =>
      cases limit with
      | zero => cases h
      | succ limit =>
        rcases hr : (cut limit rest).result with failure | ⟨more, truncated⟩
        · simp [cut, hr, Except.map] at h
        · simp only [cut, hr, Except.map, Except.ok.injEq, Listing.mk.injEq] at h
          obtain ⟨rfl, rfl⟩ := h
          obtain ⟨items, hitems, rfl⟩ := ih hr
          exact ⟨item :: items, by simp [whole, hitems, Except.map], rfl⟩

-- ---------------------------------------------------------------------------
-- Roots that may be walked
-- ---------------------------------------------------------------------------

/-- A root that is neither the top of the file system nor the home directory. -/
def Unprotected (fs : FileSystem) (root : String) : Prop :=
  ∀ base, fs.locate (Path.ofString root) = .ok base →
    base ≠ [] ∧ fs.locate (Path.ofString "~") ≠ .ok base

theorem isProtected_eq_true {base : Location} : isProtected fs base = .ok true ↔
    base = [] ∨ fs.locate (Path.ofString "~") = .ok base := by
  unfold isProtected
  by_cases hbase : base = []
  · simp [hbase, pure, Except.pure]
  · rcases fs.locate (Path.ofString "~") with failure | home
    · simp [hbase, bind, Except.bind]
    · simp [hbase, bind, Except.bind, pure, Except.pure, eq_comm]

theorem Unprotected.isProtected_ne {base : Location} (h : Unprotected fs root)
    (hlocate : fs.locate (Path.ofString root) = .ok base) : isProtected fs base ≠ .ok true := by
  obtain ⟨htop, hhome⟩ := h base hlocate
  simp [isProtected_eq_true, htop, hhome]

/-- The walk that lists what lies under a root. -/
structure WalkOf (fs : FileSystem) (root : String) (walk : Walk) : Prop where
  locate : fs.locate (Path.ofString root) = .ok walk.base
  isDirectory : fs.isDirectory? (Path.ofLocation walk.base) = .ok true
  unprotected : isProtected fs walk.base = .ok false
  rules : ∃ rules, rulesOf fs walk.base = .ok rules ∧ walk.ignores = rules.ignores

theorem WalkOf.list_result (h : WalkOf fs root walk) (recursive : Bool) (limit : Int) :
    (list fs root recursive limit).result =
      (cut limit.toNat (walk.visits fs recursive)).result := by
  obtain ⟨rules, hrules, hignores⟩ := h.rules
  obtain ⟨base, ignores⟩ := walk
  obtain rfl : ignores = rules.ignores := hignores
  have hdir := directoryAt_ok.mpr h.isDirectory
  unfold list ofBase
  simp [Report.result_bind, Report.ofExcept, h.locate, hdir, h.unprotected, hrules, Except.bind]

theorem exists_walkOf_of_list {limit : Int} {listing : Listing} (hroot : Unprotected fs root)
    (h : (list fs root recursive limit).result = .ok listing) : ∃ walk, WalkOf fs root walk := by
  unfold list at h
  obtain ⟨base, hlocate, h⟩ := Report.result_bind_ok.mp h
  obtain ⟨⟨⟩, hdir, h⟩ := Report.result_bind_ok.mp h
  unfold ofBase at h
  obtain ⟨isRefused, hprotected, h⟩ := Report.result_bind_ok.mp h
  cases isRefused with
  | true => exact absurd hprotected (hroot.isProtected_ne hlocate)
  | false =>
    obtain ⟨rules, hrules, -⟩ := Report.result_bind_ok.mp h
    exact ⟨⟨base, rules.ignores⟩, hlocate, directoryAt_ok.mp hdir, hprotected, rules, hrules, rfl⟩

-- ---------------------------------------------------------------------------
-- Listings within a limit
-- ---------------------------------------------------------------------------

def listAll (fs : FileSystem) (root : String) (recursive : Bool) :
    Except Failure (List String) := do
  let base ← fs.locate (Path.ofString root)
  directoryAt fs base
  if ← isProtected fs base then return [directoryText base]
  let rules ← rulesOf fs base
  return (← whole (Walk.visits fs ⟨base, rules.ignores⟩ recursive)).map Item.text

theorem WalkOf.listAll_eq (h : WalkOf fs root walk) (recursive : Bool) :
    listAll fs root recursive =
      (whole (walk.visits fs recursive)).map fun items => items.map Item.text := by
  obtain ⟨rules, hrules, hignores⟩ := h.rules
  obtain ⟨base, ignores⟩ := walk
  obtain rfl : ignores = rules.ignores := hignores
  have hdir := directoryAt_ok.mpr h.isDirectory
  unfold listAll
  simp only [h.locate, hdir, h.unprotected, hrules, bind, Except.bind, Bool.false_eq_true,
    ↓reduceIte]
  cases whole (Walk.visits fs ⟨base, rules.ignores⟩ recursive) <;> rfl

theorem exists_walkOf_of_listAll (hroot : Unprotected fs root)
    (h : listAll fs root recursive = .ok entries) :
    ∃ walk items, WalkOf fs root walk ∧ whole (walk.visits fs recursive) = .ok items ∧
      entries = items.map Item.text := by
  unfold listAll at h
  obtain ⟨base, hlocate, h⟩ := bind_ok.mp h
  obtain ⟨⟨⟩, hdir, h⟩ := bind_ok.mp h
  obtain ⟨isRefused, hprotected, h⟩ := bind_ok.mp h
  cases isRefused with
  | true => exact absurd hprotected (hroot.isProtected_ne hlocate)
  | false =>
    obtain ⟨rules, hrules, h⟩ := bind_ok.mp h
    obtain ⟨items, hitems, h⟩ := bind_ok.mp h
    refine ⟨⟨base, rules.ignores⟩, items, ?_, hitems, (Except.ok.inj h).symm⟩
    exact ⟨hlocate, directoryAt_ok.mp hdir, hprotected, rules, hrules, rfl⟩

/-- The listing without a limit is the one that is complete within some limit. -/
theorem listAll_eq_ok (hroot : Unprotected fs root) :
    listAll fs root recursive = .ok entries ↔
      ∃ limit : Nat, (list fs root recursive limit).result = .ok ⟨entries, false⟩ := by
  constructor
  · intro h
    obtain ⟨walk, items, hwalk, hitems, rfl⟩ := exists_walkOf_of_listAll hroot h
    exact ⟨items.length, by simp [hwalk.list_result, cut_of_whole hitems]⟩
  · rintro ⟨limit, h⟩
    obtain ⟨walk, hwalk⟩ := exists_walkOf_of_list hroot h
    rw [hwalk.list_result] at h
    obtain ⟨items, hitems, rfl⟩ := whole_of_cut h
    simp [hwalk.listAll_eq, hitems, Except.map]

theorem visitLevels_admitted {depth : Nat} {directories : List Location} {item : Item}
    (h : Visit.item item ∈ walk.visitLevels fs depth directories) :
    walk.admit? fs item.location = .ok (some item) := by
  induction depth generalizing directories with
  | zero => simp [Walk.visitLevels] at h
  | succ depth ih =>
    rw [visitLevels_succ] at h
    rcases List.mem_append.mp h with hm | hm
    · obtain ⟨directory, -, hvisit⟩ := List.mem_flatMap.mp hm
      obtain ⟨names, -, name, -, hadmits⟩ := item_mem_visitDirectory.mp hvisit
      rwa [(admit?_some hadmits).1]
    · exact ih hm

/-- If the listing of a root without a limit is `entries`, then a limit gives the first of these and
tells exactly whether one is left out. All that counts is what the walk admits. Every list of
entries that is complete within some limit is the one without a limit. The limit is as exact for any
other choice of ignored paths. -/
theorem list_limit (fs : FileSystem) (root : String) (recursive : Bool) (entries : List String)
    (hroot : Unprotected fs root) (hall : listAll fs root recursive = .ok entries) :
    (∀ limit : Nat, (list fs root recursive limit).result =
      .ok ⟨entries.take limit, decide (limit < entries.length)⟩) ∧
    (∀ limit more : Nat, limit ≤ more → ∀ listing listing',
      (list fs root recursive limit).result = .ok listing →
        (list fs root recursive more).result = .ok listing' →
          listing.entries <+: listing'.entries) ∧
    (∀ (limit : Nat) others, (list fs root recursive limit).result = .ok ⟨others, false⟩ →
      others = entries) ∧
    (∀ entry ∈ entries, ∃ walk item, WalkOf fs root walk ∧
      walk.admit? fs item.location = .ok (some item) ∧ entry = item.text) ∧
    ∀ (walk : Walk) (items : List Item), whole (walk.visits fs recursive) = .ok items →
      (∀ limit : Nat, (cut limit (walk.visits fs recursive)).result =
        .ok ⟨(items.map Item.text).take limit, decide (limit < items.length)⟩) ∧
      ∀ item ∈ items, walk.admit? fs item.location = .ok (some item) := by
  have hwhole (walk : Walk) (items : List Item) (h : whole (walk.visits fs recursive) = .ok items) :
      (∀ limit : Nat, (cut limit (walk.visits fs recursive)).result =
        .ok ⟨(items.map Item.text).take limit, decide (limit < items.length)⟩) ∧
      ∀ item ∈ items, walk.admit? fs item.location = .ok (some item) := by
    refine ⟨fun limit => by rw [cut_of_whole h, List.map_take], fun item hm => ?_⟩
    rw [(whole_ok h).1] at hm
    exact visitLevels_admitted (mem_itemsOf.mp hm)
  obtain ⟨walk, items, hwalk, hitems, rfl⟩ := exists_walkOf_of_listAll hroot hall
  obtain ⟨hcut, hadmits⟩ := hwhole walk items hitems
  have hexact : ∀ limit : Nat, (list fs root recursive limit).result =
      .ok ⟨(items.map Item.text).take limit, decide (limit < (items.map Item.text).length)⟩ := by
    intro limit
    rw [hwalk.list_result, Int.toNat_natCast, hcut, List.length_map]
  refine ⟨hexact, ?_, ?_, ?_, hwhole⟩
  · intro limit more hle listing listing' h h'
    rw [hexact, Except.ok.injEq] at h h'
    subst h h'
    exact List.take_prefix_take_left hle
  · intro limit others h
    exact Except.ok.inj (((listAll_eq_ok hroot).mpr ⟨limit, h⟩).symm.trans hall)
  · intro entry hm
    obtain ⟨item, hitem, rfl⟩ := List.mem_map.mp hm
    exact ⟨walk, item, hwalk, hadmits item hitem, rfl⟩

def mixedTree : FileSystem where
  entries := [(["key"], .file []), (["w"], .directory),
    (["w", ".gitignore"], .file (Text.Utf8.encode "*.log\n")), (["w", ".cache"], .directory),
    (["w", ".cache", "x"], .file []), (["w", "a"], .directory), (["w", "a", "deep"], .file []),
    (["w", "a", "up"], .link ".."), (["w", "b.log"], .file []), (["w", "inside"], .link "a/deep"),
    (["w", "locked"], .directory), (["w", "locked", "x"], .file []),
    (["w", "outside"], .link "/key"), (["w", "vendor"], .directory), (["w", "z"], .file [])]
  working := ["w"]
  home := "/home"
  unreadable := [["w", "locked"]]

theorem unprotected_mixedTree : Unprotected mixedTree "/w" := by
  intro base hbase
  have hlocate : mixedTree.locate (Path.ofString "/w") = .ok ["w"] := rfl
  have hhome : mixedTree.locate (Path.ofString "~") = .ok ["home"] := rfl
  cases hlocate.symm.trans hbase
  simp [hhome]

theorem list_limit_mixedTree : (list mixedTree "/w" true 5).result =
    .ok ⟨["/w/.gitignore", "/w/a/", "/w/inside", "/w/locked/", "/w/z"], true⟩ := by
  have hall : listAll mixedTree "/w" true =
      .ok ["/w/.gitignore", "/w/a/", "/w/inside", "/w/locked/", "/w/z", "/w/a/deep"] :=
    eq_ok_of_toOption (by decide +kernel)
  exact (list_limit mixedTree "/w" true _ unprotected_mixedTree hall).1 5

end TreeManifest.Listing
