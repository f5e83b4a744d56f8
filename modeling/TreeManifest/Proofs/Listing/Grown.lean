import TreeManifest.Proofs.FileSystem.Extends
import TreeManifest.Proofs.Listing.Entries

/-!
# Listings of a tree with more files

More files put more files into a walk and leave everything else of it in its place (`Grown`,
`visits_grown`). So a limit that let a listing through lets it through again, and the directories
that are listed then are the first of those that were listed before (`list_grown`).
-/

namespace TreeManifest.Listing

open FileSystem

inductive Grown : List Visit → List Visit → Prop
  | nil : Grown [] []
  | keep (visit : Visit) {visits more : List Visit} :
      Grown visits more → Grown (visit :: visits) (visit :: more)
  | file (location : Location) {visits more : List Visit} :
      Grown visits more → Grown visits (.item ⟨location, false⟩ :: more)

namespace Grown

variable {visits more visits' more' : List Visit}

theorem refl (visits : List Visit) : Grown visits visits := by
  induction visits with
  | nil => exact .nil
  | cons visit rest ih => exact .keep visit ih

theorem append (h : Grown visits more) (h' : Grown visits' more') :
    Grown (visits ++ visits') (more ++ more') := by
  induction h with
  | nil => exact h'
  | keep visit _ ih => exact .keep visit ih
  | file location _ ih => exact .file location ih

theorem flatMap {directories : List Location} {f g : Location → List Visit}
    (h : ∀ directory ∈ directories, Grown (f directory) (g directory)) :
    Grown (directories.flatMap f) (directories.flatMap g) := by
  induction directories with
  | nil => exact .nil
  | cons directory rest ih =>
    rw [List.forall_mem_cons] at h
    exact h.1.append (ih h.2)

theorem directoriesOf_eq (h : Grown visits more) : directoriesOf more = directoriesOf visits := by
  induction h with
  | nil => rfl
  | keep visit _ ih => simp only [directoriesOf, List.filterMap_cons] at ih ⊢; rw [ih]
  | file location _ ih => exact ih

theorem length_le (h : Grown visits more) : visits.length ≤ more.length := by
  induction h with
  | nil => exact Nat.le_refl 0
  | keep visit _ ih => exact Nat.succ_le_succ ih
  | file location _ ih => exact Nat.le_succ_of_le ih

theorem antisymm (h : Grown visits more) (h' : Grown more visits) : visits = more := by
  have hle := h'.length_le
  clear h'
  induction h with
  | nil => rfl
  | keep visit _ ih => rw [ih (Nat.le_of_succ_le_succ hle)]
  | file location hmore _ =>
    have hlt := hmore.length_le
    rw [List.length_cons] at hle
    omega

/-- A limit that lets visits through does so with more files, and a smaller limit as well. -/
theorem cut_ok {limit limit' : Nat} {listing : Listing} (h : Grown visits more) (hle : limit' ≤ limit)
    (hc : (cut limit visits).result = .ok listing) :
    (∃ listing', (cut limit' more).result = .ok listing') ∧
      ((itemsOf more).take limit').filter (·.isDirectory) <+:
        ((itemsOf visits).take limit).filter (·.isDirectory) := by
  induction h generalizing limit limit' listing with
  | nil => exact ⟨⟨_, rfl⟩, by simp [itemsOf]⟩
  | @keep visit visits more _ ih =>
    cases visit with
    | unreadable directory =>
      rw [cut] at hc
      exact ih hle hc
    | failed failure => rw [cut] at hc; cases hc
    | item item =>
      cases limit' with
      | zero => exact ⟨⟨_, by rw [cut]; rfl⟩, by simp⟩
      | succ limit' =>
        obtain ⟨limit, rfl⟩ : ∃ n, limit = n + 1 := ⟨limit - 1, by omega⟩
        rw [cut] at hc ⊢
        rcases hr : (cut limit visits).result with failure | first
        · simp only [hr] at hc
          cases hc
        obtain ⟨⟨listing', hl⟩, hp⟩ := ih (Nat.le_of_succ_le_succ hle) hr
        refine ⟨⟨_, by rw [hl]; rfl⟩, ?_⟩
        cases hd : item.isDirectory with
        | true => simpa [itemsOf, hd] using hp
        | false => simpa [itemsOf, hd] using hp
  | @file location visits more _ ih =>
    cases limit' with
    | zero => exact ⟨⟨_, by rw [cut]; rfl⟩, by simp⟩
    | succ limit' =>
      obtain ⟨⟨listing', hl⟩, hp⟩ := ih (Nat.le_of_succ_le hle) hc
      rw [cut]
      exact ⟨⟨_, by rw [hl]; rfl⟩, by simpa [itemsOf] using hp⟩

end Grown

-- ---------------------------------------------------------------------------
-- One directory
-- ---------------------------------------------------------------------------

def visitOf : Except Failure (Option Item) → Option Visit
  | .ok (some item) => some (.item item)
  | .ok none => none
  | .error failure => some (.failed failure)

inductive Adds : Option Visit → Option Visit → Prop
  | same (visit : Option Visit) : Adds visit visit
  | file (location : Location) : Adds none (some (.item ⟨location, false⟩))

theorem Adds.of_eq {visit visit' : Option Visit} (h : visit' = visit) : Adds visit visit' :=
  h ▸ .same visit

theorem grown_filterMap {names more : List String} {f g : String → Option Visit}
    (h : names.Sublist more) (hn : more.Nodup) (hin : ∀ name ∈ names, Adds (f name) (g name))
    (hout : ∀ name ∈ more, name ∉ names → Adds none (g name)) :
    Grown (names.filterMap f) (more.filterMap g) := by
  induction h with
  | slnil => exact .nil
  | @cons names more name hsub ih =>
    rw [List.nodup_cons] at hn
    have hrest := ih hn.2 hin fun other hm => hout other (List.mem_cons_of_mem name hm)
    have hadds := hout name List.mem_cons_self fun hm => hn.1 (hsub.subset hm)
    rcases hg : g name with _ | visit
    · rwa [List.filterMap_cons_none hg]
    · rw [List.filterMap_cons_some hg]
      rw [hg] at hadds
      cases hadds with
      | file location => exact .file location hrest
  | @cons_cons names more name hsub ih =>
    rw [List.nodup_cons] at hn
    rw [List.forall_mem_cons] at hin
    have hrest := ih hn.2 hin.2 fun other hm hnot => by
      refine hout other (List.mem_cons_of_mem name hm) fun hmem => ?_
      rcases List.mem_cons.mp hmem with rfl | hmem
      · exact hn.1 hm
      · exact hnot hmem
    have hadds := hin.1
    rcases hg : g name with _ | visit <;> rcases hf : f name with _ | visit' <;> rw [hf, hg] at hadds
    · rwa [List.filterMap_cons_none hf, List.filterMap_cons_none hg]
    · cases hadds
    · rw [List.filterMap_cons_none hf, List.filterMap_cons_some hg]
      cases hadds with
      | file location => exact .file location hrest
    · rw [List.filterMap_cons_some hf, List.filterMap_cons_some hg]
      cases hadds with
      | same => exact .keep visit hrest

variable {fs fs' : FileSystem} {walk : Walk} {top directory location : Location}

theorem visitDirectory_eq {listed : List String}
    (h : fs.namesAt (Path.ofLocation directory) = .ok listed) :
    walk.visitDirectory fs directory =
      listed.filterMap fun name => visitOf (walk.admit? fs (directory ++ [name])) := by
  unfold Walk.visitDirectory
  rw [h]
  rfl

theorem excludesLink_eq (h : fs.SameFrame fs') (hfs : fs.IsTree) (hfs' : fs'.IsTree) (p : Path) :
    walk.excludesLink fs p = walk.excludesLink fs' p := by
  unfold Walk.excludesLink Walk.admitsLink
  rw [h.isLink?_eq, h.isDirectory?_eq, h.resolve_eq hfs hfs']

theorem admit?_file (hx : walk.excludesLink fs (Path.ofLocation location) = .ok false)
    (hd : fs.isDirectory? (Path.ofLocation location) = .ok false) :
    walk.admit? fs location = (fs.isFile? (Path.ofLocation location)).map fun isFile =>
      if isFile && !walk.ignores (walk.relative location) then some ⟨location, false⟩ else none := by
  unfold Walk.admit?
  simp only [bind, Except.bind, pure, Except.pure, hx, hd, Bool.false_eq_true, ↓reduceIte]
  rcases fs.isFile? (Path.ofLocation location) with failure | _ | _
  · rfl
  · rfl
  · cases hi : walk.ignores (walk.relative location) <;> simp [Except.map]

theorem admit?_adds (h : fs.Extends fs') (hfs : fs.IsTree) (hfs' : fs'.IsTree) (location : Location) :
    Adds (visitOf (walk.admit? fs location)) (visitOf (walk.admit? fs' location)) := by
  have hlink := @excludesLink_eq fs fs' walk h.frame hfs hfs' (Path.ofLocation location)
  have hdir := h.frame.isDirectory?_eq (Path.ofLocation location)
  by_cases hsame : fs'.isFile? (Path.ofLocation location) = fs.isFile? (Path.ofLocation location)
  · exact .of_eq (by simp only [Walk.admit?, hlink, hdir, hsame])
  obtain ⟨hf, hf'⟩ := (h.isFile?_cases hfs hfs' (Path.ofLocation location)).resolve_left hsame
  -- Only what no link and no directory is listed as depends on files.
  rcases hx : walk.excludesLink fs (Path.ofLocation location) with failure | _ | _
  · exact .of_eq (by simp [Walk.admit?, ← hlink, hx, bind, Except.bind])
  · rcases hd : fs.isDirectory? (Path.ofLocation location) with failure | _ | _
    · exact .of_eq (by simp [Walk.admit?, ← hlink, hx, ← hdir, hd, bind, Except.bind])
    · rw [admit?_file hx hd, admit?_file (hlink ▸ hx) (hdir ▸ hd), hf, hf']
      cases walk.ignores (walk.relative location) with
      | true => exact .same _
      | false => exact .file location
    · obtain ⟨-, there, hfind⟩ := isDirectory?_eq_true.mp (hdir ▸ hd)
      obtain ⟨-, other, octets, hfind'⟩ := isFile?_eq_true.mp hf'
      rw [hfind] at hfind'
      cases hfind'
  · exact .of_eq (by simp [Walk.admit?, ← hlink, hx, bind, Except.bind, pure, Except.pure])

theorem admit?_new (h : fs.Extends fs') (hfs' : fs'.IsTree)
    (hd : fs'.find (Path.ofLocation directory) = .ok (top, some .directory)) {name : String}
    (hnew : fs.entryAt? (top ++ [name]) = none) {entry : Entry}
    (he : fs'.entryAt? (top ++ [name]) = some entry) :
    Adds none (visitOf (walk.admit? fs' (directory ++ [name]))) := by
  have hframe := h.frame.entry (top ++ [name])
  rw [hnew, he] at hframe
  -- Nothing but files is added to a tree that grows.
  obtain ⟨octets, rfl⟩ : ∃ octets, entry = .file octets := by
    cases entry with
    | file octets => exact ⟨octets, rfl⟩
    | directory => cases hframe
    | link target => cases hframe
  have hname := (hfs'.isName he name (by simp)).isSought
  have hs : top ∉ fs'.unsearchable :=
    h.frame.unsearchable ▸ h.searchable top name _ hnew he
  have hnolink : ∀ target, fs'.entryAt? (top ++ [name]) ≠ some (.link target) := by
    intro target hl
    rw [he] at hl
    cases hl
  have hfind : fs'.find (Path.ofLocation (directory ++ [name])) =
      .ok (top ++ [name], some (.file octets)) :=
    he ▸ hfs'.find_child hd hs hname hnolink
  have hnamed : fs'.named (Path.ofLocation (directory ++ [name])) = .ok (.file octets) :=
    (hfs'.named_eq hd hs hname).trans (by rw [he])
  have hlink : fs'.isLink? (Path.ofLocation (directory ++ [name])) = .ok false := by
    rw [isLink?, hnamed, ask_ok]
    simp [Entry.isLink]
  have hdir : fs'.isDirectory? (Path.ofLocation (directory ++ [name])) = .ok false := by
    rw [isDirectory?, status_of_find hfind, ask_ok]
    simp
  rw [admit?_file (excludesLink_eq_false.mpr (.inl hlink)) hdir, isFile?, status_of_find hfind,
    ask_ok]
  simp only [Except.map, Entry.isFile, Bool.and_true]
  cases hasNull (Path.ofLocation (directory ++ [name])) with
  | true => exact .same none
  | false => cases walk.ignores (walk.relative (directory ++ [name])) with
    | true => exact .same none
    | false => exact .file _

theorem visitDirectory_grown (h : fs.Extends fs') (hfs : fs.IsTree) (hfs' : fs'.IsTree)
    (hd : fs.find (Path.ofLocation directory) = .ok (top, some .directory)) :
    Grown (walk.visitDirectory fs directory) (walk.visitDirectory fs' directory) := by
  have hd' := h.frame.find_directory hd
  by_cases hdenied : top ∈ fs.unreadable
  · have heq : walk.visitDirectory fs' directory = walk.visitDirectory fs directory := by
      simp only [Walk.visitDirectory, namesAt, hd, hd', ← h.frame.unreadable, hdenied, ↓reduceIte]
    exact heq ▸ .refl _
  · rw [visitDirectory_eq (namesAt_eq_ok.mpr ⟨top, hd, hdenied, rfl⟩),
      visitDirectory_eq (namesAt_eq_ok.mpr ⟨top, hd', h.frame.unreadable ▸ hdenied, rfl⟩)]
    refine grown_filterMap (h.names_sublist hfs hfs' top) (hfs'.nodup_names top) ?_ ?_
    · exact fun name _ => admit?_adds h hfs hfs' (directory ++ [name])
    · intro name hm hnew
      obtain ⟨entry, he⟩ := hfs'.mem_names.mp hm
      refine admit?_new h hfs' hd' ?_ he
      by_contra hsome
      obtain ⟨old, hold⟩ := Option.ne_none_iff_exists'.mp hsome
      exact hnew (hfs.mem_names.mpr ⟨old, hold⟩)

-- ---------------------------------------------------------------------------
-- All levels
-- ---------------------------------------------------------------------------

theorem visitLevels_grown (h : fs.Extends fs') (hfs : fs.IsTree) (hfs' : fs'.IsTree) (depth : Nat)
    {directories : List Location} (hd : AllReached fs walk top directories) :
    Grown (walk.visitLevels fs depth directories) (walk.visitLevels fs' depth directories) := by
  induction depth generalizing directories with
  | zero => exact .nil
  | succ depth ih =>
    have hlevel : Grown (directories.flatMap (walk.visitDirectory fs))
        (directories.flatMap (walk.visitDirectory fs')) := by
      refine Grown.flatMap fun directory hm => ?_
      obtain ⟨below, rfl, hreached⟩ := hd directory hm
      exact visitDirectory_grown h hfs hfs' hreached.find
    rw [visitLevels_succ, visitLevels_succ, hlevel.directoriesOf_eq]
    exact hlevel.append (ih (hd.next hfs))

theorem visits_grown (h : fs.Extends fs') (hfs : fs.IsTree) (hfs' : fs'.IsTree)
    (hbase : fs.find (Path.ofLocation walk.base) = .ok (top, some .directory)) :
    Grown (walk.visits fs true) (walk.visits fs' true) := by
  rw [visits_eq_visitLevels hfs hbase (Nat.le_max_left (maxLevels fs) (maxLevels fs')),
    visits_eq_visitLevels hfs' (h.frame.find_directory hbase)
      (Nat.le_max_right (maxLevels fs) (maxLevels fs'))]
  exact visitLevels_grown h hfs hfs' _ (allReached_base hbase)

-- ---------------------------------------------------------------------------
-- Listings
-- ---------------------------------------------------------------------------

variable {base : Location}

theorem rulesOf_congr (hreadable : fs'.unreadable = fs.unreadable)
    (h : fs'.find (Path.ofLocation (base ++ [".gitignore"])) =
      fs.find (Path.ofLocation (base ++ [".gitignore"]))) : rulesOf fs' base = rulesOf fs base := by
  simp only [rulesOf, exists?, status, FileSystem.read, h, hreadable]

theorem isProtected_eq (h : fs.SameFrame fs') (hfs : fs.IsTree) (hfs' : fs'.IsTree) :
    isProtected fs' base = isProtected fs base := by
  simp only [isProtected, h.locate_eq hfs hfs']

theorem list_grown (h : fs.Extends fs') (hfs : fs.IsTree) (hfs' : fs'.IsTree) {root : String}
    {limit : Int} {listing : Listing} (hlocate : fs.locate (Path.ofString root) = .ok base)
    (hrules : rulesOf fs' base = rulesOf fs base)
    (hl : (list fs root true limit).result = .ok listing) :
    ∃ listing', (list fs' root true limit).result = .ok listing' ∧
      listing'.entries.filter Collection.isDirectoryEntry <+:
        listing.entries.filter Collection.isDirectoryEntry := by
  have hparts := hfs.locate_parts hlocate
  unfold list at hl ⊢
  obtain ⟨base', hlocate', hl⟩ := Report.result_bind_ok.mp hl
  rw [show fs.locate (Path.ofString root) = .ok base' from hlocate', Except.ok.injEq] at hlocate
  subst hlocate
  obtain ⟨⟨⟩, hdir, hl⟩ := Report.result_bind_ok.mp hl
  have hdirectory : fs.isDirectory? (Path.ofLocation base') = .ok true := directoryAt_ok.mp hdir
  obtain ⟨-, top, hfind⟩ := isDirectory?_eq_true.mp hdirectory
  have hlocated : (Report.ofExcept (fs'.locate (Path.ofString root))).result = .ok base' := by
    rw [← h.frame.locate_eq hfs hfs']
    exact hlocate'
  have hdir' : (Report.ofExcept (directoryAt fs' base')).result = .ok () :=
    directoryAt_ok.mpr (h.frame.isDirectory?_eq _ ▸ hdirectory)
  suffices hbase : ∃ listing', (ofBase fs' base' true limit).result = .ok listing' ∧
      listing'.entries.filter Collection.isDirectoryEntry <+:
        listing.entries.filter Collection.isDirectoryEntry by
    obtain ⟨listing', hresult, hfront⟩ := hbase
    exact ⟨listing', Report.result_bind_ok.mpr
      ⟨base', hlocated, Report.result_bind_ok.mpr ⟨(), hdir', hresult⟩⟩, hfront⟩
  unfold ofBase at hl ⊢
  obtain ⟨isRefused, hprotected, hl⟩ := Report.result_bind_ok.mp hl
  have hprotected' : (Report.ofExcept (isProtected fs' base')).result = .ok isRefused :=
    (isProtected_eq h.frame hfs hfs').trans hprotected
  cases isRefused with
  | true =>
    cases hl
    exact ⟨_, Report.result_bind_ok.mpr ⟨true, hprotected', rfl⟩, List.prefix_rfl⟩
  | false =>
    obtain ⟨rules, hr, hl⟩ := Report.result_bind_ok.mp hl
    have hr' : (Report.ofExcept (rulesOf fs' base')).result = .ok rules := hrules.trans hr
    have hfind' := h.frame.find_directory hfind
    have hgrown : Grown (Walk.visits fs ⟨base', rules.ignores⟩ true)
        (Walk.visits fs' ⟨base', rules.ignores⟩ true) := visits_grown h hfs hfs' hfind
    obtain ⟨⟨listing', hcut⟩, hfront⟩ := hgrown.cut_ok (Nat.le_refl limit.toNat) hl
    refine ⟨listing', Report.result_bind_ok.mpr
      ⟨false, hprotected', Report.result_bind_ok.mpr ⟨rules, hr', hcut⟩⟩, ?_⟩
    -- The entries of both listings are texts of items that were visited.
    have hentered : ∀ item ∈ (itemsOf (Walk.visits fs ⟨base', rules.ignores⟩ true)).take limit.toNat,
        Entered fs base' top item := (Lists.walked rules hprotected hr).entered hfs hfind
    have hentered' : ∀ item ∈ (itemsOf (Walk.visits fs' ⟨base', rules.ignores⟩ true)).take
        limit.toNat, Entered fs' base' top item :=
      (Lists.walked rules hprotected' hr').entered hfs' hfind'
    rw [Listing.cut_ok hl, Listing.cut_ok hcut, directory_entries hentered hparts,
      directory_entries hentered' hparts]
    exact hfront.map Item.text

-- ---------------------------------------------------------------------------
-- The same files
-- ---------------------------------------------------------------------------

theorem visits_alike (h : fs.Alike fs') (hfs : fs.IsTree) (hfs' : fs'.IsTree)
    (hbase : fs.find (Path.ofLocation walk.base) = .ok (top, some .directory)) :
    walk.visits fs true = walk.visits fs' true :=
  (visits_grown h.toExtends hfs hfs' hbase).antisymm
    (visits_grown h.symm.toExtends hfs' hfs (h.frame.find_directory hbase))

/-- A listing depends on the rules of its base, and on no other content. -/
theorem list_alike (h : fs.Alike fs') (hfs : fs.IsTree) (hfs' : fs'.IsTree) {root : String}
    {limit : Int} (hrules : ∀ base, fs.locate (Path.ofString root) = .ok base →
      rulesOf fs base = rulesOf fs' base) :
    list fs root true limit = list fs' root true limit := by
  unfold list
  rw [h.frame.locate_eq hfs hfs']
  refine Report.bind_congr fun base hlocate => ?_
  have hlocated : fs.locate (Path.ofString root) = .ok base := by
    rw [h.frame.locate_eq hfs hfs']
    exact hlocate
  have hdir : directoryAt fs base = directoryAt fs' base := by
    simp only [directoryAt, h.frame.isDirectory?_eq]
  rw [← hdir]
  refine Report.bind_congr fun _ hd => ?_
  obtain ⟨-, top, hfind⟩ := isDirectory?_eq_true.mp (directoryAt_ok.mp hd)
  unfold ofBase
  rw [isProtected_eq h.frame hfs hfs', hrules base hlocated]
  refine Report.bind_congr fun isRefused _ => ?_
  cases isRefused with
  | true => simp only [↓reduceIte]
  | false =>
    refine Report.bind_congr fun rules _ => ?_
    rw [@visits_alike fs fs' ⟨base, rules.ignores⟩ top h hfs hfs' hfind]

end TreeManifest.Listing
