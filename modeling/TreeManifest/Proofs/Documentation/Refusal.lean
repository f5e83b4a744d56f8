import TreeManifest.Proofs.Documentation.Course
import TreeManifest.Proofs.Listing.Limit

/-!
# Roots that are not walked

The top of the file system and the home directory are too large to document as a whole, by whatever
name a user comes to them. A listing of such a root holds the root alone (`Protected.list_eq`), so
nothing is described and no directory is selected (`Collected.alone`). A run asks once and writes
one manifest (`run_protected`).
-/

namespace TreeManifest

-- ---------------------------------------------------------------------------
-- Listings
-- ---------------------------------------------------------------------------

namespace Listing

variable {fs : FileSystem} {text : String} {root base top : Location} {limit : Nat}
  {items : List Item}

structure Protected (fs : FileSystem) (text : String) (root : Location) : Prop where
  locate : fs.locate (Path.ofString text) = .ok root
  isDirectory : fs.isDirectory? (Path.ofLocation root) = .ok true
  refused : root = [] ∨ fs.locate (Path.ofString "~") = .ok root

def refusal (root : Location) : Report Listing :=
  ⟨[.listingRefused (Path.ofLocation root).toString], .ok ⟨[directoryText root], false⟩⟩

theorem Protected.list_eq (h : Protected fs text root) (recursive : Bool) (limit : Int) :
    list fs text recursive limit = refusal root := by
  have hdir := directoryAt_ok.mpr h.isDirectory
  have hprotected := isProtected_eq_true.mpr h.refused
  unfold list ofBase
  rw [h.locate]
  refine (Report.pure_bind root _).trans ?_
  rw [hdir]
  refine (Report.pure_bind () _).trans ?_
  rw [hprotected]
  rfl

theorem Lists.of_protected (h : Lists fs base top limit items)
    (hprotected : isProtected fs base = .ok true) : items = [⟨base, true⟩] := by
  cases h with
  | refused _ => rfl
  | walked _ hwalked _ => cases hprotected.symm.trans hwalked

end Listing

-- ---------------------------------------------------------------------------
-- Collections
-- ---------------------------------------------------------------------------

/-- Below a root that is not walked nothing is described and nothing is selected, also where the
root leads to another directory, which is walked. -/
theorem Collected.alone {fs : FileSystem} {root base top : Location} {limit : Int}
    {collection : Collection} {items : List Item} {directories : List Path}
    (h : Collected fs root limit collection base top items) (hfs : fs.IsTree)
    (hbase : AtBase fs root base) (hprotected : Listing.isProtected fs root = .ok true)
    (hs : FirstLevel.select fs (Path.ofLocation root) collection.directories = .ok directories) :
    directories = [] ∧ Prompt.scope collection.analysis (Path.ofLocation root) = [] := by
  have hchild := h.selected_child hfs hbase hs
  by_cases hroot : root = base
  · subst hroot
    have hitems := h.lists.of_protected hprotected
    constructor
    · refine List.eq_nil_iff_forall_not_mem.mpr fun directory hm => ?_
      obtain ⟨-, name, -, rfl, -⟩ := hchild directory hm
      obtain ⟨item, hitem, -, heq⟩ := h.item_of_selected hs hm
      simp [List.mem_singleton.mp (hitems ▸ hitem), Path.ofLocation] at heq
    · have hnone : collection.analysis = [] := by
        refine List.eq_nil_iff_forall_not_mem.mpr fun binding hm => ?_
        obtain ⟨item, hitem, hfile, -⟩ := h.described _ (List.mem_map_of_mem hm)
        rw [hitems, List.mem_singleton] at hitem
        cases hitem
        cases hfile
      rw [hnone]
      rfl
  · constructor
    · exact List.eq_nil_iff_forall_not_mem.mpr fun directory hm => hroot (hchild directory hm).1
    · rw [Prompt.scope, h.scopedBindings_eq_nil hfs hbase hroot]
      rfl

-- ---------------------------------------------------------------------------
-- Runs
-- ---------------------------------------------------------------------------

namespace Documentation

open Listing (Protected refusal)

variable {σ : Type}

/-- What a run leaves that documents its root and nothing else: it has asked for the root, with no
descriptions, and has written one manifest, directly in the root. -/
structure Alone (plan : Plan) (client : Client σ) (root : Location) (s s' : Session σ)
    (outcome : Outcome) : Prop where
  asked : ∃ definitions analysis content,
    content = Prompt.rootContent definitions analysis Prompt.Template.text (Path.ofLocation root)
        plan.manifestName ∧
      content.analysis = [] ∧
      s'.requests = s.requests ++ [Prompt.request plan.manifestName content] ∧
      s'.client = (client (Prompt.request plan.manifestName content) s.client).2
  written : ∃ text, Manifest.writeText s.fs ((Path.ofLocation root).child plan.manifestName) text =
    .ok s'.fs
  manifests : outcome.manifests =
    s.manifests ++ [((Path.ofLocation root).child plan.manifestName).toString]

/-- A root that is the top of the file system or the home directory is listed and documented alone,
however it is named. -/
theorem run_protected (plan : Plan) (client : Client σ) (text : String) (root : Location)
    (s : Session σ) (hlister : plan.lister = .walking)
    (hname : Setting.isBareName plan.manifestName = true) (hfs : s.fs.IsTree)
    (hroot : Protected s.fs text root) :
    (∀ recursive limit, Listing.list s.fs text recursive limit = refusal root) ∧
      ∀ outcome s', (run plan client text).run s = (.ok outcome, s') →
        Alone plan client root s s' outcome := by
  refine ⟨hroot.list_eq, fun outcome s' h => ?_⟩
  have hsound := sound_of_locate hlister hname hfs hroot.locate
  obtain ⟨s₁, hall, rfl, rfl⟩ := run_ok hroot.locate h
  obtain ⟨collection, definitions, turns, hcourse⟩ := documentAll_ok hsound hall
  obtain ⟨base, top, items, hcollected, hbase⟩ := hcourse.exists_items hsound
  have hprotected := Listing.isProtected_eq_true.mpr hroot.refused
  have hsteps := hcourse.steps
  cases hsteps with
  | cons hstep hmore =>
    obtain ⟨hnone, hscope⟩ := hcollected.alone hfs hbase hprotected hcourse.selected
    obtain rfl := List.map_eq_nil_iff.mp hnone
    cases hmore
    obtain ⟨-, -, hwritten⟩ := hstep.written
    exact ⟨⟨definitions, collection.analysis, _, rfl, hscope, hstep.requests, hstep.state⟩,
      ⟨_, hwritten⟩, hstep.manifests⟩

def homeTree : FileSystem where
  entries := [(["h"], .directory), (["h", "u"], .directory),
    (["h", "u", "notes.txt"], .file (Text.Utf8.encode "notes")), (["h", "u", "sub"], .directory),
    (["l"], .link "h/u")]
  working := ["h"]
  home := "/l"
  unreadable := []
  homes := [("v", "/h")]

/-- The home directory and the top are documented alone, also by way of the home of another user or
with a home directory that is not absolute; what lies between them is walked. -/
theorem run_protected_homeTree :
    (Listing.list homeTree "~" true 10 = refusal ["h", "u"] ∧
      ∃ outcome s', (run smallPlan readyClient "~").run (Session.start homeTree 0) =
          (.ok outcome, s') ∧
        Alone smallPlan readyClient ["h", "u"] (Session.start homeTree 0) s' outcome) ∧
    (Listing.list homeTree "../l/sub/../../.." true 10 = refusal [] ∧
      ∃ outcome s', (run smallPlan readyClient "../l/sub/../../..").run (Session.start homeTree 0) =
          (.ok outcome, s') ∧
        Alone smallPlan readyClient [] (Session.start homeTree 0) s' outcome) ∧
    Listing.list homeTree "~v/u" true 10 = refusal ["h", "u"] ∧
    Listing.list { homeTree with home := some "." } "u/.." true 10 = refusal ["h"] ∧
    ∃ listing, (Listing.list homeTree "~v" true 10).result = .ok listing ∧
      listing.entries.length = 3 := by
  have hrun (text : String) (root : Location) (hroot : Protected homeTree text root)
      (hok : ((run smallPlan readyClient text).run
        (Session.start homeTree 0)).1.toOption.isSome = true) :
      Listing.list homeTree text true 10 = refusal root ∧
        ∃ outcome s', (run smallPlan readyClient text).run (Session.start homeTree 0) =
            (.ok outcome, s') ∧
          Alone smallPlan readyClient root (Session.start homeTree 0) s' outcome := by
    obtain ⟨hlist, halone⟩ := run_protected smallPlan readyClient text root
      (Session.start homeTree 0) rfl (by decide) (by decide) hroot
    refine ⟨hlist true 10, ?_⟩
    obtain ⟨outcome, s', h⟩ := Run.exists_run_ok hok
    exact ⟨outcome, s', h, halone outcome s' h⟩
  have hlist (fs : FileSystem) (hfs : fs.IsTree) (text : String) (root : Location)
      (hroot : Protected fs text root) : Listing.list fs text true 10 = refusal root :=
    (run_protected smallPlan readyClient text root (Session.start fs 0) rfl (by decide) hfs
      hroot).1 true 10
  have hhome : homeTree.locate (Path.ofString "~") = .ok ["h", "u"] := by rfl
  have hup : homeTree.locate (Path.ofString "../l/sub/../../..") = .ok [] := by rfl
  refine ⟨hrun _ _ ⟨hhome, by rfl, .inr hhome⟩ (by decide +kernel),
    hrun _ _ ⟨hup, by rfl, .inl rfl⟩ (by decide +kernel),
    hlist _ (by decide) _ _ ⟨by rfl, by rfl, .inr hhome⟩,
    hlist _ (by decide) _ _ ⟨by rfl, by rfl, .inr (by rfl)⟩, ?_⟩
  have hwalked : (Listing.list homeTree "~v" true 10).result.toOption.map (·.entries.length) =
      some 3 := by decide +kernel
  exact exists_ok_of_map hwalked

end Documentation

end TreeManifest
