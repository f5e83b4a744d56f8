import TreeManifest.Proofs.Documentation.Course

/-!
# What a run asks

The requests of a run share out one analysis: what the request of the root says about its
directories is what their own requests say (`run_divides`).
-/

namespace TreeManifest.Documentation

open Collected (AtBase)
open Prompt (Content Partitioned isNested prefixed)

variable {σ : Type} {plan : Plan} {client : Client σ} {root : Location} {s s' : Session σ}

def shares (parts : List (Path × Content)) : List (String × Mapping String String) :=
  parts.map fun part => (part.1.name, part.2.analysis)

/-- Requests that share out one analysis. The first one is made of `whole`, the others are made of
`parts`, for the directories that come with them. -/
structure Divides (plan : Plan) (root : Path) (analysis : Mapping String String) (whole : Content)
    (parts : List (Path × Content)) (requests : List Request) : Prop where
  requests : requests = (whole :: parts.map (·.2)).map (Prompt.request plan.manifestName)
  ofRoot : ∃ definitions, whole =
    Prompt.rootContent definitions analysis Prompt.Template.text root plan.manifestName
  ofDirectory : ∀ part ∈ parts, ∃ definitions, part.2 =
    Prompt.directoryContent definitions analysis Prompt.Template.text root part.1 plan.manifestName
  partitioned : Partitioned whole.analysis (shares parts)
  once : ∀ key ∈ Mapping.keys whole.analysis, isNested key = true →
    ∃! part, part ∈ shares parts ∧ key ∈ Mapping.keys (prefixed part.1 part.2)

/-- No description is lost, doubled or misplaced between the requests of a run. -/
theorem run_divides (plan : Plan) (client : Client σ) (text : String) (s s' : Session σ)
    (outcome : Outcome) (hlister : plan.lister = .walking)
    (hname : Setting.isBareName plan.manifestName = true) (hfs : s.fs.IsTree)
    (h : (run plan client text).run s = (.ok outcome, s')) :
    ∃ root collection whole parts requests,
      s.fs.locate (Path.ofString text) = .ok root ∧
      (Collection.collect s.fs .walking (Path.ofLocation root).toString plan.maxListed).result =
        .ok collection ∧
      planned plan s.fs (Path.ofLocation root) = Path.ofLocation root :: parts.map (·.1) ∧
      s'.requests = s.requests ++ requests ∧
      Divides plan (Path.ofLocation root) collection.analysis whole parts requests := by
  obtain ⟨root, hlocate⟩ := locate_of_run_ok h
  have hsound := sound_of_locate hlister hname hfs hlocate
  obtain ⟨collection, definitions, turns, s₁, hcourse, -, hrequests⟩ := run_course hsound hlocate h
  obtain ⟨base, top, items, hcollected, hbase⟩ := hcourse.exists_items hsound
  -- Each turn has asked for its share.
  let whole := Prompt.rootContent definitions collection.analysis Prompt.Template.text
    (Path.ofLocation root) plan.manifestName
  let part (turn : Turn) := Prompt.directoryContent turn.definitions collection.analysis
    Prompt.Template.text (Path.ofLocation root) turn.directory plan.manifestName
  have hpartitioned : Partitioned whole.analysis
      (shares (turns.map fun turn => (turn.directory, part turn))) := by
    have hp := hcollected.partitioned hfs hbase hcourse.selected
    rw [List.map_map] at hp
    rw [shares, List.map_map]
    exact hp
  refine ⟨root, collection, whole, turns.map fun turn => (turn.directory, part turn), _, hlocate,
    hcourse.collected, ?_, hrequests.trans hcourse.steps.requests, ?_⟩
  · rw [planned_of_select hlister hcourse.collected hcourse.selected, List.map_map]
    rfl
  · refine ⟨?_, ⟨definitions, rfl⟩, ?_, hpartitioned, fun key => hpartitioned.existsUnique⟩
    · rw [List.map_cons, List.map_cons, List.map_map, List.map_map]
      exact congrArg₂ _ rfl (List.map_congr_left hcourse.asked)
    · intro other hm
      obtain ⟨turn, -, rfl⟩ := List.mem_map.mp hm
      exact ⟨turn.definitions, rfl⟩

theorem run_divides_readyClient :
    ∃ outcome s', (run smallPlan readyClient "/w").run (Session.start smallTree 0) =
        (.ok outcome, s') ∧ s'.requests.length = 3 ∧
      ∃ root collection whole parts requests,
        smallTree.locate (Path.ofString "/w") = .ok root ∧
        (Collection.collect smallTree .walking (Path.ofLocation root).toString 10).result =
          .ok collection ∧
        planned smallPlan smallTree (Path.ofLocation root) =
          Path.ofLocation root :: parts.map (·.1) ∧
        s'.requests = [] ++ requests ∧
        Divides smallPlan (Path.ofLocation root) collection.analysis whole parts requests := by
  have hname : Setting.isBareName smallPlan.manifestName = true := by decide
  have hfs : (Session.start smallTree 0).fs.IsTree := by decide
  have hok : ((run smallPlan readyClient "/w").run (Session.start smallTree 0)).1.toOption.isSome =
      true := by decide +kernel
  have hlength : ((run smallPlan readyClient "/w").run
      (Session.start smallTree 0)).2.requests.length = 3 := by decide +kernel
  obtain ⟨outcome, s', h⟩ := Run.exists_run_ok hok
  rw [h] at hlength
  exact ⟨outcome, s', h, hlength,
    run_divides smallPlan readyClient "/w" (Session.start smallTree 0) s' outcome rfl hname hfs h⟩

end TreeManifest.Documentation
