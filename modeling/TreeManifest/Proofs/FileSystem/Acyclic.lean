import Mathlib.Algebra.Order.BigOperators.Group.List
import Mathlib.Algebra.Order.Ring.Nat
import TreeManifest.Failure
import TreeManifest.Proofs.FileSystem.Frame

/-!
# Links without loops

Where no link is met again on the way along its own target (`IsAcyclic`), every path from the top
has a resolved location, however many links lead to it and whether anything is there
(`IsAcyclic.resolve_ok`). Links in directories that may not be searched are not seen. A resolution
that has links open is on the way along the target of each of them (`Pending`), so it cannot come to
one of them again; and it opens each link once, so it ends.
-/

namespace TreeManifest.FileSystem

open Relation (ReflTransGen)

variable {fs : FileSystem} {l l' : Location} {parts parts' : List String}

-- ---------------------------------------------------------------------------
-- Walks
-- ---------------------------------------------------------------------------

/-- One step along parts: a link gives way to its target, and what is missing is walked over. -/
def step? (fs : FileSystem) : Location × List String → Option (Location × List String)
  | (_, []) => none
  | (l, name :: rest) =>
    if name = "" ∨ name = "." then some (l, rest)
    else if name = ".." then some (l.dropLast, rest)
    else match fs.linkAt? (.ofLocation (l ++ [name])) with
      | some target => some (targetBase l target, targetParts target ++ rest)
      | none => some (l ++ [name], rest)

def Leads (fs : FileSystem) : Location × List String → Location × List String → Prop :=
  ReflTransGen fun walk walk' => fs.step? walk = some walk'

/-- No link that is seen is met again on the way along its own target. -/
def IsAcyclic (fs : FileSystem) : Prop :=
  ∀ directory name target, fs.entryAt? (directory ++ [name]) = some (.link target) →
    fs.linkAt? (.ofLocation (directory ++ [name])) = some target →
    ∀ rest, ¬ fs.Leads (targetBase directory target, targetParts target) (directory, name :: rest)

theorem step?_append (h : fs.step? (l, parts) = some (l', parts')) (more : List String) :
    fs.step? (l, parts ++ more) = some (l', parts' ++ more) := by
  cases parts with
  | nil => cases h
  | cons name rest =>
    simp only [step?, List.cons_append] at h ⊢
    split at h
    · next hdot =>
      cases h
      rw [if_pos hdot]
    split at h
    · next hdot hup =>
      cases h
      rw [if_neg hdot, if_pos hup]
    · next hdot hup =>
      rw [if_neg hdot, if_neg hup]
      split at h
      · cases h
        rw [List.append_assoc]
      · cases h
        rfl

theorem Leads.append (h : fs.Leads (l, parts) (l', parts')) (more : List String) :
    fs.Leads (l, parts ++ more) (l', parts' ++ more) := by
  refine ReflTransGen.lift (fun walk : Location × List String => (walk.1, walk.2 ++ more))
    (fun walk walk' hstep => ?_) _ _ h
  exact step?_append hstep more

def avoids (fs : FileSystem) (directory : Location) (name : String) :
    (steps : Nat) → Location × List String → Bool
  | 0, _ => false
  | steps + 1, walk =>
    !(walk.1 = directory && walk.2.head? = some name) &&
      match fs.step? walk with
      | some next => avoids fs directory name steps next
      | none => true

theorem not_leads_of_avoids {directory : Location} {name : String} {steps : Nat}
    {walk : Location × List String} (h : fs.avoids directory name steps walk = true)
    (rest : List String) : ¬ fs.Leads walk (directory, name :: rest) := by
  induction steps generalizing walk with
  | zero => cases h
  | succ steps ih =>
    rw [avoids, Bool.and_eq_true] at h
    obtain ⟨hhere, hnext⟩ := h
    intro hleads
    rcases ReflTransGen.cases_head hleads with rfl | ⟨next, hstep, hleads⟩
    · simp at hhere
    · rw [hstep] at hnext
      exact ih hnext hleads

def avoidsLoops (fs : FileSystem) (steps : Nat) : Bool :=
  fs.entries.all fun
    | (location, .link target) =>
      fs.avoids location.dropLast (location.getLast?.getD "") steps
        (targetBase location.dropLast target, targetParts target)
    | _ => true

theorem isAcyclic_of_avoidsLoops {steps : Nat} (h : fs.avoidsLoops steps = true) :
    fs.IsAcyclic := by
  intro directory name target hentry _
  rw [entryAt?, if_neg (by simp)] at hentry
  have hlink := List.all_eq_true.mp h _ (Mapping.mem_of_get? hentry)
  simp only [List.dropLast_concat, List.getLast?_concat, Option.getD_some] at hlink
  exact not_leads_of_avoids hlink

-- ---------------------------------------------------------------------------
-- Open links
-- ---------------------------------------------------------------------------

def IsPlain (l : Location) : Prop := ∀ part ∈ l, part ≠ "" ∧ part ≠ "." ∧ part ≠ ".."

theorem entryAt?_of_scan_link {directory : Location} {target : String} (hparts : IsPlain parts)
    (h : fs.scan l parts = .ok (.link directory target [])) :
    fs.entryAt? (l ++ parts) = some (.link target) := by
  fun_induction scan fs l parts with
  | case1 | case2 | case4 | case7 | case10 | case11 => cases h
  | case3 | case5 | case6 => simp [IsPlain] at hparts
  | case8 l part rest hd hne hs hdot hup hsize other hl =>
    cases h
    exact hl
  | case9 l part rest hd hne hs hdot hup hsize entry hl he ih =>
    rw [List.append_cons]
    exact ih (List.forall_mem_cons.mp hparts).2 h

theorem entryAt?_of_linkAt? {target : String} (hl : IsPlain l)
    (h : fs.linkAt? (.ofLocation l) = some target) : fs.entryAt? l = some (.link target) := by
  unfold linkAt? at h
  split at h
  · next hscan =>
    cases h
    exact entryAt?_of_scan_link hl hscan
  · cases h

/-- The way along the target of a link comes to a location, with parts to follow from there. -/
def Within (fs : FileSystem) (link : Path) (l : Location) (parts : List String) : Prop :=
  ∃ directory name target, link = .ofLocation (directory ++ [name]) ∧
    fs.entryAt? (directory ++ [name]) = some (.link target) ∧
    fs.linkAt? (.ofLocation (directory ++ [name])) = some target ∧
    fs.Leads (targetBase directory target, targetParts target) (l, parts)

/-- Each link that is to be closed is one whose target leads here and through the parts before its
end; `before` are those that stand before all tasks. -/
def Pending (fs : FileSystem) (l : Location) : (before : List String) → List Task → Prop
  | _, [] => True
  | before, .part name :: tasks => Pending fs l (before ++ [name]) tasks
  | before, .close link :: tasks => fs.Within link l before ∧ Pending fs l before tasks

theorem Within.trans {link : Path} (h : fs.Within link l parts)
    (hleads : fs.Leads (l, parts) (l', parts')) : fs.Within link l' parts' := by
  obtain ⟨directory, name, target, rfl, hentry, hlink, hway⟩ := h
  exact ⟨directory, name, target, rfl, hentry, hlink, ReflTransGen.trans hway hleads⟩

theorem Pending.mono {before before' : List String} {tasks : List Task}
    (h : fs.Pending l before tasks)
    (hleads : ∀ more, fs.Leads (l, before ++ more) (l', before' ++ more)) :
    fs.Pending l' before' tasks := by
  induction tasks generalizing before before' with
  | nil => trivial
  | cons task tasks ih =>
    cases task with
    | part name =>
      refine ih h fun more => ?_
      simpa only [List.append_assoc] using hleads ([name] ++ more)
    | close link =>
      exact ⟨h.1.trans (by simpa only [List.append_nil] using hleads []), ih h.2 hleads⟩

theorem pending_parts {before : List String} {tasks : List Task} :
    fs.Pending l before (parts.map .part ++ tasks) ↔ fs.Pending l (before ++ parts) tasks := by
  induction parts generalizing before with
  | nil => simp
  | cons name rest ih =>
    rw [List.map_cons, List.cons_append, Pending, ih, List.append_assoc, List.singleton_append]

theorem Pending.of_mem {before : List String} {tasks : List Task} {link : Path}
    (h : fs.Pending l before tasks) (hm : Task.close link ∈ tasks) :
    ∃ more, fs.Within link l (before ++ more) := by
  induction tasks generalizing before with
  | nil => cases hm
  | cons task tasks ih =>
    cases task with
    | part name =>
      obtain ⟨more, hmore⟩ := ih h (by simpa using hm)
      exact ⟨name :: more, by simpa using hmore⟩
    | close other =>
      rcases List.mem_cons.mp hm with heq | hm
      · cases heq
        exact ⟨[], by simpa using h.1⟩
      · exact ih h.2 hm

structure Resolving (fs : FileSystem) (opened : Mapping Path (Option Path)) (l : Location)
    (tasks : List Task) : Prop where
  isPlain : IsPlain l
  pending : fs.Pending l [] tasks
  known : ∀ link known, Mapping.get? link opened = some (some known) →
    ∃ other, known = .ofLocation other ∧ IsPlain other ∧ fs.Within link other []
  closing : ∀ link, Mapping.get? link opened = some none → Task.close link ∈ tasks

namespace Resolving

variable {opened : Mapping Path (Option Path)} {tasks : List Task} {name target : String}

theorem follow (h : fs.Resolving opened l (.part name :: tasks)) (hl : IsPlain l')
    (hleads : fs.Leads (l, [name]) (l', [])) : fs.Resolving opened l' tasks := by
  refine ⟨hl, ?_, h.known, fun link hlink => by simpa using h.closing link hlink⟩
  exact Pending.mono (show fs.Pending l [name] tasks from h.pending) fun more => hleads.append more

theorem close {link : Path} (h : fs.Resolving opened l (.close link :: tasks)) :
    fs.Resolving (Mapping.put link (some (.ofLocation l)) opened) l tasks := by
  obtain ⟨hwithin, hpending⟩ := h.pending
  refine ⟨h.isPlain, hpending, fun other known hget => ?_, fun other hget => ?_⟩
  · by_cases ho : other = link
    · subst ho
      rw [Mapping.get?_put_self, Option.some.injEq, Option.some.injEq] at hget
      exact ⟨l, hget.symm, h.isPlain, hwithin⟩
    · rw [Mapping.get?_put_of_ne ho] at hget
      exact h.known other known hget
  · by_cases ho : other = link
    · subst ho
      rw [Mapping.get?_put_self] at hget
      cases hget
    · rw [Mapping.get?_put_of_ne ho] at hget
      simpa [ho] using h.closing other hget

theorem open_link (h : fs.Resolving opened l (.part name :: tasks))
    (hdot : ¬ (name = "" ∨ name = ".")) (hup : name ≠ "..")
    (hentry : fs.entryAt? (l ++ [name]) = some (.link target))
    (hlink : fs.linkAt? (.ofLocation (l ++ [name])) = some target) :
    fs.Resolving (Mapping.put (.ofLocation (l ++ [name])) none opened) (targetBase l target)
      ((targetParts target).map .part ++ .close (.ofLocation (l ++ [name])) :: tasks) := by
  refine ⟨?_, ?_, fun other known hget => ?_, fun other hget => ?_⟩
  · unfold targetBase
    split
    · exact List.forall_mem_nil _
    · exact h.isPlain
  · refine pending_parts.mpr ⟨⟨l, name, target, rfl, hentry, hlink, .refl⟩, ?_⟩
    refine Pending.mono (show fs.Pending l [name] tasks from h.pending) fun more => ?_
    refine ReflTransGen.single ?_
    simp [step?, hdot, hup, hlink]
  · by_cases ho : other = .ofLocation (l ++ [name])
    · rw [ho, Mapping.get?_put_self] at hget
      cases hget
    · rw [Mapping.get?_put_of_ne ho] at hget
      exact h.known other known hget
  · by_cases ho : other = .ofLocation (l ++ [name])
    · simp [ho]
    · rw [Mapping.get?_put_of_ne ho] at hget
      have hm := h.closing other hget
      simp only [List.mem_cons, reduceCtorEq, false_or] at hm
      simp [hm]

theorem ofLocation_concat_inj {directory : Location} {name' : String}
    (h : Path.ofLocation (l ++ [name]) = .ofLocation (directory ++ [name'])) :
    l = directory ∧ name = name' := by
  rw [Path.ofLocation, Path.ofLocation, Path.mk.injEq] at h
  obtain ⟨hl, hname⟩ := List.append_inj' h.2 rfl
  exact ⟨hl, (List.cons.inj hname).1⟩

/-- A link that is open is not met again. -/
theorem get?_ne_some_none (hfs : fs.IsAcyclic) (h : fs.Resolving opened l (.part name :: tasks)) :
    Mapping.get? (.ofLocation (l ++ [name])) opened ≠ some none := by
  intro hget
  have hm : Task.close (.ofLocation (l ++ [name])) ∈ tasks := by simpa using h.closing _ hget
  obtain ⟨more, directory, name', target, hlocation, hentry, hlink, hleads⟩ :=
    Pending.of_mem (show fs.Pending l [name] tasks from h.pending) hm
  obtain ⟨rfl, rfl⟩ := ofLocation_concat_inj hlocation
  exact hfs _ _ target hentry hlink more hleads

/-- A link that is known leads on from where its target ends. -/
theorem jump {known : Path} (h : fs.Resolving opened l (.part name :: tasks))
    (hdot : ¬ (name = "" ∨ name = ".")) (hup : name ≠ "..")
    (hget : Mapping.get? (.ofLocation (l ++ [name])) opened = some (some known)) :
    ∃ other, known = .ofLocation other ∧ fs.Resolving opened other tasks := by
  obtain ⟨other, rfl, hother, directory, name', target, hlocation, -, hlink, hleads⟩ :=
    h.known _ _ hget
  obtain ⟨rfl, rfl⟩ := ofLocation_concat_inj hlocation
  refine ⟨other, rfl, h.follow hother ?_⟩
  refine .head ?_ hleads
  simp [step?, hdot, hup, hlink]

end Resolving

-- ---------------------------------------------------------------------------
-- Links that are not open yet
-- ---------------------------------------------------------------------------

def openCost (opened : Mapping Path (Option Path)) (binding : Location × Entry) : Nat :=
  if Mapping.get? (.ofLocation binding.1) opened = none then linkCost binding else 0

def remaining (fs : FileSystem) (opened : Mapping Path (Option Path)) : Nat :=
  (fs.entries.map (openCost opened)).sum

theorem openCost_put_le (opened : Mapping Path (Option Path)) (link : Path) (value : Option Path)
    (binding : Location × Entry) :
    openCost (Mapping.put link value opened) binding ≤ openCost opened binding := by
  unfold openCost
  by_cases hb : Path.ofLocation binding.1 = link
  · simp [← hb, Mapping.get?_put_self]
  · exact (Mapping.get?_put_of_ne hb value opened).symm ▸ le_rfl

theorem remaining_put_le (opened : Mapping Path (Option Path)) (link : Path)
    (value : Option Path) : fs.remaining (Mapping.put link value opened) ≤ fs.remaining opened :=
  List.sum_le_sum fun binding _ => openCost_put_le opened link value binding

/-- The first opening of a link takes its steps away from those that remain. -/
theorem remaining_put_open {opened : Mapping Path (Option Path)} {target : String} (hne : l ≠ [])
    (hentry : fs.entryAt? l = some (.link target))
    (hget : Mapping.get? (.ofLocation l) opened = none) :
    fs.remaining (Mapping.put (.ofLocation l) none opened) + ((targetParts target).length + 2) ≤
      fs.remaining opened := by
  rw [entryAt?, if_neg hne] at hentry
  have hm := Mapping.mem_of_get? hentry
  unfold remaining
  obtain ⟨before, after, hsplit⟩ := List.append_of_mem hm
  have hfirst : openCost (Mapping.put (.ofLocation l) none opened) (l, .link target) = 0 := by
    simp [openCost, Mapping.get?_put_self]
  have hlast : openCost opened (l, .link target) = (targetParts target).length + 2 := by
    simp [openCost, hget, linkCost]
  have hle (bindings : Mapping Location Entry) :
      (bindings.map (openCost (Mapping.put (.ofLocation l) none opened))).sum ≤
        (bindings.map (openCost opened)).sum :=
    List.sum_le_sum fun binding _ => openCost_put_le opened _ none binding
  have hbefore := hle before
  have hafter := hle after
  rw [hsplit]
  simp only [List.map_append, List.map_cons, List.sum_append, List.sum_cons, hfirst, hlast]
  omega

-- ---------------------------------------------------------------------------
-- Resolution
-- ---------------------------------------------------------------------------

theorem above_ofLocation (h : IsPlain l) : above (.ofLocation l) = .ofLocation l.dropLast := by
  rcases List.eq_nil_or_concat l with rfl | ⟨front, name, rfl⟩
  · rfl
  · have hname := (h name (by simp)).2.2
    simp [above, Path.ofLocation, Path.parent, hname]

theorem targetStart_ofLocation (l : Location) (target : String) :
    targetStart (.ofLocation l) target = .ofLocation (targetBase l target) := by
  unfold targetStart targetBase
  split <;> rfl

theorem IsPlain.dropLast (h : IsPlain l) : IsPlain l.dropLast :=
  fun part hm => h part (List.dropLast_subset l hm)

theorem IsPlain.concat {name : String} (h : IsPlain l) (hdot : ¬ (name = "" ∨ name = "."))
    (hup : name ≠ "..") :
    IsPlain (l ++ [name]) := by
  intro part hm
  rcases List.mem_append.mp hm with hm | hm
  · exact h part hm
  · rw [List.mem_singleton.mp hm]
    exact ⟨fun he => hdot (.inl he), fun he => hdot (.inr he), hup⟩

theorem IsAcyclic.resolveTasks (hfs : fs.IsAcyclic) {fuel : Nat}
    {opened : Mapping Path (Option Path)} {tasks : List Task} (h : fs.Resolving opened l tasks)
    (hfuel : tasks.length + fs.remaining opened < fuel) :
    ∃ other, fs.resolveTasks fuel opened (.ofLocation l) tasks = .resolved other := by
  -- Each task takes one step, and a link pays for its target and its end when it is opened.
  induction fuel generalizing opened l tasks with
  | zero => omega
  | succ fuel ih =>
    cases tasks with
    | nil => exact ⟨_, rfl⟩
    | cons task tasks =>
      rw [List.length_cons] at hfuel
      cases task with
      | close link =>
        have hle := fs.remaining_put_le opened link (some (.ofLocation l))
        rw [FileSystem.resolveTasks]
        exact ih h.close (by omega)
      | part name =>
        rw [FileSystem.resolveTasks]
        by_cases hdot : name = "" ∨ name = "."
        · rw [if_pos hdot]
          refine ih (h.follow h.isPlain (.single ?_)) (by omega)
          simp [step?, hdot]
        by_cases hup : name = ".."
        · rw [if_neg hdot, if_pos hup, above_ofLocation h.isPlain]
          refine ih (h.follow h.isPlain.dropLast (.single ?_)) (by omega)
          simp [step?, hup]
        rw [if_neg hdot, if_neg hup]
        have hnext := h.isPlain.concat hdot hup
        simp only [show (Path.ofLocation l).child name = .ofLocation (l ++ [name]) from rfl]
        cases hlink : fs.linkAt? (.ofLocation (l ++ [name])) with
        | none =>
          refine ih (h.follow hnext (.single ?_)) (by omega)
          simp [step?, hdot, hup, hlink]
        | some target =>
          have hentry := entryAt?_of_linkAt? hnext hlink
          simp only
          split
          · next known hget =>
            obtain ⟨other, rfl, hother⟩ := h.jump hdot hup hget
            exact ih hother (by omega)
          · next hget => exact absurd hget (h.get?_ne_some_none hfs)
          · next hget =>
            have hle := remaining_put_open (by simp) hentry hget
            rw [targetStart_ofLocation]
            refine ih (h.open_link hdot hup hentry hlink) ?_
            simp only [List.length_append, List.length_map, List.length_cons]
            omega

/-- A path from the top has a resolved location, whatever links lead to it. -/
theorem IsAcyclic.resolve_ok (hfs : fs.IsAcyclic) {p : Path} (hnull : hasNull p = false)
    (hp : p.anchor = .top) : ∃ location, fs.resolve p = .ok location := by
  have hstart : fs.Resolving [] [] (p.parts.map .part) := by
    refine ⟨List.forall_mem_nil _, ?_, fun _ _ hget => (nomatch hget), fun _ hget => (nomatch hget)⟩
    have hpending : fs.Pending [] [] (p.parts.map .part ++ []) := pending_parts.mpr trivial
    simpa using hpending
  have hremaining : fs.remaining [] = (fs.entries.map linkCost).foldr (· + ·) 0 := by
    unfold remaining
    congr 1
  have hpath : ∃ location, fs.resolvePath p = .resolved location := by
    unfold resolvePath
    rw [hp]
    refine hfs.resolveTasks hstart ?_
    rw [resolveFuel_eq_linkCost, List.length_map, hremaining]
    have := Nat.le_mul_of_pos_left ((fs.entries.map linkCost).foldr (· + ·) 0)
      (show 0 < fs.working.length + 2 by omega)
    omega
  obtain ⟨location, hlocation⟩ := hpath
  unfold resolve
  rw [if_neg (by simp [hnull])]
  split
  · exact ⟨_, rfl⟩
  · exact ⟨location, by rw [resolveMissing, hlocation]⟩

end TreeManifest.FileSystem
