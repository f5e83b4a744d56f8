import Mathlib.Data.List.Forall2
import TreeManifest.Proofs.Prompt.Scope

/-!
# Scopes within scopes

What lies within a directory of a scope is what lies within the directory that the two paths lead
to: the keys of a scope are written as their paths are read, so a scope can be taken of them again
(`scopedKey?_join`), and a mapping in which spellings of one path meet keeps place and text of each
when its keys are cut down once more (`Mapping.rekey_ofList`). Where no spellings meet, a scope is
the descriptions of what lies below, one by one and in their order (`scope_compose`).
-/

namespace TreeManifest

-- ---------------------------------------------------------------------------
-- Mappings with other keys
-- ---------------------------------------------------------------------------

namespace Mapping

variable {κ κ' κ'' α : Type}

def rekey (f : κ → Option κ') (bindings : List (κ × α)) : List (κ' × α) :=
  bindings.filterMap fun (key, value) => (f key).map (·, value)

theorem rekey_cons_none {f : κ → Option κ'} {key : κ} (h : f key = none) (value : α)
    (rest : List (κ × α)) : rekey f ((key, value) :: rest) = rekey f rest := by
  simp [rekey, h]

theorem rekey_cons_some {f : κ → Option κ'} {key : κ} {key' : κ'} (h : f key = some key')
    (value : α) (rest : List (κ × α)) :
    rekey f ((key, value) :: rest) = (key', value) :: rekey f rest := by
  simp [rekey, h]

theorem rekey_rekey (f : κ → Option κ') (g : κ' → Option κ'') (bindings : List (κ × α)) :
    rekey g (rekey f bindings) = rekey (fun key => (f key).bind g) bindings := by
  rw [rekey, rekey, List.filterMap_filterMap, rekey]
  congr 1
  funext binding
  cases h : f binding.1 <;> simp [h]

def TellsApart (f : κ → Option κ') (keys : List κ) : Prop :=
  ∀ key ∈ keys, ∀ other ∈ keys, ∀ key', f key = some key' → f other = some key' → key = other

theorem TellsApart.mono {f : κ → Option κ'} {keys others : List κ} (h : TellsApart f keys)
    (hsub : others ⊆ keys) : TellsApart f others :=
  fun key hm other hm' => h key (hsub hm) other (hsub hm')

variable [DecidableEq κ]

theorem keys_put_subset (key : κ) (value : α) (m : Mapping κ α) :
    keys (put key value m) ⊆ key :: keys m := by
  by_cases h : key ∈ keys m
  · rw [keys_put_of_mem h]
    exact List.subset_cons_self key (keys m)
  · rw [keys_put_of_not_mem h]
    simp

theorem rekey_put_none {f : κ → Option κ'} {key : κ} (h : f key = none) (value : α)
    (m : Mapping κ α) : rekey f (put key value m) = rekey f m := by
  induction m with
  | nil => exact rekey_cons_none h value []
  | cons binding rest ih =>
    obtain ⟨k, v⟩ := binding
    rw [put]
    split
    · next hk =>
      subst hk
      rw [rekey_cons_none h, rekey_cons_none h]
    · cases hf : f k with
      | none => rw [rekey_cons_none hf, rekey_cons_none hf, ih]
      | some k' => rw [rekey_cons_some hf, rekey_cons_some hf, ih]

variable [DecidableEq κ']

theorem rekey_put_some {f : κ → Option κ'} {key : κ} {key' : κ'} (h : f key = some key')
    (value : α) {m : Mapping κ α} (hf : TellsApart f (key :: keys m)) :
    rekey f (put key value m) = put key' value (rekey f m) := by
  induction m with
  | nil => exact rekey_cons_some h value []
  | cons binding rest ih =>
    obtain ⟨k, v⟩ := binding
    have hrest := ih (hf.mono (List.cons_subset_cons key (List.subset_cons_self k (keys rest))))
    rw [put]
    split
    · next hk =>
      subst hk
      rw [rekey_cons_some h, rekey_cons_some h, put, if_pos rfl]
    · next hk =>
      cases hk' : f k with
      | none => rw [rekey_cons_none hk', rekey_cons_none hk', hrest]
      | some k' =>
        have hne : k' ≠ key' := by
          rintro rfl
          exact hk (hf k (by simp [keys]) key List.mem_cons_self k' hk' h)
        rw [rekey_cons_some hk', rekey_cons_some hk', put, if_neg hne, hrest]

/-- A mapping may get its keys when it has been built or before, if they tell the old ones apart. -/
theorem rekey_ofList {f : κ → Option κ'} {bindings : List (κ × α)}
    (h : TellsApart f (keys bindings)) : rekey f (ofList bindings) = ofList (rekey f bindings) := by
  -- The keys of what has been built are told apart from those that are still to come.
  suffices hfold : ∀ m : Mapping κ α, TellsApart f (keys m ++ keys bindings) →
      rekey f (bindings.foldl (fun m binding => put binding.1 binding.2 m) m) =
        (rekey f bindings).foldl (fun m binding => put binding.1 binding.2 m) (rekey f m) from
    hfold [] h
  clear h
  induction bindings with
  | nil => exact fun m _ => rfl
  | cons binding rest ih =>
    obtain ⟨key, value⟩ := binding
    intro m hm
    have hput : TellsApart f (keys (put key value m) ++ keys rest) := by
      refine hm.mono fun k hk => ?_
      rcases List.mem_append.mp hk with hk | hk
      · rcases List.mem_cons.mp (keys_put_subset key value m hk) with rfl | hk
        · simp [keys]
        · exact List.mem_append_left _ hk
      · exact List.mem_append_right _ (List.mem_cons_of_mem _ hk)
    rw [List.foldl_cons, ih _ hput]
    cases hf : f key with
    | none => rw [rekey_put_none hf, rekey_cons_none hf]
    | some key' =>
      have hone : TellsApart f (key :: keys m) := by
        refine hm.mono fun k hk => ?_
        rcases List.mem_cons.mp hk with rfl | hk
        · simp [keys]
        · exact List.mem_append_left _ hk
      rw [rekey_put_some hf value hone, rekey_cons_some hf, List.foldl_cons]

end Mapping

-- ---------------------------------------------------------------------------
-- Paths below paths
-- ---------------------------------------------------------------------------

namespace Path

/-- A path and another one after it; one with an anchor of its own stands for itself. -/
def join (p below : Path) : Path :=
  match below.anchor with
  | .here => ⟨p.anchor, p.parts ++ below.parts⟩
  | .top | .doubleTop => below

def IsBelow (p base : Path) : Prop :=
  p.anchor = base.anchor ∧ base.parts <+: p.parts ∧ p.parts ≠ base.parts

instance (p base : Path) : Decidable (p.IsBelow base) :=
  inferInstanceAs (Decidable (_ ∧ _ ∧ _))

theorem join_relative (p : Path) (parts : List String) :
    p.join ⟨.here, parts⟩ = ⟨p.anchor, p.parts ++ parts⟩ := rfl

theorem isBelow_iff {p base : Path} :
    p.IsBelow base ↔ ∃ parts, parts ≠ [] ∧ p = base.join ⟨.here, parts⟩ := by
  obtain ⟨anchor, all⟩ := p
  constructor
  · rintro ⟨hanchor, ⟨parts, hparts⟩, hne⟩
    simp only at hanchor hparts hne
    refine ⟨parts, ?_, by rw [join_relative, ← hanchor, hparts]⟩
    rintro rfl
    exact hne (by rw [← hparts, List.append_nil])
  · rintro ⟨parts, hparts, heq⟩
    rw [join_relative, Path.mk.injEq] at heq
    obtain ⟨rfl, rfl⟩ := heq
    exact ⟨rfl, List.prefix_append .., by simpa using hparts⟩

theorem ofString_toString_relative {parts : List String} (h : ∀ part ∈ parts, IsPart part) :
    ofString (⟨.here, parts⟩ : Path).toString = ⟨.here, parts⟩ := by
  by_cases hne : parts = []
  · subst hne
    decide
  have hslash : ∀ t ∈ parts.map String.toList, '/' ∉ t := by
    intro t ht
    obtain ⟨part, hm, rfl⟩ := List.mem_map.mp ht
    exact (h part hm).slash_not_mem
  have htext : (String.intercalate "/" parts).toList =
      ['/'].intercalate (parts.map String.toList) := String.toList_intercalate
  rw [toString_relative h hne, ofString, htext, partsOf_intercalate hslash (by simpa using hne)]
  have hid : (parts.map String.toList).map String.ofList = parts := by simp
  rw [hid, filter_parts h]
  obtain ⟨part, rest, rfl⟩ := List.exists_cons_of_ne_nil hne
  have hp := h part List.mem_cons_self
  obtain ⟨c, cs, hcs⟩ := List.exists_cons_of_ne_nil (toList_ne_nil hp)
  have hc : c ≠ '/' := fun hc => hp.slash_not_mem (by simp [hcs, hc])
  cases rest with
  | nil => simp [anchorOf, hcs, hc]
  | cons next rest => simp [anchorOf, hcs, hc, List.intercalate_cons_cons]

end Path

namespace Prompt

open Path (IsPart)

-- ---------------------------------------------------------------------------
-- Keys
-- ---------------------------------------------------------------------------

theorem scopedKey?_eq_some {directory : Path} {path key : String} :
    scopedKey? directory path = some key ↔
      ∃ parts, parts ≠ [] ∧ Path.ofString path = directory.join ⟨.here, parts⟩ ∧
        key = (⟨.here, parts⟩ : Path).toString := by
  rw [scopedKey?, Path.relativeTo?]
  constructor
  · intro h
    split at h
    · next relative hrelative =>
      split at hrelative
      · next hbelow =>
        obtain ⟨hanchor, rest, hrest⟩ := hbelow
        rw [← hrest, List.drop_left, Option.some.injEq] at hrelative
        subst hrelative
        split at h
        · cases h
        · next hne =>
          refine ⟨rest, hne, ?_, (Option.some.inj h).symm⟩
          rw [Path.join_relative, ← hanchor, hrest]
      · cases hrelative
    · cases h
  · rintro ⟨parts, hne, hpath, rfl⟩
    simp [hpath, Path.join_relative, hne]

theorem scopedKey?_eq_none_iff {directory : Path} {path : String} :
    scopedKey? directory path = none ↔ ¬ (Path.ofString path).IsBelow directory := by
  rw [Option.eq_none_iff_forall_ne_some, Path.isBelow_iff]
  constructor
  · rintro h ⟨parts, hne, hpath⟩
    exact h _ (scopedKey?_eq_some.mpr ⟨parts, hne, hpath, rfl⟩)
  · rintro h key hkey
    obtain ⟨parts, hne, hpath, -⟩ := scopedKey?_eq_some.mp hkey
    exact h ⟨parts, hne, hpath⟩

theorem ofString_key {directory : Path} {path : String} {parts : List String}
    (h : Path.ofString path = directory.join ⟨.here, parts⟩) :
    Path.ofString (⟨.here, parts⟩ : Path).toString = ⟨.here, parts⟩ := by
  refine Path.ofString_toString_relative fun part hm => ?_
  have hpart : part ∈ (Path.ofString path).parts := by
    rw [h]
    exact List.mem_append_right _ hm
  exact Path.isPart_of_mem_partsOf hpart

theorem join_ofString_key {directory : Path} {path key : String}
    (h : scopedKey? directory path = some key) :
    (Path.ofString key).anchor = .here ∧
      directory.join (Path.ofString key) = Path.ofString path := by
  obtain ⟨parts, -, hpath, rfl⟩ := scopedKey?_eq_some.mp h
  rw [ofString_key hpath]
  exact ⟨rfl, hpath.symm⟩

theorem toString_ofString_key {directory : Path} {path key : String}
    (h : scopedKey? directory path = some key) : (Path.ofString key).toString = key := by
  obtain ⟨parts, -, hpath, rfl⟩ := scopedKey?_eq_some.mp h
  rw [ofString_key hpath]

/-- Keys in a directory that is reached in two steps are made in two steps. -/
theorem scopedKey?_join (directory : Path) (below : List String) (path : String) :
    scopedKey? (directory.join ⟨.here, below⟩) path =
      (scopedKey? directory path).bind (scopedKey? ⟨.here, below⟩) := by
  have hjoin (parts : List String) :
      (directory.join ⟨.here, below⟩).join ⟨.here, parts⟩ =
        directory.join ⟨.here, below ++ parts⟩ := by
    simp only [Path.join_relative, List.append_assoc]
  refine Option.ext fun key => ?_
  rw [Option.bind_eq_some_iff, scopedKey?_eq_some]
  constructor
  · rintro ⟨parts, hne, hpath, rfl⟩
    rw [hjoin] at hpath
    refine ⟨_, scopedKey?_eq_some.mpr ⟨below ++ parts, by simp [hne], hpath, rfl⟩, ?_⟩
    exact scopedKey?_eq_some.mpr ⟨parts, hne, ofString_key hpath, rfl⟩
  · rintro ⟨middle, hmiddle, hkey⟩
    obtain ⟨all, -, hpath, rfl⟩ := scopedKey?_eq_some.mp hmiddle
    obtain ⟨parts, hne, hread, rfl⟩ := scopedKey?_eq_some.mp hkey
    refine ⟨parts, hne, ?_, rfl⟩
    rw [ofString_key hpath, Path.join_relative, Path.mk.injEq] at hread
    rw [hjoin, hpath, hread.2]

-- ---------------------------------------------------------------------------
-- Scopes
-- ---------------------------------------------------------------------------

theorem exists_of_mem_keys {analysis : Mapping String String} {directory : Path} {key : String}
    (h : key ∈ Mapping.keys (scopedBindings analysis directory)) :
    ∃ path, scopedKey? directory path = some key := by
  obtain ⟨binding, hm, rfl⟩ := List.mem_map.mp h
  obtain ⟨⟨path, description⟩, -, hbinding⟩ := List.mem_filterMap.mp hm
  obtain ⟨key, hkey, rfl⟩ := Option.map_eq_some_iff.mp hbinding
  exact ⟨path, hkey⟩

/-- Two keys of a scope are the same if they are the same within a directory of it. -/
theorem tellsApart_scopedBindings (analysis : Mapping String String) (root below : Path) :
    Mapping.TellsApart (scopedKey? below) (Mapping.keys (scopedBindings analysis root)) := by
  intro key hm other hm' inner hkey hother
  obtain ⟨path, hpath⟩ := exists_of_mem_keys hm
  obtain ⟨path', hpath'⟩ := exists_of_mem_keys hm'
  rw [← toString_ofString_key hpath, ← toString_ofString_key hpath', ← (join_ofString_key hkey).2,
    ← (join_ofString_key hother).2]

theorem scope_scope (analysis : Mapping String String) (root : Path) (below : List String) :
    scope (scope analysis root) ⟨.here, below⟩ = scope analysis (root.join ⟨.here, below⟩) := by
  have hkeys : (fun path => (scopedKey? root path).bind (scopedKey? ⟨.here, below⟩)) =
      scopedKey? (root.join ⟨.here, below⟩) :=
    funext fun path => (scopedKey?_join root below path).symm
  calc scope (scope analysis root) ⟨.here, below⟩
    _ = Mapping.ofList (Mapping.rekey (scopedKey? ⟨.here, below⟩)
          (Mapping.ofList (scopedBindings analysis root))) := rfl
    _ = Mapping.ofList (Mapping.ofList (Mapping.rekey (scopedKey? ⟨.here, below⟩)
          (scopedBindings analysis root))) := by
        rw [Mapping.rekey_ofList (tellsApart_scopedBindings analysis root ⟨.here, below⟩)]
    _ = Mapping.ofList (Mapping.rekey (scopedKey? ⟨.here, below⟩)
          (Mapping.rekey (scopedKey? root) analysis)) :=
        Mapping.ofList_eq_self (Mapping.nodup_keys_ofList _)
    _ = scope analysis (root.join ⟨.here, below⟩) := by
        rw [Mapping.rekey_rekey, hkeys]
        rfl

structure Rescoped (root : Path) (binding original : String × String) : Prop where
  description : binding.2 = original.2
  relative : (Path.ofString binding.1).anchor = .here
  path : root.join (Path.ofString binding.1) = Path.ofString original.1

theorem forall₂_filterMap_filter {α β : Type} {R : β → α → Prop} {f : α → Option β} {p : α → Bool}
    {xs : List α} (hsome : ∀ x ∈ xs, ∀ y, f x = some y → p x = true ∧ R y x)
    (hnone : ∀ x ∈ xs, f x = none → p x = false) :
    List.Forall₂ R (xs.filterMap f) (xs.filter p) := by
  induction xs with
  | nil => exact .nil
  | cons x rest ih =>
    have hrest := ih (fun y hm => hsome y (List.mem_cons_of_mem x hm))
      (fun y hm => hnone y (List.mem_cons_of_mem x hm))
    cases hf : f x with
    | none =>
      have hp := hnone x List.mem_cons_self hf
      rwa [List.filterMap_cons_none hf, List.filter_cons_of_neg (by simp [hp])]
    | some y =>
      obtain ⟨hp, hR⟩ := hsome x List.mem_cons_self y hf
      rw [List.filterMap_cons_some hf, List.filter_cons_of_pos hp]
      exact .cons hR hrest

theorem forall₂_scopedBindings (analysis : Mapping String String) (root : Path) :
    List.Forall₂ (Rescoped root) (scopedBindings analysis root)
      (analysis.filter fun binding => (Path.ofString binding.1).IsBelow root) := by
  refine forall₂_filterMap_filter (fun ⟨path, description⟩ _ binding h => ?_)
    (fun ⟨path, description⟩ _ h => ?_)
  · obtain ⟨key, hkey, rfl⟩ := Option.map_eq_some_iff.mp h
    obtain ⟨hanchor, hjoin⟩ := join_ofString_key hkey
    refine ⟨?_, rfl, hanchor, hjoin⟩
    by_contra hnot
    rw [scopedKey?_eq_none_iff.mpr (by simpa using hnot)] at hkey
    cases hkey
  · have hkey : scopedKey? root path = none := by simpa using h
    simpa using scopedKey?_eq_none_iff.mp hkey

theorem nodup_keys_scopedBindings {analysis : Mapping String String} (root : Path)
    (h : (analysis.map fun binding => Path.ofString binding.1).Nodup) :
    (Mapping.keys (scopedBindings analysis root)).Nodup := by
  rw [Mapping.keys, List.Nodup, scopedBindings, List.pairwise_map, List.pairwise_filterMap]
  rw [List.Nodup, List.pairwise_map] at h
  refine h.imp fun {binding other} hne kept hkept kept' hkept' heq => hne ?_
  obtain ⟨key, hkey, rfl⟩ := Option.map_eq_some_iff.mp hkept
  obtain ⟨key', hkey', rfl⟩ := Option.map_eq_some_iff.mp hkept'
  obtain rfl : key = key' := heq
  rw [← (join_ofString_key hkey).2, ← (join_ofString_key hkey').2]

/-- The scope of a scope is the scope of the joined path, whatever spellings of one path meet. If the
keys of the descriptions are the texts of different paths, their scope has one binding for each that
lies strictly below the root, in their order and with the same text, under the path that leads to it
from the root. -/
theorem scope_compose (analysis : Mapping String String) (root : Path) :
    (∀ below : Path, below.anchor = .here →
      scope (scope analysis root) below = scope analysis (root.join below)) ∧
    ((analysis.map fun binding => Path.ofString binding.1).Nodup →
      (Mapping.keys (scope analysis root)).Nodup ∧
      List.Forall₂ (Rescoped root) (scope analysis root)
        (analysis.filter fun binding => (Path.ofString binding.1).IsBelow root)) := by
  refine ⟨fun ⟨anchor, below⟩ hanchor => ?_, fun h => ⟨Mapping.nodup_keys_ofList _, ?_⟩⟩
  · obtain rfl : anchor = .here := hanchor
    exact scope_scope analysis root below
  · rw [scope, Mapping.ofList_eq_self (nodup_keys_scopedBindings root h)]
    exact forall₂_scopedBindings analysis root

def spelledAnalysis : Mapping String String :=
  [("/r/d/a", "first"), ("//r/d/b", "beside"), ("/r/./d//a", "again"), ("/r/d/../c", "up"),
    ("/r/d", "itself"), ("r/d/a", "relative")]

def plainAnalysis : Mapping String String :=
  [("/r/d/../c/", "up"), ("/r", "root"), ("/rd", "beside"), ("/r//d", "inner")]

theorem scope_compose_spelledAnalysis :
    scope (scope spelledAnalysis (Path.ofString "/r/")) (Path.ofString "./d") =
        scope spelledAnalysis ((Path.ofString "/r/").join (Path.ofString "./d")) ∧
      scope spelledAnalysis (Path.ofString "/r/d") = [("a", "again"), ("../c", "up")] ∧
      (plainAnalysis.map fun binding => Path.ofString binding.1).Nodup ∧
      List.Forall₂ (Rescoped (Path.ofString "/r")) (scope plainAnalysis (Path.ofString "/r"))
        [("/r/d/../c/", "up"), ("/r//d", "inner")] := by
  have hnodup : (plainAnalysis.map fun binding => Path.ofString binding.1).Nodup := by
    decide +kernel
  refine ⟨(scope_compose spelledAnalysis _).1 _ (by decide), by decide +kernel, hnodup, ?_⟩
  exact ((scope_compose plainAnalysis (Path.ofString "/r")).2 hnodup).2

end Prompt

end TreeManifest
