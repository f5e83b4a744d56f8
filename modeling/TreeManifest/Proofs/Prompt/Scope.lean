import Mathlib.Data.List.Pairwise
import TreeManifest.Prompt.Scope
import TreeManifest.Proofs.FileSystem.Tree

/-!
# Scopes and their parts

The descriptions within a root are told by the names that lead there (`scopedKey?_of_below`). If all
directories directly in the root that anything described lies in are at hand, then these
descriptions are those of the root's own files and, under the name of its directory, those within
each of the directories (`partitioned_scope`).
-/

namespace TreeManifest

namespace Prompt

open Path (IsPart)

variable {root : Location} {analysis : Mapping String String}

theorem scopedKey?_of_below {below : List String} (hroot : ∀ part ∈ root, IsPart part)
    (hbelow : ∀ part ∈ below, IsPart part) (hne : below ≠ []) :
    scopedKey? (Path.ofLocation root) (Path.ofLocation (root ++ below)).toString =
      some (String.intercalate "/" below) := by
  have hparts : ∀ part ∈ root ++ below, IsPart part := fun part hm =>
    (List.mem_append.mp hm).elim (hroot part) (hbelow part)
  rw [scopedKey?, Path.ofString_toString hparts]
  simp only [Path.relativeTo?, Path.ofLocation, List.prefix_append, and_self, ↓reduceIte,
    List.drop_left, hne]
  rw [Path.toString_relative hbelow hne]

theorem scopedKey?_eq_none {location : Location} (hparts : ∀ part ∈ location, IsPart part)
    (h : root <+: location → root = location) :
    scopedKey? (Path.ofLocation root) (Path.ofLocation location).toString = none := by
  rw [scopedKey?, Path.ofString_toString hparts]
  by_cases hp : root <+: location
  · simp [Path.relativeTo?, Path.ofLocation, h hp]
  · simp [Path.relativeTo?, Path.ofLocation, hp]

-- ---------------------------------------------------------------------------
-- Parts of a scope
-- ---------------------------------------------------------------------------

def prefixed (name : String) (descriptions : Mapping String String) : Mapping String String :=
  descriptions.map fun binding => (name ++ "/" ++ binding.1, binding.2)

def isNested (key : String) : Bool := key.toList.contains '/'

/-- The descriptions `whole` are those of single names and, part by part, those of the directories
named in `parts`: none is lost, none is there twice, and each part keeps its order. -/
structure Partitioned (whole : Mapping String String)
    (parts : List (String × Mapping String String)) : Prop where
  nodup : (Mapping.keys whole).Nodup
  perm : whole.Perm (whole.filter (fun binding => !isNested binding.1) ++
    parts.flatMap fun part => prefixed part.1 part.2)
  order : ∀ part ∈ parts, (prefixed part.1 part.2).Sublist whole

structure Below (root : Location) (analysis : Mapping String String) : Prop where
  isPart : ∀ part ∈ root, IsPart part
  nodup : (Mapping.keys analysis).Nodup
  keys : ∀ key ∈ Mapping.keys analysis, ∃ below, below ≠ [] ∧ (∀ part ∈ below, IsPart part) ∧
    key = (Path.ofLocation (root ++ below)).toString

theorem intercalate_cons (name : String) {below : List String} (hne : below ≠ []) :
    String.intercalate "/" (name :: below) = name ++ "/" ++ String.intercalate "/" below := by
  obtain ⟨next, rest, rfl⟩ := List.exists_cons_of_ne_nil hne
  rw [String.intercalate_cons_cons]

/-- Within a directory in the root, keys lack its name; what is elsewhere has no key. -/
theorem scopedKey?_child {name : String} {below : List String} (hroot : ∀ part ∈ root, IsPart part)
    (hname : IsPart name) (hbelow : ∀ part ∈ below, IsPart part) :
    (∃ rest, below = name :: rest ∧ rest ≠ [] ∧
      scopedKey? (Path.ofLocation (root ++ [name])) (Path.ofLocation (root ++ below)).toString =
        some (String.intercalate "/" rest)) ∨
    scopedKey? (Path.ofLocation (root ++ [name])) (Path.ofLocation (root ++ below)).toString =
      none := by
  have hchild : ∀ part ∈ root ++ [name], IsPart part := fun part hm =>
    (List.mem_append.mp hm).elim (hroot part) fun hm => List.mem_singleton.mp hm ▸ hname
  have hparts : ∀ part ∈ root ++ below, IsPart part := fun part hm =>
    (List.mem_append.mp hm).elim (hroot part) (hbelow part)
  by_cases h : root ++ [name] <+: root ++ below ∧ root ++ [name] ≠ root ++ below
  · obtain ⟨⟨rest, hrest⟩, hne⟩ := h
    have hcons : below = name :: rest := by
      rw [List.append_assoc, List.append_cancel_left_eq] at hrest
      exact hrest.symm
    subst hcons
    have hrestne : rest ≠ [] := by rintro rfl; exact hne rfl
    refine .inl ⟨rest, rfl, hrestne, ?_⟩
    rw [← hrest]
    exact scopedKey?_of_below hchild (fun part hm => hbelow part (List.mem_cons_of_mem name hm)) hrestne
  · refine .inr (scopedKey?_eq_none hparts fun hp => ?_)
    by_contra hne
    exact h ⟨hp, hne⟩

theorem filterMap_sublist {α β : Type} {f g : α → Option β} {xs : List α}
    (h : ∀ x ∈ xs, g x = none ∨ g x = f x) : (xs.filterMap g).Sublist (xs.filterMap f) := by
  induction xs with
  | nil => exact .slnil
  | cons x xs ih =>
    have hrest := ih fun y hm => h y (List.mem_cons_of_mem x hm)
    rcases h x List.mem_cons_self with hx | hx
    · rw [List.filterMap_cons_none hx]
      rcases hf : f x with _ | y
      · rwa [List.filterMap_cons_none hf]
      · rw [List.filterMap_cons_some hf]
        exact hrest.cons y
    · rcases hf : f x with _ | y
      · rwa [List.filterMap_cons_none hf, List.filterMap_cons_none (hx.trans hf)]
      · rw [List.filterMap_cons_some hf, List.filterMap_cons_some (hx.trans hf)]
        exact hrest.cons_cons y

theorem prefixed_scopedBindings (name : String) (analysis : Mapping String String) (p : Path) :
    prefixed name (scopedBindings analysis p) = analysis.filterMap fun binding =>
      (scopedKey? p binding.1).map fun key => (name ++ "/" ++ key, binding.2) := by
  rw [prefixed, scopedBindings, List.map_filterMap]
  congr 1
  funext binding
  obtain ⟨key, description⟩ := binding
  simp only
  cases scopedKey? p key <;> rfl

/-- A key of more than one part belongs to exactly one part. -/
theorem Partitioned.existsUnique {whole : Mapping String String}
    {parts : List (String × Mapping String String)} (h : Partitioned whole parts) {key : String}
    (hm : key ∈ Mapping.keys whole) (hn : isNested key = true) :
    ∃! part, part ∈ parts ∧ key ∈ Mapping.keys (prefixed part.1 part.2) := by
  have hkeys := h.perm.map Prod.fst
  rw [List.map_append, List.map_flatMap] at hkeys
  have hdisjoint := (List.nodup_flatMap.mp (List.nodup_append.mp (hkeys.nodup h.nodup)).2.1).2
  have hsymm : Std.Symm (Function.onFun List.Disjoint
      fun part : String × Mapping String String => (prefixed part.1 part.2).map Prod.fst) :=
    ⟨fun _ _ hd _ hm hm' => hd hm' hm⟩
  rcases List.mem_append.mp (hkeys.mem_iff.mp hm) with hown | hpart
  · obtain ⟨binding, hb, rfl⟩ := List.mem_map.mp hown
    simp [hn] at hb
  · obtain ⟨part, hp, hkey⟩ := List.mem_flatMap.mp hpart
    refine ⟨part, ⟨hp, hkey⟩, fun other ⟨ho, hkey'⟩ => ?_⟩
    by_contra hne
    exact hdisjoint.forall ho hp hne hkey' hkey

namespace Below

theorem mem_keys_of_mem {key description : String} (h : (key, description) ∈ analysis) :
    key ∈ Mapping.keys analysis :=
  List.mem_map.mpr ⟨_, h, rfl⟩

theorem nodup_bindings (h : Below root analysis) :
    (Mapping.keys (scopedBindings analysis (Path.ofLocation root))).Nodup := by
  have hkeys : Mapping.keys (scopedBindings analysis (Path.ofLocation root)) =
      (Mapping.keys analysis).filterMap (scopedKey? (Path.ofLocation root)) := by
    rw [Mapping.keys, scopedBindings, List.map_filterMap, Mapping.keys, List.filterMap_map]
    congr 1
    funext binding
    obtain ⟨key, description⟩ := binding
    simp only [Function.comp_apply]
    cases scopedKey? (Path.ofLocation root) key <;> rfl
  rw [hkeys, List.Nodup, List.pairwise_filterMap]
  refine h.nodup.imp_of_mem fun {key other} hm hm' hne k hk k' hk' heq => hne ?_
  obtain ⟨below, hne₁, hparts, rfl⟩ := h.keys key hm
  obtain ⟨below', hne₂, hparts', rfl⟩ := h.keys other hm'
  rw [scopedKey?_of_below h.isPart hparts hne₁, Option.some.injEq] at hk
  rw [scopedKey?_of_below h.isPart hparts' hne₂, Option.some.injEq] at hk'
  subst hk hk'
  rw [Path.intercalate_inj hparts hparts' hne₁ hne₂ heq]

theorem scope_root (h : Below root analysis) :
    scope analysis (Path.ofLocation root) = scopedBindings analysis (Path.ofLocation root) :=
  Mapping.ofList_eq_self h.nodup_bindings

theorem sublist_child (h : Below root analysis) {name : String} (hname : IsPart name) :
    (prefixed name (scopedBindings analysis (Path.ofLocation (root ++ [name])))).Sublist
      (scopedBindings analysis (Path.ofLocation root)) := by
  rw [prefixed_scopedBindings]
  refine filterMap_sublist fun binding hm => ?_
  obtain ⟨key, description⟩ := binding
  obtain ⟨below, hne, hparts, rfl⟩ := h.keys key (mem_keys_of_mem hm)
  simp only
  rcases scopedKey?_child h.isPart hname hparts with ⟨rest, rfl, hrest, hkey⟩ | hkey
  · rw [hkey, scopedKey?_of_below h.isPart hparts hne, intercalate_cons name hrest]
    exact .inr rfl
  · rw [hkey]
    exact .inl rfl

theorem scope_child (h : Below root analysis) {name : String} (hname : IsPart name) :
    scope analysis (Path.ofLocation (root ++ [name])) =
      scopedBindings analysis (Path.ofLocation (root ++ [name])) := by
  refine Mapping.ofList_eq_self ?_
  have hsub : (Mapping.keys (prefixed name
      (scopedBindings analysis (Path.ofLocation (root ++ [name]))))).Sublist
      (Mapping.keys (scopedBindings analysis (Path.ofLocation root))) :=
    (h.sublist_child hname).map _
  have hkeys : Mapping.keys (prefixed name
      (scopedBindings analysis (Path.ofLocation (root ++ [name])))) =
      (Mapping.keys (scopedBindings analysis (Path.ofLocation (root ++ [name])))).map
        (name ++ "/" ++ ·) := by
    rw [Mapping.keys, Mapping.keys, prefixed, List.map_map, List.map_map]
    rfl
  exact (hkeys ▸ h.nodup_bindings.sublist hsub).of_map _

/-- Each binding within the root is that of a single name or is one within a directory. -/
theorem mem_bindings (h : Below root analysis) {binding : String × String}
    (hm : binding ∈ scopedBindings analysis (Path.ofLocation root)) :
    isNested binding.1 = false ∨ ∃ name next rest, (∀ part ∈ name :: next :: rest, IsPart part) ∧
      (∃ description, ((Path.ofLocation (root ++ name :: next :: rest)).toString, description) ∈
        analysis) ∧
      binding ∈ prefixed name (scopedBindings analysis (Path.ofLocation (root ++ [name]))) := by
  obtain ⟨⟨key, description⟩, hmem, hbinding⟩ := List.mem_filterMap.mp hm
  obtain ⟨below, hne, hparts, rfl⟩ := h.keys key (mem_keys_of_mem hmem)
  simp only at hbinding
  rw [scopedKey?_of_below h.isPart hparts hne, Option.map_some, Option.some.injEq] at hbinding
  subst hbinding
  match below, hne with
  | [name], _ =>
    refine .inl ?_
    have hslash := (Path.slash_mem_intercalate hparts (List.cons_ne_nil name [])).not.mpr (by simp)
    simpa [isNested] using hslash
  | name :: next :: rest, _ =>
    have hname := hparts name List.mem_cons_self
    refine .inr ⟨name, next, rest, hparts, ⟨description, hmem⟩, ?_⟩
    rw [prefixed_scopedBindings, List.mem_filterMap]
    refine ⟨_, hmem, ?_⟩
    rcases scopedKey?_child h.isPart hname hparts with ⟨rest', heq, hrest, hkey⟩ | hkey
    · obtain rfl : rest' = next :: rest := (List.cons.inj heq).2.symm
      simp only [hkey, Option.map_some]
      rw [intercalate_cons name hrest]
    · have hlocation : root ++ name :: next :: rest = (root ++ [name]) ++ next :: rest := by simp
      have hchild : ∀ part ∈ root ++ [name], IsPart part := fun part hm =>
        (List.mem_append.mp hm).elim (h.isPart part) fun hm => List.mem_singleton.mp hm ▸ hname
      rw [hlocation, scopedKey?_of_below hchild (fun part hm => hparts part (List.mem_cons_of_mem _ hm))
        (List.cons_ne_nil next rest)] at hkey
      cases hkey

end Below

theorem isNested_prefixed {name : String} {descriptions : Mapping String String}
    {binding : String × String} (h : binding ∈ prefixed name descriptions) :
    isNested binding.1 = true := by
  obtain ⟨⟨key, description⟩, -, rfl⟩ := List.mem_map.mp h
  simp [isNested]

/-- A name that comes before the first slash is told by the whole. -/
theorem name_eq_of_prefixed {name other : String} {descriptions others : Mapping String String}
    {binding : String × String} (hname : IsPart name) (hother : IsPart other)
    (h : binding ∈ prefixed name descriptions) (h' : binding ∈ prefixed other others) :
    name = other := by
  obtain ⟨⟨key, description⟩, -, rfl⟩ := List.mem_map.mp h
  obtain ⟨⟨key', description'⟩, -, heq⟩ := List.mem_map.mp h'
  have hfront : ∀ {front rest : String}, IsPart front →
      (front ++ "/" ++ rest).toList.takeWhile (· ≠ '/') = front.toList := by
    intro front rest hf
    have hall : ∀ c ∈ front.toList, decide (c ≠ '/') = true := by
      intro c hc
      rw [decide_eq_true_eq]
      rintro rfl
      exact hf.slash_not_mem hc
    rw [String.append_assoc, String.toList_append, List.takeWhile_append_of_pos hall]
    simp
  rw [← String.toList_inj, ← hfront hname, ← hfront hother, (Prod.mk.inj heq).1]

/-- The bindings of single names and those within directories, by their names, are distinct. -/
theorem Below.nodup_divided (h : Below root analysis) {names : List String}
    (hnames : ∀ name ∈ names, IsPart name) (hnodup : names.Nodup) :
    (List.filter (fun binding => !isNested binding.1)
      (scopedBindings analysis (Path.ofLocation root)) ++ names.flatMap fun name =>
        prefixed name (scopedBindings analysis (Path.ofLocation (root ++ [name])))).Nodup := by
  have hbindings : (scopedBindings analysis (Path.ofLocation root)).Nodup :=
    h.nodup_bindings.of_map _
  have hflat : (names.flatMap fun name =>
      prefixed name (scopedBindings analysis (Path.ofLocation (root ++ [name])))).Nodup := by
    rw [List.nodup_flatMap]
    refine ⟨fun name hm => hbindings.sublist (h.sublist_child (hnames name hm)), ?_⟩
    refine hnodup.imp_of_mem fun {name other} hm hm' hne => ?_
    intro binding hb hb'
    exact hne (name_eq_of_prefixed (hnames name hm) (hnames other hm') hb hb')
  refine List.nodup_append.mpr ⟨hbindings.filter _, hflat, ?_⟩
  rintro binding hb other hb' rfl
  obtain ⟨name, -, hp⟩ := List.mem_flatMap.mp hb'
  have hnot := (List.mem_filter.mp hb).2
  simp [isNested_prefixed hp] at hnot

/-- The descriptions within a root are those of its own files and those within its directories, if
each directory that something described lies in is among them. -/
theorem partitioned_scope (h : Below root analysis) {names : List String}
    (hnames : ∀ name ∈ names, IsPart name) (hnodup : names.Nodup)
    (hcover : ∀ name next rest, (∀ part ∈ name :: next :: rest, IsPart part) →
      (Path.ofLocation (root ++ name :: next :: rest)).toString ∈
        Mapping.keys analysis → name ∈ names) :
    Partitioned (scope analysis (Path.ofLocation root))
      (names.map fun name => (name, scope analysis (Path.ofLocation (root ++ [name])))) := by
  have hparts : (names.map fun name =>
      (name, scope analysis (Path.ofLocation (root ++ [name])))).flatMap
        (fun part => prefixed part.1 part.2) = names.flatMap fun name =>
      prefixed name (scopedBindings analysis (Path.ofLocation (root ++ [name]))) := by
    rw [List.flatMap_map]
    refine List.flatMap_congr fun name hm => ?_
    simp only
    rw [h.scope_child (hnames name hm)]
  refine ⟨?_, ?_, ?_⟩
  · rw [h.scope_root]
    exact h.nodup_bindings
  · rw [hparts, h.scope_root]
    -- Neither side has a binding twice, so they need only have the same members.
    rw [List.perm_ext_iff_of_nodup (h.nodup_bindings.of_map _) (h.nodup_divided hnames hnodup)]
    intro binding
    rw [List.mem_append, List.mem_filter, List.mem_flatMap]
    constructor
    · intro hm
      rcases h.mem_bindings hm with hflat | ⟨name, next, rest, hpart, ⟨description, hmem⟩, hp⟩
      · exact .inl ⟨hm, by simp [hflat]⟩
      · exact .inr ⟨name, hcover name next rest hpart (Below.mem_keys_of_mem hmem), hp⟩
    · rintro (⟨hm, -⟩ | ⟨name, hm, hp⟩)
      · exact hm
      · exact (h.sublist_child (hnames name hm)).subset hp
  · intro part hm
    obtain ⟨name, hname, rfl⟩ := List.mem_map.mp hm
    simp only
    rw [h.scope_child (hnames name hname), h.scope_root]
    exact h.sublist_child (hnames name hname)

end Prompt

end TreeManifest
