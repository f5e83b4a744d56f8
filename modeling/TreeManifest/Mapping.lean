/-!
# Ordered mappings

A mapping is the list of its bindings in the order in which their keys first appeared. `put` binds a
key to a value: in its old place if it has one, at the end otherwise. So the keys of a mapping built
by `put` are distinct, and their order is never changed.
-/

namespace TreeManifest

abbrev Mapping (κ : Type u) (α : Type v) := List (κ × α)

namespace Mapping

variable {κ : Type u} {α : Type v} [DecidableEq κ]

def keys (m : Mapping κ α) : List κ := m.map (·.1)

def put (key : κ) (value : α) : Mapping κ α → Mapping κ α
  | [] => [(key, value)]
  | (k, v) :: rest => if k = key then (k, value) :: rest else (k, v) :: put key value rest

def ofList (bindings : List (κ × α)) : Mapping κ α :=
  bindings.foldl (fun m (key, value) => put key value m) []

def get? (key : κ) : Mapping κ α → Option α
  | [] => none
  | (k, v) :: rest => if k = key then some v else get? key rest

theorem get?_put_self (key : κ) (value : α) (m : Mapping κ α) :
    get? key (put key value m) = some value := by
  induction m with
  | nil => simp [put, get?]
  | cons binding rest ih =>
    obtain ⟨k, v⟩ := binding
    by_cases h : k = key <;> simp [put, get?, h, ih]

theorem get?_put_of_ne {key other : κ} (h : other ≠ key) (value : α) (m : Mapping κ α) :
    get? other (put key value m) = get? other m := by
  induction m with
  | nil => simp [put, get?, Ne.symm h]
  | cons binding rest ih =>
    obtain ⟨k, v⟩ := binding
    by_cases hk : k = key
    · subst hk; simp [put, get?, Ne.symm h]
    · simp [put, get?, hk, ih]

theorem keys_put_of_mem {key : κ} {value : α} {m : Mapping κ α} (h : key ∈ keys m) :
    keys (put key value m) = keys m := by
  induction m with
  | nil => simp [keys] at h
  | cons binding rest ih =>
    obtain ⟨k, v⟩ := binding
    by_cases hk : k = key
    · simp [put, keys, hk]
    · have hr : key ∈ keys rest := by simpa [keys, Ne.symm hk] using h
      have := ih hr
      simp only [keys] at this ⊢
      simp [put, hk, this]

theorem keys_put_of_not_mem {key : κ} {value : α} {m : Mapping κ α} (h : key ∉ keys m) :
    keys (put key value m) = keys m ++ [key] := by
  induction m with
  | nil => rfl
  | cons binding rest ih =>
    obtain ⟨k, v⟩ := binding
    have hk : k ≠ key := by rintro rfl; simp [keys] at h
    have hr : key ∉ keys rest := fun hm => h (List.mem_cons_of_mem _ hm)
    have := ih hr
    simp only [keys] at this ⊢
    simp [put, hk, this]

theorem nodup_keys_put {key : κ} {value : α} {m : Mapping κ α} (h : (keys m).Nodup) :
    (keys (put key value m)).Nodup := by
  by_cases hm : key ∈ keys m
  · rwa [keys_put_of_mem hm]
  · rw [keys_put_of_not_mem hm, List.nodup_append]
    refine ⟨h, by simp, ?_⟩
    rintro a ha b hb rfl
    exact hm (List.mem_singleton.1 hb ▸ ha)

theorem nodup_keys_ofList (bindings : List (κ × α)) : (keys (ofList bindings)).Nodup := by
  unfold ofList
  suffices h : ∀ m : Mapping κ α, (keys m).Nodup →
      (keys (bindings.foldl (fun m (key, value) => put key value m) m)).Nodup from
    h [] List.nodup_nil
  induction bindings with
  | nil => exact fun m h => h
  | cons binding rest ih => exact fun m h => ih _ (nodup_keys_put h)

theorem put_of_not_mem {key : κ} {value : α} {m : Mapping κ α} (h : key ∉ keys m) :
    put key value m = m ++ [(key, value)] := by
  induction m with
  | nil => rfl
  | cons binding rest ih =>
    obtain ⟨k, v⟩ := binding
    simp only [keys, List.map_cons, List.mem_cons, not_or] at h
    rw [put, if_neg (Ne.symm h.1), ih h.2, List.cons_append]

theorem ofList_eq_self {bindings : List (κ × α)} (h : (keys bindings).Nodup) :
    ofList bindings = bindings := by
  suffices hfold : ∀ m : Mapping κ α, (keys (m ++ bindings)).Nodup →
      bindings.foldl (fun m binding => put binding.1 binding.2 m) m = m ++ bindings from
    hfold [] h
  clear h
  induction bindings with
  | nil => simp
  | cons binding rest ih =>
    obtain ⟨key, value⟩ := binding
    intro m hn
    have hkey : key ∉ keys m := by
      rw [keys, List.map_append, List.nodup_append] at hn
      exact fun hm => hn.2.2 key hm key List.mem_cons_self rfl
    rw [List.foldl_cons]
    simp only
    rw [put_of_not_mem hkey, ih (m ++ [(key, value)]) (by simpa using hn)]
    simp

theorem mem_put {key : κ} {value : α} {m : Mapping κ α} {binding : κ × α}
    (h : binding ∈ put key value m) : binding = (key, value) ∨ binding ∈ m := by
  induction m with
  | nil => exact .inl (List.mem_singleton.mp h)
  | cons first rest ih =>
    obtain ⟨k, v⟩ := first
    unfold put at h
    split at h
    · next hk =>
      rcases List.mem_cons.mp h with rfl | h
      · exact .inl (hk ▸ rfl)
      · exact .inr (List.mem_cons_of_mem _ h)
    · rcases List.mem_cons.mp h with rfl | h
      · exact .inr List.mem_cons_self
      · exact (ih h).imp_right (List.mem_cons_of_mem _)

theorem mem_ofList {bindings : List (κ × α)} {binding : κ × α} (h : binding ∈ ofList bindings) :
    binding ∈ bindings := by
  suffices hfold : ∀ m : Mapping κ α,
      binding ∈ bindings.foldl (fun m (key, value) => put key value m) m →
        binding ∈ m ∨ binding ∈ bindings from
    (hfold [] h).resolve_left List.not_mem_nil
  clear h
  induction bindings with
  | nil => exact fun m h => .inl h
  | cons first rest ih =>
    intro m h
    rcases ih _ h with h | h
    · rcases mem_put h with rfl | h
      · exact .inr List.mem_cons_self
      · exact .inl h
    · exact .inr (List.mem_cons_of_mem _ h)

theorem get?_ofList (key : κ) (bindings : List (κ × α)) :
    get? key (ofList bindings) = bindings.reverse.lookup key := by
  suffices hfold : ∀ m : Mapping κ α,
      get? key (bindings.foldl (fun m (key, value) => put key value m) m) =
        (bindings.reverse.lookup key).or (get? key m) by
    exact (hfold []).trans Option.or_none
  induction bindings with
  | nil => exact fun m => rfl
  | cons binding rest ih =>
    obtain ⟨k, v⟩ := binding
    intro m
    rw [List.foldl_cons, ih, List.reverse_cons, List.lookup_append, Option.or_assoc]
    by_cases hk : key = k
    · subst hk
      simp [get?_put_self]
    · have hkey : (key == k) = false := beq_false_of_ne hk
      simp [get?_put_of_ne hk, List.lookup_cons, hkey]

end Mapping

end TreeManifest
