import TreeManifest.Proofs.Decimal.Unsigned
import TreeManifest.Proofs.Reply

/-!
# What replies cost

A reply that is read to its end adds what its chunks report to the counters, each report once and in
order (`absorb_counted`). A report with a negative number ends the reading with a failure
(`absorb_negative`), so a reply that makes a text has none.
-/

namespace TreeManifest

open Decimal (Unsigned)

def Chunk.usage? : Chunk → Option CallUsage
  | .usage call => some call
  | _ => none

def Reply.usages (reply : Reply) : List CallUsage := reply.chunks.filterMap Chunk.usage?

def Chunk.isLacking : Chunk → Bool
  | .lacking _ => true
  | _ => false

/-- The reports of usage before the first piece that lacks something. -/
def Reply.readUsages (reply : Reply) : List CallUsage :=
  (reply.chunks.takeWhile (!·.isLacking)).filterMap Chunk.usage?

-- ---------------------------------------------------------------------------
-- One report
-- ---------------------------------------------------------------------------

namespace CallUsage

variable {call : CallUsage}

/-- The price of a call as a double; a missing one is zero. -/
def price (call : CallUsage) : Float :=
  match call.cost with
  | some (.real x) => x
  | _ => 0.0

def PricedInDoubles (call : CallUsage) : Prop := ∀ cost ∈ call.cost, ∃ x, cost = .real x

def Negative (call : CallUsage) : Prop :=
  call.inputTokens < 0 ∨ call.outputTokens < 0 ∨ ∃ cost ∈ call.cost, cost.isNegative = true

theorem isNegative_charge :
    call.charge.isNegative = true ↔ ∃ cost ∈ call.cost, cost.isNegative = true := by
  have hzero : (Cost.real 0.0).isNegative = false := by decide
  unfold charge
  rcases call.cost with _ | n | x
  · simp [hzero]
  · by_cases hn : n = 0
    · simp only [hn, ↓reduceIte, hzero]
      simp [Cost.isNegative]
    · simp [hn]
  · by_cases hx : (x == 0.0) = true
    · simp only [hx, ↓reduceIte, hzero]
      simp [Cost.isNegative, Decimal.not_lt_zero_of_beq_zero hx]
    · simp [hx]

theorem isNegative_iff : call.isNegative = true ↔ call.Negative := by
  simp only [isNegative, Negative, ← isNegative_charge, Bool.or_eq_true, decide_eq_true_eq,
    or_assoc]

theorem PricedInDoubles.charge_eq (h : call.PricedInDoubles) :
    call.charge = .real (if call.price == 0.0 then 0.0 else call.price) := by
  have hzero : ((0.0 : Float) == 0.0) = true := by decide
  unfold charge price
  rcases hc : call.cost with _ | n | x
  · simp only [hzero, ↓reduceIte]
  · obtain ⟨x, hx⟩ := h (.whole n) hc
    cases hx
  · simp only
    split <;> rfl

theorem not_lt_zero_price (hn : ¬ call.Negative) : ¬ call.price < 0.0 := by
  intro hlt
  unfold price at hlt
  split at hlt
  · next x hc => exact hn (.inr (.inr ⟨.real x, hc, decide_eq_true hlt⟩))
  · exact absurd hlt (by decide)

theorem PricedInDoubles.add_charge {total : Float} (h : call.PricedInDoubles)
    (hn : ¬ call.Negative) (ht : Unsigned total) :
    ∃ x, call.charge.toFloat? = some x ∧ total + x = total + call.price ∧
      Unsigned (total + call.price) := by
  rw [h.charge_eq]
  by_cases hp : (call.price == 0.0) = true
  · rw [if_pos hp, ht.add_eq_of_beq_zero hp]
    exact ⟨0.0, rfl, rfl, ht.add Decimal.unsigned_zero⟩
  · rw [if_neg hp]
    exact ⟨_, rfl, rfl, ht.add (Decimal.unsigned_of_not_lt_zero (not_lt_zero_price hn) hp)⟩

end CallUsage

theorem Usage.add_negative {call : CallUsage} (usage : Usage) (h : call.Negative) :
    usage.add call =
      (usage, .error (.negativeUsage call.inputTokens call.outputTokens call.charge)) := by
  rw [add, if_pos (CallUsage.isNegative_iff.mpr h)]

theorem Usage.add_ok {call : CallUsage} {usage usage' : Usage}
    (h : usage.add call = (usage', .ok ())) :
    ¬ call.Negative ∧ ∃ x, call.charge.toFloat? = some x ∧
      usage' = { usage.countTokens call with cost := usage.cost + x } := by
  unfold add at h
  split at h
  · cases h
  · next hn =>
    refine ⟨fun hneg => hn (CallUsage.isNegative_iff.mpr hneg), ?_⟩
    split at h
    · next x hx =>
      cases h
      exact ⟨x, hx, rfl⟩
    · cases h

theorem Usage.add_of_pricedInDoubles {call : CallUsage} (usage : Usage) (h : call.PricedInDoubles)
    (hn : ¬ call.Negative) :
    usage.add call = ({ usage.countTokens call with
      cost := usage.cost + if call.price == 0.0 then 0.0 else call.price }, .ok ()) := by
  unfold add
  rw [if_neg fun hneg => hn (CallUsage.isNegative_iff.mp hneg), h.charge_eq]
  rfl

-- ---------------------------------------------------------------------------
-- All reports
-- ---------------------------------------------------------------------------

/-- The counters have grown by calls and by reports, each of them counted once and in order. -/
structure Counted (calls : Nat) (usages : List CallUsage) (before after : Usage) : Prop where
  inputTokens : after.inputTokens = before.inputTokens + (usages.map (·.inputTokens)).sum
  outputTokens : after.outputTokens = before.outputTokens + (usages.map (·.outputTokens)).sum
  calls : after.calls = before.calls + calls
  cost : (∀ call ∈ usages, call.PricedInDoubles) → Unsigned before.cost →
    after.cost = (usages.map (·.price)).foldl (· + ·) before.cost ∧ Unsigned after.cost

namespace Counted

theorem nil (usage : Usage) : Counted 0 [] usage usage :=
  ⟨by simp, by simp, rfl, fun _ h => ⟨rfl, h⟩⟩

theorem recordCall (usage : Usage) : Counted 1 [] usage usage.recordCall :=
  ⟨by simp [Usage.recordCall], by simp [Usage.recordCall], rfl, fun _ h => ⟨rfl, h⟩⟩

theorem of_add {call : CallUsage} {usage usage' : Usage} (h : usage.add call = (usage', .ok ())) :
    Counted 0 [call] usage usage' := by
  obtain ⟨hn, x, hx, rfl⟩ := Usage.add_ok h
  refine ⟨by simp [Usage.countTokens], by simp [Usage.countTokens], rfl, fun hd hu => ?_⟩
  obtain ⟨y, hy, hsum, hunsigned⟩ := (hd call List.mem_cons_self).add_charge hn hu
  obtain rfl : x = y := Option.some.inj (hx.symm.trans hy)
  exact ⟨hsum, hsum ▸ hunsigned⟩

theorem append {calls more : Nat} {usages others : List CallUsage} {before middle after : Usage}
    (h : Counted calls usages before middle) (h' : Counted more others middle after) :
    Counted (calls + more) (usages ++ others) before after := by
  refine ⟨?_, ?_, ?_, fun hd hu => ?_⟩
  · rw [h'.inputTokens, h.inputTokens, List.map_append, List.sum_append, Int.add_assoc]
  · rw [h'.outputTokens, h.outputTokens, List.map_append, List.sum_append, Int.add_assoc]
  · rw [h'.calls, h.calls, Nat.add_assoc]
  · obtain ⟨hcost, hmiddle⟩ := h.cost (fun call hm => hd call (List.mem_append_left _ hm)) hu
    rw [List.map_append, List.foldl_append, ← hcost]
    exact h'.cost (fun call hm => hd call (List.mem_append_right _ hm)) hmiddle

end Counted

namespace Manifest

theorem receive_counted {usage usage' : Usage} {chunks : List Chunk} {pieces : List Piece}
    (h : receive usage chunks = (usage', .ok pieces)) :
    Counted 0 (chunks.filterMap Chunk.usage?) usage usage' ∧
      ∀ call ∈ chunks.filterMap Chunk.usage?, ¬ call.Negative := by
  induction chunks generalizing usage pieces with
  | nil =>
    cases h
    exact ⟨.nil _, List.forall_mem_nil _⟩
  | cons chunk rest ih =>
    cases chunk with
    | text _ | notText _ =>
      simp only [receive] at h
      rcases hr : receive usage rest with ⟨usage₁, failure | more⟩
      · rw [hr] at h; cases h
      · rw [hr] at h; cases h
        exact ih hr
    | reasoning _ => exact ih h
    | other => exact ih h
    | lacking _ => cases h
    | usage call =>
      simp only [receive] at h
      rcases hu : usage.add call with ⟨usage₁, failure | ⟨⟩⟩
      · rw [hu] at h; cases h
      · rw [hu] at h
        obtain ⟨hcounted, hnonnegative⟩ := ih h
        exact ⟨(Counted.of_add hu).append hcounted,
          List.forall_mem_cons.mpr ⟨(Usage.add_ok hu).1, hnonnegative⟩⟩

theorem receive_negative (usage : Usage) {chunks : List Chunk}
    (hd : ∀ call ∈ chunks.filterMap Chunk.usage?, call.PricedInDoubles)
    (h : ∃ call ∈ (chunks.takeWhile (!·.isLacking)).filterMap Chunk.usage?, call.Negative) :
    ∃ call ∈ (chunks.takeWhile (!·.isLacking)).filterMap Chunk.usage?, call.Negative ∧
      (receive usage chunks).2 =
        .error (.negativeUsage call.inputTokens call.outputTokens call.charge) := by
  induction chunks generalizing usage with
  | nil => simp at h
  | cons chunk rest ih =>
    cases chunk with
    | text _ | notText _ =>
      obtain ⟨call, hm, hn, hr⟩ := ih usage hd h
      exact ⟨call, hm, hn, by simp only [receive, hr]; rfl⟩
    | reasoning _ => exact ih usage hd h
    | other => exact ih usage hd h
    | lacking _ => simp [Chunk.isLacking] at h
    | usage first =>
      simp only [List.takeWhile_cons, Chunk.isLacking, Bool.not_false, ↓reduceIte,
        List.filterMap_cons, Chunk.usage?, List.mem_cons, forall_eq_or_imp,
        exists_eq_or_imp] at hd h ⊢
      by_cases hfirst : first.Negative
      · exact .inl ⟨hfirst, by simp only [receive, Usage.add_negative usage hfirst]⟩
      · right
        simp only [receive, usage.add_of_pricedInDoubles hd.1 hfirst]
        exact ih _ hd.2 (h.resolve_left hfirst)

theorem absorb_counted {usage usage' : Usage} {reply : Reply} {text : String}
    (h : absorb usage reply = (usage', .ok text)) :
    Counted 0 reply.usages usage usage' ∧ ∀ call ∈ reply.usages, ¬ call.Negative := by
  simp only [absorb] at h
  rcases hr : receive usage reply.chunks with ⟨usage₁, failure | pieces⟩
  · rw [hr] at h; cases h
  · rw [hr] at h
    cases (Prod.mk.inj h).1
    exact receive_counted hr

theorem absorb_negative (usage : Usage) {reply : Reply}
    (hd : ∀ call ∈ reply.usages, call.PricedInDoubles)
    (h : ∃ call ∈ reply.readUsages, call.Negative) :
    ∃ call ∈ reply.readUsages, call.Negative ∧ (absorb usage reply).2 =
      .error (.negativeUsage call.inputTokens call.outputTokens call.charge) := by
  obtain ⟨call, hm, hn, hr⟩ := receive_negative usage hd h
  exact ⟨call, hm, hn, by simp only [absorb, hr]; rfl⟩

def IsReadable : Chunk → Prop
  | .usage call => call.PricedInDoubles ∧ ¬ call.Negative
  | .notText _ | .lacking _ => False
  | .text _ | .reasoning _ | .other => True

def addAll (usage : Usage) (usages : List CallUsage) : Usage :=
  usages.foldl (fun usage call => (usage.add call).1) usage

theorem receive_readable (usage : Usage) {chunks : List Chunk}
    (h : ∀ chunk ∈ chunks, IsReadable chunk) :
    receive usage chunks = (addAll usage (chunks.filterMap Chunk.usage?),
      .ok ((chunks.filterMap Chunk.text?).map .text)) := by
  induction chunks generalizing usage with
  | nil => rfl
  | cons chunk rest ih =>
    obtain ⟨hchunk, hrest⟩ := List.forall_mem_cons.mp h
    cases chunk with
    | text first =>
      rw [receive, ih usage hrest]
      rfl
    | reasoning _ => exact ih usage hrest
    | other => exact ih usage hrest
    | notText _ => exact hchunk.elim
    | lacking _ => exact hchunk.elim
    | usage call =>
      have hadd := usage.add_of_pricedInDoubles hchunk.1 hchunk.2
      simp only [receive, hadd]
      rw [ih _ hrest]
      simp [addAll, Chunk.usage?, Chunk.text?, hadd, List.filterMap_cons]

theorem joinFrom_text (index : Nat) (texts : List String) :
    joinFrom index (texts.map .text) = .ok (String.join texts) := by
  induction texts generalizing index with
  | nil => rfl
  | cons first rest ih =>
    rw [List.map_cons, joinFrom, ih]
    simp [Except.map]

/-- The reading of a reply whose pieces can all be read ends as the reply does. -/
theorem absorb_readable (usage : Usage) {reply : Reply}
    (h : ∀ chunk ∈ reply.chunks, IsReadable chunk) :
    absorb usage reply = (addAll usage reply.usages,
      match reply.failure with
      | none => .ok reply.text
      | some failure => .error failure) := by
  rw [absorb, receive_readable usage h]
  cases reply.failure with
  | none => exact Prod.ext rfl (joinFrom_text 0 _)
  | some failure => rfl

end Manifest

theorem Reply.readUsages_subset (reply : Reply) : reply.readUsages ⊆ reply.usages :=
  (List.takeWhile_sublist _).filterMap _ |>.subset

end TreeManifest
