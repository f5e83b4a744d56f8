import Mathlib.Data.ENat.Lattice
import TreeManifest.Provider.Call

/-!
# Calls that are made again

Only a rate limit makes a client call again, and only until a stream is open. So the number of calls
is told by the place of the first one that meets no rate limit (`Attempts.eq_min`), whatever the
streams hold. A client at work is told by its moves (`Progress.move`): a call, or what the next part
of an open stream gives. All calls come before all chunks, and what a client does for a request is
what its moves come to (`client_retries`).
-/

namespace TreeManifest.Provider

-- ---------------------------------------------------------------------------
-- Attempts
-- ---------------------------------------------------------------------------

namespace Opening

def isLimited : Opening → Bool
  | refused fault => isRateLimit fault
  | stream _ => false

def outcome : Opening → Except Fault (List Part)
  | refused fault => .error fault
  | stream parts => .ok parts

end Opening

/-- The place of the first call that meets no rate limit, counted from one; infinite if there is no
such call. -/
noncomputable def settledAt (openings : Nat → Opening) : ℕ∞ :=
  ⨅ (i : ℕ) (_ : (openings i).isLimited = false), ((i + 1 : ℕ) : ℕ∞)

/-- So many calls in a row, of at most `most`: all but the last one meet a rate limit, and the last
one settles the matter or is the last that is allowed. -/
structure Attempts (openings : Nat → Opening) (most made : Nat) : Prop where
  pos : 0 < made
  le : made ≤ most
  limited : ∀ i, i + 1 < made → (openings i).isLimited = true
  last : made = most ∨ (openings (made - 1)).isLimited = false

variable {openings : Nat → Opening} {most made : Nat}

theorem Attempts.eq_min (h : Attempts openings most made) :
    (made : ℕ∞) = min (most : ℕ∞) (settledAt openings) := by
  have hsettled : (made : ℕ∞) ≤ settledAt openings := by
    refine le_iInf₂ fun i hi => Nat.cast_le.mpr ?_
    by_contra hlt
    rw [h.limited i (by omega)] at hi
    cases hi
  refine le_antisymm (le_min (Nat.cast_le.mpr h.le) hsettled) ?_
  rcases h.last with hmost | hlast
  · exact (min_le_left _ _).trans_eq (by rw [hmost])
  · have hplace : made - 1 + 1 = made := Nat.sub_add_cancel h.pos
    exact (min_le_right _ _).trans ((iInf₂_le (made - 1) hlast).trans_eq (by rw [hplace]))

theorem Attempts.once (hpos : 0 < most) (hlast : 1 = most ∨ (openings 0).isLimited = false) :
    Attempts openings most 1 :=
  ⟨Nat.one_pos, hpos, by omega, hlast⟩

theorem Attempts.cons (hfirst : (openings 0).isLimited = true)
    (h : Attempts (fun i => openings (i + 1)) most made) :
    Attempts openings (most + 1) (made + 1) := by
  obtain ⟨hpos, hle, hlimited, hlast⟩ := h
  refine ⟨Nat.succ_pos _, Nat.succ_le_succ hle, fun i hi => ?_, ?_⟩
  · cases i with
    | zero => exact hfirst
    | succ i => exact hlimited i (Nat.lt_of_succ_lt_succ hi)
  · rw [Nat.sub_add_cancel hpos] at hlast
    exact hlast.imp (congrArg Nat.succ) id

/-- The outcome of a request is that of its last call. -/
theorem outcomeFrom_attempts (opening : Nat → Opening) (retries n : Nat) :
    Attempts (fun i => opening (n + i)) (retries + 1) (outcomeFrom opening retries n).2 ∧
      (outcomeFrom opening retries n).1 =
        (opening (n + ((outcomeFrom opening retries n).2 - 1))).outcome := by
  induction retries generalizing n with
  | zero =>
    rcases hopening : opening n with fault | parts <;> simp only [outcomeFrom, hopening]
    all_goals exact ⟨.once Nat.one_pos (.inl rfl), by simp [hopening, Opening.outcome]⟩
  | succ retries ih =>
    rcases hopening : opening n with fault | parts
    · by_cases hlimit : isRateLimit fault = true
      · obtain ⟨hattempts, houtcome⟩ := ih (n + 1)
        have hshift : (fun i => opening (n + 1 + i)) = fun i => opening (n + (i + 1)) := by
          funext i
          rw [Nat.add_right_comm, Nat.add_assoc]
        have hplace := Nat.sub_add_cancel hattempts.pos
        simp only [outcomeFrom, hopening, hlimit, if_true]
        refine ⟨(hshift ▸ hattempts).cons (by simp [hopening, Opening.isLimited, hlimit]), ?_⟩
        rw [houtcome, Nat.add_sub_cancel, Nat.add_right_comm, Nat.add_assoc, hplace]
      · simp only [outcomeFrom, hopening, if_neg hlimit]
        rw [Bool.not_eq_true] at hlimit
        exact ⟨.once (Nat.succ_pos _) (.inr (by simp [hopening, Opening.isLimited, hlimit])),
          by simp [hopening, Opening.outcome]⟩
    · simp only [outcomeFrom, hopening]
      exact ⟨.once (Nat.succ_pos _) (.inr (by simp [hopening, Opening.isLimited])),
        by simp [hopening, Opening.outcome]⟩

-- ---------------------------------------------------------------------------
-- A client at work
-- ---------------------------------------------------------------------------

inductive Deed where
  | calls (call : Call)
  | yields (chunk : Chunk)

inductive Progress where
  /-- It is about to make a call, after so many that met a rate limit. -/
  | calling (limited : Nat)
  /-- A stream is open: the usage that it has reported, and the parts that are to come. -/
  | streaming (usage : Option Json) (parts : List Part)
  | ended (failure : Option Failure)

/-- One move of a client: what it does, and how far it has come then. Its calls have the numbers
from `first` on. -/
def Progress.move (behaviour : Behaviour) (call : Call) (first : Nat) :
    Progress → List Deed × Progress
  | calling limited =>
    ([.calls call], match behaviour.opening (first + limited) with
      | .stream parts => .streaming none parts
      | .refused fault =>
        if isRateLimit fault && limited + 1 < maxAttempts then .calling (limited + 1)
        else .ended (some (.raised fault)))
  | streaming usage [] =>
    let reply := ending call.model.name behaviour.prices usage
    (reply.chunks.map .yields, .ended reply.failure)
  | streaming _ (.breaksOff fault :: _) => ([], .ended (some (.raised fault)))
  | streaming usage (.record part :: parts) =>
    match partChunks part with
    | .error failure => ([], .ended (some failure))
    | .ok chunks => (chunks.map .yields, .streaming ((partUsage? part).or usage) parts)
  | ended failure => ([], .ended failure)

inductive Works (behaviour : Behaviour) (call : Call) (first : Nat) :
    Progress → List Deed → Progress → Prop
  | rest (p : Progress) : Works behaviour call first p [] p
  | move {p q : Progress} {deeds : List Deed}
      (h : Works behaviour call first (p.move behaviour call first).2 deeds q) :
      Works behaviour call first p ((p.move behaviour call first).1 ++ deeds) q

variable {behaviour : Behaviour} {call : Call} {first : Nat} {p q : Progress}
  {deeds done : List Deed} {failure : Option Failure}

theorem Works.of_ended (h : Works behaviour call first (.ended failure) deeds q) :
    deeds = [] ∧ q = .ended failure := by
  generalize hp : Progress.ended failure = p at h
  induction h with
  | rest => exact ⟨rfl, rfl⟩
  | move _ ih =>
    subst hp
    exact ih rfl

theorem Works.exists_rest (h : Works behaviour call first p done q)
    (hend : Works behaviour call first p deeds (.ended failure)) :
    ∃ rest, Works behaviour call first q rest (.ended failure) ∧ deeds = done ++ rest := by
  induction h generalizing deeds with
  | rest => exact ⟨deeds, hend, rfl⟩
  | move h ih =>
    cases hend with
    | rest =>
      obtain ⟨rfl, rfl⟩ := h.of_ended
      exact ⟨[], .rest _, rfl⟩
    | move hend =>
      obtain ⟨rest, hrest, rfl⟩ := ih hend
      exact ⟨rest, hrest, (List.append_assoc _ _ _).symm⟩

/-- From an open stream on a client yields the chunks of its reply, and calls no more. -/
theorem works_streaming (behaviour : Behaviour) (call : Call) (first : Nat) (usage : Option Json)
    (parts : List Part) :
    Works behaviour call first (.streaming usage parts)
      ((replyFrom call.model.name behaviour.prices usage parts).chunks.map .yields)
      (.ended (replyFrom call.model.name behaviour.prices usage parts).failure) := by
  induction parts generalizing usage with
  | nil =>
    have hmove := @Works.move behaviour call first (.streaming usage [])
    simpa only [Progress.move, replyFrom, List.append_nil] using hmove (.rest _)
  | cons part parts ih =>
    cases part with
    | breaksOff fault => exact Works.move (.rest _)
    | record part =>
      have hmove := @Works.move behaviour call first (.streaming usage (.record part :: parts))
      rcases hchunks : partChunks part with failure | chunks
      · simp only [Progress.move, replyFrom, hchunks] at hmove ⊢
        exact hmove (.rest _)
      · simp only [Progress.move, replyFrom, hchunks, List.map_append] at hmove ⊢
        exact hmove (ih _)

def replyTo (model : Model) (prices : PriceList) : Except Fault (List Part) → Reply
  | .error fault => ⟨[], [], some (.raised fault)⟩
  | .ok parts => replyFrom model.name prices none parts

/-- A client that has met some rate limits makes its further calls, and then yields the chunks of its
reply. -/
theorem works_calling (behaviour : Behaviour) (call : Call) (first retries limited : Nat)
    (hretries : limited + retries + 1 = maxAttempts) (outcome : Except Fault (List Part))
    (made : Nat) (h : outcomeFrom behaviour.opening retries (first + limited) = (outcome, made)) :
    Works behaviour call first (.calling limited)
      (List.replicate made (.calls call) ++
        (replyTo call.model behaviour.prices outcome).chunks.map .yields)
      (.ended (replyTo call.model behaviour.prices outcome).failure) := by
  have hmove := @Works.move behaviour call first (.calling limited)
  -- On the calls that are left: the limits that have been met and those calls make up the most calls.
  induction retries generalizing limited made with
  | zero =>
    simp only [outcomeFrom] at h
    rcases hopening : behaviour.opening (first + limited) with fault | parts
    · have hlast : (isRateLimit fault && decide (limited + 1 < maxAttempts)) = false := by
        simp [← hretries]
      simp only [hopening] at h
      cases h
      simp only [Progress.move, hopening, hlast] at hmove
      exact hmove (.rest _)
    · simp only [hopening] at h
      cases h
      simp only [Progress.move, hopening] at hmove
      exact hmove (works_streaming _ _ _ _ _)
  | succ retries ih =>
    simp only [outcomeFrom] at h
    rcases hopening : behaviour.opening (first + limited) with fault | parts
    · have hmore : limited + 1 < maxAttempts := by omega
      simp only [hopening] at h
      simp only [Progress.move, hopening, hmore, decide_true, Bool.and_true] at hmove
      by_cases hlimit : isRateLimit fault = true
      · simp only [hlimit, if_true] at h hmove
        cases h
        exact hmove (ih (limited + 1) (by omega) _ rfl (@Works.move behaviour call first _))
      · simp only [if_neg hlimit] at h hmove
        cases h
        exact hmove (.rest _)
    · simp only [hopening] at h
      cases h
      simp only [Progress.move, hopening] at hmove
      exact hmove (works_streaming _ _ _ _ _)

-- ---------------------------------------------------------------------------
-- Requests
-- ---------------------------------------------------------------------------

/-- The records before a break are read before it, and the break ends the reply. -/
theorem replyFrom_breaksOff {model : String} {prices : PriceList} {records : List Json}
    (h : ∀ part ∈ records, ∃ chunks, partChunks part = .ok chunks) (usage : Option Json)
    (fault : Fault) (rest : List Part) :
    (replyFrom model prices usage (records.map .record ++ .breaksOff fault :: rest)).failure =
      some (.raised fault) := by
  induction records generalizing usage with
  | nil => rfl
  | cons part records ih =>
    obtain ⟨⟨chunks, hchunks⟩, hrecords⟩ := List.forall_mem_cons.mp h
    rw [List.map_cons, List.cons_append, replyFrom, hchunks]
    exact ih hrecords _

/-- What a client makes of a request: `made` calls, of which only the last one matters, and the
reply. Nothing is yielded before the last call, and after it no call is made. -/
structure Answers (behaviour : Behaviour) (call : Call) (first made : Nat) (reply : Reply) : Prop where
  count : (made : ℕ∞) = min (maxAttempts : ℕ∞) (settledAt fun i => behaviour.opening (first + i))
  refused : ∀ fault, behaviour.opening (first + (made - 1)) = .refused fault →
    reply = ⟨[], [], some (.raised fault)⟩
  opened : ∀ parts, behaviour.opening (first + (made - 1)) = .stream parts →
    reply = replyFrom call.model.name behaviour.prices none parts
  broken : ∀ (records : List Json) (fault : Fault) (rest : List Part),
    (∀ part ∈ records, ∃ chunks, partChunks part = .ok chunks) →
    behaviour.opening (first + (made - 1)) = .stream (records.map .record ++ .breaksOff fault :: rest) →
    reply.failure = some (.raised fault)
  works : Works behaviour call first (.calling 0)
    (List.replicate made (.calls call) ++ reply.chunks.map .yields) (.ended reply.failure)
  front : ∀ done p, Works behaviour call first (.calling 0) done p →
    done <+: List.replicate made (.calls call) ++ reply.chunks.map .yields

/-- A client makes the same call until one meets no rate limit, three times at most, and then yields
the stream that is open or fails as its last call did. -/
theorem client_retries (behaviour : Behaviour) (model : Model) (request : Request)
    (calls : List Call) :
    ∃ made, (client behaviour model request calls).2 =
        calls ++ List.replicate made ⟨model, request⟩ ∧
      Answers behaviour ⟨model, request⟩ calls.length made
        (client behaviour model request calls).1 := by
  obtain ⟨hattempts, houtcome⟩ :=
    outcomeFrom_attempts behaviour.opening (maxAttempts - 1) calls.length
  rcases hfrom : outcomeFrom behaviour.opening (maxAttempts - 1) calls.length with ⟨outcome, made⟩
  simp only [hfrom] at hattempts houtcome
  have hclient : client behaviour model request calls =
      (replyTo model behaviour.prices outcome, calls ++ List.replicate made ⟨model, request⟩) := by
    unfold client
    rw [hfrom]
    cases outcome <;> rfl
  have hworks := works_calling behaviour ⟨model, request⟩ calls.length (maxAttempts - 1) 0 rfl
    outcome made hfrom
  rw [hclient]
  subst houtcome
  refine ⟨made, rfl, hattempts.eq_min, fun fault h => ?_, fun parts h => ?_,
    fun records fault rest hrecords h => ?_, hworks, fun done p h => ?_⟩
  · rw [h]
    rfl
  · rw [h]
    rfl
  · rw [h]
    exact replyFrom_breaksOff hrecords none fault rest
  · obtain ⟨rest, -, hrest⟩ := h.exists_rest hworks
    exact ⟨rest, hrest.symm⟩

end TreeManifest.Provider
