import TreeManifest.Proofs.Decimal.Rounding
import TreeManifest.Proofs.Usage

/-!
# How totals grow

Over calls and reports in any order no count falls, and the total of the prices does not fall as
long as it is a number: a price that is none passes the test for negative prices, and from then on
the total stands in no order (`postAll_grows`). A report with a negative number leaves everything as
it was; one whose price no double is near is refused when its tokens have been counted.
-/

namespace TreeManifest

-- ---------------------------------------------------------------------------
-- Prices
-- ---------------------------------------------------------------------------

namespace CallUsage

variable {call : CallUsage}

def IsPricedNaN (call : CallUsage) : Prop := ∃ x, call.cost = some (.real x) ∧ x.isNaN = true

def IsHuge (call : CallUsage) : Prop := ∃ n, call.cost = some (.whole n) ∧ Decimal.ofInt? n = none

theorem toFloat?_charge_eq_none : call.charge.toFloat? = none ↔ call.IsHuge := by
  unfold charge IsHuge
  rcases call.cost with _ | n | x
  · simp [Cost.toFloat?]
  · by_cases hn : n = 0
    · have hzero : Decimal.ofInt? 0 = some 0.0 := by decide
      simp [hn, Cost.toFloat?, hzero]
    · simp [hn, Cost.toFloat?]
  · by_cases hx : (x == 0.0) = true <;> simp [hx, Cost.toFloat?]

/-- A charge is a number that is no less than zero, unless the price is no number. -/
theorem zero_le_charge {x : Float} (hn : ¬ call.Negative) (h : call.charge.toFloat? = some x)
    (hprice : ¬ call.IsPricedNaN) : 0.0 ≤ x := by
  have hzero : (0.0 : Float) ≤ 0.0 := by decide
  have hcost : ∀ cost ∈ call.cost, ¬ cost.isNegative = true :=
    fun cost hc hneg => hn (.inr (.inr ⟨cost, hc, hneg⟩))
  unfold charge at h
  rcases hc : call.cost with _ | n | y
  · simp only [hc, Cost.toFloat?, Option.some.injEq] at h
    exact h ▸ hzero
  · have hsign : 0 ≤ n := by simpa [Cost.isNegative] using hcost _ hc
    by_cases hzeroPrice : n = 0
    · simp only [hc, hzeroPrice, ↓reduceIte, Cost.toFloat?, Option.some.injEq] at h
      exact h ▸ hzero
    · simp only [hc, hzeroPrice, ↓reduceIte, Cost.toFloat?] at h
      exact Decimal.zero_le_ofInt? hsign h
  · have hsign : ¬ y < 0.0 := by simpa [Cost.isNegative] using hcost _ hc
    by_cases hzeroPrice : (y == 0.0) = true
    · simp only [hc, hzeroPrice, ↓reduceIte, Cost.toFloat?, Option.some.injEq] at h
      exact h ▸ hzero
    · simp only [hc, hzeroPrice, Bool.false_eq_true, ↓reduceIte, Cost.toFloat?,
        Option.some.injEq] at h
      exact h ▸ Decimal.zero_le_of_not_lt hsign fun hnan => hprice ⟨y, hc, hnan⟩

theorem IsPricedNaN.charge_eq (h : call.IsPricedNaN) :
    ∃ x, call.charge.toFloat? = some x ∧ x.isNaN = true := by
  obtain ⟨x, hc, hnan⟩ := h
  refine ⟨x, ?_, hnan⟩
  have hne : ¬ (x == 0.0) = true := by
    rw [Decimal.beq_zero_iff, Decimal.isNaN_iff.mp hnan]
    rintro ⟨sign, ⟨⟩⟩
  simp [charge, hc, hne, Cost.toFloat?]

end CallUsage

namespace Usage

-- ---------------------------------------------------------------------------
-- One posting
-- ---------------------------------------------------------------------------

inductive Posting where
  | call
  | report (call : CallUsage)

/-- A report that makes the total no number: its price is none, and it is not refused. -/
def Posting.Spoils (posting : Posting) : Prop :=
  ∃ call, posting = .report call ∧ ¬ call.Negative ∧ call.IsPricedNaN

def post (usage : Usage) : Posting → Usage × Except Failure Unit
  | .call => (usage.recordCall, .ok ())
  | .report call => usage.add call

def postAll (usage : Usage) (postings : List Posting) : Usage :=
  postings.foldl (fun usage posting => (usage.post posting).1) usage

structure CountsUp (before after : Usage) : Prop where
  inputTokens : before.inputTokens ≤ after.inputTokens
  outputTokens : before.outputTokens ≤ after.outputTokens
  calls : before.calls ≤ after.calls

inductive Reported (before : Usage) (call : CallUsage) : Usage × Except Failure Unit → Prop
  /-- A negative number: nothing is counted. -/
  | refused (hn : call.Negative) : Reported before call
      (before, .error (.negativeUsage call.inputTokens call.outputTokens call.charge))
  /-- A price that cannot be added: the tokens are counted. -/
  | halfCounted (hn : ¬ call.Negative) (hh : call.IsHuge) :
      Reported before call (before.countTokens call, .error .hugeInteger)
  | counted (hn : ¬ call.Negative) (hh : ¬ call.IsHuge) {x : Float}
      (hx : call.charge.toFloat? = some x) : Reported before call
      ({ before.countTokens call with cost := before.cost + x }, .ok ())

/-- The total is a number that is no less than zero, or no number if it has been spoilt. -/
structure Totals (spoilt : Prop) (usage : Usage) : Prop where
  sound : ¬ spoilt → 0.0 ≤ usage.cost
  lost : spoilt → usage.cost.isNaN = true

theorem reported (usage : Usage) (call : CallUsage) : Reported usage call (usage.add call) := by
  by_cases hn : call.Negative
  · rw [add_negative usage hn]
    exact .refused hn
  rw [add, if_neg fun hneg => hn (CallUsage.isNegative_iff.mp hneg)]
  cases hx : call.charge.toFloat? with
  | none => exact .halfCounted hn (CallUsage.toFloat?_charge_eq_none.mp hx)
  | some x =>
    refine .counted hn (fun hh => ?_) hx
    rw [CallUsage.toFloat?_charge_eq_none.mpr hh] at hx
    cases hx

theorem countsUp_countTokens (usage : Usage) {call : CallUsage} (h : ¬ call.Negative) :
    CountsUp usage (usage.countTokens call) := by
  simp only [CallUsage.Negative, not_or] at h
  exact ⟨by simp only [countTokens]; omega, by simp only [countTokens]; omega, le_rfl⟩

theorem countsUp_post (usage : Usage) (posting : Posting) :
    CountsUp usage (usage.post posting).1 := by
  cases posting with
  | call => exact ⟨le_rfl, le_rfl, Nat.le_succ _⟩
  | report call =>
    have hreported := reported usage call
    show CountsUp usage (usage.add call).1
    generalize usage.add call = outcome at hreported ⊢
    cases hreported with
    | refused hn => exact ⟨le_rfl, le_rfl, le_rfl⟩
    | halfCounted hn hh => exact usage.countsUp_countTokens hn
    | counted hn hh hx =>
      obtain ⟨hinput, houtput, hcalls⟩ := usage.countsUp_countTokens hn
      exact ⟨hinput, houtput, hcalls⟩

theorem Totals.post {spoilt : Prop} {usage : Usage} (h : Totals spoilt usage) (posting : Posting) :
    Totals (spoilt ∨ posting.Spoils) (usage.post posting).1 ∧
      (usage.cost ≤ (usage.post posting).1.cost ↔ ¬ (spoilt ∨ posting.Spoils)) := by
  -- Where the total stays what it was, it stays in the same order to itself.
  have hsame : ¬ posting.Spoils → (usage.post posting).1.cost = usage.cost →
      Totals (spoilt ∨ posting.Spoils) (usage.post posting).1 ∧
        (usage.cost ≤ (usage.post posting).1.cost ↔ ¬ (spoilt ∨ posting.Spoils)) := by
    intro hposting hcost
    rw [or_iff_left hposting]
    refine ⟨⟨fun hs => hcost ▸ h.sound hs, fun hs => hcost ▸ h.lost hs⟩, ?_⟩
    rw [hcost]
    exact ⟨fun hle hs => Decimal.not_le_of_isNaN (h.lost hs) hle,
      fun hs => Decimal.le_self (h.sound hs)⟩
  cases posting with
  | call => exact hsame (fun ⟨_, hcall, _⟩ => nomatch hcall) rfl
  | report call =>
    have hspoils : Posting.Spoils (.report call) ↔ ¬ call.Negative ∧ call.IsPricedNaN :=
      ⟨fun ⟨_, heq, hs⟩ => Posting.report.inj heq ▸ hs, fun hs => ⟨call, rfl, hs⟩⟩
    have hreported := reported usage call
    simp only [Usage.post] at hsame ⊢
    generalize usage.add call = outcome at hsame hreported ⊢
    rw [hspoils] at hsame ⊢
    cases hreported with
    | refused hn => exact hsame (fun hs => hs.1 hn) rfl
    | halfCounted hn hh =>
      refine hsame (fun hs => ?_) rfl
      obtain ⟨_, hx, _⟩ := hs.2.charge_eq
      rw [CallUsage.toFloat?_charge_eq_none.mpr hh] at hx
      cases hx
    | @counted hn hh x hx =>
      have hlost : spoilt ∨ ¬ call.Negative ∧ call.IsPricedNaN → (usage.cost + x).isNaN = true := by
        rintro (hs | ⟨-, hnan⟩)
        · exact Decimal.isNaN_add_left (h.lost hs)
        · obtain ⟨y, hy, hnan⟩ := hnan.charge_eq
          obtain rfl : x = y := Option.some.inj (hx.symm.trans hy)
          exact Decimal.isNaN_add_right hnan
      have hsound : ¬ (spoilt ∨ ¬ call.Negative ∧ call.IsPricedNaN) →
          0.0 ≤ usage.cost ∧ 0.0 ≤ x := fun hs =>
        ⟨h.sound fun hspoilt => hs (.inl hspoilt),
          CallUsage.zero_le_charge hn hx fun hnan => hs (.inr ⟨hn, hnan⟩)⟩
      refine ⟨⟨fun hs => ?_, hlost⟩,
        fun hle hs => Decimal.not_le_of_isNaN (hlost hs) hle, fun hs => ?_⟩
      · exact Decimal.zero_le_add (hsound hs).1 (hsound hs).2
      · exact Decimal.le_add (hsound hs).1 (hsound hs).2

-- ---------------------------------------------------------------------------
-- All postings
-- ---------------------------------------------------------------------------

theorem postAll_append (usage : Usage) (postings : List Posting) (last : Posting) :
    usage.postAll (postings ++ [last]) = ((usage.postAll postings).post last).1 := by
  simp [postAll]

theorem Totals.postAll {usage : Usage} (h : 0.0 ≤ usage.cost) (postings : List Posting) :
    Totals (∃ posting ∈ postings, posting.Spoils) (usage.postAll postings) := by
  induction postings using List.reverseRecOn with
  | nil => exact ⟨fun _ => h, fun ⟨_, hm, _⟩ => nomatch hm⟩
  | append_singleton done next ih =>
    rw [postAll_append]
    simpa only [List.mem_append, List.mem_singleton, or_and_right, exists_or, exists_eq_left]
      using (ih.post next).1

/-- After any calls and reports, a further one makes no count smaller, and leaves a total that is no
less than the one before exactly if every price that was counted so far is a number. A call is never
refused. A report is refused exactly if it has a negative number, and then it leaves everything as
it was, or if no double is near its price, and then its tokens have been counted. -/
theorem postAll_grows {start : Usage} (h : 0.0 ≤ start.cost) (done : List Posting)
    (next : Posting) :
    CountsUp (start.postAll done) ((start.postAll done).post next).1 ∧
      ((start.postAll done).cost ≤ ((start.postAll done).post next).1.cost ↔
        ∀ posting ∈ done ++ [next], ¬ posting.Spoils) ∧
      match next with
      | .call => (start.postAll done).post .call = ((start.postAll done).recordCall, .ok ())
      | .report call =>
        Reported (start.postAll done) call ((start.postAll done).post (.report call)) := by
  refine ⟨countsUp_post _ next, ?_, ?_⟩
  · rw [((Totals.postAll h done).post next).2]
    simp only [List.mem_append, List.mem_singleton, or_imp, forall_and, forall_eq, not_or,
      not_exists, not_and]
  · cases next with
    | call => rfl
    | report call => exact reported _ call

/-- A call, a price of a half, and a price that is no number. -/
theorem postAll_grows_nan :
    let done : List Posting := [.call, .report ⟨3, 2, some (.real 0.5)⟩]
    let next : Posting := .report ⟨1, 1, some (.real (0.0 / 0.0))⟩
    (0.0 : Float) ≤ zero.cost ∧ (zero.postAll done).cost = 0.5 ∧
      CountsUp (zero.postAll done) ((zero.postAll done).post next).1 ∧
      ¬ (zero.postAll done).cost ≤ ((zero.postAll done).post next).1.cost := by
  intro done next
  have hzero : (0.0 : Float) ≤ zero.cost := by decide
  obtain ⟨hcounts, hcost, -⟩ := postAll_grows hzero done next
  refine ⟨hzero, by decide +kernel, hcounts, fun hle => ?_⟩
  exact hcost.mp hle next (by simp [next])
    ⟨_, rfl, CallUsage.isNegative_iff.not.mp (by decide), _, rfl, by decide⟩

example : (zero.post (.report ⟨1, 2, some (.whole (10 ^ 400))⟩)).1.outputTokens = 2 := by
  decide +kernel

end Usage

end TreeManifest
