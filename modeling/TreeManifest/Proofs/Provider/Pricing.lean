import TreeManifest.Proofs.Provider.Stream

/-!
# The price of a call

A stream that ends is answered by the chunks of its records and one chunk for the usage that was
reported last. A price list of exactly two numbers prices it by their sum, and a list of any other
length, or none, leaves it without a price. But two items of which one is no number end the reply in
front of that chunk, so that neither the usage nor the manifest remains (`client_prices`).
-/

namespace TreeManifest.Provider

/-- A value that stands for a double: a number in their range, a truth value or the text of a
number. -/
def IsNumeric : Json → Prop
  | .bool _ | .float _ => True
  | .int n => ∃ x, Decimal.ofInt? n = some x
  | .str text => ∃ x, Decimal.parseFloat? text = some x
  | .null | .arr _ | .obj _ => False

inductive IsRejected : Json → Failure → Prop
  | huge {n : Int} (h : Decimal.ofInt? n = none) : IsRejected (.int n) .hugeInteger
  | text {text : String} (h : Decimal.parseFloat? text = none) :
      IsRejected (.str text) (.badNumber text)
  | null : IsRejected .null (.notNumber "NoneType")
  | list (items : List Json) : IsRejected (.arr items) (.notNumber "list")
  | table (members : List (String × Json)) : IsRejected (.obj members) (.notNumber "dict")

theorem IsRejected.priceNumber {value : Json} {failure : Failure} (h : IsRejected value failure) :
    priceNumber value = .error failure := by
  cases h with
  | huge h | text h => simp only [Provider.priceNumber, h]
  | null | list | table => rfl

theorem isNumeric_or_isRejected (value : Json) :
    IsNumeric value ∨ ∃ failure, IsRejected value failure := by
  cases value with
  | bool | float => exact .inl trivial
  | int n => exact (Option.eq_none_or_eq_some _).symm.imp id fun h => ⟨_, .huge h⟩
  | str text => exact (Option.eq_none_or_eq_some _).symm.imp id fun h => ⟨_, .text h⟩
  | null => exact .inr ⟨_, .null⟩
  | arr items => exact .inr ⟨_, .list items⟩
  | obj members => exact .inr ⟨_, .table members⟩

theorem isNumeric_iff {value : Json} : IsNumeric value ↔ ∃ x, priceNumber value = .ok x := by
  constructor
  · intro h
    cases value with
    | bool | float => exact ⟨_, rfl⟩
    | int n | str text =>
      obtain ⟨x, hx⟩ := h
      exact ⟨x, by simp only [priceNumber, hx]⟩
    | null | arr | obj => exact h.elim
  · rintro ⟨x, hx⟩
    refine (isNumeric_or_isRejected value).resolve_right ?_
    rintro ⟨failure, h⟩
    rw [h.priceNumber] at hx
    cases hx

-- ---------------------------------------------------------------------------
-- Price lists
-- ---------------------------------------------------------------------------

variable {price : Price} {a b : Json} {failure : Failure}

theorem totalPrice_pair {x y : Float} (ha : priceNumber a = .ok x) (hb : priceNumber b = .ok y) :
    totalPrice (some [a, b]) = .ok (some (x + y)) := by
  simp only [totalPrice, ha, hb]
  rfl

theorem totalPrice_rejected (h : IsRejected a failure ∨ IsNumeric a ∧ IsRejected b failure) :
    totalPrice (some [a, b]) = .error failure := by
  rcases h with ha | ⟨ha, hb⟩
  · simp only [totalPrice, ha.priceNumber]
    rfl
  · obtain ⟨x, hx⟩ := isNumeric_iff.mp ha
    simp only [totalPrice, hx, hb.priceNumber]
    rfl

theorem totalPrice_other (h : ∀ a b, price ≠ some [a, b]) : totalPrice price = .ok none := by
  unfold totalPrice
  split
  · next a b => exact absurd rfl (h a b)
  · rfl

theorem totalPrice_ok_iff :
    (∃ total, totalPrice price = .ok total) ↔
      ∀ a b, price = some [a, b] → IsNumeric a ∧ IsNumeric b := by
  constructor
  · rintro ⟨total, htotal⟩ a b rfl
    have hsound : ∀ failure, ¬ (IsRejected a failure ∨ IsNumeric a ∧ IsRejected b failure) := by
      intro failure h
      rw [totalPrice_rejected h] at htotal
      cases htotal
    have ha := (isNumeric_or_isRejected a).resolve_right fun ⟨_, h⟩ => hsound _ (.inl h)
    exact ⟨ha, (isNumeric_or_isRejected b).resolve_right fun ⟨_, h⟩ => hsound _ (.inr ⟨ha, h⟩)⟩
  · intro h
    by_cases hpair : ∃ a b, price = some [a, b]
    · obtain ⟨a, b, rfl⟩ := hpair
      obtain ⟨ha, hb⟩ := h a b rfl
      obtain ⟨x, hx⟩ := isNumeric_iff.mp ha
      obtain ⟨y, hy⟩ := isNumeric_iff.mp hb
      exact ⟨_, totalPrice_pair hx hy⟩
    · push Not at hpair
      exact ⟨none, totalPrice_other hpair⟩

-- ---------------------------------------------------------------------------
-- Streams that end
-- ---------------------------------------------------------------------------

variable {records : List Json} {chunks : List (List Chunk)} {usage : Json} {input output : Int}

theorem partChunks_readable {part : Json} {chunks : List Chunk} (h : partChunks part = .ok chunks) :
    ∀ chunk ∈ chunks, Manifest.IsReadable chunk ∧ chunk.usage? = none := by
  unfold partChunks at h
  rcases hchoice : firstChoice? part with failure | _ | choice <;> rw [hchoice] at h <;> cases h
  · exact List.forall_mem_nil _
  · intro chunk hm
    simp only [List.mem_append, Option.mem_toList, Option.map_eq_some_iff] at hm
    rcases hm with ⟨text, -, rfl⟩ | ⟨text, -, rfl⟩ <;> exact ⟨trivial, rfl⟩

theorem flatten_readable
    (h : List.Forall₂ (fun part chunks => partChunks part = .ok chunks) records chunks) :
    ∀ chunk ∈ chunks.flatten, Manifest.IsReadable chunk ∧ chunk.usage? = none := by
  induction h with
  | nil => exact List.forall_mem_nil _
  | cons hpart _ ih =>
    rw [List.flatten_cons, List.forall_mem_append]
    exact ⟨partChunks_readable hpart, ih⟩

/-- What is made of a stream that ends, whose records give `chunks` and whose last usage counts
`input` and `output` tokens. -/
structure Prices (price : Price) (model : Model) (chunks : List Chunk) (input output : Int)
    (reply : Reply) : Prop where
  /-- Two items that stand for doubles price the call by their sum. -/
  priced : ∀ a b x y, price = some [a, b] → priceNumber a = .ok x → priceNumber b = .ok y →
    reply = ⟨chunks ++ [.usage ⟨input, output, some (.real (x + y))⟩], [], none⟩
  unpriced : (∀ a b, price ≠ some [a, b]) →
    reply = ⟨chunks ++ [.usage ⟨input, output, none⟩], [.costUnavailable model.name], none⟩
  /-- Of two items the first that stands for no double ends the reply. -/
  broken : ∀ a b failure, price = some [a, b] →
    IsRejected a failure ∨ IsNumeric a ∧ IsRejected b failure →
    reply = ⟨chunks, [], some failure⟩
  ends_iff : reply.failure = none ↔ ∀ a b, price = some [a, b] → IsNumeric a ∧ IsNumeric b

def pricedReply (model : Model) (price : Price) (chunks : List Chunk) (input output : Int) : Reply :=
  match totalPrice price with
  | .error failure => ⟨chunks, [], some failure⟩
  | .ok total => ⟨chunks ++ [.usage ⟨input, output, total.map .real⟩],
      if total.isNone then [.costUnavailable model.name] else [], none⟩

theorem prices_pricedReply (price : Price) (model : Model) (chunks : List Chunk)
    (input output : Int) :
    Prices price model chunks input output (pricedReply model price chunks input output) where
  priced := by
    rintro a b x y rfl ha hb
    rw [pricedReply, totalPrice_pair ha hb]
    rfl
  unpriced h := by
    rw [pricedReply, totalPrice_other h]
    rfl
  broken := by
    rintro a b failure rfl h
    rw [pricedReply, totalPrice_rejected h]
  ends_iff := by
    rw [← totalPrice_ok_iff, pricedReply]
    cases totalPrice price <;> simp

theorem replyFrom_priced {model : Model} {prices : PriceList}
    (hrecords : List.Forall₂ (fun part chunks => partChunks part = .ok chunks) records chunks)
    (husage : lastUsage? records = some usage)
    (hinput : tokenCount (attributeOf "prompt_tokens" usage) = .ok input)
    (houtput : tokenCount (attributeOf "completion_tokens" usage) = .ok output) :
    replyFrom model.name prices none (records.map .record) =
      pricedReply model (prices model.name input output) chunks.flatten input output := by
  have hread : replyFrom model.name prices none (records.map .record ++ []) = _ :=
    replyFrom_read hrecords none []
  rw [List.append_nil] at hread
  rw [hread, husage, Option.some_or, replyFrom, ending, pricedReply]
  simp only [hinput, houtput, bind, Except.bind, pure, Except.pure]
  rcases totalPrice (prices model.name input output) with failure | total
  · simp
  · rfl

/-- A run that asks for a manifest and meets a broken reply has made its call. It has neither a
manifest nor a usage. -/
structure Discards (s s' : Session (List Call)) (result : Except Failure String)
    (failure : Failure) : Prop where
  raised : result = .error failure
  fs : s'.fs = s.fs
  usage : s'.usage = s.usage.recordCall

theorem discards_of_broken {reply : Reply} {client : Client (List Call)} {request : Request}
    {p : Path} {s s' : Session (List Call)} {result : Except Failure String}
    (hreply : (client request s.client).1 = reply) (hfailure : reply.failure = some failure)
    (hchunks : ∀ chunk ∈ reply.chunks, Manifest.IsReadable chunk ∧ chunk.usage? = none)
    (hrun : (Run.generateManifest client request p).run s = (result, s')) :
    Discards s s' result failure := by
  have husages : reply.usages = [] :=
    List.filterMap_eq_nil_iff.mpr fun chunk hm => (hchunks chunk hm).2
  have habsorb := Manifest.absorb_readable s.usage.recordCall fun chunk hm => (hchunks chunk hm).1
  rw [husages, hfailure, ← hreply] at habsorb
  rw [Run.generateManifest_unanswered p (congrArg Prod.snd habsorb)] at hrun
  cases hrun
  exact ⟨rfl, rfl, congrArg Prod.fst habsorb⟩

/-- A stream that ends is answered with its usage, priced by a list of two numbers and unpriced by
no list or one of another length. Two items of which one is no number cost the reply its usage, and
the run its manifest. -/
theorem client_prices (behaviour : Behaviour) (called : Model) (request : Request) (p : Path)
    (records : List Json) (chunks : List (List Chunk)) (usage : Json) (input output : Int)
    (made : Nat) (s s' : Session (List Call)) (result : Except Failure String)
    (hopened : outcomeFrom behaviour.opening (maxAttempts - 1) s.client.length =
      (.ok (records.map .record), made))
    (hrecords : List.Forall₂ (fun part chunks => partChunks part = .ok chunks) records chunks)
    (husage : lastUsage? records = some usage)
    (hinput : tokenCount (attributeOf "prompt_tokens" usage) = .ok input)
    (houtput : tokenCount (attributeOf "completion_tokens" usage) = .ok output)
    (hrun : (Run.generateManifest (client behaviour called) request p).run s = (result, s')) :
    Prices (behaviour.prices called.name input output) called chunks.flatten input output
        (client behaviour called request s.client).1 ∧
      ∀ failure, (client behaviour called request s.client).1.failure = some failure →
        Discards s s' result failure := by
  have hreply : (client behaviour called request s.client).1 =
      pricedReply called (behaviour.prices called.name input output) chunks.flatten input
        output := by
    rw [client_opened request called hopened, replyFrom_priced hrecords husage hinput houtput]
  rw [hreply]
  refine ⟨prices_pricedReply .., fun failure hfailure => discards_of_broken hreply hfailure ?_ hrun⟩
  -- Only a reply without a usage fails, so its chunks are those of the records.
  intro chunk hm
  unfold pricedReply at hfailure hm
  cases htotal : totalPrice (behaviour.prices called.name input output) with
  | ok total =>
    rw [htotal] at hfailure
    cases hfailure
  | error reason =>
    rw [htotal] at hm
    exact flatten_readable hrecords chunk hm

def halfPriced : Behaviour :=
  { limitedOnce [] with prices := fun _ _ _ => some [.null, .float 0.25] }

def halfPricedRun : Except Failure String × Session (List Call) :=
  (Run.generateManifest (client halfPriced smallModel) ⟨"rules", []⟩ (Path.ofString "/m.yaml")).run
    emptySession

theorem client_prices_halfPriced :
    (client halfPriced smallModel ⟨"rules", []⟩ []).1.chunks =
        [.reasoning "a root", .text "name", .text ": w"] ∧
      Discards emptySession halfPricedRun.2 halfPricedRun.1 (.notNumber "NoneType") := by
  have hreply := client_prices halfPriced smallModel ⟨"rules", []⟩ (Path.ofString "/m.yaml")
    cumulativeRecords _ _ 9 0 2 emptySession halfPricedRun.2 halfPricedRun.1 rfl
    (.cons rfl (.cons rfl (.cons rfl (.cons rfl (.cons rfl .nil))))) rfl rfl rfl Prod.mk.eta.symm
  have hbroken := hreply.1.broken .null (.float 0.25) (.notNumber "NoneType") rfl (.inl .null)
  exact ⟨congrArg Reply.chunks hbroken, hreply.2 _ (congrArg Reply.failure hbroken)⟩

end TreeManifest.Provider
