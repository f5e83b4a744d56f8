import TreeManifest.Proofs.FileSystem.Write
import TreeManifest.Proofs.Run
import TreeManifest.Proofs.Usage
import TreeManifest.Provider.Call

/-!
# From a stream to a manifest

Of the records of a stream only the first choices and the last usage matter: their texts make the
manifest and the usage is counted once, after all of them. A stream that breaks off leaves its
chunks and its fault, and nothing is counted or written (`generateManifest_stream`).
-/

namespace TreeManifest.Provider

-- ---------------------------------------------------------------------------
-- Records
-- ---------------------------------------------------------------------------

def IsText : Json → Prop
  | .null | .str _ => True
  | _ => False

def IsCount : Json → Prop
  | .null => True
  | .int n => 0 ≤ n
  | _ => False

def choices (part : Json) : List Json :=
  match attributeOf "choices" part with
  | .arr choices => choices
  | _ => []

def deltaOf (name : String) (part : Json) : String :=
  match (choices part).head?.map fun choice => attributeOf name (attributeOf "delta" choice) with
  | some (.str text) => text
  | _ => ""

def countOf (name : String) (usage : Json) : Int :=
  match attributeOf name usage with
  | .int n => n
  | _ => 0

/-- A record as a provider sends it: its choices are a list, the texts of the first one are texts,
and the counts of its usage are counts, as far as all these are given. -/
structure Orderly (part : Json) : Prop where
  listed : attributeOf "choices" part = .null ∨ ∃ items, attributeOf "choices" part = .arr items
  texts : ∀ choice ∈ (choices part).head?, ∀ name ∈ ["content", "reasoning_content"],
    IsText (attributeOf name (attributeOf "delta" choice))
  counts : ∀ usage ∈ partUsage? part, ∀ name ∈ ["prompt_tokens", "completion_tokens"],
    IsCount (attributeOf name usage)

/-- The chunks that a record stands for: its reasoning and its text, unless they are empty. -/
def chunksOf (part : Json) : List Chunk :=
  (if deltaOf "reasoning_content" part = "" then []
    else [.reasoning (deltaOf "reasoning_content" part)]) ++
    (if deltaOf "content" part = "" then [] else [.text (deltaOf "content" part)])

def pricesOf (prices : Option (Float × Float)) : Price :=
  prices.map fun (input, output) => [.float input, .float output]

def callUsageOf (prices : Option (Float × Float)) (usage : Json) : CallUsage where
  inputTokens := countOf "prompt_tokens" usage
  outputTokens := countOf "completion_tokens" usage
  cost := prices.map fun (input, output) => .real (input + output)

abbrev Tariff := Int → Int → Option (Float × Float)

def Tariff.pricesAt (tariff : Tariff) (usage : Json) : Option (Float × Float) :=
  tariff (countOf "prompt_tokens" usage) (countOf "completion_tokens" usage)

def lastUsage? (records : List Json) : Option Json := (records.filterMap partUsage?).getLast?

theorem firstChoice?_eq {part : Json} (h : Orderly part) :
    firstChoice? part = .ok (choices part).head? := by
  unfold firstChoice? choices
  rcases h.listed with hnull | ⟨_ | ⟨choice, more⟩, harr⟩
  · rw [hnull]; rfl
  · rw [harr]; rfl
  · rw [harr]; rfl

theorem deltaText?_toList {part choice : Json} {name : String} (f : String → Chunk)
    (hc : (choices part).head? = some choice)
    (h : IsText (attributeOf name (attributeOf "delta" choice))) :
    ((deltaText? name choice).map f).toList =
      if deltaOf name part = "" then [] else [f (deltaOf name part)] := by
  unfold deltaText? deltaOf
  rw [hc, Option.map_some]
  cases hv : attributeOf name (attributeOf "delta" choice) with
  | null => rfl
  | str text =>
    by_cases ht : text = "" <;> simp [Json.isGiven, Json.runningText, ht]
  | _ => rw [hv] at h; exact h.elim

theorem partChunks_eq {part : Json} (h : Orderly part) : partChunks part = .ok (chunksOf part) := by
  unfold partChunks chunksOf
  rw [firstChoice?_eq h]
  cases hc : (choices part).head? with
  | none => simp [deltaOf, hc, Except.map]
  | some choice =>
    have htexts := h.texts choice hc
    rw [← deltaText?_toList .reasoning hc (htexts _ (by simp)),
      ← deltaText?_toList .text hc (htexts _ (by simp))]
    rfl

theorem texts_chunksOf (part : Json) :
    String.join ((chunksOf part).filterMap Chunk.text?) = deltaOf "content" part := by
  unfold chunksOf
  split <;> split <;> simp_all [Chunk.text?, List.filterMap_cons]

theorem usages_chunksOf (part : Json) : (chunksOf part).filterMap Chunk.usage? = [] := by
  unfold chunksOf
  split <;> split <;> rfl

theorem isReadable_chunksOf (part : Json) : ∀ chunk ∈ chunksOf part, Manifest.IsReadable chunk := by
  unfold chunksOf
  split <;> split <;> simp [Manifest.IsReadable]

-- ---------------------------------------------------------------------------
-- Streams
-- ---------------------------------------------------------------------------

variable {model : String} {list : PriceList} {records : List Json}

theorem lastUsage?_cons (part : Json) (records : List Json) (usage : Option Json) :
    (lastUsage? (part :: records)).or usage =
      (lastUsage? records).or ((partUsage? part).or usage) := by
  unfold lastUsage?
  rw [List.filterMap_cons]
  cases partUsage? part with
  | none => rfl
  | some reported =>
    rw [List.getLast?_cons]
    cases (records.filterMap partUsage?).getLast? <;> rfl

/-- The records of a stream give their chunks, and the last usage to what follows them. -/
theorem replyFrom_read {chunks : List (List Chunk)}
    (h : List.Forall₂ (fun part chunks => partChunks part = .ok chunks) records chunks)
    (usage : Option Json) (rest : List Part) :
    replyFrom model list usage (records.map .record ++ rest) =
      { replyFrom model list ((lastUsage? records).or usage) rest with
        chunks := chunks.flatten ++
          (replyFrom model list ((lastUsage? records).or usage) rest).chunks } := by
  induction h generalizing usage with
  | nil => rfl
  | cons hpart _ ih =>
    rw [List.map_cons, List.cons_append, replyFrom, hpart, lastUsage?_cons]
    simp only [ih, List.flatten_cons, List.append_assoc]

theorem replyFrom_append (h : ∀ part ∈ records, Orderly part) (usage : Option Json)
    (rest : List Part) :
    replyFrom model list usage (records.map .record ++ rest) =
      { replyFrom model list ((lastUsage? records).or usage) rest with
        chunks := records.flatMap chunksOf ++
          (replyFrom model list ((lastUsage? records).or usage) rest).chunks } := by
  rw [List.flatMap_def]
  refine replyFrom_read ?_ usage rest
  rw [List.forall₂_map_right_iff, List.forall₂_same]
  exact fun part hm => partChunks_eq (h part hm)

theorem tokenCount_eq {name : String} {usage : Json} (h : IsCount (attributeOf name usage)) :
    tokenCount (attributeOf name usage) = .ok (countOf name usage) := by
  unfold countOf
  cases hv : attributeOf name usage with
  | null => rfl
  | int n => by_cases hn : n = 0 <;> simp [tokenCount, Json.isGiven, hn]
  | _ => rw [hv] at h; exact h.elim

theorem countOf_nonneg {name : String} {usage : Json} (h : IsCount (attributeOf name usage)) :
    0 ≤ countOf name usage := by
  unfold countOf
  cases hv : attributeOf name usage with
  | int n => rw [hv] at h; exact h
  | _ => exact Int.le_refl 0

theorem ending_eq {tariff : Tariff} {usage : Json}
    (hlist : ∀ input output, list model input output = pricesOf (tariff input output))
    (h : ∀ name ∈ ["prompt_tokens", "completion_tokens"], IsCount (attributeOf name usage)) :
    ∃ events, ending model list (some usage) =
      ⟨[.usage (callUsageOf (tariff.pricesAt usage) usage)], events, none⟩ := by
  have hinput := tokenCount_eq (h "prompt_tokens" (by simp))
  have houtput := tokenCount_eq (h "completion_tokens" (by simp))
  have hprices : list model (countOf "prompt_tokens" usage) (countOf "completion_tokens" usage) =
      pricesOf (tariff.pricesAt usage) := hlist _ _
  unfold ending
  simp only [hinput, houtput, bind, Except.bind, pure, Except.pure, hprices]
  rcases tariff.pricesAt usage with _ | ⟨input, output⟩
  · exact ⟨_, rfl⟩
  · exact ⟨_, rfl⟩

def textOf (records : List Json) : String := String.join (records.map (deltaOf "content"))

theorem textOf_eq :
    String.join ((records.flatMap chunksOf).filterMap Chunk.text?) = textOf records := by
  induction records with
  | nil => rfl
  | cons part records ih =>
    rw [List.flatMap_cons, List.filterMap_append, String.join_append, ih, texts_chunksOf]
    simp [textOf]

theorem usages_eq : (records.flatMap chunksOf).filterMap Chunk.usage? = [] := by
  induction records with
  | nil => rfl
  | cons part records ih =>
    rw [List.flatMap_cons, List.filterMap_append, usages_chunksOf, ih, List.append_nil]

theorem isReadable_flatMap : ∀ chunk ∈ records.flatMap chunksOf, Manifest.IsReadable chunk := by
  intro chunk hm
  obtain ⟨part, -, hchunk⟩ := List.mem_flatMap.mp hm
  exact isReadable_chunksOf part chunk hchunk

def totalOf : Option (Float × Float) → Float
  | some (input, output) => input + output
  | none => 0.0

def NotNegative (prices : Option (Float × Float)) : Prop :=
  ∀ price ∈ prices, ¬ price.1 < 0.0 ∧ ¬ price.2 < 0.0

theorem price_callUsageOf (prices : Option (Float × Float)) (usage : Json) :
    (callUsageOf prices usage).price = totalOf prices := by
  rcases prices with _ | ⟨input, output⟩ <;> rfl

theorem isReadable_callUsageOf {prices : Option (Float × Float)} {usage : Json}
    (hp : NotNegative prices)
    (h : ∀ name ∈ ["prompt_tokens", "completion_tokens"], IsCount (attributeOf name usage)) :
    Manifest.IsReadable (.usage (callUsageOf prices usage)) := by
  refine ⟨?_, ?_⟩
  · intro cost hc
    obtain ⟨pair, -, rfl⟩ := Option.map_eq_some_iff.mp hc
    exact ⟨_, rfl⟩
  · rintro (hneg | hneg | ⟨cost, hc, hneg⟩)
    · exact absurd hneg (Int.not_lt.mpr (countOf_nonneg (h _ (by simp))))
    · exact absurd hneg (Int.not_lt.mpr (countOf_nonneg (h _ (by simp))))
    · obtain ⟨pair, hpair, rfl⟩ := Option.map_eq_some_iff.mp hc
      obtain ⟨hinput, houtput⟩ := hp pair hpair
      exact Decimal.not_lt_zero_add hinput houtput (of_decide_eq_true hneg)

theorem replyFrom_records {tariff : Tariff}
    (hlist : ∀ input output, list model input output = pricesOf (tariff input output))
    (h : ∀ part ∈ records, Orderly part) :
    ∃ events, replyFrom model list none (records.map .record) =
      ⟨records.flatMap chunksOf ++
          (lastUsage? records).toList.map fun usage =>
            .usage (callUsageOf (tariff.pricesAt usage) usage),
        events, none⟩ := by
  have happend : replyFrom model list none (records.map .record ++ []) = _ :=
    replyFrom_append h none []
  rw [List.append_nil, Option.or_none, replyFrom] at happend
  rw [happend]
  cases hl : lastUsage? records with
  | none => exact ⟨_, rfl⟩
  | some usage =>
    obtain ⟨part, hm, hpart⟩ := List.mem_filterMap.mp (List.mem_of_getLast? hl)
    obtain ⟨events, hending⟩ := ending_eq hlist ((h part hm).counts usage hpart)
    rw [hending]
    exact ⟨events, rfl⟩

-- ---------------------------------------------------------------------------
-- Manifests
-- ---------------------------------------------------------------------------

structure Completes (tariff : Tariff) (records : List Json) (p : Path) (reply : Reply)
    (s s' : Session (List Call)) (result : Except Failure String) : Prop where
  chunks : reply.chunks = records.flatMap chunksOf ++
    (lastUsage? records).toList.map fun usage => .usage (callUsageOf (tariff.pricesAt usage) usage)
  /-- The last usage is counted, once; a price that is a zero of either sign is no price. -/
  usage : s'.usage = match lastUsage? records with
    | none => s.usage.recordCall
    | some usage =>
      { inputTokens := s.usage.inputTokens + countOf "prompt_tokens" usage
        outputTokens := s.usage.outputTokens + countOf "completion_tokens" usage
        cost := s.usage.cost +
          if totalOf (tariff.pricesAt usage) == 0.0 then 0.0 else totalOf (tariff.pricesAt usage)
        calls := s.usage.calls + 1 }
  written : ∀ fs, Manifest.writeText s.fs p (textOf records) = .ok fs →
    result = .ok (textOf records) ∧ s'.fs = fs
  unwritten : ∀ failure, Manifest.writeText s.fs p (textOf records) = .error failure →
    result = .error failure ∧ s'.fs = s.fs
  read : s.fs.IsTree → (∀ part ∈ p.parts, Path.IsPart part) → result = .ok (textOf records) →
    s'.fs.read p = .ok (Text.Utf8.encode (textOf records)) ∧
      ∃ location entry, s.fs.find p = .ok (location, entry) ∧
        ∀ other, other ≠ location → s'.fs.entryAt? other = s.fs.entryAt? other

structure BreaksOff (records : List Json) (fault : Fault) (reply : Reply)
    (s s' : Session (List Call)) (result : Except Failure String) : Prop where
  chunks : reply.chunks = records.flatMap chunksOf
  uncounted : reply.usages = []
  usage : s'.usage = s.usage.recordCall
  fs : s'.fs = s.fs
  raised : result = .error (.raised fault)

variable {behaviour : Behaviour} {tariff : Tariff} {request : Request}
  {made : Nat} {rest : List Part} {s s' : Session (List Call)} {p : Path}
  {result : Except Failure String}

theorem client_opened {parts : List Part} (request : Request) (called : Model)
    (h : outcomeFrom behaviour.opening (maxAttempts - 1) s.client.length = (.ok parts, made)) :
    (client behaviour called request s.client).1 =
      replyFrom called.name behaviour.prices none parts := by
  simp only [client, h]

theorem addAll_lastUsage (hp : ∀ input output, NotNegative (tariff input output))
    (h : ∀ part ∈ records, Orderly part)
    (usage : Usage) :
    Manifest.addAll usage.recordCall
        ((lastUsage? records).toList.map fun usage => callUsageOf (tariff.pricesAt usage) usage) =
      match lastUsage? records with
      | none => usage.recordCall
      | some reported =>
        { inputTokens := usage.inputTokens + countOf "prompt_tokens" reported
          outputTokens := usage.outputTokens + countOf "completion_tokens" reported
          cost := usage.cost +
            if totalOf (tariff.pricesAt reported) == 0.0 then 0.0
            else totalOf (tariff.pricesAt reported)
          calls := usage.calls + 1 } := by
  cases hl : lastUsage? records with
  | none => rfl
  | some reported =>
    obtain ⟨part, hm, hpart⟩ := List.mem_filterMap.mp (List.mem_of_getLast? hl)
    have hprices : NotNegative (tariff.pricesAt reported) := hp _ _
    obtain ⟨hd, hn⟩ := isReadable_callUsageOf hprices ((h part hm).counts reported hpart)
    have hadd := usage.recordCall.add_of_pricedInDoubles hd hn
    rw [price_callUsageOf] at hadd
    simp only [Option.toList_some, List.map_cons, List.map_nil, Manifest.addAll, List.foldl_cons,
      List.foldl_nil, hadd]
    rfl

theorem completes (called : Model) (hp : ∀ input output, NotNegative (tariff input output))
    (hprices : ∀ input output,
      behaviour.prices called.name input output = pricesOf (tariff input output))
    (h : ∀ part ∈ records, Orderly part)
    (hopened : outcomeFrom behaviour.opening (maxAttempts - 1) s.client.length =
      (.ok (records.map .record), made))
    (hrun : (Run.generateManifest (client behaviour called) request p).run s = (result, s')) :
    Completes tariff records p (client behaviour called request s.client).1 s s' result := by
  obtain ⟨events, hreply⟩ := replyFrom_records hprices h
  rw [← client_opened request called hopened] at hreply
  have husages : (client behaviour called request s.client).1.usages =
      (lastUsage? records).toList.map fun usage => callUsageOf (tariff.pricesAt usage) usage := by
    simp [hreply, Reply.usages, usages_eq, Chunk.usage?, Function.comp_def]
  have htext : (client behaviour called request s.client).1.text = textOf records := by
    simp [hreply, Reply.text, Chunk.text?, Function.comp_def, textOf_eq]
  have hreadable : ∀ chunk ∈ (client behaviour called request s.client).1.chunks,
      Manifest.IsReadable chunk := by
    rw [hreply]
    intro chunk hm
    rcases List.mem_append.mp hm with hm | hm
    · exact isReadable_flatMap chunk hm
    · obtain ⟨usage, hl, rfl⟩ := List.mem_map.mp hm
      obtain ⟨part, hm, hpart⟩ :=
        List.mem_filterMap.mp (List.mem_of_getLast? (Option.mem_toList.mp hl))
      exact isReadable_callUsageOf (hp _ _) ((h part hm).counts usage hpart)
  have hfailure : (client behaviour called request s.client).1.failure = none := by rw [hreply]
  have habsorb := Manifest.absorb_readable s.usage.recordCall hreadable
  rw [husages, htext, hfailure, addAll_lastUsage hp h] at habsorb
  obtain ⟨husage, hwritten, hunwritten⟩ := Run.generateManifest_answered habsorb hrun
  refine ⟨by rw [hreply], husage, hwritten, hunwritten, fun hfs hparts hok => ?_⟩
  rcases hw : Manifest.writeText s.fs p (textOf records) with failure | fs
  · obtain ⟨herror, -⟩ := hunwritten failure hw
    rw [herror] at hok
    cases hok
  · obtain ⟨-, hfs'⟩ := hwritten fs hw
    rw [hfs']
    exact FileSystem.writeText_read hfs hparts hw

theorem breaksOff {fault : Fault} (h : ∀ part ∈ records, Orderly part) (called : Model)
    (hopened : outcomeFrom behaviour.opening (maxAttempts - 1) s.client.length =
      (.ok (records.map .record ++ .breaksOff fault :: rest), made))
    (hrun : (Run.generateManifest (client behaviour called) request p).run s = (result, s')) :
    BreaksOff records fault (client behaviour called request s.client).1 s s' result := by
  have hreply : (client behaviour called request s.client).1 =
      ⟨records.flatMap chunksOf, [], some (.raised fault)⟩ := by
    rw [client_opened request called hopened, replyFrom_append h]
    simp [replyFrom]
  have hreadable : ∀ chunk ∈ (client behaviour called request s.client).1.chunks,
      Manifest.IsReadable chunk := by
    rw [hreply]
    exact isReadable_flatMap
  have habsorb := Manifest.absorb_readable s.usage.recordCall hreadable
  have husages : (client behaviour called request s.client).1.usages = [] := by
    rw [hreply]
    exact usages_eq
  have hfailure : (client behaviour called request s.client).1.failure = some (.raised fault) := by
    rw [hreply]
  rw [husages, hfailure] at habsorb
  rw [Run.generateManifest_unanswered p (congrArg Prod.snd habsorb)] at hrun
  cases hrun
  exact ⟨by rw [hreply], husages, congrArg Prod.fst habsorb, rfl, rfl⟩

/-- A stream of records that ends makes its manifest from the texts of their first choices and is
counted by its last usage; one that breaks off leaves its chunks and its fault. -/
theorem generateManifest_stream (behaviour : Behaviour) (called : Model) (request : Request)
    (p : Path) (tariff : Tariff) (records : List Json) (rest : List Part)
    (made : Nat) (s s' : Session (List Call)) (result : Except Failure String)
    (hrecords : ∀ part ∈ records, Orderly part)
    (hprices : ∀ input output,
      behaviour.prices called.name input output = pricesOf (tariff input output))
    (hp : ∀ input output, NotNegative (tariff input output))
    (hopened : outcomeFrom behaviour.opening (maxAttempts - 1) s.client.length =
      (.ok (records.map .record ++ rest), made))
    (hrun : (Run.generateManifest (client behaviour called) request p).run s = (result, s')) :
    (rest = [] →
      Completes tariff records p (client behaviour called request s.client).1 s s' result) ∧
    ∀ fault more, rest = .breaksOff fault :: more →
      BreaksOff records fault (client behaviour called request s.client).1 s s' result := by
  constructor
  · rintro rfl
    rw [List.append_nil] at hopened
    exact completes called hp hprices hrecords hopened hrun
  · rintro fault more rfl
    exact breaksOff hrecords called hopened hrun

def cumulativeRecords : List Json :=
  [.obj [("choices", .arr [
      .obj [("delta", .obj [("reasoning_content", .str "a root"), ("content", .str "name")])],
      .obj [("delta", .obj [("content", .str "other")])]]),
    ("usage", .obj [("prompt_tokens", .int 7), ("completion_tokens", .int 1)])],
   .obj [("choices", .arr [])],
   .obj [("choices", .arr [.obj []]), ("usage", .null)],
   .obj [("choices", .arr [.obj [("delta", .obj [("content", .str ": w")])]]),
    ("usage", .obj [("prompt_tokens", .int 9), ("completion_tokens", .null)])],
   .obj []]

def limitedOnce (rest : List Part) : Behaviour where
  opening n := if n = 0 then .refused ⟨.provider .rateLimit, "slow down", none, some 429⟩
    else .stream (cumulativeRecords.map .record ++ rest)
  prices _ _ _ := pricesOf (some (0.5, 0.25))

def smallModel : Model := ⟨"openai/small", 60, 100, 0.0, none⟩

def emptySession : Session (List Call) :=
  .start { entries := [], working := [], home := "/home", unreadable := [] } []

theorem orderly_cumulativeRecords : ∀ part ∈ cumulativeRecords, Orderly part := by
  simp only [cumulativeRecords, List.forall_mem_cons, List.not_mem_nil, false_implies,
    implies_true, and_true]
  refine ⟨⟨.inr ⟨_, rfl⟩, ?_, ?_⟩, ⟨.inr ⟨_, rfl⟩, ?_, ?_⟩, ⟨.inr ⟨_, rfl⟩, ?_, ?_⟩,
    ⟨.inr ⟨_, rfl⟩, ?_, ?_⟩, ⟨.inl rfl, ?_, ?_⟩⟩ <;>
    simp [choices, attributeOf, partUsage?, Json.member?, Mapping.get?, IsText, IsCount]

def cumulativeRun (rest : List Part) : Except Failure String × Session (List Call) :=
  (Run.generateManifest (client (limitedOnce rest) smallModel) ⟨"rules", []⟩
    (Path.ofString "/m.yaml")).run emptySession

theorem generateManifest_stream_cumulativeRecords :
    Completes (fun _ _ => some (0.5, 0.25)) cumulativeRecords (Path.ofString "/m.yaml")
        (client (limitedOnce []) smallModel ⟨"rules", []⟩ []).1 emptySession
        (cumulativeRun []).2 (cumulativeRun []).1 ∧
      BreaksOff cumulativeRecords ⟨.system .connectionReset, "socket closed", none, none⟩
        (client (limitedOnce [.breaksOff ⟨.system .connectionReset, "socket closed", none, none⟩])
          smallModel ⟨"rules", []⟩ []).1 emptySession
        (cumulativeRun [.breaksOff ⟨.system .connectionReset, "socket closed", none, none⟩]).2
        (cumulativeRun [.breaksOff ⟨.system .connectionReset, "socket closed", none, none⟩]).1 ∧
      (cumulativeRun []).2.fs.read (Path.ofString "/m.yaml") = .ok (Text.Utf8.encode "name: w") ∧
      ((cumulativeRun []).2.usage.inputTokens, (cumulativeRun []).2.usage.outputTokens) = (9, 0) := by
  have hp (input output : Int) : NotNegative ((fun _ _ => some (0.5, 0.25) : Tariff) input output) := by
    rintro _ ⟨⟩
    decide
  have hrun (rest : List Part) (hopened) := generateManifest_stream (limitedOnce rest) smallModel
    ⟨"rules", []⟩ (Path.ofString "/m.yaml") (fun _ _ => some (0.5, 0.25)) cumulativeRecords rest 2
    emptySession (cumulativeRun rest).2 (cumulativeRun rest).1 orderly_cumulativeRecords
    (fun _ _ => rfl) hp hopened Prod.mk.eta.symm
  refine ⟨(hrun [] rfl).1 rfl, (hrun [_] rfl).2 _ _ rfl, ?_, ?_⟩
  · decide +kernel
  · decide +kernel

end TreeManifest.Provider
