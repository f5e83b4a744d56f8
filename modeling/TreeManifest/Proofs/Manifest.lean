import TreeManifest.Proofs.FileSystem.Write
import TreeManifest.Proofs.Run
import TreeManifest.Proofs.Usage.Growth

/-!
# What is seen of a reply

The texts of a reply, put together, and its reports of usage in their order are all that the writing
of a manifest sees: how they are mixed with each other and with other pieces, which client they come
from and how a text is cut make no difference (`generateManifest_sees`). Usage is counted at once
and text is kept back, so a reply that stops early has been counted up to there and has written
nothing.
-/

namespace TreeManifest

-- ---------------------------------------------------------------------------
-- Reports
-- ---------------------------------------------------------------------------

structure CallUsage.IsCountable (call : CallUsage) : Prop where
  notNegative : ¬ call.Negative
  notHuge : ¬ call.IsHuge

namespace Usage

def counting (usage : Usage) (usages : List CallUsage) : Usage where
  inputTokens := usage.inputTokens + (usages.map (·.inputTokens)).sum
  outputTokens := usage.outputTokens + (usages.map (·.outputTokens)).sum
  cost := (usages.filterMap (·.charge.toFloat?)).foldl (· + ·) usage.cost
  calls := usage.calls

def addUntilRefused (usage : Usage) : List CallUsage → Usage × Except Failure Unit
  | [] => (usage, .ok ())
  | call :: rest =>
    match usage.add call with
    | (usage, .ok ()) => usage.addUntilRefused rest
    | (usage, .error failure) => (usage, .error failure)

@[simp] theorem counting_nil (usage : Usage) : usage.counting [] = usage := by simp [counting]

theorem add_isCountable {call : CallUsage} (usage : Usage) (h : call.IsCountable) :
    usage.add call = (usage.counting [call], .ok ()) := by
  have hreported := usage.reported call
  generalize usage.add call = outcome at hreported ⊢
  cases hreported with
  | refused hn => exact absurd hn h.notNegative
  | halfCounted hn hh => exact absurd hh h.notHuge
  | counted hn hh hx => simp [counting, countTokens, hx]

theorem add_isHuge {call : CallUsage} (usage : Usage) (hn : ¬ call.Negative) (hh : call.IsHuge) :
    usage.add call = (usage.countTokens call, .error .hugeInteger) := by
  have hreported := usage.reported call
  generalize usage.add call = outcome at hreported ⊢
  cases hreported with
  | refused hneg => exact absurd hneg hn
  | halfCounted => rfl
  | counted _ hnot => exact absurd hh hnot

theorem counting_append (usage : Usage) (usages more : List CallUsage) :
    usage.counting (usages ++ more) = (usage.counting usages).counting more := by
  simp [counting, Int.add_assoc]

theorem addUntilRefused_isCountable (usage : Usage) {usages : List CallUsage}
    (h : ∀ call ∈ usages, call.IsCountable) :
    usage.addUntilRefused usages = (usage.counting usages, .ok ()) := by
  induction usages generalizing usage with
  | nil => simp [addUntilRefused]
  | cons call rest ih =>
    obtain ⟨hcall, hrest⟩ := List.forall_mem_cons.mp h
    rw [addUntilRefused, usage.add_isCountable hcall]
    exact (ih _ hrest).trans (by rw [← counting_append]; rfl)

end Usage

-- ---------------------------------------------------------------------------
-- Replies
-- ---------------------------------------------------------------------------

def Chunk.IsSound : Chunk → Prop
  | .notText _ | .lacking _ => False
  | .text _ | .reasoning _ | .usage _ | .other => True

/-- A reply whose stream raises nothing, of pieces that hold what their tags promise. -/
structure Reply.IsSound (reply : Reply) : Prop where
  unbroken : reply.failure = none
  pieces : ∀ chunk ∈ reply.chunks, chunk.IsSound

/-- A piece after which the reading goes on, though the text may turn out to be none in the end. -/
def Chunk.IsPassed : Chunk → Prop
  | .usage call => call.IsCountable
  | .lacking _ => False
  | .text _ | .notText _ | .reasoning _ | .other => True

/-- The reading of a reply stops with a failure after the pieces `front`, all of which it has
passed: the stream raises it, or the next piece is refused or lacks something. -/
inductive Reply.StopsAfter (reply : Reply) (front : List Chunk) : Failure → Prop
  | raised {failure : Failure} (hchunks : reply.chunks = front)
      (hfailure : reply.failure = some failure) : StopsAfter reply front failure
  | refused {call : CallUsage} {rest : List Chunk}
      (hchunks : reply.chunks = front ++ .usage call :: rest) (hn : call.Negative) :
      StopsAfter reply front
        (.negativeUsage call.inputTokens call.outputTokens call.charge)
  | lacking {name : String} {rest : List Chunk}
      (hchunks : reply.chunks = front ++ .lacking name :: rest) :
      StopsAfter reply front (.missingAttribute name)

namespace Manifest

theorem receive_isSound (usage : Usage) {chunks : List Chunk}
    (h : ∀ chunk ∈ chunks, chunk.IsSound) :
    receive usage chunks = ((usage.addUntilRefused (chunks.filterMap Chunk.usage?)).1,
      (usage.addUntilRefused (chunks.filterMap Chunk.usage?)).2.map fun _ =>
        (chunks.filterMap Chunk.text?).map .text) := by
  induction chunks generalizing usage with
  | nil => rfl
  | cons chunk rest ih =>
    obtain ⟨hchunk, hrest⟩ := List.forall_mem_cons.mp h
    cases chunk with
    | text first =>
      rw [receive, ih usage hrest]
      simp only [List.filterMap_cons, Chunk.usage?, Chunk.text?]
      cases (usage.addUntilRefused (rest.filterMap Chunk.usage?)).2 <;> rfl
    | reasoning _ => exact ih usage hrest
    | other => exact ih usage hrest
    | notText _ => exact hchunk.elim
    | lacking _ => exact hchunk.elim
    | usage call =>
      simp only [receive, List.filterMap_cons, Chunk.usage?, Chunk.text?, Usage.addUntilRefused]
      rcases usage.add call with ⟨usage', failure | ⟨⟩⟩
      · rfl
      · exact ih usage' hrest

/-- Of a sound reply only its text and its reports are seen. -/
theorem absorb_isSound (usage : Usage) {reply : Reply} (h : reply.IsSound) :
    absorb usage reply = ((usage.addUntilRefused reply.usages).1,
      (usage.addUntilRefused reply.usages).2.map fun _ => reply.text) := by
  rw [absorb, receive_isSound usage h.pieces]
  show _ = ((usage.addUntilRefused (reply.chunks.filterMap Chunk.usage?)).1,
    (usage.addUntilRefused (reply.chunks.filterMap Chunk.usage?)).2.map fun _ => reply.text)
  rcases usage.addUntilRefused (reply.chunks.filterMap Chunk.usage?) with ⟨usage', failure | ⟨⟩⟩
  · rfl
  · rw [h.unbroken]
    exact Prod.ext rfl (joinFrom_text 0 _)

/-- What comes after pieces that are passed is read from the counters that they leave. -/
theorem receive_append (usage : Usage) {front : List Chunk} (rest : List Chunk)
    (h : ∀ chunk ∈ front, chunk.IsPassed) : ∃ pieces,
    receive usage (front ++ rest) =
      ((receive (usage.counting (front.filterMap Chunk.usage?)) rest).1,
        (receive (usage.counting (front.filterMap Chunk.usage?)) rest).2.map (pieces ++ ·)) := by
  induction front generalizing usage with
  | nil =>
    refine ⟨[], Prod.ext (by simp) ?_⟩
    simp only [List.nil_append, List.filterMap_nil, Usage.counting_nil]
    cases (receive usage rest).2 <;> rfl
  | cons chunk more ih =>
    obtain ⟨hchunk, hmore⟩ := List.forall_mem_cons.mp h
    have hkept (piece : Piece) (pieces : List Piece) (r : Except Failure (List Piece)) :
        (r.map (pieces ++ ·)).map (piece :: ·) = r.map (piece :: pieces ++ ·) := by
      cases r <;> rfl
    cases chunk with
    | text first =>
      obtain ⟨pieces, hpieces⟩ := ih usage hmore
      refine ⟨.text first :: pieces, ?_⟩
      rw [List.cons_append, receive, hpieces]
      exact Prod.ext rfl (hkept ..)
    | notText kind =>
      obtain ⟨pieces, hpieces⟩ := ih usage hmore
      refine ⟨.notText kind :: pieces, ?_⟩
      rw [List.cons_append, receive, hpieces]
      exact Prod.ext rfl (hkept ..)
    | reasoning _ => exact ih usage hmore
    | other => exact ih usage hmore
    | lacking _ => exact hchunk.elim
    | usage call =>
      -- Only counters are passed on, so the rest starts from those with this call in them.
      obtain ⟨pieces, hpieces⟩ := ih (usage.counting [call]) hmore
      refine ⟨pieces, ?_⟩
      simp only [List.cons_append, receive, usage.add_isCountable hchunk, List.filterMap_cons,
        Chunk.usage?]
      rw [hpieces, ← Usage.counting_append]
      rfl

theorem absorb_stopsAfter (usage : Usage) {reply : Reply} {front : List Chunk} {failure : Failure}
    (h : ∀ chunk ∈ front, chunk.IsPassed) (hstop : reply.StopsAfter front failure) :
    absorb usage reply =
      (usage.counting (front.filterMap Chunk.usage?), .error failure) := by
  cases hstop with
  | raised hchunks hfailure =>
    obtain ⟨pieces, hpieces⟩ := receive_append usage [] h
    rw [List.append_nil] at hpieces
    rw [absorb, hchunks, hpieces, hfailure]
    rfl
  | @refused call rest hchunks hn =>
    obtain ⟨pieces, hpieces⟩ := receive_append usage (.usage call :: rest) h
    rw [absorb, hchunks, hpieces]
    simp only [receive, Usage.add_negative _ hn]
    rfl
  | @lacking name rest hchunks =>
    obtain ⟨pieces, hpieces⟩ := receive_append usage (.lacking name :: rest) h
    rw [absorb, hchunks, hpieces]
    rfl

/-- A price that cannot be added stops the reading when its tokens have been counted. -/
theorem absorb_isHuge (usage : Usage) {reply : Reply} {front rest : List Chunk} {call : CallUsage}
    (h : ∀ chunk ∈ front, chunk.IsPassed) (hchunks : reply.chunks = front ++ .usage call :: rest)
    (hn : ¬ call.Negative) (hh : call.IsHuge) :
    absorb usage reply =
      ((usage.counting (front.filterMap Chunk.usage?)).countTokens call, .error .hugeInteger) := by
  obtain ⟨pieces, hpieces⟩ := receive_append usage (.usage call :: rest) h
  rw [absorb, hchunks, hpieces]
  simp only [receive, Usage.add_isHuge _ hn hh]
  rfl

end Manifest

-- ---------------------------------------------------------------------------
-- Manifests
-- ---------------------------------------------------------------------------

variable {σ : Type}

namespace Run

def manifestOutcome (client : Client σ) (request : Request) (p : Path) (s : Session σ) :
    Except Failure String × FileSystem × Usage :=
  let (result, after) := (generateManifest client request p).run s
  (result, after.fs, after.usage)

def written (fs : FileSystem) (p : Path) (usage : Usage) (text : String) :
    Except Failure String × FileSystem × Usage :=
  match Manifest.writeText fs p text with
  | .ok fs => (.ok text, fs, usage)
  | .error failure => (.error failure, fs, usage)

theorem written_ok {fs fs' : FileSystem} {p : Path} {text : String} (usage : Usage)
    (h : Manifest.writeText fs p text = .ok fs') :
    written fs p usage text = (.ok text, fs', usage) := by
  rw [written, h]

theorem manifestOutcome_eq (client : Client σ) (request : Request) (p : Path) (s : Session σ) :
    manifestOutcome client request p s =
      match Manifest.absorb s.usage.recordCall (client request s.client).1 with
      | (usage, .ok text) => written s.fs p usage text
      | (usage, .error failure) => (.error failure, s.fs, usage) := by
  rcases habsorb : Manifest.absorb s.usage.recordCall (client request s.client).1 with
    ⟨usage, failure | text⟩
  · rw [manifestOutcome, generateManifest_unanswered p (congrArg Prod.snd habsorb)]
    show (_, s.fs, (Manifest.absorb s.usage.recordCall (client request s.client).1).1) = _
    rw [habsorb]
  · rcases hrun : (generateManifest client request p).run s with ⟨result, after⟩
    obtain ⟨husage, hok, herror⟩ := generateManifest_answered habsorb hrun
    simp only [manifestOutcome, written, hrun]
    rcases hw : Manifest.writeText s.fs p text with failure | fs
    · obtain ⟨hresult, hfs⟩ := herror failure hw
      rw [hresult, hfs, husage]
    · obtain ⟨hresult, hfs⟩ := hok fs hw
      rw [hresult, hfs, husage]

/-- Two sound replies with the same text and the same reports, whatever their clients, their
pieces and the requests, give the same result and leave the same files and counters, where they
start from the same ones. If no report is refused, all are counted, and the path holds the octets of
the text unless it cannot be written. A reply that stops has changed no file, and the counters have
grown by one call and by the reports before the stop; only a price that cannot be added has had its
tokens counted. -/
theorem generateManifest_sees {client : Client σ} {request : Request} {s : Session σ}
    {reply : Reply} (hreply : (client request s.client).1 = reply) (p : Path) :
    (reply.IsSound →
      ∀ (τ : Type) (client' : Client τ) (request' : Request) (s' : Session τ) (reply' : Reply),
        (client' request' s'.client).1 = reply' → s'.fs = s.fs → s'.usage = s.usage →
        reply'.IsSound → reply'.text = reply.text → reply'.usages = reply.usages →
        manifestOutcome client' request' p s' = manifestOutcome client request p s) ∧
    (reply.IsSound → (∀ call ∈ reply.usages, call.IsCountable) →
        manifestOutcome client request p s =
          written s.fs p (s.usage.recordCall.counting reply.usages) reply.text ∧
        (s.fs.IsTree → (∀ part ∈ p.parts, Path.IsPart part) → ∀ fs,
          Manifest.writeText s.fs p reply.text = .ok fs →
          fs.read p = .ok (Text.Utf8.encode reply.text))) ∧
    ∀ front, (∀ chunk ∈ front, Chunk.IsPassed chunk) →
      (∀ failure, reply.StopsAfter front failure →
        manifestOutcome client request p s = (.error failure, s.fs,
          s.usage.recordCall.counting (front.filterMap Chunk.usage?))) ∧
      ∀ call rest, reply.chunks = front ++ .usage call :: rest → ¬ call.Negative → call.IsHuge →
        manifestOutcome client request p s = (.error .hugeInteger, s.fs,
          (s.usage.recordCall.counting (front.filterMap Chunk.usage?)).countTokens call) := by
  have houtcome := manifestOutcome_eq client request p s
  rw [hreply] at houtcome
  refine ⟨fun hsound τ client' request' s' reply' hreply' hfs husage hsound' htext husages => ?_,
    fun hsound hcountable => ⟨?_, fun htree hparts fs hw => ?_⟩,
    fun front hfront => ⟨fun failure hstop => ?_, fun call rest hchunks hn hh => ?_⟩⟩
  · rw [manifestOutcome_eq, hreply', houtcome, Manifest.absorb_isSound _ hsound,
      Manifest.absorb_isSound _ hsound', hfs, husage, htext, husages]
  · rw [houtcome, Manifest.absorb_isSound _ hsound, Usage.addUntilRefused_isCountable _ hcountable]
    rfl
  · exact (FileSystem.writeText_read htree hparts hw).1
  · rw [houtcome, Manifest.absorb_stopsAfter _ hfront hstop]
  · rw [houtcome, Manifest.absorb_isHuge _ hfront hchunks hn hh]

def halfReport : CallUsage := ⟨3, 2, some (.real 0.5)⟩

def hugeReport : CallUsage := ⟨1, 1, some (.whole (10 ^ 400))⟩

def socketClosed : Failure := .raised ⟨.system .connectionReset, "socket closed", none, none⟩

def mixedReply (rest : List Chunk) (failure : Option Failure) : Reply :=
  ⟨[.reasoning "a root", .text "name", .usage halfReport, .other, .text ": p\n"] ++ rest, [],
    failure⟩

def emptyTree : FileSystem where
  entries := []
  working := []
  home := "/home"
  unreadable := []

def playing (reply : Reply) : Except Failure String × FileSystem × Usage :=
  manifestOutcome (Client.scripted fun _ => reply) ⟨"rules", []⟩ (Path.ofString "/m.yaml")
    (.start emptyTree 0)

theorem isCountable_halfReport : halfReport.IsCountable :=
  ⟨CallUsage.isNegative_iff.not.mp (by decide), fun ⟨_, hn, _⟩ => nomatch hn⟩

theorem isHuge_hugeReport : ¬ hugeReport.Negative ∧ hugeReport.IsHuge :=
  ⟨CallUsage.isNegative_iff.not.mp (by decide +kernel), _, rfl, by decide +kernel⟩

theorem isSound_mixedReply : (mixedReply [] none).IsSound := by
  refine ⟨rfl, ?_⟩
  simp [mixedReply, Chunk.IsSound]

def plainReply : Reply := ⟨[.text "name: p\n", .usage halfReport], [], none⟩

theorem isSound_plainReply : plainReply.IsSound := ⟨rfl, by simp [plainReply, Chunk.IsSound]⟩

theorem text_replies :
    plainReply.text = "name: p\n" ∧ (mixedReply [] none).text = plainReply.text := by decide

/-- The same text and the same report in two replies, the same stream broken off, and a price that
cannot be added after it. -/
theorem generateManifest_sees_mixedReply :
    playing (mixedReply [] none) = playing plainReply ∧
      (playing plainReply).1 = .ok "name: p\n" ∧
      (playing plainReply).2.1.read (Path.ofString "/m.yaml") =
        .ok (Text.Utf8.encode "name: p\n") ∧
      playing (mixedReply [] (some socketClosed)) = (.error socketClosed, emptyTree,
        Usage.zero.recordCall.counting [halfReport]) ∧
      playing (mixedReply [.usage hugeReport] none) = (.error .hugeInteger, emptyTree,
        (Usage.zero.recordCall.counting [halfReport]).countTokens hugeReport) := by
  have hsees (reply : Reply) := generateManifest_sees
    (show (Client.scripted (fun _ => reply) ⟨"rules", []⟩
      (Session.start emptyTree 0).client).1 = reply from rfl) (Path.ofString "/m.yaml")
  have hfront : ∀ chunk ∈ (mixedReply [] none).chunks, chunk.IsPassed := by
    simp [mixedReply, Chunk.IsPassed, isCountable_halfReport]
  have hcountable : ∀ call ∈ plainReply.usages, call.IsCountable := by
    simp [plainReply, Reply.usages, Chunk.usage?, isCountable_halfReport]
  have hparts : ∀ part ∈ (Path.ofString "/m.yaml").parts, Path.IsPart part := fun _ h =>
    Path.isPart_of_mem_partsOf h
  obtain ⟨hsame, hwhole, -⟩ := hsees plainReply
  obtain ⟨hleft, hread⟩ := hwhole isSound_plainReply hcountable
  obtain ⟨fs, hw⟩ : ∃ fs, Manifest.writeText emptyTree (Path.ofString "/m.yaml")
      plainReply.text = .ok fs := ⟨_, rfl⟩
  have hplaying : playing plainReply =
      (.ok plainReply.text, fs, Usage.zero.recordCall.counting plainReply.usages) :=
    hleft.trans (written_ok _ hw)
  refine ⟨?_, ?_, ?_, ?_, ?_⟩
  · exact hsame isSound_plainReply Nat (Client.scripted fun _ => mixedReply [] none) ⟨"rules", []⟩
      (.start emptyTree 0) (mixedReply [] none) rfl rfl rfl isSound_mixedReply
      text_replies.2 rfl
  · rw [hplaying, text_replies.1]
  · rw [hplaying, ← text_replies.1]
    exact hread (by decide) hparts fs hw
  · exact ((hsees _).2.2 _ hfront).1 _ (.raised rfl rfl)
  · exact ((hsees _).2.2 _ hfront).2 hugeReport [] rfl isHuge_hugeReport.1 isHuge_hugeReport.2

end Run

end TreeManifest
