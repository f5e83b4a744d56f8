import TreeManifest.Manifest

/-!
# What a reply makes

A reply whose stream ends well makes the concatenation of its texts, whatever the counters were
before it (`absorb_ok`, `absorb_text_eq`).
-/

namespace TreeManifest

def Chunk.text? : Chunk → Option String
  | .text piece => some piece
  | _ => none

/-- The texts of a reply, joined in the order of their arrival. -/
def Reply.text (reply : Reply) : String := String.join (reply.chunks.filterMap Chunk.text?)

def Client.replies (client : Client σ) : σ → List Request → List Reply
  | _, [] => []
  | state, request :: rest =>
    (client request state).1 :: client.replies (client request state).2 rest

def Client.after (client : Client σ) : σ → List Request → σ
  | state, [] => state
  | state, request :: rest => client.after (client request state).2 rest

variable {σ : Type}

theorem Client.replies_append (client : Client σ) (state : σ) (requests more : List Request) :
    client.replies state (requests ++ more) =
      client.replies state requests ++ client.replies (client.after state requests) more := by
  induction requests generalizing state with
  | nil => rfl
  | cons request rest ih => simp [replies, after, ih]

theorem Client.length_replies (client : Client σ) (state : σ) (requests : List Request) :
    (client.replies state requests).length = requests.length := by
  induction requests generalizing state with
  | nil => rfl
  | cons request rest ih => simp [replies, ih]

theorem Client.exists_of_mem_replies {client : Client σ} {state : σ} {requests : List Request}
    {reply : Reply} (h : reply ∈ client.replies state requests) :
    ∃ request state, reply = (client request state).1 := by
  induction requests generalizing state with
  | nil => cases h
  | cons request rest ih =>
    rcases List.mem_cons.mp h with rfl | h
    · exact ⟨request, state, rfl⟩
    · exact ih h

namespace Manifest

theorem joinFrom_texts {usage : Usage} {chunks : List Chunk} {pieces : List Piece} {text : String}
    {index : Nat} (h : (receive usage chunks).2 = .ok pieces) (hj : joinFrom index pieces = .ok text) :
    text = String.join (chunks.filterMap Chunk.text?) := by
  induction chunks generalizing usage pieces text index with
  | nil =>
    cases h
    cases hj
    simp
  | cons chunk rest ih =>
    cases chunk with
    | text first =>
      simp only [receive] at h
      rcases hr : (receive usage rest).2 with failure | more
      · rw [hr] at h; cases h
      · rw [hr] at h; cases h
        simp only [joinFrom] at hj
        rcases hm : joinFrom (index + 1) more with failure | last
        · rw [hm] at hj; cases hj
        · rw [hm] at hj; cases hj
          rw [ih hr hm]
          simp [Chunk.text?]
    | notText kind =>
      simp only [receive] at h
      rcases hr : (receive usage rest).2 with failure | more
      · rw [hr] at h; cases h
      · rw [hr] at h; cases h
        cases hj
    | reasoning thought => exact ih h hj
    | other => exact ih h hj
    | lacking name => cases h
    | usage call =>
      simp only [receive] at h
      rcases hu : usage.add call with ⟨usage', failure | ⟨⟩⟩
      · rw [hu] at h; cases h
      · rw [hu] at h; exact ih h hj

theorem absorb_ok {usage : Usage} {reply : Reply} {text : String}
    (h : (absorb usage reply).2 = .ok text) : text = reply.text := by
  simp only [absorb] at h
  rcases hr : (receive usage reply.chunks).2 with failure | pieces
  · rw [hr] at h; cases h
  rw [hr] at h
  rcases hf : reply.failure with _ | failure
  · rw [hf] at h; exact joinFrom_texts hr h
  · rw [hf] at h; cases h

theorem add_result_eq (usage usage' : Usage) (call : CallUsage) :
    (usage.add call).2 = (usage'.add call).2 := by
  unfold Usage.add
  split
  · rfl
  · split <;> rfl

theorem receive_pieces_eq (usage usage' : Usage) (chunks : List Chunk) :
    (receive usage chunks).2 = (receive usage' chunks).2 := by
  induction chunks generalizing usage usage' with
  | nil => rfl
  | cons chunk rest ih =>
    cases chunk with
    | text first => simp only [receive]; rw [ih usage usage']
    | notText kind => simp only [receive]; rw [ih usage usage']
    | reasoning thought => exact ih usage usage'
    | other => exact ih usage usage'
    | lacking name => rfl
    | usage call =>
      have hadd := add_result_eq usage usage' call
      simp only [receive]
      rcases hu : usage.add call with ⟨next, failure | ⟨⟩⟩ <;>
        rcases hu' : usage'.add call with ⟨next', failure' | ⟨⟩⟩ <;>
        simp only [hu, hu', reduceCtorEq, Except.error.injEq] at hadd ⊢
      · rw [hadd]
      · exact ih next next'

theorem absorb_text_eq (usage usage' : Usage) (reply : Reply) :
    (absorb usage reply).2 = (absorb usage' reply).2 := by
  simp only [absorb]
  rw [receive_pieces_eq usage usage']

end Manifest

end TreeManifest
