/-
What a node does with a stream of requests.

A stream is any bytes.  It begins with the frames of some requests, and behind them it either
goes on with bytes that are refused or ends inside a frame.  `Heard` cuts a stream up in this
way, and there is only one way to do it.  The node hears exactly these requests: each is
answered once and in order, bytes that are refused are answered with a refusal and are the
last that is looked at, and to an end inside a frame nothing is said.

The state that is left is the one that the requests give when they are applied one after
another, and only transactions and blocks change it.  Every reply fits a frame, so the client
that reads them all reads back what was said.  `serve_spec` puts these together.
-/
import AttestedLedger.Proofs.Ledger.History
import AttestedLedger.Proofs.Node.Replies

namespace AttestedLedger

/-! ### Cutting up a stream -/

namespace Message

/-- The stream ends inside a header, or inside the payload that its header announces. -/
def EndsInside (stream : Bytes) : Prop :=
  stream.length < headerLength ∨
    ∃ header payload kind length, stream = header ++ payload ∧ header.length = headerLength ∧
      parseHeader header = .ok (kind, length) ∧ payload.length < length

/-- A header that is refused, or one with all of its payload, which is. -/
def IsBroken (bytes : Bytes) (e : CodecError) : Prop :=
  (bytes.length = headerLength ∧ parseHeader bytes = .error e) ∨
    ∃ header payload kind, bytes = header ++ payload ∧ header.length = headerLength ∧
      parseHeader header = .ok (kind, payload.length) ∧ ofPayload kind payload = .error e

/-- The requests in front of a stream, and why what follows them is refused, if it is. -/
inductive Heard : Bytes → List Message → Option CodecError → Prop where
  | ended {stream : Bytes} (h : EndsInside stream) : Heard stream [] none
  | broken {bad more : Bytes} {e : CodecError} (h : IsBroken bad e) :
      Heard (bad ++ more) [] (some e)
  | request {frame rest : Bytes} {m : Message} {requests : List Message}
      {fault : Option CodecError} (h : IsFrame frame m) (hrest : Heard rest requests fault) :
      Heard (frame ++ rest) (m :: requests) fault

theorem receive_eq_cutOff_iff {stream : Bytes} : receive stream = .cutOff ↔ EndsInside stream := by
  constructor
  · intro h
    unfold receive receiveBy at h
    split at h
    · rename_i hshort
      exact Or.inl (Bytes.splitExact_eq_none_iff.mp hshort)
    · rename_i header body hheader
      obtain ⟨hlength, hsplit⟩ := Bytes.splitExact_eq_some_iff.mp hheader
      split at h
      · exact absurd h (by simp)
      · rename_i kind length hannounced
        split at h
        · rename_i hshort
          exact Or.inr ⟨header, body, kind, length, hsplit, hlength, hannounced,
            Bytes.splitExact_eq_none_iff.mp hshort⟩
        · split at h <;> exact absurd h (by simp)
  · rintro (hshort | ⟨header, payload, kind, length, rfl, hlength, hannounced, hshort⟩)
    · simp only [receive, receiveBy, Bytes.splitExact_eq_none_iff.mpr hshort]
    · simp only [receive, receiveBy, Bytes.splitExact_append hlength, hannounced,
        Bytes.splitExact_eq_none_iff.mpr hshort]

theorem receive_eq_malformed_iff {stream : Bytes} {e : CodecError} :
    receive stream = .malformed e ↔ ∃ bad more, IsBroken bad e ∧ stream = bad ++ more := by
  constructor
  · intro h
    unfold receive receiveBy at h
    split at h
    · exact absurd h (by simp)
    · rename_i header body hheader
      obtain ⟨hlength, rfl⟩ := Bytes.splitExact_eq_some_iff.mp hheader
      split at h
      · rename_i error herror
        obtain rfl := Received.malformed.inj h
        exact ⟨header, body, Or.inl ⟨hlength, herror⟩, rfl⟩
      · rename_i kind length hannounced
        split at h
        · exact absurd h (by simp)
        · rename_i payload rest hpayload
          obtain ⟨rfl, rfl⟩ := Bytes.splitExact_eq_some_iff.mp hpayload
          split at h
          · exact absurd h (by simp)
          · rename_i error herror
            obtain rfl := Received.malformed.inj h
            exact ⟨header ++ payload, rest,
              Or.inr ⟨header, payload, kind, rfl, hlength, hannounced, herror⟩,
              (List.append_assoc ..).symm⟩
  · rintro ⟨bad, more, ⟨hlength, herror⟩ | ⟨header, payload, kind, rfl, hlength, hheader, herror⟩,
      rfl⟩
    · simp only [receive, receiveBy, Bytes.splitExact_append hlength, herror]
    · simp only [receive, receiveBy, List.append_assoc, Bytes.splitExact_append hlength, hheader,
        Bytes.splitExact_append rfl, herror]

theorem IsBroken.receive {bad : Bytes} {e : CodecError} (h : IsBroken bad e) (more : Bytes) :
    receive (bad ++ more) = .malformed e :=
  receive_eq_malformed_iff.mpr ⟨bad, more, h, rfl⟩

theorem IsFrame.receive {frame : Bytes} {m : Message} (h : IsFrame frame m) (rest : Bytes) :
    receive (frame ++ rest) = .message m rest :=
  receive_eq_message_iff.mpr ⟨frame, h, rfl⟩

/-- **Every stream is cut up in some way.** -/
theorem exists_heard (stream : Bytes) : ∃ requests fault, Heard stream requests fault := by
  induction hlength : stream.length using Nat.strongRecOn generalizing stream with
  | _ n ih =>
      cases hreceive : receive stream with
      | cutOff => exact ⟨[], none, .ended (receive_eq_cutOff_iff.mp hreceive)⟩
      | malformed e =>
          obtain ⟨bad, more, hbroken, rfl⟩ := receive_eq_malformed_iff.mp hreceive
          exact ⟨[], some e, .broken hbroken⟩
      | message m rest =>
          have hshorter := length_lt_of_receive hreceive
          obtain ⟨frame, hframe, rfl⟩ := receive_eq_message_iff.mp hreceive
          obtain ⟨requests, fault, hrest⟩ := ih rest.length (hlength ▸ hshorter) rest rfl
          exact ⟨m :: requests, fault, .request hframe hrest⟩

/-- What was heard says what the stream begins with. -/
theorem Heard.receive_cases {stream : Bytes} {requests : List Message} {fault : Option CodecError}
    (h : Heard stream requests fault) :
    (receive stream = .cutOff ∧ requests = [] ∧ fault = none) ∨
      (∃ e, receive stream = .malformed e ∧ requests = [] ∧ fault = some e) ∨
      ∃ m rest others, receive stream = .message m rest ∧ requests = m :: others ∧
        Heard rest others fault := by
  cases h with
  | ended h => exact Or.inl ⟨receive_eq_cutOff_iff.mpr h, rfl, rfl⟩
  | broken h => exact Or.inr (Or.inl ⟨_, h.receive _, rfl, rfl⟩)
  | request h hrest => exact Or.inr (Or.inr ⟨_, _, _, h.receive _, rfl, hrest⟩)

/-- **There is only one way to cut up a stream.** -/
theorem Heard.unique {stream : Bytes} {requests others : List Message}
    {fault other : Option CodecError} (h : Heard stream requests fault)
    (hother : Heard stream others other) : others = requests ∧ other = fault := by
  induction h generalizing others other with
  | ended h =>
      have hreceive := receive_eq_cutOff_iff.mpr h
      rcases hother.receive_cases with ⟨-, hnone⟩ | ⟨e, he, -⟩ | ⟨m, rest, more, hm, -⟩
      · exact hnone
      · exact absurd (hreceive.symm.trans he) (by simp)
      · exact absurd (hreceive.symm.trans hm) (by simp)
  | @broken bad more e h =>
      have hreceive := h.receive more
      rcases hother.receive_cases with ⟨hc, -⟩ | ⟨e', he, hnone, hfault⟩ | ⟨m, rest, ms, hm, -⟩
      · exact absurd (hreceive.symm.trans hc) (by simp)
      · rw [Received.malformed.inj (hreceive.symm.trans he)]
        exact ⟨hnone, hfault⟩
      · exact absurd (hreceive.symm.trans hm) (by simp)
  | @request frame rest m requests fault h hrest ih =>
      have hreceive := h.receive rest
      rcases hother.receive_cases with ⟨hc, -⟩ | ⟨e, he, -⟩ | ⟨m', rest', more, hm, rfl, hmore⟩
      · exact absurd (hreceive.symm.trans hc) (by simp)
      · exact absurd (hreceive.symm.trans he) (by simp)
      · obtain ⟨rfl, rfl⟩ := Received.message.inj (hreceive.symm.trans hm)
        obtain ⟨rfl, rfl⟩ := ih hmore
        exact ⟨rfl, rfl⟩

/-- What is refused is the last that is looked at: whatever stands behind it, the same is heard. -/
theorem Heard.stops {stream : Bytes} {requests : List Message} {fault : Option CodecError}
    (h : Heard stream requests fault) {e : CodecError} (he : fault = some e) :
    ∃ frames bad, List.Forall₂ IsFrame frames requests ∧ IsBroken bad e ∧
      frames.flatten ++ bad <+: stream ∧
      ∀ more, Heard (frames.flatten ++ bad ++ more) requests fault := by
  induction h with
  | ended h => exact absurd he (by simp)
  | broken h =>
      obtain rfl := Option.some.inj he
      exact ⟨[], _, .nil, h, List.prefix_append _ _, fun more => .broken h⟩
  | @request frame rest m requests fault h hrest ih =>
      obtain ⟨frames, bad, hframes, hbad, hfront, hsame⟩ := ih he
      refine ⟨frame :: frames, bad, .cons h hframes, hbad, ?_, fun more => ?_⟩
      · rw [List.flatten_cons, List.append_assoc]
        exact (List.prefix_append_right_inj frame).mpr hfront
      · rw [List.flatten_cons, List.append_assoc, List.append_assoc, ← List.append_assoc _ bad]
        exact .request h (hsame more)

theorem Heard.withinLimits_block {stream : Bytes} {requests : List Message}
    {fault : Option CodecError} (h : Heard stream requests fault) {b : Block}
    (hb : .block b ∈ requests) : b.WithinLimits := by
  induction h with
  | ended _ => exact absurd hb List.not_mem_nil
  | broken _ => exact absurd hb List.not_mem_nil
  | request h hrest ih =>
      rcases List.mem_cons.mp hb with rfl | hlater
      · exact h.withinLimits_block
      · exact ih hlater

theorem Heard.modest {stream : Bytes} {requests : List Message} {fault : Option CodecError}
    (h : Heard stream requests fault) {e : CodecError} (he : fault = some e) : e.Modest := by
  induction h with
  | ended _ => exact absurd he (by simp)
  | broken h => exact Option.some.inj he ▸ modest_of_receive (h.receive [])
  | request _ _ ih => exact ih he

end Message

/-! ### What requests do to a state -/

namespace NodeState

/-- The state after a request: transactions are submitted, blocks are accepted if they can be,
and nothing else changes it. -/
def afterRequest (s : NodeState) (now : UInt64) : Message → NodeState
  | .transaction tx => (s.submit tx).1
  | .block b =>
    match s.acceptBlock now b with
    | .ok accepted => accepted
    | .error _ => s
  | _ => s

/-- The state after several requests, each at its own reading of the clock. -/
def afterRequests (s : NodeState) (clock : Nat → UInt64) : List Message → NodeState
  | [] => s
  | request :: rest =>
    (s.afterRequest (clock 0) request).afterRequests (fun turn => clock (turn + 1)) rest

theorem le_length_recordMiner (key : MinerKey) (height : Nat) (index : List (MinerKey × Nat)) :
    index.length ≤ (Chain.recordMiner key height index).length := by
  unfold Chain.recordMiner
  split
  · exact Nat.le_refl _
  · rw [List.length_append]
    exact Nat.le_add_right _ _

/-- No request makes a miner unknown again. -/
theorem length_miners_le_afterRequest (s : NodeState) (now : UInt64) (request : Message) :
    s.chain.miners.length ≤ (s.afterRequest now request).chain.miners.length := by
  cases request with
  | transaction tx =>
      simp only [afterRequest, (sameLedger_submit s tx).chain]
      exact Nat.le_refl _
  | block b =>
      simp only [afterRequest]
      cases haccept : s.acceptBlock now b with
      | ok accepted =>
          obtain ⟨-, rfl⟩ := acceptBlock_eq_ok_iff.mp haccept
          simp only [append, Chain.push, Chain.miners, List.length_map]
          exact le_length_recordMiner _ _ _
      | error _ => exact Nat.le_refl _
  | _ => exact Nat.le_refl _

theorem length_miners_le_afterRequests (s : NodeState) (clock : Nat → UInt64)
    (requests : List Message) :
    s.chain.miners.length ≤ (s.afterRequests clock requests).chain.miners.length := by
  induction requests generalizing s clock with
  | nil => exact Nat.le_refl _
  | cons request rest ih =>
      exact Nat.le_trans (s.length_miners_le_afterRequest (clock 0) request) (ih _ _)

end NodeState

/-- What a node owes for a request: the reply, and whether a transaction is passed on. -/
def Answer.Meets (answer : Answer) (identity : Identity) (s : NodeState) (now : UInt64) :
    Message → Prop
  | .identify => answer = ⟨.identity identity.minerKey, none⟩
  | .verifyTime b =>
    (s.reviewsTimestamp b now = true →
      answer = ⟨.attested ⟨identity.sign b.payload, identity.minerKey⟩, none⟩) ∧
    (s.reviewsTimestamp b now = false → answer = ⟨.declined, none⟩)
  | .transaction tx =>
    answer.reply = .ack ∧ (answer.relay = some tx ↔ (s.submit tx).2 = .added) ∧
      (answer.relay = none ↔ (s.submit tx).2 ≠ .added)
  | .block b =>
    (answer.reply = .ack ↔ ∃ accepted, s.acceptBlock now b = .ok accepted) ∧
      (∀ reason, s.acceptBlock now b = .error reason → answer.reply = .reject reason.message) ∧
      answer.relay = none
  | other => answer = ⟨.reject s!"unexpected {other.kind.title}", none⟩

namespace Node

/-! ### One request -/

theorem state_handle (node : Node) (now : UInt64) (request : Message) :
    (node.handle now request).1.state = node.state.afterRequest now request := by
  cases request with
  | verifyTime b =>
      simp only [handle]
      split <;> rfl
  | transaction tx =>
      simp only [handle, NodeState.afterRequest]
      split <;> rfl
  | block b =>
      simp only [handle, NodeState.afterRequest]
      cases node.state.acceptBlock now b <;> rfl
  | _ => rfl

theorem identity_handle (node : Node) (now : UInt64) (request : Message) :
    (node.handle now request).1.identity = node.identity := by
  cases request with
  | verifyTime b =>
      simp only [handle]
      split <;> rfl
  | transaction tx =>
      simp only [handle]
      split <;> rfl
  | block b =>
      simp only [handle]
      cases node.state.acceptBlock now b <;> rfl
  | _ => rfl

/-- **Every request gets what it is owed.** -/
theorem meets_handle (node : Node) (now : UInt64) (request : Message) :
    (node.handle now request).2.Meets node.identity node.state now request := by
  cases request with
  | verifyTime b =>
      simp only [handle, NodeState.attest]
      cases hreview : node.state.reviewsTimestamp b now with
      | true => exact ⟨fun _ => rfl, fun h => absurd (hreview.symm.trans h) (by simp)⟩
      | false => exact ⟨fun h => absurd (hreview.symm.trans h) (by simp), fun _ => rfl⟩
  | transaction tx =>
      simp only [handle]
      cases hsubmit : (node.state.submit tx).2 with
      | added => exact ⟨rfl, by simp [hsubmit], by simp [hsubmit]⟩
      | ignored status => exact ⟨rfl, by simp [hsubmit], by simp [hsubmit]⟩
  | block b =>
      simp only [handle]
      cases haccept : node.state.acceptBlock now b with
      | ok accepted => exact ⟨by simp [haccept], by simp [haccept], rfl⟩
      | error reason => exact ⟨by simp [haccept], by simp [haccept], rfl⟩
  | _ => rfl

/-! ### A whole stream -/

/-- What is said at the end of a stream: a refusal, if something was refused. -/
def lastWord : Option CodecError → List Answer
  | some e => [⟨refusal e, none⟩]
  | none => []

/-- Answer one request after another. -/
def answerAll (node : Node) (clock : Nat → UInt64) : List Message → Node × List Answer
  | [] => (node, [])
  | request :: rest =>
    let (node, answer) := node.handle (clock 0) request
    let (node, answers) := answerAll node (fun turn => clock (turn + 1)) rest
    (node, answer :: answers)

/-- Serving a stream, by what it begins with. -/
theorem serve_eq (node : Node) (clock : Nat → UInt64) (stream : Bytes) :
    node.serve clock stream =
      match Message.receive stream with
      | .cutOff => (node, [])
      | .malformed e => (node, [⟨refusal e, none⟩])
      | .message request rest =>
        let turn := node.handle (clock 0) request
        let later := turn.1.serve (fun turn => clock (turn + 1)) rest
        (later.1, turn.2 :: later.2) := by
  rw [serve]
  split <;> rename_i hreceive <;> simp only [hreceive]

/-- **Serving a stream is answering what is heard of it**, and a refusal at the end. -/
theorem serve_eq_of_heard {stream : Bytes} {requests : List Message} {fault : Option CodecError}
    (h : Message.Heard stream requests fault) (node : Node) (clock : Nat → UInt64) :
    node.serve clock stream =
      ((node.answerAll clock requests).1, (node.answerAll clock requests).2 ++ lastWord fault) := by
  induction h generalizing node clock with
  | ended h =>
      rw [serve_eq, Message.receive_eq_cutOff_iff.mpr h]
      rfl
  | @broken bad more e h =>
      rw [serve_eq, h.receive more]
      rfl
  | @request frame rest m requests fault h hrest ih =>
      rw [serve_eq, h.receive rest]
      simp only [ih, answerAll, List.cons_append]

theorem state_answerAll (node : Node) (clock : Nat → UInt64) (requests : List Message) :
    (node.answerAll clock requests).1.state = node.state.afterRequests clock requests := by
  induction requests generalizing node clock with
  | nil => rfl
  | cons request rest ih =>
      simp only [answerAll, NodeState.afterRequests, ih, state_handle]

theorem length_answerAll (node : Node) (clock : Nat → UInt64) (requests : List Message) :
    (node.answerAll clock requests).2.length = requests.length := by
  induction requests generalizing node clock with
  | nil => rfl
  | cons request rest ih => simp only [answerAll, List.length_cons, ih]

/-- Every request gets what it is owed by the state that the requests before it left. -/
theorem meets_answerAll (node : Node) (clock : Nat → UInt64) {requests : List Message} {turn : Nat}
    {request : Message} (hrequest : requests[turn]? = some request) :
    ∃ answer, (node.answerAll clock requests).2[turn]? = some answer ∧
      answer.Meets node.identity (node.state.afterRequests clock (requests.take turn))
        (clock turn) request := by
  induction requests generalizing node clock turn with
  | nil => exact absurd hrequest (by simp)
  | cons first rest ih =>
      cases turn with
      | zero =>
          obtain rfl := Option.some.inj hrequest
          exact ⟨_, rfl, node.meets_handle (clock 0) first⟩
      | succ turn =>
          obtain ⟨answer, hanswer, hmeets⟩ :=
            ih (node.handle (clock 0) first).1 (fun turn => clock (turn + 1)) hrequest
          rw [identity_handle, state_handle] at hmeets
          exact ⟨answer, hanswer, hmeets⟩

/-- Every reply fits a frame, if a word can count the miners that are known in the end. -/
theorem withinLimits_answerAll (node : Node) (clock : Nat → UInt64) {requests : List Message}
    (hblocks : ∀ b, .block b ∈ requests → b.WithinLimits)
    (hminers : (node.state.afterRequests clock requests).chain.miners.length < 2 ^ 64) :
    ∀ answer ∈ (node.answerAll clock requests).2, answer.reply.WithinLimits := by
  induction requests generalizing node clock with
  | nil => exact fun answer hanswer => absurd hanswer List.not_mem_nil
  | cons request rest ih =>
      -- there are never more miners than in the end
      have hbefore := Nat.lt_of_le_of_lt
        (node.state.length_miners_le_afterRequests clock (request :: rest)) hminers
      have hfirst : (node.handle (clock 0) request).2.reply.WithinLimits :=
        node.withinLimits_reply (clock 0) (fun b hb => hblocks b (hb ▸ List.mem_cons_self)) hbefore
      rw [NodeState.afterRequests, ← state_handle] at hminers
      have hrest := ih (node.handle (clock 0) request).1 (fun turn => clock (turn + 1))
        (fun b hb => hblocks b (List.mem_cons_of_mem request hb)) hminers
      intro answer hanswer
      rcases List.mem_cons.mp hanswer with rfl | hlater
      · exact hfirst
      · exact hrest answer hlater

theorem withinLimits_lastWord {fault : Option CodecError} (h : ∀ e, fault = some e → e.Modest) :
    ∀ answer ∈ lastWord fault, answer.reply.WithinLimits := by
  intro answer hanswer
  cases fault with
  | none => exact absurd hanswer List.not_mem_nil
  | some e =>
      obtain rfl := List.mem_singleton.mp hanswer
      exact withinLimits_refusal (h e rfl)

/-- Every reply of a connection fits a frame. -/
theorem withinLimits_serve (node : Node) (clock : Nat → UInt64) (stream : Bytes)
    (hminers : (node.serve clock stream).1.state.chain.miners.length < 2 ^ 64) :
    ∀ answer ∈ (node.serve clock stream).2, answer.reply.WithinLimits := by
  obtain ⟨requests, fault, hheard⟩ := Message.exists_heard stream
  rw [serve_eq_of_heard hheard] at hminers ⊢
  rw [state_answerAll] at hminers
  intro answer hanswer
  rcases List.mem_append.mp hanswer with hmine | hlast
  · exact node.withinLimits_answerAll clock (fun b => hheard.withinLimits_block) hminers
      answer hmine
  · exact withinLimits_lastWord (fun e => hheard.modest) answer hlast

/-- The replies of a connection as the client receives them. -/
theorem receiveMany_serve (node : Node) (clock : Nat → UInt64) (stream : Bytes)
    (hminers : (node.serve clock stream).1.state.chain.miners.length < 2 ^ 64)
    {arrivals : Arrivals} {rest : Bytes}
    (harrivals : arrivals.flatten =
      ((node.serve clock stream).2.map Answer.reply).flatMap Message.encode ++ rest) :
    ∃ left, arrivals.receiveMany (node.serve clock stream).2.length =
        some ((node.serve clock stream).2.map Answer.reply, left) ∧ left.flatten = rest := by
  rw [← List.length_map (f := Answer.reply)]
  refine Arrivals.receiveMany_frames (fun m hm => ?_) harrivals
  obtain ⟨answer, hanswer, rfl⟩ := List.mem_map.mp hm
  exact node.withinLimits_serve clock stream hminers answer hanswer

/-- **A connection.**  Whatever bytes a client sends, they are the frames of some requests and
then bytes that are refused, or an end inside a frame, and this in one way only.  Each request
is answered with what it is owed, in order.  Bytes that are refused get one refusal, and what
stands behind them makes no difference.  The state is the one that the requests leave when they
are applied in order, and the client reads back every reply, as long as the miners that are known
can be counted in a word. -/
theorem serve_spec (node : Node) (clock : Nat → UInt64) (stream : Bytes) :
    ∃ requests fault, Message.Heard stream requests fault ∧
      (∀ others other, Message.Heard stream others other → others = requests ∧ other = fault) ∧
      (∃ answers, (node.serve clock stream).2 = answers ++ lastWord fault ∧
        answers.length = requests.length ∧
        ∀ (turn : Nat) (request : Message), requests[turn]? = some request →
          ∃ answer, answers[turn]? = some answer ∧
            answer.Meets node.identity (node.state.afterRequests clock (requests.take turn))
              (clock turn) request) ∧
      (∀ e, fault = some e → ∃ frames bad, List.Forall₂ Message.IsFrame frames requests ∧
        Message.IsBroken bad e ∧ frames.flatten ++ bad <+: stream ∧
        ∀ more, node.serve clock (frames.flatten ++ bad ++ more) = node.serve clock stream) ∧
      (node.serve clock stream).1.state = node.state.afterRequests clock requests ∧
      ((node.serve clock stream).1.state.chain.miners.length < 2 ^ 64 →
        (∀ answer ∈ (node.serve clock stream).2,
          Message.decode answer.reply.encode = .ok answer.reply) ∧
        ∀ (arrivals : Arrivals) (rest : Bytes),
          arrivals.flatten =
            ((node.serve clock stream).2.map Answer.reply).flatMap Message.encode ++ rest →
          ∃ left, arrivals.receiveMany (node.serve clock stream).2.length =
              some ((node.serve clock stream).2.map Answer.reply, left) ∧
            left.flatten = rest) := by
  obtain ⟨requests, fault, hheard⟩ := Message.exists_heard stream
  have hserve := serve_eq_of_heard hheard node clock
  refine ⟨requests, fault, hheard, fun others other hother => hheard.unique hother, ?_, ?_, ?_, ?_⟩
  · refine ⟨(node.answerAll clock requests).2, congrArg Prod.snd hserve,
      node.length_answerAll clock requests, fun turn request hrequest => ?_⟩
    exact node.meets_answerAll clock hrequest
  · intro e he
    obtain ⟨frames, bad, hframes, hbad, hfront, hsame⟩ := hheard.stops he
    exact ⟨frames, bad, hframes, hbad, hfront,
      fun more => (serve_eq_of_heard (hsame more) node clock).trans hserve.symm⟩
  · rw [hserve]
    exact node.state_answerAll clock requests
  · intro hminers
    refine ⟨fun answer hanswer => ?_, fun arrivals rest harrivals => ?_⟩
    · exact Message.decode_eq_ok_iff.mpr (Message.isFrame_encode_iff.mpr
        (node.withinLimits_serve clock stream hminers answer hanswer))
    · exact node.receiveMany_serve clock stream hminers harrivals

/-- A greeting and a word that nobody asked for, then a header that names no message. -/
theorem serve_spec_greeting :
    let node := ofState ⟨1, by decide, by decide⟩ [] {} (.start {}) none
    let bad := List.replicate Message.headerLength 0
    let stream := Message.identify.encode ++ (Message.ack.encode ++ (bad ++ [1, 2, 3]))
    let replies := [.identity node.identity.minerKey, .reject "unexpected Ack",
      refusal (.invalidField (.unknownCommand ""))]
    (node.serve (fun _ => 0) stream).2.map Answer.reply = replies ∧
      (node.serve (fun _ => 0) stream).1.state = node.state ∧
      ∀ reply ∈ replies, Message.decode reply.encode = .ok reply := by
  intro node bad stream replies
  have hlisten : Message.Heard stream [.identify, .ack]
      (some (.invalidField (.unknownCommand ""))) :=
    .request (Message.isFrame_encode_iff.mpr (by decide))
      (.request (Message.isFrame_encode_iff.mpr (by decide)) (.broken (Or.inl (by decide))))
  obtain ⟨requests, fault, -, hunique, ⟨answers, hserve, hcount, howed⟩, -, hstate, hread⟩ :=
    node.serve_spec (fun _ => 0) stream
  obtain ⟨rfl, rfl⟩ := hunique _ _ hlisten
  obtain ⟨first, second, rfl⟩ := List.length_eq_two.mp hcount
  obtain ⟨_, hfirst, rfl⟩ := howed 0 .identify rfl
  obtain ⟨_, hsecond, rfl⟩ := howed 1 .ack rfl
  obtain rfl := Option.some.inj hfirst
  obtain rfl := Option.some.inj hsecond
  have hreplies : (node.serve (fun _ => 0) stream).2.map Answer.reply = replies := by
    rw [hserve]
    rfl
  refine ⟨hreplies, hstate, fun reply hreply => ?_⟩
  rw [← hreplies] at hreply
  obtain ⟨answer, hanswer, rfl⟩ := List.mem_map.mp hreply
  have hminers : (node.serve (fun _ => 0) stream).1.state.chain.miners.length < 2 ^ 64 := by
    rw [hstate]
    decide
  exact (hread hminers).1 answer hanswer

end Node

end AttestedLedger
