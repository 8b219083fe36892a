import Watchwoman.Commands.Responses
import Watchwoman.Daemon.BserSession
import Watchwoman.Lib.Channel

/-!
# A connection

`handle_connection` reads a request, gives it to a handler and sends the response into a channel;
`writer_loop` writes what comes out of the channel onto the socket. Push loops send into the same
channel, and other connections, the watchers and the garbage collector work on the same daemon. In
whatever order all this happens, the client talks to a server that handles one request after the
other (`connection_serves`).

Runs are of whole commands: a handler, of this connection or of another, is one step, as is a batch
or a sweep, and no two calls of `register_root` overlap (`Dispatch.daemon_registers_alone`). The stack
takes what the client nests.
-/

namespace Watchwoman.Connection

open Transition Server Dispatch Persistence

/-! ## The parts of a connection -/

/-- What is sent into the channel of a connection. -/
inductive Message where
  | response (v : Value)
  | push (v : Value)
  /-- The error that ends the connection. -/
  | refusal (v : Value)

namespace Message

def value : Message → Value
  | response v | push v | refusal v => v

def answer : Message → Option Value
  | response v => some v
  | _ => none

end Message

/-- Where `handle_connection` is. -/
inductive Phase where
  | dispatching (request : Value)
  | sending (response : Value)
  /-- At the head of the loop. -/
  | looping
  | reading
  | done

namespace Phase

def request : Phase → List Value
  | dispatching request => [request]
  | _ => []

def response : Phase → List Value
  | sending response => [response]
  | _ => []

end Phase

/-- A connection whose encoding is known, and the daemon it belongs to. -/
structure State (serde : Serde) where
  daemon : DaemonState serde.File
  /-- What the client sends and has not been read. -/
  input : List UInt8
  encoding : Encoding
  phase : Phase
  /-- The write side of the session. -/
  channel : Channel Message
  /-- What was written onto the socket. -/
  output : List UInt8
  /-- The requests that were handled, with their responses. -/
  served : List (Value × Value)

/-- `error_response` -/
def errorResponse (msg : String) : Value := obj [("error", .string msg)]

/-- A push loop can send the value: it is what the loop has found in some root. -/
def Pushed (v : Value) : Prop :=
  ∃ name path env spec r, PlainEnv env ∧ v ∈ Subscribe.messages name path (Query.run env spec r).1

section

-- `serde_json::from_slice`, what `serde_json` writes for a value, and the id of the session
variable {serde : Serde} (lim : AllocLimits) (fromSlice : List UInt8 → Option Json)
  (toVec : Value → Option (List UInt8)) (id : ℕ)

/-- The bytes that `write_value` writes. -/
def writeValue (encoding : Encoding) (v : Value) : Option (List UInt8) :=
  match encoding with
  | .json => (toVec v).map (· ++ [0x0A])
  | .bserV1 | .bserV2 => (Bser.encodePdu v encoding).toOption

/-- The start of `handle_connection`: without a first request it returns. -/
def accept (daemon : DaemonState serde.File) (input : List UInt8) : Option (State serde) :=
  match readFirstPdu lim fromSlice input with
  | .ok (some (request, encoding), rest) =>
    some ⟨daemon, rest, encoding, .dispatching request, .empty, [], []⟩
  | _ => none

/-- One step of the connection, of its writer or of the daemon around it. -/
inductive Step : State serde → State serde → Prop
  /-- The handler runs. -/
  | dispatch {env : CommandEnv} (henv : ∀ path, PlainEnv (env.query path)) {s : State serde}
    {request : Value} (hphase : s.phase = .dispatching request) :
    Step s { s with
      daemon := (dispatch env ⟨id, s.encoding⟩ request s.daemon).2
      phase := .sending (dispatch env ⟨id, s.encoding⟩ request s.daemon).1
      served := s.served ++ [(request, (dispatch env ⟨id, s.encoding⟩ request s.daemon).1)] }
  /-- The rest of `dispatch_and_send`. -/
  | send {s : State serde} {response : Value} (hphase : s.phase = .sending response) :
    Step s { s with phase := .looping, channel := s.channel.send (.response response) }
  | stop {s : State serde} (hphase : s.phase = .looping)
    (hstop : s.channel.isOpen = false ∨ s.daemon.shuttingDown = true) :
    Step s { s with phase := .done }
  | next {s : State serde} (hphase : s.phase = .looping) (hopen : s.channel.isOpen = true)
    (hserving : s.daemon.shuttingDown = false) :
    Step s { s with phase := .reading }
  | read {s : State serde} (hphase : s.phase = .reading) {request : Value} {rest : List UInt8}
    (hread : readPdu lim fromSlice s.encoding s.input = .ok (some request, rest)) :
    Step s { s with input := rest, phase := .dispatching request }
  | eof {s : State serde} (hphase : s.phase = .reading) {rest : List UInt8}
    (hread : readPdu lim fromSlice s.encoding s.input = .ok (none, rest)) :
    Step s { s with phase := .done }
  /-- `e` is the text of the error. -/
  | refuse {s : State serde} (hphase : s.phase = .reading) {error : ServerError} (e : String)
    (hread : readPdu lim fromSlice s.encoding s.input = .error (.error error)) :
    Step s { s with
      phase := .done
      channel := s.channel.send (.refusal (errorResponse ("parse error: " ++ e))) }
  /-- The reader panics; the writer is a task of its own. -/
  | panic {s : State serde} (hphase : s.phase = .reading) {p : Panic}
    (hread : readPdu lim fromSlice s.encoding s.input = .error (.panic p)) :
    Step s { s with phase := .done }
  | push {s : State serde} {v : Value} (hv : Pushed v) :
    Step s { s with channel := s.channel.send (.push v) }
  | write {s : State serde} {m : Message} {channel : Channel Message}
    (hrecv : s.channel.recv = some (m, channel)) {bytes : List UInt8}
    (hbytes : writeValue toVec s.encoding m.value = some bytes) :
    Step s { s with channel, output := s.output ++ bytes }
  /-- Writing a message fails, after a part of it at most. -/
  | writeFails {s : State serde} {m : Message} {channel : Channel Message}
    (hrecv : s.channel.recv = some (m, channel)) {part : List UInt8}
    (hpart : part <+: (writeValue toVec s.encoding m.value).getD []) :
    Step s { s with channel := s.channel.close, output := s.output ++ part }
  | elsewhere {s : State serde} {daemon : DaemonState serde.File}
    (hmove : Move plainly s.daemon daemon) :
    Step s { s with daemon }

/-! ## The server that a client talks to -/

/-- A sequential server: it handles a request on the daemon as the requests before it, and whatever
else has happened, have left it. -/
inductive Serves (session : Session) (σ₀ : DaemonState serde.File) :
    List (Value × Value) → DaemonState serde.File → Prop
  | start : Serves session σ₀ [] σ₀
  | elsewhere {served : List (Value × Value)} {σ σ' : DaemonState serde.File}
    (h : Serves session σ₀ served σ) (hmove : Move plainly σ σ') : Serves session σ₀ served σ'
  | serve {served : List (Value × Value)} {σ : DaemonState serde.File}
    (h : Serves session σ₀ served σ) {env : CommandEnv} {request : Value}
    (he : plainly.Admits ⟨env, session, request⟩) :
    Serves session σ₀ (served ++ [(request, (dispatch env session request σ).1)])
      (dispatch env session request σ).2

/-- The requests that lie at the front of the input, and what is behind them. -/
inductive Requests (encoding : Encoding) (input : List UInt8) : List Value → List UInt8 → Prop
  | first {request : Value} {rest : List UInt8}
    (hread : readFirstPdu lim fromSlice input = .ok (some (request, encoding), rest)) :
    Requests encoding input [request] rest
  | next {requests : List Value} {s : List UInt8} (h : Requests encoding input requests s)
    {request : Value} {rest : List UInt8}
    (hread : readPdu lim fromSlice encoding s = .ok (some request, rest)) :
    Requests encoding input (requests ++ [request]) rest

end

variable {serde : Serde} {lim : AllocLimits} {fromSlice : List UInt8 → Option Json}
  {toVec : Value → Option (List UInt8)} {id : ℕ} {s s' : State serde}

/-! ## Requests -/

theorem plain_of_readBody {input rest : List UInt8} {v : Value}
    (h : readBody lim (Bser.readValue lim) input = .ok (v, rest)) : Plain v := by
  obtain ⟨⟨length, input'⟩, -, h⟩ := Fallible.bind_eq_ok.mp h
  obtain ⟨_, -, h⟩ := Fallible.bind_eq_ok.mp h
  obtain ⟨⟨payload, rest'⟩, -, h⟩ := Fallible.bind_eq_ok.mp h
  obtain ⟨⟨value, consumed⟩, hvalue, h⟩ := Fallible.bind_eq_ok.mp h
  obtain ⟨rfl, -⟩ := Prod.mk.inj (Except.ok.inj h)
  obtain ⟨_, -, hdecode⟩ := Fallible.bind_eq_ok.mp hvalue
  cases hpdu : Bser.decodePduWith (Bser.readValue lim) (reframe payload) with
  | error e =>
    rw [hpdu] at hdecode
    cases e <;> cases hdecode
  | ok result =>
    rw [hpdu] at hdecode
    obtain rfl := Except.ok.inj hdecode
    obtain ⟨header, len, size, -, -, -, -, hread⟩ := Bser.decodePdu_eq_ok hpdu
    exact plain_of_canonical (Bser.canonical_of_readValue hread)

theorem plain_of_readBserPdu {encoding : Encoding} {input rest : List UInt8} {v : Value}
    (h : readBserPdu lim (Bser.readValue lim) encoding input = .ok (some v, rest)) : Plain v := by
  unfold readBserPdu at h
  cases hfirst : readU8 input with
  | none =>
    rw [hfirst] at h
    cases h
  | some x =>
    obtain ⟨first, s⟩ := x
    rw [hfirst] at h
    dsimp only at h
    split_ifs at h
    obtain ⟨⟨version, s₁⟩, -, h⟩ := Fallible.bind_eq_ok.mp h
    obtain ⟨⟨actual, s₂⟩, -, h⟩ := Fallible.bind_eq_ok.mp h
    dsimp only at h
    split_ifs at h
    obtain ⟨⟨value, s₃⟩, hbody, h⟩ := Fallible.bind_eq_ok.mp h
    obtain ⟨hvalue, -⟩ := Prod.mk.inj (Except.ok.inj h)
    obtain rfl := Option.some.inj hvalue
    exact plain_of_readBody hbody

theorem plain_of_readPdu {encoding : Encoding} {input rest : List UInt8} {v : Value}
    (h : readPdu lim fromSlice encoding input = .ok (some v, rest)) : Plain v := by
  cases encoding with
  | json =>
    unfold readPdu readPduWith at h
    dsimp only at h
    split_ifs at h
    · cases h
    · obtain ⟨document, -, h⟩ := Fallible.bind_eq_ok.mp h
      obtain ⟨hvalue, -⟩ := Prod.mk.inj (Except.ok.inj h)
      obtain rfl := Option.some.inj hvalue
      exact plain_jsonToValue document
  | bserV1 | bserV2 => exact plain_of_readBserPdu h

theorem plain_of_readFirstPdu {encoding : Encoding} {input rest : List UInt8} {v : Value}
    (h : readFirstPdu lim fromSlice input = .ok (some (v, encoding), rest)) : Plain v := by
  unfold readFirstPdu readFirstPduWith at h
  cases hfirst : readU8 input with
  | none =>
    rw [hfirst] at h
    cases h
  | some x =>
    obtain ⟨first, s⟩ := x
    rw [hfirst] at h
    dsimp only at h
    split_ifs at h
    · obtain ⟨⟨second, s₁⟩, -, h⟩ := Fallible.bind_eq_ok.mp h
      obtain ⟨⟨actual, s₂⟩, -, h⟩ := Fallible.bind_eq_ok.mp h
      obtain ⟨⟨value, s₃⟩, hbody, h⟩ := Fallible.bind_eq_ok.mp h
      obtain ⟨hvalue, -⟩ := Prod.mk.inj (Except.ok.inj h)
      obtain ⟨rfl, -⟩ := Prod.mk.inj (Option.some.inj hvalue)
      exact plain_of_readBody hbody
    · obtain ⟨document, -, h⟩ := Fallible.bind_eq_ok.mp h
      obtain ⟨hvalue, -⟩ := Prod.mk.inj (Except.ok.inj h)
      obtain ⟨rfl, -⟩ := Prod.mk.inj (Option.some.inj hvalue)
      exact plain_jsonToValue document

theorem Requests.plain {encoding : Encoding} {input rest : List UInt8} {requests : List Value}
    (h : Requests lim fromSlice encoding input requests rest) : ∀ v ∈ requests, Plain v := by
  induction h with
  | first hread =>
    intro v hv
    rw [List.mem_singleton.mp hv]
    exact plain_of_readFirstPdu hread
  | next _ hread ih =>
    intro v hv
    rcases List.mem_append.mp hv with hv | hv
    · exact ih v hv
    · rw [List.mem_singleton.mp hv]
      exact plain_of_readPdu hread

theorem Step.encoding_eq (h : Step lim fromSlice toVec id s s') : s'.encoding = s.encoding := by
  cases h <;> rfl

theorem Step.requests {input : List UInt8} (h : Step lim fromSlice toVec id s s')
    (hs : Requests lim fromSlice s.encoding input (s.served.map Prod.fst ++ s.phase.request)
      s.input) :
    Requests lim fromSlice s'.encoding input (s'.served.map Prod.fst ++ s'.phase.request)
      s'.input := by
  cases h with
  | dispatch henv hphase =>
    rw [hphase] at hs
    simpa [Phase.request] using hs
  | read hphase hread =>
    rw [hphase, Phase.request, List.append_nil] at hs
    · exact hs.next hread
    · rintro _ ⟨⟩
  | send hphase | stop hphase | next hphase | eof hphase | refuse hphase | panic hphase =>
    rw [hphase] at hs
    exact hs
  | push | write | writeFails | elsewhere => exact hs

/-! ## Serving -/

theorem Serves.run {session : Session} {σ₀ σ : DaemonState serde.File}
    {served : List (Value × Value)} (h : Serves session σ₀ served σ) :
    Run (Move plainly) σ₀ σ := by
  induction h with
  | start => exact .refl
  | elsewhere _ hmove ih => exact ih.tail hmove
  | serve _ he ih => exact ih.tail (.command he _)

theorem Step.serves {input : List UInt8} {σ₀ : DaemonState serde.File}
    (h : Step lim fromSlice toVec id s s')
    (hrequests : Requests lim fromSlice s.encoding input
      (s.served.map Prod.fst ++ s.phase.request) s.input)
    (hs : Serves ⟨id, s.encoding⟩ σ₀ s.served s.daemon) :
    Serves ⟨id, s'.encoding⟩ σ₀ s'.served s'.daemon := by
  cases h with
  | @dispatch env henv _ request hphase =>
    have hmem : request ∈ s.served.map Prod.fst ++ s.phase.request := by
      rw [hphase]
      exact List.mem_append_right _ List.mem_cons_self
    exact hs.serve (admits_of_plain henv (hrequests.plain request hmem))
  | elsewhere hmove => exact hs.elsewhere hmove
  | send | stop | next | read | eof | refuse | panic | push | write | writeFails => exact hs

/-! ## Responses -/

/-- As long as the writer is there, all responses but one that is still to come were sent; later
they are the first of all responses. -/
def Answered (s : State serde) : Prop :=
  ∃ unsent, s.served.map Prod.snd = s.channel.sent.filterMap Message.answer ++ unsent ∧
    (s.channel.isOpen = true → unsent = s.phase.response)

theorem filterMap_sent_send {m : Message} (hm : m.answer = none) (c : Channel Message) :
    (c.send m).sent.filterMap Message.answer = c.sent.filterMap Message.answer := by
  cases hopen : c.isOpen with
  | true =>
    rw [Channel.sent_send hopen, List.filterMap_append]
    simp [hm]
  | false => rw [Channel.send_closed hopen]

theorem Step.answered (h : Step lim fromSlice toVec id s s') (hs : Answered s) : Answered s' := by
  obtain ⟨unsent, hserved, hunsent⟩ := hs
  cases h with
  | @dispatch env henv _ request hphase =>
    rw [hphase] at hunsent
    refine ⟨unsent ++ [(Dispatch.dispatch env ⟨id, s.encoding⟩ request s.daemon).1], ?_,
      fun hopen => ?_⟩
    · rw [List.map_append, hserved, List.append_assoc]
      rfl
    · rw [hunsent hopen]
      rfl
  | @send _ response hphase =>
    cases hopen : s.channel.isOpen with
    | true =>
      refine ⟨[], ?_, fun _ => rfl⟩
      rw [Channel.sent_send hopen, hserved, hunsent hopen, hphase]
      simp [Message.answer, Phase.response]
    | false =>
      refine ⟨unsent, ?_, fun h => ?_⟩
      · rw [Channel.send_closed hopen]
        exact hserved
      · rw [Channel.isOpen_send, hopen] at h
        cases h
  | stop hphase | next hphase | read hphase | eof hphase | panic hphase =>
    rw [hphase] at hunsent
    exact ⟨unsent, hserved, hunsent⟩
  | refuse hphase e =>
    rw [hphase] at hunsent
    refine ⟨unsent, ?_, fun hopen => hunsent (Channel.isOpen_send.symm.trans hopen)⟩
    rw [filterMap_sent_send rfl]
    exact hserved
  | push hv =>
    refine ⟨unsent, ?_, fun hopen => hunsent (Channel.isOpen_send.symm.trans hopen)⟩
    rw [filterMap_sent_send rfl]
    exact hserved
  | write hrecv hbytes =>
    refine ⟨unsent, ?_, fun _ => hunsent (Channel.isOpen_of_recv hrecv)⟩
    rw [Channel.sent_recv hrecv]
    exact hserved
  | writeFails => exact ⟨unsent, hserved, fun h => nomatch h⟩
  | elsewhere => exact ⟨unsent, hserved, hunsent⟩

/-! ## The output -/

/-- The output is what was taken out of the channel, and a part of one more message if the writer is
gone. -/
def Written (toVec : Value → Option (List UInt8)) (s : State serde) : Prop :=
  ∃ chunks part,
    List.Forall₂ (fun m bytes => writeValue toVec s.encoding m.value = some bytes)
      s.channel.received chunks ∧
    s.output = chunks.flatten ++ part ∧ (s.channel.isOpen = true → part = [])

theorem Step.written (h : Step lim fromSlice toVec id s s') (hs : Written toVec s) :
    Written toVec s' := by
  obtain ⟨chunks, part, hchunks, houtput, hpart⟩ := hs
  cases h with
  | @write _ m channel hrecv bytes hbytes =>
    have hnil : part = [] := hpart (Channel.isOpen_of_recv hrecv)
    obtain ⟨-, hreceived, -, -⟩ := Channel.of_recv hrecv
    refine ⟨chunks ++ [bytes], [], ?_, ?_, fun _ => rfl⟩
    · rw [hreceived]
      exact List.rel_append hchunks (.cons hbytes .nil)
    · rw [houtput, hnil]
      simp
  | @writeFails _ m channel hrecv failed hfailed =>
    have hnil : part = [] := hpart (Channel.isOpen_of_recv hrecv)
    refine ⟨chunks, failed, hchunks, ?_, fun h => nomatch h⟩
    rw [houtput, hnil, List.append_nil]
  | send | refuse | push =>
    refine ⟨chunks, part, ?_, houtput, fun hopen => hpart (Channel.isOpen_send.symm.trans hopen)⟩
    rw [Channel.received_send]
    exact hchunks
  | dispatch | stop | next | read | eof | panic | elsewhere =>
    exact ⟨chunks, part, hchunks, houtput, hpart⟩

/-! ## The end -/

theorem shuttingDown_of_step {a : Admitted} {σ σ' : DaemonState serde.File}
    (h : Dispatch.Step a σ σ') (hs : σ.shuttingDown = true) : σ'.shuttingDown = true := by
  cases h with
  | shutdown => rfl
  | _ => exact hs

/-- The loop ends with the writer, with the daemon, or where there is no further request. -/
def Ended (lim : AllocLimits) (fromSlice : List UInt8 → Option Json) (s : State serde) : Prop :=
  s.phase = .done → s.channel.isOpen = false ∨ s.daemon.shuttingDown = true ∨
    ∀ request rest, readPdu lim fromSlice s.encoding s.input ≠ .ok (some request, rest)

theorem Step.ended (h : Step lim fromSlice toVec id s s') (hs : Ended lim fromSlice s) :
    Ended lim fromSlice s' := by
  cases h with
  | dispatch | send | next | read => exact fun hphase => nomatch hphase
  | stop hphase hstop => exact fun _ => hstop.imp_right .inl
  | eof hphase hread | refuse hphase e hread | panic hphase hread =>
    refine fun _ => .inr (.inr fun request rest h => ?_)
    rw [hread] at h
    cases h
  | push => exact fun hphase => (hs hphase).imp_left Channel.isOpen_send.trans
  | write hrecv =>
    obtain ⟨-, -, -, hopen⟩ := Channel.of_recv hrecv
    exact fun hphase => (hs hphase).imp_left hopen.trans
  | writeFails => exact fun _ => .inl rfl
  | elsewhere hmove =>
    refine fun hphase => (hs hphase).imp_right fun h => h.imp_left ?_
    exact hmove.run.preserves fun _ _ hs hstep => shuttingDown_of_step hstep hs

/-! ## Runs -/

/-- What holds of a connection with this encoding and input in every state. -/
structure Inv (lim : AllocLimits) (fromSlice : List UInt8 → Option Json)
    (toVec : Value → Option (List UInt8)) (id : ℕ) (encoding : Encoding) (input : List UInt8)
    (σ₀ : DaemonState serde.File) (s : State serde) : Prop where
  encoding : s.encoding = encoding
  requests : Requests lim fromSlice s.encoding input (s.served.map Prod.fst ++ s.phase.request)
    s.input
  serves : Serves ⟨id, s.encoding⟩ σ₀ s.served s.daemon
  answered : Answered s
  written : Written toVec s
  ended : Ended lim fromSlice s

theorem accept_eq_some {σ₀ : DaemonState serde.File} {input : List UInt8} {s₀ : State serde}
    (h : accept lim fromSlice σ₀ input = some s₀) :
    ∃ request encoding rest,
      readFirstPdu lim fromSlice input = .ok (some (request, encoding), rest) ∧
      s₀ = ⟨σ₀, rest, encoding, .dispatching request, .empty, [], []⟩ := by
  unfold accept at h
  split at h
  · rename_i request encoding rest hread
    exact ⟨request, encoding, rest, hread, (Option.some.inj h).symm⟩
  · cases h

theorem inv_of_run {σ₀ : DaemonState serde.File} {input : List UInt8} {s₀ : State serde}
    (haccept : accept lim fromSlice σ₀ input = some s₀)
    (hrun : Run (Step lim fromSlice toVec id) s₀ s) :
    Inv lim fromSlice toVec id s₀.encoding input σ₀ s := by
  obtain ⟨request, encoding, rest, hread, rfl⟩ := accept_eq_some haccept
  refine hrun.preserves (fun s s' hs hstep => ?_) ?_
  · exact ⟨hstep.encoding_eq.trans hs.encoding, hstep.requests hs.requests,
      hstep.serves hs.requests hs.serves, hstep.answered hs.answered, hstep.written hs.written,
      hstep.ended hs.ended⟩
  · exact ⟨rfl, .first hread, .start, ⟨[], rfl, fun _ => rfl⟩, ⟨[], [], .nil, rfl, fun _ => rfl⟩,
      fun h => nomatch h⟩

section

variable {encoding : Encoding} {input : List UInt8} {σ₀ : DaemonState serde.File}

theorem Inv.responses (h : Inv lim fromSlice toVec id encoding input σ₀ s) :
    s.channel.received.filterMap Message.answer <+: s.served.map Prod.snd := by
  obtain ⟨unsent, hserved, -⟩ := h.answered
  rw [hserved]
  exact (Channel.filterMap_received _ _).trans (List.prefix_append _ _)

theorem Inv.all_responses (h : Inv lim fromSlice toVec id encoding input σ₀ s)
    (hopen : s.channel.isOpen = true) (hwaiting : s.channel.waiting = [])
    (hsent : s.phase.response = []) :
    s.channel.received.filterMap Message.answer = s.served.map Prod.snd := by
  obtain ⟨unsent, hserved, hunsent⟩ := h.answered
  rw [Channel.received_eq_sent hopen hwaiting, hserved, hunsent hopen, hsent, List.append_nil]

theorem Inv.no_request (h : Inv lim fromSlice toVec id encoding input σ₀ s)
    (hphase : s.phase = .done) (hopen : s.channel.isOpen = true)
    (hserving : s.daemon.shuttingDown = false) (request : Value) (rest : List UInt8) :
    readPdu lim fromSlice encoding s.input ≠ .ok (some request, rest) := by
  rcases h.ended hphase with hclosed | hdown | hend
  · rw [hopen] at hclosed
    cases hclosed
  · rw [hserving] at hdown
    cases hdown
  · rw [← h.encoding]
    exact hend request rest

end

/-! ## Two requests -/

theorem writeValue_bser {e : Encoding} (he : e ≠ .json) (v : Value) :
    writeValue toVec e v = some (pduBytes e v) := by
  have hencode := Bser.encodePdu_eq he v
  cases e with
  | json => exact absurd rfl he
  | bserV1 | bserV2 =>
    unfold writeValue
    dsimp only
    rw [hencode]
    rfl

theorem readPdu_nil {e : Encoding} (he : e ≠ .json) :
    readPdu lim fromSlice e [] = .ok (none, []) := by
  cases e with
  | json => exact absurd rfl he
  | bserV1 | bserV2 => rfl

theorem exists_run_serve (fromSlice : List UInt8 → Option Json)
    (toVec : Value → Option (List UInt8)) (id : ℕ) {env : CommandEnv}
    (henv : ∀ path, PlainEnv (env.query path)) {request : Value}
    (hphase : s.phase = .dispatching request) (hopen : s.channel.isOpen = true)
    (hwaiting : s.channel.waiting = []) (he : s.encoding ≠ .json) :
    ∃ s', Run (Step lim fromSlice toVec id) s s' ∧ s'.phase = .looping ∧ s'.input = s.input ∧
      s'.encoding = s.encoding ∧ s'.channel.isOpen = true ∧ s'.channel.waiting = [] ∧
      s'.daemon = (dispatch env ⟨id, s.encoding⟩ request s.daemon).2 := by
  obtain ⟨channel, hrecv, hopen', hwaiting'⟩ := s.channel.exists_recv_send
    (.response (dispatch env ⟨id, s.encoding⟩ request s.daemon).1) hopen hwaiting
  refine ⟨_, .tail (.tail (.single (.dispatch henv hphase)) (.send rfl))
    (.write hrecv (writeValue_bser he _)), rfl, rfl, rfl, hopen', hwaiting', rfl⟩

def getPid : Value := .array [.string "get-pid"]

def getSockname : Value := .array [.string "get-sockname"]

theorem sendable_getPid : Sendable .bits64 getPid where
  wellFormed := by
    constructor <;>
      simp [getPid, AllocLimits.bits64, Value.All, Value.KeysDistinct, Value.Allocatable]
  rectangular := by simp [getPid, Value.Rectangular, Value.All, Value.RowsFull]
  frame := by
    have hlen : (Bser.writeValue getPid).length < 100 := by decide
    exact hlen.le.trans (by decide)
  copy := by
    have hlen : (Bser.writeValue getPid).length < 100 := by decide
    exact (Nat.add_le_add_left hlen.le _).trans (by decide)

theorem sendable_getSockname : Sendable .bits64 getSockname where
  wellFormed := by
    constructor <;>
      simp [getSockname, AllocLimits.bits64, Value.All, Value.KeysDistinct, Value.Allocatable]
  rectangular := by simp [getSockname, Value.Rectangular, Value.All, Value.RowsFull]
  frame := by
    have hlen : (Bser.writeValue getSockname).length < 100 := by decide
    exact hlen.le.trans (by decide)
  copy := by
    have hlen : (Bser.writeValue getSockname).length < 100 := by decide
    exact (Nat.add_le_add_left hlen.le _).trans (by decide)

/-- A connection of two requests, from its first to its last step. -/
theorem exists_run_requests : ∃ s₀ s : State documents,
    accept .bits64 (fun _ => none) noRoots ([getPid, getSockname].flatMap (pduBytes .bserV2)) =
      some s₀ ∧
    Run (Step .bits64 (fun _ => none) (fun _ => none) 1) s₀ s ∧
    s.phase = .done ∧ s.channel.isOpen = true ∧ s.channel.waiting = [] ∧
    s.daemon.shuttingDown = false := by
  have henv : ∀ path, PlainEnv (twoDirectories.query path) := fun _ _ => plain_null
  let s₀ : State documents := ⟨noRoots, pduBytes .bserV2 getSockname, .bserV2, .dispatching getPid,
    .empty, [], []⟩
  have haccept : accept .bits64 (fun _ => none) noRoots
      ([getPid, getSockname].flatMap (pduBytes .bserV2)) = some s₀ := by
    have hread := readFirstPdu_pduBytes (fun _ => none) (e := .bserV2) (by decide) sendable_getPid
      (pduBytes .bserV2 getSockname)
    unfold accept
    rw [List.flatMap_cons, List.flatMap_singleton, hread]
    rfl
  obtain ⟨s₁, hrun₁, hphase₁, hinput₁, henc₁, hopen₁, hwaiting₁, hdaemon₁⟩ :=
    @exists_run_serve _ .bits64 s₀ (fun _ => none) (fun _ => none) 1 _ henv _ rfl rfl rfl
      (by decide)
  have hserving₁ : s₁.daemon.shuttingDown = false := by
    rw [hdaemon₁]
    rfl
  have hread : readPdu .bits64 (fun _ => none) s₁.encoding s₁.input =
      .ok (some getSockname, []) := by
    have hread :=
      readPdu_pduBytes (fun _ => none) (e := .bserV2) (by decide) sendable_getSockname []
    rw [List.append_nil] at hread
    rw [henc₁, hinput₁, hread]
    rfl
  obtain ⟨s₂, hrun₂, hphase₂, hinput₂, henc₂, hopen₂, hwaiting₂, hdaemon₂⟩ :=
    @exists_run_serve _ .bits64 { s₁ with phase := .dispatching getSockname, input := [] }
      (fun _ => none) (fun _ => none) 1 _ henv _ rfl hopen₁ hwaiting₁ (henc₁ ▸ by decide)
  have hserving₂ : s₂.daemon.shuttingDown = false := by
    rw [hdaemon₂]
    show (dispatch twoDirectories ⟨1, s₁.encoding⟩ getSockname s₁.daemon).2.shuttingDown = false
    rw [hdaemon₁]
    rfl
  have heof : readPdu .bits64 (fun _ => none) s₂.encoding s₂.input = .ok (none, []) := by
    rw [henc₂, hinput₂]
    exact readPdu_nil (henc₁ ▸ by decide)
  refine ⟨s₀, { s₂ with phase := .done }, haccept, ?_, rfl, hopen₂, hwaiting₂, hserving₂⟩
  have hfirst := (hrun₁.tail (.next hphase₁ hopen₁ hserving₁)).tail (.read rfl hread)
  exact ((hfirst.trans hrun₂).tail (.next hphase₂ hopen₂ hserving₂)).tail (.eof rfl heof)

/-! ## What a connection does -/

/-- **A connection serves.** In every run, the handlers have done what a sequential server does with
the requests that were read, which are those of the input, one after the other. What was written is
the messages taken out of the channel, whole, and a part of one more if writing has failed; the
responses among them are the first of the server's responses, and all of them once nothing is on its
way to a writer that is still there. The connection does not end before its input, except with the
writer or the daemon. -/
theorem connection_serves {σ₀ : DaemonState serde.File} {input : List UInt8} {s₀ s : State serde}
    (haccept : accept lim fromSlice σ₀ input = some s₀)
    (hrun : Run (Step lim fromSlice toVec id) s₀ s) :
    Serves ⟨id, s₀.encoding⟩ σ₀ s.served s.daemon ∧
    Requests lim fromSlice s₀.encoding input (s.served.map Prod.fst ++ s.phase.request) s.input ∧
    (∃ chunks part,
      List.Forall₂ (fun m bytes => writeValue toVec s₀.encoding m.value = some bytes)
        s.channel.received chunks ∧
      s.output = chunks.flatten ++ part ∧ (s.channel.isOpen = true → part = [])) ∧
    s.channel.received.filterMap Message.answer <+: s.served.map Prod.snd ∧
    (s.channel.isOpen = true → s.channel.waiting = [] → s.phase.response = [] →
      s.channel.received.filterMap Message.answer = s.served.map Prod.snd) ∧
    (s.phase = .done → s.channel.isOpen = true → s.daemon.shuttingDown = false →
      ∀ request rest, readPdu lim fromSlice s₀.encoding s.input ≠ .ok (some request, rest)) := by
  have hinv := inv_of_run haccept hrun
  have hrequests := hinv.requests
  have hserves := hinv.serves
  have hwritten := hinv.written
  unfold Written at hwritten
  rw [hinv.encoding] at hrequests hserves hwritten
  exact ⟨hserves, hrequests, hwritten, hinv.responses, hinv.all_responses, hinv.no_request⟩

/-- Both responses are written. -/
theorem connection_serves_requests :
    ∃ s₀ s : State documents,
      accept .bits64 (fun _ => none) noRoots ([getPid, getSockname].flatMap (pduBytes .bserV2)) =
        some s₀ ∧
      Run (Step .bits64 (fun _ => none) (fun _ => none) 1) s₀ s ∧ s.phase = .done ∧
      Serves ⟨1, s₀.encoding⟩ noRoots s.served s.daemon ∧
      s.channel.received.filterMap Message.answer = s.served.map Prod.snd := by
  obtain ⟨s₀, s, haccept, hrun, hphase, hopen, hwaiting, -⟩ := exists_run_requests
  obtain ⟨hserves, -, -, -, hall, -⟩ := connection_serves haccept hrun
  have hresponse : s.phase.response = [] := by
    rw [hphase]
    rfl
  exact ⟨s₀, s, haccept, hrun, hphase, hserves, hall hopen hwaiting hresponse⟩

end Watchwoman.Connection
