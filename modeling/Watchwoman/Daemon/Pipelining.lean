import Watchwoman.Daemon.Connection

/-!
# A pipelining client

A client writes all its BSER requests at once and then listens. The frames keep the requests apart,
the connection serves them one after the other, and what the daemon sends is plain, so the client
decodes the very values that were sent, with the answers to its requests in order
(`pipelined_requests_answered`). As for any connection, runs are of whole commands.
-/

namespace Watchwoman.Connection

open Transition Server Dispatch Persistence

variable {serde : Serde} {lim : AllocLimits} {fromSlice : List UInt8 → Option Json}
  {toVec : Value → Option (List UInt8)} {id : ℕ} {s s' : State serde}

/-! ## What the client decodes -/

/-- What a client decodes from the front of what it has received. -/
def decodePdus (lim : AllocLimits) : ℕ → List UInt8 → Bser.Result (List Value)
  | 0, _ => .ok []
  | n + 1, buf => do
    let (v, used) ← Bser.decodePdu lim buf
    let vs ← decodePdus lim n (buf.drop used)
    return v :: vs

theorem decodePdus_flatMap {e : Encoding} {vs : List Value} (hplain : ∀ v ∈ vs, Plain v)
    (hfits : ∀ v ∈ vs, v.All (Value.Allocatable lim) ∧ Bser.Encodable v) (he : e ≠ .json)
    (rest : List UInt8) :
    decodePdus lim vs.length (vs.flatMap (pduBytes e) ++ rest) = .ok vs := by
  induction vs with
  | nil => rfl
  | cons v vs ih =>
    obtain ⟨hv, hplain⟩ := List.forall_mem_cons.mp hplain
    obtain ⟨⟨hallocated, hencodable⟩, hfits⟩ := List.forall_mem_cons.mp hfits
    obtain ⟨bytes, hbytes, hdecode⟩ := decodePdu_of_plain hv hallocated hencodable he
    obtain rfl : pduBytes e v = bytes := Except.ok.inj ((Bser.encodePdu_eq he v).symm.trans hbytes)
    rw [List.length_cons, List.flatMap_cons, List.append_assoc, decodePdus, hdecode,
      Fallible.ok_bind]
    simp only [List.drop_left, ih hplain hfits, Fallible.ok_bind]
    rfl

/-! ## What the daemon reads -/

theorem readPdu_flatMap {e : Encoding} (he : e ≠ .json) {vs : List Value}
    (hsend : ∀ v ∈ vs, Sendable lim v) {request : Value} {rest : List UInt8}
    (h : readPdu lim fromSlice e (vs.flatMap (pduBytes e)) = .ok (some request, rest)) :
    ∃ v ws, vs = v :: ws ∧ request = Bser.norm v ∧ rest = ws.flatMap (pduBytes e) := by
  cases vs with
  | nil =>
    rw [List.flatMap_nil, readPdu_nil he] at h
    cases h
  | cons v ws =>
    rw [List.flatMap_cons, readPdu_pduBytes fromSlice he (hsend v List.mem_cons_self)] at h
    obtain ⟨hrequest, hrest⟩ := Prod.mk.inj (Except.ok.inj h)
    exact ⟨v, ws, rfl, (Option.some.inj hrequest).symm, hrest.symm⟩

/-- What is read of pipelined requests are the first of them. -/
theorem Requests.pipelined {e : Encoding} (he : e ≠ .json) {vs : List Value}
    (hsend : ∀ v ∈ vs, Sendable lim v) {requests : List Value} {rest : List UInt8}
    (h : Requests lim fromSlice e (vs.flatMap (pduBytes e)) requests rest) :
    ∃ read left, vs = read ++ left ∧ requests = read.map Bser.norm ∧
      rest = left.flatMap (pduBytes e) := by
  induction h with
  | @first request rest hread =>
    cases vs with
    | nil => cases hread
    | cons v ws =>
      rw [List.flatMap_cons, readFirstPdu_pduBytes fromSlice he (hsend v List.mem_cons_self)]
        at hread
      obtain ⟨hrequest, hrest⟩ := Prod.mk.inj (Except.ok.inj hread)
      obtain ⟨rfl, -⟩ := Prod.mk.inj (Option.some.inj hrequest)
      exact ⟨[v], ws, rfl, rfl, hrest.symm⟩
  | next _ hread ih =>
    obtain ⟨read, left, rfl, rfl, rfl⟩ := ih
    obtain ⟨v, ws, rfl, rfl, rfl⟩ :=
      readPdu_flatMap he (fun v hv => hsend v (List.mem_append_right _ hv)) hread
    exact ⟨read ++ [v], ws, by simp, by simp, rfl⟩

/-! ## What the daemon sends -/

/-- What was sent, and what is still to be sent, is plain. -/
def PlainlySent (s : State serde) : Prop :=
  (∀ m ∈ s.channel.sent, Plain m.value) ∧ ∀ v ∈ s.phase.response, Plain v

theorem plain_sent_send {c : Channel Message} {m : Message} (hc : ∀ m ∈ c.sent, Plain m.value)
    (hm : Plain m.value) : ∀ m' ∈ (c.send m).sent, Plain m'.value := by
  intro m' hm'
  rcases Channel.mem_sent_send hm' with hmem | rfl
  · exact hc m' hmem
  · exact hm

theorem Step.plainlySent (h : Step lim fromSlice toVec id s s')
    (hrequests : ∀ v ∈ s.phase.request, Plain v) (hσ : Consistent plainly s.daemon)
    (hs : PlainlySent s) : PlainlySent s' := by
  obtain ⟨hsent, hresponse⟩ := hs
  cases h with
  | @dispatch env henv _ request hphase =>
    have hrequest : Plain request := hrequests request (by rw [hphase]; exact List.mem_cons_self)
    refine ⟨hsent, List.forall_mem_singleton.mpr ?_⟩
    exact plain_dispatch (e := ⟨env, ⟨id, s.encoding⟩, request⟩) (admits_of_plain henv hrequest) hσ
  | @send _ response hphase =>
    rw [hphase] at hresponse
    exact ⟨plain_sent_send hsent (hresponse response List.mem_cons_self),
      fun v hv => absurd hv List.not_mem_nil⟩
  | refuse hphase e =>
    exact ⟨plain_sent_send hsent (plain_singleton "error" (plain_string _)),
      fun v hv => absurd hv List.not_mem_nil⟩
  | push hv =>
    obtain ⟨name, path, env, spec, r, henv, hmem⟩ := hv
    exact ⟨plain_sent_send hsent (plain_messages name path (plain_files henv spec r) _ hmem),
      hresponse⟩
  | write hrecv =>
    refine ⟨fun m hm => hsent m ?_, hresponse⟩
    rwa [← Channel.sent_recv hrecv]
  | writeFails | elsewhere => exact ⟨hsent, hresponse⟩
  | stop hphase | next hphase | read hphase | eof hphase | panic hphase =>
    exact ⟨hsent, fun v hv => absurd hv List.not_mem_nil⟩

theorem flatten_chunks {e : Encoding} (he : e ≠ .json) {messages : List Message}
    {chunks : List (List UInt8)}
    (h : List.Forall₂ (fun m bytes => writeValue toVec e m.value = some bytes) messages chunks) :
    chunks.flatten = (messages.map Message.value).flatMap (pduBytes e) := by
  induction h with
  | nil => rfl
  | @cons m bytes messages chunks hm _ ih =>
    obtain rfl : pduBytes e m.value = bytes :=
      Option.some.inj ((writeValue_bser he _).symm.trans hm)
    rw [List.flatten_cons, ih, List.map_cons, List.flatMap_cons]

theorem plainlySent_of_run {σ₀ : DaemonState serde.File} {input : List UInt8} {s₀ : State serde}
    (haccept : accept lim fromSlice σ₀ input = some s₀)
    (hconsistent : ∀ σ, Run (Move plainly) σ₀ σ → Consistent plainly σ)
    (hrun : Run (Step lim fromSlice toVec id) s₀ s) : PlainlySent s := by
  induction hrun with
  | refl =>
    obtain ⟨request, encoding, rest, -, rfl⟩ := accept_eq_some haccept
    exact ⟨fun m hm => absurd hm List.not_mem_nil, fun v hv => absurd hv List.not_mem_nil⟩
  | tail hrun hstep ih =>
    have hinv := inv_of_run haccept hrun
    exact hstep.plainlySent (fun v hv => hinv.requests.plain v (List.mem_append_right _ hv))
      (hconsistent _ hinv.serves.run) ih

/-! ## The whole exchange -/

theorem exists_accept (fromSlice : List UInt8 → Option Json) (σ₀ : DaemonState serde.File)
    {e : Encoding} (he : e ≠ .json) {vs : List Value} (hvs : vs ≠ [])
    (hsend : ∀ v ∈ vs, Sendable lim v) :
    ∃ s₀, accept lim fromSlice σ₀ (vs.flatMap (pduBytes e)) = some s₀ ∧ s₀.encoding = e := by
  obtain ⟨v, ws, rfl⟩ := List.exists_cons_of_ne_nil hvs
  refine ⟨⟨σ₀, ws.flatMap (pduBytes e), e, .dispatching (Bser.norm v), .empty, [], []⟩, ?_, rfl⟩
  unfold accept
  rw [List.flatMap_cons, readFirstPdu_pduBytes fromSlice he (hsend v List.mem_cons_self)]

/-- **A pipelining client.** A client writes BSER requests one after the other, to a daemon that has
done anything before, and listens. The handlers get its requests in order, each once, on the daemon
as it is by then. What comes back decodes to the messages that were written, among which are the
responses to the first requests, in their order; and unless the client stops listening or the daemon
is shut down, all requests are handled and answered. -/
theorem pipelined_requests_answered {σ σ₀ : DaemonState serde.File}
    (hstart : σ.roots = ∅ ∧ σ.reapLog = []) (hbefore : Run (Move plainly) σ σ₀) {e : Encoding}
    (he : e ≠ .json) {vs : List Value} (hvs : vs ≠ []) (hsend : ∀ v ∈ vs, Sendable lim v)
    {pdus : List (List UInt8)} (hpdus : vs.mapM (fun v => Bser.encodePdu v e) = .ok pdus) :
    ∃ s₀, accept lim fromSlice σ₀ pdus.flatten = some s₀ ∧
      ∀ s, Run (Step lim fromSlice toVec id) s₀ s →
        Serves ⟨id, e⟩ σ₀ s.served s.daemon ∧
        s.served.map Prod.fst <+: vs.map Bser.norm ∧
        s.channel.received.filterMap Message.answer <+: s.served.map Prod.snd ∧
        ((∀ m ∈ s.channel.received, m.value.All (Value.Allocatable lim) ∧ Bser.Encodable m.value) →
          decodePdus lim s.channel.received.length s.output =
            .ok (s.channel.received.map Message.value)) ∧
        (s.phase = .done → s.channel.isOpen = true → s.channel.waiting = [] →
          s.daemon.shuttingDown = false →
          s.served.map Prod.fst = vs.map Bser.norm ∧
          s.channel.received.filterMap Message.answer = s.served.map Prod.snd) := by
  obtain rfl : vs.map (pduBytes e) = pdus := Except.ok.inj ((mapM_encodePdu he vs).symm.trans hpdus)
  rw [← List.flatMap_def]
  obtain ⟨s₀, haccept, hencoding⟩ := exists_accept fromSlice σ₀ he hvs hsend
  refine ⟨s₀, haccept, fun s hrun => ?_⟩
  have hinv := inv_of_run haccept hrun
  rw [hencoding] at hinv
  have hrequests := hinv.requests
  have hserves := hinv.serves
  rw [hinv.encoding] at hrequests hserves
  obtain ⟨read, left, rfl, hread, hleft⟩ := hrequests.pipelined he hsend
  refine ⟨hserves, ?_, hinv.responses, fun hfits => ?_, fun hphase hopen hwaiting hserving => ?_⟩
  · rw [List.map_append, ← hread, List.append_assoc]
    exact List.prefix_append _ _
  · obtain ⟨chunks, part, hchunks, houtput, -⟩ := hinv.written
    have hplain := plainlySent_of_run haccept (fun σ' hmoves => consistent_of_run stored_plainly
      hstart (filesAdmitted_plainly σ) (hbefore.trans hmoves)) hrun
    rw [hinv.encoding] at hchunks
    have hdecode := @decodePdus_flatMap lim e (s.channel.received.map Message.value)
      (List.forall_mem_map.mpr fun m hm => hplain.1 m (List.mem_append_left _ hm))
      (List.forall_mem_map.mpr hfits) he part
    rwa [List.length_map, ← flatten_chunks he hchunks, ← houtput] at hdecode
  · have hnone : left = [] := by
      cases left with
      | nil => rfl
      | cons w left =>
        have hw := hsend w (List.mem_append_right _ List.mem_cons_self)
        have hnext := readPdu_pduBytes fromSlice he hw (left.flatMap (pduBytes e))
        rw [List.flatMap_cons] at hleft
        rw [← hleft] at hnext
        exact absurd hnext (hinv.no_request hphase hopen hserving _ _)
    have hresponse : s.phase.response = [] := by
      rw [hphase]
      rfl
    have hrequest : s.phase.request = [] := by
      rw [hphase]
      rfl
    rw [hrequest, List.append_nil] at hread
    rw [hread, hnone, List.append_nil]
    exact ⟨rfl, hinv.all_responses hopen hwaiting hresponse⟩


theorem pipelined_requests_answered_two :
    ∃ s₀ s : State documents,
      accept .bits64 (fun _ => none) noRoots ([getPid, getSockname].flatMap (pduBytes .bserV2)) =
        some s₀ ∧
      Run (Step .bits64 (fun _ => none) (fun _ => none) 1) s₀ s ∧
      s.served.map Prod.fst = [getPid, getSockname] ∧
      s.channel.received.filterMap Message.answer = s.served.map Prod.snd := by
  obtain ⟨s₀, s, haccept, hrun, hphase, hopen, hwaiting, hserving⟩ := exists_run_requests
  have hsend : ∀ v ∈ [getPid, getSockname], Sendable .bits64 v :=
    List.forall_mem_cons.mpr ⟨sendable_getPid, List.forall_mem_singleton.mpr sendable_getSockname⟩
  obtain ⟨s₀', haccept', hall⟩ := @pipelined_requests_answered documents .bits64
    (fun _ => none) (fun _ => none) 1 noRoots noRoots ⟨rfl, rfl⟩ .refl .bserV2 (by decide) _
    (List.cons_ne_nil _ _) hsend _ (mapM_encodePdu (by decide) _)
  rw [← List.flatMap_def, haccept] at haccept'
  obtain rfl := Option.some.inj haccept'
  obtain ⟨-, -, -, -, hdone⟩ := hall s hrun
  obtain ⟨hserved, hanswered⟩ := hdone hphase hopen hwaiting hserving
  exact ⟨s₀, s, haccept, hrun, hserved, hanswered⟩

end Watchwoman.Connection
