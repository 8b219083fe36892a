import Watchwoman.Daemon.Server
import Watchwoman.Protocol.BserRoundTrip

/-!
# A BSER session

A client writes one PDU after the other and closes. The server frames the stream by itself: magic,
capability bytes, a length field of one of four widths, and a payload that it puts behind a header
of its own for `decode_pdu`. Each read takes the bytes of one PDU and leaves the stream at the next.
-/

namespace Watchwoman.Server

open Bser Fallible LittleEndian

/-- What `n` calls of `read_pdu`, one after the other, return. -/
def readPdus (lim : AllocLimits) (fromSlice : List UInt8 → Option Json) (encoding : Encoding) :
    ℕ → List UInt8 → Reply (List (Option Value))
  | 0, _ => .ok []
  | n + 1, s => do
    let (v, s) ← readPdu lim fromSlice encoding s
    let vs ← readPdus lim fromSlice encoding n s
    return v :: vs

/-- What a client can send: an object's keys are distinct, the rows of a template are full, and the
collections, the frame and its copy behind a header can be allocated. -/
structure Sendable (lim : AllocLimits) (v : Value) : Prop where
  wellFormed : v.WellFormed lim
  rectangular : v.Rectangular
  frame : (writeValue v).length ≤ lim.frame
  copy : 2 + 9 + (writeValue v).length ≤ lim.copy

def pduBytes (e : Encoding) (v : Value) : List UInt8 :=
  header e ++ (writeInt (asI64 (writeValue v).length) ++ writeValue v)

/-! ## One PDU -/

/-- `read_bser_int` takes from the stream what `read_int` finds at its front. -/
theorem readBserInt_of_readInt {s : List UInt8} {n : ℤ} {c : ℕ} (h : readInt s = .ok (n, c)) :
    readBserInt s = .ok (n, s.drop c) := by
  cases s with
  | nil => simp [readInt] at h
  | cons tag s =>
    cases hw : intWidth tag with
    | none =>
      simp only [readInt, hw] at h
      simp at h
    | some w =>
      simp only [readInt, hw] at h
      obtain herr | ⟨hlen, hok⟩ := readIntField_cases (tag :: s) w
      · rw [herr] at h
        simp at h
      · rw [hok] at h
        obtain ⟨rfl, rfl⟩ := Prod.mk.inj (Except.ok.inj h)
        have hraw : readExact w s = some (s.take w, s.drop w) := by
          rw [List.length_cons] at hlen
          exact if_neg (by omega)
        unfold readBserInt
        simp only [readU8, okOr, ok_bind, hw, hraw]
        rw [Nat.add_comm 1 w]
        rfl

theorem readExact_append (a r : List UInt8) : readExact a.length (a ++ r) = some (a, r) := by
  unfold readExact
  rw [if_neg (by simp), List.take_left, List.drop_left]

/-- The payload behind the header of version 1 decodes to the value. -/
theorem bserDecodeValue_writeValue {lim : AllocLimits} {v : Value} (h : Sendable lim v) :
    ∃ consumed, bserDecodeValue lim (readValue lim) (writeValue v) = .ok (norm v, consumed) := by
  have hcopy := h.copy
  have hlimit := lim.copy_lt
  have hint := length_writeInt_le (asI64 (writeValue v).length)
  obtain ⟨bytes, henc, hdec⟩ := decodePdu_encodePdu lim v h.wellFormed h.rectangular
    (show (writeValue v).length < 2 ^ 63 by omega) .bserV1 (by decide)
  have hbytes : reframe (writeValue v) = bytes := by
    rw [encodePdu_eq (by decide)] at henc
    exact Except.ok.inj henc
  have hlen : (reframe (writeValue v)).length ≤ lim.copy := by
    have hmagic : magicV1.length = 2 := rfl
    rw [reframe, List.length_append, List.length_append]
    omega
  refine ⟨bytes.length, ?_⟩
  have hdec := hdec []
  rw [List.append_nil] at hdec
  unfold decodePdu at hdec
  unfold bserDecodeValue
  rw [withCapacity_of_le hlen, ok_bind, hbytes, hdec]
  rfl

/-- The four steps behind the version. They are chained by `bind_eq_ok`, which never unfolds the
capacity check. -/
theorem readBody_of_reads {lim : AllocLimits} {read : List UInt8 → Result (Value × ℕ)}
    {s s' r payload : List UInt8} {length : ℤ}
    {v : Value} {consumed : ℕ} (hint : readBserInt s = .ok (length, s'))
    (hzeroed : (zeroed lim (asUsize length) : Reply Unit) = .ok ())
    (hexact : readExact (asUsize length) s' = some (payload, r))
    (hdecode : bserDecodeValue lim read payload = .ok (v, consumed)) :
    readBody lim read s = .ok (v, r) := by
  have hpayload : okOr ServerError.unexpectedEof (readExact (asUsize length) s') =
      .ok (payload, r) := by
    rw [hexact]
    rfl
  exact bind_eq_ok.mpr ⟨_, hint, bind_eq_ok.mpr ⟨_, hzeroed, bind_eq_ok.mpr ⟨_, hpayload,
    bind_eq_ok.mpr ⟨_, hdecode, rfl⟩⟩⟩⟩

theorem readBody_writeValue {lim : AllocLimits} {v : Value} (h : Sendable lim v)
    (r : List UInt8) :
    readBody lim (readValue lim)
      (writeInt (asI64 (writeValue v).length) ++ (writeValue v ++ r)) = .ok (norm v, r) := by
  have hlen : (writeValue v).length < 2 ^ 63 := lt_of_le_of_lt h.frame lim.frame_lt
  have hread := readBserInt_of_readInt (readInt_writeInt_asI64 hlen (writeValue v ++ r))
  rw [List.drop_left] at hread
  obtain ⟨consumed, hdecode⟩ := bserDecodeValue_writeValue h
  have husize : asUsize ((writeValue v).length : ℤ) = (writeValue v).length :=
    asUsize_natCast (by omega)
  refine readBody_of_reads hread ?_ ?_ hdecode
  · rw [husize]
    exact withCapacity_of_le h.frame
  · rw [husize]
    exact readExact_append _ _

theorem readEncoding_header {e : Encoding} (he : e ≠ .json) (unknown : UInt8 → ServerError)
    (r : List UInt8) : ∃ version s, header e ++ r = 0x00 :: version :: s ∧
      readEncoding unknown version s = .ok (e, r) := by
  cases e with
  | json => exact absurd rfl he
  | bserV1 => exact ⟨0x01, r, rfl, rfl⟩
  | bserV2 =>
    refine ⟨0x02, leBytes 4 0 ++ r, rfl, ?_⟩
    have hcaps := readExact_append (leBytes 4 0) r
    rw [length_leBytes] at hcaps
    unfold readEncoding
    rw [if_neg (by decide), if_pos rfl, hcaps]
    rfl

section

variable {lim : AllocLimits} {v : Value} {e : Encoding} (fromSlice : List UInt8 → Option Json)

theorem readFirstPdu_pduBytes (he : e ≠ .json) (h : Sendable lim v) (r : List UInt8) :
    readFirstPdu lim fromSlice (pduBytes e v ++ r) = .ok (some (norm v, e), r) := by
  obtain ⟨version, s, hhead, henc⟩ := readEncoding_header he .unknownVersionByte
    (writeInt (asI64 (writeValue v).length) ++ (writeValue v ++ r))
  have hbody := readBody_writeValue h r
  rw [pduBytes, List.append_assoc, List.append_assoc, hhead]
  exact bind_eq_ok.mpr ⟨(version, s), rfl, bind_eq_ok.mpr ⟨_, henc, bind_eq_ok.mpr ⟨_, hbody, rfl⟩⟩⟩

theorem readPdu_pduBytes (he : e ≠ .json) (h : Sendable lim v) (r : List UInt8) :
    readPdu lim fromSlice e (pduBytes e v ++ r) = .ok (some (norm v), r) := by
  obtain ⟨version, s, hhead, henc⟩ := readEncoding_header he .unknownVersion
    (writeInt (asI64 (writeValue v).length) ++ (writeValue v ++ r))
  have hbser : readPdu lim fromSlice e (pduBytes e v ++ r) =
      readBserPdu lim (readValue lim) e (pduBytes e v ++ r) := by
    cases e with
    | json => exact absurd rfl he
    | bserV1 => rfl
    | bserV2 => rfl
  have hbody := readBody_writeValue h r
  have hread : (if e = e then readBody lim (readValue lim)
      (writeInt (asI64 (writeValue v).length) ++ (writeValue v ++ r)) >>= fun x =>
        return (some x.1, x.2)
      else .error (.error .switchedVersion) : Reply (Option Value × List UInt8)) =
      .ok (some (norm v), r) := by
    rw [if_pos rfl]
    exact bind_eq_ok.mpr ⟨_, hbody, rfl⟩
  rw [hbser, pduBytes, List.append_assoc, List.append_assoc, hhead]
  exact bind_eq_ok.mpr ⟨(version, s), rfl, bind_eq_ok.mpr ⟨_, henc, hread⟩⟩

theorem readPdus_nil (he : e ≠ .json) (k : ℕ) :
    readPdus lim fromSlice e k [] = .ok (List.replicate k none) := by
  induction k with
  | zero => rfl
  | succ k ih =>
    have hnone : readPdu lim fromSlice e [] = .ok (none, []) := by
      cases e with
      | json => exact absurd rfl he
      | bserV1 => rfl
      | bserV2 => rfl
    rw [readPdus, hnone, ok_bind]
    simp only [ih, ok_bind]
    rfl

theorem readPdus_flatMap (he : e ≠ .json) (vs : List Value) (h : ∀ v ∈ vs, Sendable lim v)
    (k : ℕ) :
    readPdus lim fromSlice e (vs.length + k) (vs.flatMap (pduBytes e)) =
      .ok (vs.map (fun v => some (norm v)) ++ List.replicate k none) := by
  induction vs with
  | nil =>
    rw [List.length_nil, Nat.zero_add]
    exact readPdus_nil fromSlice he k
  | cons v vs ih =>
    obtain ⟨hv, hvs⟩ := List.forall_mem_cons.mp h
    rw [List.length_cons, Nat.add_right_comm, List.flatMap_cons, readPdus,
      readPdu_pduBytes fromSlice he hv, ok_bind]
    simp only [ih hvs, ok_bind]
    rfl

end

/-! ## The session -/

theorem mapM_encodePdu {e : Encoding} (he : e ≠ .json) (vs : List Value) :
    vs.mapM (fun v => encodePdu v e) = .ok (vs.map (pduBytes e)) := by
  induction vs with
  | nil => rfl
  | cons v vs ih =>
    rw [List.mapM_cons, encodePdu_eq he, ok_bind, ih]
    rfl

/-- **A session delivers what was sent.** The client writes the encoded values one after the other
and closes. `read_first_pdu` returns the first value and the encoding, and the calls of `read_pdu`
that follow return the others in order and then none; each read leaves the stream at the start of
the next PDU. -/
theorem session_delivers (lim : AllocLimits) (fromSlice : List UInt8 → Option Json) (e : Encoding)
    (he : e ≠ .json) (vs : List Value) (h : ∀ v ∈ vs, Sendable lim v) :
    ∃ pdus, vs.mapM (fun v => encodePdu v e) = .ok pdus ∧
      (vs = [] → readFirstPdu lim fromSlice pdus.flatten = .ok (none, [])) ∧
      (∀ v ws, vs = v :: ws →
        readFirstPdu lim fromSlice pdus.flatten = .ok (some (norm v, e), pdus.tail.flatten) ∧
        ∀ k, readPdus lim fromSlice e (ws.length + k) pdus.tail.flatten =
          .ok (ws.map (fun w => some (norm w)) ++ List.replicate k none)) ∧
      (∀ before w after, vs = before ++ w :: after →
        readPdu lim fromSlice e (pdus.drop before.length).flatten =
          .ok (some (norm w), (pdus.drop (before.length + 1)).flatten)) := by
  refine ⟨_, mapM_encodePdu he vs, ?_, ?_, ?_⟩
  · rintro rfl
    rfl
  · rintro v ws rfl
    obtain ⟨hv, hws⟩ := List.forall_mem_cons.mp h
    rw [List.map_cons, List.flatten_cons, List.tail_cons, ← List.flatMap_def]
    exact ⟨readFirstPdu_pduBytes fromSlice he hv _, readPdus_flatMap fromSlice he ws hws⟩
  · rintro before w after rfl
    have hw : Sendable lim w := h w (List.mem_append_right _ List.mem_cons_self)
    have hdrop : ((before ++ w :: after).map (pduBytes e)).drop before.length =
        pduBytes e w :: after.map (pduBytes e) := by
      rw [List.map_append, List.drop_left' (List.length_map _)]
      rfl
    rw [← List.drop_drop, hdrop, List.flatten_cons]
    exact readPdu_pduBytes fromSlice he hw _

theorem sendable_sample : Sendable .bits64 sample where
  wellFormed := by
    constructor <;>
      simp [sample, AllocLimits.bits64, Value.All, Value.AllRows, Value.AllItems,
        Value.KeysDistinct, Value.Allocatable]
  rectangular := by
    simp [sample, Value.Rectangular, Value.All, Value.AllRows, Value.AllItems, Value.RowsFull]
  frame := by
    have hlen : (writeValue sample).length < 100 := by decide
    exact hlen.le.trans (by decide)
  copy := by
    have hlen : (writeValue sample).length < 100 := by decide
    exact (Nat.add_le_add_left hlen.le _).trans (by decide)

/-- Two pipelined requests of version 2. -/
theorem session_delivers_two :
    ∃ pdus, [sample, sample].mapM (fun v => encodePdu v .bserV2) = .ok pdus ∧
      readFirstPdu .bits64 (fun _ => none) pdus.flatten =
        .ok (some (norm sample, .bserV2), pdus.tail.flatten) ∧
      readPdus .bits64 (fun _ => none) .bserV2 2 pdus.tail.flatten = .ok [some (norm sample), none] := by
  obtain ⟨pdus, henc, -, hreads, -⟩ := session_delivers .bits64 (fun _ => none) .bserV2 (by decide)
    [sample, sample] (List.forall_mem_cons.mpr ⟨sendable_sample, by simpa using sendable_sample⟩)
  obtain ⟨hfirst, hrest⟩ := hreads sample [sample] rfl
  exact ⟨pdus, henc, hfirst, hrest 1⟩

end Watchwoman.Server
