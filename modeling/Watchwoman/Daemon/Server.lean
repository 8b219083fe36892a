import Watchwoman.Protocol.BserSafety

/-!
# The readers of a connection

`server.rs` reads the first PDU of a connection to learn its encoding, then one PDU after the
other. A connection is the list of the bytes the peer sends before it closes; `serde_json` is the
parameter `fromSlice`, which returns a document or refuses the line.

A BSER payload is copied behind a version 1 header and handed to `decode_pdu`, so the readers panic
on what `decode_pdu` panics on, and on a frame whose buffer or whose copy cannot be allocated
(`readers_survive_iff`).
-/

namespace Watchwoman.Server

open Bser Fallible LittleEndian

/-! ## JSON documents -/

/-- `serde_json::Number` -/
inductive JsonNumber where
  | posInt (u : UInt64)
  | negInt (i : Int64)
  | float (bits : UInt64)

/-- `serde_json::Value` -/
inductive Json where
  | null
  | bool (b : Bool)
  | number (n : JsonNumber)
  | string (s : String)
  | array (a : List Json)
  | object (o : List (String × Json))

def JsonNumber.asI64 : JsonNumber → Option Int64
  | .posInt u => if u.toNat < 2 ^ 63 then some (Int64.ofNat u.toNat) else none
  | .negInt i => some i
  | .float _ => none

/-- The bits of `as_f64`, which every number has. -/
def JsonNumber.asF64 : JsonNumber → UInt64
  | .posInt u => u.toFloat.toBits
  | .negInt i => i.toFloat.toBits
  | .float bits => bits

mutual

/-- `json_to_value` -/
def jsonToValue : Json → Value
  | .null => .null
  | .bool b => .bool b
  | .number n =>
    match n.asI64 with
    | some i => .int i
    | none => .real n.asF64
  | .string s => .string s
  | .array a => .array (jsonItems a)
  | .object o => .object (jsonEntries o [])

def jsonItems : List Json → List Value
  | [] => []
  | v :: vs => jsonToValue v :: jsonItems vs

def jsonEntries : List (String × Json) → List (String × Value) → List (String × Value)
  | [], m => m
  | (k, v) :: o, m => jsonEntries o (indexInsert k (jsonToValue v) m)

end

/-! ## The connection -/

/-- The errors of the readers, by the text that makes each. -/
inductive ServerError where
  /-- An `io::Error` of kind `UnexpectedEof`. -/
  | unexpectedEof
  /-- `EOF after BSER magic byte` -/
  | eofAfterMagicByte
  /-- `EOF after BSER magic` -/
  | eofAfterMagic
  /-- `unknown BSER version byte {other:#x}` -/
  | unknownVersionByte (other : UInt8)
  /-- `unknown BSER version {other:#x}` -/
  | unknownVersion (other : UInt8)
  /-- `expected BSER magic, got {first:#x}` -/
  | expectedMagic (first : UInt8)
  /-- `client switched BSER version mid-session` -/
  | switchedVersion
  /-- `EOF reading BSER int tag` -/
  | eofIntTag
  /-- `expected BSER int tag, got {other:#x}` -/
  | expectedIntTag (other : UInt8)
  /-- `empty JSON PDU` -/
  | emptyJson
  /-- A refusal of `serde_json`. -/
  | json
  | protocol (e : ProtocolError)
  deriving Repr

abbrev Reply := Fallible ServerError

/-- `read_u8`: nothing at the end of the stream. -/
def readU8 : List UInt8 → Option (UInt8 × List UInt8)
  | [] => none
  | b :: s => some (b, s)

/-- `read_bser_int` -/
def readBserInt (s : List UInt8) : Reply (ℤ × List UInt8) := do
  let (tag, s) ← okOr .eofIntTag (readU8 s)
  let w ← okOr (.expectedIntTag tag) (intWidth tag)
  let (raw, s) ← okOr .unexpectedEof (readExact w s)
  return (signedInt raw, s)

def reframe (payload : List UInt8) : List UInt8 :=
  magicV1 ++ (writeInt (asI64 payload.length) ++ payload)

/-- `bser_decode_value`, with `read` for `read_value`. -/
def bserDecodeValue (lim : AllocLimits) (read : List UInt8 → Result (Value × ℕ))
    (payload : List UInt8) : Reply (Value × ℕ) := do
  withCapacity lim.copy (reframe payload).length
  mapError .protocol (decodePduWith read (reframe payload))

/-- The encoding a version byte stands for; version 2 has its capability bytes next. -/
def readEncoding (unknown : UInt8 → ServerError) (version : UInt8) (s : List UInt8) :
    Reply (Encoding × List UInt8) :=
  if version = 0x01 then .ok (.bserV1, s)
  else if version = 0x02 then do
    let (_, s) ← okOr .unexpectedEof (readExact 4 s)
    return (.bserV2, s)
  else .error (.error (unknown version))

/-- The length, the payload and its value, as both readers go on after the version. -/
def readBody (lim : AllocLimits) (read : List UInt8 → Result (Value × ℕ)) (s : List UInt8) :
    Reply (Value × List UInt8) := do
  let (length, s) ← readBserInt s
  zeroed lim (asUsize length)
  let (payload, s) ← okOr .unexpectedEof (readExact (asUsize length) s)
  let (value, _) ← bserDecodeValue lim read payload
  return (value, s)

/-- `read_until(b'\n')`: the bytes up to and with the next newline, and the rest. -/
def readUntilNewline : List UInt8 → List UInt8 × List UInt8
  | [] => ([], [])
  | b :: s =>
    if b = 0x0A then ([b], s)
    else
      let (line, rest) := readUntilNewline s
      (b :: line, rest)

def chomp (line : List UInt8) : List UInt8 :=
  if line.getLast? = some 0x0A then line.dropLast else line

/-- The BSER branch of `read_pdu`. -/
def readBserPdu (lim : AllocLimits) (read : List UInt8 → Result (Value × ℕ)) (encoding : Encoding)
    (s : List UInt8) : Reply (Option Value × List UInt8) :=
  match readU8 s with
  | none => .ok (none, [])
  | some (first, s) =>
    if first = 0x00 then do
      let (version, s) ← okOr .eofAfterMagic (readU8 s)
      let (actual, s) ← readEncoding .unknownVersion version s
      if actual = encoding then
        let (value, s) ← readBody lim read s
        return (some value, s)
      else .error (.error .switchedVersion)
    else .error (.error (.expectedMagic first))

section Readers

-- the reader of a value, and `serde_json::from_slice`
variable (lim : AllocLimits) (read : List UInt8 → Result (Value × ℕ))
  (fromSlice : List UInt8 → Option Json)

/-- `read_first_pdu` -/
def readFirstPduWith (s : List UInt8) : Reply (Option (Value × Encoding) × List UInt8) :=
  match readU8 s with
  | none => .ok (none, [])
  | some (first, s) =>
    if first = 0x00 then do
      let (second, s) ← okOr .eofAfterMagicByte (readU8 s)
      let (encoding, s) ← readEncoding .unknownVersionByte second s
      let (value, s) ← readBody lim read s
      return (some (value, encoding), s)
    else
      let (line, rest) := readUntilNewline s
      let buf := chomp (first :: line)
      if buf = [] then .error (.error .emptyJson)
      else do
        let v ← okOr .json (fromSlice buf)
        return (some (jsonToValue v, .json), rest)

/-- `read_pdu` of a session with a known encoding. -/
def readPduWith (encoding : Encoding) (s : List UInt8) : Reply (Option Value × List UInt8) :=
  match encoding with
  | .json =>
    let (line, rest) := readUntilNewline s
    if chomp line = [] then .ok (none, rest)
    else do
      let v ← okOr .json (fromSlice (chomp line))
      return (some (jsonToValue v), rest)
  | .bserV1 | .bserV2 => readBserPdu lim read encoding s

def readFirstPdu : List UInt8 → Reply (Option (Value × Encoding) × List UInt8) :=
  readFirstPduWith lim (readValue lim) fromSlice

def readPdu : Encoding → List UInt8 → Reply (Option Value × List UInt8) :=
  readPduWith lim (readValue lim) fromSlice

end Readers

/-! ## Which streams the readers survive -/

/-- The numbers declared from the length field on. -/
def scanBody (depth : ℕ) (s : List UInt8) : Scan Unit :=
  scanFrame (fun payload => do
    Scan.declare (.copy (reframe payload).length)
    scanPdu depth (reframe payload)) s

/-- The numbers the first PDU of a connection declares. -/
def scanFirstPdu (depth : ℕ) (s : List UInt8) : Scan Unit :=
  match readU8 s with
  | none => pure ()
  | some (first, s) =>
    if first = 0x00 then do
      let (second, s) ← Scan.ofResult (okOr ServerError.eofAfterMagicByte (readU8 s))
      let (_, s) ← Scan.ofResult (readEncoding .unknownVersionByte second s)
      scanBody depth s
    else pure ()

def scanBserPdu (depth : ℕ) (encoding : Encoding) (s : List UInt8) : Scan Unit :=
  match readU8 s with
  | none => pure ()
  | some (first, s) =>
    if first = 0x00 then do
      let (version, s) ← Scan.ofResult (okOr ServerError.eofAfterMagic (readU8 s))
      let (actual, s) ← Scan.ofResult (readEncoding .unknownVersion version s)
      if actual = encoding then scanBody depth s else Scan.stop
    else Scan.stop

/-- The numbers a later PDU declares in a session of the given encoding. -/
def scanSessionPdu (depth : ℕ) (encoding : Encoding) (s : List UInt8) : Scan Unit :=
  match encoding with
  | .json => pure ()
  | .bserV1 | .bserV2 => scanBserPdu depth encoding s

section Safety

variable {lim : AllocLimits} {depth : ℕ}

theorem tracks_mapError {ε ε' α β : Type} {R : α → β → Prop} {x : Fallible ε α} {y : Scan β}
    (f : ε → ε') (h : Tracks lim R x y) : Tracks lim R (mapError f x) y := by
  obtain ⟨⟨p, rfl⟩, hy⟩ | ⟨hy, ⟨a, b, rfl, hb, hab⟩ | ⟨⟨e, rfl⟩, hb⟩⟩ := h
  · exact .inl ⟨⟨p, rfl⟩, hy⟩
  · exact .inr ⟨hy, .inl ⟨a, b, rfl, hb, hab⟩⟩
  · exact .inr ⟨hy, .inr ⟨⟨f e, rfl⟩, hb⟩⟩

/-- `read_bser_int` reads what `read_int_from` reads; only their errors differ. -/
theorem tracks_readBserInt (s : List UInt8) :
    Tracks lim (fun a b => b = a ∧ readIntFrom s = .ok a) (readBserInt s)
      (Scan.ofResult (readIntFrom s)) := by
  cases s with
  | nil => exact .error _
  | cons tag s =>
    have htag : readExact 1 (tag :: s) = some ([tag], s) := rfl
    unfold readBserInt readIntFrom
    rw [htag]
    simp only [okOr, readU8, ok_bind, List.headD_cons]
    cases intWidth tag with
    | none => exact .error _
    | some w =>
      simp only [ok_bind]
      cases readExact w s with
      | none => exact .error _
      | some x => exact .ok ⟨rfl, rfl⟩

theorem tracks_bserDecodeValue (payload : List UInt8) :
    Tracks lim (fun _ _ => True) (bserDecodeValue lim (readValueOn lim depth) payload)
      (do
        Scan.declare (.copy (reframe payload).length)
        scanPdu depth (reframe payload)) := by
  have hcopy := lim.copy_lt
  have hcap : Tracks lim (fun _ _ => ((reframe payload).length : ℤ) ≤ lim.copy)
      (withCapacity lim.copy (reframe payload).length : Reply Unit)
      (Scan.declare (.copy (reframe payload).length)) := by
    have h : Declared.Fits lim (.copy (reframe payload).length) ↔
        ((reframe payload).length : ℤ) ≤ lim.copy := by
      unfold Declared.Fits; omega
    exact tracks_withCapacity h
  unfold bserDecodeValue
  refine hcap.bind ?_
  rintro - - - hle
  exact tracks_mapError _ (tracks_decodePdu (by omega))

theorem tracks_readBody (s : List UInt8) :
    Tracks lim (fun _ _ => True) (readBody lim (readValueOn lim depth) s) (scanBody depth s) := by
  unfold readBody scanBody scanFrame
  refine (tracks_readBserInt s).bind ?_
  rintro ⟨len, rest⟩ _ - ⟨rfl, hok⟩
  obtain ⟨hlo, hhi⟩ := readIntFrom_range hok
  refine tracks_frame (fun payload => do
    Scan.declare (.copy (reframe payload).length)
    scanPdu depth (reframe payload)) hlo hhi fun payload rest _ => ?_
  refine (tracks_bserDecodeValue payload).bind_left ?_
  rintro ⟨v, c⟩ - -
  exact ⟨_, rfl, trivial⟩

theorem not_panics_readEncoding (unknown : UInt8 → ServerError) (version : UInt8)
    (s : List UInt8) : ¬ Panics (readEncoding unknown version s) := by
  unfold readEncoding
  split_ifs
  · exact not_panics_ok _
  · exact not_panics_bind (not_panics_okOr _ _) fun _ => not_panics_ok _
  · exact not_panics_error _

variable {fromSlice : List UInt8 → Option Json}

theorem readFirstPdu_survives_iff (s : List UInt8) :
    ¬ Panics (readFirstPduWith lim (readValueOn lim depth) fromSlice s) ↔
      (scanFirstPdu depth s).Fits lim := by
  unfold readFirstPduWith scanFirstPdu
  cases readU8 s with
  | none => exact iff_of_true (not_panics_ok _) (Scan.fits_pure _)
  | some x =>
    obtain ⟨first, s⟩ := x
    simp only
    split_ifs with h0 hempty
    · refine Tracks.not_panics_iff (R := fun _ _ => True) ?_
      refine (Tracks.ofResult (not_panics_okOr _ _)).bind ?_
      rintro ⟨second, s⟩ _ - rfl
      refine (Tracks.ofResult (not_panics_readEncoding _ second s)).bind ?_
      rintro ⟨encoding, s⟩ _ - rfl
      refine (tracks_readBody s).bind_left ?_
      rintro ⟨v, rest⟩ - -
      exact ⟨_, rfl, trivial⟩
    · exact iff_of_true (not_panics_error _) (Scan.fits_pure _)
    · exact iff_of_true (not_panics_bind (not_panics_okOr _ _) fun _ => not_panics_ok _)
        (Scan.fits_pure _)

theorem tracks_readBserPdu (encoding : Encoding) (s : List UInt8) :
    Tracks lim (fun _ _ => True) (readBserPdu lim (readValueOn lim depth) encoding s)
      (scanBserPdu depth encoding s) := by
  unfold readBserPdu scanBserPdu
  cases readU8 s with
  | none => exact .ok trivial
  | some x =>
    obtain ⟨first, s⟩ := x
    simp only
    split_ifs with h0
    · refine (Tracks.ofResult (not_panics_okOr _ _)).bind ?_
      rintro ⟨version, s⟩ _ - rfl
      refine (Tracks.ofResult (not_panics_readEncoding _ version s)).bind ?_
      rintro ⟨actual, s⟩ _ - rfl
      simp only
      split_ifs with hsame
      · refine (tracks_readBody s).bind_left ?_
        rintro ⟨v, rest⟩ - -
        exact ⟨_, rfl, trivial⟩
      · exact .error _
    · exact .error _

theorem readPdu_survives_iff (encoding : Encoding) (s : List UInt8) :
    ¬ Panics (readPduWith lim (readValueOn lim depth) fromSlice encoding s) ↔
      (scanSessionPdu depth encoding s).Fits lim := by
  cases encoding with
  | json =>
    refine iff_of_true ?_ (Scan.fits_pure _)
    unfold readPduWith
    simp only
    split_ifs
    · exact not_panics_ok _
    · exact not_panics_bind (not_panics_okOr _ _) fun _ => not_panics_ok _
  | bserV1 => exact (tracks_readBserPdu .bserV1 s).not_panics_iff
  | bserV2 => exact (tracks_readBserPdu .bserV2 s).not_panics_iff

end Safety

/-- **Survival.** On a slice, a stream and a connection, each of the four readers returns or fails
exactly when every number it meets fits, whatever the allocator gives, the stack holds and
`serde_json` does. A slice has at most `isize::MAX` bytes. -/
theorem readers_survive_iff (lim : AllocLimits) (depth : ℕ)
    (fromSlice : List UInt8 → Option Json) :
    (∀ buf : List UInt8, buf.length < 2 ^ 63 →
      (¬ Panics (decodePduWith (readValueOn lim depth) buf) ↔ (scanPdu depth buf).Fits lim)) ∧
    (∀ s, ¬ Panics (Bser.readPdu lim (readValueOn lim depth) s) ↔ (scanStream depth s).Fits lim) ∧
    (∀ s, ¬ Panics (readFirstPduWith lim (readValueOn lim depth) fromSlice s) ↔
      (scanFirstPdu depth s).Fits lim) ∧
    ∀ encoding s, ¬ Panics (readPduWith lim (readValueOn lim depth) fromSlice encoding s) ↔
      (scanSessionPdu depth encoding s).Fits lim :=
  ⟨fun _ hbuf => (tracks_decodePdu hbuf).not_panics_iff,
    fun s => (tracks_readPdu s).not_panics_iff,
    readFirstPdu_survives_iff, readPdu_survives_iff⟩

/-- A frame that declares one byte less than nothing. -/
def negativeFrame : List UInt8 := [0x00, 0x01, 0x03, 0xFF]

/-- An array in an array, in a frame of version 1. -/
def nestedArrays : List UInt8 := [0x00, 0x01, 0x03, 0x06, 0x00, 0x03, 0x01, 0x00, 0x03, 0x00]

/-- A stack of two calls takes the two arrays, a stack of one call does not. -/
theorem readers_survive_iff_nestedArrays :
    ((¬ Panics (decodePduWith (readValueOn .bits64 2) nestedArrays) ↔
        (scanPdu 2 nestedArrays).Fits .bits64) ∧ (scanPdu 2 nestedArrays).Fits .bits64) ∧
      (¬ Panics (decodePduWith (readValueOn .bits64 1) nestedArrays) ↔
        (scanPdu 1 nestedArrays).Fits .bits64) ∧ ¬ (scanPdu 1 nestedArrays).Fits .bits64 := by
  have hlen : nestedArrays.length < 2 ^ 63 := by norm_num [nestedArrays]
  refine ⟨⟨(readers_survive_iff .bits64 2 fun _ => none).1 _ hlen, ?_⟩,
    (readers_survive_iff .bits64 1 fun _ => none).1 _ hlen, ?_⟩
  · unfold Scan.Fits
    decide
  · unfold Scan.Fits
    decide

/-- On a stack of a thousand calls. -/
theorem negativeFrame_panics :
    Panics (decodePduWith (readValueOn .bits64 1000) negativeFrame) ∧
    Panics (Bser.readPdu .bits64 (readValueOn .bits64 1000) negativeFrame) ∧
    Panics (readFirstPduWith .bits64 (readValueOn .bits64 1000) (fun _ => none) negativeFrame) ∧
    Panics (readPduWith .bits64 (readValueOn .bits64 1000) (fun _ => none) .bserV1
      negativeFrame) :=
  ⟨by decide +kernel, by decide +kernel, by decide +kernel, by decide +kernel⟩

end Watchwoman.Server
