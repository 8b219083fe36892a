import Watchwoman.Lib.IndexMap
import Watchwoman.Lib.LittleEndian
import Watchwoman.Lib.Utf8
import Watchwoman.Protocol.Value

/-!
# BSER, the binary wire format

`bser.rs`: a PDU is a magic, for version 2 four capability bytes, the payload's length as a tagged
integer, and the payload, a tagged value.

Readers return `Except Failure`: an error the caller sees, or a panic. The panics are those of the
Rust operations the reader uses: slicing (`sliceRange`, `sliceFrom`), reserving a declared count
(`withCapacity`) and calling itself (`readValueOn`). Lengths are `i64` cast to `usize`, and adding
one to an offset wraps, as it does in a release build.

`readValue` has all the stack it needs: it recurses through the fuel of `readValueF`, and a nested
value starts at least one byte into the slice of the value around it, so the slice's length is fuel
enough (`readValue_eq`). `readValueOn` has a stack of so many calls, and does the same until it
overflows (`readValueOn_cases`). The readers of a PDU take either.
-/

namespace Watchwoman

open LittleEndian

/-! ## Failures -/

/-- The texts of `ProtocolError::Bser`, by the format string that makes each. -/
inductive BserMessage where
  /-- `encode_pdu called with Encoding::Json` -/
  | encodeJson
  /-- `payload length mismatch: declared {payload_len}, consumed {consumed}` -/
  | lengthMismatch (declared : ℤ) (consumed : ℕ)
  /-- `expected int tag, got {other:#x}` -/
  | expectedIntTag (other : UInt8)
  /-- `object key must be string, got {other:?}` -/
  | objectKey (other : Value)
  /-- `template key must be string, got {other:?}` -/
  | templateKey (other : Value)
  /-- `template keys must be an array` -/
  | templateKeys
  /-- `unexpected SKIP tag outside a template` -/
  | unexpectedSkip
  /-- `unknown BSER tag {other:#x}` -/
  | unknownTag (other : UInt8)
  deriving Repr

inductive ProtocolError where
  /-- An `io::Error` of kind `UnexpectedEof`. -/
  | unexpectedEof
  | bser (m : BserMessage)
  | truncated
  | unknownEncoding (b : UInt8)
  deriving Repr

/-- The ways the readers can abort the process. -/
inductive Panic where
  /-- A slice that starts after it ends. -/
  | sliceOrder (start stop : ℕ)
  /-- A slice that ends after its buffer. -/
  | sliceEnd (stop len : ℕ)
  /-- A capacity that is not to be had. -/
  | capacityOverflow (count : ℕ)
  | stackOverflow
  deriving DecidableEq, Repr

inductive Failure (ε : Type) where
  | error (e : ε)
  | panic (p : Panic)
  deriving Repr

/-- A computation that returns, fails with an error of the source, or panics. -/
abbrev Fallible (ε α : Type) := Except (Failure ε) α

namespace Fallible

variable {ε α β : Type}

/-- The computation ends in a panic. -/
def Panics (x : Fallible ε α) : Prop := ∃ p, x = .error (.panic p)

@[simp] theorem ok_bind (a : α) (f : α → Fallible ε β) : (Except.ok a >>= f) = f a := rfl

@[simp] theorem error_bind (e : Failure ε) (f : α → Fallible ε β) :
    ((Except.error e : Fallible ε α) >>= f) = .error e := rfl

theorem bind_eq_ok {x : Fallible ε α} {f : α → Fallible ε β} {b : β} :
    (x >>= f) = .ok b ↔ ∃ a, x = .ok a ∧ f a = .ok b := by
  cases x with
  | error e => simp
  | ok a => simp

@[simp] theorem not_panics_ok (a : α) : ¬ Panics (Except.ok a : Fallible ε α) := by
  simp [Panics]

@[simp] theorem not_panics_error (e : ε) :
    ¬ Panics (Except.error (.error e) : Fallible ε α) := by
  simp [Panics]

@[simp] theorem panics_panic (p : Panic) : Panics (Except.error (.panic p) : Fallible ε α) :=
  ⟨p, rfl⟩

instance : (x : Fallible ε α) → Decidable (Panics x)
  | .ok a => isFalse (not_panics_ok a)
  | .error (.error e) => isFalse (not_panics_error e)
  | .error (.panic p) => isTrue (panics_panic p)

/-- `ok_or(e)?` -/
def okOr (e : ε) : Option α → Fallible ε α
  | some a => .ok a
  | none => .error (.error e)

/-- The conversion of the error that `?` makes. -/
def mapError {ε' : Type} (f : ε → ε') : Fallible ε α → Fallible ε' α
  | .ok a => .ok a
  | .error (.error e) => .error (.error (f e))
  | .error (.panic p) => .error (.panic p)

theorem panics_bind {x : Fallible ε α} {f : α → Fallible ε β} :
    Panics (x >>= f) ↔ Panics x ∨ ∃ a, x = .ok a ∧ Panics (f a) := by
  cases x with
  | error e => simp [Panics]
  | ok a => simp

end Fallible

/-! ## Machine arithmetic -/

/-- `n as usize` for an `i64`. -/
def asUsize (n : ℤ) : ℕ := (n % 2 ^ 64).toNat

/-- `n as i64` for a `usize`. -/
def asI64 (n : ℕ) : ℤ := Int.bmod n (2 ^ 64)

/-- `usize` addition of a release build, where it wraps. -/
def usizeAdd (a b : ℕ) : ℕ := (a + b) % 2 ^ 64

namespace Bser

open Fallible

abbrev Result := Fallible ProtocolError

/-! ## Tags -/

inductive Tag where
  | array | object | string | int8 | int16 | int32 | int64 | real | true | false | null
  | template | skip | utf8
  deriving DecidableEq, Repr

def Tag.byte : Tag → UInt8
  | .array => 0x00
  | .object => 0x01
  | .string => 0x02
  | .int8 => 0x03
  | .int16 => 0x04
  | .int32 => 0x05
  | .int64 => 0x06
  | .real => 0x07
  | .true => 0x08
  | .false => 0x09
  | .null => 0x0A
  | .template => 0x0B
  | .skip => 0x0C
  | .utf8 => 0x0D

def Tag.ofByte (b : UInt8) : Option Tag :=
  [.array, .object, .string, .int8, .int16, .int32, .int64, .real, .true, .false, .null,
    .template, .skip, .utf8].find? (fun t => t.byte == b)

@[simp] theorem Tag.ofByte_byte (t : Tag) : Tag.ofByte t.byte = some t := by
  cases t <;> decide

def magicV1 : List UInt8 := [0x00, 0x01]

def magicV2 : List UInt8 := [0x00, 0x02]

/-! ## Writers -/

/-- `write_int`: the narrowest of the four widths that holds `n`. -/
def writeInt (n : ℤ) : List UInt8 :=
  if -2 ^ 7 ≤ n ∧ n ≤ 2 ^ 7 - 1 then Tag.int8.byte :: signedBytes 1 n
  else if -2 ^ 15 ≤ n ∧ n ≤ 2 ^ 15 - 1 then Tag.int16.byte :: signedBytes 2 n
  else if -2 ^ 31 ≤ n ∧ n ≤ 2 ^ 31 - 1 then Tag.int32.byte :: signedBytes 4 n
  else Tag.int64.byte :: signedBytes 8 n

/-- A byte string under the tag the source gives both `String` and `Bytes`. -/
def writeBytes (b : List UInt8) : List UInt8 :=
  Tag.string.byte :: (writeInt (asI64 b.length) ++ b)

mutual

/-- `write_value` -/
def writeValue : Value → List UInt8
  | .null => [Tag.null.byte]
  | .bool true => [Tag.true.byte]
  | .bool false => [Tag.false.byte]
  | .int i => writeInt i.toInt
  | .real bits => Tag.real.byte :: leBytes 8 bits.toNat
  | .string s => writeBytes (Utf8.bytesOf s)
  | .bytes b => writeBytes b
  | .array a => Tag.array.byte :: (writeInt (asI64 a.length) ++ writeItems a)
  | .object o => Tag.object.byte :: (writeInt (asI64 o.length) ++ writeEntries o)
  | .template keys rows =>
    Tag.template.byte :: (Tag.array.byte :: (writeInt (asI64 keys.length) ++
      keys.flatMap (fun k => writeBytes (Utf8.bytesOf k))) ++
        (writeInt (asI64 rows.length) ++ writeRows rows))

def writeItems : List Value → List UInt8
  | [] => []
  | v :: vs => writeValue v ++ writeItems vs

def writeEntries : List (String × Value) → List UInt8
  | [] => []
  | (k, v) :: o => writeBytes (Utf8.bytesOf k) ++ (writeValue v ++ writeEntries o)

/-- The cells of a template row; a null is written as an absent field. -/
def writeCells : List Value → List UInt8
  | [] => []
  | .null :: vs => Tag.skip.byte :: writeCells vs
  | v :: vs => writeValue v ++ writeCells vs

def writeRows : List (List Value) → List UInt8
  | [] => []
  | row :: rows => writeCells row ++ writeRows rows

end

/-- `encode_pdu`: magic, length and payload. -/
def encodePdu (value : Value) (version : Encoding) : Result (List UInt8) :=
  let payload := writeValue value
  let framed := writeInt (asI64 payload.length) ++ payload
  match version with
  | .bserV1 => .ok (magicV1 ++ framed)
  | .bserV2 => .ok (magicV2 ++ (leBytes 4 0 ++ framed))
  | .json => .error (.error (.bser .encodeJson))

/-! ## Readers -/

def need (buf : List UInt8) (size : ℕ) : Result Unit :=
  if buf.length < size then .error (.error .truncated) else .ok ()

/-- `&buf[start..]` -/
def sliceFrom (buf : List UInt8) (start : ℕ) : Result (List UInt8) :=
  if buf.length < start then .error (.panic (.sliceOrder start buf.length))
  else .ok (buf.drop start)

/-- `&buf[start..stop]` -/
def sliceRange (buf : List UInt8) (start stop : ℕ) : Result (List UInt8) :=
  if stop < start then .error (.panic (.sliceOrder start stop))
  else if buf.length < stop then .error (.panic (.sliceEnd stop buf.length))
  else .ok ((buf.drop start).take (stop - start))

/-- `with_capacity(count)` of a container that holds at most `limit` elements. -/
def withCapacity {ε : Type} (limit count : ℕ) : Fallible ε Unit :=
  if limit < count then .error (.panic (.capacityOverflow count)) else .ok ()

/-- The width an integer tag announces. -/
def intWidth (tag : UInt8) : Option ℕ :=
  match Tag.ofByte tag with
  | some .int8 => some 1
  | some .int16 => some 2
  | some .int32 => some 4
  | some .int64 => some 8
  | _ => none

/-- The `w`-byte integer behind a tag. -/
def readIntField (buf : List UInt8) (w : ℕ) : Result (ℤ × ℕ) := do
  need buf (1 + w)
  return (signedInt ((buf.drop 1).take w), 1 + w)

/-- `read_int`: the value and the bytes it took. -/
def readInt : List UInt8 → Result (ℤ × ℕ)
  | [] => .error (.error .truncated)
  | b :: rest =>
    match intWidth b with
    | some w => readIntField (b :: rest) w
    | none => .error (.error (.bser (.expectedIntTag b)))

/-- `str::from_utf8` of a slice, with the bytes kept where it fails. -/
def stringOfSlice (slice : List UInt8) : Value :=
  match Utf8.ofBytes? slice with
  | some s => .string s
  | none => .bytes slice

/-- The text of a key, or the error for a value that is not a string. -/
def keyOf (refuse : Value → BserMessage) : Value → Result String
  | .string s => .ok s
  | .bytes b => .ok (Utf8.lossy b)
  | other => .error (.error (.bser (refuse other)))

/-- `IndexMap::insert`: a key that is there keeps its place. -/
def indexInsert (k : String) (v : Value) : List (String × Value) → List (String × Value)
  | [] => [(k, v)]
  | (k', v') :: o => if k' = k then (k, v) :: o else (k', v') :: indexInsert k v o

theorem indexInsert_eq (k : String) (v : Value) (o : List (String × Value)) :
    indexInsert k v o = IndexMap.insert k v o := by
  induction o with
  | nil => rfl
  | cons kv o ih => rw [indexInsert, IndexMap.insert, ih]

theorem indexInsert_of_not_mem {k : String} {v : Value} {o : List (String × Value)}
    (h : k ∉ o.map Prod.fst) : indexInsert k v o = o ++ [(k, v)] := by
  rw [indexInsert_eq]
  exact IndexMap.insert_of_not_mem h

section Loops

-- The reader of one nested value.
variable (read : List UInt8 → Result (Value × ℕ))

/-- The loop of an array: `count` values from `pos` on. -/
def readItems (buf : List UInt8) : ℕ → ℕ → Result (List Value × ℕ)
  | 0, pos => .ok ([], pos)
  | count + 1, pos => do
    let (v, consumed) ← read (← sliceFrom buf pos)
    let (items, pos) ← readItems buf count (pos + consumed)
    return (v :: items, pos)

/-- The loop of an object. -/
def readEntries (buf : List UInt8) :
    ℕ → ℕ → List (String × Value) → Result (List (String × Value) × ℕ)
  | 0, pos, obj => .ok (obj, pos)
  | count + 1, pos, obj => do
    let (k, kconsumed) ← read (← sliceFrom buf pos)
    let key ← keyOf .objectKey k
    let (v, vconsumed) ← read (← sliceFrom buf (pos + kconsumed))
    readEntries buf count (pos + kconsumed + vconsumed) (indexInsert key v obj)

/-- The inner loop of a template: the cells of one row. -/
def readCells (buf : List UInt8) : ℕ → ℕ → Result (List Value × ℕ)
  | 0, pos => .ok ([], pos)
  | count + 1, pos => do
    if buf[pos]? = some Tag.skip.byte then
      let (cells, pos) ← readCells buf count (pos + 1)
      return (.null :: cells, pos)
    else
      let (v, consumed) ← read (← sliceFrom buf pos)
      let (cells, pos) ← readCells buf count (pos + consumed)
      return (v :: cells, pos)

/-- The outer loop of a template. -/
def readRows (lim : AllocLimits) (buf : List UInt8) (width : ℕ) :
    ℕ → ℕ → Result (List (List Value) × ℕ)
  | 0, pos => .ok ([], pos)
  | count + 1, pos => do
    withCapacity lim.vecValue width
    let (row, pos) ← readCells read buf width pos
    let (rows, pos) ← readRows lim buf width count pos
    return (row :: rows, pos)

/-- The body of `read_value`, with `read` for its recursive calls. -/
def readValueStep (lim : AllocLimits) : List UInt8 → Result (Value × ℕ)
  | [] => .error (.error .truncated)
  | b :: rest =>
    match Tag.ofByte b with
    | some .null => .ok (.null, 1)
    | some .true => .ok (.bool true, 1)
    | some .false => .ok (.bool false, 1)
    | some .int8 | some .int16 | some .int32 | some .int64 => do
      let (n, consumed) ← readInt (b :: rest)
      return (.int (Int64.ofInt n), consumed)
    | some .real => do
      need (b :: rest) 9
      return (.real (UInt64.ofNat (leNat (rest.take 8))), 9)
    | some .string | some .utf8 => do
      let (len, lenlen) ← readInt rest
      let start := 1 + lenlen
      let stop := usizeAdd start (asUsize len)
      need (b :: rest) stop
      return (stringOfSlice (← sliceRange (b :: rest) start stop), stop)
    | some .array => do
      let (count, clen) ← readInt rest
      withCapacity lim.vecValue count.toNat
      let (items, pos) ← readItems read (b :: rest) count.toNat (1 + clen)
      return (.array items, pos)
    | some .object => do
      let (count, clen) ← readInt rest
      withCapacity lim.indexMap count.toNat
      let (obj, pos) ← readEntries read (b :: rest) count.toNat (1 + clen) []
      return (.object obj, pos)
    | some .template => do
      let (keysVal, keysConsumed) ← read rest
      match keysVal with
      | .array a =>
        let keys ← a.mapM (keyOf .templateKey)
        let pos := 1 + keysConsumed
        let (rowCount, rclen) ← readInt (← sliceFrom (b :: rest) pos)
        withCapacity lim.vecRow rowCount.toNat
        let (rows, pos) ← readRows read lim (b :: rest) keys.length rowCount.toNat (pos + rclen)
        return (.template keys rows, pos)
      | _ => .error (.error (.bser .templateKeys))
    | some .skip => .error (.error (.bser .unexpectedSkip))
    | none => .error (.error (.bser (.unknownTag b)))

end Loops

/-- `read_value`, nesting at most `fuel` deep. -/
def readValueF (lim : AllocLimits) : ℕ → List UInt8 → Result (Value × ℕ)
  | 0 => fun _ => .error (.error .truncated)
  | fuel + 1 => readValueStep (readValueF lim fuel) lim

/-- `read_value`: the value at the front of the slice and the bytes it took. -/
def readValue (lim : AllocLimits) (buf : List UInt8) : Result (Value × ℕ) :=
  readValueF lim buf.length buf

/-- `read_value` on a stack with room for `depth` of its calls. -/
def readValueOn (lim : AllocLimits) : ℕ → List UInt8 → Result (Value × ℕ)
  | 0 => fun _ => .error (.panic .stackOverflow)
  | depth + 1 => readValueStep (readValueOn lim depth) lim

/-- The length of the header a magic announces. -/
def headerLen (buf : List UInt8) : Result ℕ :=
  if buf.length < 2 then .error (.error .truncated)
  else if buf.take 2 = magicV1 then .ok 2
  else if buf.take 2 = magicV2 then
    if buf.length < 6 then .error (.error .truncated) else .ok 6
  else .error (.error (.unknownEncoding (buf.headD 0)))

/-- `decode_pdu`, with `read` for `read_value`: the value and the bytes the PDU took. -/
def decodePduWith (read : List UInt8 → Result (Value × ℕ)) (buf : List UInt8) :
    Result (Value × ℕ) := do
  let headerLen ← headerLen buf
  let (payloadLen, lenSize) ← readInt (← sliceFrom buf headerLen)
  let payloadStart := headerLen + lenSize
  let payloadEnd := usizeAdd payloadStart (asUsize payloadLen)
  need buf payloadEnd
  let (value, consumed) ← read (← sliceRange buf payloadStart payloadEnd)
  if consumed = asUsize payloadLen then return (value, payloadEnd)
  else .error (.error (.bser (.lengthMismatch payloadLen consumed)))

def decodePdu (lim : AllocLimits) : List UInt8 → Result (Value × ℕ) :=
  decodePduWith (readValue lim)

/-! ## Reading from a stream -/

/-- `read_exact`: the next `n` bytes of a stream and what is left of it, if it has so many. -/
def readExact (n : ℕ) (s : List UInt8) : Option (List UInt8 × List UInt8) :=
  if s.length < n then none else some (s.take n, s.drop n)

/-- `read_int_from` -/
def readIntFrom (s : List UInt8) : Result (ℤ × List UInt8) := do
  let (tag, s) ← okOr .unexpectedEof (readExact 1 s)
  let w ← okOr (.bser (.expectedIntTag (tag.headD 0))) (intWidth (tag.headD 0))
  let (raw, s) ← okOr .unexpectedEof (readExact w s)
  return (signedInt raw, s)

/-- `vec![0u8; length]` -/
def zeroed {ε : Type} (lim : AllocLimits) (length : ℕ) : Fallible ε Unit :=
  withCapacity lim.frame length

/-- The version behind a magic; version 2 has its capability bytes next. -/
def readVersion (magic s : List UInt8) : Result (Encoding × List UInt8) :=
  if magic = magicV1 then .ok (.bserV1, s)
  else if magic = magicV2 then do
    let (_, s) ← okOr .unexpectedEof (readExact 4 s)
    return (.bserV2, s)
  else .error (.error (.unknownEncoding (magic.headD 0)))

/-- `read_pdu`, with `read` for `read_value`: nothing at the end of the stream, else the next value,
its version, and the rest of the stream. -/
def readPdu (lim : AllocLimits) (read : List UInt8 → Result (Value × ℕ)) (s : List UInt8) :
    Result (Option (Value × Encoding) × List UInt8) :=
  match readExact 2 s with
  | none => .ok (none, [])
  | some (magic, s) => do
    let (version, s) ← readVersion magic s
    let (length, s) ← readIntFrom s
    zeroed lim (asUsize length)
    let (payload, s) ← okOr .unexpectedEof (readExact (asUsize length) s)
    let (value, _) ← read payload
    return (some (value, version), s)

end Bser

end Watchwoman
