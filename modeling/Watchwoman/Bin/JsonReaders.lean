import Watchwoman.Bin.ReadPdu
import Watchwoman.Daemon.Persisted
import Watchwoman.Protocol.BserRoundTrip

/-!
# The five readers of documents, and what JSON clients see

Four of the readers are one text. The fifth, `from_serde` of the protocol crate, has one more branch:
an integer over `i64::MAX` is cast to a negative one, where the others make a real of it. So the
readers agree, and keep the integers, exactly on the documents without such a literal
(`readers_agree_iff`).

The documents that the repository writes have none: a value is seen through JSON as its view, and it
is the same view if it was sent over BSER before (`bser_keeps_json_view`).
-/

namespace Watchwoman

open Server Bser Documents Persisted

/-! ## The copies of `json_to_value` -/

/-- `json_to_value` of `cli.rs` -/
def Cli.jsonToValue : Json → Value := readDocument numberToValue

/-- `json_to_value` of `commands/info.rs` -/
def Info.jsonToValue : Json → Value := readDocument numberToValue

/-- `json_to_value` of `mod persisted` in `root.rs` -/
def Persisted.jsonToValue : Json → Value := readDocument numberToValue

namespace JsonReaders

open Bin (fromSerde fromSerdeItems fromSerdeEntries)

/-- What `from_serde` makes of a number. -/
def numberFromSerde (n : JsonNumber) : Value :=
  match n.asI64, n with
  | some i, _ => .int i
  | none, .posInt u => .int u.toInt64
  | none, n => .real n.asF64

mutual

theorem fromSerde_eq : ∀ d, fromSerde d = readDocument numberFromSerde d
  | .null => rfl
  | .bool _ => rfl
  | .number _ => rfl
  | .string _ => rfl
  | .array a => congrArg Value.array (fromSerdeItems_eq a)
  | .object o => congrArg Value.object (fromSerdeEntries_eq o [])

theorem fromSerdeItems_eq : ∀ a, fromSerdeItems a = readDocumentItems numberFromSerde a
  | [] => rfl
  | d :: ds => by rw [fromSerdeItems, readDocumentItems, fromSerde_eq d, fromSerdeItems_eq ds]

theorem fromSerdeEntries_eq : ∀ o m, fromSerdeEntries o m = readDocumentEntries numberFromSerde o m
  | [], _ => rfl
  | (k, d) :: o, m => by
    rw [fromSerdeEntries, readDocumentEntries, fromSerde_eq d, fromSerdeEntries_eq o]

end

/-! ## Where they agree -/

def readers : List (Json → Value) :=
  [fromSerde, Server.jsonToValue, Cli.jsonToValue, Info.jsonToValue, Persisted.jsonToValue]

/-- The integer that was written, where a number was an integer. -/
def literal : JsonNumber → Option ℤ
  | .posInt u => some u.toNat
  | .negInt i => some i.toInt
  | .float _ => none

/-- Where the document has an integer, the value has this integer or none. -/
def KeepsIntegers (read : Json → Value) (d : Json) : Prop :=
  ∀ path n m i, docAt path d = some (.number n) → literal n = some m →
    valueAt path (read d) = some (.int i) → i.toInt = m

/-- Not an integer over `i64::MAX`. -/
def NotLarge : Json → Prop
  | .number (.posInt u) => u.toNat < 2 ^ 63
  | _ => True

theorem asI64_posInt {u : UInt64} :
    (JsonNumber.posInt u).asI64 = if u.toNat < 2 ^ 63 then some (Int64.ofNat u.toNat) else none :=
  rfl

theorem sameNumbers_iff (d : Json) : SameNumbers numberFromSerde numberToValue d ↔ NotLarge d := by
  cases d with
  | number n =>
    cases n with
    | posInt u =>
      show numberFromSerde _ = numberToValue _ ↔ u.toNat < 2 ^ 63
      unfold numberFromSerde numberToValue
      rw [asI64_posInt]
      by_cases hu : u.toNat < 2 ^ 63
      · rw [if_pos hu]
        exact iff_of_true rfl hu
      · rw [if_neg hu]
        refine iff_of_false (fun heq => ?_) hu
        cases heq
    | negInt i => exact iff_of_true rfl trivial
    | float bits => exact iff_of_true rfl trivial
  | _ => exact iff_of_true trivial trivial

theorem member_numberToValue (n : JsonNumber) (s : Step) : member s (numberToValue n) = none := by
  unfold numberToValue
  cases n.asI64 <;> cases s <;> rfl

theorem member_numberFromSerde (n : JsonNumber) (s : Step) :
    member s (numberFromSerde n) = none := by
  unfold numberFromSerde
  split <;> cases s <;> rfl

/-- `json_to_value` makes an integer of nothing but this integer. -/
theorem literal_of_numberToValue {n : JsonNumber} {m : ℤ} {i : Int64} (hn : literal n = some m)
    (h : numberToValue n = .int i) : i.toInt = m := by
  unfold numberToValue at h
  cases n with
  | posInt u =>
    rw [asI64_posInt] at h
    by_cases hu : u.toNat < 2 ^ 63
    · rw [if_pos hu] at h
      rw [← Value.int.inj h, ← Option.some.inj hn]
      exact Int64.toInt_ofNat_of_lt hu
    · rw [if_neg hu] at h
      cases h
  | negInt j =>
    rw [← Value.int.inj h]
    exact Option.some.inj hn
  | float bits => cases hn

theorem keepsIntegers_readDocument {d : Json} (hmaps : Everywhere IsMap d) :
    KeepsIntegers (readDocument numberToValue) d := by
  intro path n m i hpath hn hvalue
  rw [valueAt_readDocument member_numberToValue hmaps, hpath] at hvalue
  exact literal_of_numberToValue hn (Option.some.inj hvalue)

/-- `from_serde` and the four copies agree on a document exactly if it has no large integer. -/
theorem fromSerde_eq_iff {d : Json} (hmaps : Everywhere IsMap d) :
    fromSerde d = readDocument numberToValue d ↔ Everywhere NotLarge d := by
  rw [fromSerde_eq, readDocument_eq_iff member_numberFromSerde member_numberToValue hmaps]
  exact forall₃_congr fun _ d' _ => sameNumbers_iff d'

/-- Every reader but `from_serde` is the same. -/
theorem forall_mem_readers {P : (Json → Value) → Prop} :
    (∀ read ∈ readers, P read) ↔ P fromSerde ∧ P (readDocument numberToValue) := by
  have hserver : Server.jsonToValue = readDocument numberToValue := funext jsonToValue_eq
  unfold readers
  rw [hserver]
  constructor
  · intro h
    exact ⟨h _ List.mem_cons_self, h _ (List.mem_cons_of_mem _ List.mem_cons_self)⟩
  · rintro ⟨hserde, hcopy⟩ read hread
    rcases List.mem_cons.mp hread with rfl | hread
    · exact hserde
    · -- the other four unfold to one
      have heq : read = readDocument numberToValue := by
        simpa [Cli.jsonToValue, Info.jsonToValue, Persisted.jsonToValue] using hread
      exact heq ▸ hcopy

/-- **The readers of JSON.** On a document all readers return the same value and none changes an
integer, exactly if the document has no integer over `i64::MAX`. -/
theorem readers_agree_iff (d : Json) (hmaps : Everywhere IsMap d) :
    ((∀ read ∈ readers, ∀ read' ∈ readers, read d = read' d) ∧
      ∀ read ∈ readers, KeepsIntegers read d) ↔ Everywhere NotLarge d := by
  simp only [forall_mem_readers]
  constructor
  · rintro ⟨⟨⟨-, heq⟩, -⟩, -⟩
    exact (fromSerde_eq_iff hmaps).mp heq
  · intro hsmall
    have heq : fromSerde d = readDocument numberToValue d := (fromSerde_eq_iff hmaps).mpr hsmall
    have hkeeps : KeepsIntegers (readDocument numberToValue) d := keepsIntegers_readDocument hmaps
    refine ⟨⟨⟨trivial, heq⟩, heq.symm, trivial⟩, ?_, hkeeps⟩
    intro path n m i hpath hn hvalue
    exact hkeeps path n m i hpath hn (heq ▸ hvalue)

theorem everywhere_number {P : Json → Prop} {n : JsonNumber} :
    Everywhere P (.number n) ↔ P (.number n) := by
  refine ⟨Everywhere.self, fun h path d' hpath => ?_⟩
  cases path with
  | nil => exact Option.some.inj hpath ▸ h
  | cons s path => cases s <;> cases hpath

/-- `i64::MAX` -/
theorem readers_agree_iff_maxInt :
    Everywhere IsMap (.number (.posInt 9223372036854775807)) ∧
    (∀ read ∈ readers, ∀ read' ∈ readers, read (.number (.posInt 9223372036854775807)) =
      read' (.number (.posInt 9223372036854775807))) ∧
    ∀ read ∈ readers, KeepsIntegers read (.number (.posInt 9223372036854775807)) :=
  have hmaps := everywhere_number.mpr trivial
  ⟨hmaps, (readers_agree_iff (.number (.posInt 9223372036854775807)) hmaps).mpr
    (everywhere_number.mpr (show (9223372036854775807 : UInt64).toNat < 2 ^ 63 by decide))⟩

theorem fromSerde_posInt {u : UInt64} (hu : ¬ u.toNat < 2 ^ 63) :
    fromSerde (.number (.posInt u)) = .int u.toInt64 := by
  rw [fromSerde_eq, readDocument]
  unfold numberFromSerde
  rw [asI64_posInt, if_neg hu]

theorem jsonToValue_posInt {u : UInt64} (hu : ¬ u.toNat < 2 ^ 63) :
    Server.jsonToValue (.number (.posInt u)) = .real (JsonNumber.posInt u).asF64 := by
  rw [Server.jsonToValue, asI64_posInt, if_neg hu]

/-- The next integer, `2 ^ 63`: `from_serde` returns `i64::MIN` and the others return a real. -/
theorem large_integer_wraps :
    Everywhere IsMap (.number (.posInt 9223372036854775808)) ∧
    fromSerde (.number (.posInt 9223372036854775808)) = .int (-9223372036854775808) ∧
    Server.jsonToValue (.number (.posInt 9223372036854775808)) =
      .real (JsonNumber.posInt 9223372036854775808).asF64 ∧
    ¬ (∀ read ∈ readers, ∀ read' ∈ readers, read (.number (.posInt 9223372036854775808)) =
      read' (.number (.posInt 9223372036854775808))) ∧
    ¬ ∀ read ∈ readers, KeepsIntegers read (.number (.posInt 9223372036854775808)) := by
  have hlarge : ¬ (9223372036854775808 : UInt64).toNat < 2 ^ 63 := by decide
  have hserde := fromSerde_posInt hlarge
  have hcopy := jsonToValue_posInt hlarge
  refine ⟨everywhere_number.mpr trivial, hserde, hcopy, fun h => ?_, fun h => ?_⟩
  · have heq := h fromSerde List.mem_cons_self Server.jsonToValue (by simp [readers])
    rw [hserde, hcopy] at heq
    cases heq
  · have hkeeps := h fromSerde List.mem_cons_self [] _ _ _ rfl rfl (congrArg some hserde)
    revert hkeeps
    decide

/-! ## What JSON clients see -/

/-- `to_serde`, which is `value_to_json` of `root.rs` line by line. -/
def toSerde : Value → Json := valueToJson

theorem numberFromSerde_numberFrom (i : Int64) : numberFromSerde (numberFrom i) = .int i := by
  unfold numberFromSerde
  rw [asI64_numberFrom]

theorem fromSerde_toSerde {v : Value} (h : v.All Value.KeysDistinct) :
    fromSerde (toSerde v) = jsonView v := by
  rw [fromSerde_eq]
  exact readDocument_valueToJson numberFromSerde_numberFrom (fun bits => rfl) h

/-- What the wire forgets, the document does not have. -/
theorem toSerde_norm (v : Value) : toSerde (Bser.norm v) = toSerde v := by
  unfold toSerde
  induction v with
  | bytes b =>
    -- a payload that is UTF-8 is its own lossy text
    rw [Bser.norm, stringOfSlice, valueToJson, Utf8.lossy]
    cases hb : Utf8.ofBytes? b with
    | some s => rfl
    | none =>
      show Json.string (Utf8.lossy b) = _
      rw [Utf8.lossy, hb]
  | array a ih =>
    rw [Bser.norm, normItems_eq, valueToJson, valueToJson, itemsToJson_eq, itemsToJson_eq,
      List.map_map]
    exact congrArg Json.array (List.map_congr_left ih)
  | object o ih =>
    rw [Bser.norm, normEntries_eq, valueToJson, valueToJson, entriesToJson_eq, entriesToJson_eq,
      List.map_map]
    have hentries : o.map (Prod.map id valueToJson ∘ fun kv => (kv.1, Bser.norm kv.2)) =
        o.map (Prod.map id valueToJson) :=
      List.map_congr_left fun kv hkv => congrArg (Prod.mk kv.1) (ih kv hkv)
    rw [hentries]
  | template keys rows ih =>
    rw [Bser.norm, normRows_eq, valueToJson, valueToJson, rowsToJson_eq, rowsToJson_eq,
      List.map_map]
    refine congrArg Json.array (List.map_congr_left fun row hrow => ?_)
    show Json.object (rowToJson keys (row.map Bser.norm) []) = Json.object (rowToJson keys row [])
    have hcells : (row.map Bser.norm).map valueToJson = row.map valueToJson := by
      rw [List.map_map]
      exact List.map_congr_left (ih row hrow)
    rw [rowToJson_eq, rowToJson_eq, hcells]
  | _ => rfl

/-- **Both encodings show one value.** In either version, what `decode_pdu` returns for an encoded
value is seen through JSON as the value itself is, and both as the view of the value. -/
theorem bser_keeps_json_view (lim : AllocLimits) (v : Value) (hwf : v.WellFormed lim)
    (hrect : v.Rectangular) (hfits : Encodable v) (e : Encoding) (he : e ≠ .json) :
    ∃ bytes w, encodePdu v e = .ok bytes ∧ decodePdu lim bytes = .ok (w, bytes.length) ∧
      fromSerde (toSerde v) = fromSerde (toSerde w) ∧ fromSerde (toSerde v) = jsonView v := by
  have hdecode := decodePdu_encoded hwf hrect hfits e []
  rw [List.append_nil] at hdecode
  refine ⟨_, Bser.norm v, encodePdu_eq he v, hdecode, ?_, fromSerde_toSerde hwf.1⟩
  rw [toSerde_norm]

/-- A text sent as bytes, an infinite real, and a template with a key twice and a skipped cell. -/
def mixed : Value :=
  .object [("name", .bytes [0x61]), ("real", .real 0x7FF0000000000000),
    ("files", .template ["k", "k"] [[.int 1, .null], [.null, .bytes [0xFF]]])]

theorem bser_keeps_json_view_mixed :
    ∃ bytes w, encodePdu mixed .bserV1 = .ok bytes ∧
      decodePdu .bits64 bytes = .ok (w, bytes.length) ∧
      fromSerde (toSerde mixed) = fromSerde (toSerde w) ∧
      fromSerde (toSerde mixed) = jsonView mixed :=
  bser_keeps_json_view .bits64 mixed
    (by
      constructor <;>
        simp [mixed, AllocLimits.bits64, Value.All, Value.AllRows, Value.AllItems,
          Value.KeysDistinct, Value.Allocatable])
    (by
      simp [mixed, Value.Rectangular, Value.All, Value.AllRows, Value.AllItems, Value.RowsFull])
    (by
      have hlen : (writeValue mixed).length < 100 := by decide
      exact lt_trans hlen (by norm_num))
    .bserV1 (by decide)

end JsonReaders

end Watchwoman
