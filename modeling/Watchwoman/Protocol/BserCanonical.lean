import Watchwoman.Protocol.BserRoundTrip

/-!
# Re-encoding what was decoded

The bytes a value was decoded from need not be those the writer makes for it: integers may be wider
than they have to be, keys not UTF-8 or repeated, nulls of a template row spelled out. The value
has forgotten all that. It is `Canonical`, so encoding it and decoding the result gives it back, and
`Grows` bounds what is written for it by what it was read from.
-/

namespace Watchwoman.Bser

open Fallible LittleEndian Tiling

/-! ## Canonical values -/

def NotText : Value → Prop
  | .bytes b => Utf8.ofBytes? b = none
  | _ => True

/-- What holds of every decoded value. -/
structure Canonical (lim : AllocLimits) (v : Value) : Prop where
  distinctKeys : v.All Value.KeysDistinct
  allocatable : v.All (Value.Allocatable lim)
  rectangular : v.Rectangular
  notText : v.All NotText

theorem norm_of_notText (v : Value) (h : v.All NotText) : Bser.norm v = v := by
  induction v with
  | null | bool _ | int _ | real _ | string _ => rfl
  | bytes b =>
    have hb : Utf8.ofBytes? b = none := h
    rw [norm, stringOfSlice, hb]
  | array a ih =>
    obtain ⟨-, ha⟩ := Value.all_array.mp h
    rw [norm, normItems_eq, List.map_congr_left fun v hv => ih v hv (ha v hv), List.map_id']
  | object o ih =>
    obtain ⟨-, ho⟩ := Value.all_object.mp h
    rw [norm, normEntries_eq, List.map_congr_left fun e he => by rw [ih e he (ho e he)],
      List.map_id']
  | template keys rows ih =>
    obtain ⟨-, hrows⟩ := Value.all_template.mp h
    rw [norm, normRows_eq, List.map_congr_left fun row hrow =>
      List.map_congr_left fun v hv => ih row hrow v hv (hrows row hrow v hv)]
    simp

theorem canonical_of_readValue {lim : AllocLimits} {s : List UInt8} {v : Value} {n : ℕ}
    (h : readValue lim s = .ok (v, n)) : Canonical lim v := by
  refine readValue_induct (P := fun _ v _ => Canonical lim v) ?_ h
  intro read _ hread s v n hlayout
  have hall : v.KeysDistinct ∧ v.Allocatable lim ∧ v.RowsFull ∧ NotText v := by
    cases hlayout with
    | null | true | false | int hm | real hlen => exact ⟨trivial, trivial, trivial, trivial⟩
    | text ht hl hstop hstart hend =>
      unfold stringOfSlice
      split
      · exact ⟨trivial, trivial, trivial, trivial⟩
      · exact ⟨trivial, trivial, trivial, ‹_›⟩
    | array hc hcap hlen hitems => exact ⟨trivial, hlen.trans_le hcap, trivial, trivial⟩
    | object hc hcap hlen hentries =>
      refine ⟨IndexMap.nodup_extend List.nodup_nil, ?_, trivial, trivial⟩
      have := IndexMap.length_extend_le [] ‹List (String × Value)›
      exact this.trans (by simpa using hlen.trans_le hcap)
    | template ha hkeys hkc hc hcap hlen hrows =>
      have hwidth : List.length _ ≤ lim.vecValue := (Value.all_array.mp (hread _ _ _ ha).allocatable).1
      refine ⟨trivial, ⟨mapM_keyOf_length hkeys ▸ hwidth, hlen.trans_le hcap⟩, ?_, trivial⟩
      exact hrows.forall_mem fun _ _ _ hr => hr.2.1
  obtain ⟨hkeys, halloc, hrows, htext⟩ := hall
  exact ⟨hlayout.all (fun s v n h => (hread s v n h).distinctKeys) trivial hkeys,
    hlayout.all (fun s v n h => (hread s v n h).allocatable) trivial halloc,
    hlayout.all (fun s v n h => (hread s v n h).rectangular) trivial hrows,
    hlayout.all (fun s v n h => (hread s v n h).notText) trivial htext⟩

/-! ## Growth -/

theorem length_writeBytes_le (b : List UInt8) : (writeBytes b).length ≤ 10 + b.length := by
  have := length_writeInt_le (asI64 b.length)
  rw [writeBytes, List.length_cons, List.length_append]
  omega

/-- What is written for a value read from `n` bytes is at most five times as long: for the value,
for the key it can be, and for the keys of a template it can be. A replaced byte of a key becomes
three, and a count may take more bytes than it did. -/
structure Grows (v : Value) (n : ℕ) : Prop where
  value : (writeValue v).length ≤ 5 * n
  key : ∀ refuse k, keyOf refuse v = .ok k → (writeBytes (Utf8.bytesOf k)).length ≤ 5 * n
  keys : ∀ refuse a ks, v = .array a → a.mapM (keyOf refuse) = .ok ks →
    (writeKeys ks).length ≤ 5 * n

theorem Grows.of_value {v : Value} {n : ℕ} (hkey : ∀ refuse k, keyOf refuse v ≠ .ok k)
    (harray : ∀ a, v ≠ .array a) (h : (writeValue v).length ≤ 5 * n) : Grows v n :=
  ⟨h, fun refuse k hk => absurd hk (hkey refuse k), fun _ a _ ha => absurd ha (harray a)⟩

theorem grows_stringOfSlice {slice : List UInt8} {n : ℕ} (h : 3 + slice.length ≤ n) :
    Grows (stringOfSlice slice) n := by
  have hwrite := length_writeBytes_le slice
  unfold stringOfSlice
  split
  · have hb := Utf8.bytesOf_of_ofBytes? ‹_›
    refine ⟨by rw [writeValue, hb]; omega, fun refuse k hk => ?_, by simp⟩
    obtain rfl := Except.ok.inj hk
    rw [hb]
    omega
  · refine ⟨by rw [writeValue]; omega, fun refuse k hk => ?_, by simp⟩
    obtain rfl := Except.ok.inj hk
    have := length_writeBytes_le (Utf8.bytesOf (Utf8.lossy slice))
    have := Utf8.length_bytesOf_lossy_le slice
    omega

section Parts

variable {read : List UInt8 → Result (Value × ℕ)}
  (hread : ∀ s v n, read s = .ok (v, n) → Grows v n) {buf : List UInt8} {p q : ℕ}

include hread

theorem At.grows {v : Value} (h : At read buf p v q) : Grows v (q - p) := by
  obtain ⟨-, n, hv, rfl⟩ := h
  rw [Nat.add_sub_cancel_left]
  exact hread _ _ _ hv

theorem length_writeEntry_le (hcons : Consumes read) {e : String × Value}
    (h : EntryAt read buf p e q) : 5 * p + (writeEntry e).length ≤ 5 * q := by
  obtain ⟨k, m, hk, hkey, hv⟩ := h
  have := (hk.grows hread).key _ _ hkey
  have := (hv.grows hread).value
  have := (hk.bounds hcons).1
  have := (hv.bounds hcons).1
  rw [writeEntry, List.length_append]
  omega

theorem length_writeCell_le (hcons : Consumes read) {v : Value} (h : CellAt read buf p v q) :
    5 * p + (writeCell v).length ≤ 5 * q := by
  have hlt := (h.bounds hcons).1
  have hnull : (writeCell .null).length = 1 := rfl
  by_cases hv : v = .null
  · rw [hv, hnull]
    omega
  · rw [writeCell_of_ne_null hv]
    unfold CellAt at h
    split_ifs at h
    · exact absurd h.1 hv
    · have := (h.grows hread).value
      omega

theorem length_writeCells_le (hcons : Consumes read) {lim : AllocLimits} {width : ℕ}
    {row : List Value} (h : RowAt read lim buf width p row q) :
    5 * p + (writeCells row).length ≤ 5 * q := by
  rw [writeCells_eq, List.length_flatMap]
  exact h.2.2.sum_le fun _ _ _ hc => length_writeCell_le hread hcons hc

theorem length_writeKeys_le (hcons : Consumes read) {refuse : Value → BserMessage} {a : List Value}
    {ks : List String} (h : Tiles (At read buf) p a q) (hks : a.mapM (keyOf refuse) = .ok ks) :
    5 * p + (ks.flatMap fun k => writeBytes (Utf8.bytesOf k)).length ≤ 5 * q := by
  induction a generalizing p ks with
  | nil =>
    obtain rfl := Except.ok.inj hks
    obtain rfl := h
    exact le_rfl
  | cons v a ih =>
    obtain ⟨m, hv, hrest⟩ := h
    rw [List.mapM_cons] at hks
    obtain ⟨k, hk, hks⟩ := bind_eq_ok.mp hks
    obtain ⟨ks', hrestKeys, hks⟩ := bind_eq_ok.mp hks
    obtain rfl := Except.ok.inj hks
    have := (hv.grows hread).key _ _ hk
    have := (hv.bounds hcons).1
    have := ih hrest hrestKeys
    rw [List.flatMap_cons, List.length_append]
    omega

end Parts

theorem grows_of_readValue {lim : AllocLimits} {s : List UInt8} {v : Value} {n : ℕ}
    (h : readValue lim s = .ok (v, n)) : Grows v n := by
  refine readValue_induct (P := fun _ v n => Grows v n) ?_ h
  intro read hcons hread s v n hlayout
  cases hlayout with
  | null | true | false =>
    exact .of_value (by simp [keyOf]) (by simp) (by rw [writeValue]; simp)
  | @int _ m c hm =>
    have := (readInt_eq_ok hm).1
    have := length_writeInt_le (Int64.ofInt m).toInt
    exact .of_value (by simp [keyOf]) (by simp) (by rw [writeValue]; omega)
  | real hlen => exact .of_value (by simp [keyOf]) (by simp) (by rw [writeValue]; simp)
  | text ht hl hstop hstart hend =>
    have := (readInt_eq_ok hl).1
    refine grows_stringOfSlice ?_
    rw [List.length_take, List.length_drop]
    omega
  | @array rest count clen n items hc hcap hlen hitems =>
    have := (readInt_eq_ok hc).1
    refine ⟨?_, fun refuse k hk => (by cases hk), fun refuse a ks ha hks => ?_⟩
    · have := hitems.sum_le (f := fun v => (writeValue v).length) (k := 5) fun p v q hv => by
        have := (hv.grows hread).value
        have := (hv.bounds hcons).1
        omega
      have := length_writeInt_le (asI64 items.length)
      rw [writeValue, writeItems_eq, List.length_cons, List.length_append, List.length_flatMap]
      omega
    · obtain rfl := Value.array.inj ha
      have := length_writeKeys_le hread hcons hitems hks
      have := length_writeInt_le (asI64 ks.length)
      rw [writeKeys, List.length_cons, List.length_append]
      omega
  | @object rest count clen n entries hc hcap hlen hentries =>
    have := (readInt_eq_ok hc).1
    refine .of_value (by simp [keyOf]) (by simp) ?_
    have := hentries.sum_le fun p e q he => length_writeEntry_le hread hcons he
    have := IndexMap.sum_extend_le (fun e => (writeEntry e).length) [] entries
    have := length_writeInt_le (asI64 (IndexMap.extend [] entries).length)
    rw [List.map_nil, List.sum_nil] at *
    rw [writeValue, writeEntries_eq, List.length_cons, List.length_append, List.length_flatMap]
    omega
  | @template rest a keys count kc clen n rows ha hkeys hkc hc hcap hlen hrows =>
    have := (readInt_eq_ok hc).1
    refine .of_value (by simp [keyOf]) (by simp) ?_
    have := (hread _ _ _ ha).keys _ _ _ rfl hkeys
    have := hrows.sum_le fun p row q hr => length_writeCells_le hread hcons hr
    have := length_writeInt_le (asI64 rows.length)
    have hflat : (rows.flatMap writeCells).length = (rows.map fun r => (writeCells r).length).sum :=
      List.length_flatMap
    rw [writeValue_template, List.length_cons, List.length_append, List.length_append, hflat]
    omega

/-! ## PDUs -/

/-- **Re-encoding what was decoded changes nothing.** A decoded value is canonical; what is written
for it is bounded by what it was read from, and where that fits a buffer, each version of the
encoding decodes to the same value. -/
theorem decodePdu_reencoded (lim : AllocLimits) (b : List UInt8) (v : Value) (n : ℕ)
    (h : decodePdu lim b = .ok (v, n)) :
    Canonical lim v ∧ (writeValue v).length ≤ 5 * n ∧
      (Encodable v → ∀ e, e ≠ .json →
        ∃ bytes, encodePdu v e = .ok bytes ∧ decodePdu lim bytes = .ok (v, bytes.length)) := by
  obtain ⟨header, len, size, -, -, hn, -, hread⟩ := decodePdu_eq_ok h
  have hcanon := canonical_of_readValue hread
  have hgrows := (grows_of_readValue hread).value
  refine ⟨hcanon, by omega, fun hfits e he => ⟨_, encodePdu_eq he v, ?_⟩⟩
  have hdecode := decodePdu_encoded ⟨hcanon.distinctKeys, hcanon.allocatable⟩ hcanon.rectangular
    hfits e []
  rwa [List.append_nil, norm_of_notText v hcanon.notText] at hdecode

/-- A key given twice, once under the UTF-8 tag, a count wider than it has to be, and an explicit
null in a template row. -/
def loosePdu : List UInt8 :=
  [0x00, 0x01, 0x03, 0x18, 0x01, 0x04, 0x02, 0x00,
    0x0D, 0x03, 0x01, 0x61, 0x0A,
    0x02, 0x03, 0x01, 0x61, 0x0B, 0x00, 0x03, 0x01, 0x02, 0x03, 0x01, 0x6B, 0x03, 0x01, 0x0A]

def looseValue : Value := .object [("a", .template ["k"] [[.null]])]

set_option maxRecDepth 50000 in
theorem decodePdu_loosePdu : decodePdu .bits64 loosePdu = .ok (looseValue, 28) := by rfl

theorem decodePdu_reencoded_loosePdu :
    Canonical .bits64 looseValue ∧ ∀ e, e ≠ .json →
      ∃ bytes, encodePdu looseValue e = .ok bytes ∧
        decodePdu .bits64 bytes = .ok (looseValue, bytes.length) := by
  obtain ⟨hcanon, -, hencode⟩ := decodePdu_reencoded .bits64 loosePdu looseValue 28 decodePdu_loosePdu
  have hlen : (writeValue looseValue).length < 100 := by decide
  exact ⟨hcanon, hencode (lt_trans hlen (by norm_num))⟩

end Watchwoman.Bser
