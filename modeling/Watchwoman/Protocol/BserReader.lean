import Watchwoman.Lib.Tiling
import Watchwoman.Protocol.Bser

/-!
# What the BSER reader consumes

`Layout` says once what the body of the reader accepts: a tag, the fields behind it, and nested
values laid end to end. A value that is read takes at least one byte and at most those of its slice
(`readValue_consumed`), and every nested value starts after the tag of the value around it; the
reader therefore does not depend on its fuel, and obeys the recursion of the source
(`readValue_eq`).
-/

namespace Watchwoman.Bser

open Fallible LittleEndian Tiling

/-! ## Tags, slices and integers -/

theorem Tag.ofByte_eq_some {b : UInt8} {t : Tag} : Tag.ofByte b = some t ↔ t.byte = b := by
  constructor
  · intro h
    simpa using List.find?_some h
  · rintro rfl
    exact Tag.ofByte_byte t

theorem need_eq_ok {buf : List UInt8} {size : ℕ} : need buf size = .ok () ↔ size ≤ buf.length := by
  unfold need
  split_ifs with h
  · simp; omega
  · simp; omega

theorem sliceFrom_of_le {buf : List UInt8} {start : ℕ} (h : start ≤ buf.length) :
    sliceFrom buf start = .ok (buf.drop start) := by
  unfold sliceFrom
  rw [if_neg (by omega)]

theorem sliceFrom_eq_ok {buf s : List UInt8} {start : ℕ} (h : sliceFrom buf start = .ok s) :
    start ≤ buf.length ∧ s = buf.drop start := by
  unfold sliceFrom at h
  split_ifs at h with hlt
  exact ⟨by omega, (Except.ok.inj h).symm⟩

theorem sliceRange_of_le {buf : List UInt8} {start stop : ℕ} (h : start ≤ stop)
    (hb : stop ≤ buf.length) :
    sliceRange buf start stop = .ok ((buf.drop start).take (stop - start)) := by
  unfold sliceRange
  rw [if_neg (by omega), if_neg (by omega)]

theorem sliceRange_eq_ok {buf s : List UInt8} {start stop : ℕ}
    (h : sliceRange buf start stop = .ok s) :
    start ≤ stop ∧ stop ≤ buf.length ∧ s = (buf.drop start).take (stop - start) := by
  unfold sliceRange at h
  split_ifs at h with h1 h2
  exact ⟨by omega, by omega, (Except.ok.inj h).symm⟩

theorem withCapacity_of_le {ε : Type} {limit count : ℕ} (h : count ≤ limit) :
    (withCapacity limit count : Fallible ε Unit) = .ok () :=
  if_neg (by omega)

theorem withCapacity_eq_ok {ε : Type} {limit count : ℕ} :
    (withCapacity limit count : Fallible ε Unit) = .ok () ↔ count ≤ limit := by
  unfold withCapacity
  split_ifs with h
  · simp; omega
  · simp; omega

theorem readIntField_of_le {buf : List UInt8} {w : ℕ} (h : 1 + w ≤ buf.length) :
    readIntField buf w = .ok (signedInt ((buf.drop 1).take w), 1 + w) := by
  unfold readIntField
  rw [need_eq_ok.mpr h]
  rfl

/-- The outcomes of reading an integer field: an error, or `1 + w` bytes and an integer of the
`8 w`-bit signed range. -/
theorem readIntField_cases (buf : List UInt8) (w : ℕ) :
    readIntField buf w = .error (.error .truncated) ∨
      1 + w ≤ buf.length ∧ readIntField buf w = .ok (signedInt ((buf.drop 1).take w), 1 + w) := by
  by_cases h : 1 + w ≤ buf.length
  · exact .inr ⟨h, readIntField_of_le h⟩
  · left
    unfold readIntField need
    rw [if_pos (by omega)]
    rfl

theorem intWidth_eq_some {tag : UInt8} {w : ℕ} (h : intWidth tag = some w) :
    w = 1 ∨ w = 2 ∨ w = 4 ∨ w = 8 := by
  unfold intWidth at h
  split at h <;> simp at h <;> omega

theorem signedInt_take_range {buf : List UInt8} {w : ℕ} (hw : w = 1 ∨ w = 2 ∨ w = 4 ∨ w = 8)
    (h : 1 + w ≤ buf.length) :
    -2 ^ 63 ≤ signedInt ((buf.drop 1).take w) ∧ signedInt ((buf.drop 1).take w) < 2 ^ 63 := by
  have hlen : ((buf.drop 1).take w).length = w := by
    rw [List.length_take, List.length_drop]; omega
  have hr := @signedInt_range ((buf.drop 1).take w)
  rw [hlen] at hr
  obtain rfl | rfl | rfl | rfl := hw
  · have := @hr (2 ^ 7) (by norm_num); constructor <;> omega
  · have := @hr (2 ^ 15) (by norm_num); constructor <;> omega
  · have := @hr (2 ^ 31) (by norm_num); constructor <;> omega
  · have := @hr (2 ^ 63) (by norm_num); constructor <;> omega

/-- `read_int` returns an error, or an `i64` and between two and nine bytes of its slice. -/
theorem readInt_cases (buf : List UInt8) :
    (∃ e, readInt buf = .error (.error e)) ∨
      ∃ n c, readInt buf = .ok (n, c) ∧ 2 ≤ c ∧ c ≤ 9 ∧ c ≤ buf.length ∧ -2 ^ 63 ≤ n ∧ n < 2 ^ 63 := by
  cases buf with
  | nil => exact .inl ⟨_, rfl⟩
  | cons b rest =>
    cases hw : intWidth b with
    | none =>
      left
      simp only [readInt, hw]
      exact ⟨_, rfl⟩
    | some w =>
      simp only [readInt, hw]
      obtain h | ⟨hlen, h⟩ := readIntField_cases (b :: rest) w
      · exact .inl ⟨_, h⟩
      · have hw := intWidth_eq_some hw
        obtain ⟨hlo, hhi⟩ := signedInt_take_range hw hlen
        exact .inr ⟨_, _, h, by omega, by omega, hlen, hlo, hhi⟩

theorem readInt_eq_ok {buf : List UInt8} {n : ℤ} {c : ℕ} (h : readInt buf = .ok (n, c)) :
    2 ≤ c ∧ c ≤ 9 ∧ c ≤ buf.length ∧ -2 ^ 63 ≤ n ∧ n < 2 ^ 63 := by
  obtain ⟨e, he⟩ | ⟨n', c', h', hb⟩ := readInt_cases buf
  · rw [h] at he; simp at he
  · rw [h] at h'
    obtain ⟨rfl, rfl⟩ := Prod.mk.inj (Except.ok.inj h')
    exact hb

theorem readInt_eq_ok_tag {buf : List UInt8} {x : ℤ × ℕ} (h : readInt buf = .ok x) :
    ∃ t rest, buf = Tag.byte t :: rest ∧ (t = .int8 ∨ t = .int16 ∨ t = .int32 ∨ t = .int64) := by
  cases buf with
  | nil => cases h
  | cons b rest =>
    cases hw : intWidth b with
    | none => simp [readInt, hw] at h
    | some w =>
      unfold intWidth at hw
      split at hw
      case h_1 ht => exact ⟨_, rest, by rw [Tag.ofByte_eq_some.mp ht], .inl rfl⟩
      case h_2 ht => exact ⟨_, rest, by rw [Tag.ofByte_eq_some.mp ht], .inr (.inl rfl)⟩
      case h_3 ht => exact ⟨_, rest, by rw [Tag.ofByte_eq_some.mp ht], .inr (.inr (.inl rfl))⟩
      case h_4 ht => exact ⟨_, rest, by rw [Tag.ofByte_eq_some.mp ht], .inr (.inr (.inr rfl))⟩
      case h_5 => cases hw

theorem not_panics_readInt (buf : List UInt8) : ¬ Panics (readInt buf) := by
  obtain ⟨e, he⟩ | ⟨n, c, h, -⟩ := readInt_cases buf
  · rw [he]; simp
  · rw [h]; simp

theorem readInt_extent {b : UInt8} {rest : List UInt8} {w c : ℕ} {m : ℤ} (hw : intWidth b = some w)
    (h : readInt (b :: rest) = .ok (m, c)) : c = 1 + w := by
  simp only [readInt, hw] at h
  obtain herr | ⟨-, hok⟩ := readIntField_cases (b :: rest) w
  · rw [herr] at h
    cases h
  · exact (Prod.mk.inj (Except.ok.inj (hok.symm.trans h))).2.symm

theorem mapM_keyOf_length {refuse : Value → BserMessage} {a : List Value} {keys : List String}
    (h : a.mapM (keyOf refuse) = .ok keys) : keys.length = a.length := by
  induction a generalizing keys with
  | nil =>
    obtain rfl := Except.ok.inj h
    rfl
  | cons v a ih =>
    rw [List.mapM_cons] at h
    obtain ⟨k, -, h⟩ := bind_eq_ok.mp h
    obtain ⟨keys', hrest, h⟩ := bind_eq_ok.mp h
    obtain rfl := Except.ok.inj h
    rw [List.length_cons, List.length_cons, ih hrest]

/-! ## What lies where -/

section Layout

variable (read : List UInt8 → Result (Value × ℕ)) (lim : AllocLimits) (buf : List UInt8)

/-- The value `v` is read at the offset `p` and ends at `q`. -/
def At (p : ℕ) (v : Value) (q : ℕ) : Prop :=
  p ≤ buf.length ∧ ∃ n, read (buf.drop p) = .ok (v, n) ∧ q = p + n

def EntryAt (p : ℕ) (e : String × Value) (q : ℕ) : Prop :=
  ∃ k m, At read buf p k m ∧ keyOf .objectKey k = .ok e.1 ∧ At read buf m e.2 q

def CellAt (p : ℕ) (v : Value) (q : ℕ) : Prop :=
  if buf[p]? = some Tag.skip.byte then v = .null ∧ q = p + 1 else At read buf p v q

/-- A row of a template with `width` keys. -/
def RowAt (width p : ℕ) (row : List Value) (q : ℕ) : Prop :=
  width ≤ lim.vecValue ∧ row.length = width ∧ Tiles (CellAt read buf) p row q

variable {read lim buf}

section Members

variable {P : Value → Prop} (hpart : ∀ p v q, At read buf p v q → P v) {p q : ℕ}

include hpart

theorem values_of_entries {entries : List (String × Value)}
    (h : Tiles (EntryAt read buf) p entries q) : ∀ e ∈ IndexMap.extend [] entries, P e.2 := by
  intro e he
  obtain hnil | he := IndexMap.mem_extend he
  · cases hnil
  · refine h.forall_mem (P := fun e => P e.2) ?_ e he
    rintro p e q ⟨k, m, -, -, hv⟩
    exact hpart m e.2 q hv

theorem values_of_rows (hnull : P .null) {width : ℕ} {rows : List (List Value)}
    (h : Tiles (RowAt read lim buf width) p rows q) : ∀ row ∈ rows, ∀ v ∈ row, P v := by
  refine h.forall_mem ?_
  rintro p row q ⟨-, -, hcells⟩
  refine hcells.forall_mem fun p v q hcell => ?_
  unfold CellAt at hcell
  split_ifs at hcell
  · rw [hcell.1]
    exact hnull
  · exact hpart p v q hcell

end Members

theorem read_sliceFrom_eq_ok {p n : ℕ} {v : Value} :
    (sliceFrom buf p >>= read) = .ok (v, n) ↔ p ≤ buf.length ∧ read (buf.drop p) = .ok (v, n) := by
  constructor
  · intro h
    obtain ⟨s, hs, hr⟩ := bind_eq_ok.mp h
    obtain ⟨hle, rfl⟩ := sliceFrom_eq_ok hs
    exact ⟨hle, hr⟩
  · rintro ⟨hle, hr⟩
    rw [sliceFrom_of_le hle]
    exact hr

theorem readItems_eq_ok {count p q : ℕ} {items : List Value} :
    readItems read buf count p = .ok (items, q) ↔
      items.length = count ∧ Tiles (At read buf) p items q := by
  induction count generalizing p items with
  | zero =>
    rw [List.length_eq_zero_iff]
    constructor
    · intro h
      obtain ⟨rfl, rfl⟩ := Prod.mk.inj (Except.ok.inj h)
      exact ⟨rfl, rfl⟩
    · rintro ⟨rfl, rfl⟩
      rfl
  | succ count ih =>
    simp only [readItems, ← bind_assoc]
    constructor
    · intro h
      obtain ⟨⟨v, c⟩, hv, h⟩ := bind_eq_ok.mp h
      obtain ⟨⟨items', q'⟩, hrest, he⟩ := bind_eq_ok.mp h
      obtain ⟨rfl, rfl⟩ := Prod.mk.inj (Except.ok.inj he)
      obtain ⟨hlen, htiles⟩ := ih.mp hrest
      obtain ⟨hp, hv⟩ := read_sliceFrom_eq_ok.mp hv
      exact ⟨by rw [List.length_cons, hlen], _, ⟨hp, c, hv, rfl⟩, htiles⟩
    · rintro ⟨hlen, htiles⟩
      cases items with
      | nil => cases hlen
      | cons v items =>
        obtain ⟨-, ⟨hp, c, hv, rfl⟩, hrest⟩ := htiles
        rw [read_sliceFrom_eq_ok.mpr ⟨hp, hv⟩, ok_bind,
          ih.mpr ⟨Nat.succ.inj hlen, hrest⟩]
        rfl

theorem readEntries_eq_ok {count p q : ℕ} {obj obj' : List (String × Value)} :
    readEntries read buf count p obj = .ok (obj', q) ↔
      ∃ entries, entries.length = count ∧ Tiles (EntryAt read buf) p entries q ∧
        obj' = IndexMap.extend obj entries := by
  induction count generalizing p obj with
  | zero =>
    constructor
    · intro h
      obtain ⟨rfl, rfl⟩ := Prod.mk.inj (Except.ok.inj h)
      exact ⟨[], rfl, rfl, rfl⟩
    · rintro ⟨entries, hlen, htiles, rfl⟩
      obtain rfl := List.length_eq_zero_iff.mp hlen
      obtain rfl := htiles
      rfl
  | succ count ih =>
    simp only [readEntries, ← bind_assoc]
    constructor
    · intro h
      obtain ⟨⟨k, kc⟩, hk, h⟩ := bind_eq_ok.mp h
      obtain ⟨key, hkey, h⟩ := bind_eq_ok.mp h
      obtain ⟨⟨v, vc⟩, hv, hrest⟩ := bind_eq_ok.mp h
      obtain ⟨entries, hlen, htiles, rfl⟩ := ih.mp hrest
      obtain ⟨hp, hk⟩ := read_sliceFrom_eq_ok.mp hk
      obtain ⟨hm, hv⟩ := read_sliceFrom_eq_ok.mp hv
      refine ⟨(key, v) :: entries, by rw [List.length_cons, hlen], ⟨_, ?_, htiles⟩, ?_⟩
      · exact ⟨k, _, ⟨hp, kc, hk, rfl⟩, hkey, hm, vc, hv, rfl⟩
      · rw [indexInsert_eq]
        rfl
    · rintro ⟨entries, hlen, htiles, rfl⟩
      cases entries with
      | nil => cases hlen
      | cons e entries =>
        obtain ⟨m, ⟨k, m', ⟨hp, kc, hk, rfl⟩, hkey, ⟨hm, vc, hv, rfl⟩⟩, hrest⟩ := htiles
        rw [read_sliceFrom_eq_ok.mpr ⟨hp, hk⟩, ok_bind, hkey, ok_bind,
          read_sliceFrom_eq_ok.mpr ⟨hm, hv⟩, ok_bind, indexInsert_eq]
        exact ih.mpr ⟨entries, Nat.succ.inj hlen, hrest, rfl⟩

theorem readCells_eq_ok {count p q : ℕ} {cells : List Value} :
    readCells read buf count p = .ok (cells, q) ↔
      cells.length = count ∧ Tiles (CellAt read buf) p cells q := by
  induction count generalizing p cells with
  | zero =>
    rw [List.length_eq_zero_iff]
    constructor
    · intro h
      obtain ⟨rfl, rfl⟩ := Prod.mk.inj (Except.ok.inj h)
      exact ⟨rfl, rfl⟩
    · rintro ⟨rfl, rfl⟩
      rfl
  | succ count ih =>
    simp only [readCells, ← bind_assoc]
    constructor
    · intro h
      split_ifs at h with hskip
      · obtain ⟨⟨cells', q'⟩, hrest, he⟩ := bind_eq_ok.mp h
        obtain ⟨rfl, rfl⟩ := Prod.mk.inj (Except.ok.inj he)
        obtain ⟨hlen, htiles⟩ := ih.mp hrest
        exact ⟨by rw [List.length_cons, hlen], _, (if_pos hskip).mpr ⟨rfl, rfl⟩, htiles⟩
      · obtain ⟨⟨v, c⟩, hv, h⟩ := bind_eq_ok.mp h
        obtain ⟨⟨cells', q'⟩, hrest, he⟩ := bind_eq_ok.mp h
        obtain ⟨rfl, rfl⟩ := Prod.mk.inj (Except.ok.inj he)
        obtain ⟨hlen, htiles⟩ := ih.mp hrest
        obtain ⟨hp, hv⟩ := read_sliceFrom_eq_ok.mp hv
        exact ⟨by rw [List.length_cons, hlen], _, (if_neg hskip).mpr ⟨hp, c, hv, rfl⟩, htiles⟩
    · rintro ⟨hlen, htiles⟩
      cases cells with
      | nil => cases hlen
      | cons v cells =>
        obtain ⟨m, hcell, hrest⟩ := htiles
        have hrest := ih.mpr ⟨Nat.succ.inj hlen, hrest⟩
        unfold CellAt at hcell
        split_ifs at hcell ⊢ with hskip
        · obtain ⟨rfl, rfl⟩ := hcell
          rw [hrest]
          rfl
        · obtain ⟨hp, c, hv, rfl⟩ := hcell
          rw [read_sliceFrom_eq_ok.mpr ⟨hp, hv⟩, ok_bind, hrest]
          rfl

theorem readRows_eq_ok {width count p q : ℕ} {rows : List (List Value)} :
    readRows read lim buf width count p = .ok (rows, q) ↔
      rows.length = count ∧ Tiles (RowAt read lim buf width) p rows q := by
  induction count generalizing p rows with
  | zero =>
    rw [List.length_eq_zero_iff]
    constructor
    · intro h
      obtain ⟨rfl, rfl⟩ := Prod.mk.inj (Except.ok.inj h)
      exact ⟨rfl, rfl⟩
    · rintro ⟨rfl, rfl⟩
      rfl
  | succ count ih =>
    rw [readRows]
    constructor
    · intro h
      obtain ⟨u, hw, h⟩ := bind_eq_ok.mp h
      obtain ⟨⟨row, m⟩, hrow, h⟩ := bind_eq_ok.mp h
      obtain ⟨⟨rows', q'⟩, hrest, he⟩ := bind_eq_ok.mp h
      obtain ⟨rfl, rfl⟩ := Prod.mk.inj (Except.ok.inj he)
      obtain ⟨hlen, htiles⟩ := ih.mp hrest
      exact ⟨by rw [List.length_cons, hlen], m,
        ⟨withCapacity_eq_ok.mp hw, readCells_eq_ok.mp hrow⟩, htiles⟩
    · rintro ⟨hlen, htiles⟩
      cases rows with
      | nil => cases hlen
      | cons row rows =>
        obtain ⟨m, ⟨hw, hrow⟩, hrest⟩ := htiles
        simp only [withCapacity_of_le hw, ok_bind, readCells_eq_ok.mpr hrow,
          ih.mpr ⟨Nat.succ.inj hlen, hrest⟩]
        rfl

variable (read lim)

/-- The slices `read_value` accepts, with the value at the front and its extent. -/
inductive Layout : List UInt8 → Value → ℕ → Prop
  | null (rest : List UInt8) : Layout (Tag.null.byte :: rest) .null 1
  | true (rest : List UInt8) : Layout (Tag.true.byte :: rest) (.bool true) 1
  | false (rest : List UInt8) : Layout (Tag.false.byte :: rest) (.bool false) 1
  | int {buf : List UInt8} {m : ℤ} {c : ℕ} (hm : readInt buf = .ok (m, c)) :
      Layout buf (.int (Int64.ofInt m)) c
  | real {rest : List UInt8} (hlen : 9 ≤ (Tag.real.byte :: rest).length) :
      Layout (Tag.real.byte :: rest) (.real (UInt64.ofNat (leNat (rest.take 8)))) 9
  | text {t : Tag} {rest : List UInt8} {len : ℤ} {lenlen stop : ℕ} (ht : t = .string ∨ t = .utf8)
      (hl : readInt rest = .ok (len, lenlen)) (hstop : stop = usizeAdd (1 + lenlen) (asUsize len))
      (hstart : 1 + lenlen ≤ stop) (hend : stop ≤ (t.byte :: rest).length) :
      Layout (t.byte :: rest)
        (stringOfSlice (((t.byte :: rest).drop (1 + lenlen)).take (stop - (1 + lenlen)))) stop
  | array {rest : List UInt8} {count : ℤ} {clen n : ℕ} {items : List Value}
      (hc : readInt rest = .ok (count, clen)) (hcap : count.toNat ≤ lim.vecValue)
      (hlen : items.length = count.toNat)
      (hitems : Tiles (At read (Tag.array.byte :: rest)) (1 + clen) items n) :
      Layout (Tag.array.byte :: rest) (.array items) n
  | object {rest : List UInt8} {count : ℤ} {clen n : ℕ} {entries : List (String × Value)}
      (hc : readInt rest = .ok (count, clen)) (hcap : count.toNat ≤ lim.indexMap)
      (hlen : entries.length = count.toNat)
      (hentries : Tiles (EntryAt read (Tag.object.byte :: rest)) (1 + clen) entries n) :
      Layout (Tag.object.byte :: rest) (.object (IndexMap.extend [] entries)) n
  | template {rest : List UInt8} {a : List Value} {keys : List String} {count : ℤ}
      {kc clen n : ℕ} {rows : List (List Value)}
      (ha : read rest = .ok (.array a, kc)) (hkeys : a.mapM (keyOf .templateKey) = .ok keys)
      (hkc : 1 + kc ≤ (Tag.template.byte :: rest).length)
      (hc : readInt ((Tag.template.byte :: rest).drop (1 + kc)) = .ok (count, clen))
      (hcap : count.toNat ≤ lim.vecRow) (hlen : rows.length = count.toNat)
      (hrows : Tiles (RowAt read lim (Tag.template.byte :: rest) keys.length) (1 + kc + clen)
        rows n) :
      Layout (Tag.template.byte :: rest) (.template keys rows) n

variable {read lim}

theorem Layout.of_readValueStep {v : Value} {n : ℕ}
    (h : readValueStep read lim buf = .ok (v, n)) : Layout read lim buf v n := by
  cases buf with
  | nil => simp [readValueStep] at h
  | cons b rest =>
    rw [readValueStep] at h
    cases htag : Tag.ofByte b with
    | none => simp [htag] at h
    | some t =>
      obtain rfl := Tag.ofByte_eq_some.mp htag
      cases t <;> simp only [htag] at h
      case null | true | false =>
        obtain ⟨rfl, rfl⟩ := Prod.mk.inj (Except.ok.inj h)
        constructor
      case int8 | int16 | int32 | int64 =>
        obtain ⟨⟨m, c⟩, hm, he⟩ := bind_eq_ok.mp h
        obtain ⟨rfl, rfl⟩ := Prod.mk.inj (Except.ok.inj he)
        exact .int hm
      case real =>
        obtain ⟨u, hneed, he⟩ := bind_eq_ok.mp h
        obtain ⟨rfl, rfl⟩ := Prod.mk.inj (Except.ok.inj he)
        exact .real (need_eq_ok.mp hneed)
      case string | utf8 =>
        obtain ⟨⟨len, lenlen⟩, hl, h⟩ := bind_eq_ok.mp h
        obtain ⟨u, hneed, h⟩ := bind_eq_ok.mp h
        obtain ⟨slice, hslice, he⟩ := bind_eq_ok.mp h
        obtain ⟨rfl, rfl⟩ := Prod.mk.inj (Except.ok.inj he)
        obtain ⟨hstart, hend, rfl⟩ := sliceRange_eq_ok hslice
        exact .text (by simp) hl rfl hstart hend
      case array =>
        obtain ⟨⟨count, clen⟩, hc, h⟩ := bind_eq_ok.mp h
        obtain ⟨u, hcap, h⟩ := bind_eq_ok.mp h
        obtain ⟨⟨items, p⟩, hitems, he⟩ := bind_eq_ok.mp h
        obtain ⟨rfl, rfl⟩ := Prod.mk.inj (Except.ok.inj he)
        obtain ⟨hlen, htiles⟩ := readItems_eq_ok.mp hitems
        exact .array hc (withCapacity_eq_ok.mp hcap) hlen htiles
      case object =>
        obtain ⟨⟨count, clen⟩, hc, h⟩ := bind_eq_ok.mp h
        obtain ⟨u, hcap, h⟩ := bind_eq_ok.mp h
        obtain ⟨⟨obj, p⟩, hobj, he⟩ := bind_eq_ok.mp h
        obtain ⟨rfl, rfl⟩ := Prod.mk.inj (Except.ok.inj he)
        obtain ⟨entries, hlen, htiles, rfl⟩ := readEntries_eq_ok.mp hobj
        exact .object hc (withCapacity_eq_ok.mp hcap) hlen htiles
      case template =>
        obtain ⟨⟨keysVal, kc⟩, ha, h⟩ := bind_eq_ok.mp h
        cases keysVal <;> simp only [reduceCtorEq] at h
        case array a =>
          obtain ⟨keys, hkeys, h⟩ := bind_eq_ok.mp h
          obtain ⟨s, hs, h⟩ := bind_eq_ok.mp h
          obtain ⟨⟨count, clen⟩, hc, h⟩ := bind_eq_ok.mp h
          obtain ⟨u, hcap, h⟩ := bind_eq_ok.mp h
          obtain ⟨⟨rows, p⟩, hrows, he⟩ := bind_eq_ok.mp h
          obtain ⟨rfl, rfl⟩ := Prod.mk.inj (Except.ok.inj he)
          obtain ⟨hkc, rfl⟩ := sliceFrom_eq_ok hs
          obtain ⟨hlen, htiles⟩ := readRows_eq_ok.mp hrows
          exact .template ha hkeys hkc hc (withCapacity_eq_ok.mp hcap) hlen htiles
      case skip => simp at h

theorem Layout.readValueStep {v : Value} {n : ℕ} (h : Layout read lim buf v n) :
    readValueStep read lim buf = .ok (v, n) := by
  cases h with
  | null | true | false => rw [Bser.readValueStep, Tag.ofByte_byte]
  | int hm =>
    obtain ⟨t, rest, rfl, ht⟩ := readInt_eq_ok_tag hm
    obtain rfl | rfl | rfl | rfl := ht <;> rw [Bser.readValueStep, Tag.ofByte_byte] <;>
      simp only [hm] <;> rfl
  | real hlen =>
    rw [Bser.readValueStep, Tag.ofByte_byte]
    simp only [need_eq_ok.mpr hlen]
    rfl
  | text ht hl hstop hstart hend =>
    obtain rfl | rfl := ht <;> rw [Bser.readValueStep, Tag.ofByte_byte] <;>
      simp only [hl, ok_bind, ← hstop, need_eq_ok.mpr hend, sliceRange_of_le hstart hend] <;> rfl
  | array hc hcap hlen hitems =>
    rw [Bser.readValueStep, Tag.ofByte_byte]
    simp only [hc, ok_bind, withCapacity_of_le hcap, readItems_eq_ok.mpr ⟨hlen, hitems⟩]
    rfl
  | object hc hcap hlen hentries =>
    rw [Bser.readValueStep, Tag.ofByte_byte]
    simp only [hc, ok_bind, withCapacity_of_le hcap,
      readEntries_eq_ok.mpr ⟨_, hlen, hentries, rfl⟩]
    rfl
  | template ha hkeys hkc hc hcap hlen hrows =>
    rw [Bser.readValueStep, Tag.ofByte_byte]
    simp only [ha, ok_bind, hkeys, sliceFrom_of_le hkc, hc, withCapacity_of_le hcap,
      readRows_eq_ok.mpr ⟨hlen, hrows⟩]
    rfl

end Layout
/-! ## The loops -/

section Loops

variable {read read' : List UInt8 → Result (Value × ℕ)} {buf : List UInt8}

theorem read_sliceFrom_congr (h : ∀ s, s.length < buf.length → read s = read' s) {pos : ℕ}
    (hpos : 1 ≤ pos) : (sliceFrom buf pos >>= read) = (sliceFrom buf pos >>= read') := by
  cases hs : sliceFrom buf pos with
  | error e => rfl
  | ok s =>
    obtain ⟨hle, rfl⟩ := sliceFrom_eq_ok hs
    exact h _ (by rw [List.length_drop]; omega)

theorem readItems_congr (h : ∀ s, s.length < buf.length → read s = read' s) (count : ℕ) :
    ∀ pos, 1 ≤ pos → readItems read buf count pos = readItems read' buf count pos := by
  induction count with
  | zero => intro pos _; rfl
  | succ count ih =>
    intro pos hpos
    simp only [readItems, ← bind_assoc]
    rw [read_sliceFrom_congr h hpos]
    refine bind_congr fun x => ?_
    rw [ih _ (by omega)]

theorem readEntries_congr (h : ∀ s, s.length < buf.length → read s = read' s) (count : ℕ) :
    ∀ pos obj, 1 ≤ pos → readEntries read buf count pos obj = readEntries read' buf count pos obj := by
  induction count with
  | zero => intro pos obj _; rfl
  | succ count ih =>
    intro pos obj hpos
    simp only [readEntries, ← bind_assoc]
    rw [read_sliceFrom_congr h hpos]
    refine bind_congr fun x => bind_congr fun key => ?_
    rw [read_sliceFrom_congr h (by omega)]
    refine bind_congr fun y => ?_
    rw [ih _ _ (by omega)]

theorem readCells_congr (h : ∀ s, s.length < buf.length → read s = read' s) (count : ℕ) :
    ∀ pos, 1 ≤ pos → readCells read buf count pos = readCells read' buf count pos := by
  induction count with
  | zero => intro pos _; rfl
  | succ count ih =>
    intro pos hpos
    simp only [readCells, ← bind_assoc]
    rw [read_sliceFrom_congr h hpos, ih _ (by omega)]
    refine if_congr Iff.rfl rfl (bind_congr fun x => ?_)
    rw [ih _ (by omega)]

theorem readCells_le {count pos pos' : ℕ} {cells : List Value}
    (h : readCells read buf count pos = .ok (cells, pos')) : pos ≤ pos' := by
  refine (readCells_eq_ok.mp h).2.le fun p v q hcell => ?_
  unfold CellAt at hcell
  split_ifs at hcell
  · omega
  · obtain ⟨-, n, -, rfl⟩ := hcell
    omega

theorem readRows_congr (lim : AllocLimits) (h : ∀ s, s.length < buf.length → read s = read' s)
    (width count : ℕ) :
    ∀ pos, 1 ≤ pos → readRows read lim buf width count pos = readRows read' lim buf width count pos := by
  induction count with
  | zero => intro pos _; rfl
  | succ count ih =>
    intro pos hpos
    rw [readRows, readRows, readCells_congr h width pos hpos]
    refine bind_congr fun _ => ?_
    cases hc : readCells read' buf width pos with
    | error e => rfl
    | ok x =>
      have hle := readCells_le hc
      simp only [ok_bind]
      rw [ih _ (by omega)]

theorem readValueStep_congr (lim : AllocLimits) (h : ∀ s, s.length < buf.length → read s = read' s) :
    readValueStep read lim buf = readValueStep read' lim buf := by
  cases buf with
  | nil => rfl
  | cons b rest =>
    have hrest : read rest = read' rest := h rest (by simp)
    rw [readValueStep, readValueStep]
    cases htag : Tag.ofByte b with
    | none => rfl
    | some t =>
      cases t <;> try rfl
      · refine bind_congr fun x => bind_congr fun _ => ?_
        rw [readItems_congr h _ _ (by omega)]
      · refine bind_congr fun x => bind_congr fun _ => ?_
        rw [readEntries_congr h _ _ _ (by omega)]
      · simp only [hrest]
        refine bind_congr fun x => ?_
        split
        · refine bind_congr fun keys => bind_congr fun s => bind_congr fun y =>
            bind_congr fun _ => ?_
          rw [readRows_congr lim h _ _ _ (by omega)]
        · rfl

end Loops

/-! ## Fuel -/

theorem readValueF_congr (lim : AllocLimits) (fuel : ℕ) :
    ∀ fuel' buf, buf.length ≤ fuel → buf.length ≤ fuel' →
      readValueF lim fuel buf = readValueF lim fuel' buf := by
  induction fuel with
  | zero =>
    intro fuel' buf h _
    obtain rfl := List.length_eq_zero_iff.mp (Nat.le_zero.mp h)
    cases fuel' <;> rfl
  | succ fuel ih =>
    intro fuel' buf h h'
    cases fuel' with
    | zero =>
      obtain rfl := List.length_eq_zero_iff.mp (Nat.le_zero.mp h')
      rfl
    | succ fuel' =>
      exact readValueStep_congr lim fun s hs => ih fuel' s (by omega) (by omega)

/-- `read_value` unfolds to its body. -/
theorem readValue_eq (lim : AllocLimits) (buf : List UInt8) :
    readValue lim buf = readValueStep (readValue lim) lim buf := by
  unfold readValue
  cases buf with
  | nil => rfl
  | cons b rest =>
    exact readValueStep_congr lim fun s hs =>
      readValueF_congr lim _ _ s (by simpa using Nat.le_of_lt_succ hs) le_rfl

/-! ## Consumption -/

/-- Each value that `read` returns takes at least one byte and no more than its slice has. -/
def Consumes (read : List UInt8 → Result (Value × ℕ)) : Prop :=
  ∀ s v n, read s = .ok (v, n) → 1 ≤ n ∧ n ≤ s.length

section Consumption

variable {read : List UInt8 → Result (Value × ℕ)} (hread : Consumes read) {lim : AllocLimits}
  {buf : List UInt8} {p q : ℕ}

include hread

theorem At.bounds {v : Value} (h : At read buf p v q) : p < q ∧ q ≤ buf.length := by
  obtain ⟨hp, n, hv, rfl⟩ := h
  have := hread _ _ _ hv
  rw [List.length_drop] at this
  omega

theorem read_sliceFrom_le {n : ℕ} {v : Value} (h : (sliceFrom buf p >>= read) = .ok (v, n)) :
    p + n ≤ buf.length := by
  obtain ⟨hp, hv⟩ := read_sliceFrom_eq_ok.mp h
  exact (At.bounds hread ⟨hp, n, hv, rfl⟩).2

theorem EntryAt.bounds {e : String × Value} (h : EntryAt read buf p e q) :
    p < q ∧ q ≤ buf.length := by
  obtain ⟨k, m, hk, -, hv⟩ := h
  have := hk.bounds hread
  have := hv.bounds hread
  omega

theorem CellAt.bounds {v : Value} (h : CellAt read buf p v q) : p < q ∧ q ≤ buf.length := by
  unfold CellAt at h
  split_ifs at h with hskip
  · have := (List.getElem?_eq_some_iff.mp hskip).1
    omega
  · exact h.bounds hread

theorem RowAt.width_le {width : ℕ} {row : List Value} (h : RowAt read lim buf width p row q) :
    p + width ≤ q := by
  obtain ⟨-, rfl, hcells⟩ := h
  exact hcells.length_le fun _ _ _ hc => (hc.bounds hread).1

theorem RowAt.le {width : ℕ} {row : List Value} (h : RowAt read lim buf width p row q) : p ≤ q :=
  Nat.le_of_add_right_le (h.width_le hread)

theorem RowAt.end_le {width : ℕ} {row : List Value} (h : RowAt read lim buf width p row q)
    (hp : p ≤ buf.length) : q ≤ buf.length :=
  h.2.2.preserves (fun _ _ _ _ hc => (hc.bounds hread).2) hp

theorem Layout.bounds {v : Value} {n : ℕ} (h : Layout read lim buf v n) :
    1 ≤ n ∧ n ≤ buf.length := by
  -- a count behind the tag ends inside the slice, and so do the parts that follow it
  have hfield : ∀ {b : UInt8} {rest : List UInt8} {x : ℤ} {c : ℕ}, readInt rest = .ok (x, c) →
      1 + c ≤ (b :: rest).length := fun hx => by
    have := (readInt_eq_ok hx).2.2.1
    rw [List.length_cons]
    omega
  cases h with
  | null | true | false => exact ⟨le_rfl, by simp⟩
  | int hm =>
    have := readInt_eq_ok hm
    omega
  | real hlen => exact ⟨by omega, hlen⟩
  | text ht hl hstop hstart hend => exact ⟨by omega, hend⟩
  | array hc hcap hlen hitems =>
    have hle := hitems.le fun _ _ _ hv => (hv.bounds hread).1.le
    exact ⟨by omega, hitems.preserves (fun _ _ _ _ hv => (hv.bounds hread).2) (hfield hc)⟩
  | object hc hcap hlen hentries =>
    have hle := hentries.le fun _ _ _ he => (he.bounds hread).1.le
    exact ⟨by omega, hentries.preserves (fun _ _ _ _ he => (he.bounds hread).2) (hfield hc)⟩
  | template ha hkeys hkc hc hcap hlen hrows =>
    have hcount := (readInt_eq_ok hc).2.2.1
    rw [List.length_drop] at hcount
    have hle := hrows.le fun _ _ _ hr => hr.le hread
    exact ⟨by omega, hrows.preserves (fun _ _ _ hp hr => hr.end_le hread hp) (by omega)⟩

theorem readValueStep_consumes (lim : AllocLimits) : Consumes (readValueStep read lim) :=
  fun _ _ _ h => (Layout.of_readValueStep h).bounds hread

end Consumption

theorem readValueF_consumes (lim : AllocLimits) (fuel : ℕ) : Consumes (readValueF lim fuel) := by
  induction fuel with
  | zero => intro s v n h; simp [readValueF] at h
  | succ fuel ih => exact readValueStep_consumes ih lim

theorem readValue_consumed (lim : AllocLimits) : Consumes (readValue lim) :=
  fun s v n h => readValueF_consumes lim s.length s v n h

/-! ## The stack -/

/-- The first reader does what the second one does, unless its stack overflows. -/
def UpToStack {α : Type} (x y : Result α) : Prop :=
  x = y ∨ x = .error (.panic .stackOverflow)

theorem UpToStack.bind {α β : Type} {x y : Result α} {f g : α → Result β} (h : UpToStack x y)
    (hf : ∀ a, UpToStack (f a) (g a)) : UpToStack (x >>= f) (y >>= g) := by
  rcases h with rfl | rfl
  · cases x with
    | error e => exact .inl rfl
    | ok a => exact hf a
  · exact .inr rfl

section Stack

variable {read read' : List UInt8 → Result (Value × ℕ)} (h : ∀ s, UpToStack (read s) (read' s))
  {lim : AllocLimits} {buf : List UInt8}

include h

theorem readItems_upToStack (count pos : ℕ) :
    UpToStack (readItems read buf count pos) (readItems read' buf count pos) := by
  induction count generalizing pos with
  | zero => exact .inl rfl
  | succ count ih =>
    rw [readItems, readItems]
    refine .bind (.inl rfl) fun s => .bind (h s) fun x => ?_
    exact .bind (ih _) fun _ => .inl rfl

theorem readEntries_upToStack (count pos : ℕ) (obj : List (String × Value)) :
    UpToStack (readEntries read buf count pos obj) (readEntries read' buf count pos obj) := by
  induction count generalizing pos obj with
  | zero => exact .inl rfl
  | succ count ih =>
    rw [readEntries, readEntries]
    refine .bind (.inl rfl) fun s => .bind (h s) fun x => .bind (.inl rfl) fun key => ?_
    exact .bind (.inl rfl) fun s' => .bind (h s') fun y => ih _ _

theorem readCells_upToStack (count pos : ℕ) :
    UpToStack (readCells read buf count pos) (readCells read' buf count pos) := by
  induction count generalizing pos with
  | zero => exact .inl rfl
  | succ count ih =>
    rw [readCells, readCells]
    split_ifs
    · exact .bind (ih _) fun _ => .inl rfl
    · refine .bind (.inl rfl) fun s => .bind (h s) fun x => ?_
      exact .bind (ih _) fun _ => .inl rfl

theorem readRows_upToStack (width count pos : ℕ) :
    UpToStack (readRows read lim buf width count pos)
      (readRows read' lim buf width count pos) := by
  induction count generalizing pos with
  | zero => exact .inl rfl
  | succ count ih =>
    rw [readRows, readRows]
    refine .bind (.inl rfl) fun _ => .bind (readCells_upToStack h width pos) fun x => ?_
    exact .bind (ih _) fun _ => .inl rfl

theorem readValueStep_upToStack :
    UpToStack (readValueStep read lim buf) (readValueStep read' lim buf) := by
  cases buf with
  | nil => exact .inl rfl
  | cons b rest =>
    rw [readValueStep, readValueStep]
    cases Tag.ofByte b with
    | none => exact .inl rfl
    | some t =>
      cases t
      case array =>
        refine .bind (.inl rfl) fun x => .bind (.inl rfl) fun _ => ?_
        exact .bind (readItems_upToStack h _ _) fun _ => .inl rfl
      case object =>
        refine .bind (.inl rfl) fun x => .bind (.inl rfl) fun _ => ?_
        exact .bind (readEntries_upToStack h _ _ _) fun _ => .inl rfl
      case template =>
        refine .bind (h rest) fun x => ?_
        dsimp only
        split
        · refine .bind (.inl rfl) fun keys => .bind (.inl rfl) fun s => .bind (.inl rfl) fun y => ?_
          refine .bind (.inl rfl) fun _ => ?_
          exact .bind (readRows_upToStack h _ _ _) fun _ => .inl rfl
        · exact .inl rfl
      all_goals exact .inl rfl

end Stack

theorem readValueOn_cases (lim : AllocLimits) (depth : ℕ) (buf : List UInt8) :
    UpToStack (readValueOn lim depth buf) (readValue lim buf) := by
  induction depth generalizing buf with
  | zero => exact .inr rfl
  | succ depth ih =>
    rw [readValue_eq]
    exact readValueStep_upToStack ih

theorem readValueOn_consumes (lim : AllocLimits) (depth : ℕ) :
    Consumes (readValueOn lim depth) := by
  intro s v n h
  rcases readValueOn_cases lim depth s with hsame | hoverflow
  · exact readValue_consumed lim s v n (hsame.symm.trans h)
  · cases hoverflow.symm.trans h

/-! ## Induction over what is accepted -/

theorem readValue_induct {lim : AllocLimits} {P : List UInt8 → Value → ℕ → Prop}
    (hstep : ∀ read, Consumes read → (∀ s v n, read s = .ok (v, n) → P s v n) →
      ∀ s v n, Layout read lim s v n → P s v n)
    {s : List UInt8} {v : Value} {n : ℕ} (h : readValue lim s = .ok (v, n)) : P s v n := by
  have hfuel : ∀ fuel s v n, readValueF lim fuel s = .ok (v, n) → P s v n := by
    intro fuel
    induction fuel with
    | zero => intro s v n h; simp [readValueF] at h
    | succ fuel ih =>
      intro s v n h
      exact hstep _ (readValueF_consumes lim fuel) ih s v n (Layout.of_readValueStep h)
  exact hfuel s.length s v n h

section All

variable {read : List UInt8 → Result (Value × ℕ)} {lim : AllocLimits} {P : Value → Prop}
  (hread : ∀ s v n, read s = .ok (v, n) → v.All P)

include hread

theorem At.all {buf : List UInt8} {p q : ℕ} {v : Value} (h : At read buf p v q) : v.All P := by
  obtain ⟨-, n, hv, -⟩ := h
  exact hread _ _ _ hv

theorem Layout.all {buf : List UInt8} {v : Value} {n : ℕ} (hnull : P .null)
    (h : Layout read lim buf v n) (hv : P v) : v.All P := by
  cases h with
  | null | true | false | int hm | real hlen => exact hv
  | text ht hl hstop hstart hend =>
    unfold stringOfSlice at hv ⊢
    split at hv <;> exact hv
  | array hc hcap hlen hitems =>
    exact Value.all_array.mpr ⟨hv, hitems.forall_mem fun _ _ _ hi => hi.all hread⟩
  | object hc hcap hlen hentries =>
    exact Value.all_object.mpr ⟨hv, values_of_entries (fun _ _ _ hi => hi.all hread) hentries⟩
  | template ha hkeys hkc hc hcap hlen hrows =>
    exact Value.all_template.mpr ⟨hv, values_of_rows (fun _ _ _ hi => hi.all hread) hnull hrows⟩

end All

/-! ## PDUs -/

theorem asUsize_lt (n : ℤ) : asUsize n < 2 ^ 64 := by
  unfold asUsize
  omega

theorem usizeAdd_of_le {start size : ℕ} (hsize : size < 2 ^ 64) (h : start ≤ usizeAdd start size) :
    usizeAdd start size = start + size := by
  unfold usizeAdd at h ⊢
  omega

/-- Where the payload of a decoded PDU lies. -/
theorem decodePdu_eq_ok {lim : AllocLimits} {b : List UInt8} {v : Value} {n : ℕ}
    (h : decodePdu lim b = .ok (v, n)) :
    ∃ header len size, headerLen b = .ok header ∧ readInt (b.drop header) = .ok (len, size) ∧
      n = header + size + asUsize len ∧ n ≤ b.length ∧
      readValue lim ((b.drop (header + size)).take (asUsize len)) = .ok (v, asUsize len) := by
  obtain ⟨header, hheader, h⟩ := bind_eq_ok.mp h
  obtain ⟨s, hs, h⟩ := bind_eq_ok.mp h
  obtain ⟨-, rfl⟩ := sliceFrom_eq_ok hs
  obtain ⟨⟨len, size⟩, hint, h⟩ := bind_eq_ok.mp h
  obtain ⟨u, -, h⟩ := bind_eq_ok.mp h
  obtain ⟨payload, hpayload, h⟩ := bind_eq_ok.mp h
  obtain ⟨hstart, hend, rfl⟩ := sliceRange_eq_ok hpayload
  obtain ⟨⟨value, consumed⟩, hvalue, h⟩ := bind_eq_ok.mp h
  have hstop := usizeAdd_of_le (asUsize_lt len) hstart
  by_cases hlen : consumed = asUsize len
  · have hok := (if_pos hlen).symm.trans h
    obtain ⟨rfl, rfl⟩ := Prod.mk.inj (Except.ok.inj hok)
    rw [hstop, Nat.add_sub_cancel_left, hlen] at hvalue
    exact ⟨header, len, size, hheader, hint, hstop, hend, hvalue⟩
  · cases (if_neg hlen).symm.trans h

end Watchwoman.Bser
