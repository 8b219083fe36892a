import Watchwoman.Protocol.BserReader

/-!
# Decoding undoes encoding

The reader, put at the front of what the writer wrote for a value, returns the value and the bytes
that were written, whatever bytes follow. The only thing the wire forgets is whether a payload that
is valid UTF-8 was a `String` or a `Bytes` (`norm`); a null cell of a template row travels as a SKIP
tag and comes back a null.

The loops of the reader are related to the loops of the writer through one predicate, `Reads`, so
that the induction over the value is one step per constructor.
-/

namespace Watchwoman.Bser

open Fallible LittleEndian

/-! ## What the wire keeps -/

mutual

/-- The value with each byte payload that is valid UTF-8 replaced by the string of those bytes. -/
def norm : Value → Value
  | .bytes b => stringOfSlice b
  | .array a => .array (normItems a)
  | .object o => .object (normEntries o)
  | .template keys rows => .template keys (normRows rows)
  | v => v

def normItems : List Value → List Value
  | [] => []
  | v :: vs => norm v :: normItems vs

def normEntries : List (String × Value) → List (String × Value)
  | [] => []
  | (k, v) :: o => (k, norm v) :: normEntries o

def normRows : List (List Value) → List (List Value)
  | [] => []
  | row :: rows => normItems row :: normRows rows

end

theorem normItems_eq (a : List Value) : normItems a = a.map norm := by
  induction a with
  | nil => rfl
  | cons v vs ih => rw [normItems, ih, List.map_cons]

theorem normEntries_eq (o : List (String × Value)) :
    normEntries o = o.map (fun kv => (kv.1, norm kv.2)) := by
  induction o with
  | nil => rfl
  | cons kv o ih => rw [normEntries, ih, List.map_cons]

theorem normRows_eq (rows : List (List Value)) : normRows rows = rows.map (List.map norm) := by
  induction rows with
  | nil => rfl
  | cons row rows ih => rw [normRows, ih, normItems_eq, List.map_cons]

/-! ## The writer's loops -/

def writeCell : Value → List UInt8
  | .null => [Tag.skip.byte]
  | v => writeValue v

def writeEntry (kv : String × Value) : List UInt8 :=
  writeBytes (Utf8.bytesOf kv.1) ++ writeValue kv.2

theorem writeItems_eq (a : List Value) : writeItems a = a.flatMap writeValue := by
  induction a with
  | nil => rfl
  | cons v vs ih => rw [writeItems, ih, List.flatMap_cons]

theorem writeEntries_eq (o : List (String × Value)) : writeEntries o = o.flatMap writeEntry := by
  induction o with
  | nil => rfl
  | cons kv o ih => rw [writeEntries, ih, List.flatMap_cons, writeEntry, List.append_assoc]

theorem writeCells_eq (row : List Value) : writeCells row = row.flatMap writeCell := by
  induction row with
  | nil => rfl
  | cons v vs ih =>
    rw [List.flatMap_cons, ← ih]
    cases v <;> rfl

theorem writeRows_eq (rows : List (List Value)) : writeRows rows = rows.flatMap writeCells := by
  induction rows with
  | nil => rfl
  | cons row rows ih => rw [writeRows, ih, List.flatMap_cons]

/-! ## Integers -/

theorem asI64_of_lt {n : ℕ} (h : n < 2 ^ 63) : asI64 n = n := by
  unfold asI64
  exact Int.bmod_eq_of_le_mul_two (by omega) (by omega)

theorem asUsize_natCast {n : ℕ} (h : n < 2 ^ 64) : asUsize n = n := by
  unfold asUsize
  omega

/-- A field of `w` bytes behind its tag is read back. -/
theorem readInt_field {t : Tag} {w : ℕ} {n : ℤ} (ht : intWidth t.byte = some w)
    (hlo : -(256 ^ w : ℕ) ≤ 2 * n) (hhi : 2 * n < (256 ^ w : ℕ)) (r : List UInt8) :
    readInt (t.byte :: signedBytes w n ++ r) = .ok (n, 1 + w) := by
  have htake : ((t.byte :: signedBytes w n ++ r).drop 1).take w = signedBytes w n := by
    rw [List.cons_append, List.drop_one, List.tail_cons]
    exact List.take_left' (length_signedBytes w n)
  obtain hshort | ⟨-, h⟩ := readIntField_cases (t.byte :: signedBytes w n ++ r) w
  · unfold readIntField at hshort
    rw [need_eq_ok.mpr (by simp; omega)] at hshort
    simp [pure, Except.pure] at hshort
  · rw [htake, signedInt_signedBytes hlo hhi] at h
    rw [List.cons_append] at h ⊢
    simp only [readInt, ht]
    exact h

/-- `read_int` undoes `write_int` at each of the four widths. -/
theorem readInt_writeInt {n : ℤ} (hlo : -2 ^ 63 ≤ n) (hhi : n < 2 ^ 63) (r : List UInt8) :
    readInt (writeInt n ++ r) = .ok (n, (writeInt n).length) := by
  unfold writeInt
  split_ifs with h8 h16 h32
  · rw [readInt_field (by decide) (by omega) (by omega)]; rfl
  · rw [readInt_field (by decide) (by omega) (by omega)]; rfl
  · rw [readInt_field (by decide) (by omega) (by omega)]; rfl
  · rw [readInt_field (by decide) (by omega) (by omega)]; rfl

/-- A count or length below `2 ^ 63` is read back as itself. -/
theorem readInt_writeInt_asI64 {n : ℕ} (h : n < 2 ^ 63) (r : List UInt8) :
    readInt (writeInt (asI64 n) ++ r) = .ok ((n : ℤ), (writeInt (asI64 n)).length) := by
  rw [asI64_of_lt h]
  exact readInt_writeInt (by omega) (by omega) r

theorem length_writeInt_le (n : ℤ) : (writeInt n).length ≤ 9 := by
  unfold writeInt
  split_ifs <;> simp

theorem writeInt_eq_cons (n : ℤ) : ∃ t rest, writeInt n = Tag.byte t :: rest ∧
    (t = .int8 ∨ t = .int16 ∨ t = .int32 ∨ t = .int64) := by
  unfold writeInt
  split_ifs
  · exact ⟨_, _, rfl, by simp⟩
  · exact ⟨_, _, rfl, by simp⟩
  · exact ⟨_, _, rfl, by simp⟩
  · exact ⟨_, _, rfl, by simp⟩

theorem writeValue_head (v : Value) : ∃ b rest, writeValue v = b :: rest ∧ b ≠ Tag.skip.byte := by
  cases v with
  | null => exact ⟨_, _, rfl, by decide⟩
  | bool b => cases b <;> exact ⟨_, _, rfl, by decide⟩
  | int i =>
    obtain ⟨t, rest, heq, ht⟩ := writeInt_eq_cons i.toInt
    refine ⟨t.byte, rest, heq, ?_⟩
    obtain rfl | rfl | rfl | rfl := ht <;> decide
  | real bits => exact ⟨_, _, rfl, by decide⟩
  | string s => exact ⟨_, _, rfl, by decide⟩
  | bytes b => exact ⟨_, _, rfl, by decide⟩
  | array a => exact ⟨_, _, rfl, by decide⟩
  | object o => exact ⟨_, _, rfl, by decide⟩
  | template keys rows => exact ⟨_, _, rfl, by decide⟩

theorem writeCell_of_ne_null {v : Value} (h : v ≠ .null) : writeCell v = writeValue v := by
  cases v <;> simp_all [writeCell]

theorem length_le_flatMap {α : Type} {f : α → List UInt8} {l : List α} {x : α} (h : x ∈ l) :
    (f x).length ≤ (l.flatMap f).length :=
  (List.sublist_flatten_of_mem (List.mem_map_of_mem h)).length_le

/-! ## The reader's loops -/

/-- Put at the front of `bytes`, `read` returns `v` and the length of `bytes`, whatever follows. -/
def Reads (read : List UInt8 → Result (Value × ℕ)) (bytes : List UInt8) (v : Value) : Prop :=
  ∀ r, read (bytes ++ r) = .ok (v, bytes.length)

section Loops

variable {read : List UInt8 → Result (Value × ℕ)} {α : Type}

theorem Reads.at_offset {bytes : List UInt8} {v : Value} (h : Reads read bytes v)
    (pre r : List UInt8) :
    (sliceFrom (pre ++ (bytes ++ r)) pre.length >>= read) = .ok (v, bytes.length) := by
  rw [sliceFrom_of_le (by simp), List.drop_left, ok_bind]
  exact h r

theorem readItems_flatMap {f : α → List UInt8} {g : α → Value} (l : List α)
    (h : ∀ x ∈ l, Reads read (f x) (g x)) (pre r : List UInt8) :
    readItems read (pre ++ (l.flatMap f ++ r)) l.length pre.length =
      .ok (l.map g, pre.length + (l.flatMap f).length) := by
  induction l generalizing pre with
  | nil => rfl
  | cons x l ih =>
    obtain ⟨hx, hl⟩ := List.forall_mem_cons.mp h
    have hrest := ih hl (pre ++ f x)
    rw [List.append_assoc, List.length_append] at hrest
    rw [List.flatMap_cons, List.append_assoc, List.length_cons, readItems, ← bind_assoc,
      hx.at_offset, ok_bind]
    simp only [hrest, ok_bind, List.map_cons, List.length_append]
    rw [Nat.add_assoc]
    rfl

theorem readEntries_flatMap {fk fv : α → List UInt8} {gk : α → String} {gv : α → Value}
    (l : List α) (hk : ∀ x ∈ l, Reads read (fk x) (.string (gk x)))
    (hv : ∀ x ∈ l, Reads read (fv x) (gv x)) (pre r : List UInt8) (obj : List (String × Value))
    (hnd : (obj.map Prod.fst ++ l.map gk).Nodup) :
    readEntries read (pre ++ (l.flatMap (fun x => fk x ++ fv x) ++ r)) l.length pre.length obj =
      .ok (obj ++ l.map (fun x => (gk x, gv x)),
        pre.length + (l.flatMap (fun x => fk x ++ fv x)).length) := by
  induction l generalizing pre obj with
  | nil => rw [List.map_nil, List.append_nil]; rfl
  | cons x l ih =>
    obtain ⟨hk1, hk⟩ := List.forall_mem_cons.mp hk
    obtain ⟨hv1, hv⟩ := List.forall_mem_cons.mp hv
    -- the key is new, so the entry goes to the end of what was read so far
    have hnew : gk x ∉ obj.map Prod.fst := by
      intro hmem
      exact (List.nodup_append.mp hnd).2.2 _ hmem _ (by simp) rfl
    have hrest := ih hk hv (pre ++ fk x ++ fv x) (indexInsert (gk x) (gv x) obj) (by
      rw [indexInsert_of_not_mem hnew]
      simpa using hnd)
    have hval := hv1.at_offset (pre ++ fk x) (l.flatMap (fun x => fk x ++ fv x) ++ r)
    simp only [List.append_assoc, List.length_append] at hrest hval
    have hkey : keyOf .objectKey (.string (gk x)) = .ok (gk x) := rfl
    rw [List.flatMap_cons, List.length_cons, readEntries, ← bind_assoc]
    simp only [List.append_assoc]
    rw [hk1.at_offset, ok_bind]
    simp only [hkey, ok_bind]
    rw [← bind_assoc, hval, ok_bind]
    simp only [Nat.add_assoc, hrest]
    rw [indexInsert_of_not_mem hnew, List.map_cons, List.append_assoc, List.singleton_append,
      List.length_append, List.length_append]

theorem readCells_flatMap (row : List Value)
    (h : ∀ v ∈ row, Reads read (writeValue v) (norm v)) (pre r : List UInt8) :
    readCells read (pre ++ (row.flatMap writeCell ++ r)) row.length pre.length =
      .ok (row.map norm, pre.length + (row.flatMap writeCell).length) := by
  induction row generalizing pre with
  | nil => rfl
  | cons v row ih =>
    obtain ⟨h1, h⟩ := List.forall_mem_cons.mp h
    have hrest := ih h (pre ++ writeCell v)
    rw [List.append_assoc, List.length_append] at hrest
    rw [List.flatMap_cons, List.append_assoc, List.length_cons, readCells]
    by_cases hnull : v = .null
    · subst hnull
      have hskip : (pre ++ (writeCell .null ++ (row.flatMap writeCell ++ r)))[pre.length]? =
          some Tag.skip.byte := by
        rw [List.getElem?_append_right le_rfl, Nat.sub_self]
        rfl
      have hone : (writeCell .null).length = 1 := rfl
      rw [hone] at hrest
      rw [if_pos hskip, hrest, ok_bind]
      simp only [List.length_append, hone, Nat.add_assoc]
      rfl
    · have hcell := writeCell_of_ne_null hnull
      obtain ⟨b, rest, hb, hne⟩ := writeValue_head v
      have hskip : (pre ++ (writeCell v ++ (row.flatMap writeCell ++ r)))[pre.length]? ≠
          some Tag.skip.byte := by
        rw [List.getElem?_append_right le_rfl, Nat.sub_self, hcell, hb]
        simpa using hne
      rw [hcell] at hrest hskip ⊢
      rw [if_neg hskip, ← bind_assoc, h1.at_offset, ok_bind]
      simp only [hrest, ok_bind, List.map_cons, List.length_append, Nat.add_assoc]
      rfl

theorem readRows_flatMap {lim : AllocLimits} {width : ℕ} (hw : width ≤ lim.vecValue)
    (rows : List (List Value)) (hlen : ∀ row ∈ rows, row.length = width)
    (h : ∀ row ∈ rows, ∀ v ∈ row, Reads read (writeValue v) (norm v)) (pre r : List UInt8) :
    readRows read lim (pre ++ (rows.flatMap writeCells ++ r)) width rows.length pre.length =
      .ok (rows.map (List.map norm), pre.length + (rows.flatMap writeCells).length) := by
  induction rows generalizing pre with
  | nil => rfl
  | cons row rows ih =>
    obtain ⟨hlen1, hlen⟩ := List.forall_mem_cons.mp hlen
    obtain ⟨h1, h⟩ := List.forall_mem_cons.mp h
    have hrow := readCells_flatMap row h1 pre (rows.flatMap writeCells ++ r)
    have hrest := ih hlen h (pre ++ writeCells row)
    rw [List.append_assoc, List.length_append] at hrest
    rw [← writeCells_eq, hlen1] at hrow
    rw [List.flatMap_cons, List.append_assoc, List.length_cons, readRows, withCapacity_of_le hw,
      ok_bind, hrow,
      ok_bind]
    simp only [hrest, ok_bind, List.map_cons, List.length_append, Nat.add_assoc]
    rfl

end Loops

/-! ## Values -/

section Values

variable {lim : AllocLimits}

/-- A string tag, a length field that reads as the length of `b`, and `b`. -/
theorem readValue_string_field {li b r : List UInt8} (h : li.length + b.length < 2 ^ 63)
    (hint : readInt (li ++ (b ++ r)) = .ok ((b.length : ℤ), li.length)) :
    readValue lim (Tag.string.byte :: (li ++ b) ++ r) =
      .ok (stringOfSlice b, (Tag.string.byte :: (li ++ b)).length) := by
  rw [readValue_eq, List.cons_append, readValueStep]
  simp only [Tag.ofByte_byte, List.append_assoc, hint, ok_bind]
  have hstop : usizeAdd (1 + li.length) (asUsize b.length) = 1 + li.length + b.length := by
    rw [asUsize_natCast (by omega), usizeAdd, Nat.mod_eq_of_lt (by omega)]
  have hpre : Tag.string.byte :: (li ++ (b ++ r)) = (Tag.string.byte :: li) ++ (b ++ r) := rfl
  rw [hstop, need_eq_ok.mpr (by simp; omega), ok_bind,
    sliceRange_of_le (by omega) (by simp; omega), ok_bind, hpre]
  have hslice : (((Tag.string.byte :: li) ++ (b ++ r)).drop (1 + li.length)).take
      (1 + li.length + b.length - (1 + li.length)) = b := by
    rw [Nat.add_sub_cancel_left, List.drop_left' (by rw [List.length_cons, Nat.add_comm]),
      List.take_left' rfl]
  rw [hslice]
  simp only [List.length_cons, List.length_append]
  rw [show 1 + li.length + b.length = li.length + b.length + 1 by omega]
  rfl

theorem reads_writeBytes {b : List UInt8} (h : (writeBytes b).length < 2 ^ 63) :
    Reads (readValue lim) (writeBytes b) (stringOfSlice b) := by
  intro r
  have hlen : (writeBytes b).length = (writeInt (asI64 b.length)).length + b.length + 1 := by
    rw [writeBytes, List.length_cons, List.length_append]
  exact readValue_string_field (by omega) (readInt_writeInt_asI64 (by omega) _)

theorem reads_writeString {s : String} (h : (writeBytes (Utf8.bytesOf s)).length < 2 ^ 63) :
    Reads (readValue lim) (writeBytes (Utf8.bytesOf s)) (.string s) := by
  have hread : Reads (readValue lim) (writeBytes (Utf8.bytesOf s)) _ := reads_writeBytes h
  rwa [stringOfSlice, Utf8.ofBytes?_bytesOf] at hread

theorem reads_writeInt (i : Int64) : Reads (readValue lim) (writeInt i.toInt) (.int i) := by
  intro r
  have hint := readInt_writeInt (Int64.le_toInt i) (Int64.toInt_lt i) r
  obtain ⟨t, rest, heq, ht⟩ := writeInt_eq_cons i.toInt
  rw [heq] at hint ⊢
  rw [readValue_eq, List.cons_append, readValueStep]
  rw [List.cons_append] at hint
  obtain rfl | rfl | rfl | rfl := ht <;>
  · simp only [Tag.ofByte_byte, hint, ok_bind, Int64.ofInt_toInt]
    rfl

theorem reads_real (bits : UInt64) :
    Reads (readValue lim) (Tag.real.byte :: leBytes 8 bits.toNat) (.real bits) := by
  intro r
  have hlen : (leBytes 8 bits.toNat).length = 8 := length_leBytes _ _
  have hval : UInt64.ofNat (leNat (leBytes 8 bits.toNat)) = bits := by
    rw [leNat_leBytes, Nat.mod_eq_of_lt (by have := bits.toNat_lt; omega), UInt64.ofNat_toNat]
  generalize leBytes 8 bits.toNat = raw at hlen hval ⊢
  rw [readValue_eq, List.cons_append, readValueStep]
  simp only [Tag.ofByte_byte]
  rw [need_eq_ok.mpr (by simp; omega), ok_bind, List.take_left' hlen, hval, List.length_cons, hlen]
  rfl

theorem reads_array {α : Type} {f : α → List UInt8} {g : α → Value} {l : List α}
    (hl : l.length ≤ lim.vecValue) (h : ∀ x ∈ l, Reads (readValue lim) (f x) (g x)) :
    Reads (readValue lim) (Tag.array.byte :: (writeInt (asI64 l.length) ++ l.flatMap f))
      (.array (l.map g)) := by
  intro r
  have hcount := lt_of_le_of_lt hl lim.vecValue_lt
  have hint := readInt_writeInt_asI64 hcount (l.flatMap f ++ r)
  generalize writeInt (asI64 l.length) = li at hint ⊢
  have hitems := readItems_flatMap l h (Tag.array.byte :: li) r
  rw [readValue_eq, List.cons_append, List.append_assoc, readValueStep]
  simp only [Tag.ofByte_byte, hint, ok_bind, Int.toNat_natCast, withCapacity_of_le hl]
  rw [List.length_cons, List.cons_append, Nat.add_comm li.length 1] at hitems
  rw [hitems, ok_bind, List.length_cons, List.length_append]
  rw [show li.length + (l.flatMap f).length + 1 = 1 + li.length + (l.flatMap f).length by omega]
  rfl

theorem reads_object {o : List (String × Value)} (ho : o.length ≤ lim.indexMap)
    (hnd : (o.map Prod.fst).Nodup)
    (hk : ∀ kv ∈ o, Reads (readValue lim) (writeBytes (Utf8.bytesOf kv.1)) (.string kv.1))
    (hv : ∀ kv ∈ o, Reads (readValue lim) (writeValue kv.2) (norm kv.2)) :
    Reads (readValue lim) (writeValue (.object o)) (norm (.object o)) := by
  intro r
  have hcount := lt_of_le_of_lt ho lim.indexMap_lt
  rw [writeValue, writeEntries_eq, norm, normEntries_eq]
  have hint := readInt_writeInt_asI64 hcount (o.flatMap writeEntry ++ r)
  generalize writeInt (asI64 o.length) = li at hint ⊢
  have hentries := readEntries_flatMap o hk hv (Tag.object.byte :: li) r [] (by simpa using hnd)
  change readEntries _ (_ ++ (o.flatMap writeEntry ++ r)) _ _ _ =
    .ok (_, _ + (o.flatMap writeEntry).length) at hentries
  rw [readValue_eq, List.cons_append, List.append_assoc, readValueStep]
  simp only [Tag.ofByte_byte, hint, ok_bind, Int.toNat_natCast, withCapacity_of_le ho]
  rw [List.length_cons, List.cons_append, Nat.add_comm li.length 1] at hentries
  rw [hentries, ok_bind, List.length_cons, List.length_append]
  rw [show li.length + (o.flatMap writeEntry).length + 1 =
    1 + li.length + (o.flatMap writeEntry).length by omega]
  rfl

theorem mapM_keyOf_string (keys : List String) :
    (keys.map Value.string).mapM (keyOf .templateKey) = (.ok keys : Result (List String)) := by
  induction keys with
  | nil => rfl
  | cons k keys ih =>
    rw [List.map_cons, List.mapM_cons, ih]
    rfl

/-- The keys of a template, as the array of strings that is written for them. -/
def writeKeys (keys : List String) : List UInt8 :=
  Tag.array.byte :: (writeInt (asI64 keys.length) ++
    keys.flatMap (fun k => writeBytes (Utf8.bytesOf k)))

theorem reads_writeKeys {keys : List String} (hk : keys.length ≤ lim.vecValue)
    (h : (writeKeys keys).length < 2 ^ 63) :
    Reads (readValue lim) (writeKeys keys) (.array (keys.map .string)) := by
  refine reads_array hk fun k hmem => reads_writeString ?_
  have hsub := length_le_flatMap (f := fun k => writeBytes (Utf8.bytesOf k)) hmem
  rw [writeKeys, List.length_cons, List.length_append] at h
  omega

/-- A template tag, bytes that read as the keys, a count field that reads as the number of rows,
and the rows. -/
theorem readValue_template_field {keys : List String} {rows : List (List Value)}
    {kb li r : List UInt8} (hkeys : Reads (readValue lim) kb (.array (keys.map .string)))
    (hint : readInt (li ++ (rows.flatMap writeCells ++ r)) = .ok ((rows.length : ℤ), li.length))
    (hk : keys.length ≤ lim.vecValue) (hr : rows.length ≤ lim.vecRow)
    (hlen : ∀ row ∈ rows, row.length = keys.length)
    (h : ∀ row ∈ rows, ∀ v ∈ row, Reads (readValue lim) (writeValue v) (norm v)) :
    readValue lim (Tag.template.byte :: (kb ++ (li ++ rows.flatMap writeCells)) ++ r) =
      .ok (.template keys (rows.map (List.map norm)),
        (Tag.template.byte :: (kb ++ (li ++ rows.flatMap writeCells))).length) := by
  have hrows := readRows_flatMap hk rows hlen h (Tag.template.byte :: (kb ++ li)) r
  have hkread := hkeys (li ++ (rows.flatMap writeCells ++ r))
  have hslice : sliceFrom (Tag.template.byte :: (kb ++ (li ++ (rows.flatMap writeCells ++ r))))
      (1 + kb.length) = .ok (li ++ (rows.flatMap writeCells ++ r)) := by
    rw [sliceFrom_of_le (by simp; omega), Nat.add_comm, List.drop_succ_cons, List.drop_left]
  rw [readValue_eq, List.cons_append, readValueStep]
  simp only [Tag.ofByte_byte, List.append_assoc, hkread, ok_bind, mapM_keyOf_string, hslice, hint,
    Int.toNat_natCast, withCapacity_of_le hr]
  rw [List.length_cons, List.cons_append, List.append_assoc, List.length_append,
    show kb.length + li.length + 1 = 1 + kb.length + li.length by omega] at hrows
  rw [hrows, ok_bind, List.length_cons, List.length_append, List.length_append,
    show kb.length + (li.length + (rows.flatMap writeCells).length) + 1 =
      1 + kb.length + li.length + (rows.flatMap writeCells).length by omega]
  rfl

theorem writeValue_template (keys : List String) (rows : List (List Value)) :
    writeValue (.template keys rows) = Tag.template.byte ::
      (writeKeys keys ++ (writeInt (asI64 rows.length) ++ rows.flatMap writeCells)) := by
  rw [writeValue, writeRows_eq, writeKeys]

theorem reads_template {keys : List String} {rows : List (List Value)}
    (hkeys : (writeKeys keys).length < 2 ^ 63)
    (hk : keys.length ≤ lim.vecValue) (hr : rows.length ≤ lim.vecRow)
    (hlen : ∀ row ∈ rows, row.length = keys.length)
    (h : ∀ row ∈ rows, ∀ v ∈ row, Reads (readValue lim) (writeValue v) (norm v)) :
    Reads (readValue lim) (writeValue (.template keys rows)) (norm (.template keys rows)) := by
  intro r
  rw [writeValue_template, norm, normRows_eq]
  exact readValue_template_field (reads_writeKeys hk hkeys)
    (readInt_writeInt_asI64 (lt_of_le_of_lt hr lim.vecRow_lt) _) hk hr hlen h

end Values

/-- `read_value` undoes `write_value` up to `norm`. -/
theorem reads_writeValue {lim : AllocLimits} (v : Value) (hwf : v.WellFormed lim)
    (hrect : v.Rectangular) (hlen : (writeValue v).length < 2 ^ 63) :
    Reads (readValue lim) (writeValue v) (norm v) := by
  obtain ⟨hkeys, halloc⟩ := hwf
  unfold Value.Rectangular at hrect
  induction v with
  | null => intro r; rw [readValue_eq]; rfl
  | bool b => cases b <;> (intro r; rw [readValue_eq]; rfl)
  | int i => exact reads_writeInt i
  | real bits => exact reads_real bits
  | string s => exact reads_writeString hlen
  | bytes b => exact reads_writeBytes hlen
  | array a ih =>
    rw [Value.all_array] at hkeys halloc hrect
    rw [writeValue, writeItems_eq] at hlen ⊢
    rw [norm, normItems_eq]
    refine reads_array halloc.1 fun v hv => ?_
    have hsub := length_le_flatMap (f := writeValue) hv
    rw [List.length_cons, List.length_append] at hlen
    exact ih v hv (hrect.2 v hv) (by omega) (hkeys.2 v hv) (halloc.2 v hv)
  | object o ih =>
    rw [Value.all_object] at hkeys halloc hrect
    have hentry : ∀ kv ∈ o, (writeEntry kv).length < 2 ^ 63 := by
      intro kv hkv
      have hsub := length_le_flatMap (f := writeEntry) hkv
      rw [writeValue, writeEntries_eq, List.length_cons, List.length_append] at hlen
      omega
    simp only [writeEntry, List.length_append] at hentry
    refine reads_object halloc.1 hkeys.1 (fun kv hkv => reads_writeString ?_) (fun kv hkv => ?_)
    · have := hentry kv hkv; omega
    · have := hentry kv hkv
      exact ih kv hkv (hrect.2 kv hkv) (by omega) (hkeys.2 kv hkv) (halloc.2 kv hkv)
  | template keys rows ih =>
    rw [Value.all_template] at hkeys halloc hrect
    rw [writeValue_template, List.length_cons, List.length_append, List.length_append] at hlen
    refine reads_template (by omega) halloc.1.1 halloc.1.2 hrect.1 fun row hrow v hv => ?_
    by_cases hnull : v = .null
    · subst hnull
      intro r
      rw [readValue_eq]
      rfl
    · have hrowlen := length_le_flatMap (f := writeCells) hrow
      have hvlen := length_le_flatMap (f := writeCell) hv
      rw [← writeCells_eq, writeCell_of_ne_null hnull] at hvlen
      exact ih row hrow v hv (hrect.2 row hrow v hv) (by omega) (hkeys.2 row hrow v hv)
        (halloc.2 row hrow v hv)

/-! ## PDUs -/

def header : Encoding → List UInt8
  | .bserV2 => magicV2 ++ leBytes 4 0
  | _ => magicV1

theorem encodePdu_eq {e : Encoding} (he : e ≠ .json) (v : Value) :
    encodePdu v e =
      .ok (header e ++ (writeInt (asI64 (writeValue v).length) ++ writeValue v)) := by
  cases e with
  | json => exact absurd rfl he
  | bserV1 => rfl
  | bserV2 => rw [encodePdu, header, List.append_assoc]

theorem headerLen_header (e : Encoding) (r : List UInt8) :
    headerLen (header e ++ r) = .ok (header e).length := by
  cases e <;> simp [headerLen, header, magicV1, magicV2, leBytes]

/-- A header, a length field that reads as the length of the payload, and a payload that reads as
`v`. -/
theorem decodePdu_field {lim : AllocLimits} {e : Encoding} {li payload r : List UInt8} {v : Value}
    (hlen : payload.length < 2 ^ 63) (hli : li.length ≤ 9)
    (hint : readInt (li ++ (payload ++ r)) = .ok ((payload.length : ℤ), li.length))
    (hread : readValue lim payload = .ok (v, payload.length)) :
    decodePdu lim (header e ++ (li ++ payload) ++ r) =
      .ok (v, (header e ++ (li ++ payload)).length) := by
  have hhead : (header e).length ≤ 6 := by cases e <;> decide
  have husize : asUsize payload.length = payload.length := asUsize_natCast (by omega)
  have hstop : usizeAdd ((header e).length + li.length) payload.length =
      (header e).length + li.length + payload.length := by
    rw [usizeAdd, Nat.mod_eq_of_lt (by omega)]
  have hpre : header e ++ (li ++ (payload ++ r)) = (header e ++ li) ++ (payload ++ r) := by
    rw [List.append_assoc]
  have hslice : ((header e ++ (li ++ (payload ++ r))).drop ((header e).length + li.length)).take
      ((header e).length + li.length + payload.length - ((header e).length + li.length)) =
        payload := by
    rw [hpre, Nat.add_sub_cancel_left, List.drop_left' List.length_append, List.take_left' rfl]
  rw [decodePdu, decodePduWith, List.append_assoc, List.append_assoc, headerLen_header, ok_bind,
    sliceFrom_of_le (by simp), List.drop_left, ok_bind, hint, ok_bind]
  simp only [husize, hstop]
  rw [need_eq_ok.mpr (by simp only [List.length_append]; omega), ok_bind,
    sliceRange_of_le (by omega) (by simp only [List.length_append]; omega), ok_bind, hslice, hread,
    ok_bind]
  simp only [if_true, List.length_append]
  rw [Nat.add_assoc]
  rfl

/-- The written form fits a `Vec<u8>`, which never holds more than `isize::MAX` bytes. -/
def Encodable (v : Value) : Prop := (writeValue v).length < 2 ^ 63

theorem decodePdu_encoded {lim : AllocLimits} {v : Value} (hwf : v.WellFormed lim)
    (hrect : v.Rectangular) (hfits : Encodable v) (e : Encoding) (r : List UInt8) :
    decodePdu lim (header e ++ (writeInt (asI64 (writeValue v).length) ++ writeValue v) ++ r) =
      .ok (norm v,
        (header e ++ (writeInt (asI64 (writeValue v).length) ++ writeValue v)).length) := by
  have hread := reads_writeValue v hwf hrect hfits []
  rw [List.append_nil] at hread
  exact decodePdu_field hfits (length_writeInt_le _) (readInt_writeInt_asI64 hfits _) hread

/-- **Round trip.** In either version, `decode_pdu` of an encoded value and any bytes after it
returns the value and the length of its encoding. -/
theorem decodePdu_encodePdu (lim : AllocLimits) (v : Value) (hwf : v.WellFormed lim)
    (hrect : v.Rectangular) (hfits : Encodable v) (e : Encoding) (he : e ≠ .json) :
    ∃ bytes, encodePdu v e = .ok bytes ∧
      ∀ r, decodePdu lim (bytes ++ r) = .ok (norm v, bytes.length) :=
  ⟨_, encodePdu_eq he v, decodePdu_encoded hwf hrect hfits e⟩

/-- A template with an absent cell and a byte payload that is not UTF-8. -/
def sample : Value :=
  .object [("files", .template ["name", "raw"] [[.string "a.c", .null], [.null, .bytes [0xFF]]])]

theorem decodePdu_encodePdu_sample :
    ∃ bytes, encodePdu sample .bserV2 = .ok bytes ∧
      ∀ r, decodePdu .bits64 (bytes ++ r) = .ok (norm sample, bytes.length) :=
  decodePdu_encodePdu .bits64 sample
    (by
      constructor <;>
        simp [sample, AllocLimits.bits64, Value.All, Value.AllRows, Value.AllItems,
          Value.KeysDistinct, Value.Allocatable])
    (by
      simp [sample, Value.Rectangular, Value.All, Value.AllRows, Value.AllItems, Value.RowsFull])
    (by
      have hlen : (writeValue sample).length < 100 := by decide
      exact lt_trans hlen (by norm_num))
    .bserV2 (by decide)

end Watchwoman.Bser
