import Watchwoman.Protocol.BserReader

/-!
# How many items a PDU can demand

Each item of an array, each entry of an object and each row of a template with keys takes at least
one byte, so a container has no more of them than the bytes it was read from. A row of a template
without keys takes none: ten bytes decode to a hundred rows, and to as many as the allocator can
reserve. `freeRows` finds the largest number of such rows by a walk over the bytes, and the members
of a decoded value are bounded by the length of its PDU exactly when `freeRows` is.
-/

namespace Watchwoman.Bser

open Fallible LittleEndian Tiling

/-! ## Free rows -/

/-- What the walk keeps of a value: the payload of a text, the length of an array, the most rows of
a template without keys that stays in the value, and the extent. -/
structure Sketch where
  text : List UInt8
  len : ℕ
  free : ℕ
  extent : ℕ
  deriving DecidableEq, Repr

/-- The integer at the front of a slice and its extent. -/
def intAt (buf : List UInt8) : ℤ × ℕ :=
  match readInt buf with
  | .ok x => x
  | .error _ => (0, 0)

section Walk

-- The walk over one nested value.
variable (skim : List UInt8 → Sketch) (buf : List UInt8)

/-- The most free rows in `count` values from `pos` on, and where they end. -/
def skimItems : ℕ → ℕ → ℕ × ℕ
  | 0, pos => (0, pos)
  | count + 1, pos =>
    let s := skim (buf.drop pos)
    let (free, stop) := skimItems count (pos + s.extent)
    (max s.free free, stop)

/-- The keys of an object and the most free rows under each, and where they end. -/
def skimEntries : ℕ → ℕ → List (String × ℕ) × ℕ
  | 0, pos => ([], pos)
  | count + 1, pos =>
    let k := skim (buf.drop pos)
    let v := skim (buf.drop (pos + k.extent))
    let (entries, stop) := skimEntries count (pos + k.extent + v.extent)
    ((Utf8.lossy k.text, v.free) :: entries, stop)

def skimCells : ℕ → ℕ → ℕ × ℕ
  | 0, pos => (0, pos)
  | count + 1, pos =>
    if buf[pos]? = some Tag.skip.byte then skimCells count (pos + 1)
    else
      let s := skim (buf.drop pos)
      let (free, stop) := skimCells count (pos + s.extent)
      (max s.free free, stop)

def skimRows (width : ℕ) : ℕ → ℕ → ℕ × ℕ
  | 0, pos => (0, pos)
  | count + 1, pos =>
    let (free, mid) := skimCells skim buf width pos
    let (free', stop) := skimRows width count mid
    (max free free', stop)

end Walk

def mostFree (entries : List (String × ℕ)) : ℕ := (entries.map Prod.snd).foldr max 0

def skimStep (skim : List UInt8 → Sketch) : List UInt8 → Sketch
  | [] => ⟨[], 0, 0, 0⟩
  | b :: rest =>
    match Tag.ofByte b with
    | some .int8 => ⟨[], 0, 0, 2⟩
    | some .int16 => ⟨[], 0, 0, 3⟩
    | some .int32 => ⟨[], 0, 0, 5⟩
    | some .int64 | some .real => ⟨[], 0, 0, 9⟩
    | some .string | some .utf8 =>
      let (len, lenlen) := intAt rest
      ⟨(rest.drop lenlen).take (asUsize len), 0, 0, 1 + lenlen + asUsize len⟩
    | some .array =>
      let (count, clen) := intAt rest
      let (free, stop) := skimItems skim (b :: rest) count.toNat (1 + clen)
      ⟨[], count.toNat, free, stop⟩
    | some .object =>
      let (count, clen) := intAt rest
      let (entries, stop) := skimEntries skim (b :: rest) count.toNat (1 + clen)
      ⟨[], 0, mostFree (IndexMap.extend [] entries), stop⟩
    | some .template =>
      let keys := skim rest
      let (count, clen) := intAt (rest.drop keys.extent)
      if keys.len = 0 then ⟨[], 0, count.toNat, 1 + keys.extent + clen⟩
      else
        let (free, stop) := skimRows skim (b :: rest) keys.len count.toNat (1 + keys.extent + clen)
        ⟨[], 0, free, stop⟩
    | _ => ⟨[], 0, 0, 1⟩

def skimF : ℕ → List UInt8 → Sketch
  | 0 => fun _ => ⟨[], 0, 0, 0⟩
  | fuel + 1 => skimStep (skimF fuel)

/-- The most rows a template without keys declares in a PDU, among those that no later entry of an
object replaces. -/
def freeRows (b : List UInt8) : ℕ :=
  let header := if b.take 2 = magicV1 then 2 else 6
  let (len, size) := intAt (b.drop header)
  let payload := (b.drop (header + size)).take (asUsize len)
  (skimF payload.length payload).free

/-! ## The walk follows the reader -/

/-- One template without keys has at most `N` rows. -/
def FreeLe (N : ℕ) : Value → Prop
  | .template keys rows => keys = [] → rows.length ≤ N
  | _ => True

/-- `m` is the largest number of rows of a template without keys in `v`. -/
def MostFree (v : Value) (m : ℕ) : Prop := ∀ N, m ≤ N ↔ v.All (FreeLe N)

/-- A sketch fits the value that is read. -/
structure Skims (s : Sketch) (v : Value) (n : ℕ) : Prop where
  extent : s.extent = n
  free : MostFree v s.free
  text : ∀ refuse k, keyOf refuse v = .ok k → Utf8.lossy s.text = k
  len : ∀ a, v = .array a → s.len = a.length

theorem le_cons_iff {v : Value} {m free N : ℕ} {vs : List Value} (hv : MostFree v m)
    (h : free ≤ N ↔ ∀ w ∈ vs, w.All (FreeLe N)) :
    max m free ≤ N ↔ ∀ w ∈ v :: vs, w.All (FreeLe N) := by
  rw [max_le_iff, List.forall_mem_cons, hv N, h]

section Parts

variable {read : List UInt8 → Result (Value × ℕ)} (hcons : Consumes read)
  {skim : List UInt8 → Sketch} {fuel : ℕ}
  (hskim : ∀ s v n, s.length ≤ fuel → read s = .ok (v, n) → Skims (skim s) v n)
  {buf : List UInt8} (hbuf : buf.length ≤ fuel + 1) {p q : ℕ} (hp : 1 ≤ p)

include hcons hskim hbuf hp

theorem At.skims {v : Value} (h : At read buf p v q) :
    Skims (skim (buf.drop p)) v (q - p) ∧ p < q := by
  have hlt := (h.bounds hcons).1
  obtain ⟨-, n, hv, rfl⟩ := h
  rw [Nat.add_sub_cancel_left]
  exact ⟨hskim _ _ _ (by rw [List.length_drop]; omega) hv, hlt⟩

theorem skimItems_eq {items : List Value} (h : Tiles (At read buf) p items q) :
    ∃ free, skimItems skim buf items.length p = (free, q) ∧
      ∀ N, free ≤ N ↔ ∀ v ∈ items, v.All (FreeLe N) := by
  induction items generalizing p with
  | nil =>
    obtain rfl := h
    exact ⟨0, rfl, by simp⟩
  | cons v items ih =>
    obtain ⟨m, hv, hrest⟩ := h
    obtain ⟨hs, hlt⟩ := hv.skims hcons hskim hbuf hp
    obtain ⟨free, heq, hfree⟩ := ih (by omega) hrest
    refine ⟨max (skim (buf.drop p)).free free, ?_, fun N => le_cons_iff hs.free (hfree N)⟩
    rw [List.length_cons, skimItems, hs.extent, Nat.add_sub_cancel' hlt.le, heq]

theorem skimEntries_eq {entries : List (String × Value)} (h : Tiles (EntryAt read buf) p entries q) :
    ∃ es, skimEntries skim buf entries.length p = (es, q) ∧
      IndexMap.Alike MostFree entries es := by
  induction entries generalizing p with
  | nil =>
    obtain rfl := h
    exact ⟨[], rfl, .nil⟩
  | cons e entries ih =>
    obtain ⟨m, ⟨k, m', hk, hkey, hv⟩, hrest⟩ := h
    obtain ⟨hks, hklt⟩ := hk.skims hcons hskim hbuf hp
    obtain ⟨hvs, hvlt⟩ := hv.skims hcons hskim hbuf (by omega)
    obtain ⟨es, heq, halike⟩ := ih (by omega) hrest
    refine ⟨(e.1, (skim (buf.drop m')).free) :: es, ?_, .cons ⟨rfl, hvs.free⟩ halike⟩
    rw [List.length_cons, skimEntries, hks.extent, Nat.add_sub_cancel' hklt.le, hvs.extent,
      Nat.add_sub_cancel' hvlt.le, heq, hks.text _ _ hkey]

theorem skimCells_eq {cells : List Value} (h : Tiles (CellAt read buf) p cells q) :
    p ≤ q ∧ ∃ free, skimCells skim buf cells.length p = (free, q) ∧
      ∀ N, free ≤ N ↔ ∀ v ∈ cells, v.All (FreeLe N) := by
  induction cells generalizing p with
  | nil =>
    obtain rfl := h
    exact ⟨le_rfl, 0, rfl, by simp⟩
  | cons v cells ih =>
    obtain ⟨m, hcell, hrest⟩ := h
    have hlt := (hcell.bounds hcons).1
    obtain ⟨hle, free, heq, hfree⟩ := ih (by omega) hrest
    refine ⟨by omega, ?_⟩
    unfold CellAt at hcell
    rw [List.length_cons, skimCells]
    split_ifs at hcell ⊢ with hskip
    · obtain ⟨rfl, rfl⟩ := hcell
      refine ⟨free, heq, fun N => ?_⟩
      rw [hfree, List.forall_mem_cons]
      exact (and_iff_right trivial).symm
    · obtain ⟨hs, -⟩ := hcell.skims hcons hskim hbuf hp
      refine ⟨max (skim (buf.drop p)).free free, ?_, fun N => le_cons_iff hs.free (hfree N)⟩
      simp only [hs.extent, Nat.add_sub_cancel' hlt.le, heq]

theorem skimRows_eq {lim : AllocLimits} {width : ℕ} {rows : List (List Value)}
    (h : Tiles (RowAt read lim buf width) p rows q) :
    ∃ free, skimRows skim buf width rows.length p = (free, q) ∧
      ∀ N, free ≤ N ↔ ∀ row ∈ rows, ∀ v ∈ row, v.All (FreeLe N) := by
  induction rows generalizing p with
  | nil =>
    obtain rfl := h
    exact ⟨0, rfl, by simp⟩
  | cons row rows ih =>
    obtain ⟨m, ⟨-, rfl, hcells⟩, hrest⟩ := h
    obtain ⟨hle, free, heq, hfree⟩ := skimCells_eq hcons hskim hbuf hp hcells
    obtain ⟨free', heq', hfree'⟩ := ih (by omega) hrest
    refine ⟨max free free', ?_, fun N => ?_⟩
    · rw [List.length_cons, skimRows, heq]
      simp only [heq']
    · rw [max_le_iff, List.forall_mem_cons, hfree, hfree']

end Parts

theorem mostFree_le_iff {entries : List (String × Value)} {es : List (String × ℕ)}
    (h : IndexMap.Alike MostFree entries es) (N : ℕ) :
    mostFree es ≤ N ↔ ∀ e ∈ entries, e.2.All (FreeLe N) := by
  induction h with
  | nil => simp [mostFree]
  | @cons e e' _ _ he _ ih =>
    rw [List.forall_mem_cons, ← ih, ← he.2 N]
    exact max_le_iff

theorem intAt_of_ok {buf : List UInt8} {x : ℤ × ℕ} (h : readInt buf = .ok x) : intAt buf = x := by
  unfold intAt
  rw [h]

theorem Skims.leaf {v : Value} {n len : ℕ} (hall : ∀ N, v.All (FreeLe N))
    (hkey : ∀ refuse k, keyOf refuse v ≠ .ok k) (harray : ∀ a, v ≠ .array a) :
    Skims ⟨[], len, 0, n⟩ v n :=
  ⟨rfl, fun N => iff_of_true (Nat.zero_le N) (hall N), fun refuse k hk => absurd hk (hkey refuse k),
    fun a ha => absurd ha (harray a)⟩

theorem skims_stringOfSlice (slice : List UInt8) (n : ℕ) :
    Skims ⟨slice, 0, 0, n⟩ (stringOfSlice slice) n := by
  unfold stringOfSlice
  cases h : Utf8.ofBytes? slice with
  | some s =>
    refine ⟨rfl, fun N => iff_of_true (Nat.zero_le N) trivial, fun refuse k hk => ?_, by simp⟩
    obtain rfl := Except.ok.inj hk
    show Utf8.lossy slice = s
    unfold Utf8.lossy
    rw [h]
  | none =>
    exact ⟨rfl, fun N => iff_of_true (Nat.zero_le N) trivial, fun refuse k hk => Except.ok.inj hk,
      by simp⟩

section Cases

variable {skim : List UInt8 → Sketch}

theorem skims_int {buf : List UInt8} {m : ℤ} {c : ℕ} (hm : readInt buf = .ok (m, c)) :
    Skims (skimStep skim buf) (.int (Int64.ofInt m)) c := by
  obtain ⟨t, rest, rfl, ht⟩ := readInt_eq_ok_tag hm
  obtain rfl | rfl | rfl | rfl := ht <;> rw [skimStep, Tag.ofByte_byte]
  · obtain rfl := readInt_extent (w := 1) (by decide) hm
    exact .leaf (fun _ => trivial) (by simp [keyOf]) (by simp)
  · obtain rfl := readInt_extent (w := 2) (by decide) hm
    exact .leaf (fun _ => trivial) (by simp [keyOf]) (by simp)
  · obtain rfl := readInt_extent (w := 4) (by decide) hm
    exact .leaf (fun _ => trivial) (by simp [keyOf]) (by simp)
  · obtain rfl := readInt_extent (w := 8) (by decide) hm
    exact .leaf (fun _ => trivial) (by simp [keyOf]) (by simp)

theorem skims_text {t : Tag} {rest : List UInt8} {len : ℤ} {lenlen stop : ℕ}
    (ht : t = .string ∨ t = .utf8) (hl : readInt rest = .ok (len, lenlen))
    (hstop : stop = usizeAdd (1 + lenlen) (asUsize len)) (hstart : 1 + lenlen ≤ stop) :
    Skims (skimStep skim (t.byte :: rest))
      (stringOfSlice (((t.byte :: rest).drop (1 + lenlen)).take (stop - (1 + lenlen)))) stop := by
  have hn : stop = 1 + lenlen + asUsize len := by
    rw [hstop] at hstart ⊢
    exact usizeAdd_of_le (asUsize_lt len) hstart
  rw [hn, Nat.add_sub_cancel_left, Nat.add_comm 1 lenlen, List.drop_succ_cons]
  obtain rfl | rfl := ht <;> rw [skimStep, Tag.ofByte_byte] <;> simp only [intAt_of_ok hl] <;>
    rw [Nat.add_comm 1 lenlen] <;> exact skims_stringOfSlice _ _

theorem rows_without_keys {read : List UInt8 → Result (Value × ℕ)} {lim : AllocLimits}
    {buf : List UInt8} {p q : ℕ} {rows : List (List Value)}
    (h : Tiles (RowAt read lim buf 0) p rows q) : (∀ row ∈ rows, row = []) ∧ q = p := by
  refine ⟨h.forall_mem fun _ _ _ hr => List.length_eq_zero_iff.mp hr.2.1, ?_⟩
  refine h.preserves (P := (· = p)) (fun p' row q' hp' hr => ?_) rfl
  obtain ⟨-, hwidth, hcells⟩ := hr
  obtain rfl := List.length_eq_zero_iff.mp hwidth
  exact hcells.symm.trans hp'

end Cases

/-- The walk over all of a slice fits what is read from it. -/
theorem skims_of_readValue {lim : AllocLimits} {s : List UInt8} {v : Value} {n : ℕ}
    (h : readValue lim s = .ok (v, n)) : ∀ fuel, s.length ≤ fuel → Skims (skimF fuel s) v n := by
  refine readValue_induct (P := fun s v n => ∀ fuel, s.length ≤ fuel → Skims (skimF fuel s) v n) ?_ h
  intro read hcons hread s v n hlayout fuel hfuel
  have hn := hlayout.bounds hcons
  obtain ⟨fuel, rfl⟩ : ∃ fuel', fuel = fuel' + 1 := ⟨fuel - 1, by omega⟩
  have hskim : ∀ s v n, s.length ≤ fuel → read s = .ok (v, n) → Skims (skimF fuel s) v n :=
    fun s v n hs hv => hread s v n hv fuel hs
  rw [skimF]
  cases hlayout with
  | null | true | false =>
    rw [skimStep, Tag.ofByte_byte]
    exact .leaf (fun _ => trivial) (by simp [keyOf]) (by simp)
  | int hm => exact skims_int hm
  | real hlen =>
    rw [skimStep, Tag.ofByte_byte]
    exact .leaf (fun _ => trivial) (by simp [keyOf]) (by simp)
  | text ht hl hstop hstart hend => exact skims_text ht hl hstop hstart
  | array hc hcap hlen hitems =>
    obtain ⟨free, heq, hfree⟩ := skimItems_eq hcons hskim hfuel (by omega) hitems
    rw [skimStep, Tag.ofByte_byte]
    simp only [intAt_of_ok hc, ← hlen, heq]
    refine ⟨rfl, fun N => ?_, by simp [keyOf], fun a ha => ?_⟩
    · rw [Value.all_array]
      exact (hfree N).trans (and_iff_right trivial).symm
    · rw [Value.array.inj ha]
  | object hc hcap hlen hentries =>
    obtain ⟨es, heq, halike⟩ := skimEntries_eq hcons hskim hfuel (by omega) hentries
    rw [skimStep, Tag.ofByte_byte]
    simp only [intAt_of_ok hc, ← hlen, heq]
    refine ⟨rfl, fun N => ?_, by simp [keyOf], by simp⟩
    rw [Value.all_object]
    exact (mostFree_le_iff (.extend .nil halike) N).trans (and_iff_right trivial).symm
  | @template rest a keys count kc clen n rows ha hkeys hkc hc hcap hlen hrows =>
    have hks := hskim _ _ _ (by rw [List.length_cons] at hfuel; omega) ha
    rw [Nat.add_comm 1 kc, List.drop_succ_cons] at hc
    rw [skimStep, Tag.ofByte_byte]
    have hkeysLen : (skimF fuel rest).len = keys.length := by
      rw [hks.len a rfl, mapM_keyOf_length hkeys]
    simp only [hks.extent, intAt_of_ok hc, hkeysLen, ← hlen]
    split_ifs with hempty
    · obtain rfl := List.length_eq_zero_iff.mp hempty
      obtain ⟨hrow, rfl⟩ := rows_without_keys hrows
      refine ⟨rfl, fun N => ?_, by simp [keyOf], by simp⟩
      rw [Value.all_template]
      constructor
      · intro hle
        refine ⟨fun _ => hle, fun row hmem => ?_⟩
        rw [hrow row hmem]
        simp
      · intro hall
        exact hall.1 rfl
    · obtain ⟨free, heq, hfree⟩ := skimRows_eq hcons hskim hfuel (by omega) hrows
      simp only [heq]
      refine ⟨rfl, fun N => ?_, by simp [keyOf], by simp⟩
      rw [Value.all_template]
      exact (hfree N).trans (and_iff_right fun h => absurd h (by simpa using hempty)).symm

/-! ## What a container takes -/

/-- One container has at most `n` elements, entries or rows. -/
def Proportional (n : ℕ) : Value → Prop
  | .array a => a.length ≤ n
  | .object o => o.length ≤ n
  | .template _ rows => rows.length ≤ n
  | _ => True

theorem freeLe_of_proportional {N : ℕ} (v : Value) (h : Proportional N v) : FreeLe N v := by
  cases v with
  | template keys rows => exact fun _ => h
  | _ => trivial

/-- Of what is read from a slice of at most `N` bytes, only a template without keys can have more
than `N` items. -/
theorem proportional_of_readValue {lim : AllocLimits} {s : List UInt8} {v : Value} {n N : ℕ}
    (h : readValue lim s = .ok (v, n)) (hs : s.length ≤ N) (hfree : v.All (FreeLe N)) :
    v.All (Proportional N) := by
  refine readValue_induct
    (P := fun s v _ => s.length ≤ N → v.All (FreeLe N) → v.All (Proportional N)) ?_ h hs hfree
  intro read hcons hread s v n hlayout hs hfree
  have hn := hlayout.bounds hcons
  have hpart : ∀ p v q, At read s p v q → v.All (FreeLe N) → v.All (Proportional N) := by
    rintro p v q ⟨-, c, hv, -⟩
    exact hread _ _ _ hv (by rw [List.length_drop]; omega)
  cases hlayout with
  | null | true | false | int hm | real hlen => trivial
  | text ht hl hstop hstart hend =>
    unfold stringOfSlice
    split <;> trivial
  | array hc hcap hlen hitems =>
    obtain ⟨-, hall⟩ := Value.all_array.mp hfree
    have hcount := hitems.length_le fun _ _ _ hv => (hv.bounds hcons).1
    have hitem := hitems.forall_mem hpart
    exact Value.all_array.mpr ⟨by show _ ≤ N; omega, fun v hv => hitem v hv (hall v hv)⟩
  | object hc hcap hlen hentries =>
    obtain ⟨-, hall⟩ := Value.all_object.mp hfree
    have hcount := hentries.length_le fun _ _ _ he => (he.bounds hcons).1
    have hentry := values_of_entries hpart hentries
    have hkept := IndexMap.length_extend_le [] ‹List (String × Value)›
    rw [List.length_nil] at hkept
    exact Value.all_object.mpr ⟨by show _ ≤ N; omega, fun e he => hentry e he (hall e he)⟩
  | @template rest a keys count kc clen n rows ha hkeys hkc hc hcap hlen hrows =>
    obtain ⟨hroot, hall⟩ := Value.all_template.mp hfree
    refine Value.all_template.mpr ⟨?_, fun row hrow v hv => ?_⟩
    · show rows.length ≤ N
      by_cases hempty : keys = []
      · exact hroot hempty
      · have hwidth := List.length_pos_iff.mpr hempty
        have hcount := hrows.length_le fun p row q hr => by
          have := hr.width_le hcons
          omega
        omega
    · have hcell := values_of_rows hpart (fun _ => trivial) hrows
      exact hcell row hrow v hv (hall row hrow v hv)

/-! ## PDUs -/

theorem headerLen_eq_ok {b : List UInt8} {n : ℕ} (h : headerLen b = .ok n) :
    n = if b.take 2 = magicV1 then 2 else 6 := by
  unfold headerLen at h
  split_ifs at h ⊢ <;> exact (Except.ok.inj h).symm

/-- **How many items a PDU can demand.** No container of a decoded value has more items than the
PDU has bytes, exactly when no template without keys in it declares more rows. -/
theorem decodePdu_proportional_iff (lim : AllocLimits) (b : List UInt8) (v : Value) (n : ℕ)
    (h : decodePdu lim b = .ok (v, n)) : v.All (Proportional n) ↔ freeRows b ≤ n := by
  obtain ⟨header, len, size, hheader, hint, hn, hle, hread⟩ := decodePdu_eq_ok h
  have hlen : ((b.drop (header + size)).take (asUsize len)).length = asUsize len := by
    rw [List.length_take, List.length_drop]
    omega
  have hfree := (skims_of_readValue hread _ le_rfl).free n
  have hrows : freeRows b = (skimF ((b.drop (header + size)).take (asUsize len)).length
      ((b.drop (header + size)).take (asUsize len))).free := by
    unfold freeRows
    rw [← headerLen_eq_ok hheader]
    simp only [intAt_of_ok hint]
  rw [hrows, hfree]
  exact ⟨Value.All.mono freeLe_of_proportional, proportional_of_readValue hread (by omega)⟩

def keylessPdu : List UInt8 := [0x00, 0x01, 0x03, 0x06, 0x0B, 0x00, 0x03, 0x00, 0x03, 0x64]

set_option maxRecDepth 20000 in
theorem decodePdu_keylessPdu :
    decodePdu .bits64 keylessPdu = .ok (.template [] (List.replicate 100 []), 10) := by rfl

theorem decodePdu_proportional_keylessPdu :
    (Value.template [] (List.replicate 100 [])).All (Proportional 10) ↔ freeRows keylessPdu ≤ 10 :=
  decodePdu_proportional_iff .bits64 keylessPdu _ 10 decodePdu_keylessPdu

/-- Ten bytes that decode to more than ten rows. -/
theorem exists_decodePdu_not_proportional :
    ∃ b v n, decodePdu .bits64 b = .ok (v, n) ∧ ¬ v.All (Proportional n) := by
  refine ⟨keylessPdu, _, 10, decodePdu_keylessPdu, fun h => ?_⟩
  have hrows : (List.replicate 100 ([] : List Value)).length ≤ 10 := (Value.all_template.mp h).1
  rw [List.length_replicate] at hrows
  omega

end Watchwoman.Bser
