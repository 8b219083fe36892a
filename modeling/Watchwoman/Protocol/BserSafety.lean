import Watchwoman.Protocol.BserReader

/-!
# Which bytes the BSER readers survive

Every length and count on the wire is a signed 64-bit integer the sender chose. `Scan` walks the
grammar of a payload without building a value and collects the numbers it declares, in the order
in which a reader meets them and up to the point where the bytes break off. The readers panic
exactly when one of those numbers does not fit: a byte string that ends before it starts, a frame
of negative length or one that cannot be allocated, a count that cannot be reserved, a value nested
deeper than the stack goes.

`Tracks` relates a reader to its scanner; it composes along `>>=` (`Tracks.bind`), so that each
loop of the reader is one induction.
-/

namespace Watchwoman.Bser

open Fallible

/-! ## Declared numbers -/

/-- A number on the wire that sizes something. -/
inductive Declared where
  /-- A part of the buffer at hand, `len` bytes from `start` on. -/
  | slice (start : ℕ) (len : ℤ)
  /-- The buffer for a frame read from a stream. -/
  | frame (len : ℤ)
  /-- A copy of bytes already read. -/
  | copy (len : ℕ)
  | array (count : ℤ)
  | object (count : ℤ)
  | rows (count : ℤ)
  /-- A nested value for which there is no stack. -/
  | tooDeep
  deriving DecidableEq, Repr

/-- The number can be acted on. A negative `len` is caught as a truncated buffer only when it
reaches back past the start of the buffer; otherwise the end wraps around to before the start. -/
def Declared.Fits (lim : AllocLimits) : Declared → Prop
  | .slice start len => 0 ≤ len ∨ start + len < 0
  | .frame len => 0 ≤ len ∧ len ≤ lim.frame
  | .copy len => len ≤ lim.copy
  | .array count => count ≤ lim.vecValue
  | .object count => count ≤ lim.indexMap
  | .rows count => count ≤ lim.vecRow
  | .tooDeep => False

instance (lim : AllocLimits) : (d : Declared) → Decidable (d.Fits lim)
  | .slice start len => inferInstanceAs (Decidable (0 ≤ len ∨ start + len < 0))
  | .frame len => inferInstanceAs (Decidable (0 ≤ len ∧ len ≤ lim.frame))
  | .copy len => inferInstanceAs (Decidable (len ≤ lim.copy))
  | .array count => inferInstanceAs (Decidable (count ≤ lim.vecValue))
  | .object count => inferInstanceAs (Decidable (count ≤ lim.indexMap))
  | .rows count => inferInstanceAs (Decidable (count ≤ lim.vecRow))
  | .tooDeep => inferInstanceAs (Decidable False)

/-! ## Scans -/

/-- The numbers met and what came of the walk, if it did not break off. -/
structure Scan (α : Type) where
  declared : List Declared
  result : Option α

namespace Scan

variable {α β : Type}

def stop : Scan α := ⟨[], none⟩

def declare (d : Declared) : Scan Unit := ⟨[d], some ()⟩

def ofResult {ε : Type} : Fallible ε α → Scan α
  | .ok a => ⟨[], some a⟩
  | .error _ => stop

def bind (x : Scan α) (f : α → Scan β) : Scan β :=
  match x.result with
  | none => ⟨x.declared, none⟩
  | some a => ⟨x.declared ++ (f a).declared, (f a).result⟩

instance : Monad Scan where
  pure a := ⟨[], some a⟩
  bind := bind

/-- Every number that was met fits. -/
def Fits (lim : AllocLimits) (x : Scan α) : Prop := ∀ d ∈ x.declared, d.Fits lim

theorem fits_pure {lim : AllocLimits} (a : α) : (pure a : Scan α).Fits lim := by
  intro d hd
  cases hd

theorem fits_stop {lim : AllocLimits} : (stop : Scan α).Fits lim := by
  intro d hd
  cases hd

theorem fits_bind {lim : AllocLimits} {x : Scan α} {f : α → Scan β} :
    (x >>= f).Fits lim ↔ x.Fits lim ∧ ∀ a, x.result = some a → (f a).Fits lim := by
  change (x.bind f).Fits lim ↔ _
  unfold bind
  cases h : x.result with
  | none => simp [Fits]
  | some a => simp [Fits, or_imp, forall_and]

theorem result_bind {x : Scan α} {f : α → Scan β} :
    (x >>= f).result = x.result.bind fun a => (f a).result := by
  change (x.bind f).result = _
  unfold bind
  cases x.result with
  | none => rfl
  | some a => rfl

end Scan

/-! ## A reader and its scanner -/

section Tracks

variable {ε α β α' β' : Type} {lim : AllocLimits}

/-- A reader and a scanner agree: the reader panics when a number met does not fit; else both go
through, with results related by `R`, or both break off. -/
def Tracks (lim : AllocLimits) (R : α → β → Prop) (x : Fallible ε α) (y : Scan β) : Prop :=
  (Panics x ∧ ¬ y.Fits lim) ∨
    (y.Fits lim ∧ ((∃ a b, x = .ok a ∧ y.result = some b ∧ R a b) ∨
      ((∃ e, x = .error (.error e)) ∧ y.result = none)))

theorem Tracks.ok {R : α → β → Prop} {a : α} {b : β} (h : R a b) :
    Tracks lim R (.ok a : Fallible ε α) (pure b) :=
  .inr ⟨Scan.fits_pure b, .inl ⟨a, b, rfl, rfl, h⟩⟩

theorem Tracks.error {R : α → β → Prop} (e : ε) :
    Tracks lim R (.error (.error e) : Fallible ε α) Scan.stop :=
  .inr ⟨Scan.fits_stop, .inr ⟨⟨e, rfl⟩, rfl⟩⟩

theorem Tracks.ofResult {x : Fallible ε α} (h : ¬ Panics x) :
    Tracks lim (fun a b => b = a) x (Scan.ofResult x) := by
  cases x with
  | ok a => exact .ok rfl
  | error e =>
    cases e with
    | error e => exact .error e
    | panic p => exact absurd (panics_panic p) h

/-- **Sequencing.** Agreement of the parts gives agreement of the whole. -/
theorem Tracks.bind {R : α → β → Prop} {S : α' → β' → Prop} {x : Fallible ε α} {y : Scan β}
    {f : α → Fallible ε α'} {g : β → Scan β'} (hx : Tracks lim R x y)
    (hf : ∀ a b, x = .ok a → R a b → Tracks lim S (f a) (g b)) :
    Tracks lim S (x >>= f) (y >>= g) := by
  obtain ⟨hp, hy⟩ | ⟨hy, ⟨a, b, rfl, hb, hab⟩ | ⟨⟨e, rfl⟩, hb⟩⟩ := hx
  · exact .inl ⟨panics_bind.mpr (.inl hp), fun h => hy (Scan.fits_bind.mp h).1⟩
  · have hfits : (y >>= g).Fits lim ↔ (g b).Fits lim := by
      rw [Scan.fits_bind, hb]
      constructor
      · rintro ⟨-, h⟩
        exact h b rfl
      · intro h
        exact ⟨hy, fun b' hb' => by rwa [← Option.some.inj hb']⟩
    have hresult : (y >>= g).result = (g b).result := by rw [Scan.result_bind, hb]; rfl
    unfold Tracks
    rw [hfits, hresult, ok_bind]
    exact hf a b rfl hab
  · refine .inr ⟨Scan.fits_bind.mpr ⟨hy, fun b h => ?_⟩, .inr ⟨⟨e, rfl⟩, ?_⟩⟩
    · rw [hb] at h; cases h
    · rw [Scan.result_bind, hb]; rfl

theorem Tracks.bind_left {R : α → β → Prop} {S : α' → β → Prop} {x : Fallible ε α} {y : Scan β}
    {f : α → Fallible ε α'} (hx : Tracks lim R x y)
    (hf : ∀ a b, R a b → ∃ a', f a = .ok a' ∧ S a' b) : Tracks lim S (x >>= f) y := by
  obtain ⟨hp, hy⟩ | ⟨hy, ⟨a, b, rfl, hb, hab⟩ | ⟨⟨e, rfl⟩, hb⟩⟩ := hx
  · exact .inl ⟨panics_bind.mpr (.inl hp), hy⟩
  · obtain ⟨a', ha', hS⟩ := hf a b hab
    exact .inr ⟨hy, .inl ⟨a', b, by rw [ok_bind, ha'], hb, hS⟩⟩
  · exact .inr ⟨hy, .inr ⟨⟨e, rfl⟩, hb⟩⟩

theorem Tracks.not_panics_iff {R : α → β → Prop} {x : Fallible ε α} {y : Scan β}
    (h : Tracks lim R x y) : ¬ Panics x ↔ y.Fits lim := by
  obtain ⟨hp, hy⟩ | ⟨hy, ⟨a, b, rfl, -, -⟩ | ⟨⟨e, rfl⟩, -⟩⟩ := h
  · simp [hp, hy]
  · simp [hy]
  · simp [hy]

end Tracks

/-! ## The scanner of a payload -/

/-- What a reader looks at of a value it has read: text can be a key, an array of texts the keys of
a template. -/
inductive Shape where
  | text
  | list (members : List Shape)
  | other

def Shape.isText : Shape → Bool
  | .text => true
  | _ => false

def scanInt (buf : List UInt8) : Scan (ℤ × ℕ) := Scan.ofResult (readInt buf)

/-- The bytes from `start` on that a length declares, and where they end. -/
def scanSlice (buf : List UInt8) (start : ℕ) (len : ℤ) : Scan (List UInt8 × ℕ) := do
  Scan.declare (.slice start len)
  if 0 ≤ len ∧ start + len ≤ buf.length then
    return ((buf.drop start).take len.toNat, start + len.toNat)
  else Scan.stop

section Loops

-- The scanner of one nested value: its shape and its extent.
variable (scan : List UInt8 → Scan (Shape × ℕ))

def scanItems (buf : List UInt8) : ℕ → ℕ → Scan (List Shape × ℕ)
  | 0, pos => pure ([], pos)
  | count + 1, pos => do
    let (shape, consumed) ← scan (buf.drop pos)
    let (shapes, pos) ← scanItems buf count (pos + consumed)
    return (shape :: shapes, pos)

def scanEntries (buf : List UInt8) : ℕ → ℕ → Scan ℕ
  | 0, pos => pure pos
  | count + 1, pos => do
    let (key, kconsumed) ← scan (buf.drop pos)
    if key.isText then
      let (_, vconsumed) ← scan (buf.drop (pos + kconsumed))
      scanEntries buf count (pos + kconsumed + vconsumed)
    else Scan.stop

def scanCells (buf : List UInt8) : ℕ → ℕ → Scan ℕ
  | 0, pos => pure pos
  | count + 1, pos => do
    if buf[pos]? = some Tag.skip.byte then
      scanCells buf count (pos + 1)
    else
      let (_, consumed) ← scan (buf.drop pos)
      scanCells buf count (pos + consumed)

def scanRows (buf : List UInt8) (width : ℕ) : ℕ → ℕ → Scan ℕ
  | 0, pos => pure pos
  | count + 1, pos => do
    let pos ← scanCells scan buf width pos
    scanRows buf width count pos

def scanValueStep : List UInt8 → Scan (Shape × ℕ)
  | [] => Scan.stop
  | b :: rest =>
    match Tag.ofByte b with
    | some .null | some .true | some .false => pure (.other, 1)
    | some .int8 | some .int16 | some .int32 | some .int64 => do
      let (_, consumed) ← scanInt (b :: rest)
      return (.other, consumed)
    | some .real => if 9 ≤ (b :: rest).length then pure (.other, 9) else Scan.stop
    | some .string | some .utf8 => do
      let (len, lenlen) ← scanInt rest
      let (_, stop) ← scanSlice (b :: rest) (1 + lenlen) len
      return (.text, stop)
    | some .array => do
      let (count, clen) ← scanInt rest
      Scan.declare (.array count)
      let (members, pos) ← scanItems scan (b :: rest) count.toNat (1 + clen)
      return (.list members, pos)
    | some .object => do
      let (count, clen) ← scanInt rest
      Scan.declare (.object count)
      let pos ← scanEntries scan (b :: rest) count.toNat (1 + clen)
      return (.other, pos)
    | some .template => do
      let (keys, keysConsumed) ← scan rest
      match keys with
      | .list members =>
        if members.all Shape.isText then
          let (rowCount, rclen) ← scanInt ((b :: rest).drop (1 + keysConsumed))
          Scan.declare (.rows rowCount)
          let pos ← scanRows scan (b :: rest) members.length rowCount.toNat
            (1 + keysConsumed + rclen)
          return (.other, pos)
        else Scan.stop
      | _ => Scan.stop
    | some .skip | none => Scan.stop

end Loops

/-- The numbers declared by the value at the front of a buffer, its shape and its extent, on a stack
with room for `depth` nested values. -/
def scanValue : ℕ → List UInt8 → Scan (Shape × ℕ)
  | 0 => fun _ => do
    Scan.declare .tooDeep
    Scan.stop
  | depth + 1 => scanValueStep (scanValue depth)

/-- The numbers a PDU declares: the length of its payload and those inside. -/
def scanPdu (depth : ℕ) (buf : List UInt8) : Scan Unit := do
  let header ← Scan.ofResult (headerLen buf)
  let (payloadLen, lenSize) ← scanInt (buf.drop header)
  let (payload, _) ← scanSlice buf (header + lenSize) payloadLen
  let (_, consumed) ← scanValue depth payload
  if consumed = payload.length then return () else Scan.stop

/-- The numbers declared from the length field of a frame on, the payload being scanned by
`scan`. -/
def scanFrame (scan : List UInt8 → Scan Unit) (s : List UInt8) : Scan Unit := do
  let (len, s) ← Scan.ofResult (readIntFrom s)
  Scan.declare (.frame len)
  if len ≤ s.length then scan (s.take len.toNat) else Scan.stop

/-- The numbers the next PDU of a stream declares to `read_pdu`. -/
def scanStream (depth : ℕ) (s : List UInt8) : Scan Unit :=
  match readExact 2 s with
  | none => pure ()
  | some (magic, s) => do
    let (_, s) ← Scan.ofResult (readVersion magic s)
    scanFrame (fun payload => do let _ ← scanValue depth payload; pure ()) s

/-! ## The readers track their scanners -/

/-- The value can be a key. -/
def isText : Value → Bool
  | .string _ => true
  | .bytes _ => true
  | _ => false

/-- A shape says of a value what the readers ask of it. -/
def HasShape (v : Value) : Shape → Prop
  | .text => isText v = true
  | .list members => ∃ a, v = .array a ∧ members.map Shape.isText = a.map isText
  | .other => isText v = false ∧ ∀ a, v ≠ .array a

theorem HasShape.isText_eq {v : Value} {s : Shape} (h : HasShape v s) : s.isText = isText v := by
  cases s with
  | text => exact h.symm
  | list members =>
    obtain ⟨a, rfl, -⟩ := h
    rfl
  | other => exact h.1.symm

theorem HasShape.of_array {items : List Value} {s : Shape} (h : HasShape (.array items) s) :
    ∃ members, s = .list members ∧ members.map Shape.isText = items.map isText := by
  cases s with
  | text => cases h
  | other => exact absurd rfl (h.2 items)
  | list members =>
    obtain ⟨a, ⟨rfl⟩, hmem⟩ := h
    exact ⟨members, rfl, hmem⟩

/-- A value and a shape, read and scanned from the same bytes. -/
def ReadAs (lim : AllocLimits) (a : Value × ℕ) (b : Shape × ℕ) : Prop :=
  b.2 = a.2 ∧ HasShape a.1 b.1 ∧ ∀ items, a.1 = .array items → items.length ≤ lim.vecValue

theorem keyOf_of_isText (refuse : Value → BserMessage) {v : Value} (h : isText v = true) :
    ∃ k, keyOf refuse v = .ok k := by
  cases v <;> simp_all [isText, keyOf]

theorem keyOf_of_not_isText (refuse : Value → BserMessage) {v : Value} (h : isText v = false) :
    ∃ e, keyOf refuse v = .error (.error e) := by
  cases v <;> simp_all [isText, keyOf]

/-- All members are keys, or one of them is refused. -/
theorem mapM_keyOf_cases (refuse : Value → BserMessage) (items : List Value) :
    (items.all isText = true ∧ ∃ keys : List String, keys.length = items.length ∧
      items.mapM (keyOf refuse) = (.ok keys : Result (List String))) ∨
    (items.all isText = false ∧ ∃ e,
      items.mapM (keyOf refuse) = (.error (.error e) : Result (List String))) := by
  induction items with
  | nil => exact .inl ⟨rfl, [], rfl, rfl⟩
  | cons v items ih =>
    rw [List.all_cons, List.mapM_cons]
    cases hv : isText v with
    | false =>
      obtain ⟨e, he⟩ := keyOf_of_not_isText refuse hv
      exact .inr ⟨rfl, e, by rw [he]; rfl⟩
    | true =>
      obtain ⟨k, hk⟩ := keyOf_of_isText refuse hv
      rw [hk, ok_bind, Bool.true_and]
      obtain ⟨hall, keys, hlen, hkeys⟩ | ⟨hall, e, he⟩ := ih
      · exact .inl ⟨hall, k :: keys, by rw [List.length_cons, hlen, List.length_cons], by
          rw [hkeys]; rfl⟩
      · exact .inr ⟨hall, e, by rw [he]; rfl⟩

section Primitives

variable {lim : AllocLimits}

theorem tracks_readInt (buf : List UInt8) :
    Tracks lim (fun a b => b = a) (readInt buf) (scanInt buf) :=
  .ofResult (not_panics_readInt buf)

theorem tracks_withCapacity {ε : Type} {limit : ℕ} {count : ℤ} {d : Declared}
    (hd : d.Fits lim ↔ count ≤ limit) :
    Tracks lim (fun _ _ => count ≤ limit) (withCapacity limit count.toNat : Fallible ε Unit)
      (Scan.declare d) := by
  have hfits : (Scan.declare d).Fits lim ↔ count ≤ limit := by
    simp [Scan.Fits, Scan.declare, hd]
  unfold withCapacity
  split_ifs with h
  · exact .inl ⟨panics_panic _, by rw [hfits]; omega⟩
  · have hle : count ≤ limit := by omega
    exact .inr ⟨hfits.mpr hle, .inl ⟨(), (), rfl, rfl, hle⟩⟩

theorem fits_scanSlice {buf : List UInt8} {start : ℕ} {len : ℤ} :
    (scanSlice buf start len).Fits lim ↔ 0 ≤ len ∨ start + len < 0 := by
  have hdeclare : (Scan.declare (.slice start len)).Fits lim ↔ 0 ≤ len ∨ start + len < 0 := by
    simp [Scan.Fits, Scan.declare, Declared.Fits]
  rw [scanSlice, Scan.fits_bind, hdeclare, and_iff_left_iff_imp]
  intro _ _ _
  split_ifs
  · exact Scan.fits_pure _
  · exact Scan.fits_stop

theorem result_scanSlice {buf : List UInt8} {start : ℕ} {len : ℤ} :
    (scanSlice buf start len).result =
      if 0 ≤ len ∧ start + len ≤ buf.length then
        some ((buf.drop start).take len.toNat, start + len.toNat) else none := by
  rw [scanSlice, Scan.result_bind]
  change (if 0 ≤ len ∧ start + len ≤ buf.length then _ else _ : Scan (List UInt8 × ℕ)).result = _
  split_ifs <;> rfl

/-- The check and the slice a declared length goes through. -/
theorem tracks_slice {buf : List UInt8} {start : ℕ} {len : ℤ} (hbuf : buf.length < 2 ^ 63)
    (hstart : start ≤ buf.length) (hlo : -2 ^ 63 ≤ len) (hhi : len < 2 ^ 63) :
    Tracks lim (fun a b => b = (a, usizeAdd start (asUsize len)) ∧ asUsize len = a.length)
      (do
        need buf (usizeAdd start (asUsize len))
        sliceRange buf start (usizeAdd start (asUsize len)))
      (scanSlice buf start len) := by
  unfold Tracks
  rw [fits_scanSlice, result_scanSlice]
  by_cases hpos : 0 ≤ len
  · -- a length that is a length: no wrapping
    have hu : asUsize len = len.toNat := by unfold asUsize; omega
    have hstop : usizeAdd start (asUsize len) = start + len.toNat := by
      rw [hu, usizeAdd]; omega
    rw [hstop, hu]
    refine .inr ⟨.inl hpos, ?_⟩
    by_cases hle : start + len ≤ buf.length
    · rw [if_pos ⟨hpos, hle⟩, need_eq_ok.mpr (by omega), ok_bind,
        sliceRange_of_le (by omega) (by omega), Nat.add_sub_cancel_left]
      refine .inl ⟨_, _, rfl, rfl, rfl, ?_⟩
      rw [List.length_take, List.length_drop]
      omega
    · rw [if_neg (by omega)]
      refine .inr ⟨⟨.truncated, ?_⟩, rfl⟩
      unfold need
      rw [if_pos (by omega)]
      rfl
  · rw [if_neg (by omega)]
    by_cases hback : start + len < 0
    · -- so far back that the end, modulo 2 ^ 64, lies past every buffer
      refine .inr ⟨.inr hback, .inr ⟨⟨.truncated, ?_⟩, rfl⟩⟩
      have hstop : buf.length < usizeAdd start (asUsize len) := by
        unfold usizeAdd asUsize; omega
      unfold need
      rw [if_pos hstop]
      rfl
    · -- the end wraps around to before the start
      have hstop : usizeAdd start (asUsize len) < start := by
        unfold usizeAdd asUsize; omega
      refine .inl ⟨⟨.sliceOrder start (usizeAdd start (asUsize len)), ?_⟩, by omega⟩
      rw [need_eq_ok.mpr (by omega), ok_bind]
      unfold sliceRange
      rw [if_pos hstop]

end Primitives

section Loops

variable {lim : AllocLimits} {read : List UInt8 → Result (Value × ℕ)}
  {scan : List UInt8 → Scan (Shape × ℕ)} {buf : List UInt8}
  (hread : ∀ s, s.length < 2 ^ 63 → Tracks lim (ReadAs lim) (read s) (scan s))
  (hcons : Consumes read) (hbuf : buf.length < 2 ^ 63)

include hread hbuf

theorem tracks_read_at {pos : ℕ} (hpos : pos ≤ buf.length) :
    Tracks lim (ReadAs lim) (sliceFrom buf pos >>= read) (scan (buf.drop pos)) := by
  rw [sliceFrom_of_le hpos, ok_bind]
  exact hread _ (by rw [List.length_drop]; omega)

include hcons

theorem tracks_readItems (count : ℕ) : ∀ pos ≤ buf.length,
    Tracks lim (fun a b => b.2 = a.2 ∧ b.1.map Shape.isText = a.1.map isText)
      (readItems read buf count pos) (scanItems scan buf count pos) := by
  induction count with
  | zero => intro pos _; exact .ok ⟨rfl, rfl⟩
  | succ count ih =>
    intro pos hpos
    rw [readItems, scanItems, ← bind_assoc]
    refine (tracks_read_at hread hbuf hpos).bind ?_
    rintro ⟨v, c⟩ ⟨shape, c'⟩ hok ⟨rfl, hshape, -⟩
    refine (ih _ (read_sliceFrom_le hcons hok)).bind ?_
    rintro ⟨items, p⟩ ⟨shapes, p'⟩ - ⟨rfl, hshapes⟩
    refine .ok ⟨rfl, ?_⟩
    rw [List.map_cons, List.map_cons, hshape.isText_eq, hshapes]

theorem tracks_readEntries (count : ℕ) : ∀ pos ≤ buf.length, ∀ obj,
    Tracks lim (fun a b => b = a.2) (readEntries read buf count pos obj)
      (scanEntries scan buf count pos) := by
  induction count with
  | zero => intro pos _ obj; exact .ok rfl
  | succ count ih =>
    intro pos hpos obj
    rw [readEntries, scanEntries, ← bind_assoc]
    refine (tracks_read_at hread hbuf hpos).bind ?_
    rintro ⟨k, kc⟩ ⟨shape, kc'⟩ hok ⟨rfl, hshape, -⟩
    have hk := read_sliceFrom_le hcons hok
    simp only [hshape.isText_eq]
    cases ht : isText k with
    | false =>
      obtain ⟨e, he⟩ := keyOf_of_not_isText .objectKey ht
      rw [he, error_bind]
      exact .error e
    | true =>
      obtain ⟨key, hkey⟩ := keyOf_of_isText .objectKey ht
      rw [hkey, ok_bind, if_pos rfl, ← bind_assoc]
      refine (tracks_read_at hread hbuf hk).bind ?_
      rintro ⟨v, vc⟩ ⟨shape', vc'⟩ hok' ⟨rfl, -, -⟩
      exact ih _ (read_sliceFrom_le hcons hok') _

theorem tracks_readCells (count : ℕ) : ∀ pos ≤ buf.length,
    Tracks lim (fun a b => b = a.2) (readCells read buf count pos)
      (scanCells scan buf count pos) := by
  induction count with
  | zero => intro pos _; exact .ok rfl
  | succ count ih =>
    intro pos hpos
    rw [readCells, scanCells]
    split_ifs with hskip
    · have hlt : pos < buf.length := (List.getElem?_eq_some_iff.mp hskip).1
      refine (ih _ hlt).bind_left ?_
      rintro ⟨cells, p⟩ p' rfl
      exact ⟨_, rfl, rfl⟩
    · rw [← bind_assoc]
      refine (tracks_read_at hread hbuf hpos).bind ?_
      rintro ⟨v, c⟩ ⟨shape, c'⟩ hok ⟨rfl, -, -⟩
      refine (ih _ (read_sliceFrom_le hcons hok)).bind_left ?_
      rintro ⟨cells, p⟩ p' rfl
      exact ⟨_, rfl, rfl⟩

theorem tracks_readRows {width : ℕ} (hw : width ≤ lim.vecValue) (count : ℕ) :
    ∀ pos ≤ buf.length, Tracks lim (fun a b => b = a.2) (readRows read lim buf width count pos)
      (scanRows scan buf width count pos) := by
  induction count with
  | zero => intro pos _; exact .ok rfl
  | succ count ih =>
    intro pos hpos
    -- the width is the length of an array that was reserved before
    rw [readRows, scanRows, withCapacity_of_le hw, ok_bind]
    refine (tracks_readCells hread hcons hbuf width pos hpos).bind ?_
    rintro ⟨row, p⟩ p' hok rfl
    have hrow : RowAt read lim buf width pos row p' := ⟨hw, readCells_eq_ok.mp hok⟩
    refine (ih _ (hrow.end_le hcons hpos)).bind_left ?_
    rintro ⟨rows, q⟩ q' rfl
    exact ⟨_, rfl, rfl⟩

/-- A template: its keys, and then its rows if the keys are texts. -/
theorem tracks_template {b : UInt8} {rest : List UInt8} (hb : buf = b :: rest)
    (htag : Tag.ofByte b = some .template) :
    Tracks lim (ReadAs lim) (readValueStep read lim buf) (scanValueStep scan buf) := by
  subst hb
  have hrest : rest.length < 2 ^ 63 := by rw [List.length_cons] at hbuf; omega
  rw [readValueStep, scanValueStep, htag]
  refine (hread rest hrest).bind ?_
  rintro ⟨keysVal, kc⟩ ⟨shape, kc'⟩ hok ⟨rfl, hshape, hcount⟩
  have hkc := (hcons _ _ _ hok).2
  dsimp only
  split
  · -- the keys are an array, and their shape is the list of its members' shapes
    rename_i items
    obtain ⟨members, rfl, hmem⟩ := hshape.of_array
    have hcount := hcount items rfl
    have hall : members.all Shape.isText = items.all isText := by
      have := congrArg (List.all · id) hmem
      simpa [List.all_map] using this
    have hmlen : members.length = items.length := by
      have := congrArg List.length hmem
      simpa using this
    simp only [hall]
    obtain ⟨ht, keys, hlen', hkeys⟩ | ⟨hf, e, he⟩ := mapM_keyOf_cases .templateKey items
    · have hdrop : 1 + kc' ≤ (b :: rest).length := by rw [List.length_cons]; omega
      rw [ht, if_pos rfl, hkeys, ok_bind, sliceFrom_of_le hdrop, ok_bind]
      refine (tracks_readInt _).bind ?_
      rintro ⟨rowCount, rclen⟩ _ hrc rfl
      have hr := (readInt_eq_ok hrc).2.2.1
      rw [List.length_drop] at hr
      refine (tracks_withCapacity (d := .rows rowCount) Iff.rfl).bind ?_
      rintro - - - -
      rw [hmlen, ← hlen']
      refine (tracks_readRows hread hcons hbuf (by omega) _ _ (by omega)).bind ?_
      rintro ⟨rows, p⟩ p' - rfl
      exact .ok ⟨rfl, ⟨rfl, by simp⟩, by simp⟩
    · rw [hf, he, error_bind]
      exact .error e
  · rename_i hne
    cases shape with
    | list members =>
      obtain ⟨items, rfl, -⟩ := hshape
      exact absurd rfl (hne items)
    | text => exact .error _
    | other => exact .error _

/-- The body of `read_value` is tracked when its recursive calls are. -/
theorem tracks_readValueStep :
    Tracks lim (ReadAs lim) (readValueStep read lim buf) (scanValueStep scan buf) := by
  cases buf with
  | nil => exact .error _
  | cons b rest =>
    have hlen : ∀ {m c}, readInt rest = .ok (m, c) → 1 + c ≤ (b :: rest).length := fun hi => by
      have := (readInt_eq_ok hi).2.2.1
      rw [List.length_cons]; omega
    rw [readValueStep, scanValueStep]
    cases htag : Tag.ofByte b with
    | none => exact .error _
    | some t =>
      cases t
      case null | true | false => exact .ok ⟨rfl, ⟨rfl, by simp⟩, by simp⟩
      case int8 | int16 | int32 | int64 =>
        refine (tracks_readInt (b :: rest)).bind ?_
        rintro ⟨n, c⟩ _ - rfl
        exact .ok ⟨rfl, ⟨rfl, by simp⟩, by simp⟩
      case real =>
        simp only
        split_ifs with h9
        · rw [need_eq_ok.mpr h9, ok_bind]
          exact .ok ⟨rfl, ⟨rfl, by simp⟩, by simp⟩
        · unfold need
          rw [if_pos (by omega), error_bind]
          exact .error _
      case string | utf8 =>
        refine (tracks_readInt rest).bind ?_
        rintro ⟨len, lenlen⟩ _ hok rfl
        have hi := readInt_eq_ok hok
        simp only
        rw [← bind_assoc]
        refine (tracks_slice hbuf (hlen hok) hi.2.2.2.1 hi.2.2.2.2).bind ?_
        rintro slice _ - ⟨rfl, -⟩
        refine .ok ⟨rfl, ?_, ?_⟩
        · unfold stringOfSlice; split <;> rfl
        · unfold stringOfSlice; split <;> simp
      case array =>
        refine (tracks_readInt rest).bind ?_
        rintro ⟨count, clen⟩ _ hok rfl
        refine (tracks_withCapacity (d := .array count) Iff.rfl).bind ?_
        rintro - - - hcount
        refine (tracks_readItems hread hcons hbuf _ _ (hlen hok)).bind ?_
        rintro ⟨items, p⟩ ⟨shapes, p'⟩ hok' ⟨rfl, hshapes⟩
        refine .ok ⟨rfl, ⟨items, rfl, hshapes⟩, ?_⟩
        rintro _ ⟨rfl⟩
        have hl := (readItems_eq_ok.mp hok').1
        change items.length ≤ lim.vecValue
        omega
      case object =>
        refine (tracks_readInt rest).bind ?_
        rintro ⟨count, clen⟩ _ hok rfl
        refine (tracks_withCapacity (d := .object count) Iff.rfl).bind ?_
        rintro - - - -
        refine (tracks_readEntries hread hcons hbuf _ _ (hlen hok) _).bind ?_
        rintro ⟨obj, p⟩ p' - rfl
        exact .ok ⟨rfl, ⟨rfl, by simp⟩, by simp⟩
      case template =>
        have htemplate := tracks_template hread hcons hbuf rfl htag
        rw [readValueStep, scanValueStep, htag] at htemplate
        exact htemplate
      case skip => exact .error _

end Loops

theorem tracks_readValueOn {lim : AllocLimits} (depth : ℕ) : ∀ buf : List UInt8,
    buf.length < 2 ^ 63 →
      Tracks lim (ReadAs lim) (readValueOn lim depth buf) (scanValue depth buf) := by
  induction depth with
  | zero =>
    intro buf _
    have hdeclared : Declared.tooDeep ∈ (scanValue 0 buf).declared := List.mem_singleton_self _
    exact .inl ⟨panics_panic _, fun h => h _ hdeclared⟩
  | succ depth ih =>
    intro buf hbuf
    exact tracks_readValueStep ih (readValueOn_consumes lim depth) hbuf

/-! ## PDUs -/

section Pdus

variable {lim : AllocLimits} {depth : ℕ}

theorem headerLen_cases (buf : List UInt8) : (∃ e, headerLen buf = .error (.error e)) ∨
    ∃ n, headerLen buf = .ok n ∧ n ≤ buf.length := by
  unfold headerLen
  split_ifs
  · exact .inl ⟨_, rfl⟩
  · exact .inr ⟨_, rfl, by omega⟩
  · exact .inl ⟨_, rfl⟩
  · exact .inr ⟨_, rfl, by omega⟩
  · exact .inl ⟨_, rfl⟩

theorem not_panics_headerLen (buf : List UInt8) : ¬ Panics (headerLen buf) := by
  obtain ⟨e, he⟩ | ⟨n, hn, -⟩ := headerLen_cases buf
  · rw [he]; exact not_panics_error e
  · rw [hn]; exact not_panics_ok n

theorem headerLen_le {buf : List UInt8} {n : ℕ} (h : headerLen buf = .ok n) : n ≤ buf.length := by
  obtain ⟨e, he⟩ | ⟨m, hm, hle⟩ := headerLen_cases buf
  · rw [h] at he; cases he
  · rw [h] at hm
    cases hm
    exact hle

theorem tracks_decodePdu {buf : List UInt8} (hbuf : buf.length < 2 ^ 63) :
    Tracks lim (fun _ _ => True) (decodePduWith (readValueOn lim depth) buf)
      (scanPdu depth buf) := by
  unfold decodePduWith scanPdu
  refine (Tracks.ofResult (not_panics_headerLen buf)).bind ?_
  rintro n _ hn rfl
  have hle := headerLen_le hn
  rw [sliceFrom_of_le hle, ok_bind]
  refine (tracks_readInt _).bind ?_
  rintro ⟨len, lenSize⟩ _ hok rfl
  have hi := readInt_eq_ok hok
  rw [List.length_drop] at hi
  simp only
  rw [← bind_assoc]
  refine (tracks_slice hbuf (by omega) hi.2.2.2.1 hi.2.2.2.2).bind ?_
  rintro payload _ hp ⟨rfl, hplen⟩
  obtain ⟨u, -, hslice⟩ := bind_eq_ok.mp hp
  have hs := sliceRange_eq_ok hslice
  have hplt : payload.length < 2 ^ 63 := by
    rw [hs.2.2, List.length_take, List.length_drop]; omega
  refine (tracks_readValueOn depth payload hplt).bind ?_
  rintro ⟨v, c⟩ ⟨shape, c'⟩ - ⟨rfl, -, -⟩
  simp only [hplen]
  split_ifs
  · exact .ok trivial
  · exact .error _

theorem not_panics_okOr {ε α : Type} (e : ε) (x : Option α) : ¬ Panics (okOr e x) := by
  cases x with
  | none => exact not_panics_error e
  | some a => exact not_panics_ok a

theorem not_panics_bind {ε α β : Type} {x : Fallible ε α} {f : α → Fallible ε β}
    (hx : ¬ Panics x) (hf : ∀ a, ¬ Panics (f a)) : ¬ Panics (x >>= f) := by
  rw [panics_bind]
  rintro (h | ⟨a, -, h⟩)
  · exact hx h
  · exact hf a h

theorem not_panics_readIntFrom (s : List UInt8) : ¬ Panics (readIntFrom s) := by
  refine not_panics_bind (not_panics_okOr _ _) fun x => ?_
  refine not_panics_bind (not_panics_okOr _ _) fun w => ?_
  refine not_panics_bind (not_panics_okOr _ _) fun y => ?_
  exact not_panics_ok _

theorem not_panics_readVersion (magic s : List UInt8) : ¬ Panics (readVersion magic s) := by
  unfold readVersion
  split_ifs
  · exact not_panics_ok _
  · exact not_panics_bind (not_panics_okOr _ _) fun _ => not_panics_ok _
  · exact not_panics_error _

theorem okOr_eq_ok {ε α : Type} {e : ε} {x : Option α} {a : α} (h : okOr e x = .ok a) :
    x = some a := by
  cases x with
  | none => cases h
  | some b => cases h; rfl

theorem readExact_eq_some {n : ℕ} {s raw rest : List UInt8}
    (h : readExact n s = some (raw, rest)) :
    n ≤ s.length ∧ raw = s.take n ∧ rest = s.drop n := by
  unfold readExact at h
  split_ifs at h with hlt
  cases h
  exact ⟨by omega, rfl, rfl⟩

/-- An integer of a stream is an `i64`. -/
theorem readIntFrom_range {s rest : List UInt8} {n : ℤ} (h : readIntFrom s = .ok (n, rest)) :
    -2 ^ 63 ≤ n ∧ n < 2 ^ 63 := by
  obtain ⟨⟨tag, s'⟩, -, h⟩ := bind_eq_ok.mp h
  obtain ⟨w, hw, h⟩ := bind_eq_ok.mp h
  obtain ⟨⟨raw, rest'⟩, hraw, h⟩ := bind_eq_ok.mp h
  cases h
  obtain ⟨hle, rfl, rfl⟩ := readExact_eq_some (okOr_eq_ok hraw)
  have hrange := @signedInt_take_range (0 :: s') w (intWidth_eq_some (okOr_eq_ok hw))
    (by rw [List.length_cons]; omega)
  simpa using hrange

/-- The buffer of a frame and the bytes read into it. -/
theorem tracks_frame {ε : Type} {e : ε} {len : ℤ} {s : List UInt8}
    (scan : List UInt8 → Scan Unit) (hlo : -2 ^ 63 ≤ len) (hhi : len < 2 ^ 63) {α : Type}
    {f : List UInt8 × List UInt8 → Fallible ε α}
    (hf : ∀ payload rest, payload.length < 2 ^ 63 →
      Tracks lim (fun _ _ => True) (f (payload, rest)) (scan payload)) :
    Tracks lim (fun _ _ => True)
      (do
        zeroed lim (asUsize len)
        f (← okOr e (readExact (asUsize len) s)))
      (do
        Scan.declare (.frame len)
        if len ≤ s.length then scan (s.take len.toNat) else Scan.stop) := by
  have hzero : Tracks lim (fun _ _ => 0 ≤ len) (zeroed lim (asUsize len) : Fallible ε Unit)
      (Scan.declare (.frame len)) := by
    have hfits : (Scan.declare (.frame len)).Fits lim ↔ 0 ≤ len ∧ len ≤ lim.frame := by
      simp [Scan.Fits, Scan.declare, Declared.Fits]
    have hframe := lim.frame_lt
    unfold zeroed withCapacity asUsize
    split_ifs with h
    · exact .inl ⟨panics_panic _, by rw [hfits]; omega⟩
    · have hnn : 0 ≤ len ∧ len ≤ lim.frame := by omega
      exact .inr ⟨hfits.mpr hnn, .inl ⟨(), (), rfl, rfl, hnn.1⟩⟩
  refine hzero.bind ?_
  rintro - - - hnn
  have hu : asUsize len = len.toNat := by unfold asUsize; omega
  rw [hu]
  unfold readExact
  by_cases hle : len ≤ s.length
  · rw [if_neg (by omega), if_pos hle]
    change Tracks lim _ (f (_, _)) _
    exact hf _ _ (by rw [List.length_take]; omega)
  · rw [if_pos (by omega), if_neg hle]
    exact .error e

theorem tracks_readPdu (s : List UInt8) :
    Tracks lim (fun _ _ => True) (readPdu lim (readValueOn lim depth) s) (scanStream depth s) := by
  unfold readPdu scanStream
  cases h : readExact 2 s with
  | none => exact .ok trivial
  | some x =>
    obtain ⟨magic, s⟩ := x
    refine (Tracks.ofResult (not_panics_readVersion magic s)).bind ?_
    rintro ⟨version, s⟩ _ - rfl
    refine (Tracks.ofResult (not_panics_readIntFrom s)).bind ?_
    rintro ⟨len, s⟩ _ hok rfl
    obtain ⟨hlo, hhi⟩ := readIntFrom_range hok
    refine tracks_frame (fun payload => do let _ ← scanValue depth payload; pure ()) hlo hhi
      fun payload rest hp => ?_
    refine (tracks_readValueOn depth payload hp).bind ?_
    rintro ⟨v, c⟩ ⟨shape, c'⟩ - -
    exact .ok trivial

end Pdus

end Watchwoman.Bser
