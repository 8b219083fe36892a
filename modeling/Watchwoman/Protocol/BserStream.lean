import Watchwoman.Protocol.BserSafety

/-!
# Reading a slice and reading a stream

`decode_pdu` takes a frame apart in a slice, `read_pdu` from a stream. What they have in common is
`splitFrame`: the version, the payload and what follows it. They part where a stream ends after one
byte, which `read_pdu` takes for its end, where a payload has bytes behind its value, which `read_pdu`
does not look at, and where `read_pdu` cannot allocate the buffer of the frame
(`stream_agrees_iff`).
-/

namespace Watchwoman.Bser

open Fallible LittleEndian

/-- The computation ends in an error. -/
def Fails {ε α : Type} (x : Fallible ε α) : Prop := ∃ e, x = .error (.error e)

theorem Fails.bind {ε α β : Type} {x : Fallible ε α} (h : Fails x) (f : α → Fallible ε β) :
    Fails (x >>= f) := by
  obtain ⟨e, rfl⟩ := h
  exact ⟨e, rfl⟩

theorem Fails.ne_ok {ε α : Type} {x : Fallible ε α} (h : Fails x) (a : α) : x ≠ .ok a := by
  obtain ⟨e, rfl⟩ := h
  rintro ⟨⟩

/-! ## Frames -/

/-- The version of the frame at the front of a stream, its payload, and what follows it. -/
def splitFrame (s : List UInt8) : Result (Encoding × List UInt8 × List UInt8) := do
  let (magic, s) ← okOr .truncated (readExact 2 s)
  let (version, s) ← readVersion magic s
  let (length, s) ← readIntFrom s
  let (payload, s) ← okOr .unexpectedEof (readExact length.toNat s)
  return (version, payload, s)

def magicVersion (buf : List UInt8) : Encoding := if buf.take 2 = magicV2 then .bserV2 else .bserV1

/-- An integer is read from a slice as from a stream. -/
theorem readInt_cases_stream (s : List UInt8) :
    (Fails (readInt s) ∧ Fails (readIntFrom s)) ∨
      ∃ n c, readInt s = .ok (n, c) ∧ readIntFrom s = .ok (n, s.drop c) := by
  cases s with
  | nil => exact .inl ⟨⟨_, rfl⟩, ⟨_, rfl⟩⟩
  | cons b rest =>
    have htag : readExact 1 (b :: rest) = some ([b], rest) := rfl
    unfold readIntFrom
    rw [htag]
    simp only [readInt, okOr, ok_bind, List.headD_cons]
    cases hw : intWidth b with
    | none => exact .inl ⟨⟨_, rfl⟩, ⟨_, rfl⟩⟩
    | some w =>
      simp only [ok_bind]
      unfold readExact
      split_ifs with hshort
      · obtain hfail | ⟨hlen, -⟩ := readIntField_cases (b :: rest) w
        · exact .inl ⟨⟨_, hfail⟩, ⟨_, rfl⟩⟩
        · rw [List.length_cons] at hlen
          omega
      · have hok : readIntField (b :: rest) w = .ok (signedInt (rest.take w), 1 + w) := by
          unfold readIntField
          rw [need_eq_ok.mpr (by rw [List.length_cons]; omega)]
          rfl
        refine .inr ⟨_, _, hok, ?_⟩
        rw [Nat.add_comm 1 w]
        rfl

/-- A header is read from a slice as from a stream. -/
theorem header_cases (b : List UInt8) :
    (Fails (headerLen b) ∧
      Fails (okOr ProtocolError.truncated (readExact 2 b) >>= fun x => readVersion x.1 x.2)) ∨
    ∃ h, headerLen b = .ok h ∧ h ≤ b.length ∧ 2 ≤ h ∧
      (okOr ProtocolError.truncated (readExact 2 b) >>= fun x => readVersion x.1 x.2) =
        .ok (magicVersion b, b.drop h) := by
  by_cases hshort : b.length < 2
  · have hnone : readExact 2 b = none := if_pos hshort
    have hfail : headerLen b = .error (.error .truncated) := if_pos hshort
    rw [hnone]
    exact .inl ⟨⟨_, hfail⟩, ⟨_, rfl⟩⟩
  · have hsome : readExact 2 b = some (b.take 2, b.drop 2) := if_neg hshort
    rw [hsome]
    show (_ ∧ Fails (readVersion (b.take 2) (b.drop 2))) ∨ ∃ h, _ ∧ _ ∧ _ ∧
      readVersion (b.take 2) (b.drop 2) = _
    unfold headerLen readVersion magicVersion
    rw [if_neg hshort]
    by_cases h1 : b.take 2 = magicV1
    · have hne : b.take 2 ≠ magicV2 := by
        rw [h1]
        decide
      rw [if_pos h1, if_pos h1, if_neg hne]
      exact .inr ⟨2, rfl, by omega, le_rfl, rfl⟩
    · rw [if_neg h1, if_neg h1]
      by_cases h2 : b.take 2 = magicV2
      · rw [if_pos h2, if_pos h2, if_pos h2]
        unfold readExact
        rw [List.length_drop]
        split_ifs with h6 hcaps hcaps
        · exact .inl ⟨⟨_, rfl⟩, ⟨_, rfl⟩⟩
        · omega
        · omega
        · refine .inr ⟨6, rfl, by omega, by omega, ?_⟩
          show Except.ok (Encoding.bserV2, (b.drop 2).drop 4) = _
          rw [List.drop_drop]
      · rw [if_neg h2, if_neg h2]
        exact .inl ⟨⟨_, rfl⟩, ⟨_, rfl⟩⟩

/-- The frame in a slice: a header, the length of the payload, and enough bytes for it. -/
theorem splitFrame_cases (b : List UInt8) :
    (Fails (splitFrame b) ∧ (Fails (headerLen b) ∨ ∃ h, headerLen b = .ok h ∧ h ≤ b.length ∧
      (Fails (readInt (b.drop h)) ∨ ∃ n c, readInt (b.drop h) = .ok (n, c) ∧
        b.length < h + c + n.toNat))) ∨
    ∃ h n c, headerLen b = .ok h ∧ readInt (b.drop h) = .ok (n, c) ∧ 2 ≤ h ∧
      h + c + n.toNat ≤ b.length ∧ splitFrame b =
        .ok (magicVersion b, (b.drop (h + c)).take n.toNat, b.drop (h + c + n.toNat)) := by
  have hsplit : splitFrame b =
      ((okOr ProtocolError.truncated (readExact 2 b) >>= fun x => readVersion x.1 x.2) >>= fun y =>
        readIntFrom y.2 >>= fun z => okOr .unexpectedEof (readExact z.1.toNat z.2) >>= fun u =>
          .ok (y.1, u.1, u.2)) := by
    unfold splitFrame
    rw [bind_assoc]
    rfl
  rw [hsplit]
  rcases header_cases b with ⟨hfail, hversion⟩ | ⟨h, hok, hle, h2, hversion⟩
  · exact .inl ⟨hversion.bind _, .inl hfail⟩
  · rw [hversion, ok_bind]
    rcases readInt_cases_stream (b.drop h) with ⟨hfail, hint⟩ | ⟨n, c, hread, hint⟩
    · exact .inl ⟨hint.bind _, .inr ⟨h, hok, hle, .inl hfail⟩⟩
    · have hc := (readInt_eq_ok hread).2.2.1
      rw [List.length_drop] at hc
      rw [hint, ok_bind, List.drop_drop]
      unfold readExact
      rw [List.length_drop]
      split_ifs with hshort
      · exact .inl ⟨⟨_, rfl⟩, .inr ⟨h, hok, hle, .inr ⟨n, c, hread, by omega⟩⟩⟩
      · refine .inr ⟨h, n, c, hok, hread, h2, by omega, ?_⟩
        show Except.ok (magicVersion b, _, ((b.drop (h + c)).drop n.toNat)) = _
        rw [List.drop_drop]

/-! ## Negative numbers -/

/-- The number is not negative. -/
def Declared.NonNeg : Declared → Prop
  | .slice _ len => 0 ≤ len
  | .frame len => 0 ≤ len
  | .copy _ => True
  | .array count => 0 ≤ count
  | .object count => 0 ≤ count
  | .rows count => 0 ≤ count
  | .tooDeep => True

instance : (d : Declared) → Decidable d.NonNeg
  | .slice _ len => inferInstanceAs (Decidable (0 ≤ len))
  | .frame len => inferInstanceAs (Decidable (0 ≤ len))
  | .copy _ => inferInstanceAs (Decidable True)
  | .array count => inferInstanceAs (Decidable (0 ≤ count))
  | .object count => inferInstanceAs (Decidable (0 ≤ count))
  | .rows count => inferInstanceAs (Decidable (0 ≤ count))
  | .tooDeep => inferInstanceAs (Decidable True)

/-- Neither reader meets a negative length or count. -/
structure NoNegative (depth : ℕ) (b : List UInt8) : Prop where
  slice : ∀ d ∈ (scanPdu depth b).declared, d.NonNeg
  stream : ∀ d ∈ (scanStream depth b).declared, d.NonNeg

namespace Scan

variable {α β : Type} {x : Scan α} {f : α → Scan β} {d : Declared}

theorem mem_bind_left (h : d ∈ x.declared) : d ∈ (x >>= f).declared := by
  change d ∈ (x.bind f).declared
  unfold bind
  cases x.result with
  | none => exact h
  | some a => exact List.mem_append_left _ h

theorem mem_bind_right {a : α} (ha : x.result = some a) (h : d ∈ (f a).declared) :
    d ∈ (x >>= f).declared := by
  change d ∈ (x.bind f).declared
  unfold bind
  rw [ha]
  exact List.mem_append_right _ h

end Scan

theorem NoNegative.payloadLen {b : List UInt8} {depth : ℕ} (h : NoNegative depth b) {n : ℤ}
    {header c : ℕ}
    (hheader : headerLen b = .ok header) (hread : readInt (b.drop header) = .ok (n, c)) :
    0 ≤ n := by
  refine h.slice (.slice (header + c) n) ?_
  unfold scanPdu
  rw [hheader]
  refine Scan.mem_bind_right (a := header) rfl ?_
  have hscan : scanInt (b.drop header) = ⟨[], some (n, c)⟩ := by
    unfold scanInt
    rw [hread]
    rfl
  rw [hscan]
  refine Scan.mem_bind_right (a := (n, c)) rfl (Scan.mem_bind_left (Scan.mem_bind_left ?_))
  exact List.mem_singleton.mpr rfl

theorem NoNegative.frameLen {b magic s s₁ s₂ : List UInt8} {depth : ℕ} (h : NoNegative depth b)
    {n : ℤ} {version : Encoding} (hmagic : readExact 2 b = some (magic, s))
    (hversion : readVersion magic s = .ok (version, s₁)) (hread : readIntFrom s₁ = .ok (n, s₂)) :
    0 ≤ n := by
  refine h.stream (.frame n) ?_
  unfold scanStream scanFrame
  rw [hmagic]
  simp only
  rw [hversion]
  refine Scan.mem_bind_right (a := (version, s₁)) rfl ?_
  simp only
  rw [hread]
  refine Scan.mem_bind_right (a := (n, s₂)) rfl (Scan.mem_bind_left ?_)
  exact List.mem_singleton.mpr rfl

/-! ## The two readers on a frame -/

section Readers

variable {lim : AllocLimits} {read : List UInt8 → Result (Value × ℕ)} {depth : ℕ} {b : List UInt8}

theorem asUsize_of_nonneg {n : ℤ} (h : 0 ≤ n) (hlt : n < 2 ^ 63) : asUsize n = n.toNat := by
  unfold asUsize
  omega

/-- `read_pdu` reads the value at the front of the payload and drops the payload. -/
theorem readPdu_eq (h2 : 2 ≤ b.length) (hneg : NoNegative depth b)
    (hsurvives : ¬ Panics (readPdu lim read b)) :
    readPdu lim read b = splitFrame b >>= fun x => read x.2.1 >>= fun y =>
      .ok (some (y.1, x.1), x.2.2) := by
  have hmagic : readExact 2 b = some (b.take 2, b.drop 2) := if_neg (by omega)
  unfold readPdu at hsurvives ⊢
  unfold splitFrame
  rw [hmagic] at hsurvives ⊢
  simp only [okOr, ok_bind] at hsurvives ⊢
  cases hversion : readVersion (b.take 2) (b.drop 2) with
  | error e => rfl
  | ok x =>
    obtain ⟨version, s₁⟩ := x
    rw [hversion] at hsurvives
    simp only [ok_bind] at hsurvives ⊢
    cases hread : readIntFrom s₁ with
    | error e => rfl
    | ok y =>
      obtain ⟨n, s₂⟩ := y
      have hlt := (readIntFrom_range hread).2
      have husize := asUsize_of_nonneg (hneg.frameLen hmagic hversion hread) hlt
      rw [hread] at hsurvives
      simp only [ok_bind] at hsurvives ⊢
      by_cases hfits : asUsize n ≤ lim.frame
      · have hzeroed : (zeroed lim (asUsize n) : Result Unit) = .ok () := withCapacity_of_le hfits
        rw [hzeroed, husize, ok_bind]
        cases readExact n.toNat s₂ with
        | none => rfl
        | some z => rfl
      · have hzeroed : (zeroed lim (asUsize n) : Result Unit) =
            .error (.panic (.capacityOverflow (asUsize n))) := if_pos (by omega)
        rw [hzeroed] at hsurvives
        exact absurd (panics_panic _) hsurvives

/-- `decode_pdu` reads the same value, and refuses a payload that goes on behind it. -/
theorem decodePdu_of_splitFrame (hlen : b.length < 2 ^ 63) (hneg : NoNegative depth b)
    {version : Encoding} {payload rest : List UInt8}
    (hsplit : splitFrame b = .ok (version, payload, rest)) :
    version = magicVersion b ∧ rest.length ≤ b.length ∧
    ∃ m : ℕ → BserMessage, decodePduWith read b = read payload >>= fun y =>
      if y.2 = payload.length then .ok (y.1, b.length - rest.length)
      else .error (.error (.bser (m y.2))) := by
  rcases splitFrame_cases b with ⟨hfail, -⟩ | ⟨h, n, c, hheader, hread, h2, hfits, hok⟩
  · exact absurd hsplit (hfail.ne_ok _)
  · rw [hsplit] at hok
    simp only [Except.ok.injEq, Prod.mk.injEq] at hok
    obtain ⟨rfl, rfl, rfl⟩ := hok
    have hn := hneg.payloadLen hheader hread
    have husize := asUsize_of_nonneg hn (readInt_eq_ok hread).2.2.2.2
    have hend : usizeAdd (h + c) (asUsize n) = h + c + n.toNat := by
      unfold usizeAdd
      rw [husize]
      omega
    have hpayload : ((b.drop (h + c)).take n.toNat).length = n.toNat := by
      rw [List.length_take, List.length_drop]
      omega
    have hrest : b.length - (b.drop (h + c + n.toNat)).length = h + c + n.toNat := by
      rw [List.length_drop]
      omega
    refine ⟨rfl, by rw [List.length_drop]; omega, .lengthMismatch n, ?_⟩
    rw [hpayload, hrest]
    unfold decodePduWith
    rw [hheader, ok_bind, sliceFrom_of_le (by omega), ok_bind, hread, ok_bind]
    simp only
    rw [hend, need_eq_ok.mpr hfits, ok_bind, sliceRange_of_le (by omega) hfits, ok_bind, husize,
      Nat.add_sub_cancel_left]
    rfl

theorem decodePdu_of_fails (hlen : b.length < 2 ^ 63) (hfail : Fails (splitFrame b)) :
    Fails (decodePduWith read b) := by
  unfold decodePduWith
  rcases splitFrame_cases b with ⟨-, hheader | ⟨h, hheader, hle, hint | ⟨n, c, hread, hshort⟩⟩⟩ |
    ⟨h, n, c, -, -, -, -, hok⟩
  · exact hheader.bind _
  · rw [hheader, ok_bind, sliceFrom_of_le hle, ok_bind]
    exact hint.bind _
  · obtain ⟨-, -, hc, -, hlt⟩ := readInt_eq_ok hread
    rw [List.length_drop] at hc
    -- the length is positive, since its own bytes are there
    have husize := @asUsize_of_nonneg n (by omega) hlt
    have hend : usizeAdd (h + c) (asUsize n) = h + c + n.toNat := by
      unfold usizeAdd
      rw [husize]
      omega
    rw [hheader, ok_bind, sliceFrom_of_le hle, ok_bind, hread, ok_bind]
    simp only
    rw [hend]
    have hneed : need b (h + c + n.toNat) = .error (.error .truncated) := if_pos hshort
    rw [hneed]
    exact ⟨_, rfl⟩
  · exact absurd hok (hfail.ne_ok _)

theorem two_le_of_splitFrame {x : Encoding × List UInt8 × List UInt8} (h : splitFrame b = .ok x) :
    2 ≤ b.length := by
  rcases splitFrame_cases b with ⟨hfail, -⟩ | ⟨header, n, c, -, -, h2, hfits, -⟩
  · exact absurd h (hfail.ne_ok x)
  · omega

theorem payload_le_of_splitFrame {version : Encoding} {payload rest : List UInt8}
    (h : splitFrame b = .ok (version, payload, rest)) : payload.length ≤ b.length := by
  rcases splitFrame_cases b with ⟨hfail, -⟩ | ⟨header, n, c, -, -, -, -, hok⟩
  · exact absurd h (hfail.ne_ok _)
  · rw [h] at hok
    simp only [Except.ok.injEq, Prod.mk.injEq] at hok
    rw [hok.2.1, List.length_take, List.length_drop]
    omega

theorem extent_of_readValueOn {payload : List UInt8} (hlen : payload.length < 2 ^ 63) {v : Value}
    {c : ℕ} (h : readValueOn lim depth payload = .ok (v, c)) :
    ∃ shape, (scanValue depth payload).result = some (shape, c) := by
  rcases @tracks_readValueOn lim depth payload hlen with
    ⟨⟨p, hp⟩, -⟩ | ⟨-, ⟨a, ⟨shape, c'⟩, ha, hscan, hc, -⟩ | ⟨⟨e, he⟩, -⟩⟩
  · rw [h] at hp
    cases hp
  · rw [h] at ha
    cases ha
    obtain rfl : c' = c := hc
    exact ⟨shape, hscan⟩
  · rw [h] at he
    cases he

theorem readValueOn_of_extent {payload : List UInt8} (hlen : payload.length < 2 ^ 63)
    (hsurvives : ¬ Panics (readValueOn lim depth payload)) {shape : Shape} {c : ℕ}
    (h : (scanValue depth payload).result = some (shape, c)) :
    ∃ v, readValueOn lim depth payload = .ok (v, c) := by
  rcases @tracks_readValueOn lim depth payload hlen with
    ⟨hpanic, -⟩ | ⟨-, ⟨⟨v, c'⟩, b', ha, hscan, hc, -⟩ | ⟨-, hnone⟩⟩
  · exact absurd hpanic hsurvives
  · rw [h] at hscan
    cases hscan
    obtain rfl : c = c' := hc
    exact ⟨v, ha⟩
  · rw [h] at hnone
    cases hnone

/-- `read_pdu` returns the value at the front of the payload. -/
theorem readPdu_eq_some_iff (h2 : 2 ≤ b.length) (hneg : NoNegative depth b)
    (hsurvives : ¬ Panics (readPdu lim read b)) {v : Value} {version : Encoding}
    {rest : List UInt8} :
    readPdu lim read b = .ok (some (v, version), rest) ↔ ∃ payload c,
      splitFrame b = .ok (version, payload, rest) ∧ read payload = .ok (v, c) := by
  rw [readPdu_eq h2 hneg hsurvives, bind_eq_ok]
  constructor
  · rintro ⟨⟨version', payload, rest'⟩, hsplit, h⟩
    obtain ⟨⟨v', c⟩, hread, h⟩ := bind_eq_ok.mp h
    cases h
    exact ⟨payload, c, hsplit, hread⟩
  · rintro ⟨payload, c, hsplit, hread⟩
    refine ⟨(version, payload, rest), hsplit, ?_⟩
    simp only [hread, ok_bind]

theorem readPdu_ne_none (h2 : 2 ≤ b.length) (hneg : NoNegative depth b)
    (hsurvives : ¬ Panics (readPdu lim read b)) (rest : List UInt8) :
    readPdu lim read b ≠ .ok (none, rest) := by
  rw [readPdu_eq h2 hneg hsurvives]
  intro h
  obtain ⟨x, -, h⟩ := bind_eq_ok.mp h
  obtain ⟨y, -, h⟩ := bind_eq_ok.mp h
  cases h

/-- `decode_pdu` returns a value that takes the whole payload. -/
theorem decodePdu_eq_ok_iff (hlen : b.length < 2 ^ 63) (hneg : NoNegative depth b) {v : Value}
    {n : ℕ} :
    decodePduWith read b = .ok (v, n) ↔ ∃ payload rest,
      splitFrame b = .ok (magicVersion b, payload, rest) ∧
      read payload = .ok (v, payload.length) ∧ n + rest.length = b.length := by
  constructor
  · intro h
    cases hsplit : splitFrame b with
    | error e =>
      have hfail : Fails (splitFrame b) := by
        rcases splitFrame_cases b with ⟨hfail, -⟩ | ⟨header, m, c, -, -, -, -, hok⟩
        · exact hfail
        · rw [hsplit] at hok
          cases hok
      exact absurd h ((decodePdu_of_fails hlen hfail).ne_ok _)
    | ok x =>
      obtain ⟨version, payload, rest⟩ := x
      obtain ⟨rfl, hle, m, hdecode⟩ := @decodePdu_of_splitFrame read _ _ hlen hneg _ _ _ hsplit
      rw [hdecode] at h
      obtain ⟨⟨v', c⟩, hread, h⟩ := bind_eq_ok.mp h
      simp only at h
      split_ifs at h with hc
      cases h
      exact ⟨payload, rest, rfl, hc ▸ hread, by omega⟩
  · rintro ⟨payload, rest, hsplit, hread, hn⟩
    obtain ⟨-, hle, m, hdecode⟩ := @decodePdu_of_splitFrame read _ _ hlen hneg _ _ _ hsplit
    rw [hdecode, hread, ok_bind, if_pos rfl, ← hn, Nat.add_sub_cancel]

/-- Of one input: the end of the stream is the empty input, both readers return the same value of
the same bytes, and whatever else `read_pdu` does is an error. -/
structure Agree (lim : AllocLimits) (depth : ℕ) (b : List UInt8) : Prop where
  empty : (∃ rest, readPdu lim (readValueOn lim depth) b = .ok (none, rest)) ↔ b = []
  value : ∀ v version n,
    (∃ rest, readPdu lim (readValueOn lim depth) b = .ok (some (v, version), rest) ∧
      n + rest.length = b.length) ↔
    decodePduWith (readValueOn lim depth) b = .ok (v, n) ∧ version = magicVersion b
  error : ¬ Panics (readPdu lim (readValueOn lim depth) b)

/-- The value at the front of the payload takes all of it. -/
def FillsPayload (depth : ℕ) (b : List UInt8) : Prop :=
  ∀ version payload rest shape c, splitFrame b = .ok (version, payload, rest) →
    (scanValue depth payload).result = some (shape, c) → c = payload.length

theorem readPdu_short (h : b.length < 2) : readPdu lim read b = .ok (none, []) := by
  have hnone : readExact 2 b = none := if_pos h
  unfold readPdu
  rw [hnone]

theorem Agree.length_ne_one (h : Agree lim depth b) : b.length ≠ 1 := by
  intro hone
  have hnil := h.empty.mp ⟨[], readPdu_short (by omega)⟩
  rw [hnil] at hone
  cases hone

/-- If the readers agree, `decode_pdu` has no payload to refuse. -/
theorem Agree.fillsPayload (h : Agree lim depth b) (hlen : b.length < 2 ^ 63)
    (hneg : NoNegative depth b) : FillsPayload depth b := by
  intro version payload rest shape c hsplit hscan
  have h2 := two_le_of_splitFrame hsplit
  have hsurvives : ¬ Panics (readValueOn lim depth payload) := by
    intro hpanic
    refine h.error ?_
    rw [readPdu_eq h2 hneg h.error, hsplit, ok_bind]
    exact panics_bind.mpr (.inl hpanic)
  obtain ⟨v, hread⟩ := readValueOn_of_extent
    ((payload_le_of_splitFrame hsplit).trans_lt hlen) hsurvives hscan
  have hvalue := (readPdu_eq_some_iff h2 hneg h.error).mpr ⟨payload, c, hsplit, hread⟩
  have hle := (@decodePdu_of_splitFrame (readValueOn lim depth) _ _ hlen hneg _ _ _ hsplit).2.1
  obtain ⟨hdecode, -⟩ := (h.value v version (b.length - rest.length)).mp
    ⟨rest, hvalue, by omega⟩
  obtain ⟨payload', rest', hsplit', hread', -⟩ := (decodePdu_eq_ok_iff hlen hneg).mp hdecode
  rw [hsplit] at hsplit'
  cases hsplit'
  rw [hread] at hread'
  cases hread'
  rfl

theorem agree_of_fillsPayload (hlen : b.length < 2 ^ 63) (hneg : NoNegative depth b)
    (hone : b.length ≠ 1) (hfills : FillsPayload depth b)
    (hsurvives : ¬ Panics (readPdu lim (readValueOn lim depth) b)) : Agree lim depth b := by
  refine ⟨⟨?_, ?_⟩, fun v version n => ⟨?_, ?_⟩, hsurvives⟩
  · rintro ⟨rest, hnone⟩
    by_contra hne
    have hpos := List.length_pos_iff.mpr hne
    exact readPdu_ne_none (by omega) hneg hsurvives rest hnone
  · rintro rfl
    exact ⟨[], rfl⟩
  · rintro ⟨rest, hread, hn⟩
    have h2 : 2 ≤ b.length := by
      by_contra hshort
      rw [readPdu_short (by omega)] at hread
      cases hread
    obtain ⟨payload, c, hsplit, hvalue⟩ := (readPdu_eq_some_iff h2 hneg hsurvives).mp hread
    obtain ⟨rfl, -⟩ :=
      @decodePdu_of_splitFrame (readValueOn lim depth) _ _ hlen hneg _ _ _ hsplit
    obtain ⟨shape, hscan⟩ := extent_of_readValueOn
      ((payload_le_of_splitFrame hsplit).trans_lt hlen) hvalue
    have hc := hfills _ _ _ _ _ hsplit hscan
    exact ⟨(decodePdu_eq_ok_iff hlen hneg).mpr ⟨payload, rest, hsplit, hc ▸ hvalue, hn⟩, rfl⟩
  · rintro ⟨hdecode, rfl⟩
    obtain ⟨payload, rest, hsplit, hread, hn⟩ := (decodePdu_eq_ok_iff hlen hneg).mp hdecode
    exact ⟨rest, (readPdu_eq_some_iff (two_le_of_splitFrame hsplit) hneg hsurvives).mpr
      ⟨payload, _, hsplit, hread⟩, hn⟩

/-- **Streams and slices.** On an input without negative lengths and counts, `read_pdu` agrees with
`decode_pdu` exactly if the input is not a single byte, its value takes the whole payload, and what
`read_pdu` meets can be allocated and fits the stack. -/
theorem stream_agrees_iff (lim : AllocLimits) (depth : ℕ) (b : List UInt8)
    (hlen : b.length < 2 ^ 63) (hneg : NoNegative depth b) :
    Agree lim depth b ↔
      b.length ≠ 1 ∧ FillsPayload depth b ∧ (scanStream depth b).Fits lim := by
  have hsurvive := (@tracks_readPdu lim depth b).not_panics_iff
  constructor
  · intro h
    exact ⟨h.length_ne_one, h.fillsPayload hlen hneg, hsurvive.mp h.error⟩
  · rintro ⟨hone, hfills, hfits⟩
    exact agree_of_fillsPayload hlen hneg hone hfills (hsurvive.mpr hfits)

end Readers

def nullPdu : List UInt8 := [0x00, 0x01, 0x03, 0x01, 0x0A]

def twoNulls : List UInt8 := [0x00, 0x01, 0x03, 0x02, 0x0A, 0x0A]

theorem stream_agrees_iff_nullPdu :
    NoNegative 1 nullPdu ∧ (Agree .bits64 1 nullPdu ↔ nullPdu.length ≠ 1 ∧
      FillsPayload 1 nullPdu ∧ (scanStream 1 nullPdu).Fits .bits64) :=
  have hneg : NoNegative 1 nullPdu := ⟨by decide, by decide⟩
  ⟨hneg, stream_agrees_iff .bits64 1 nullPdu (by norm_num [nullPdu]) hneg⟩

theorem splitFrame_twoNulls : splitFrame twoNulls = .ok (.bserV1, [0x0A, 0x0A], []) := by
  have hint : signedInt [0x02] = 2 := by decide
  have hread : readIntFrom [0x03, 0x02, 0x0A, 0x0A] = .ok (2, [0x0A, 0x0A]) :=
    congrArg (fun n => Except.ok (n, [0x0A, 0x0A])) hint
  have hmagic : readExact 2 twoNulls = some (magicV1, [0x03, 0x02, 0x0A, 0x0A]) := rfl
  have hversion : readVersion magicV1 [0x03, 0x02, 0x0A, 0x0A] =
      .ok (.bserV1, [0x03, 0x02, 0x0A, 0x0A]) := rfl
  unfold splitFrame
  simp only [hmagic, hversion, hread, okOr, ok_bind]
  rfl

/-- One byte of a magic passes for the end of the stream, and of two nulls in a frame the second is
dropped, though the stack has room for a thousand calls. -/
theorem partial_magic_ends_stream :
    (NoNegative 1000 [0x00] ∧ ¬ Agree .bits64 1000 [0x00]) ∧
    (NoNegative 1000 twoNulls ∧ ¬ Agree .bits64 1000 twoNulls) := by
  have hneg : NoNegative 1000 twoNulls := ⟨by decide, by decide⟩
  refine ⟨⟨⟨by decide, by decide⟩, fun h => ?_⟩, hneg, fun h => ?_⟩
  · have hnil := h.empty.mp ⟨[], rfl⟩
    cases hnil
  · have hread : readPdu .bits64 (readValueOn .bits64 1000) twoNulls =
        .ok (some (.null, .bserV1), []) :=
      (readPdu_eq_some_iff (by decide) hneg h.error).mpr ⟨_, 1, splitFrame_twoNulls, rfl⟩
    obtain ⟨hdecode, -⟩ := (h.value .null .bserV1 6).mp ⟨[], hread, rfl⟩
    obtain ⟨payload, rest, hsplit, hvalue, -⟩ :=
      (decodePdu_eq_ok_iff (by norm_num [twoNulls]) hneg).mp hdecode
    rw [splitFrame_twoNulls] at hsplit
    cases hsplit
    cases hvalue

end Watchwoman.Bser
