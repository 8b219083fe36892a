import Watchwoman.Protocol.BserReader

/-!
# Values delimit themselves

What `read_value` returns for a slice depends on the bytes it takes and on no others: the value is
found again in every slice with the same front, so no accepted slice is a strict prefix of the
bytes of another value.
-/

namespace Watchwoman.Bser

open Fallible LittleEndian Tiling

/-! ## Slices with the same front -/

/-- The first `n` bytes of the two slices are there and the same. -/
def SameFront (n : ℕ) (s s' : List UInt8) : Prop :=
  n ≤ s.length ∧ n ≤ s'.length ∧ s.take n = s'.take n

section SameFront

variable {n : ℕ} {s s' : List UInt8}

theorem SameFront.mono {m : ℕ} (h : SameFront n s s') (hm : m ≤ n) : SameFront m s s' := by
  obtain ⟨hs, hs', heq⟩ := h
  refine ⟨hm.trans hs, hm.trans hs', ?_⟩
  have := congrArg (List.take m) heq
  rwa [List.take_take, List.take_take, min_eq_left hm] at this

theorem SameFront.drop {p : ℕ} (h : SameFront (p + n) s s') :
    SameFront n (s.drop p) (s'.drop p) := by
  obtain ⟨hs, hs', heq⟩ := h
  refine ⟨by rw [List.length_drop]; omega, by rw [List.length_drop]; omega, ?_⟩
  have := congrArg (List.drop p) heq
  rwa [List.drop_take, List.drop_take, Nat.add_sub_cancel_left] at this

theorem SameFront.getElem? {p : ℕ} (h : SameFront n s s') (hp : p < n) : s[p]? = s'[p]? := by
  rw [← List.getElem?_take_of_lt hp, h.2.2, List.getElem?_take_of_lt hp]

theorem SameFront.uncons {b : UInt8} (h : SameFront n (b :: s) s') (hn : 1 ≤ n) :
    ∃ rest, s' = b :: rest ∧ SameFront (n - 1) s rest := by
  obtain ⟨m, rfl⟩ := Nat.exists_eq_add_of_le hn
  cases s' with
  | nil =>
    have := h.2.1
    rw [List.length_nil] at this
    omega
  | cons b' rest =>
    have hb := h.getElem? (show 0 < 1 + m by omega)
    obtain rfl := Option.some.inj hb
    refine ⟨rest, rfl, ?_⟩
    rw [Nat.add_sub_cancel_left]
    exact h.drop

theorem sameFront_take_append {r : List UInt8} (h : n ≤ s.length) :
    SameFront n s (s.take n ++ r) := by
  have hlen : (s.take n).length = n := List.length_take_of_le h
  exact ⟨h, by rw [List.length_append]; omega, (List.take_left' hlen).symm⟩

theorem sameFront_of_prefix (h : n ≤ s.length) (hs : s <+: s') : SameFront n s s' := by
  obtain ⟨r, rfl⟩ := hs
  exact ⟨h, by rw [List.length_append]; omega, (List.take_append_of_le_length h).symm⟩

end SameFront

/-! ## Locality -/

/-- What `read` returns depends on no byte behind those it takes. -/
def Local (read : List UInt8 → Result (Value × ℕ)) : Prop :=
  ∀ s s' v n, read s = .ok (v, n) → SameFront n s s' → read s' = .ok (v, n)

theorem readInt_local {s s' : List UInt8} {m : ℤ} {c : ℕ} (h : readInt s = .ok (m, c))
    (hs : SameFront c s s') : readInt s' = .ok (m, c) := by
  cases s with
  | nil => cases h
  | cons b rest =>
    obtain ⟨rest', rfl, hrest⟩ := hs.uncons (by have := readInt_eq_ok h; omega)
    cases hw : intWidth b with
    | none => simp [readInt, hw] at h
    | some w =>
      simp only [readInt, hw] at h ⊢
      obtain herr | ⟨-, hok⟩ := readIntField_cases (b :: rest) w
      · rw [herr] at h
        cases h
      · obtain ⟨rfl, rfl⟩ := Prod.mk.inj (Except.ok.inj (hok.symm.trans h))
        rw [Nat.add_sub_cancel_left] at hrest
        rw [readIntField_of_le hs.2.1, List.drop_one, List.tail_cons, ← hrest.2.2]
        rfl

section Parts

variable {read : List UInt8 → Result (Value × ℕ)} (hread : Consumes read) (hlocal : Local read)
  {lim : AllocLimits} {buf buf' : List UInt8} {n p q : ℕ} (hs : SameFront n buf buf') (hq : q ≤ n)

include hread hlocal hs hq

theorem At.transfer {v : Value} (h : At read buf p v q) : At read buf' p v q := by
  have hb := h.bounds hread
  obtain ⟨hp, c, hv, rfl⟩ := h
  exact ⟨by have := hs.2.1; omega, c, hlocal _ _ _ _ hv (hs.mono hq).drop, rfl⟩

theorem EntryAt.transfer {e : String × Value} (h : EntryAt read buf p e q) :
    EntryAt read buf' p e q := by
  obtain ⟨k, m, hk, hkey, hv⟩ := h
  have hm := hv.bounds hread
  exact ⟨k, m, hk.transfer hread hlocal hs (by omega), hkey, hv.transfer hread hlocal hs hq⟩

theorem CellAt.transfer {v : Value} (h : CellAt read buf p v q) : CellAt read buf' p v q := by
  have hp := h.bounds hread
  unfold CellAt at h ⊢
  rw [← hs.getElem? (show p < n by omega)]
  split_ifs at h ⊢ with hskip
  · exact h
  · exact h.transfer hread hlocal hs hq

theorem RowAt.transfer {width : ℕ} {row : List Value} (h : RowAt read lim buf width p row q) :
    RowAt read lim buf' width p row q := by
  obtain ⟨hw, hlen, hcells⟩ := h
  exact ⟨hw, hlen, hcells.mono_of_le (fun _ _ _ hc => (hc.bounds hread).1.le)
    (fun _ _ _ _ hle hc => hc.transfer hread hlocal hs hle) le_rfl hq⟩

end Parts

/-- What is accepted is accepted wherever its bytes are in front. -/
theorem Layout.transfer {read : List UInt8 → Result (Value × ℕ)} (hread : Consumes read)
    (hlocal : Local read) {lim : AllocLimits} {buf buf' : List UInt8} {v : Value} {n : ℕ}
    (h : Layout read lim buf v n) (hs : SameFront n buf buf') : Layout read lim buf' v n := by
  have hn := (h.bounds hread).1
  cases h with
  | null rest =>
    obtain ⟨rest', rfl, -⟩ := hs.uncons hn
    exact .null rest'
  | true rest =>
    obtain ⟨rest', rfl, -⟩ := hs.uncons hn
    exact .true rest'
  | false rest =>
    obtain ⟨rest', rfl, -⟩ := hs.uncons hn
    exact .false rest'
  | int hm => exact .int (readInt_local hm hs)
  | @real rest hlen =>
    obtain ⟨rest', rfl, hrest⟩ := hs.uncons hn
    have heq : rest.take 8 = rest'.take 8 := hrest.2.2
    rw [heq]
    exact .real hs.2.1
  | @text t rest len lenlen _ ht hl hstop hstart hend =>
    obtain ⟨rest', rfl, hrest⟩ := hs.uncons hn
    have hslice : SameFront (n - (1 + lenlen)) ((t.byte :: rest).drop (1 + lenlen))
        ((t.byte :: rest').drop (1 + lenlen)) :=
      SameFront.drop (by rwa [Nat.add_sub_cancel' hstart])
    rw [hslice.2.2]
    exact .text ht (readInt_local hl (hrest.mono (by omega))) hstop hstart hs.2.1
  | array hc hcap hlen hitems =>
    obtain ⟨rest', rfl, hrest⟩ := hs.uncons hn
    have hle := hitems.le fun _ _ _ hv => (hv.bounds hread).1.le
    exact .array (readInt_local hc (hrest.mono (by omega))) hcap hlen
      (hitems.mono_of_le (fun _ _ _ hv => (hv.bounds hread).1.le)
        (fun _ _ _ _ hq hv => hv.transfer hread hlocal hs hq) le_rfl le_rfl)
  | object hc hcap hlen hentries =>
    obtain ⟨rest', rfl, hrest⟩ := hs.uncons hn
    have hle := hentries.le fun _ _ _ he => (he.bounds hread).1.le
    exact .object (readInt_local hc (hrest.mono (by omega))) hcap hlen
      (hentries.mono_of_le (fun _ _ _ he => (he.bounds hread).1.le)
        (fun _ _ _ _ hq he => he.transfer hread hlocal hs hq) le_rfl le_rfl)
  | template ha hkeys hkc hc hcap hlen hrows =>
    obtain ⟨rest', rfl, hrest⟩ := hs.uncons hn
    have hle := hrows.le fun _ _ _ hr => hr.le hread
    have := hs.2.1
    exact .template (hlocal _ _ _ _ ha (hrest.mono (by omega))) hkeys (by omega)
      (readInt_local hc (hs.mono hle).drop) hcap hlen
      (hrows.mono_of_le (fun _ _ _ hr => hr.le hread)
        (fun _ _ _ _ hq hr => hr.transfer hread hlocal hs hq) le_rfl le_rfl)

theorem readValueF_local (lim : AllocLimits) (fuel : ℕ) : Local (readValueF lim fuel) := by
  induction fuel with
  | zero => intro s s' v n h; simp [readValueF] at h
  | succ fuel ih =>
    intro s s' v n h hs
    exact ((Layout.of_readValueStep h).transfer (readValueF_consumes lim fuel) ih hs).readValueStep

theorem readValue_local (lim : AllocLimits) : Local (readValue lim) := by
  intro s s' v n h hs
  unfold readValue at h ⊢
  rw [readValueF_congr lim _ (max s.length s'.length) s le_rfl (le_max_left _ _)] at h
  rw [readValueF_congr lim _ (max s.length s'.length) s' le_rfl (le_max_right _ _)]
  exact readValueF_local lim _ _ _ _ _ h hs

theorem readValue_unique {lim : AllocLimits} {s s' : List UInt8} {v v' : Value} {n n' : ℕ}
    (h : readValue lim s = .ok (v, n)) (h' : readValue lim s' = .ok (v', n')) (hs : s <+: s') :
    v = v' ∧ n = n' := by
  have hfront := sameFront_of_prefix (readValue_consumed lim _ _ _ h).2 hs
  exact Prod.mk.inj (Except.ok.inj ((readValue_local lim _ _ _ _ h hfront).symm.trans h'))

/-- **`read_value` is self-delimiting.** -/
theorem readValue_selfDelimiting (lim : AllocLimits) (buf : List UInt8) (v : Value) (n : ℕ)
    (h : readValue lim buf = .ok (v, n)) :
    (1 ≤ n ∧ n ≤ buf.length) ∧
      (∀ r, readValue lim (buf.take n ++ r) = .ok (v, n)) ∧
      (∀ p, p <+: buf.take n → p ≠ buf.take n → ∀ x, readValue lim p ≠ .ok x) ∧
      ∀ s, s <+: buf ∨ buf <+: s → ∀ v' n', readValue lim s = .ok (v', n') → v' = v ∧ n' = n := by
  obtain ⟨hn, hle⟩ := readValue_consumed lim _ _ _ h
  have hunique : ∀ s, s <+: buf ∨ buf <+: s → ∀ v' n', readValue lim s = .ok (v', n') →
      v' = v ∧ n' = n := by
    rintro s (hs | hs) v' n' hv'
    · exact readValue_unique hv' h hs
    · obtain ⟨rfl, rfl⟩ := readValue_unique h hv' hs
      exact ⟨rfl, rfl⟩
  refine ⟨⟨hn, hle⟩, fun r => readValue_local lim _ _ _ _ h (sameFront_take_append hle), ?_, hunique⟩
  rintro p hp hne ⟨v', n'⟩ hv'
  obtain ⟨-, rfl⟩ := hunique p (.inl (hp.trans (List.take_prefix _ _))) v' n' hv'
  -- the shorter slice would hold all the bytes of the value
  refine hne (hp.eq_of_length_le ?_)
  rw [List.length_take_of_le hle]
  exact (readValue_consumed lim _ _ _ hv').2

/-- A template with a SKIP tag for its one cell, and a byte behind it. -/
def skippedCell : List UInt8 :=
  [0x0B, 0x00, 0x03, 0x01, 0x02, 0x03, 0x01, 0x61, 0x03, 0x01, 0x0C, 0xFF]

set_option maxRecDepth 20000 in
theorem readValue_skippedCell :
    readValue .bits64 skippedCell = .ok (.template ["a"] [[.null]], 11) := by rfl

theorem readValue_selfDelimiting_skippedCell :
    (∀ r, readValue .bits64 (skippedCell.take 11 ++ r) = .ok (.template ["a"] [[.null]], 11)) ∧
      ∀ p, p <+: skippedCell.take 11 → p ≠ skippedCell.take 11 →
        ∀ x, readValue .bits64 p ≠ .ok x := by
  obtain ⟨-, hlocal, hprefix, -⟩ :=
    readValue_selfDelimiting .bits64 skippedCell _ 11 readValue_skippedCell
  exact ⟨hlocal, hprefix⟩

end Watchwoman.Bser
