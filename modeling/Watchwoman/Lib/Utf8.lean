import Mathlib.Algebra.Order.BigOperators.Group.List
import Mathlib.Data.List.Basic
import Mathlib.Tactic.NormNum

/-!
# UTF-8 with substitution

Lossy decoding of a byte string: each maximal ill-formed part becomes one U+FFFD. A byte string
that is valid UTF-8 decodes to the string with those bytes. Either way ASCII in the text stands for
its own bytes (`lossy_append`).
-/

namespace Utf8

/-- The bytes of a string. -/
def bytesOf (s : String) : List UInt8 := s.toByteArray.data.toList

/-- The string with the given bytes, if they are valid UTF-8. -/
def ofBytes? (b : List UInt8) : Option String := String.fromUTF8? ⟨b.toArray⟩

@[simp] theorem ofBytes?_bytesOf (s : String) : ofBytes? (bytesOf s) = some s := by
  have harr : (⟨(bytesOf s).toArray⟩ : ByteArray) = s.toByteArray := by
    simp [bytesOf]
  unfold ofBytes? String.fromUTF8?
  rw [harr, dif_pos s.isValidUTF8]
  rfl

@[simp] theorem bytesOf_append (s t : String) : bytesOf (s ++ t) = bytesOf s ++ bytesOf t := by
  unfold bytesOf
  rw [String.toByteArray_append, ByteArray.data_append, Array.toList_append]

theorem bytesOf_injective : Function.Injective bytesOf := by
  intro s t h
  have := congrArg ofBytes? h
  rw [ofBytes?_bytesOf, ofBytes?_bytesOf] at this
  exact Option.some.inj this

theorem bytesOf_intercalate (sep : String) (l : List String) :
    bytesOf (sep.intercalate l) = (bytesOf sep).intercalate (l.map bytesOf) := by
  induction l with
  | nil => rfl
  | cons s l ih =>
    cases l with
    | nil => rw [String.intercalate_singleton, List.map_singleton, List.intercalate_singleton]
    | cons t l =>
      rw [String.intercalate_cons_cons, bytesOf_append, bytesOf_append, ih, List.map_cons,
        List.map_cons, List.map_cons, List.intercalate_cons_cons]

/-! ## Substitution -/

/-- The number of bytes of a character and the range of its second byte, by its first byte. -/
def lead (b : UInt8) : ℕ × UInt8 × UInt8 :=
  if b < 0x80 then (1, 0, 0)
  else if 0xC2 ≤ b ∧ b ≤ 0xDF then (2, 0x80, 0xBF)
  else if b = 0xE0 then (3, 0xA0, 0xBF)
  else if b = 0xED then (3, 0x80, 0x9F)
  else if 0xE1 ≤ b ∧ b ≤ 0xEF then (3, 0x80, 0xBF)
  else if b = 0xF0 then (4, 0x90, 0xBF)
  else if 0xF1 ≤ b ∧ b ≤ 0xF3 then (4, 0x80, 0xBF)
  else if b = 0xF4 then (4, 0x80, 0x8F)
  else (0, 0, 0)

/-- How many of the next `n` bytes are in place, the first of them in `[lo, hi]`. -/
def continuation : ℕ → UInt8 → UInt8 → List UInt8 → ℕ
  | n + 1, lo, hi, b :: rest =>
    if lo ≤ b ∧ b ≤ hi then 1 + continuation n 0x80 0xBF rest else 0
  | _, _, _, _ => 0

/-- The code point spelled by the bytes of one character. -/
def codePoint : List UInt8 → ℕ
  | [] => 0
  | [b] => b.toNat
  | b :: rest =>
    rest.foldl (fun n c => n * 64 + c.toNat % 64) (b.toNat % 2 ^ (6 - rest.length))

/-- Decode at most `fuel` characters, one U+FFFD for each maximal ill-formed part. -/
def substitute : ℕ → List UInt8 → List Char
  | fuel + 1, b :: rest =>
    let (width, lo, hi) := lead b
    let taken := continuation (width - 1) lo hi rest
    let c := if taken + 1 = width then Char.ofNat (codePoint (b :: rest.take taken)) else '\uFFFD'
    c :: substitute fuel (rest.drop taken)
  | _, _ => []

/-- Lossy decoding. -/
def lossy (b : List UInt8) : String :=
  match ofBytes? b with
  | some s => s
  | none => String.ofList (substitute b.length b)

@[simp] theorem lossy_bytesOf (s : String) : lossy (bytesOf s) = s := by
  unfold lossy
  rw [ofBytes?_bytesOf]

example : lossy [0x66, 0xE2, 0x82, 0x6F, 0xFF] = "f\uFFFDo\uFFFD" := by decide

example : substitute 8 [0xE2, 0x82, 0xAC, 0xF0, 0x9F, 0x98, 0x80] = ['€', '😀'] := by decide

theorem length_substitute_le (fuel : ℕ) (b : List UInt8) :
    (substitute fuel b).length ≤ b.length := by
  induction fuel generalizing b with
  | zero => exact Nat.zero_le _
  | succ fuel ih =>
    cases b with
    | nil => exact Nat.zero_le _
    | cons b rest =>
      simp only [substitute, List.length_cons]
      refine Nat.succ_le_succ ((ih _).trans ?_)
      rw [List.length_drop]
      exact Nat.sub_le _ _

/-! ## ASCII in lossy texts -/

/-- A character of one byte, NUL apart. -/
def IsAscii (c : Char) : Prop := 0 < c.toNat ∧ c.toNat < 0x80

instance (c : Char) : Decidable (IsAscii c) := inferInstanceAs (Decidable (_ ∧ _))

/-- The bytes of ASCII characters. -/
def asciiBytes (l : List Char) : List UInt8 := l.map fun c => UInt8.ofNat c.toNat

theorem bytesOf_ofList (l : List Char) :
    bytesOf (String.ofList l) = l.flatMap String.utf8EncodeChar := by
  unfold bytesOf
  rw [String.toByteArray_ofList, List.utf8Encode]
  simp

theorem bytesOf_of_ofBytes? {b : List UInt8} {s : String} (h : ofBytes? b = some s) :
    bytesOf s = b := by
  unfold ofBytes? String.fromUTF8? at h
  split_ifs at h
  obtain rfl := Option.some.inj h
  rfl

/-- A text is at most four times as long as the bytes it was decoded from. -/
theorem length_bytesOf_lossy_le (b : List UInt8) : (bytesOf (lossy b)).length ≤ 4 * b.length := by
  unfold lossy
  cases h : ofBytes? b with
  | some s =>
    show (bytesOf s).length ≤ _
    rw [bytesOf_of_ofBytes? h]
    omega
  | none =>
    have hlen := length_substitute_le b.length b
    have hchar : ∀ c ∈ substitute b.length b, (String.utf8EncodeChar c).length ≤ 4 := fun c _ => by
      rw [String.length_utf8EncodeChar]
      exact Char.utf8Size_le_four c
    show (bytesOf (String.ofList _)).length ≤ _
    rw [bytesOf_ofList, List.length_flatMap]
    have hsum := List.sum_le_card_nsmul _ 4 (List.forall_mem_map.mpr hchar)
    rw [List.length_map, Nat.nsmul_eq_mul] at hsum
    omega

theorem utf8EncodeChar_ascii {c : Char} (h : IsAscii c) :
    String.utf8EncodeChar c = [UInt8.ofNat c.toNat] := by
  unfold String.utf8EncodeChar
  exact if_pos (Nat.le_of_lt_succ h.2)

theorem flatMap_ascii {l : List Char} (h : ∀ c ∈ l, IsAscii c) :
    l.flatMap String.utf8EncodeChar = asciiBytes l := by
  induction l with
  | nil => rfl
  | cons c l ih =>
    obtain ⟨hc, hl⟩ := List.forall_mem_cons.mp h
    rw [List.flatMap_cons, utf8EncodeChar_ascii hc, ih hl]
    rfl

theorem not_isAscii_ofNat {n : ℕ} (h : 0x80 ≤ n) : ¬ IsAscii (Char.ofNat n) := by
  unfold Char.ofNat
  by_cases hvalid : n.isValidChar
  · rw [dif_pos hvalid]
    rintro ⟨-, hlt⟩
    exact absurd h (Nat.not_le.mpr hlt)
  · rw [dif_neg hvalid]
    rintro ⟨hpos, -⟩
    exact absurd hpos (by decide)

theorem toNat_ofNat_ascii {n : ℕ} (h : n < 0x80) : (Char.ofNat n).toNat = n := by
  have hvalid : n.isValidChar := .inl (by omega)
  unfold Char.ofNat
  rw [dif_pos hvalid]
  rfl

/-- The characters of ASCII bytes. -/
def asciiText (b : List UInt8) : List Char := b.map fun x => Char.ofNat x.toNat

/-- Bytes that are ASCII, NUL apart. -/
def AllAscii (b : List UInt8) : Prop := ∀ x ∈ b, 0 < x.toNat ∧ x.toNat < 0x80

theorem bytesOf_asciiText {b : List UInt8} (h : AllAscii b) :
    bytesOf (String.ofList (asciiText b)) = b := by
  have hascii : ∀ c ∈ asciiText b, IsAscii c := by
    refine List.forall_mem_map.mpr fun x hx => ?_
    unfold IsAscii
    rw [toNat_ofNat_ascii (h x hx).2]
    exact h x hx
  rw [bytesOf_ofList, flatMap_ascii hascii, asciiBytes, asciiText, List.map_map]
  refine (List.map_congr_left fun x hx => ?_).trans (List.map_id b)
  rw [Function.comp_apply, toNat_ofNat_ascii (h x hx).2, UInt8.ofNat_toNat, id_eq]

theorem lossy_ascii {b : List UInt8} (h : AllAscii b) : lossy b = String.ofList (asciiText b) := by
  rw [← lossy_bytesOf (String.ofList (asciiText b)), bytesOf_asciiText h]

theorem continuation_succ {n : ℕ} {lo hi : UInt8} {rest : List UInt8}
    (h : continuation (n + 1) lo hi rest = n + 1) :
    ∃ x t, rest = x :: t ∧ lo ≤ x ∧ x ≤ hi ∧ continuation n 0x80 0xBF t = n := by
  cases rest with
  | nil => cases h
  | cons x t =>
    unfold continuation at h
    split_ifs at h with hx
    exact ⟨x, t, rfl, hx.1, hx.2, by omega⟩

theorem toNat_bounds {lo x hi : UInt8} (hlo : lo ≤ x) (hhi : x ≤ hi) :
    lo.toNat ≤ x.toNat ∧ x.toNat ≤ hi.toNat :=
  ⟨UInt8.le_iff_toNat_le.mp hlo, UInt8.le_iff_toNat_le.mp hhi⟩

/-- What a first byte past ASCII promises of the code point: its own low bits or those of the second
byte put it past ASCII too. -/
inductive Wide (b : UInt8) : ℕ × UInt8 × UInt8 → Prop
  | two (lo hi : UInt8) (h : 2 ≤ b.toNat % 32) : Wide b (2, lo, hi)
  | three (lo hi : UInt8) (h : ∀ x, lo ≤ x → x ≤ hi → 1 ≤ b.toNat % 16 ∨ 2 ≤ x.toNat % 64) :
    Wide b (3, lo, hi)
  | four (lo hi : UInt8) (h : ∀ x, lo ≤ x → x ≤ hi → 1 ≤ b.toNat % 8 ∨ 1 ≤ x.toNat % 64) :
    Wide b (4, lo, hi)
  | none : Wide b (0, 0, 0)

theorem wide_lead {b : UInt8} (hb : ¬ b < 0x80) : Wide b (lead b) := by
  unfold lead
  rw [if_neg hb]
  split_ifs with h2 hE0 hED h3 hF0 h4 hF4
  · refine .two _ _ ?_
    have hbounds := toNat_bounds h2.1 h2.2
    simp only [UInt8.reduceToNat] at hbounds
    omega
  · refine .three _ _ fun x hlo hhi => .inr ?_
    have hbounds := toNat_bounds hlo hhi
    simp only [UInt8.reduceToNat] at hbounds
    omega
  · exact .three _ _ fun x _ _ => .inl (by rw [hED]; decide)
  · refine .three _ _ fun x _ _ => .inl ?_
    have hbounds := toNat_bounds h3.1 h3.2
    simp only [UInt8.reduceToNat] at hbounds
    omega
  · refine .four _ _ fun x hlo hhi => .inr ?_
    have hbounds := toNat_bounds hlo hhi
    simp only [UInt8.reduceToNat] at hbounds
    omega
  · refine .four _ _ fun x _ _ => .inl ?_
    have hbounds := toNat_bounds h4.1 h4.2
    simp only [UInt8.reduceToNat] at hbounds
    omega
  · exact .four _ _ fun x _ _ => .inl (by rw [hF4]; decide)
  · exact .none

/-- A character that starts with a byte past ASCII is not ASCII. -/
theorem le_codePoint {b : UInt8} {rest : List UInt8} (hb : ¬ b < 0x80)
    (h : continuation ((lead b).1 - 1) (lead b).2.1 (lead b).2.2 rest + 1 = (lead b).1) :
    0x80 ≤ codePoint (b :: rest.take
      (continuation ((lead b).1 - 1) (lead b).2.1 (lead b).2.2 rest)) := by
  have htaken : continuation ((lead b).1 - 1) (lead b).2.1 (lead b).2.2 rest = (lead b).1 - 1 :=
    (Nat.sub_eq_of_eq_add h.symm).symm
  rw [htaken]
  have hpos : (lead b).1 ≠ 0 := by
    rw [← h]
    exact Nat.succ_ne_zero _
  have hwide := wide_lead hb
  generalize lead b = l at hwide htaken hpos ⊢
  cases hwide with
  | two lo hi hlow =>
    obtain ⟨x, t, rfl, -, -, -⟩ := continuation_succ htaken
    show 128 ≤ b.toNat % 32 * 64 + x.toNat % 64
    omega
  | three lo hi hlow =>
    obtain ⟨x, t, rfl, hlo, hhi, ht⟩ := continuation_succ htaken
    obtain ⟨y, t, rfl, -, -, -⟩ := continuation_succ ht
    show 128 ≤ (b.toNat % 16 * 64 + x.toNat % 64) * 64 + y.toNat % 64
    have := hlow x hlo hhi
    omega
  | four lo hi hlow =>
    obtain ⟨x, t, rfl, hlo, hhi, ht⟩ := continuation_succ htaken
    obtain ⟨y, t, rfl, -, -, ht⟩ := continuation_succ ht
    obtain ⟨z, t, rfl, -, -, -⟩ := continuation_succ ht
    show 128 ≤ ((b.toNat % 8 * 64 + x.toNat % 64) * 64 + y.toNat % 64) * 64 + z.toNat % 64
    have := hlow x hlo hhi
    omega
  | none => exact absurd rfl hpos

/-- An ASCII character of a decoded text is the byte it was read from. -/
theorem substitute_ascii {c : Char} (hc : IsAscii c) {fuel : ℕ} {b : List UInt8} {s : List Char}
    (h : substitute fuel b = c :: s) :
    ∃ fuel' t, fuel = fuel' + 1 ∧ b = UInt8.ofNat c.toNat :: t ∧ s = substitute fuel' t := by
  cases fuel with
  | zero => cases h
  | succ fuel =>
    cases b with
    | nil => cases h
    | cons b rest =>
      simp only [substitute] at h
      obtain ⟨hhead, htail⟩ := List.cons.inj h
      by_cases hb : b < 0x80
      · have hlead : lead b = (1, 0, 0) := if_pos hb
        rw [hlead] at hhead htail
        simp only [Nat.sub_self, continuation, List.drop_zero, List.take_zero] at hhead htail
        refine ⟨fuel, rest, rfl, ?_, htail.symm⟩
        have hchar : c.toNat = b.toNat := by
          rw [← hhead, if_pos trivial]
          exact toNat_ofNat_ascii (UInt8.lt_iff_toNat_lt.mp hb)
        rw [hchar, UInt8.ofNat_toNat]
      · split_ifs at hhead with htaken
        · exact absurd hc (hhead ▸ not_isAscii_ofNat (le_codePoint hb htaken))
        · exact absurd hc (hhead ▸ by decide)

theorem substitute_append {pre : List Char} (hpre : ∀ c ∈ pre, IsAscii c) {fuel : ℕ}
    {b : List UInt8} {s : List Char} (hfuel : b.length ≤ fuel) (h : substitute fuel b = pre ++ s) :
    ∃ t, b = asciiBytes pre ++ t ∧ (s = [] → t = []) := by
  induction pre generalizing fuel b with
  | nil =>
    refine ⟨b, rfl, fun hs => ?_⟩
    rw [List.nil_append, hs] at h
    cases b with
    | nil => rfl
    | cons x rest =>
      cases fuel with
      | zero => cases hfuel
      | succ fuel => cases h
  | cons c pre ih =>
    obtain ⟨hc, hpre⟩ := List.forall_mem_cons.mp hpre
    obtain ⟨fuel', t, rfl, rfl, hs⟩ := substitute_ascii hc h
    obtain ⟨t', rfl, hnil⟩ := ih hpre (Nat.le_of_succ_le_succ hfuel) hs.symm
    exact ⟨t', rfl, hnil⟩

/-- ASCII at the start of a lossy text stands for its own bytes, and nothing after it is lost. -/
theorem lossy_append {pre : List Char} (hpre : ∀ c ∈ pre, IsAscii c) {b : List UInt8}
    {s : List Char} (h : (lossy b).toList = pre ++ s) :
    ∃ t, b = asciiBytes pre ++ t ∧ (s = [] → t = []) := by
  unfold lossy at h
  cases hb : ofBytes? b with
  | some text =>
    rw [hb] at h
    refine ⟨s.flatMap String.utf8EncodeChar, ?_, ?_⟩
    · rw [← bytesOf_of_ofBytes? hb, ← flatMap_ascii hpre, ← List.flatMap_append, ← h,
        ← bytesOf_ofList, String.ofList_toList]
    · rintro rfl
      rfl
  | none =>
    rw [hb] at h
    simp only [String.toList_ofList] at h
    exact substitute_append hpre le_rfl h

end Utf8
