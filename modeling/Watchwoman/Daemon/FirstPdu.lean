import Watchwoman.Daemon.Server

/-!
# The first PDU of a connection

`read_first_pdu` takes one byte to learn the encoding and then reads the rest of the PDU, `read_pdu`
is told the encoding and reads all of it. They do the same unless that first byte is itself a
newline: `read_pdu` takes an empty line for the end of the session, `read_first_pdu` goes on to the
end of the next line (`first_pdu_iff`).
-/

namespace Watchwoman.Server

open Bser Fallible

/-- The encoding the first bytes of a stream stand for. A stream that ends at once has none, and
every reader finds its end. -/
def Sniffs : List UInt8 → Encoding → Prop
  | [], _ => True
  | b :: s, e =>
    if b = 0x00 then (s.head? = some 0x01 ∧ e = .bserV1) ∨ (s.head? = some 0x02 ∧ e = .bserV2)
    else e = .json

section Readers

variable {lim : AllocLimits} {fromSlice : List UInt8 → Option Json}

/-- `read_first_pdu` yields what `read_pdu` yields, and the end of the stream where it does. -/
structure SameFirst (lim : AllocLimits) (fromSlice : List UInt8 → Option Json) (e : Encoding)
    (s : List UInt8) : Prop where
  value : ∀ v e' rest, readFirstPdu lim fromSlice s = .ok (some (v, e'), rest) ↔
    e' = e ∧ readPdu lim fromSlice e s = .ok (some v, rest)
  ended : (∃ rest, readFirstPdu lim fromSlice s = .ok (none, rest)) ↔
    ∃ rest, readPdu lim fromSlice e s = .ok (none, rest)

/-- Two readers that go on from the same body. -/
theorem SameFirst.of_body {e : Encoding} {s : List UInt8} {body : Reply (Value × List UInt8)}
    (hfirst : readFirstPdu lim fromSlice s = body >>= fun x => .ok (some (x.1, e), x.2))
    (hlater : readPdu lim fromSlice e s = body >>= fun x => .ok (some x.1, x.2)) :
    SameFirst lim fromSlice e s := by
  cases body with
  | error err =>
    rw [error_bind] at hfirst hlater
    refine ⟨fun v e' rest => ?_, ?_⟩
    · rw [hfirst, hlater]
      simp
    · rw [hfirst, hlater]
      simp
  | ok x =>
    rw [ok_bind] at hfirst hlater
    refine ⟨fun v e' rest => ?_, ?_⟩
    · rw [hfirst, hlater]
      simp only [Except.ok.injEq, Prod.mk.injEq, Option.some.injEq]
      constructor
      · rintro ⟨⟨rfl, rfl⟩, rfl⟩
        exact ⟨rfl, rfl, rfl⟩
      · rintro ⟨rfl, rfl, rfl⟩
        exact ⟨⟨rfl, rfl⟩, rfl⟩
    · rw [hfirst, hlater]
      simp

theorem sameFirst_bserV1 (s : List UInt8) : SameFirst lim fromSlice .bserV1 (0x00 :: 0x01 :: s) :=
  @SameFirst.of_body lim fromSlice _ _ (readBody lim (readValue lim) s) rfl rfl

theorem sameFirst_bserV2 (s : List UInt8) : SameFirst lim fromSlice .bserV2 (0x00 :: 0x02 :: s) := by
  refine @SameFirst.of_body lim fromSlice _ _
    (okOr .unexpectedEof (readExact 4 s) >>= fun x => readBody lim (readValue lim) x.2) ?_ ?_
  · show (okOr ServerError.unexpectedEof (readExact 4 s) >>= _) >>= _ = _
    rw [bind_assoc, bind_assoc]
    rfl
  · show (okOr ServerError.unexpectedEof (readExact 4 s) >>= _) >>= _ = _
    rw [bind_assoc, bind_assoc]
    rfl

theorem readUntilNewline_cons {b : UInt8} (hb : b ≠ 0x0A) (s : List UInt8) :
    readUntilNewline (b :: s) = (b :: (readUntilNewline s).1, (readUntilNewline s).2) := by
  rw [readUntilNewline, if_neg hb]

theorem chomp_cons_ne_nil {b : UInt8} (hb : b ≠ 0x0A) (line : List UInt8) :
    chomp (b :: line) ≠ [] := by
  unfold chomp
  split_ifs with hlast
  · cases line with
    | nil =>
      simp only [List.getLast?_singleton, Option.some.injEq] at hlast
      exact absurd hlast hb
    | cons c line => simp
  · simp

theorem sameFirst_json {b : UInt8} (h0 : b ≠ 0x00) (hb : b ≠ 0x0A) (s : List UInt8) :
    SameFirst lim fromSlice .json (b :: s) := by
  have hline := readUntilNewline_cons hb s
  refine @SameFirst.of_body lim fromSlice _ _
    (okOr .json (fromSlice (chomp (b :: (readUntilNewline s).1))) >>= fun v =>
      .ok (jsonToValue v, (readUntilNewline s).2)) ?_ ?_
  · unfold readFirstPdu readFirstPduWith
    simp only [readU8]
    rw [if_neg h0, if_neg (chomp_cons_ne_nil hb _), bind_assoc]
    rfl
  · unfold readPdu readPduWith
    simp only [hline]
    rw [if_neg (chomp_cons_ne_nil hb _), bind_assoc]
    rfl

/-- A stream that starts with a newline ends for `read_pdu` and not for `read_first_pdu`. -/
theorem not_sameFirst_newline (s : List UInt8) : ¬ SameFirst lim fromSlice .json (0x0A :: s) := by
  intro h
  have hend : readPdu lim fromSlice .json (0x0A :: s) = .ok (none, s) := rfl
  obtain ⟨rest, hfirst⟩ := h.ended.mpr ⟨s, hend⟩
  unfold readFirstPdu readFirstPduWith at hfirst
  simp only [readU8] at hfirst
  rw [if_neg (by decide)] at hfirst
  split_ifs at hfirst
  obtain ⟨v, -, hsome⟩ := bind_eq_ok.mp hfirst
  cases hsome

/-- **First PDUs.** For a stream and the encoding its first bytes stand for, the first PDU is read
like every other exactly if the stream does not start with a newline. -/
theorem first_pdu_iff (lim : AllocLimits) (fromSlice : List UInt8 → Option Json) (s : List UInt8)
    (e : Encoding) (hsniff : Sniffs s e) :
    SameFirst lim fromSlice e s ↔ s.head? ≠ some 0x0A := by
  cases s with
  | nil =>
    have hlater : readPdu lim fromSlice e [] = .ok (none, []) := by
      cases e <;> rfl
    refine iff_of_true ⟨fun v e' rest => ?_, ?_⟩ (by simp)
    · rw [hlater]
      simp [readFirstPdu, readFirstPduWith, readU8]
    · rw [hlater]
      exact ⟨fun _ => ⟨[], rfl⟩, fun _ => ⟨[], rfl⟩⟩
  | cons b s =>
    rw [List.head?_cons, ne_eq, Option.some_inj]
    simp only [Sniffs] at hsniff
    split_ifs at hsniff with h0
    · subst h0
      refine iff_of_true ?_ (by decide)
      rcases hsniff with ⟨hversion, rfl⟩ | ⟨hversion, rfl⟩
      · obtain ⟨t, rfl⟩ := List.head?_eq_some_iff.mp hversion
        exact sameFirst_bserV1 t
      · obtain ⟨t, rfl⟩ := List.head?_eq_some_iff.mp hversion
        exact sameFirst_bserV2 t
    · subst hsniff
      by_cases hb : b = 0x0A
      · subst hb
        exact iff_of_false (not_sameFirst_newline s) (by simp)
      · exact iff_of_true (sameFirst_json h0 hb s) hb

end Readers

/-- `serde_json` on an empty object, with the white space it skips. -/
def emptyObjectOnly (line : List UInt8) : Option Json :=
  if line.filter (· ≠ 0x0A) = [0x7B, 0x7D] then some (.object []) else none

theorem first_pdu_iff_object :
    Sniffs [0x7B, 0x7D] .json ∧
    (SameFirst .bits64 emptyObjectOnly .json [0x7B, 0x7D] ↔
      [0x7B, 0x7D].head? ≠ some (0x0A : UInt8)) :=
  have hsniff : Sniffs [0x7B, 0x7D] .json := rfl
  ⟨hsniff, first_pdu_iff .bits64 emptyObjectOnly [0x7B, 0x7D] .json hsniff⟩

/-- A blank line and an object: the first reader returns the object, the other one the end of the
session. -/
theorem blank_line_then_object :
    Sniffs [0x0A, 0x7B, 0x7D, 0x0A] .json ∧
    readFirstPdu .bits64 emptyObjectOnly [0x0A, 0x7B, 0x7D, 0x0A] =
      .ok (some (.object [], .json), []) ∧
    readPdu .bits64 emptyObjectOnly .json [0x0A, 0x7B, 0x7D, 0x0A] =
      .ok (none, [0x7B, 0x7D, 0x0A]) ∧
    ¬ SameFirst .bits64 emptyObjectOnly .json [0x0A, 0x7B, 0x7D, 0x0A] :=
  ⟨rfl, rfl, rfl, not_sameFirst_newline _⟩

end Watchwoman.Server
