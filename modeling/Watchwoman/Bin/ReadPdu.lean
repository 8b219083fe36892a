import Watchwoman.Daemon.Server

/-!
# How the tools read PDUs

`watchman-wait` and `watchman-make` make a new `BufReader` over the socket for every PDU. What such a
reader has taken from the socket behind the newline is dropped with it, so a PDU that comes in one
read with the end of the one before it is lost, or loses its first bytes (`coalesced_pdu_lost`). The
calls return every PDU exactly if each read of the socket ends at a newline or has none
(`readPdus_iff`).
-/

namespace Watchwoman.Bin

open Server

/-! ## `json.rs` -/

mutual

/-- `from_serde` -/
def fromSerde : Json → Value
  | .null => .null
  | .bool b => .bool b
  | .number n =>
    match n.asI64, n with
    | some i, _ => .int i
    | none, .posInt u => .int u.toInt64
    | none, n => .real n.asF64
  | .string s => .string s
  | .array a => .array (fromSerdeItems a)
  | .object o => .object (fromSerdeEntries o [])

def fromSerdeItems : List Json → List Value
  | [] => []
  | v :: vs => fromSerde v :: fromSerdeItems vs

def fromSerdeEntries : List (String × Json) → List (String × Value) → List (String × Value)
  | [], m => m
  | (k, v) :: o, m => fromSerdeEntries o (Bser.indexInsert k (fromSerde v) m)

end

/-- A buffered reader: what it has read and not given out, and what the reads of its socket will
return. No read returns nothing before the peer closes. -/
structure BufReader where
  buffer : List UInt8
  reads : List (List UInt8)

/-- `read_until(b'\n')` with this buffer: what it returns, and the reader after it. -/
def readUntil (buffer : List UInt8) : List (List UInt8) → List UInt8 × BufReader
  | [] =>
    if 0x0A ∈ buffer then ((readUntilNewline buffer).1, ⟨(readUntilNewline buffer).2, []⟩)
    else (buffer, ⟨[], []⟩)
  | chunk :: reads =>
    if 0x0A ∈ buffer then
      ((readUntilNewline buffer).1, ⟨(readUntilNewline buffer).2, chunk :: reads⟩)
    else
      let (line, r) := readUntil chunk reads
      (buffer ++ line, r)

inductive PduError where
  /-- `ProtocolError::Truncated`, for an empty line. -/
  | truncated
  /-- A refusal of `serde_json`. -/
  | json
  /-- `daemon closed connection` -/
  | closed
  deriving DecidableEq, Repr

section Reader

-- `serde_json::from_slice`
variable (fromSlice : List UInt8 → Option Json)

/-- What `json::read_pdu` makes of what `read_until` returned. -/
def parseLine (line : List UInt8) : Except PduError (Option Value) :=
  if line = [] then .ok none
  else if chomp line = [] then .error .truncated
  else
    match fromSlice (chomp line) with
    | some v => .ok (some (fromSerde v))
    | none => .error .json

/-- `read_pdu` of the tools: a new reader over the socket, which is dropped afterwards. The second
component is what the socket has left. -/
def readPdu (reads : List (List UInt8)) : Except PduError Value × List (List UInt8) :=
  let (line, r) := readUntil [] reads
  let result := match parseLine fromSlice line with
    | .ok (some v) => .ok v
    | .ok none => .error .closed
    | .error e => .error e
  (result, r.reads)

/-- What `n` calls, one after the other, return. -/
def readPdus : ℕ → List (List UInt8) → List (Except PduError Value)
  | 0, _ => []
  | n + 1, reads => (readPdu fromSlice reads).1 :: readPdus n (readPdu fromSlice reads).2

end Reader

def frames (lines : List (List UInt8)) : List UInt8 := lines.flatMap (· ++ [0x0A])

/-- A line that `serde_json` writes for a document: it has no newline and is not empty, it reads as
the document, and nothing reads as the same document if its first bytes are lost. -/
structure IsText (fromSlice : List UInt8 → Option Json) (line : List UInt8) (v : Json) : Prop where
  no_newline : 0x0A ∉ line
  parses : fromSlice line = some v
  cut : ∀ pre rest, line = pre ++ rest → pre ≠ [] →
    ∀ w, fromSlice rest = some w → fromSerde w ≠ fromSerde v
  ne_nil : line ≠ []

/-! ## One call -/

theorem readUntilNewline_of_mem {s : List UInt8} (h : 0x0A ∈ s) :
    ∃ line rest, s = line ++ 0x0A :: rest ∧ 0x0A ∉ line ∧
      readUntilNewline s = (line ++ [0x0A], rest) := by
  induction s with
  | nil => exact absurd h List.not_mem_nil
  | cons b s ih =>
    unfold readUntilNewline
    by_cases hb : b = 0x0A
    · rw [if_pos hb, hb]
      exact ⟨[], s, rfl, List.not_mem_nil, rfl⟩
    · obtain ⟨line, rest, hs, hline, hread⟩ := ih ((List.mem_cons.mp h).resolve_left (Ne.symm hb))
      rw [if_neg hb, hread]
      refine ⟨b :: line, rest, by rw [hs]; rfl, ?_, rfl⟩
      intro hmem
      rcases List.mem_cons.mp hmem with heq | hmem
      · exact hb heq.symm
      · exact hline hmem

/-- The part of a list in front of the first newline is determined. -/
theorem line_unique {a a' r r' : List UInt8} (ha : 0x0A ∉ a) (ha' : 0x0A ∉ a')
    (h : a ++ 0x0A :: r = a' ++ 0x0A :: r') : a = a' ∧ r = r' := by
  induction a generalizing a' with
  | nil =>
    cases a' with
    | nil => exact ⟨rfl, (List.cons.inj h).2⟩
    | cons b a' =>
      obtain ⟨hb, -⟩ := List.cons.inj h
      exact absurd (hb ▸ List.mem_cons_self) ha'
  | cons b a ih =>
    cases a' with
    | nil =>
      obtain ⟨hb, -⟩ := List.cons.inj h
      exact absurd (hb ▸ List.mem_cons_self) ha
    | cons b' a' =>
      obtain ⟨hb, htail⟩ := List.cons.inj h
      obtain ⟨hline, hr⟩ := ih (fun hm => ha (List.mem_cons_of_mem _ hm))
        (fun hm => ha' (List.mem_cons_of_mem _ hm)) htail
      exact ⟨by rw [hb, hline], hr⟩

/-- `read_until`, if a newline comes: some reads without one, then a read with the end of the line.
What that read has behind the newline stays in the buffer. -/
theorem readUntil_of_newline {buffer : List UInt8} {reads : List (List UInt8)}
    (h : 0x0A ∈ buffer ++ reads.flatten) :
    ∃ init part dropped rest, buffer :: reads = init ++ (part ++ 0x0A :: dropped) :: rest ∧
      (∀ c ∈ init, 0x0A ∉ c) ∧ 0x0A ∉ part ∧
      readUntil buffer reads = (init.flatten ++ (part ++ [0x0A]), ⟨dropped, rest⟩) := by
  induction reads generalizing buffer with
  | nil =>
    have hmem : 0x0A ∈ buffer := by simpa using h
    obtain ⟨part, dropped, hbuffer, hpart, hread⟩ := readUntilNewline_of_mem hmem
    refine ⟨[], part, dropped, [], by rw [hbuffer]; rfl, by simp, hpart, ?_⟩
    rw [readUntil, if_pos hmem, hread]
    rfl
  | cons chunk reads ih =>
    by_cases hmem : 0x0A ∈ buffer
    · obtain ⟨part, dropped, hbuffer, hpart, hread⟩ := readUntilNewline_of_mem hmem
      refine ⟨[], part, dropped, chunk :: reads, by rw [hbuffer]; rfl, by simp, hpart, ?_⟩
      rw [readUntil, if_pos hmem, hread]
      rfl
    · rw [List.flatten_cons] at h
      obtain ⟨init, part, dropped, rest, hsplit, hinit, hpart, hread⟩ :=
        ih ((List.mem_append.mp h).resolve_left hmem)
      refine ⟨buffer :: init, part, dropped, rest, by rw [hsplit]; rfl,
        List.forall_mem_cons.mpr ⟨hmem, hinit⟩, hpart, ?_⟩
      rw [readUntil, if_neg hmem, hread, List.flatten_cons, List.append_assoc]

/-- What a call returns for a line that ended. -/
def lineResult (fromSlice : List UInt8 → Option Json) (line : List UInt8) : Except PduError Value :=
  if line = [] then .error .truncated
  else
    match fromSlice line with
    | some v => .ok (fromSerde v)
    | none => .error .json

variable {fromSlice : List UInt8 → Option Json} {reads : List (List UInt8)}

theorem chomp_append_newline (line : List UInt8) : chomp (line ++ [0x0A]) = line := by
  unfold chomp
  rw [if_pos List.getLast?_concat, List.dropLast_concat]

/-- One call: of the reads it takes, all but the last have no newline, and what the last has behind
its first newline is dropped. -/
theorem readPdu_of_newline {line tail : List UInt8} (hline : 0x0A ∉ line)
    (h : reads.flatten = line ++ 0x0A :: tail) :
    ∃ init part dropped rest, reads = init ++ (part ++ 0x0A :: dropped) :: rest ∧
      (∀ c ∈ init, 0x0A ∉ c) ∧ 0x0A ∉ part ∧ dropped ++ rest.flatten = tail ∧
      readPdu fromSlice reads = (lineResult fromSlice line, rest) := by
  obtain ⟨init, part, dropped, rest, hsplit, hinit, hpart, hread⟩ :=
    @readUntil_of_newline [] reads (by rw [h]; simp)
  cases init with
  | nil =>
    have hnil := (List.cons.inj hsplit).1
    exact absurd hnil.symm (by simp)
  | cons c init =>
    obtain ⟨rfl, hreads⟩ := List.cons.inj hsplit
    obtain ⟨-, hinit⟩ := List.forall_mem_cons.mp hinit
    have hflat : (init.flatten ++ part) ++ 0x0A :: (dropped ++ rest.flatten) =
        line ++ 0x0A :: tail := by
      rw [← h, hreads]
      simp
    have hfront : 0x0A ∉ init.flatten ++ part := by
      simpa [not_or] using ⟨hinit, hpart⟩
    obtain ⟨rfl, htail⟩ := line_unique hfront hline hflat
    refine ⟨init, part, dropped, rest, hreads, hinit, hpart, htail, ?_⟩
    unfold readPdu
    rw [hread, List.flatten_cons, List.nil_append, ← List.append_assoc]
    unfold parseLine lineResult
    simp only [chomp_append_newline]
    rw [if_neg (by simp)]
    by_cases hnil : init.flatten ++ part = []
    · rw [if_pos hnil, if_pos hnil]
    · rw [if_neg hnil, if_neg hnil]
      cases fromSlice (init.flatten ++ part) <;> rfl

/-! ## All calls -/

def EndsLine (chunk : List UInt8) : Prop := 0x0A ∉ chunk.dropLast

instance (chunk : List UInt8) : Decidable (EndsLine chunk) := inferInstanceAs (Decidable (¬ _))

theorem endsLine_append_iff (part dropped : List UInt8) (hpart : 0x0A ∉ part) :
    EndsLine (part ++ 0x0A :: dropped) ↔ dropped = [] := by
  unfold EndsLine
  rcases dropped.eq_nil_or_concat with rfl | ⟨init, last, rfl⟩
  · rw [List.dropLast_concat]
    exact iff_of_true hpart rfl
  · have hdrop : (part ++ 0x0A :: (init ++ [last])).dropLast = part ++ 0x0A :: init := by
      rw [← List.cons_append, ← List.append_assoc, List.dropLast_concat]
    rw [List.concat_eq_append, hdrop]
    exact iff_of_false (by simp) (by simp)

theorem endsLine_of_not_mem {chunk : List UInt8} (h : 0x0A ∉ chunk) : EndsLine chunk :=
  fun hmem => h (List.mem_of_mem_dropLast hmem)

def Terminated (s : List UInt8) : Prop := s = [] ∨ ∃ t, s = t ++ [0x0A]

theorem Terminated.suffix {a s : List UInt8} (h : Terminated (a ++ s)) : Terminated s := by
  rcases s.eq_nil_or_concat with rfl | ⟨t, b, rfl⟩
  · exact .inl rfl
  · rcases h with hnil | ⟨t', ht'⟩
    · simp at hnil
    · rw [List.concat_eq_append, ← List.append_assoc] at ht'
      obtain ⟨-, hb⟩ := List.append_inj' ht' rfl
      exact .inr ⟨t, by rw [List.concat_eq_append, hb]⟩

theorem terminated_frames (lines : List (List UInt8)) : Terminated (frames lines) := by
  induction lines with
  | nil => exact .inl rfl
  | cons line lines ih =>
    rw [frames, List.flatMap_cons]
    rcases ih with hnil | ⟨t, ht⟩
    · refine .inr ⟨line, ?_⟩
      rw [frames] at hnil
      rw [hnil, List.append_nil]
    · refine .inr ⟨(line ++ [0x0A]) ++ t, ?_⟩
      rw [frames] at ht
      rw [ht, List.append_assoc _ t]

theorem count_frames {lines : List (List UInt8)} (h : ∀ line ∈ lines, 0x0A ∉ line) :
    (frames lines).count 0x0A = lines.length := by
  induction lines with
  | nil => rfl
  | cons line lines ih =>
    obtain ⟨hline, hlines⟩ := List.forall_mem_cons.mp h
    have ih := ih hlines
    rw [frames] at ih
    rw [frames, List.flatMap_cons, List.count_append, List.count_append, ih,
      List.count_eq_zero_of_not_mem hline, List.length_cons]
    simp
    omega

/-- Every call that returns a PDU takes a newline from the socket. -/
theorem le_count_of_ok {n : ℕ} (hne : ∀ c ∈ reads, c ≠ []) (hend : Terminated reads.flatten)
    (h : ∀ x ∈ readPdus fromSlice n reads, ∃ v, x = .ok v) : n ≤ reads.flatten.count 0x0A := by
  induction n generalizing reads with
  | zero => exact Nat.zero_le _
  | succ n ih =>
    obtain ⟨⟨v, hfirst⟩, hlater⟩ := List.forall_mem_cons.mp h
    by_cases hmem : 0x0A ∈ reads.flatten
    · obtain ⟨line, tail, hflat, hline, -⟩ := readUntilNewline_of_mem hmem
      obtain ⟨init, part, dropped, rest, hreads, -, -, htail, hcall⟩ :=
        @readPdu_of_newline fromSlice reads line tail hline hflat
      rw [hcall] at hlater
      have hrest : ∀ c ∈ rest, c ≠ [] := by
        intro c hc
        exact hne c (by rw [hreads]; simp [hc])
      have hend' : Terminated rest.flatten := by
        rw [hflat, ← htail, ← List.cons_append, ← List.append_assoc] at hend
        exact hend.suffix
      have hle := ih hrest hend' hlater
      rw [hflat, ← htail, List.count_append, List.count_cons_self, List.count_append]
      omega
    · -- no newline is left, so no byte is left, and the call finds the connection closed
      have hnil : reads = [] := by
        rcases hend with hnil | ⟨t, ht⟩
        · rcases reads with _ | ⟨c, reads⟩
          · rfl
          · exact absurd (List.append_eq_nil_iff.mp hnil).1 (hne c List.mem_cons_self)
        · exact absurd (by rw [ht]; simp) hmem
      rw [hnil] at hfirst
      cases hfirst

theorem lineResult_of_isText {line : List UInt8} {v : Json} (h : IsText fromSlice line v) :
    lineResult fromSlice line = .ok (fromSerde v) := by
  unfold lineResult
  rw [if_neg h.ne_nil, h.parses]

theorem nil_of_lineResult {line pre rest : List UInt8} {v : Json} (h : IsText fromSlice line v)
    (hsplit : line = pre ++ rest) (hok : lineResult fromSlice rest = .ok (fromSerde v)) :
    pre = [] := by
  by_contra hpre
  unfold lineResult at hok
  split_ifs at hok
  cases hrest : fromSlice rest with
  | none =>
    rw [hrest] at hok
    cases hok
  | some w =>
    rw [hrest] at hok
    exact h.cut pre rest hsplit hpre w hrest (Except.ok.inj hok)

theorem frames_cons (line : List UInt8) (lines : List (List UInt8)) :
    frames (line :: lines) = line ++ 0x0A :: frames lines := by
  rw [frames, List.flatMap_cons, List.append_assoc]
  rfl

section Texts

variable {pdus : List (List UInt8 × Json)}

/-- If the later calls return the later PDUs, nothing was dropped in front of them. -/
theorem dropped_eq_nil (htext : ∀ x ∈ pdus, IsText fromSlice x.1 x.2) {dropped : List UInt8}
    (hne : ∀ c ∈ reads, c ≠ []) (hbytes : dropped ++ reads.flatten = frames (pdus.map Prod.fst))
    (h : readPdus fromSlice pdus.length reads = pdus.map fun x => .ok (fromSerde x.2)) :
    dropped = [] := by
  have hlines : ∀ line ∈ pdus.map Prod.fst, 0x0A ∉ line := by
    intro line hline
    obtain ⟨x, hx, rfl⟩ := List.mem_map.mp hline
    exact (htext x hx).no_newline
  have hok : ∀ x ∈ readPdus fromSlice pdus.length reads, ∃ v, x = .ok v := by
    intro x hx
    rw [h] at hx
    obtain ⟨y, -, rfl⟩ := List.mem_map.mp hx
    exact ⟨_, rfl⟩
  have hend : Terminated reads.flatten :=
    Terminated.suffix (hbytes ▸ terminated_frames (pdus.map Prod.fst))
  have hcount := le_count_of_ok hne hend hok
  have hall := count_frames hlines
  rw [← hbytes, List.count_append, List.length_map] at hall
  have hdropped : 0x0A ∉ dropped := List.count_eq_zero.mp (by omega)
  cases pdus with
  | nil => exact (List.append_eq_nil_iff.mp hbytes).1
  | cons x pdus =>
    -- what was dropped is the front of the next line, and the next call returns the rest of it
    have hmem : 0x0A ∈ reads.flatten := by
      refine List.count_pos_iff.mp ?_
      rw [List.length_cons] at hcount
      omega
    obtain ⟨line, tail, hflat, hline, -⟩ := readUntilNewline_of_mem hmem
    obtain ⟨init, part, dropped', rest, -, -, -, -, hcall⟩ :=
      @readPdu_of_newline fromSlice reads line tail hline hflat
    have htextx := htext x List.mem_cons_self
    rw [List.map_cons, frames_cons, hflat, ← List.append_assoc] at hbytes
    obtain ⟨hx, -⟩ := line_unique (by simpa [not_or] using ⟨hdropped, hline⟩) htextx.no_newline
      hbytes
    have hfirst := (List.cons.inj h).1
    rw [hcall] at hfirst
    exact nil_of_lineResult htextx hx.symm hfirst

/-- **Reads that end at newlines.** The calls of `read_pdu` return exactly the PDUs that were sent
if and only if no read of the socket has bytes behind a newline. -/
theorem readPdus_iff (fromSlice : List UInt8 → Option Json) (pdus : List (List UInt8 × Json))
    (htext : ∀ x ∈ pdus, IsText fromSlice x.1 x.2) (reads : List (List UInt8))
    (hne : ∀ c ∈ reads, c ≠ []) (hbytes : reads.flatten = frames (pdus.map Prod.fst)) :
    readPdus fromSlice pdus.length reads = pdus.map (fun x => .ok (fromSerde x.2)) ↔
      ∀ c ∈ reads, EndsLine c := by
  induction pdus generalizing reads with
  | nil =>
    refine iff_of_true rfl ?_
    intro c hc
    exact absurd (List.flatten_eq_nil_iff.mp hbytes c hc) (hne c hc)
  | cons x pdus ih =>
    obtain ⟨hx, htext⟩ := List.forall_mem_cons.mp htext
    rw [List.map_cons, frames_cons] at hbytes
    obtain ⟨init, part, dropped, rest, rfl, hinit, hpart, htail, hcall⟩ :=
      @readPdu_of_newline fromSlice reads x.1 _ hx.no_newline hbytes
    have hrest : ∀ c ∈ rest, c ≠ [] := fun c hc => hne c (by simp [hc])
    have hends : (∀ c ∈ init ++ (part ++ 0x0A :: dropped) :: rest, EndsLine c) ↔
        dropped = [] ∧ ∀ c ∈ rest, EndsLine c := by
      rw [List.forall_mem_append, List.forall_mem_cons, endsLine_append_iff part dropped hpart]
      exact and_iff_right fun c hc => endsLine_of_not_mem (hinit c hc)
    have hcalls : readPdus fromSlice (x :: pdus).length (init ++ (part ++ 0x0A :: dropped) :: rest) =
        .ok (fromSerde x.2) :: readPdus fromSlice pdus.length rest := by
      rw [List.length_cons, readPdus, hcall, lineResult_of_isText hx]
    rw [hcalls, hends, List.map_cons, List.cons.injEq, and_iff_right rfl]
    constructor
    · intro h
      obtain rfl := dropped_eq_nil htext hrest htail h
      exact ⟨rfl, (ih htext rest hrest htail).mp h⟩
    · rintro ⟨rfl, h⟩
      exact (ih htext rest hrest htail).mpr h

end Texts

/-- `serde_json` on the empty object and on what is left of it. -/
def fromSliceObject (s : List UInt8) : Option Json :=
  if s = [0x7B, 0x7D] then some (.object []) else none

theorem isText_object : IsText fromSliceObject [0x7B, 0x7D] (.object []) where
  no_newline := by decide
  parses := rfl
  cut := by
    intro pre rest hsplit hpre w hw
    have hrest : rest ≠ [0x7B, 0x7D] := by
      rintro rfl
      have hlen := congrArg List.length hsplit
      rw [List.length_append] at hlen
      exact hpre (List.length_eq_zero_iff.mp (by simpa using hlen))
    unfold fromSliceObject at hw
    rw [if_neg hrest] at hw
    cases hw
  ne_nil := by decide

/-- Two empty objects, one in each read. -/
theorem readPdus_two_reads :
    readPdus fromSliceObject 2 [[0x7B, 0x7D, 0x0A], [0x7B, 0x7D, 0x0A]] =
      [.ok (.object []), .ok (.object [])] :=
  (readPdus_iff fromSliceObject [([0x7B, 0x7D], .object []), ([0x7B, 0x7D], .object [])]
    (by simpa using isText_object) [[0x7B, 0x7D, 0x0A], [0x7B, 0x7D, 0x0A]] (by decide) rfl).mpr
    (by decide)

/-- Both in one read: the second call finds the connection closed. -/
theorem coalesced_pdu_lost :
    IsText fromSliceObject [0x7B, 0x7D] (.object []) ∧
    [[0x7B, 0x7D, 0x0A, 0x7B, 0x7D, 0x0A]].flatten = frames [[0x7B, 0x7D], [0x7B, 0x7D]] ∧
    readPdus fromSliceObject 2 [[0x7B, 0x7D, 0x0A, 0x7B, 0x7D, 0x0A]] =
      [.ok (.object []), .error .closed] :=
  ⟨isText_object, rfl, rfl⟩

end Watchwoman.Bin
