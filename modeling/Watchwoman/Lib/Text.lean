import Mathlib.Data.List.DropRight
import Watchwoman.Lib.Joined

/-!
# Lines and trimmed texts

Trimming takes off what a list starts and ends with, so it counts less of what it takes off and
leaves a list alone that neither starts nor ends with it. The lines of a text that are not empty are
the parts between its newlines, if there is no carriage return in it.
-/

namespace Text

section Strip

variable {α β : Type} {p : α → Bool} {l : List α}

/-- The list without the elements at both ends that satisfy `p`. -/
def strip (p : α → Bool) (l : List α) : List α := (l.dropWhile p).rdropWhile p

theorem strip_map (f : β → α) (l : List β) : strip p (l.map f) = (strip (p ∘ f) l).map f := by
  unfold strip List.rdropWhile
  rw [List.dropWhile_map, ← List.map_reverse, List.dropWhile_map, ← List.map_reverse]

theorem strip_eq_self (hhead : ∀ x ∈ l.head?, ¬ p x) (hlast : ∀ x ∈ l.getLast?, ¬ p x) :
    strip p l = l := by
  have hdrop : l.dropWhile p = l := by
    cases l with
    | nil => rfl
    | cons x l => exact List.dropWhile_cons_of_neg (hhead x rfl)
  unfold strip
  rw [hdrop, List.rdropWhile_eq_self_iff]
  intro hl
  exact hlast _ (List.getLast?_eq_some_getLast hl)

theorem strip_decompose (p : α → Bool) (l : List α) :
    l = l.takeWhile p ++ (strip p l ++ (l.dropWhile p).rtakeWhile p) := by
  unfold strip
  rw [List.rdropWhile_append_rtakeWhile, List.takeWhile_append_dropWhile]

theorem strip_sublist (p : α → Bool) (l : List α) : (strip p l).Sublist l :=
  (List.rdropWhile_prefix p _).sublist.trans (List.dropWhile_suffix p).sublist

/-- A list that starts or ends with elements to take off has fewer of them afterwards. -/
theorem countP_strip_lt {q : α → Bool} (hq : ∀ x, p x → q x)
    (h : ∃ x, p x ∧ (l.head? = some x ∨ l.getLast? = some x)) :
    (strip p l).countP q < l.countP q := by
  have hcount := congrArg (List.countP q) (strip_decompose p l)
  rw [List.countP_append, List.countP_append] at hcount
  by_contra hlt
  have hfront : l.takeWhile p = [] := by
    have hzero : (l.takeWhile p).countP q = 0 := by omega
    refine List.eq_nil_iff_forall_not_mem.mpr fun x hx => ?_
    exact List.countP_eq_zero.mp hzero x hx (hq x (List.mem_takeWhile_imp hx))
  have hdrop : l.dropWhile p = l := by
    conv_rhs => rw [← List.takeWhile_append_dropWhile (p := p) (l := l), hfront, List.nil_append]
  have hback : l.rtakeWhile p = [] := by
    have hzero : (l.rtakeWhile p).countP q = 0 := by
      rw [hdrop] at hcount
      omega
    refine List.eq_nil_iff_forall_not_mem.mpr fun x hx => ?_
    exact List.countP_eq_zero.mp hzero x hx (hq x (List.mem_rtakeWhile_imp hx))
  obtain ⟨x, hx, hhead | hlast⟩ := h
  · obtain ⟨t, rfl⟩ := List.head?_eq_some_iff.mp hhead
    rw [List.takeWhile_cons_of_pos hx] at hfront
    cases hfront
  · obtain ⟨t, rfl⟩ := List.getLast?_eq_some_iff.mp hlast
    rw [List.rtakeWhile_concat_pos p t x hx] at hback
    simp at hback

end Strip

/-! ## Texts -/

/-- The Unicode property `White_Space`. -/
def isWhitespace (c : Char) : Bool :=
  (0x09 ≤ c.toNat && c.toNat ≤ 0x0D) || (0x2000 ≤ c.toNat && c.toNat ≤ 0x200A) ||
    [0x20, 0x85, 0xA0, 0x1680, 0x2028, 0x2029, 0x202F, 0x205F, 0x3000].contains c.toNat

/-- The text without leading and trailing whitespace. -/
def trim (s : String) : String := String.ofList (strip isWhitespace s.toList)

/-- A line without the carriage return of its ending. -/
def stripCr (l : List Char) : List Char := if l.getLast? = some '\r' then l.dropLast else l

/-- The lines of a text, each without its ending, a newline or a carriage return and a newline; the
ending of the last one may be missing. -/
def lines (s : String) : List String :=
  let pieces := s.toList.splitOn '\n'
  let rest := pieces.getLast?.getD []
  (pieces.dropLast.map stripCr ++ if rest = [] then [] else [rest]).map String.ofList

example : lines "a\r\n\nb\r" = ["a", "", "b\r"] ∧ trim " a b\r" = "a b" := by decide

theorem stripCr_eq_self {l : List Char} (h : '\r' ∉ l) : stripCr l = l := by
  unfold stripCr
  rw [if_neg]
  intro hlast
  exact h (List.mem_of_getLast? hlast)

/-- The lines that are not empty are the parts between the newlines. -/
theorem mem_lines_iff {s : String} (h : '\r' ∉ s.toList) {line : List Char} (hline : line ≠ []) :
    String.ofList line ∈ lines s ↔ line ∈ Joined.parts '\n' s.toList := by
  have hcr : ∀ piece ∈ s.toList.splitOn '\n', stripCr piece = piece := fun piece hpiece =>
    stripCr_eq_self fun hmem => h (Joined.mem_of_mem_splitOn hpiece hmem)
  obtain ⟨init, last, hsplit⟩ :=
    (List.eq_nil_or_concat (s.toList.splitOn '\n')).resolve_left (List.splitOn_ne_nil _ _)
  rw [List.concat_eq_append] at hsplit
  have hinit : init.map stripCr = init := by
    refine (List.map_congr_left fun piece hpiece => hcr piece ?_).trans (List.map_id init)
    rw [hsplit]
    exact List.mem_append_left _ hpiece
  unfold lines Joined.parts
  dsimp only
  rw [hsplit, List.dropLast_concat, List.getLast?_concat, Option.getD_some, hinit, List.mem_filter,
    List.mem_map_of_injective fun _ _ => String.ofList_injective]
  by_cases hlast : last = []
  · rw [if_pos hlast, hlast]
    simp [hline]
  · rw [if_neg hlast]
    simp [hline]

end Text
