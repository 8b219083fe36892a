import Watchwoman.Daemon.Server

/-!
# Documents and their readers

The repository turns a `serde_json` document into a `Value` in five places, each with a recursion of
its own. All of them go through the document in the same way and can only differ in what they make
of a number: `readDocument` is that way. What a reader returns has, at every path, what the reader
makes of the document there (`valueAt_readDocument`). So two readers agree on a document exactly if
they agree on every number in it (`readDocument_eq_iff`).
-/

namespace Watchwoman.Documents

open Server Bser

/-- Induction over a document with one case per constructor; the containers' cases have the
hypothesis for each of their members. -/
@[elab_as_elim, induction_eliminator]
theorem Json.induct {motive : Json → Prop} (null : motive .null) (bool : ∀ b, motive (.bool b))
    (number : ∀ n, motive (.number n)) (string : ∀ s, motive (.string s))
    (array : ∀ a, (∀ d ∈ a, motive d) → motive (.array a))
    (object : ∀ o, (∀ kd ∈ o, motive kd.2) → motive (.object o)) (d : Json) : motive d := by
  refine @Json.rec motive (fun a => ∀ d ∈ a, motive d) (fun o => ∀ kd ∈ o, motive kd.2)
    (fun kd => motive kd.2) null bool number string array object ?_ ?_ ?_ ?_ ?_ d
  · simp
  · intro head tail hh ht
    exact List.forall_mem_cons.mpr ⟨hh, ht⟩
  · simp
  · intro head tail hh ht
    exact List.forall_mem_cons.mpr ⟨hh, ht⟩
  · intro k d hd
    exact hd

/-! ## Reading a document -/

section Reader

-- what the reader makes of a number
variable (number : JsonNumber → Value)

mutual

def readDocument : Json → Value
  | .null => .null
  | .bool b => .bool b
  | .number n => number n
  | .string s => .string s
  | .array a => .array (readDocumentItems a)
  | .object o => .object (readDocumentEntries o [])

def readDocumentItems : List Json → List Value
  | [] => []
  | d :: ds => readDocument d :: readDocumentItems ds

def readDocumentEntries : List (String × Json) → List (String × Value) → List (String × Value)
  | [], m => m
  | (k, d) :: o, m => readDocumentEntries o (indexInsert k (readDocument d) m)

end

theorem readDocumentItems_eq (a : List Json) :
    readDocumentItems number a = a.map (readDocument number) := by
  induction a with
  | nil => rfl
  | cons d ds ih => rw [readDocumentItems, ih, List.map_cons]

theorem readDocumentEntries_eq (o : List (String × Json)) (m : List (String × Value)) :
    readDocumentEntries number o m =
      IndexMap.extend m (o.map (Prod.map id (readDocument number))) := by
  induction o generalizing m with
  | nil => rfl
  | cons kd o ih =>
    rw [readDocumentEntries, ih, indexInsert_eq]
    rfl

end Reader

theorem nodup_keys_map {α β : Type} {f : α → β} {o : List (String × α)}
    (h : (o.map Prod.fst).Nodup) : ((o.map (Prod.map id f)).map Prod.fst).Nodup := by
  rw [List.map_map]
  exact h

theorem readDocument_array (number : JsonNumber → Value) (a : List Json) :
    readDocument number (.array a) = .array (a.map (readDocument number)) := by
  rw [readDocument, readDocumentItems_eq]

theorem readDocument_object {number : JsonNumber → Value} {o : List (String × Json)}
    (h : (o.map Prod.fst).Nodup) :
    readDocument number (.object o) = .object (o.map (Prod.map id (readDocument number))) := by
  rw [readDocument, readDocumentEntries_eq, IndexMap.extend_nil (nodup_keys_map h)]

/-! ## `json_to_value` of `server.rs` -/

/-- What `json_to_value` makes of a number. -/
def numberToValue (n : JsonNumber) : Value :=
  match n.asI64 with
  | some i => .int i
  | none => .real n.asF64

mutual

theorem jsonToValue_eq : ∀ d, jsonToValue d = readDocument numberToValue d
  | .null => rfl
  | .bool _ => rfl
  | .number _ => rfl
  | .string _ => rfl
  | .array a => congrArg Value.array (jsonItems_eq a)
  | .object o => congrArg Value.object (jsonEntries_eq o [])

theorem jsonItems_eq : ∀ a, jsonItems a = readDocumentItems numberToValue a
  | [] => rfl
  | d :: ds => by rw [jsonItems, readDocumentItems, jsonToValue_eq d, jsonItems_eq ds]

theorem jsonEntries_eq : ∀ o m, jsonEntries o m = readDocumentEntries numberToValue o m
  | [], _ => rfl
  | (k, d) :: o, m => by rw [jsonEntries, readDocumentEntries, jsonToValue_eq d, jsonEntries_eq o]

end

/-! ## Paths -/

/-- A step into an array or an object. -/
inductive Step where
  | item (i : ℕ)
  | entry (k : String)

def child : Step → Json → Option Json
  | .item i, .array a => a[i]?
  | .entry k, .object o => o.lookup k
  | _, _ => none

def member : Step → Value → Option Value
  | .item i, .array a => a[i]?
  | .entry k, .object o => o.lookup k
  | _, _ => none

def docAt : List Step → Json → Option Json
  | [], d => some d
  | s :: path, d => (child s d).bind (docAt path)

def valueAt : List Step → Value → Option Value
  | [], v => some v
  | s :: path, v => (member s v).bind (valueAt path)

/-- `P` holds wherever a path leads. -/
def Everywhere (P : Json → Prop) (d : Json) : Prop := ∀ path d', docAt path d = some d' → P d'

theorem Everywhere.self {P : Json → Prop} {d : Json} (h : Everywhere P d) : P d := h [] d rfl

theorem Everywhere.child {P : Json → Prop} {d d' : Json} (h : Everywhere P d) {s : Step}
    (hchild : child s d = some d') : Everywhere P d' := by
  intro path d'' hpath
  refine h (s :: path) d'' ?_
  rw [docAt, hchild, Option.bind_some, hpath]

/-- The keys of an object are distinct, as a `serde_json::Map` has them. -/
def IsMap : Json → Prop
  | .object o => (o.map Prod.fst).Nodup
  | _ => True

theorem child_item {a : List Json} {d : Json} (h : d ∈ a) :
    ∃ s, child s (.array a) = some d := by
  obtain ⟨i, hi⟩ := List.mem_iff_getElem?.mp h
  exact ⟨.item i, hi⟩

theorem child_entry {o : List (String × Json)} {kd : String × Json} (hmap : IsMap (.object o))
    (h : kd ∈ o) : child (.entry kd.1) (.object o) = some kd.2 :=
  IndexMap.lookup_of_mem hmap h

section Paths

variable {f g : JsonNumber → Value}

/-- One step into what was read. -/
theorem member_readDocument {d : Json} (hmap : IsMap d) (hleaf : ∀ n s, member s (f n) = none)
    (s : Step) : member s (readDocument f d) = (child s d).map (readDocument f) := by
  cases d with
  | null => cases s <;> rfl
  | bool b => cases s <;> rfl
  | number n =>
    rw [readDocument, hleaf]
    cases s <;> rfl
  | string s' => cases s <;> rfl
  | array a =>
    rw [readDocument_array]
    cases s with
    | item i => exact List.getElem?_map
    | entry k => rfl
  | object o =>
    rw [readDocument_object hmap]
    cases s with
    | item i => rfl
    | entry k => exact IndexMap.lookup_map _ k o

theorem valueAt_readDocument (hleaf : ∀ n s, member s (f n) = none) {d : Json}
    (hmaps : Everywhere IsMap d) (path : List Step) :
    valueAt path (readDocument f d) = (docAt path d).map (readDocument f) := by
  induction path generalizing d with
  | nil => rfl
  | cons s path ih =>
    rw [valueAt, docAt, member_readDocument hmaps.self hleaf]
    cases hchild : child s d with
    | none => rfl
    | some d' => exact ih (hmaps.child hchild)

/-- The readers agree on every number of the document. -/
def SameNumbers (f g : JsonNumber → Value) : Json → Prop
  | .number n => f n = g n
  | _ => True

theorem readDocument_congr {d : Json} (hmaps : Everywhere IsMap d)
    (h : Everywhere (SameNumbers f g) d) : readDocument f d = readDocument g d := by
  induction d with
  | null => rfl
  | bool b => rfl
  | number n => exact h.self
  | string s => rfl
  | array a ih =>
    rw [readDocument_array, readDocument_array]
    refine congrArg Value.array (List.map_congr_left fun d hd => ?_)
    obtain ⟨s, hs⟩ := child_item hd
    exact ih d hd (hmaps.child hs) (h.child hs)
  | object o ih =>
    rw [readDocument_object hmaps.self, readDocument_object hmaps.self]
    refine congrArg Value.object (List.map_congr_left fun kd hkd => ?_)
    have hs := child_entry hmaps.self hkd
    exact congrArg (Prod.mk kd.1) (ih kd hkd (hmaps.child hs) (h.child hs))

theorem readDocument_eq_iff (hf : ∀ n s, member s (f n) = none) (hg : ∀ n s, member s (g n) = none)
    {d : Json} (hmaps : Everywhere IsMap d) :
    readDocument f d = readDocument g d ↔ Everywhere (SameNumbers f g) d := by
  constructor
  · intro heq path d' hpath
    have hread : (docAt path d).map (readDocument f) = (docAt path d).map (readDocument g) := by
      rw [← valueAt_readDocument hf hmaps, ← valueAt_readDocument hg hmaps, heq]
    rw [hpath] at hread
    cases d' with
    | number n => exact Option.some.inj hread
    | _ => trivial
  · exact readDocument_congr hmaps

end Paths

end Watchwoman.Documents
