import Mathlib.Algebra.Group.Nat.Defs
import Mathlib.Data.List.Nodup
import Mathlib.Data.List.Flatten

/-!
# The value tree shared by the two codecs

`watchwoman-protocol` decodes JSON and BSER to one enum. Reals are kept by their bit pattern, an
object by its entries in insertion order, as the `IndexMap` of the source iterates them.

`Value.All` says a property of every value inside a value; the type invariants of the source
(distinct keys, containers the allocator can hold) and the shape a template must have to survive
the wire are instances of it.
-/

namespace Watchwoman

/-- Wire encoding selected during the handshake. -/
inductive Encoding where
  | json
  | bserV1
  | bserV2
  deriving DecidableEq, Repr

/-- Shared, codec-agnostic value tree. -/
inductive Value where
  | null
  | bool (b : Bool)
  | int (i : Int64)
  | real (bits : UInt64)
  | string (s : String)
  | bytes (b : List UInt8)
  | array (a : List Value)
  | object (o : List (String × Value))
  | template (keys : List String) (rows : List (List Value))
  deriving Repr, Inhabited

namespace Value

/-- Induction over a value tree with one case per constructor; the containers' cases have the
hypothesis for each of their members. -/
@[elab_as_elim, induction_eliminator]
theorem induct {motive : Value → Prop} (null : motive .null) (bool : ∀ b, motive (.bool b))
    (int : ∀ i, motive (.int i)) (real : ∀ bits, motive (.real bits))
    (string : ∀ s, motive (.string s)) (bytes : ∀ b, motive (.bytes b))
    (array : ∀ a, (∀ v ∈ a, motive v) → motive (.array a))
    (object : ∀ o, (∀ kv ∈ o, motive kv.2) → motive (.object o))
    (template : ∀ keys rows, (∀ row ∈ rows, ∀ v ∈ row, motive v) → motive (.template keys rows))
    (v : Value) : motive v := by
  refine @Value.rec motive (fun a => ∀ v ∈ a, motive v) (fun o => ∀ kv ∈ o, motive kv.2)
    (fun rows => ∀ row ∈ rows, ∀ v ∈ row, motive v) (fun kv => motive kv.2)
    null bool int real string bytes array object template ?_ ?_ ?_ ?_ ?_ ?_ ?_ v
  · simp
  · intro head tail hh ht
    exact List.forall_mem_cons.mpr ⟨hh, ht⟩
  · simp
  · intro head tail hh ht
    exact List.forall_mem_cons.mpr ⟨hh, ht⟩
  · simp
  · intro head tail hh ht
    exact List.forall_mem_cons.mpr ⟨hh, ht⟩
  · intro k v hv
    exact hv

/-! ## Views -/

def asObject : Value → Option (List (String × Value))
  | .object o => some o
  | _ => none

def asStr : Value → Option String
  | .string s => some s
  | _ => none

def asArray : Value → Option (List Value)
  | .array a => some a
  | _ => none

def asI64 : Value → Option Int64
  | .int i => some i
  | _ => none

def asBool : Value → Option Bool
  | .bool b => some b
  | _ => none

/-! ## A property of every value inside a value -/

mutual

/-- `P` holds of the value and of every value inside it. -/
def All (P : Value → Prop) : Value → Prop
  | .array a => P (.array a) ∧ AllItems P a
  | .object o => P (.object o) ∧ AllEntries P o
  | .template keys rows => P (.template keys rows) ∧ AllRows P rows
  | v => P v

def AllItems (P : Value → Prop) : List Value → Prop
  | [] => True
  | v :: vs => All P v ∧ AllItems P vs

def AllEntries (P : Value → Prop) : List (String × Value) → Prop
  | [] => True
  | (_, v) :: o => All P v ∧ AllEntries P o

def AllRows (P : Value → Prop) : List (List Value) → Prop
  | [] => True
  | row :: rows => AllItems P row ∧ AllRows P rows

end

theorem allItems_iff {P : Value → Prop} {a : List Value} : AllItems P a ↔ ∀ v ∈ a, All P v := by
  induction a with
  | nil => simp [AllItems]
  | cons v vs ih => rw [AllItems, ih, List.forall_mem_cons]

theorem allEntries_iff {P : Value → Prop} {o : List (String × Value)} :
    AllEntries P o ↔ ∀ kv ∈ o, All P kv.2 := by
  induction o with
  | nil => simp [AllEntries]
  | cons kv o ih => rw [AllEntries, ih, List.forall_mem_cons]

theorem allRows_iff {P : Value → Prop} {rows : List (List Value)} :
    AllRows P rows ↔ ∀ row ∈ rows, ∀ v ∈ row, All P v := by
  induction rows with
  | nil => simp [AllRows]
  | cons row rows ih => rw [AllRows, ih, allItems_iff, List.forall_mem_cons]

@[simp] theorem all_array {P : Value → Prop} {a : List Value} :
    All P (.array a) ↔ P (.array a) ∧ ∀ v ∈ a, All P v := by
  rw [All, allItems_iff]

@[simp] theorem all_object {P : Value → Prop} {o : List (String × Value)} :
    All P (.object o) ↔ P (.object o) ∧ ∀ kv ∈ o, All P kv.2 := by
  rw [All, allEntries_iff]

@[simp] theorem all_template {P : Value → Prop} {keys : List String} {rows : List (List Value)} :
    All P (.template keys rows) ↔ P (.template keys rows) ∧ ∀ row ∈ rows, ∀ v ∈ row, All P v := by
  rw [All, allRows_iff]

theorem All.mono {P Q : Value → Prop} (h : ∀ v, P v → Q v) {v : Value} (hv : v.All P) :
    v.All Q := by
  induction v with
  | null | bool _ | int _ | real _ | string _ | bytes _ => exact h _ hv
  | array a ih =>
    obtain ⟨hroot, ha⟩ := all_array.mp hv
    exact all_array.mpr ⟨h _ hroot, fun v hmem => ih v hmem (ha v hmem)⟩
  | object o ih =>
    obtain ⟨hroot, ho⟩ := all_object.mp hv
    exact all_object.mpr ⟨h _ hroot, fun kv hmem => ih kv hmem (ho kv hmem)⟩
  | template keys rows ih =>
    obtain ⟨hroot, hrows⟩ := all_template.mp hv
    exact all_template.mpr
      ⟨h _ hroot, fun row hrow v hmem => ih row hrow v hmem (hrows row hrow v hmem)⟩

/-! ## What the source's types promise -/

/-- The keys of one object are distinct, as an `IndexMap` has them. -/
def KeysDistinct : Value → Prop
  | .object o => (o.map Prod.fst).Nodup
  | _ => True

/-- Each row of one template has a cell for each key. -/
def RowsFull : Value → Prop
  | .template keys rows => ∀ row ∈ rows, row.length = keys.length
  | _ => True

/-- The templates inside the value are rectangular. -/
def Rectangular (v : Value) : Prop := v.All RowsFull

end Value

/-- How much can be allocated at once: past `isize::MAX` bytes `with_capacity` and `vec!` panic, and
what the allocator refuses before that aborts the process as well. The limits of the containers are
element counts, which depend on the sizes the compiler gives `Value` and the map's buckets. A string
is copied out of a buffer that was given, and is no longer. -/
structure AllocLimits where
  /-- The longest buffer for a frame. -/
  frame : ℕ
  /-- The longest copy of a payload behind a header, as the vector grows for it. -/
  copy : ℕ
  vecValue : ℕ
  vecRow : ℕ
  indexMap : ℕ
  frame_lt : frame < 2 ^ 63
  copy_lt : copy < 2 ^ 63
  vecValue_lt : vecValue < 2 ^ 63
  vecRow_lt : vecRow < 2 ^ 63
  indexMap_lt : indexMap < 2 ^ 63

/-- The limits of a 64-bit target whose allocator refuses nothing: a `Value` takes 72 bytes, a row
24 and a bucket 104. -/
def AllocLimits.bits64 : AllocLimits where
  frame := 2 ^ 63 - 1
  copy := 2 ^ 63 - 1
  vecValue := (2 ^ 63 - 1) / 72
  vecRow := (2 ^ 63 - 1) / 24
  indexMap := (2 ^ 63 - 1) / 104
  frame_lt := by decide
  copy_lt := by decide
  vecValue_lt := by decide
  vecRow_lt := by decide
  indexMap_lt := by decide

/-- One container is within the limits. -/
def Value.Allocatable (lim : AllocLimits) : Value → Prop
  | .array a => a.length ≤ lim.vecValue
  | .object o => o.length ≤ lim.indexMap
  | .template keys rows => keys.length ≤ lim.vecValue ∧ rows.length ≤ lim.vecRow
  | _ => True

/-- What holds of every value the process has built: its objects are maps and its containers were
allocated. -/
def Value.WellFormed (lim : AllocLimits) (v : Value) : Prop :=
  v.All Value.KeysDistinct ∧ v.All (Value.Allocatable lim)

end Watchwoman
