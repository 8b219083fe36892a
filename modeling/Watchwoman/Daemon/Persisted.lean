import Watchwoman.Daemon.Documents
import Watchwoman.Daemon.Root

/-!
# Triggers as JSON documents

`mod persisted` of `root.rs` copies a trigger to a record that `serde_json` can print, and back. Its
expression goes through a JSON document, which has no byte strings, no templates and no reals that
are not finite; `jsonView` is what is left of a value, and reading the document back gives exactly
that (`jsonToValue_valueToJson`). A value that was read back once is not changed again
(`jsonView_jsonView`). The module's own `json_to_value` is that of `server.rs`, line by line.
-/

namespace Watchwoman.Persisted

open Server Bser Documents

/-! ## The document of a value -/

/-- `Number::from` of an `i64`. -/
def numberFrom (i : Int64) : JsonNumber := if i < 0 then .negInt i else .posInt i.toUInt64

/-- `is_finite`: the exponent bits are not all ones. -/
def isFinite (bits : UInt64) : Bool := bits &&& 0x7FF0000000000000 ≠ 0x7FF0000000000000

/-- `serde_json::Map::insert` with the `preserve_order` feature. -/
def mapInsert (k : String) (v : Json) (m : List (String × Json)) : List (String × Json) :=
  IndexMap.insert k v m

mutual

/-- `value_to_json` -/
def valueToJson : Value → Json
  | .null => .null
  | .bool b => .bool b
  | .int i => .number (numberFrom i)
  | .real bits => if isFinite bits then .number (.float bits) else .null
  | .string s => .string s
  | .bytes b => .string (Utf8.lossy b)
  | .array a => .array (itemsToJson a)
  | .object o => .object (entriesToJson o [])
  | .template keys rows => .array (rowsToJson keys rows)

def itemsToJson : List Value → List Json
  | [] => []
  | v :: vs => valueToJson v :: itemsToJson vs

def entriesToJson : List (String × Value) → List (String × Json) → List (String × Json)
  | [], m => m
  | (k, v) :: o, m => entriesToJson o (mapInsert k (valueToJson v) m)

def rowsToJson (keys : List String) : List (List Value) → List Json
  | [] => []
  | row :: rows => .object (rowToJson keys row []) :: rowsToJson keys rows

def rowToJson : List String → List Value → List (String × Json) → List (String × Json)
  | k :: keys, v :: row, m => rowToJson keys row (mapInsert k (valueToJson v) m)
  | _, _, m => m

end

/-! ## The view of a value -/

mutual

/-- What JSON keeps of a value: byte strings become texts, a template the objects of its rows, and
a real that is not finite is lost. -/
def jsonView : Value → Value
  | .null => .null
  | .bool b => .bool b
  | .int i => .int i
  | .real bits => if isFinite bits then .real bits else .null
  | .string s => .string s
  | .bytes b => .string (Utf8.lossy b)
  | .array a => .array (viewItems a)
  | .object o => .object (viewEntries o)
  | .template keys rows => .array (viewRows keys rows)

def viewItems : List Value → List Value
  | [] => []
  | v :: vs => jsonView v :: viewItems vs

def viewEntries : List (String × Value) → List (String × Value)
  | [] => []
  | (k, v) :: o => (k, jsonView v) :: viewEntries o

def viewRows (keys : List String) : List (List Value) → List Value
  | [] => []
  | row :: rows => .object (viewRow keys row []) :: viewRows keys rows

/-- A row's cells by their keys; where a key stands twice, its later cell counts. -/
def viewRow : List String → List Value → List (String × Value) → List (String × Value)
  | k :: keys, v :: row, o => viewRow keys row (indexInsert k (jsonView v) o)
  | _, _, o => o

end

theorem viewItems_eq (a : List Value) : viewItems a = a.map jsonView := by
  induction a with
  | nil => rfl
  | cons v vs ih => rw [viewItems, ih, List.map_cons]

theorem viewEntries_eq (o : List (String × Value)) :
    viewEntries o = o.map fun kv => (kv.1, jsonView kv.2) := by
  induction o with
  | nil => rfl
  | cons kv o ih => rw [viewEntries, ih, List.map_cons]

theorem viewRows_eq (keys : List String) (rows : List (List Value)) :
    viewRows keys rows = rows.map fun row => .object (viewRow keys row []) := by
  induction rows with
  | nil => rfl
  | cons row rows ih => rw [viewRows, ih, List.map_cons]

theorem itemsToJson_eq (a : List Value) : itemsToJson a = a.map valueToJson := by
  induction a with
  | nil => rfl
  | cons v vs ih => rw [itemsToJson, ih, List.map_cons]

theorem rowsToJson_eq (keys : List String) (rows : List (List Value)) :
    rowsToJson keys rows = rows.map fun row => .object (rowToJson keys row []) := by
  induction rows with
  | nil => rfl
  | cons row rows ih => rw [rowsToJson, ih, List.map_cons]

/-! ## Maps in their order -/

theorem entriesToJson_eq (o : List (String × Value)) (m : List (String × Json)) :
    entriesToJson o m = IndexMap.extend m (o.map (Prod.map id valueToJson)) := by
  induction o generalizing m with
  | nil => rfl
  | cons kv o ih =>
    rw [entriesToJson, ih]
    rfl

theorem rowToJson_eq (keys : List String) (row : List Value) (m : List (String × Json)) :
    rowToJson keys row m = IndexMap.extend m (keys.zip (row.map valueToJson)) := by
  induction row generalizing keys m with
  | nil =>
    cases keys <;> rfl
  | cons v row ih =>
    cases keys with
    | nil => rfl
    | cons k keys =>
      rw [rowToJson, ih]
      rfl

theorem viewRow_eq (keys : List String) (row : List Value) (o : List (String × Value)) :
    viewRow keys row o = IndexMap.extend o (keys.zip (row.map jsonView)) := by
  induction row generalizing keys o with
  | nil =>
    cases keys <;> rfl
  | cons v row ih =>
    cases keys with
    | nil => rfl
    | cons k keys =>
      rw [viewRow, ih, indexInsert_eq]
      rfl

/-! ## Reading the document of a value -/

section Reader

-- a reader that takes an `i64` and a float for what they are
variable {number : JsonNumber → Value} (hint : ∀ i, number (numberFrom i) = .int i)
  (hfloat : ∀ bits, number (.float bits) = .real bits)

theorem readDocument_row {keys : List String} {row : List Value}
    (h : ∀ v ∈ row, readDocument number (valueToJson v) = jsonView v) :
    readDocument number (.object (rowToJson keys row [])) = .object (viewRow keys row []) := by
  have hnodup : ((rowToJson keys row []).map Prod.fst).Nodup := by
    rw [rowToJson_eq]
    exact IndexMap.nodup_extend List.nodup_nil
  rw [readDocument_object hnodup, rowToJson_eq, IndexMap.map_extend, viewRow_eq,
    ← List.zip_map_right, List.map_map]
  congr 3
  exact List.map_congr_left h

include hint hfloat in
/-- Reading a value's document gives the view of the value. -/
theorem readDocument_valueToJson {v : Value} (h : v.All Value.KeysDistinct) :
    readDocument number (valueToJson v) = jsonView v := by
  induction v with
  | null => rfl
  | bool b => rfl
  | int i => exact hint i
  | real bits =>
    rw [valueToJson, jsonView]
    split_ifs
    · exact hfloat bits
    · rfl
  | string s => rfl
  | bytes b => rfl
  | array a ih =>
    have hitems := (Value.all_array.mp h).2
    rw [valueToJson, readDocument_array, jsonView, itemsToJson_eq, viewItems_eq, List.map_map]
    exact congrArg Value.array (List.map_congr_left fun v hv => ih v hv (hitems v hv))
  | object o ih =>
    obtain ⟨hkeys, hentries⟩ := Value.all_object.mp h
    have hdoc : entriesToJson o [] = o.map (Prod.map id valueToJson) := by
      rw [entriesToJson_eq, IndexMap.extend_nil (nodup_keys_map hkeys)]
    rw [valueToJson, hdoc, readDocument_object (nodup_keys_map hkeys), jsonView, viewEntries_eq,
      List.map_map]
    refine congrArg Value.object (List.map_congr_left fun kv hkv => ?_)
    exact congrArg (Prod.mk kv.1) (ih kv hkv (hentries kv hkv))
  | template keys rows ih =>
    have hcells := (Value.all_template.mp h).2
    rw [valueToJson, readDocument_array, jsonView, rowsToJson_eq, viewRows_eq, List.map_map]
    refine congrArg Value.array (List.map_congr_left fun row hrow => ?_)
    exact readDocument_row fun v hv => ih row hrow v hv (hcells row hrow v hv)

end Reader

theorem asI64_numberFrom (i : Int64) : (numberFrom i).asI64 = some i := by
  unfold numberFrom
  split_ifs with hneg
  · rfl
  · have hnonneg : 0 ≤ i := Int64.not_lt.mp hneg
    show (if i.toUInt64.toNat < 2 ^ 63 then some (Int64.ofNat i.toUInt64.toNat) else none) = _
    rw [Int64.toNat_toUInt64_of_le hnonneg, if_pos i.toNatClampNeg_lt,
      Int64.ofNat_toNatClampNeg i hnonneg]

theorem jsonToValue_valueToJson {v : Value} (h : v.All Value.KeysDistinct) :
    jsonToValue (valueToJson v) = jsonView v := by
  rw [jsonToValue_eq]
  refine readDocument_valueToJson (fun i => ?_) (fun bits => rfl) h
  rw [numberToValue, asI64_numberFrom]

/-! ## The view of a view -/

theorem forall_mem_viewRow {P : Value → Prop} {keys : List String} {row : List Value}
    (h : ∀ v ∈ row, P (jsonView v)) : ∀ kv ∈ viewRow keys row [], P kv.2 := by
  intro kv hkv
  rw [viewRow_eq] at hkv
  rcases IndexMap.mem_extend hkv with hnil | hzip
  · cases hnil
  · obtain ⟨v, hv, heq⟩ := List.mem_map.mp (List.of_mem_zip hzip).2
    rw [← heq]
    exact h v hv

theorem viewEntries_of_fixed {o : List (String × Value)} (h : ∀ kv ∈ o, jsonView kv.2 = kv.2) :
    viewEntries o = o := by
  rw [viewEntries_eq]
  conv_rhs => rw [← List.map_id o]
  exact List.map_congr_left fun kv hkv => congrArg (Prod.mk kv.1) (h kv hkv)

/-- JSON takes nothing from what it gave back. -/
theorem jsonView_jsonView (v : Value) : jsonView (jsonView v) = jsonView v := by
  induction v with
  | null => rfl
  | bool b => rfl
  | int i => rfl
  | real bits =>
    rw [jsonView]
    split_ifs with hfinite
    · rw [jsonView, if_pos hfinite]
    · rfl
  | string s => rfl
  | bytes b => rfl
  | array a ih =>
    rw [jsonView, jsonView, viewItems_eq, viewItems_eq, List.map_map]
    exact congrArg Value.array (List.map_congr_left ih)
  | object o ih =>
    rw [jsonView, jsonView, viewEntries_eq, viewEntries_eq, List.map_map]
    exact congrArg Value.object (List.map_congr_left fun kv hkv => congrArg (Prod.mk kv.1) (ih kv hkv))
  | template keys rows ih =>
    rw [jsonView, jsonView, viewItems_eq, viewRows_eq, List.map_map]
    refine congrArg Value.array (List.map_congr_left fun row hrow => ?_)
    have hfixed : ∀ kv ∈ viewRow keys row [], jsonView kv.2 = kv.2 :=
      @forall_mem_viewRow (fun v => jsonView v = v) _ _ (ih row hrow)
    show Value.object (viewEntries (viewRow keys row [])) = Value.object (viewRow keys row [])
    rw [viewEntries_of_fixed hfixed]

/-- The objects of a view are maps again. -/
theorem all_keysDistinct_jsonView {v : Value} (h : v.All Value.KeysDistinct) :
    (jsonView v).All Value.KeysDistinct := by
  induction v with
  | null => trivial
  | bool b => trivial
  | int i => trivial
  | real bits =>
    rw [jsonView]
    split_ifs <;> trivial
  | string s => trivial
  | bytes b => trivial
  | array a ih =>
    have hitems := (Value.all_array.mp h).2
    rw [jsonView, viewItems_eq, Value.all_array]
    refine ⟨trivial, List.forall_mem_map.mpr fun v hv => ih v hv (hitems v hv)⟩
  | object o ih =>
    obtain ⟨hkeys, hentries⟩ := Value.all_object.mp h
    rw [jsonView, viewEntries_eq, Value.all_object]
    refine ⟨?_, List.forall_mem_map.mpr fun kv hkv => ih kv hkv (hentries kv hkv)⟩
    show ((o.map _).map Prod.fst).Nodup
    rw [List.map_map]
    exact hkeys
  | template keys rows ih =>
    have hcells := (Value.all_template.mp h).2
    rw [jsonView, viewRows_eq, Value.all_array]
    refine ⟨trivial, List.forall_mem_map.mpr fun row hrow => Value.all_object.mpr ⟨?_, ?_⟩⟩
    · show ((viewRow keys row []).map Prod.fst).Nodup
      rw [viewRow_eq]
      exact IndexMap.nodup_extend List.nodup_nil
    · exact forall_mem_viewRow fun v hv => ih row hrow v hv (hcells row hrow v hv)

/-! ## The record of a trigger -/

structure PersistedTrigger where
  name : String
  command : List String
  expression : Json
  appendFiles : Bool
  stdin : Option String
  maxFilesStdin : Option ℕ

/-- The word a way of feeding standard input is stored under. -/
def stdinWord : TriggerStdin → String
  | .namePerLine => "NAME_PER_LINE"
  | .jsonName => "json"

/-- A word that is not known is dropped. -/
def stdinOfWord (word : String) : Option TriggerStdin :=
  if word = "NAME_PER_LINE" then some .namePerLine
  else if word = "json" ∨ word = "JSON" then some .jsonName
  else none

def fromTrigger (t : Trigger) : PersistedTrigger where
  name := t.name
  command := t.command
  expression := valueToJson t.expression
  appendFiles := t.appendFiles
  stdin := t.stdin.map stdinWord
  maxFilesStdin := t.maxFilesStdin

def PersistedTrigger.intoTrigger (pt : PersistedTrigger) : Trigger where
  name := pt.name
  command := pt.command
  expression := jsonToValue pt.expression
  appendFiles := pt.appendFiles
  stdin := pt.stdin.bind stdinOfWord
  maxFilesStdin := pt.maxFilesStdin

def viewed (t : Trigger) : Trigger := { t with expression := jsonView t.expression }

theorem stdinOfWord_stdinWord (s : TriggerStdin) : stdinOfWord (stdinWord s) = some s := by
  cases s <;> decide

theorem intoTrigger_fromTrigger {t : Trigger} (h : t.expression.All Value.KeysDistinct) :
    (fromTrigger t).intoTrigger = viewed t := by
  have hstdin : (t.stdin.map stdinWord).bind stdinOfWord = t.stdin := by
    cases t.stdin with
    | none => rfl
    | some s => exact stdinOfWord_stdinWord s
  show Trigger.mk t.name t.command (jsonToValue (valueToJson t.expression)) t.appendFiles
    ((t.stdin.map stdinWord).bind stdinOfWord) t.maxFilesStdin = viewed t
  rw [jsonToValue_valueToJson h, hstdin]
  rfl

theorem viewed_viewed (t : Trigger) : viewed (viewed t) = viewed t := by
  show { t with expression := jsonView (jsonView t.expression) } = viewed t
  rw [jsonView_jsonView]
  rfl

end Watchwoman.Persisted
