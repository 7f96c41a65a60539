import NapiVm.Lib.Exact
import NapiVm.Rpc.Peer
import NapiVm.Text.JsonText

/-!
# Wire values

`wireValue` of the script side copies data: it follows no prototypes, calls no getters and accepts
no cycles.  Objects are known by their references.

* `wireValue` — the copy.
* `data_of_wireValue` — what a copy is.
* `wireValue_parsed` — what has been parsed is copied as it is.
-/

namespace NapiVm.Rpc.Codec

open JsonText

/-! ## Objects -/

/-- What is no data, by `typeof`. -/
inductive OtherType where
  | undefined
  | function
  | symbol
  | bigint

def OtherType.name : OtherType → String
  | .undefined => "undefined"
  | .function => "function"
  | .symbol => "symbol"
  | .bigint => "bigint"

inductive Val (Ref : Type) where
  | null
  | bool (b : Bool)
  | number (bits : UInt64)
  | string (units : List UInt16)
  | object (ref : Ref)
  | other (type : OtherType)

inductive Prototype where
  | objectPrototype
  | null
  | other
  deriving DecidableEq

/-- A property descriptor; an accessor has no value. -/
structure Property (Ref : Type) where
  enumerable : Bool
  value : Option (Val Ref)

/-- An object, with its own properties that have strings as keys. -/
structure Obj (Ref : Type) where
  isArray : Bool
  prototype : Prototype
  /-- Whether it has properties with symbols as keys. -/
  symbols : Bool
  length : Nat
  own : List (List UInt16 × Property Ref)

/-- The objects of a script: own keys are different, and in their order. -/
structure Objects (Ref : Type) where
  view : Ref → Obj Ref
  ordered : ∀ ref, KeyOrdered (view ref).own

/-! ## The copy -/

/-- `validString`: no surrogate stands alone. -/
def validString (units : List UInt16) : Bool :=
  (JsString.decodeUtf16 units).all fun c => c.toOption.isSome

def wireErr (message : String) : RpcError := ⟨"INVALID_ARGUMENT", message⟩

/-- `String(i)`. -/
def indexUnits (i : Nat) : List UInt16 := (Nat.toDigits 10 i).map JsString.unit

section Copy

variable {Ref : Type} [DecidableEq Ref]

/-- One element of an array. -/
def copyItem (copy : Val Ref → Except RpcError JsonValue) (o : Obj Ref) (i : Nat) :
    Except RpcError JsonValue :=
  match (o.own.lookup (indexUnits i)).bind Property.value with
  | some value => copy value
  | none => .error (wireErr "Sparse arrays and accessors are not wire data")

/-- The elements from `i` on, of which there are so many. -/
def copyItems (copy : Val Ref → Except RpcError JsonValue) (o : Obj Ref) :
    Nat → Nat → Except RpcError (List JsonValue)
  | _, 0 => .ok []
  | i, count + 1 => do
      let item ← copyItem copy o i
      let rest ← copyItems copy o (i + 1) count
      pure (item :: rest)

/-- A property that an array must not have. -/
def isExtra (length : Nat) (property : List UInt16 × Property Ref) : Bool :=
  property.2.enumerable && !(canonicalIndex property.1).any (· < length)

/-- The properties of an object, put into `out`. -/
def copyFields (copy : Val Ref → Except RpcError JsonValue) :
    List (List UInt16 × Property Ref) → List (List UInt16 × JsonValue) →
      Except RpcError (List (List UInt16 × JsonValue))
  | [], out => .ok out
  | (key, property) :: rest, out =>
    if validString key = false then .error (wireErr "Invalid object key")
    else
      match property.value, property.enumerable with
      | some value, true => do
          let value ← copy value
          copyFields copy rest (setOwn out key value)
      | _, _ => .error (wireErr "Accessors and hidden fields are not wire data")

/-- An object that is none of its own ancestors. -/
def copyObject (copy : Val Ref → Except RpcError JsonValue) (o : Obj Ref) :
    Except RpcError JsonValue :=
  if !o.isArray && o.prototype = .other then
    .error (wireErr "Only plain data objects are wire values")
  else if o.symbols then .error (wireErr "Symbol properties are not wire values")
  else if o.isArray then do
    let items ← copyItems copy o 0 o.length
    if o.own.any (isExtra o.length) then .error (wireErr "Array properties are not wire data")
    else pure (.array items)
  else do
    let fields ← copyFields copy o.own []
    pure (.object fields)

/-- `copy`, with the number of levels that are left. -/
def copy (view : Ref → Obj Ref) : Nat → List Ref → Val Ref → Except RpcError JsonValue
  | 0, _, _ => .error (wireErr "Maximum JSON nesting exceeded")
  | _ + 1, _, .null => .ok .null
  | _ + 1, _, .bool b => .ok (.bool b)
  | _ + 1, _, .string units =>
    if validString units then .ok (.string units)
    else .error (wireErr "Unpaired Unicode surrogate")
  | _ + 1, _, .number bits =>
    if Binary64.isFinite bits then
      .ok (.number (if bits = 0x8000000000000000 then 0 else bits))
    else .error (wireErr "Non-finite number")
  | _ + 1, _, .other type => .error (wireErr ("Not a wire value: " ++ type.name))
  | left + 1, ancestors, .object ref =>
    if ref ∈ ancestors then .error (wireErr "Cyclic wire data")
    else copyObject (copy view left (ref :: ancestors)) (view ref)

/-- `wireValue`. -/
def wireValue (view : Ref → Obj Ref) (v : Val Ref) (maxDepth : Nat) : Except RpcError JsonValue :=
  copy view (maxDepth + 1) [] v

end Copy

/-! ## What a copy is -/

section DataOf

variable {Ref : Type} {copy : Val Ref → Except RpcError JsonValue} {o : Obj Ref}

theorem copyItems_spec {i count : Nat} {items : List JsonValue}
    (h : copyItems copy o i count = .ok items) :
    ∀ item ∈ items, ∃ v, copy v = .ok item := by
  induction count generalizing i items with
  | zero =>
    cases h
    exact fun item hitem => absurd hitem List.not_mem_nil
  | succ count ih =>
    obtain ⟨item, hitem, h⟩ := ok_of_bind h
    obtain ⟨rest, hrest, h⟩ := ok_of_bind h
    cases h
    refine List.forall_mem_cons.2 ⟨?_, ih hrest⟩
    unfold copyItem at hitem
    split at hitem
    next v _ => exact ⟨v, hitem⟩
    next => cases hitem

theorem copyFields_spec {own : List (List UInt16 × Property Ref)}
    {out fields : List (List UInt16 × JsonValue)}
    (hordered : (out.map Prod.fst ++ own.map Prod.fst).Pairwise fun a b =>
      a ≠ b ∧ keyBefore b a = false)
    (h : copyFields copy own out = .ok fields) :
    ∃ new, fields = out ++ new ∧ new.map Prod.fst = own.map Prod.fst ∧
      ∀ field ∈ new, validString field.1 = true ∧ ∃ v, copy v = .ok field.2 := by
  induction own generalizing out with
  | nil =>
    cases h
    exact ⟨[], (List.append_nil _).symm, rfl, fun field hfield => absurd hfield List.not_mem_nil⟩
  | cons entry own ih =>
    obtain ⟨key, property⟩ := entry
    rw [copyFields] at h
    split at h
    next => cases h
    next hvalid =>
      split at h
      next v hv he =>
        obtain ⟨value, hvalue, h⟩ := ok_of_bind h
        have hkeys : ((out ++ [(key, value)]).map Prod.fst ++ own.map Prod.fst).Pairwise
            fun a b => a ≠ b ∧ keyBefore b a = false := by
          simpa using hordered
        have hlast : setOwn out key value = out ++ [(key, value)] :=
          setOwn_last (hkeys.sublist (List.sublist_append_left _ _))
        rw [hlast] at h
        obtain ⟨new, rfl, hnew, hall⟩ := ih hkeys h
        refine ⟨(key, value) :: new, by simp, by simp [hnew],
          List.forall_mem_cons.2 ⟨⟨?_, v, hvalue⟩, hall⟩⟩
        exact Bool.not_eq_false _ ▸ hvalid
      next => cases h

end DataOf

/-- Strings and keys without a surrogate that stands alone. -/
abbrev Valid (units : List UInt16) : Prop := validString units = true

variable {Ref : Type} {n : Nat} {w root : JsonValue} {fields : List (List UInt16 × JsonValue)}

theorem data_of_copyObject {copy : Val Ref → Except RpcError JsonValue} {o : Obj Ref}
    (hordered : KeyOrdered o.own) (hcopy : ∀ v w, copy v = .ok w → Data Valid n w)
    (h : copyObject copy o = .ok w) : Data Valid (n + 1) w := by
  unfold copyObject at h
  split at h
  · cases h
  split at h
  · cases h
  split at h
  · obtain ⟨items, hitems, h⟩ := ok_of_bind h
    split at h
    · cases h
    · cases h
      intro item hitem
      obtain ⟨v, hv⟩ := copyItems_spec hitems item hitem
      exact hcopy v item hv
  · obtain ⟨fields, hfields, h⟩ := ok_of_bind h
    cases h
    obtain ⟨new, rfl, hkeys, hnew⟩ := copyFields_spec (by simpa [KeyOrdered] using hordered) hfields
    refine ⟨by rwa [KeyOrdered, hkeys], fun field hfield => ?_⟩
    obtain ⟨hvalid, v, hv⟩ := hnew field hfield
    exact ⟨hvalid, hcopy v field.2 hv⟩

/-- A copy is data, of no more levels than there were. -/
theorem data_of_copy [DecidableEq Ref] {view : Ref → Obj Ref}
    (hordered : ∀ ref, KeyOrdered (view ref).own) {left : Nat} {ancestors : List Ref}
    {v : Val Ref} (h : copy view left ancestors v = .ok w) : Data Valid left w := by
  induction left generalizing ancestors v w with
  | zero => cases h
  | succ left ih =>
    cases v with
    | null =>
      cases h
      trivial
    | bool b =>
      cases h
      trivial
    | number bits =>
      rw [copy] at h
      split at h
      next hfinite =>
        cases h
        split
        · exact ⟨rfl, by decide⟩
        next hzero => exact ⟨hfinite, hzero⟩
      next => cases h
    | string units =>
      rw [copy] at h
      split at h
      next hvalid =>
        cases h
        exact hvalid
      next => cases h
    | other type => cases h
    | object ref =>
      rw [copy] at h
      split at h
      next => cases h
      next => exact data_of_copyObject (hordered ref) (fun _ _ => ih) h

/-! ## What has been parsed -/

/-- The elements of an array, or the values of an object. -/
def children : JsonValue → List JsonValue
  | .array items => items
  | .object fields => fields.map Prod.snd
  | _ => []

/-- The value at a place, by the way to it. -/
def nodeAt (root : JsonValue) (path : List Nat) : Option JsonValue :=
  path.foldl (fun v i => v.bind fun v => (children v)[i]?) (some root)

/-- A value at a place; every array and object is one of its own. -/
def valueAt (path : List Nat) : JsonValue → Val (List Nat)
  | .null => .null
  | .bool b => .bool b
  | .number bits => .number bits
  | .string units => .string units
  | .array _ => .object path
  | .object _ => .object path

def plainProperty (path : List Nat) (v : JsonValue) : Property (List Nat) :=
  ⟨true, some (valueAt path v)⟩

def arrayView (path : List Nat) (items : List JsonValue) : Obj (List Nat) where
  isArray := true
  prototype := .other
  symbols := false
  length := items.length
  own := items.mapIdx fun i v => (indexUnits i, plainProperty (path ++ [i]) v)

def objectView (path : List Nat) (fields : List (List UInt16 × JsonValue)) : Obj (List Nat) where
  isArray := false
  prototype := .objectPrototype
  symbols := false
  length := 0
  own := fields.mapIdx fun i field => (field.1, plainProperty (path ++ [i]) field.2)

/-- The objects that `JSON.parse` makes, by their places in what it returns. -/
def parsedView (root : JsonValue) (path : List Nat) : Obj (List Nat) :=
  match nodeAt root path with
  | some (.array items) => arrayView path items
  | some (.object fields) => objectView path fields
  | _ => objectView path []

variable {v : JsonValue} {path : List Nat} {i : Nat} {items : List JsonValue}

theorem nodeAt_snoc (h : nodeAt root path = some v) (i : Nat) :
    nodeAt root (path ++ [i]) = (children v)[i]? := by
  rw [nodeAt, List.foldl_append]
  rw [nodeAt] at h
  rw [h]
  rfl

theorem canonicalIndex_indexUnits (i : Nat) : canonicalIndex (indexUnits i) = some i := by
  have hdigits : (indexUnits i).map (fun u => Char.ofNat u.toNat) = Nat.toDigits 10 i := by
    rw [indexUnits, List.map_map]
    refine (List.map_congr_left fun c hc => ?_).trans (List.map_id _)
    have hdigit := NumberText.digits_toDigits c hc
    have hsmall : c.toNat ≤ 57 := by
      simp only [Char.isDigit, Bool.and_eq_true, decide_eq_true_eq] at hdigit
      exact UInt32.le_iff_toNat_le.1 hdigit.2
    rw [Function.comp_apply, JsString.unit, UInt16.toNat_ofNat', Nat.mod_eq_of_lt (by omega),
      Char.ofNat_toNat, id]
  have hzero : (Nat.toDigits 10 i).head? = some '0' → (Nat.toDigits 10 i).length = 1 := by
    intro hhead
    cases i with
    | zero => rfl
    | succ i => exact absurd hhead (head_toDigits (Nat.succ_pos i))
  have hall := List.all_eq_true.2 (NumberText.digits_toDigits (s := i))
  rw [canonicalIndex, hdigits, if_pos ⟨Nat.toDigits_ne_nil, hall, hzero⟩,
    Nat.ofDigitChars_ten_toDigits]

theorem indexUnits_injective {j : Nat} (h : indexUnits i = indexUnits j) : i = j := by
  have hi := canonicalIndex_indexUnits i
  rw [h, canonicalIndex_indexUnits] at hi
  exact (Option.some.inj hi).symm

theorem lookup_mapIdx {α β : Type} {key : Nat → List UInt16} (hkey : ∀ i j, key i = key j → i = j)
    {g : Nat → α → β} {items : List α} {a : α} (h : items[i]? = some a) :
    (items.mapIdx fun i a => (key i, g i a)).lookup (key i) = some (g i a) := by
  induction items generalizing key g i with
  | nil => cases h
  | cons item items ih =>
    rw [List.mapIdx_cons]
    cases i with
    | zero =>
      cases h
      exact List.lookup_cons_self
    | succ i =>
      have hne : (key (i + 1) == key 0) = false :=
        beq_eq_false_iff_ne.2 fun heq => absurd (hkey _ _ heq) (Nat.succ_ne_zero i)
      rw [List.lookup_cons, hne]
      exact ih (fun i j heq => Nat.succ.inj (hkey _ _ heq)) h

theorem copyItem_parsed {copy : Val (List Nat) → Except RpcError JsonValue} {item : JsonValue}
    (hitem : items[i]? = some item) :
    copyItem copy (arrayView path items) i = copy (valueAt (path ++ [i]) item) := by
  rw [copyItem, arrayView, lookup_mapIdx (fun _ _ => indexUnits_injective) hitem]
  rfl

theorem copyItems_parsed {copy : Val (List Nat) → Except RpcError JsonValue}
    (hcopy : ∀ i item, items[i]? = some item → copy (valueAt (path ++ [i]) item) = .ok item)
    (i : Nat) :
    copyItems copy (arrayView path items) i (items.length - i) = .ok (items.drop i) := by
  induction hn : items.length - i generalizing i with
  | zero => rw [List.drop_eq_nil_of_le (by omega)]; rfl
  | succ n ih =>
    have hlt : i < items.length := by omega
    have hitem := List.getElem?_eq_getElem hlt
    rw [copyItems, copyItem_parsed hitem, hcopy i _ hitem]
    have hrest := ih (i + 1) (by omega)
    rw [List.drop_eq_getElem_cons hlt, show (Except.ok items[i] >>= fun item =>
      (copyItems copy (arrayView path items) (i + 1) n >>= fun rest => pure (item :: rest))) =
      (copyItems copy (arrayView path items) (i + 1) n >>= fun rest =>
        pure (items[i] :: rest)) from rfl, hrest]
    rfl

theorem copyFields_parsed (hordered : KeyOrdered fields) (hvalid : ∀ field ∈ fields, Valid field.1)
    {copy : Val (List Nat) → Except RpcError JsonValue}
    (hcopy : ∀ i field, fields[i]? = some field →
      copy (valueAt (path ++ [i]) field.2) = .ok field.2) (i : Nat) :
    copyFields copy ((fields.mapIdx fun i field =>
      (field.1, plainProperty (path ++ [i]) field.2)).drop i) (fields.take i) = .ok fields := by
  induction hn : fields.length - i generalizing i with
  | zero =>
    rw [List.drop_eq_nil_of_le (by rw [List.length_mapIdx]; omega),
      List.take_of_length_le (by omega)]
    rfl
  | succ n ih =>
    have hlt : i < fields.length := by omega
    have hfield := List.getElem?_eq_getElem hlt
    have htake : fields.take (i + 1) = fields.take i ++ [fields[i]] :=
      List.take_succ_eq_append_getElem hlt
    have hsub : (fields.take i ++ [fields[i]]).Sublist fields :=
      htake ▸ List.take_sublist (i + 1) fields
    have hlast : setOwn (fields.take i) fields[i].1 fields[i].2 = fields.take (i + 1) := by
      rw [htake]
      exact setOwn_last (hordered.sublist (hsub.map _))
    have hkey := hvalid _ (List.getElem_mem hlt)
    have hrest := ih (i + 1) (by omega)
    rw [List.drop_eq_getElem_cons (by rwa [List.length_mapIdx]), List.getElem_mapIdx, copyFields,
      if_neg (by rw [hkey]; exact Bool.true_eq_false_eq_False)]
    dsimp only [plainProperty]
    rw [hcopy i _ hfield, ← hrest, ← hlast]
    rfl

theorem copyObject_array {copy : Val (List Nat) → Except RpcError JsonValue}
    (hcopy : ∀ i item, items[i]? = some item → copy (valueAt (path ++ [i]) item) = .ok item) :
    copyObject copy (arrayView path items) = .ok (.array items) := by
  have hitems := copyItems_parsed hcopy 0
  rw [Nat.sub_zero, List.drop_zero] at hitems
  have hextra : (arrayView path items).own.any (isExtra items.length) = false := by
    rw [List.any_eq_false]
    intro property hproperty
    obtain ⟨i, hi, rfl⟩ := List.mem_mapIdx.1 hproperty
    simp [isExtra, canonicalIndex_indexUnits, hi]
  have hlength : (arrayView path items).length = items.length := rfl
  rw [copyObject, hlength, hitems]
  show (if (arrayView path items).own.any (isExtra items.length) = true then _ else _) = _
  rw [hextra]
  rfl

theorem copyObject_object (hordered : KeyOrdered fields) (hvalid : ∀ field ∈ fields, Valid field.1)
    {copy : Val (List Nat) → Except RpcError JsonValue}
    (hcopy : ∀ i field, fields[i]? = some field →
      copy (valueAt (path ++ [i]) field.2) = .ok field.2) :
    copyObject copy (objectView path fields) = .ok (.object fields) := by
  have hfields := copyFields_parsed hordered hvalid hcopy 0
  rw [List.drop_zero, List.take_zero] at hfields
  have hown : (objectView path fields).own = fields.mapIdx fun i field =>
      (field.1, plainProperty (path ++ [i]) field.2) := rfl
  rw [copyObject, hown, hfields]
  rfl

/-- What has been parsed is copied as it is. -/
theorem copy_parsed (hv : nodeAt root path = some v) (hdata : Data Valid n v)
    {ancestors : List (List Nat)} (hancestors : ∀ a ∈ ancestors, a.length < path.length) :
    copy (parsedView root) n ancestors (valueAt path v) = .ok v := by
  induction n generalizing path v ancestors with
  | zero => exact hdata.elim
  | succ n ih =>
    have hnew : path ∉ ancestors := fun hmem => lt_irrefl _ (hancestors path hmem)
    have hbelow : ∀ i a, a ∈ path :: ancestors → a.length < (path ++ [i]).length := by
      intro i a ha
      rw [List.length_append, List.length_singleton]
      rcases List.mem_cons.1 ha with rfl | ha
      · exact Nat.lt_succ_self _
      · exact (hancestors a ha).trans (Nat.lt_succ_self _)
    cases v with
    | null => rfl
    | bool b => rfl
    | number bits => rw [valueAt, copy, if_pos hdata.1, if_neg hdata.2]
    | string units => exact if_pos hdata
    | array items =>
      have hitem : ∀ i item, items[i]? = some item →
          copy (parsedView root) n (path :: ancestors) (valueAt (path ++ [i]) item) =
            .ok item := fun i item hi =>
        ih ((nodeAt_snoc hv i).trans hi) (hdata item (List.mem_of_getElem? hi)) (hbelow i)
      have hview : parsedView root path = arrayView path items := by rw [parsedView, hv]
      rw [valueAt, copy, if_neg hnew, hview]
      exact copyObject_array hitem
    | object fields =>
      have hitem : ∀ i field, fields[i]? = some field →
          copy (parsedView root) n (path :: ancestors) (valueAt (path ++ [i]) field.2) =
            .ok field.2 := fun i field hi =>
        ih ((nodeAt_snoc hv i).trans (by rw [children, List.getElem?_map, hi]; rfl))
          (hdata.2 field (List.mem_of_getElem? hi)).2 (hbelow i)
      have hview : parsedView root path = objectView path fields := by rw [parsedView, hv]
      rw [valueAt, copy, if_neg hnew, hview]
      exact copyObject_object hdata.1 (fun field hfield => (hdata.2 field hfield).1) hitem

theorem wireValue_parsed {maxDepth : Nat} (h : Data Valid (maxDepth + 1) v) :
    wireValue (parsedView v) (valueAt [] v) maxDepth = .ok v :=
  copy_parsed rfl h fun _ ha => absurd ha List.not_mem_nil

end NapiVm.Rpc.Codec
