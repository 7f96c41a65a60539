import NapiVm.Lib.Slots

/-!
# Guest values and object metadata

The value representation of `value.rs` as the property operations see it, and
the per-object metadata record.  Heap values are references: two references
denote the same object exactly when their addresses agree.  A number is kept as
its binary64 bit pattern, so that the comparisons below never compute with
floating point.

Functions carry a name beside their identity.  Names matter, because storage
encodes an accessor half as a function called `get k` or `set k`.
-/

namespace NapiVm

/-- The heap kinds whose values are compared by address. -/
inductive RefKind where
  | object | array | classObject | proxy | promise | generator | stringIterator | date | regExp
  | typedArray | dataView | arrayBuffer | sharedArrayBuffer | error | realmGlobal
  deriving DecidableEq, Repr

/-- A guest value. -/
inductive Value where
  | undefined
  | null
  /-- A live binding that has not left its dead zone. -/
  | uninitialized
  | bool (b : Bool)
  /-- A number, by its binary64 bit pattern. -/
  | number (bits : UInt64)
  /-- A string, by its UTF-16 code units. -/
  | string (units : List UInt16)
  | symbol (id : Nat)
  | bigInt (n : Int)
  | function (identity : Nat) (name : Option String)
  | nativeFunction (callable : Nat) (name : String)
  | hostFunction (id : Nat) (name : String)
  | ref (kind : RefKind) (addr : Nat)
  /-- A live cell shared with a binding (module exports, mapped arguments). -/
  | binding (cell : Nat)
  deriving DecidableEq, Repr, Inhabited

namespace Value

/-- Is the bit pattern a NaN: all exponent bits set and a non-zero fraction? -/
def isNaNBits (b : UInt64) : Bool :=
  (b &&& 0x7FF0000000000000) == 0x7FF0000000000000 && (b &&& 0x000FFFFFFFFFFFFF) != 0

/-- Is the bit pattern one of the two zeros? -/
def isZeroBits (b : UInt64) : Bool := (b &&& 0x7FFFFFFFFFFFFFFF) == 0

/-- `==` on binary64: no NaN equals anything, and the two zeros are equal. -/
def numberEq (a b : UInt64) : Bool :=
  !isNaNBits a && !isNaNBits b && (a == b || isZeroBits a && isZeroBits b)

/-- `strict_equals`. -/
def strictEquals : Value → Value → Bool
  | number a, number b => numberEq a b
  | string a, string b => a == b
  | bool a, bool b => a == b
  | null, null => true
  | undefined, undefined => true
  | function a _, function b _ => a == b
  | nativeFunction a _, nativeFunction b _ => a == b
  | hostFunction a _, hostFunction b _ => a == b
  | symbol a, symbol b => a == b
  | bigInt a, bigInt b => a == b
  | ref k a, ref l b => k == l && a == b
  | _, _ => false

/-- `same_value`: strict equality except that NaN is itself and the zeros differ. -/
def sameValue : Value → Value → Bool
  | number a, number b =>
    if isNaNBits a && isNaNBits b then true
    else if isZeroBits a && isZeroBits b then a == b
    else numberEq a b
  | x, y => strictEquals x y

/-- The name a callable was created with. -/
def callableName : Value → Option String
  | function _ name => name
  | nativeFunction _ name => some name
  | hostFunction _ name => some name
  | _ => none

theorem isNaNBits_ne {a b : UInt64} (ha : isNaNBits a = true) (hb : isNaNBits b = false) :
    a ≠ b := by
  rintro rfl
  rw [ha] at hb
  exact Bool.noConfusion hb

/-- Numbers are the same value when both are NaN or their bits agree. -/
theorem sameValue_number (a b : UInt64) :
    sameValue (number a) (number b) = (isNaNBits a && isNaNBits b || a == b) := by
  unfold sameValue numberEq
  cases ha : isNaNBits a with
  | true =>
    cases hb : isNaNBits b with
    | true => simp [ha, hb]
    | false =>
      have hab : (a == b) = false := beq_false_of_ne (isNaNBits_ne ha hb)
      simp [ha, hb, hab]
  | false =>
    cases hb : isNaNBits b with
    | true =>
      have hab : (a == b) = false :=
        beq_false_of_ne (fun e => isNaNBits_ne hb ha e.symm)
      simp [ha, hb, hab]
    | false =>
      cases hz : isZeroBits a && isZeroBits b with
      | true => simp [ha, hb, hz]
      | false => simp [ha, hb, hz]

theorem sameValue_symm (x y : Value) : sameValue x y = sameValue y x := by
  cases x with
  | number a =>
    cases y with
    | number b => rw [sameValue_number, sameValue_number, Bool.and_comm, Bool.beq_comm]
    | _ => simp only [sameValue, strictEquals.eq_def]
  | _ => cases y <;> simp only [sameValue, strictEquals.eq_def, Bool.beq_comm]

/-- Only a number is the same value as a number. -/
theorem eq_number_of_sameValue {a : UInt64} {y : Value} (h : sameValue (number a) y = true) :
    ∃ b, y = number b ∧ (isNaNBits a = true ∧ isNaNBits b = true ∨ a = b) := by
  cases y with
  | number b => exact ⟨b, rfl, by simpa [sameValue_number] using h⟩
  | _ => exact Bool.noConfusion h

theorem sameValue_trans {x y z : Value} (h₁ : sameValue x y = true) (h₂ : sameValue y z = true) :
    sameValue x z = true := by
  cases x with
  | number a =>
    obtain ⟨b, rfl, hab⟩ := eq_number_of_sameValue h₁
    obtain ⟨c, rfl, hbc⟩ := eq_number_of_sameValue h₂
    simp only [sameValue_number, Bool.or_eq_true, Bool.and_eq_true, beq_iff_eq]
    rcases hab with ⟨ha, hb⟩ | rfl
    · rcases hbc with ⟨-, hc⟩ | rfl
      · exact Or.inl ⟨ha, hc⟩
      · exact Or.inl ⟨ha, hb⟩
    · exact hbc
  | _ =>
    cases y <;> simp only [sameValue, strictEquals.eq_def, Bool.false_eq_true] at h₁
    all_goals
      cases z <;> simp only [sameValue, strictEquals.eq_def, Bool.false_eq_true] at h₂ ⊢
    all_goals simp_all

end Value

/-! ## Vectors -/

/-- `Vec::resize`. -/
def resize {α : Type} (xs : List α) (length : Nat) (fill : α) : List α :=
  xs.take length ++ List.replicate (length - xs.length) fill

@[simp] theorem length_resize {α : Type} (xs : List α) (n : Nat) (x : α) :
    (resize xs n x).length = n := by
  simp only [resize, List.length_append, List.length_take, List.length_replicate]
  omega

/-! ## Errors -/

/-- `VmErr`: errors, and the control-flow signals that travel as errors. -/
inductive VmErr where
  | ret (v : Value)
  | tailCall (callee this : Value) (args : List Value)
  | throw (v : Value)
  | msg (text : String)
  | runtimeError (text : String)
  | «break» (label : Option String) (v : Option Value)
  | «continue» (label : Option String) (v : Option Value)
  | abandon
  deriving DecidableEq, Repr

/-- `limit_err`. -/
def limitErr (text : String) : VmErr := .msg ("RangeError: " ++ text)

/-- `MAX_OBJECT_PROPS`. -/
def maxObjectProps : Nat := 262144

/-- `MAX_ARRAY_LEN`. -/
def maxArrayLen : Nat := 262144

/-! ## Property attributes -/

/-- The attributes of one property. -/
structure PropAttrs where
  writable : Bool
  enumerable : Bool
  configurable : Bool
  deriving DecidableEq, Repr

/-- What plain assignment creates. -/
def PropAttrs.default : PropAttrs := ⟨true, true, true⟩

/-- The kind of an accessor slot: it holds the getter, the setter, or neither. -/
inductive AccessorKind where
  | get | set | empty
  deriving DecidableEq, Repr

/-! ## Object metadata -/

/-- The part of `ObjectMeta` that the property operations read and write.  The
hash set `data_property_keys` and the hash map `accessor_kinds` are kept as
lists without repetition, since their size is read. -/
structure ObjectMeta where
  proto : Option Value := none
  usesDefaultPrototype : Bool := false
  attrs : Slots String PropAttrs := []
  nonExtensible : Bool := false
  moduleNamespace : Bool := false
  hasAccessors : Bool := false
  dataPropertyKeys : List String := []
  accessorKinds : Slots String AccessorKind := []
  legacyCallAccessors : Bool := false
  emptyAccessors : List String := []
  isArguments : Bool := false
  immutablePrototype : Bool := false
  /-- The symbol behind a symbol slot, by its description. -/
  symbolKeys : Slots String (Option String) := []
  deriving DecidableEq, Repr

namespace ObjectMeta

/-- `attrs_of`: the table is searched from its end. -/
def attrsOf (m : ObjectMeta) (key : String) : PropAttrs :=
  ((Slots.get m.attrs.reverse key).getD PropAttrs.default)

/-- `set_attrs`: overwrite the first entry of the key, or append a non-default one. -/
def setAttrs (m : ObjectMeta) (key : String) (a : PropAttrs) : ObjectMeta :=
  match Slots.position m.attrs key with
  | some i => { m with attrs := Slots.setValue m.attrs i a }
  | none => if a ≠ PropAttrs.default then { m with attrs := m.attrs ++ [(key, a)] } else m

/-- `is_explicit_data`. -/
def isExplicitData (m : ObjectMeta) (key : String) : Bool := decide (key ∈ m.dataPropertyKeys)

/-- `set_explicit_data`. -/
def setExplicitData (m : ObjectMeta) (key : String) (data : Bool) : ObjectMeta :=
  if data then
    { m with
      dataPropertyKeys := if key ∈ m.dataPropertyKeys then m.dataPropertyKeys
        else m.dataPropertyKeys ++ [key]
      accessorKinds := Slots.removeKey m.accessorKinds key }
  else { m with dataPropertyKeys := m.dataPropertyKeys.filter (fun k => decide (k ≠ key)) }

/-- `explicit_accessor_kind`. -/
def explicitAccessorKind (m : ObjectMeta) (key : String) : Option AccessorKind :=
  Slots.get m.accessorKinds key

/-- `set_explicit_accessor_kind`. -/
def setExplicitAccessorKind (m : ObjectMeta) (key : String) : Option AccessorKind → ObjectMeta
  | some kind => { m with accessorKinds := Slots.removeKey m.accessorKinds key ++ [(key, kind)] }
  | none => { m with accessorKinds := Slots.removeKey m.accessorKinds key }

/-- `is_empty_accessor`. -/
def isEmptyAccessor (m : ObjectMeta) (key : String) : Bool := decide (key ∈ m.emptyAccessors)

/-- `set_empty_accessor`. -/
def setEmptyAccessor (m : ObjectMeta) (key : String) (isEmpty : Bool) : ObjectMeta :=
  let rest := m.emptyAccessors.filter (fun k => decide (k ≠ key))
  { m with emptyAccessors := if isEmpty then rest ++ [key] else rest }

/-- `may_have_accessor`. -/
def mayHaveAccessor (m : ObjectMeta) (key : String) : Bool :=
  ((m.explicitAccessorKind key).isSome || m.hasAccessors ||
    m.legacyCallAccessors && (key == "caller" || key == "arguments")) && !m.isExplicitData key

/-- `symbol_key`. -/
def symbolKey (m : ObjectMeta) (key : String) : Option (Option String) := Slots.get m.symbolKeys key

/-- `set_symbol_key`. -/
def setSymbolKey (m : ObjectMeta) (key : String) (description : Option String) : ObjectMeta :=
  { m with symbolKeys := Slots.upsert m.symbolKeys key description }

/-- `forget`: drop everything the tables say about a key. -/
def forget (m : ObjectMeta) (key : String) : ObjectMeta :=
  let m := { m with accessorKinds := Slots.removeKey m.accessorKinds key }
  let m := m.setExplicitData key false
  let m := m.setEmptyAccessor key false
  { m with attrs := Slots.removeKey m.attrs key, symbolKeys := Slots.removeKey m.symbolKeys key }

/-! ### The attribute table -/

@[simp] theorem attrs_forget (m : ObjectMeta) (key : String) :
    (m.forget key).attrs = Slots.removeKey m.attrs key := rfl

/-- A filter on keys resets the attributes of the keys it rejects. -/
theorem attrsOf_filter {m n : ObjectMeta} (q : String → Bool)
    (h : n.attrs = m.attrs.filter fun p => q p.1) (key : String) :
    n.attrsOf key = if q key then m.attrsOf key else PropAttrs.default := by
  simp only [attrsOf, h, ← List.filter_reverse, Slots.get_filter]
  by_cases hq : q key = true <;> simp [hq]

theorem attrs_setAttrs (m : ObjectMeta) (key : String) (a : PropAttrs) :
    (m.setAttrs key a).attrs = Slots.upsert m.attrs key a ∨
      a = PropAttrs.default ∧ (m.setAttrs key a).attrs = m.attrs ∧ key ∉ Slots.keys m.attrs := by
  unfold setAttrs Slots.upsert
  cases hp : Slots.position m.attrs key with
  | some i => exact Or.inl rfl
  | none =>
    by_cases ha : a = PropAttrs.default
    · exact Or.inr ⟨ha, by simp [ha], Slots.position_eq_none.1 hp⟩
    · left; simp [ha]

theorem nodup_setAttrs {m : ObjectMeta} (h : (Slots.keys m.attrs).Nodup) (key : String)
    (a : PropAttrs) : (Slots.keys (m.setAttrs key a).attrs).Nodup := by
  rcases attrs_setAttrs m key a with he | ⟨-, he, -⟩
  · rw [he]; exact Slots.nodup_upsert h key a
  · rw [he]; exact h

/-- Setting attributes changes what one key reports. -/
theorem attrsOf_setAttrs {m : ObjectMeta} (h : (Slots.keys m.attrs).Nodup) (key j : String)
    (a : PropAttrs) : (m.setAttrs key a).attrsOf j = if j = key then a else m.attrsOf j := by
  simp only [attrsOf, Slots.get_reverse h, Slots.get_reverse (nodup_setAttrs h key a)]
  rcases attrs_setAttrs m key a with he | ⟨rfl, he, hk⟩
  · rw [he, Slots.get_upsert]
    by_cases hj : j = key <;> simp [hj]
  · rw [he]
    by_cases hj : j = key
    · rw [hj, Slots.get_eq_none.2 hk]
      simp
    · simp [hj]

end ObjectMeta

end NapiVm
