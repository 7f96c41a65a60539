import NapiVm.Text.JsString
import NapiVm.Object.KeyView

/-!
# Slot names of property keys

String keys and symbol keys live in one slot namespace.  A string is named by
its key encoding and a symbol by a reserved text with its id; internal slots,
which enumeration skips, are told apart by their beginning.

`slotName_injective_iff` says exactly when that works: the encoding itself is
injective, so two keys clash, or a string key is taken for an internal slot,
only for strings that begin like an internal slot.
-/

namespace NapiVm

/-- `is_internal_key`: slots of symbols and of accessor companions. -/
def isInternalKey (k : String) : Bool :=
  "__symbol".toList.isPrefixOf k.toList || "__setter:".toList.isPrefixOf k.toList

theorem isInternalKey_symbol (id : Nat) (description : Option String) :
    isInternalKey (PropKey.symbol id description).slot = true := by
  show isInternalKey (if id = 1 then "__symbol_iterator__" else _) = true
  split
  · decide
  · simp [isInternalKey, String.toList_append]

/-- A property key as a program has it. -/
inductive GuestKey where
  | string (units : List UInt16)
  | symbol (id : UInt64)
  deriving DecidableEq, Repr

/-- `SYMBOL_ITERATOR_SLOT`. -/
def symbolIteratorSlot : String := "__symbol_iterator__"

/-- `symbol_slot_key`. -/
def symbolSlotKey (id : Nat) : String :=
  if id = 1 then symbolIteratorSlot else "__symbol:" ++ toString id ++ "__"

/-- The slots of symbols are the ones storage uses. -/
theorem slot_symbol (id : Nat) (description : Option String) :
    (PropKey.symbol id description).slot = symbolSlotKey id := rfl

namespace GuestKey

/-- The slot of a key. -/
def slotName : GuestKey → String
  | string units => JsString.toKey units
  | symbol id => symbolSlotKey id.toNat

/-- A string key is not taken for an internal slot. -/
def Shown : GuestKey → Prop
  | string units => isInternalKey (JsString.toKey units) = false
  | symbol _ => True

/-- A string that begins like an internal slot. -/
def Reserved : GuestKey → Prop
  | string units => "__symbol".toList.map JsString.unit <+: units ∨
      "__setter:".toList.map JsString.unit <+: units
  | symbol _ => False

/-! ## Symbols -/

theorem symbolSlotKey_injective {i j : Nat} (h : symbolSlotKey i = symbolSlotKey j) : i = j := by
  have hne : ∀ n : Nat, symbolIteratorSlot ≠ "__symbol:" ++ toString n ++ "__" := by
    intro n e
    have hl := congrArg (fun s => s.toList.take 9) e
    simp only [symbolIteratorSlot, String.toList_append, List.append_assoc] at hl
    rw [List.take_append_of_le_length (by decide)] at hl
    exact absurd hl (by decide)
  unfold symbolSlotKey at h
  by_cases hi : i = 1
  · by_cases hj : j = 1
    · rw [hi, hj]
    · rw [if_pos hi, if_neg hj] at h
      exact absurd h (hne j)
  · by_cases hj : j = 1
    · rw [if_neg hi, if_pos hj] at h
      exact absurd h.symm (hne i)
    · rw [if_neg hi, if_neg hj] at h
      have htext : toString i = toString j := by
        simpa [← String.toList_inj, String.toList_append] using h
      have hdigits : Nat.toDigits 10 i = Nat.toDigits 10 j := by
        simpa only [Nat.toString_eq_repr, Nat.toList_repr] using congrArg String.toList htext
      simpa using congrArg (fun digits => Nat.ofDigitChars 10 digits 0) hdigits

/-- The slot of a symbol is internal. -/
theorem isInternalKey_symbolSlotKey (id : Nat) : isInternalKey (symbolSlotKey id) = true :=
  isInternalKey_symbol id none

/-! ## Strings -/

/-- A string key is taken for an internal slot exactly when it begins like one. -/
theorem isInternalKey_toKey (units : List UInt16) :
    isInternalKey (JsString.toKey units) = true ↔ (string units).Reserved := by
  have h₁ : ∀ c ∈ "__symbol".toList, c.toNat < 0xD800 := by simp
  have h₂ : ∀ c ∈ "__setter:".toList, c.toNat < 0xD800 := by simp
  have hkey : (JsString.toKey units).toList = JsString.keyChars units := String.toList_ofList
  have hreserved : (string units).Reserved ↔ "__symbol".toList.map JsString.unit <+: units ∨
      "__setter:".toList.map JsString.unit <+: units := Iff.rfl
  rw [hreserved, ← JsString.isPrefix_keyChars h₁, ← JsString.isPrefix_keyChars h₂, isInternalKey,
    hkey, Bool.or_eq_true, List.isPrefixOf_iff_prefix, List.isPrefixOf_iff_prefix]

theorem shown_iff (k : GuestKey) : k.Shown ↔ ¬ k.Reserved := by
  cases k with
  | string units =>
    rw [← isInternalKey_toKey, Bool.not_eq_true]
    rfl
  | symbol id => simp [Shown, Reserved]

/-- Keys whose strings are shown have slots of their own. -/
theorem slotName_inj_of_shown {a b : GuestKey} (ha : a.Shown) (hb : b.Shown)
    (h : a.slotName = b.slotName) : a = b := by
  cases a with
  | string u =>
    cases b with
    | string v => rw [JsString.toKey_injective h]
    | symbol j =>
      have hu : isInternalKey (JsString.toKey u) = true := by
        rw [show JsString.toKey u = symbolSlotKey j.toNat from h]
        exact isInternalKey_symbolSlotKey j.toNat
      rw [show isInternalKey (JsString.toKey u) = false from ha] at hu
      exact Bool.noConfusion hu
  | symbol i =>
    cases b with
    | string v =>
      have hv : isInternalKey (JsString.toKey v) = true := by
        rw [← show symbolSlotKey i.toNat = JsString.toKey v from h]
        exact isInternalKey_symbolSlotKey i.toNat
      rw [show isInternalKey (JsString.toKey v) = false from hb] at hv
      exact Bool.noConfusion hv
    | symbol j => rw [UInt64.toNat_inj.1 (symbolSlotKey_injective h)]

/-- Two keys have slots of their own, and neither is a string taken for an internal
slot, exactly when neither is a string that begins like an internal slot. -/
theorem slotName_injective_iff (a b : GuestKey) :
    ((a.slotName = b.slotName → a = b) ∧ a.Shown ∧ b.Shown) ↔ ¬ a.Reserved ∧ ¬ b.Reserved := by
  rw [shown_iff, shown_iff]
  constructor
  · rintro ⟨-, ha, hb⟩
    exact ⟨ha, hb⟩
  · rintro ⟨ha, hb⟩
    exact ⟨slotName_inj_of_shown ((shown_iff a).2 ha) ((shown_iff b).2 hb), ha, hb⟩

/-- The string `__symbol:5__` shares the slot of the symbol with id 5 and is hidden as internal. -/
theorem slotName_clash :
    (string (JsString.ofString "__symbol:5__")).slotName = (symbol 5).slotName ∧
      string (JsString.ofString "__symbol:5__") ≠ symbol 5 ∧
      ¬ (string (JsString.ofString "__symbol:5__")).Shown := by
  refine ⟨by decide, by simp, ?_⟩
  rw [shown_iff, not_not]
  left
  decide

end GuestKey

end NapiVm
