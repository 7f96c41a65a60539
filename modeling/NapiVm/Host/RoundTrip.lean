import NapiVm.Host.Convert

/-!
# JSON across the boundary and back

What comes back is the value that went in, without the fields whose names begin
like internal slots (`roundTrip_eq_strip`).  So the round trip is the identity
exactly on values without such a name (`roundTrip_iff`).

The decoder allocates children before their parent, so the addresses on a path
down from a container decrease; that is why the cycle check never fires.
-/

namespace NapiVm.Host

open JsString List

/-- A `serde_json` value within the limits of the machine, seen at a depth: its numbers
are integers below `10 ^ 15` in magnitude, and the names of an object are distinct. -/
inductive Fits : Nat → Json → Prop where
  | null {d : Nat} (hd : d ≤ maxJsonDepth) : Fits d .null
  | bool {d : Nat} {b : Bool} (hd : d ≤ maxJsonDepth) : Fits d (.bool b)
  | number {d : Nat} {n : Int} (hd : d ≤ maxJsonDepth) (hn : n.natAbs < 10 ^ 15) :
      Fits d (.number (.int n))
  | string {d : Nat} {text : String} (hd : d ≤ maxJsonDepth)
      (hl : (ofString text).length ≤ maxStringLen) : Fits d (.string text)
  | array {d : Nat} {items : List Json} (hd : d ≤ maxJsonDepth)
      (hl : items.length ≤ maxArrayLen) (hi : ∀ j ∈ items, Fits (d + 1) j) : Fits d (.array items)
  | object {d : Nat} {fields : List (String × Json)} (hd : d ≤ maxJsonDepth)
      (hl : fields.length ≤ maxObjectProps) (hnames : (fields.map Prod.fst).Nodup)
      (hkeys : ∀ f ∈ fields, f.1.utf8ByteSize ≤ maxStringLen)
      (hf : ∀ f ∈ fields, Fits (d + 1) f.2) : Fits d (.object fields)

/-- The name begins like an internal slot. -/
def reserved (name : String) : Bool :=
  "__symbol".toList.isPrefixOf name.toList || "__setter:".toList.isPrefixOf name.toList

/-- No name in the value begins like an internal slot. -/
inductive Unreserved : Json → Prop where
  | null : Unreserved .null
  | bool {b : Bool} : Unreserved (.bool b)
  | number {n : JsonNumber} : Unreserved (.number n)
  | string {text : String} : Unreserved (.string text)
  | array {items : List Json} (hi : ∀ j ∈ items, Unreserved j) : Unreserved (.array items)
  | object {fields : List (String × Json)} (hn : ∀ f ∈ fields, reserved f.1 = false)
      (hf : ∀ f ∈ fields, Unreserved f.2) : Unreserved (.object fields)

mutual

/-- The value without the fields whose names begin like internal slots. -/
def strip : Json → Json
  | .null => .null
  | .bool b => .bool b
  | .number n => .number n
  | .string text => .string text
  | .array items => .array (stripItems items)
  | .object fields => .object (stripFields fields)

def stripItems : List Json → List Json
  | [] => []
  | j :: rest => strip j :: stripItems rest

def stripFields : List (String × Json) → List (String × Json)
  | [] => []
  | (name, j) :: rest =>
    if reserved name then stripFields rest else (name, strip j) :: stripFields rest

end

/-- Out to the guest and back. -/
def roundTrip (guest : Guest) (heap : GuestHeap) (v : Json) : Except VmErr Json := do
  let r ← valueFromJson heap v
  valueToJson guest r.2 r.1

/-! ## What is dropped -/

theorem isInternalKey_name (name : String) :
    isInternalKey (toKey (ofString name)) = reserved name := by
  have h₁ : ∀ c ∈ "__symbol".toList, c ≠ marker := by simp [marker]
  have h₂ : ∀ c ∈ "__setter:".toList, c ≠ marker := by simp [marker]
  have hkey : (toKey (ofString name)).toList = keyChars (ofString name) := String.toList_ofList
  unfold isInternalKey reserved
  rw [hkey, Bool.eq_iff_iff, Bool.or_eq_true, Bool.or_eq_true, isPrefixOf_iff_prefix,
    isPrefixOf_iff_prefix, isPrefixOf_iff_prefix, isPrefixOf_iff_prefix,
    isPrefix_keyChars_ofString h₁, isPrefix_keyChars_ofString h₂]

theorem length_stripFields_le (fields : List (String × Json)) :
    (stripFields fields).length ≤ fields.length := by
  induction fields with
  | nil => simp [stripFields]
  | cons f fields ih =>
    obtain ⟨name, j⟩ := f
    rw [stripFields]
    split <;> simp only [length_cons] <;> omega

/-- Only a value with a reserved name loses anything. -/
theorem strip_eq_iff {d : Nat} {v : Json} (h : Fits d v) : strip v = v ↔ Unreserved v := by
  induction h with
  | null _ => exact ⟨fun _ => .null, fun _ => by rw [strip]⟩
  | bool _ => exact ⟨fun _ => .bool, fun _ => by rw [strip]⟩
  | number _ _ => exact ⟨fun _ => .number, fun _ => by rw [strip]⟩
  | string _ _ => exact ⟨fun _ => .string, fun _ => by rw [strip]⟩
  | @array d items _ _ _ ih =>
    have hlist : stripItems items = items ↔ ∀ j ∈ items, Unreserved j := by
      clear * - ih
      induction items with
      | nil => simp [stripItems]
      | cons j items ihl =>
        rw [stripItems, cons.injEq, ih j mem_cons_self, ihl fun k hk => ih k (mem_cons_of_mem _ hk)]
        simp
    rw [strip, Json.array.injEq, hlist]
    constructor
    · exact .array
    · intro hu
      cases hu with
      | array hi => exact hi
  | @object d fields _ _ _ _ _ ih =>
    have hlist : stripFields fields = fields ↔
        (∀ f ∈ fields, reserved f.1 = false) ∧ ∀ f ∈ fields, Unreserved f.2 := by
      clear * - ih
      induction fields with
      | nil => simp [stripFields]
      | cons f fields ihl =>
        obtain ⟨name, j⟩ := f
        have ihl := ihl fun k hk => ih k (mem_cons_of_mem _ hk)
        have hj := ih (name, j) mem_cons_self
        rw [stripFields]
        by_cases hr : reserved name = true
        · rw [if_pos hr]
          constructor
          · intro e
            have hle := length_stripFields_le fields
            have hlen := congrArg length e
            simp only [length_cons] at hlen
            omega
          · rintro ⟨hn, -⟩
            have := hn (name, j) mem_cons_self
            rw [hr] at this
            exact Bool.noConfusion this
        · rw [if_neg hr, cons.injEq, Prod.mk.injEq, hj, ihl]
          simp only [Bool.not_eq_true] at hr
          rw [forall_mem_cons, forall_mem_cons]
          constructor
          · rintro ⟨⟨-, hu⟩, hn, hf⟩
            exact ⟨⟨hr, hn⟩, hu, hf⟩
          · rintro ⟨⟨-, hn⟩, hu, hf⟩
            exact ⟨⟨rfl, hu⟩, hn, hf⟩
    rw [strip, Json.object.injEq, hlist]
    constructor
    · rintro ⟨hn, hf⟩
      exact .object hn hf
    · intro hu
      cases hu with
      | object hn hf => exact ⟨hn, hf⟩

/-! ## Encoding what was decoded -/

/-- A guest value that encodes to `strip v`, whatever is allocated later and whatever
containers around it are being visited. -/
structure Encodes (guest : Guest) (d : Nat) (heap : GuestHeap) (x : Value) (v : Json) : Prop where
  defined : x ≠ .undefined
  unbound : ∀ c, x ≠ .binding c
  plain : isFunction x = false
  notCallable : ∀ later, heap <+: later → isCallable guest later x = false
  encode : ∀ later visited, heap <+: later → (∀ p ∈ visited, heap.length ≤ p) →
    valueToJsonDepth guest later (maxJsonDepth + 1 - d) visited x = .ok (strip v)

variable {guest : Guest} {d : Nat} {heap later : GuestHeap} {x : Value} {v : Json}

theorem Encodes.mono (h : Encodes guest d heap x v) (hl : heap <+: later) :
    Encodes guest d later x v where
  defined := h.defined
  unbound := h.unbound
  plain := h.plain
  notCallable more hm := h.notCallable more (hl.trans hm)
  encode more visited hm hv :=
    h.encode more visited (hl.trans hm) fun p hp => hl.length_le.trans (hv p hp)

theorem numberToJson_ofInt {n : Int} (h : n.natAbs < 10 ^ 15) :
    numberToJson (Binary64.ofInt n) = .number (.int n) := by
  have hback : Binary64.toInt? (Binary64.ofInt n) = some n := Binary64.toInt?_ofInt (by omega)
  have hfinite : Binary64.isFinite (Binary64.ofInt n) = true := by
    unfold Binary64.isFinite
    rw [decide_eq_true_eq]
    intro he
    simp [Binary64.toInt?, Binary64.magnitude?, he] at hback
  unfold numberToJson
  rw [hfinite, hback]
  simp only [Bool.not_true, Bool.false_eq_true, if_false, h, if_true]

variable {xs : List Value} {items : List Json} {fields : List (String × Json)}

variable {convert : Value → Except VmErr Json} {a : Nat}

theorem itemsToJson_of_encodes (h : List.Forall₂ (fun x v => convert x = .ok (strip v)) xs items) :
    itemsToJson convert xs = .ok (stripItems items) := by
  induction h with
  | nil => rw [itemsToJson, stripItems]
  | cons hx _ ih =>
    rw [itemsToJson, hx, ih, stripItems]
    rfl

/-- The array cell that closes its elements. -/
theorem encodes_array (hd : d ≤ maxJsonDepth)
    (h : List.Forall₂ (fun x v => Encodes guest (d + 1) heap x v) xs items) :
    Encodes guest d (heap ++ [.array xs]) (.ref .array heap.length) (.array items) where
  defined := by simp
  unbound := by simp
  plain := rfl
  notCallable _ _ := rfl
  encode later visited hl hv := by
    have hcell : later[heap.length]? = some (.array xs) := by
      obtain ⟨more, rfl⟩ := hl
      simp
    have hfresh : heap.length ∉ visited := by
      intro hmem
      have := hv _ hmem
      simp only [length_append, length_singleton] at this
      omega
    have hlevels : maxJsonDepth + 1 - d = (maxJsonDepth + 1 - (d + 1)) + 1 := by omega
    have hitems : itemsToJson (valueToJsonDepth guest later (maxJsonDepth + 1 - (d + 1))
        (heap.length :: visited)) xs = .ok (stripItems items) := by
      apply itemsToJson_of_encodes
      refine h.imp fun x v hx => hx.encode later _ ((prefix_append _ _).trans hl) ?_
      intro p hp
      rcases mem_cons.1 hp with rfl | hp
      · exact le_refl _
      · have := hv p hp
        simp only [length_append, length_singleton] at this
        omega
    rw [hlevels, valueToJsonDepth, hcell]
    simp only [hfresh, if_false, hitems, strip]
    rfl

theorem entryValue_of_data {key : String} (hplain : isFunction x = false)
    (hunbound : ∀ c, x ≠ .binding c) : entryValue guest a (key, x) = .ok x := by
  cases x with
  | function identity name => exact absurd hplain (by simp [isFunction])
  | binding c => exact absurd rfl (hunbound c)
  | _ => rfl

/-- The slot name of a field. -/
def fieldSlot (f : String × Json) : String := toKey (ofString f.1)

/-- The loop over the slots appends the fields that are not dropped. -/
theorem entriesToJson_of_encodes

    (hdata : List.Forall₂ (fun x f => Encodes guest d heap x (Prod.snd f) ∧
      convert x = .ok (strip f.2)) xs fields)
    (hnames : (fields.map Prod.fst).Nodup) {out : List (String × Json)}
    (hout : ∀ f ∈ fields, f.1 ∉ Slots.keys out) :
    entriesToJson guest a convert
      (((fields.map fieldSlot).zip xs).filter fun p => !isInternalKey p.1) out =
        .ok (out ++ stripFields fields) := by
  induction hdata generalizing out with
  | nil => simp [entriesToJson, stripFields]
  | @cons x f xs fields hx _ ih =>
    obtain ⟨name, j⟩ := f
    obtain ⟨hx, hconvert⟩ := hx
    rw [map_cons, nodup_cons] at hnames
    have hslot : fieldSlot (name, j) = toKey (ofString name) := rfl
    rw [map_cons, zip_cons_cons, filter_cons, hslot, isInternalKey_name, stripFields]
    by_cases hr : reserved name = true
    · simp only [hr, Bool.not_true, Bool.false_eq_true, if_false, if_true]
      exact ih hnames.2 fun g hg => hout g (mem_cons_of_mem _ hg)
    · have hkey : toUtf8 (fromKey (toKey (ofString name))) =
          some name := by rw [fromKey_toKey, toUtf8_ofString]
      have hnew : name ∉ Slots.keys out := hout (name, j) mem_cons_self
      have hinsert : insertField out name (strip j) = out ++ [(name, strip j)] := by
        unfold insertField Slots.upsert
        rw [Slots.position_eq_none.2 hnew]
      have hout' : ∀ g ∈ fields, g.1 ∉ Slots.keys (out ++ [(name, strip j)]) := by
        intro g hg hmem
        rw [Slots.keys_append, mem_append] at hmem
        rcases hmem with hmem | hmem
        · exact hout g (mem_cons_of_mem _ hg) hmem
        · have he : g.1 = name := by simpa [Slots.keys] using hmem
          have hname : g.1 ∈ fields.map Prod.fst := mem_map_of_mem hg
          rw [he] at hname
          exact hnames.1 hname
      have hrest := ih hnames.2 hout'
      simp only [Bool.not_eq_true] at hr
      simp only [hr, Bool.not_false, if_true, Bool.false_eq_true, if_false]
      rw [entriesToJson, entryValue_of_data hx.plain hx.unbound]
      simp only [bind, Except.bind, hx.defined, if_false, hkey, hconvert, hinsert]
      rw [hrest, append_assoc]
      rfl

/-- The object cell that closes its fields. -/
theorem encodes_object (htoJson : guest.inheritedToJson = .undefined) (hd : d ≤ maxJsonDepth)
    (hnames : (fields.map Prod.fst).Nodup)
    (h : List.Forall₂ (fun x f => Encodes guest (d + 1) heap x (Prod.snd f)) xs fields) :
    Encodes guest d (heap ++ [.object ((fields.map fieldSlot).zip xs)])
      (.ref .object heap.length) (.object fields) := by
  have hcell : ∀ later, heap ++ [.object ((fields.map fieldSlot).zip xs)] <+: later →
      later[heap.length]? = some (.object ((fields.map fieldSlot).zip xs)) := by
    rintro later ⟨more, rfl⟩
    simp
  have hheap : ∀ later, heap ++ [.object ((fields.map fieldSlot).zip xs)] <+: later →
      heap <+: later := fun later hl => (prefix_append _ _).trans hl
  -- every slot holds one of the decoded values
  have hslots : ∀ key y, Slots.get ((fields.map fieldSlot).zip xs) key = some y →
      ∃ v, Encodes guest (d + 1) heap y v := by
    intro key y hy
    have hmem : y ∈ xs := (of_mem_zip (Slots.mem_of_get hy)).2
    clear * - h hmem
    induction h with
    | nil => exact absurd hmem (by simp)
    | cons hx _ ih =>
      rcases mem_cons.1 hmem with rfl | hmem
      · exact ⟨_, hx⟩
      · exact ih hmem
  refine ⟨by simp, by simp, rfl, ?_, ?_⟩
  · intro later hl
    simp only [isCallable, hcell later hl]
    cases hy : Slots.get ((fields.map fieldSlot).zip xs) callSlot with
    | none => rfl
    | some y =>
      obtain ⟨v, hv⟩ := hslots _ _ hy
      exact hv.plain
  · intro later visited hl hv
    have hfresh : heap.length ∉ visited := by
      intro hmem
      have := hv _ hmem
      simp only [length_append, length_singleton] at this
      omega
    have hcallable : isCallable guest later ((Slots.get ((fields.map fieldSlot).zip xs)
        "toJSON").getD guest.inheritedToJson) = false := by
      cases hy : Slots.get ((fields.map fieldSlot).zip xs) "toJSON" with
      | none =>
        rw [Option.getD_none, htoJson]
        rfl
      | some y =>
        obtain ⟨v, hv⟩ := hslots _ _ hy
        exact hv.notCallable later (hheap later hl)
    have hlevels : maxJsonDepth + 1 - d = (maxJsonDepth + 1 - (d + 1)) + 1 := by omega
    have hentries : entriesToJson guest heap.length (valueToJsonDepth guest later
        (maxJsonDepth + 1 - (d + 1)) (heap.length :: visited))
        (((fields.map fieldSlot).zip xs).filter fun p => !isInternalKey p.1) [] =
          .ok (stripFields fields) := by
      refine entriesToJson_of_encodes (h.imp fun x f hx => ⟨hx, ?_⟩) hnames (by simp)
      refine hx.encode later _ (hheap later hl) ?_
      intro p hp
      rcases mem_cons.1 hp with rfl | hp
      · exact le_refl _
      · have := hv p hp
        simp only [length_append, length_singleton] at this
        omega
    rw [hlevels, valueToJsonDepth, hcell later hl]
    simp only [hcallable, hfresh, Bool.false_eq_true, if_false, hentries, strip]
    rfl

/-! ## The loop -/

theorem decode_ok {s : Step} {work : List Step} {values : List Value} {keys : List String}
    {d' : Decoder} (h : step ⟨work, values, keys, heap⟩ s = .ok d') :
    decode ⟨s :: work, values, keys, heap⟩ = decode d' := by
  rw [decode]
  split
  · next he => rw [h] at he; exact absurd he (by simp)
  · next he => rw [h] at he; rw [Except.ok.inj he]

/-- Visiting a value leaves an encoding of it on the value stack and nothing else. -/
def Decodes (guest : Guest) (d : Nat) (v : Json) : Prop :=
  ∀ work values keys heap, ∃ x later, heap <+: later ∧ Encodes guest d later x v ∧
    decode ⟨.visit v d :: work, values, keys, heap⟩ = decode ⟨work, x :: values, keys, later⟩

theorem decode_items (h : ∀ j ∈ items, Decodes guest d j) (work : List Step) (values : List Value)
    (keys : List String) (heap : GuestHeap) :
    ∃ xs later, heap <+: later ∧ List.Forall₂ (fun x v => Encodes guest d later x v) xs items ∧
      decode ⟨items.map (fun item => .visit item d) ++ work, values, keys, heap⟩ =
        decode ⟨work, xs.reverse ++ values, keys, later⟩ := by
  induction items generalizing values heap with
  | nil => exact ⟨[], heap, prefix_refl _, .nil, rfl⟩
  | cons j items ih =>
    obtain ⟨x, mid, hmid, hx, hdec⟩ := h j mem_cons_self
      (items.map (fun item => .visit item d) ++ work) values keys heap
    obtain ⟨xs, later, hlater, hxs, hrest⟩ :=
      ih (fun k hk => h k (mem_cons_of_mem _ hk)) (x :: values) mid
    refine ⟨x :: xs, later, hmid.trans hlater, .cons (hx.mono hlater) hxs, ?_⟩
    rw [map_cons, cons_append, hdec, hrest, reverse_cons, append_assoc]
    rfl

theorem decode_fields (h : ∀ f ∈ fields, Decodes guest d f.2)
    (hkeys : ∀ f ∈ fields, f.1.utf8ByteSize ≤ maxStringLen) (work : List Step)
    (values : List Value) (keys : List String) (heap : GuestHeap) :
    ∃ xs later, heap <+: later ∧
      List.Forall₂ (fun x f => Encodes guest d later x (Prod.snd f)) xs fields ∧
      decode ⟨fields.flatMap (fun f => [.key f.1, .visit f.2 d]) ++ work, values, keys, heap⟩ =
        decode ⟨work, xs.reverse ++ values, (fields.map fieldSlot).reverse ++ keys, later⟩ := by
  induction fields generalizing values keys heap with
  | nil => exact ⟨[], heap, prefix_refl _, .nil, rfl⟩
  | cons f fields ih =>
    have hl : ¬ maxStringLen < f.1.utf8ByteSize :=
      Nat.not_lt.2 (hkeys f mem_cons_self)
    have hkey : ∀ work, decode ⟨.key f.1 :: work, values, keys, heap⟩ =
        decode ⟨work, values, fieldSlot f :: keys, heap⟩ := by
      intro work
      apply decode_ok
      simp only [step, hl, if_false]
      rfl
    obtain ⟨x, mid, hmid, hx, hdec⟩ := h f mem_cons_self
      (fields.flatMap (fun f => [.key f.1, .visit f.2 d]) ++ work) values (fieldSlot f :: keys)
      heap
    obtain ⟨xs, later, hlater, hxs, hrest⟩ :=
      ih (fun k hk => h k (mem_cons_of_mem _ hk))
        (fun k hk => hkeys k (mem_cons_of_mem _ hk)) (x :: values) (fieldSlot f :: keys) mid
    refine ⟨x :: xs, later, hmid.trans hlater, .cons (hx.mono hlater) hxs, ?_⟩
    have hwork : (f :: fields).flatMap (fun f => [Step.key f.1, Step.visit f.2 d]) ++ work =
        .key f.1 :: .visit f.2 d ::
          (fields.flatMap (fun f => [Step.key f.1, Step.visit f.2 d]) ++ work) := by
      simp
    rw [hwork, hkey, hdec, hrest, map_cons, reverse_cons, reverse_cons, append_assoc, append_assoc]
    rfl

theorem decodes_of_fits (htoJson : guest.inheritedToJson = .undefined) (h : Fits d v) :
    Decodes guest d v := by
  have hlevels : ∀ {d : Nat}, d ≤ maxJsonDepth →
      maxJsonDepth + 1 - d = (maxJsonDepth + 1 - (d + 1)) + 1 := by
    intro d hd
    omega
  induction h with
  | null hd =>
    intro work values keys heap
    refine ⟨.null, heap, prefix_refl _, ⟨by simp, by simp, rfl, fun _ _ => rfl, ?_⟩, ?_⟩
    · intro later visited _ _
      rw [hlevels hd, valueToJsonDepth, strip]
    · apply decode_ok
      simp only [step, visit, Nat.not_lt.2 hd, if_false]
  | @bool d b hd =>
    intro work values keys heap
    refine ⟨.bool b, heap, prefix_refl _, ⟨by simp, by simp, rfl, fun _ _ => rfl, ?_⟩, ?_⟩
    · intro later visited _ _
      rw [hlevels hd, valueToJsonDepth, strip]
    · apply decode_ok
      simp only [step, visit, Nat.not_lt.2 hd, if_false]
  | @number d n hd hn =>
    intro work values keys heap
    refine ⟨.number (Binary64.ofInt n), heap, prefix_refl _,
      ⟨by simp, by simp, rfl, fun _ _ => rfl, ?_⟩, ?_⟩
    · intro later visited _ _
      rw [hlevels hd, valueToJsonDepth, numberToJson_ofInt hn, strip]
    · apply decode_ok
      simp only [step, visit, Nat.not_lt.2 hd, if_false]
      rfl
  | @string d text hd hl =>
    intro work values keys heap
    refine ⟨.string (ofString text), heap, prefix_refl _,
      ⟨by simp, by simp, rfl, fun _ _ => rfl, ?_⟩, ?_⟩
    · intro later visited _ _
      rw [hlevels hd, valueToJsonDepth, toUtf8_ofString, strip]
    · apply decode_ok
      simp only [step, visit, Nat.not_lt.2 hd, Nat.not_lt.2 hl, if_false]
  | @array d items hd hl _ ih =>
    intro work values keys heap
    obtain ⟨xs, mid, hmid, hxs, hdec⟩ :=
      decode_items ih (.array items.length :: work) values keys heap
    have hlen : xs.length = items.length := hxs.length_eq
    have htake : ((xs.reverse ++ values).take items.length).reverse = xs := by
      rw [← hlen, ← length_reverse, take_left, reverse_reverse]
    have hdrop : (xs.reverse ++ values).drop items.length = values := by
      rw [← hlen, ← length_reverse, drop_left]
    refine ⟨.ref .array mid.length, mid ++ [.array xs], hmid.trans (prefix_append _ _),
      encodes_array hd hxs, ?_⟩
    calc decode ⟨.visit (.array items) d :: work, values, keys, heap⟩
        = decode ⟨items.map (fun item => .visit item (d + 1)) ++ .array items.length :: work,
            values, keys, heap⟩ := by
          apply decode_ok
          simp only [step, visit, Nat.not_lt.2 hd, Nat.not_lt.2 hl, if_false]
      _ = decode ⟨.array items.length :: work, xs.reverse ++ values, keys, mid⟩ := hdec
      _ = decode ⟨work, .ref .array mid.length :: values, keys, mid ++ [.array xs]⟩ := by
          apply decode_ok
          simp only [step, htake, hdrop]
  | @object d fields hd hl hnames hkeys _ ih =>
    intro work values keys heap
    obtain ⟨xs, mid, hmid, hxs, hdec⟩ :=
      decode_fields ih hkeys (.object fields.length :: work) values keys heap
    have hlen : xs.length = fields.length := hxs.length_eq
    have htake : ((xs.reverse ++ values).take fields.length).reverse = xs := by
      rw [← hlen, ← length_reverse, take_left, reverse_reverse]
    have hdrop : (xs.reverse ++ values).drop fields.length = values := by
      rw [← hlen, ← length_reverse, drop_left]
    have hklen : (fields.map fieldSlot).reverse.length = fields.length := by simp
    have hktake : (((fields.map fieldSlot).reverse ++ keys).take fields.length).reverse =
        fields.map fieldSlot := by
      rw [← hklen, take_left, reverse_reverse]
    have hkdrop : ((fields.map fieldSlot).reverse ++ keys).drop fields.length = keys := by
      rw [← hklen, drop_left]
    refine ⟨.ref .object mid.length, mid ++ [.object ((fields.map fieldSlot).zip xs)],
      hmid.trans (prefix_append _ _), encodes_object htoJson hd hnames hxs, ?_⟩
    calc decode ⟨.visit (.object fields) d :: work, values, keys, heap⟩
        = decode ⟨fields.flatMap (fun f => [.key f.1, .visit f.2 (d + 1)]) ++
            .object fields.length :: work, values, keys, heap⟩ := by
          apply decode_ok
          simp only [step, visit, Nat.not_lt.2 hd, Nat.not_lt.2 hl, if_false]
      _ = decode ⟨.object fields.length :: work, xs.reverse ++ values,
            (fields.map fieldSlot).reverse ++ keys, mid⟩ := hdec
      _ = decode ⟨work, .ref .object mid.length :: values, keys,
            mid ++ [.object ((fields.map fieldSlot).zip xs)]⟩ := by
          apply decode_ok
          simp only [step, htake, hdrop, hktake, hkdrop]

/-! ## The round trip -/

/-- What comes back is the value without the fields named like internal slots. -/
theorem roundTrip_eq_strip (htoJson : guest.inheritedToJson = .undefined) (h : Fits 0 v)
    (heap : GuestHeap) : roundTrip guest heap v = .ok (strip v) := by
  obtain ⟨x, later, -, hx, hdec⟩ := decodes_of_fits htoJson h [] [] [] heap
  have hroot : decode ⟨[], [x], [], later⟩ = .ok (x, later) := by rw [decode]
  have hfrom : valueFromJson heap v = .ok (x, later) := hdec.trans hroot
  unfold roundTrip
  rw [hfrom]
  exact hx.encode later [] (prefix_refl _) (by simp)

/-- A value within the limits comes back as it was exactly when none of its names, at any
depth, begins with `__symbol` or `__setter:`. -/
theorem roundTrip_iff (guest : Guest) (heap : GuestHeap) (v : Json)
    (htoJson : guest.inheritedToJson = .undefined) (h : Fits 0 v) :
    roundTrip guest heap v = .ok v ↔ Unreserved v := by
  rw [roundTrip_eq_strip htoJson h heap, Except.ok.injEq, strip_eq_iff h]

/-- A guest without a `toJSON` anywhere. -/
def plainGuest : Guest where
  inheritedToJson := .undefined
  call _ v := .ok v
  member _ _ := .ok .undefined
  binding _ := .undefined
  proxyCallable _ := false
  exotic _ _ := .ok .null

/-- The round trip of a small tree. -/
theorem roundTrip_small :
    roundTrip plainGuest [] (.object [("a", .array [.number (.int (-3)), .null])]) =
      .ok (.object [("a", .array [.number (.int (-3)), .null])]) := by
  have hfits : Fits 0 (.object [("a", .array [.number (.int (-3)), .null])]) := by
    refine .object (by decide) (by decide) (by decide) (by decide) ?_
    intro f hf
    obtain rfl : f = ("a", .array [.number (.int (-3)), .null]) := by simpa using hf
    refine .array (by decide) (by decide) ?_
    intro j hj
    rcases List.mem_cons.1 hj with rfl | hj
    · exact .number (by decide) (by decide)
    · obtain rfl : j = .null := by simpa using hj
      exact .null (by decide)
  refine (roundTrip_iff plainGuest [] _ rfl hfits).2 ?_
  refine .object (by decide) ?_
  intro f hf
  obtain rfl : f = ("a", .array [.number (.int (-3)), .null]) := by simpa using hf
  refine .array ?_
  intro j hj
  rcases List.mem_cons.1 hj with rfl | hj
  · exact .number
  · obtain rfl : j = .null := by simpa using hj
    exact .null

/-- The field `__symbol` is lost on the way. -/
theorem roundTrip_drops :
    plainGuest.inheritedToJson = .undefined ∧ Fits 0 (.object [("__symbol", .null)]) ∧
      roundTrip plainGuest [] (.object [("__symbol", .null)]) = .ok (.object []) ∧
      roundTrip plainGuest [] (.object [("__symbol", .null)]) ≠
        .ok (.object [("__symbol", .null)]) := by
  have hfits : Fits 0 (.object [("__symbol", .null)]) := by
    refine .object (by decide) (by decide) (by decide) (by decide) ?_
    intro f hf
    obtain rfl : f = ("__symbol", .null) := by simpa using hf
    exact .null (by decide)
  have hback : roundTrip plainGuest [] (.object [("__symbol", .null)]) = .ok (.object []) := by
    rw [roundTrip_eq_strip rfl hfits]
    rfl
  refine ⟨rfl, hfits, hback, ?_⟩
  rw [hback]
  simp

end NapiVm.Host
