import NapiVm.Json.Serialize

/-!
# Indented texts

An indented text is made from the one without white space, unit by unit.

* `reindent` — the code's way.
* `pretty` — the text that the language prescribes.
* `reindent_eq_pretty` — they are the same, whatever the indent is made of.
-/

namespace NapiVm.JsonStringify

open JsString JsonText List

/-! ## Reindenting -/

structure ReindentState where
  out : List UInt16
  depth : Nat
  inString : Bool
  escaped : Bool

/-- `pads[depth]`. -/
def pad (indent : List UInt16) : Nat → List UInt16
  | 0 => []
  | depth + 1 => pad indent depth ++ indent

/-- Does the output end with a newline and the pad? -/
def isEmpty (out pad : List UInt16) : Bool :=
  decide (1 + pad.length ≤ out.length) && out[out.length - (1 + pad.length)]? == some (unit '\n') &&
    pad.isSuffixOf out

/-- What a unit does that is no surrogate. -/
def ReindentState.step (indent : List UInt16) (s : ReindentState) (u : UInt16) : ReindentState :=
  if s.inString then
    if s.escaped then { s with out := s.out ++ [u], escaped := false }
    else if u = unit '\\' then { s with out := s.out ++ [u], escaped := true }
    else if u = unit '"' then { s with out := s.out ++ [u], inString := false }
    else { s with out := s.out ++ [u] }
  else if u = unit '"' then { s with out := s.out ++ [u], inString := true }
  else if u = unit '{' ∨ u = unit '[' then
    { s with out := s.out ++ u :: unit '\n' :: pad indent (s.depth + 1), depth := s.depth + 1 }
  else if u = unit '}' ∨ u = unit ']' then
    let deeper := pad indent (s.depth - 1 + 1)
    if isEmpty s.out deeper then
      { s with out := s.out.take (s.out.length - (1 + deeper.length)) ++ [u], depth := s.depth - 1 }
    else
      { s with
        out := s.out ++ unit '\n' :: (pad indent (s.depth - 1) ++ [u])
        depth := s.depth - 1 }
  else if u = unit ',' then { s with out := s.out ++ u :: unit '\n' :: pad indent s.depth }
  else if u = unit ':' then { s with out := s.out ++ [u, unit ' '] }
  else { s with out := s.out ++ [u] }

/-- The loop of `reindent`. -/
def reindentFrom (indent : List UInt16) :
    List UInt16 → ReindentState → Except JsonError (List UInt16)
  | [], s => .ok s.out
  | u :: rest, s =>
    if isHigh u || isLow u then reindentFrom indent rest { s with out := s.out ++ [u] }
    else if maxStringLen < s.out.length then .error .stringLimit
    else reindentFrom indent rest (s.step indent u)

/-- `reindent`. -/
def reindent (compact indent : List UInt16) : Except JsonError (List UInt16) :=
  reindentFrom indent compact ⟨[], 0, false, false⟩

/-! ## What is prescribed -/

mutual

/-- `SerializeJSONProperty` with a gap: `current` is the indent of the line that the value is on. -/
def pretty (gap current : List UInt16) : JsonValue → List UInt16
  | .array [] => [unit '[', unit ']']
  | .array items =>
    unit '[' :: unit '\n' :: (current ++ gap ++ (prettyItems gap (current ++ gap) items ++
      unit '\n' :: (current ++ [unit ']'])))
  | .object [] => [unit '{', unit '}']
  | .object fields =>
    unit '{' :: unit '\n' :: (current ++ gap ++ (prettyFields gap (current ++ gap) fields ++
      unit '\n' :: (current ++ [unit '}'])))
  | v => encode (stringify v)

/-- The items of an array, each on a line of its own. -/
def prettyItems (gap current : List UInt16) : List JsonValue → List UInt16
  | [] => []
  | [item] => pretty gap current item
  | item :: items =>
    pretty gap current item ++ unit ',' :: unit '\n' :: (current ++ prettyItems gap current items)

/-- The properties of an object, each on a line of its own. -/
def prettyFields (gap current : List UInt16) : List (List UInt16 × JsonValue) → List UInt16
  | [] => []
  | [(key, value)] => encode (quote key) ++ unit ':' :: unit ' ' :: pretty gap current value
  | (key, value) :: fields =>
    encode (quote key) ++ unit ':' :: unit ' ' :: (pretty gap current value ++
      unit ',' :: unit '\n' :: (current ++ prettyFields gap current fields))

end

/-! ## Empty containers -/

theorem isEmpty_iff {out p : List UInt16} : isEmpty out p = true ↔ unit '\n' :: p <:+ out := by
  rw [isEmpty, Bool.and_eq_true, Bool.and_eq_true, decide_eq_true_eq, beq_iff_eq,
    isSuffixOf_iff_suffix]
  constructor
  · rintro ⟨⟨hlength, hunit⟩, before, rfl⟩
    rw [length_append] at hlength hunit
    -- the unit in question is the last one before the pad
    have hne : before ≠ [] := by
      rintro rfl
      rw [length_nil] at hlength
      omega
    obtain ⟨before, u, rfl⟩ := eq_nil_or_concat' before |>.resolve_left hne
    have hplace : (before ++ [u]).length + p.length - (1 + p.length) = before.length := by
      rw [length_append, length_singleton]
      omega
    rw [hplace, append_assoc, getElem?_append_right (Nat.le_refl _), Nat.sub_self] at hunit
    cases hunit
    exact ⟨before, (append_assoc before [unit '\n'] p).symm⟩
  · rintro ⟨before, rfl⟩
    refine ⟨⟨?_, ?_⟩, ⟨before ++ [unit '\n'], append_assoc _ _ _⟩⟩
    · rw [length_append, length_cons]
      omega
    · have hplace : (before ++ unit '\n' :: p).length - (1 + p.length) = before.length := by
        rw [length_append, length_cons]
        omega
      rw [hplace, getElem?_append_right (Nat.le_refl _), Nat.sub_self]
      rfl

/-- The output is in a line that has more than its indent. -/
def Inked (p out : List UInt16) : Prop :=
  ∃ before text, out = before ++ (unit '\n' :: p ++ text) ∧ text ≠ [] ∧ unit '\n' ∉ text

/-- What follows the indent cannot be taken for a newline and the indent, even if the indent has
newlines in it: there are as many in the one as in the other, and the other begins with one. -/
theorem Inked.isEmpty_eq {p out : List UInt16} (h : Inked p out) : isEmpty out p = false := by
  obtain ⟨before, text, rfl, htext, hnewline⟩ := h
  rw [Bool.eq_false_iff]
  intro hempty
  obtain ⟨start, heq⟩ := isEmpty_iff.1 hempty
  rw [← append_assoc] at heq
  have hcount : text.count (unit '\n') = 0 := count_eq_zero.2 hnewline
  have hpos : 0 < text.length := length_pos_iff.2 htext
  rcases Nat.lt_or_ge text.length (unit '\n' :: p).length with hshort | hlong
  · -- the line ends with a proper part of the newline and the indent
    obtain ⟨part, hpart⟩ := suffix_of_suffix_length_le ⟨_, rfl⟩ ⟨start, heq⟩
      (Nat.le_of_lt hshort)
    have hends : start ++ part = before ++ unit '\n' :: p := by
      rw [← append_cancel_right_eq _ text, append_assoc, hpart]
      exact heq
    have hless : part.length < (unit '\n' :: p).length := by
      rw [← hpart, length_append]
      omega
    obtain ⟨front, hfront⟩ := suffix_of_suffix_length_le ⟨start, hends⟩ ⟨before, rfl⟩
      (Nat.le_of_lt hless)
    have hcounts : front.count (unit '\n') = 0 := by
      have h₁ := congrArg (count (unit '\n')) hpart
      have h₂ := congrArg (count (unit '\n')) hfront
      rw [count_append] at h₁ h₂
      omega
    cases front with
    | nil =>
      rw [nil_append] at hfront
      rw [hfront] at hless
      exact Nat.lt_irrefl _ hless
    | cons u front =>
      rw [cons_append] at hfront
      rw [head_eq_of_cons_eq hfront] at hcounts
      exact count_eq_zero.1 hcounts mem_cons_self
  · have hsuffix := suffix_of_suffix_length_le ⟨start, heq⟩ ⟨_, rfl⟩ hlong
    exact hnewline (hsuffix.subset mem_cons_self)

/-! ## One part after another -/

theorem pad_length (indent : List UInt16) (depth : Nat) :
    (pad indent depth).length = depth * indent.length := by
  induction depth with
  | zero => simp [pad]
  | succ depth ih => rw [pad, length_append, ih, Nat.succ_mul]

/-- A part of the text takes one state to another, or the output gets too long on the way: longer
than it is in the end and `slack` together. -/
structure Leads (indent : List UInt16) (slack : Nat) (text : List UInt16) (s s' : ReindentState) :
    Prop where
  length : s.out.length ≤ s'.out.length
  run : ∀ rest, reindentFrom indent (text ++ rest) s = reindentFrom indent rest s' ∨
    reindentFrom indent (text ++ rest) s = .error .stringLimit ∧
      maxStringLen < s'.out.length + slack

section

variable {indent : List UInt16} {slack : Nat} {a b : List UInt16} {s s' s'' : ReindentState}

theorem leads_nil (indent : List UInt16) (slack : Nat) (s : ReindentState) :
    Leads indent slack [] s s := ⟨Nat.le_refl _, fun _ => .inl rfl⟩

theorem Leads.trans (h : Leads indent slack a s s') (h' : Leads indent slack b s' s'') :
    Leads indent slack (a ++ b) s s'' := by
  refine ⟨Nat.le_trans h.length h'.length, fun rest => ?_⟩
  rw [append_assoc]
  rcases h.run (b ++ rest) with hrun | ⟨hrun, hlong⟩
  · rw [hrun]
    exact h'.run rest
  · exact .inr ⟨hrun, Nat.lt_of_lt_of_le hlong (Nat.add_le_add_right h'.length _)⟩

theorem leads_unit {u : UInt16} (hu : (isHigh u || isLow u) = false)
    (hlength : s.out.length ≤ (s.step indent u).out.length) :
    Leads indent slack [u] s (s.step indent u) := by
  refine ⟨hlength, fun rest => ?_⟩
  rw [singleton_append, reindentFrom, if_neg (by rw [hu]; exact Bool.false_ne_true)]
  by_cases hlong : maxStringLen < s.out.length
  · rw [if_pos hlong]
    exact .inr ⟨rfl, by omega⟩
  · rw [if_neg hlong]
    exact .inl rfl

/-- A state outside of strings. -/
abbrev outside (out : List UInt16) (depth : Nat) : ReindentState := ⟨out, depth, false, false⟩

/-- A state in a string. -/
abbrev inside (out : List UInt16) (depth : Nat) (escaped : Bool) : ReindentState :=
  ⟨out, depth, true, escaped⟩

/-- A unit that is copied, with what it does to the state. -/
theorem leads_copy {u : UInt16} {out : List UInt16} (hout : s.out = out)
    (hu : (isHigh u || isLow u) = false) (hstep : s.step indent u = s')
    (hs' : s'.out = out ++ [u]) : Leads indent slack [u] s s' := by
  rw [← hstep]
  refine leads_unit hu ?_
  rw [hstep, hs', hout, length_append]
  exact Nat.le_add_right _ _

/-- A unit of a string that is neither a quote nor a backslash. -/
abbrev Body (u : UInt16) : Prop := u ≠ unit '"' ∧ u ≠ unit '\\'

theorem leads_body {text : List UInt16} (h : ∀ u ∈ text, Body u) (out : List UInt16) (depth : Nat) :
    Leads indent slack text (inside out depth false) (inside (out ++ text) depth false) := by
  induction text generalizing out with
  | nil =>
    rw [append_nil]
    exact leads_nil indent slack _
  | cons u text ih =>
    obtain ⟨hu, hrest⟩ := forall_mem_cons.1 h
    have hfirst : Leads indent slack [u] (inside out depth false)
        (inside (out ++ [u]) depth false) := by
      by_cases hsurrogate : (isHigh u || isLow u) = true
      · refine ⟨by simp, fun rest => .inl ?_⟩
        rw [singleton_append, reindentFrom, if_pos hsurrogate]
      · refine leads_copy rfl (by simpa using hsurrogate) ?_ rfl
        simp only [ReindentState.step, if_true, Bool.false_eq_true, if_false, if_neg hu.1,
          if_neg hu.2]
    have h' := hfirst.trans (ih hrest (out ++ [u]))
    rwa [append_assoc] at h'

/-- A backslash, and what it escapes. -/
theorem leads_escape {u : UInt16} (hu : (isHigh u || isLow u) = false) (out : List UInt16)
    (depth : Nat) :
    Leads indent slack [unit '\\', u] (inside out depth false)
      (inside (out ++ [unit '\\', u]) depth false) := by
  have hslash : Leads indent slack [unit '\\'] (inside out depth false)
      (inside (out ++ [unit '\\']) depth true) :=
    leads_copy rfl (by decide) rfl rfl
  have hescaped : Leads indent slack [u] (inside (out ++ [unit '\\']) depth true)
      (inside (out ++ [unit '\\'] ++ [u]) depth false) := leads_copy rfl hu rfl rfl
  have h := hslash.trans hescaped
  rwa [append_assoc] at h

end

/-! ## Words, numbers and strings -/

theorem mem_encodeUtf16 {c : Char} {u : UInt16} (h : u ∈ encodeUtf16 c) :
    c.toNat < 0x10000 ∧ u.toNat = c.toNat ∨ 0x10000 ≤ c.toNat ∧ 0xD800 ≤ u.toNat := by
  have hc : c.toNat < 0x110000 := by
    rcases char_cases c with h | h <;> omega
  unfold encodeUtf16 at h
  split at h
  · next hsmall =>
      rw [mem_singleton] at h
      rw [h, UInt16.toNat_ofNat']
      exact .inl ⟨hsmall, Nat.mod_eq_of_lt hsmall⟩
  · next hlarge =>
      refine .inr ⟨Nat.le_of_not_lt hlarge, ?_⟩
      rcases mem_cons.1 h with rfl | h
      · rw [UInt16.toNat_ofNat']
        omega
      · rw [mem_singleton.1 h, UInt16.toNat_ofNat']
        omega

theorem unit_toNat {c : Char} (hc : c.toNat < 0xD800) : (unit c).toNat = c.toNat := by
  rw [unit, UInt16.toNat_ofNat']
  omega

/-- Of the units of a text, only the character itself has that unit. -/
theorem unit_notMem_encode {c : Char} (hc : c.toNat < 0xD800) {text : List Char}
    (h : c ∉ text) : unit c ∉ encode text := by
  intro hmem
  obtain ⟨d, hd, hu⟩ := mem_flatMap.1 hmem
  rcases mem_encodeUtf16 hu with ⟨-, heq⟩ | ⟨-, hle⟩
  · rw [unit_toNat hc] at heq
    rw [Char.toNat_inj.1 heq] at h
    exact h hd
  · rw [unit_toNat hc] at hle
    omega

/-- The characters that `reindent` looks at, and the newline. -/
def special : List Char := ['"', '{', '[', '}', ']', ',', ':', '\n']

/-- A text outside of strings that is copied. -/
structure Plain (text : List Char) : Prop where
  ascii : ∀ c ∈ text, c.toNat < 0xD800
  special : ∀ c ∈ text, c ∉ special

/-- A check of a text, character by character. -/
theorem plain_of_all {text : List Char}
    (h : text.all (fun c => decide (c.toNat < 0xD800) && !special.contains c) = true) :
    Plain text := by
  rw [all_eq_true] at h
  refine ⟨fun c hc => ?_, fun c hc hspecial => ?_⟩
  · exact of_decide_eq_true (Bool.and_eq_true_iff.1 (h c hc)).1
  · have hnone := (Bool.and_eq_true_iff.1 (h c hc)).2
    rw [contains_iff_mem.2 hspecial] at hnone
    cases hnone

theorem plain_number (bits : UInt64) : Plain (NumberText.numberText bits) := by
  have hnone : special.all (fun c => isNumberChar c = false) = true := by decide
  refine ⟨fun c hc => ?_, fun c hc hspecial => ?_⟩
  · have hnumber := numberChars_numberText bits c hc
    simp only [isNumberChar, Bool.or_eq_true, decide_eq_true_eq] at hnumber
    rcases hnumber with ((((hdigit | rfl) | rfl) | rfl) | rfl) | rfl
    · have hle : c.toNat ≤ '9'.toNat := (Char.isDigit_iff_toNat.1 hdigit).2
      exact Nat.lt_of_le_of_lt hle (by decide)
    all_goals decide
  · have hnumber := numberChars_numberText bits c hc
    rw [of_decide_eq_true (all_eq_true.1 hnone c hspecial)] at hnumber
    cases hnumber

section

variable {indent : List UInt16} {slack : Nat} {out : List UInt16} {depth : Nat}

theorem leads_plain {text : List Char} (h : Plain text) :
    Leads indent slack (encode text) (outside out depth) (outside (out ++ encode text) depth) := by
  have hsurrogate : ∀ u ∈ encode text, (isHigh u || isLow u) = false := by
    intro u hu
    obtain ⟨c, hc, hcu⟩ := mem_flatMap.1 hu
    have hascii := h.ascii c hc
    rcases mem_encodeUtf16 hcu with ⟨-, heq⟩ | ⟨hle, -⟩
    · simp only [isHigh, isLow, Bool.or_eq_false_iff, Bool.and_eq_false_iff,
        decide_eq_false_iff_not]
      omega
    · omega
  have hascii : special.all (fun c => c.toNat < 0xD800) = true := by decide
  have hspecial : ∀ c ∈ special, unit c ∉ encode text := fun c hc =>
    unit_notMem_encode (of_decide_eq_true (all_eq_true.1 hascii c hc)) fun hmem =>
      h.special c hmem hc
  generalize encode text = units at hsurrogate hspecial
  induction units generalizing out with
  | nil =>
    rw [append_nil]
    exact leads_nil indent slack _
  | cons u units ih =>
    obtain ⟨hu, hrest⟩ := forall_mem_cons.1 hsurrogate
    have hne : ∀ c ∈ special, u ≠ unit c := fun c hc heq =>
      hspecial c hc (heq ▸ mem_cons_self)
    simp only [special, forall_mem_cons] at hne
    obtain ⟨hquote, hbrace, hbracket, hcloseBrace, hcloseBracket, hcomma, hcolon, -⟩ := hne
    have hfirst : Leads indent slack [u] (outside out depth) (outside (out ++ [u]) depth) := by
      refine leads_copy rfl hu ?_ rfl
      simp only [ReindentState.step, Bool.false_eq_true, if_false, if_neg hquote, hbrace,
        hbracket, hcloseBrace, hcloseBracket, or_self, if_neg hcomma, if_neg hcolon]
    have hunits : Leads indent slack units (outside (out ++ [u]) depth)
        (outside (out ++ [u] ++ units) depth) :=
      ih hrest fun c hc hmem => hspecial c hc (mem_cons_of_mem _ hmem)
    have h' := hfirst.trans hunits
    rwa [append_assoc] at h'

theorem hex_body {n : Nat} (hn : n < 16) : ∀ u ∈ encodeUtf16 (hexLower n), Body u := by
  have hall : ∀ n < 16, (encodeUtf16 (hexLower n)).all (fun u => Body u) = true := by decide
  exact fun u hu => of_decide_eq_true (all_eq_true.1 (hall n hn) u hu)

theorem leads_unicodeEscape (u : UInt16) :
    Leads indent slack (encode (unicodeEscape u)) (inside out depth false)
      (inside (out ++ encode (unicodeEscape u)) depth false) := by
  have hu : u.toNat < 65536 := u.toNat_lt
  have hdigits : ∀ v ∈ encode [hexLower (u.toNat / 4096), hexLower (u.toNat / 256 % 16),
      hexLower (u.toNat / 16 % 16), hexLower (u.toNat % 16)], Body v := by
    intro v hv
    simp only [encode, flatMap_cons, flatMap_nil, mem_append, append_nil] at hv
    rcases hv with hv | hv | hv | hv <;> exact hex_body (by omega) v hv
  have hescape : Leads indent slack [unit '\\', unit 'u'] (inside out depth false) _ :=
    leads_escape (by decide) out depth
  have h := hescape.trans (leads_body hdigits _ depth)
  rw [append_assoc] at h
  rw [unicodeEscape, encode_unit (by decide), encode_unit (by decide)]
  exact h

theorem leads_quoteChar (decoded : Except UInt16 Char) :
    Leads indent slack (encode (quoteChar decoded)) (inside out depth false)
      (inside (out ++ encode (quoteChar decoded)) depth false) := by
  cases decoded with
  | error u => exact leads_unicodeEscape u
  | ok c =>
    have hescaped : ∀ e : Char, e.toNat < 0xD800 →
        Leads indent slack (encode ['\\', e]) (inside out depth false)
          (inside (out ++ encode ['\\', e]) depth false) := by
      intro e he
      rw [encode_unit (by decide), encode_unit he]
      refine leads_escape ?_ out depth
      simp only [isHigh, isLow, unit_toNat he, Bool.or_eq_false_iff, Bool.and_eq_false_iff,
        decide_eq_false_iff_not]
      omega
    rw [quoteChar]
    split_ifs with h₁ h₂ h₃ h₄ h₅ h₆ h₇ h₈
    · exact hescaped _ (by decide)
    · exact hescaped _ (by decide)
    · exact hescaped _ (by decide)
    · exact hescaped _ (by decide)
    · exact hescaped _ (by decide)
    · exact hescaped _ (by decide)
    · exact hescaped _ (by decide)
    · exact leads_unicodeEscape _
    · refine leads_body (fun u hu => ⟨?_, ?_⟩) out depth
      · rintro rfl
        exact unit_notMem_encode (by decide) (by simpa using Ne.symm h₁) hu
      · rintro rfl
        exact unit_notMem_encode (by decide) (by simpa using Ne.symm h₂) hu

/-- A string is copied. -/
theorem leads_quote (units : List UInt16) :
    Leads indent slack (encode (quote units)) (outside out depth)
      (outside (out ++ encode (quote units)) depth) := by
  have hitems : ∀ (items : List (Except UInt16 Char)) (out : List UInt16),
      Leads indent slack (encode (items.flatMap quoteChar)) (inside out depth false)
        (inside (out ++ encode (items.flatMap quoteChar)) depth false) := by
    intro items
    induction items with
    | nil =>
      intro out
      rw [flatMap_nil, encode, flatMap_nil, append_nil]
      exact leads_nil indent slack _
    | cons item items ih =>
      intro out
      rw [flatMap_cons, encode_append, ← append_assoc]
      exact (leads_quoteChar item).trans (ih _)
  have hopen : Leads indent slack [unit '"'] (outside out depth)
      (inside (out ++ [unit '"']) depth false) := leads_copy rfl (by decide) rfl rfl
  have hclose : ∀ out, Leads indent slack [unit '"'] (inside out depth false)
      (outside (out ++ [unit '"']) depth) := fun out => leads_copy rfl (by decide) rfl rfl
  have h := (hopen.trans (hitems (decodeUtf16 units) _)).trans (hclose _)
  simp only [append_assoc, cons_append, nil_append] at h
  rw [quote, quoteRest, encode_unit (by decide), encode_append, encode_unit (by decide)]
  exact h

end

/-! ## Containers -/

section

variable {indent : List UInt16} {slack : Nat} {out : List UInt16} {depth : Nat}

variable {c : Char} {p gap : List UInt16}

/-- A bracket opens, and a line begins. -/
theorem leads_open (hc : c = '{' ∨ c = '[') :
    Leads indent slack [unit c] (outside out depth)
      (outside (out ++ unit c :: unit '\n' :: pad indent (depth + 1)) (depth + 1)) := by
  have hlength : out.length ≤ (out ++ unit c :: unit '\n' :: pad indent (depth + 1)).length := by
    simp
  rcases hc with rfl | rfl
  · exact leads_unit rfl hlength
  · exact leads_unit rfl hlength

/-- A bracket closes, on a line of its own. -/
theorem leads_close {c : Char} (hc : c = '}' ∨ c = ']') (h : Inked (pad indent (depth + 1)) out) :
    Leads indent slack [unit c] (outside out (depth + 1))
      (outside (out ++ unit '\n' :: (pad indent depth ++ [unit c])) depth) := by
  have hstep : (outside out (depth + 1)).step indent (unit c) =
      outside (out ++ unit '\n' :: (pad indent depth ++ [unit c])) depth := by
    have hne : unit c ≠ unit '"' ∧ ¬ (unit c = unit '{' ∨ unit c = unit '[') ∧
        (unit c = unit '}' ∨ unit c = unit ']') := by
      rcases hc with rfl | rfl <;> decide
    simp only [ReindentState.step, Bool.false_eq_true, if_false, if_neg hne.1, if_neg hne.2.1,
      if_pos hne.2.2, Nat.add_sub_cancel, h.isEmpty_eq]
  rw [← hstep]
  refine leads_unit ?_ (by rw [hstep]; simp)
  rcases hc with rfl | rfl <;> decide

/-- Brackets with nothing between them: the line that begins after the first is taken back. -/
theorem leads_empty {c' : Char} (hc : c = '{' ∧ c' = '}' ∨ c = '[' ∧ c' = ']')
    (hslack : (pad indent (depth + 1)).length ≤ slack) :
    Leads indent slack [unit c, unit c'] (outside out depth)
      (outside (out ++ [unit c, unit c']) depth) := by
  have hopened : isEmpty (out ++ unit c :: unit '\n' :: pad indent (depth + 1))
      (pad indent (depth + 1)) = true :=
    isEmpty_iff.2 ⟨out ++ [unit c], append_assoc _ _ _⟩
  have htake : (out ++ unit c :: unit '\n' :: pad indent (depth + 1)).take
      ((out ++ unit c :: unit '\n' :: pad indent (depth + 1)).length -
        (1 + (pad indent (depth + 1)).length)) = out ++ [unit c] := by
    have hsplit : out ++ unit c :: unit '\n' :: pad indent (depth + 1) =
        (out ++ [unit c]) ++ unit '\n' :: pad indent (depth + 1) := by simp
    rw [hsplit]
    refine take_left' ?_
    simp only [length_append, length_cons, length_nil]
    omega
  have hfirst : (outside out depth).step indent (unit c) =
      outside (out ++ unit c :: unit '\n' :: pad indent (depth + 1)) (depth + 1) := by
    rcases hc with ⟨rfl, -⟩ | ⟨rfl, -⟩ <;> rfl
  have hsecond : (outside (out ++ unit c :: unit '\n' :: pad indent (depth + 1)) (depth + 1)).step
      indent (unit c') = outside (out ++ [unit c, unit c']) depth := by
    have hne : unit c' ≠ unit '"' ∧ ¬ (unit c' = unit '{' ∨ unit c' = unit '[') ∧
        (unit c' = unit '}' ∨ unit c' = unit ']') := by
      rcases hc with ⟨-, rfl⟩ | ⟨-, rfl⟩ <;> decide
    simp only [ReindentState.step, Bool.false_eq_true, if_false, if_neg hne.1, if_neg hne.2.1,
      if_pos hne.2.2, Nat.add_sub_cancel, hopened, if_true, htake, append_assoc]
    rfl
  have hplain : (isHigh (unit c) || isLow (unit c)) = false ∧
      (isHigh (unit c') || isLow (unit c')) = false := by
    rcases hc with ⟨rfl, rfl⟩ | ⟨rfl, rfl⟩ <;> decide
  refine ⟨by simp, fun rest => ?_⟩
  simp only [cons_append, nil_append, reindentFrom, hplain.1, hplain.2,
    Bool.false_eq_true, if_false, hfirst, hsecond]
  split_ifs with hlong hlong'
  · exact .inr ⟨rfl, by simp only [length_append]; omega⟩
  · refine .inr ⟨rfl, ?_⟩
    simp only [length_append, length_cons, length_nil] at hlong' ⊢
    omega
  · exact .inl rfl

/-- The output is in a line that begins with its indent. -/
def Lined (p out : List UInt16) : Prop :=
  ∃ before text, out = before ++ (unit '\n' :: p ++ text) ∧ unit '\n' ∉ text

theorem Lined.inked {out text : List UInt16} (h : Lined p out) (hne : text ≠ [])
    (hnewline : unit '\n' ∉ text) : Inked p (out ++ text) := by
  obtain ⟨before, old, rfl, hold⟩ := h
  refine ⟨before, old ++ text, by simp only [append_assoc], ?_, ?_⟩
  · exact fun h => hne (append_eq_nil_iff.1 h).2
  · exact fun h => (mem_append.1 h).elim hold hnewline

/-- A line begins. -/
theorem lined_newline (p out : List UInt16) : Lined p (out ++ unit '\n' :: p) :=
  ⟨out, [], by rw [append_nil], not_mem_nil⟩

theorem newline_quoteChar (decoded : Except UInt16 Char) : '\n' ∉ quoteChar decoded := by
  have hhex : ∀ n < 16, hexLower n ≠ '\n' := by decide
  have hescape : ∀ u, '\n' ∉ unicodeEscape u := by
    intro u hmem
    have hu : u.toNat < 65536 := u.toNat_lt
    simp only [unicodeEscape, mem_cons, not_mem_nil, or_false] at hmem
    rcases hmem with h | h | h | h | h | h
    · exact absurd h (by decide)
    · exact absurd h (by decide)
    all_goals exact hhex _ (by omega) h.symm
  cases decoded with
  | error u => exact hescape u
  | ok c =>
    rw [quoteChar]
    split_ifs with h₁ h₂ h₃ h₄ h₅ h₆ h₇ h₈
    any_goals decide
    · exact hescape _
    · rw [mem_singleton]
      rintro rfl
      exact h₅ rfl

theorem newline_quote (units : List UInt16) : unit '\n' ∉ encode (quote units) := by
  refine unit_notMem_encode (by decide) ?_
  simp only [quote, quoteRest, mem_cons, mem_append, mem_flatMap, not_or]
  refine ⟨by decide, ?_, by decide, not_mem_nil⟩
  rintro ⟨decoded, -, hmem⟩
  exact newline_quoteChar decoded hmem

theorem newline_plain {text : List Char} (h : Plain text) : unit '\n' ∉ encode text :=
  unit_notMem_encode (by decide) fun hmem => h.special _ hmem (by decide)

theorem plain_null : Plain ['n', 'u', 'l', 'l'] := plain_of_all (by decide)

/-- A value without a container, in one line. -/
theorem plain_stringify {value : JsonValue} (harray : ∀ items, value ≠ .array items)
    (hobject : ∀ fields, value ≠ .object fields) (hstring : ∀ units, value ≠ .string units) :
    Plain (stringify value) := by
  cases value with
  | null => exact plain_null
  | bool b => cases b <;> exact plain_of_all (by decide)
  | number bits =>
    rw [stringify]
    split
    · exact plain_number bits
    · exact plain_null
  | string units => exact absurd rfl (hstring units)
  | array items => exact absurd rfl (harray items)
  | object fields => exact absurd rfl (hobject fields)

/-- A line of a container's end has more than its indent. -/
theorem inked_last (out : List UInt16) {u : UInt16} (hu : unit '\n' ≠ u) :
    Inked p (out ++ unit '\n' :: (p ++ [u])) :=
  ⟨out, [u], rfl, cons_ne_nil _ _, fun h => hu (mem_singleton.1 h)⟩

theorem encode_ne_nil {text : List Char} (h : text ≠ []) : encode text ≠ [] := by
  cases text with
  | nil => exact absurd rfl h
  | cons c text =>
    rw [encode_cons]
    intro hnil
    have hc := (append_eq_nil_iff.1 hnil).1
    unfold encodeUtf16 at hc
    split at hc <;> cases hc

theorem stringify_ne_nil (value : JsonValue) : stringify value ≠ [] :=
  length_pos_iff.1 (stringify_length_pos value)

/-- After a value, the output is in a line that has more than its indent. -/
theorem inked_pretty (value : JsonValue) (h : Lined p out) :
    Inked p (out ++ pretty gap p value) := by
  have htext : (∀ gap p, pretty gap p value = encode (stringify value)) →
      unit '\n' ∉ encode (stringify value) → Inked p (out ++ pretty gap p value) := by
    intro hpretty hnewline
    rw [hpretty]
    exact h.inked (encode_ne_nil (stringify_ne_nil value)) hnewline
  cases value with
  | array items =>
    cases items with
    | nil =>
      rw [pretty]
      exact h.inked (cons_ne_nil _ _) (by decide)
    | cons item items =>
      have hlast := inked_last (p := p) (out ++ unit '[' :: unit '\n' :: (p ++ gap ++
        prettyItems gap (p ++ gap) (item :: items))) (u := unit ']') (by decide)
      rw [pretty]
      · simpa only [append_assoc, cons_append] using hlast
      · nofun
  | object fields =>
    cases fields with
    | nil =>
      rw [pretty]
      exact h.inked (cons_ne_nil _ _) (by decide)
    | cons field fields =>
      have hlast := inked_last (p := p) (out ++ unit '{' :: unit '\n' :: (p ++ gap ++
        prettyFields gap (p ++ gap) (field :: fields))) (u := unit '}') (by decide)
      rw [pretty]
      · simpa only [append_assoc, cons_append] using hlast
      · nofun
  | string units => exact htext (fun gap p => by rw [pretty] <;> nofun) (newline_quote units)
  | null | bool b | number bits =>
    exact htext (fun gap p => by rw [pretty] <;> nofun)
      (newline_plain (plain_stringify nofun nofun nofun))

theorem inked_prettyItems {items : List JsonValue} (hne : items ≠ []) (h : Lined p out) :
    Inked p (out ++ prettyItems gap p items) := by
  induction items generalizing out with
  | nil => exact absurd rfl hne
  | cons item items ih =>
    cases items with
    | nil => exact inked_pretty item h
    | cons next items =>
      have hnext := ih (cons_ne_nil _ _)
        (lined_newline p (out ++ pretty gap p item ++ [unit ',']))
      rw [prettyItems]
      · simpa only [append_assoc, cons_append, nil_append] using hnext
      · nofun

theorem inked_prettyFields {fields : List (List UInt16 × JsonValue)} (hne : fields ≠ [])
    (h : Lined p out) : Inked p (out ++ prettyFields gap p fields) := by
  induction fields generalizing out with
  | nil => exact absurd rfl hne
  | cons field fields ih =>
    obtain ⟨key, value⟩ := field
    have hkey : Lined p (out ++ (encode (quote key) ++ [unit ':', unit ' '])) := by
      obtain ⟨before, old, rfl, hold⟩ := h
      refine ⟨before, old ++ (encode (quote key) ++ [unit ':', unit ' ']), ?_, ?_⟩
      · simp only [append_assoc]
      · simp only [mem_append, not_or]
        exact ⟨hold, newline_quote key, by decide⟩
    cases fields with
    | nil =>
      have hvalue : Inked p (out ++ (encode (quote key) ++ [unit ':', unit ' ']) ++
        pretty gap p value) := inked_pretty value hkey
      rw [prettyFields]
      simpa only [append_assoc, cons_append, nil_append] using hvalue
    | cons next fields =>
      have hnext := ih (cons_ne_nil _ _) (lined_newline p (out ++
        (encode (quote key) ++ [unit ':', unit ' ']) ++ pretty gap p value ++ [unit ',']))
      rw [prettyFields]
      · simpa only [append_assoc, cons_append, nil_append] using hnext
      · nofun

/-! ## Values -/

theorem leads_comma : Leads indent slack [unit ','] (outside out depth)
    (outside (out ++ unit ',' :: unit '\n' :: pad indent depth) depth) :=
  leads_unit rfl (show out.length ≤ (out ++ _).length by simp)

theorem leads_colon : Leads indent slack [unit ':'] (outside out depth)
    (outside (out ++ [unit ':', unit ' ']) depth) :=
  leads_unit rfl (show out.length ≤ (out ++ _).length by simp)

/-- A container with something in it. -/
theorem leads_container {c' : Char} (hc : c = '{' ∨ c = '[') (hc' : c' = '}' ∨ c' = ']')
    {text inner : List UInt16}
    (htext : ∀ out, Leads indent slack text (outside out (depth + 1))
      (outside (out ++ inner) (depth + 1)))
    (hinked : ∀ out, Lined (pad indent (depth + 1)) out →
      Inked (pad indent (depth + 1)) (out ++ inner)) :
    Leads indent slack (unit c :: (text ++ [unit c'])) (outside out depth)
      (outside (out ++ unit c :: unit '\n' :: (pad indent depth ++ indent ++ (inner ++
        unit '\n' :: (pad indent depth ++ [unit c'])))) depth) := by
  have hline : Lined (pad indent (depth + 1))
      (out ++ unit c :: unit '\n' :: pad indent (depth + 1)) := by
    have h := lined_newline (pad indent (depth + 1)) (out ++ [unit c])
    rwa [append_assoc] at h
  have h := (leads_open hc).trans ((htext _).trans (leads_close hc' (hinked _ hline)))
  simpa only [pad, append_assoc, cons_append, nil_append] using h

mutual

theorem leads_value (value : JsonValue) (out : List UInt16) (depth : Nat)
    (hslack : (depth + height value + 1) * indent.length ≤ slack) :
    Leads indent slack (encode (stringify value)) (outside out depth)
      (outside (out ++ pretty indent (pad indent depth) value) depth) := by
  match value with
  | .null | .bool _ | .number _ =>
    rw [pretty]
    · exact leads_plain (plain_stringify nofun nofun nofun)
    all_goals nofun
  | .string units =>
    rw [pretty]
    · exact leads_quote units
    all_goals nofun
  | .array [] =>
    rw [pretty]
    refine leads_empty (.inr ⟨rfl, rfl⟩) ?_
    rw [pad_length]
    exact hslack
  | .object [] =>
    rw [pretty]
    refine leads_empty (.inl ⟨rfl, rfl⟩) ?_
    rw [pad_length]
    exact hslack
  | .array (item :: items) =>
    rw [height] at hslack
    rw [pretty, stringify, encode_unit (by decide), encode_append, encode_unit (by decide)]
    · refine leads_container (.inr rfl) (.inr rfl) (fun out => ?_) fun out hline =>
        inked_prettyItems (cons_ne_nil _ _) hline
      refine leads_items (item :: items) (cons_ne_nil _ _) out (depth + 1) ?_
      rwa [Nat.add_right_comm]
    · nofun
  | .object (field :: fields) =>
    rw [height] at hslack
    rw [pretty, stringify, encode_unit (by decide), encode_append, encode_unit (by decide)]
    · refine leads_container (.inl rfl) (.inl rfl) (fun out => ?_) fun out hline =>
        inked_prettyFields (cons_ne_nil _ _) hline
      refine leads_fields (field :: fields) (cons_ne_nil _ _) out (depth + 1) ?_
      rwa [Nat.add_right_comm]
    · nofun

theorem leads_items (items : List JsonValue) (hne : items ≠ []) (out : List UInt16) (depth : Nat)
    (hslack : (depth + heightItems items) * indent.length ≤ slack) :
    Leads indent slack (encode (stringifyItems items)) (outside out depth)
      (outside (out ++ prettyItems indent (pad indent depth) items) depth) := by
  match items with
  | [] => exact absurd rfl hne
  | item :: items =>
    rw [heightItems] at hslack
    have hitem := leads_value item out depth (Nat.le_trans (Nat.mul_le_mul_right _ (by omega))
      hslack)
    match items with
    | [] => exact hitem
    | next :: items =>
      have hrest := leads_items (next :: items) (cons_ne_nil _ _)
        (out ++ pretty indent (pad indent depth) item ++ unit ',' :: unit '\n' ::
          pad indent depth) depth (Nat.le_trans (Nat.mul_le_mul_right _ (by omega)) hslack)
      have h := (hitem.trans leads_comma).trans hrest
      rw [stringifyItems_cons, prettyItems, encode_append, encode_unit (by decide)]
      · simpa only [append_assoc, cons_append, nil_append] using h
      · nofun

theorem leads_fields (fields : List (List UInt16 × JsonValue)) (hne : fields ≠ [])
    (out : List UInt16) (depth : Nat)
    (hslack : (depth + heightFields fields) * indent.length ≤ slack) :
    Leads indent slack (encode (stringifyFields fields)) (outside out depth)
      (outside (out ++ prettyFields indent (pad indent depth) fields) depth) := by
  match fields with
  | [] => exact absurd rfl hne
  | (key, value) :: fields =>
    rw [heightFields] at hslack
    have hkey : Leads indent slack (encode (quote key) ++ [unit ':']) (outside out depth)
        (outside (out ++ encode (quote key) ++ [unit ':', unit ' ']) depth) :=
      (leads_quote key).trans leads_colon
    have hvalue := hkey.trans (leads_value value _ depth (Nat.le_trans
      (Nat.mul_le_mul_right _ (by omega)) hslack))
    match fields with
    | [] =>
      rw [stringifyFields, prettyFields, encode_append, encode_unit (by decide)]
      simpa only [append_assoc, cons_append, nil_append] using hvalue
    | next :: fields =>
      have hrest := leads_fields (next :: fields) (cons_ne_nil _ _)
        (out ++ encode (quote key) ++ [unit ':', unit ' '] ++
          pretty indent (pad indent depth) value ++ unit ',' :: unit '\n' :: pad indent depth)
        depth
        (Nat.le_trans (Nat.mul_le_mul_right _ (by omega)) hslack)
      have h := (hvalue.trans leads_comma).trans hrest
      rw [stringifyFields_cons, prettyFields, encode_append, encode_unit (by decide),
        encode_append, encode_unit (by decide)]
      · simpa only [append_assoc, cons_append, nil_append] using h
      · nofun

end

end

/-- **The indented text is the prescribed one.**  Of what the serializer writes of a value, and an
indent of any units at all, `reindent` makes the text that the language prescribes, or ends with a
limit error; it does so only when the prescribed text is longer than the limit, or shorter by no
more than the indent that an empty container has before it is closed. -/
theorem reindent_eq_pretty (value : JsonValue) (indent : List UInt16) :
    (∀ compact, serialize value = .ok compact → compact = encode (stringify value)) ∧
      (reindent (encode (stringify value)) indent = .ok (pretty indent [] value) ∨
        reindent (encode (stringify value)) indent = .error .stringLimit ∧
          maxStringLen < (pretty indent [] value).length + (height value + 1) * indent.length) := by
  have h : Leads indent ((height value + 1) * indent.length) (encode (stringify value))
      (outside [] 0) (outside (pretty indent [] value) 0) :=
    leads_value value [] 0 (by rw [Nat.zero_add])
  have hrun := h.run []
  rw [List.append_nil] at hrun
  exact ⟨fun compact hcompact => (serialize_eq_ok.1 hcompact).2.1, hrun⟩

end NapiVm.JsonStringify
