import NapiVm.Json.Parser

/-!
# What the parser accepts

* `denote` — the value of a tree.
* `sound` — what is read is a tree, and its value.
* `value_complete` — a tree within the limits is read.
* `jsonParse_eq_ok` — what the parser accepts.
* `jsonParse_accepts_iff` — where that is JSON.
-/

namespace NapiVm.JsonParser

open JsString JsonText JsonGrammar List
open JsonStringify (maxStringLen maxJsonDepth JsonError encode_nil)

/-! ## What a tree denotes -/

section

variable (parseF64 : List Char → UInt64)

mutual

/-- The value of a tree. -/
def denote : Tree → JsonValue
  | .null => .null
  | .bool b => .bool b
  | .number lexeme => .number (parseF64 lexeme)
  | .string pieces => .string (units pieces)
  | .array items => .array (denoteItems items)
  | .object members => .object (denoteMembers [] members)

def denoteItems : List Tree → List JsonValue
  | [] => []
  | t :: ts => denote t :: denoteItems ts

/-- The members, put behind others. -/
def denoteMembers (props : List (List UInt16 × JsonValue)) :
    List (List Piece × Tree) → List (List UInt16 × JsonValue)
  | [] => props
  | (key, t) :: members => denoteMembers (put (units key) (denote t) props) members

end

end

mutual

/-- How many values are inside one another. -/
def levels : Tree → Nat
  | .array items => levelsItems items + 1
  | .object members => levelsMembers members + 1
  | _ => 1

def levelsItems : List Tree → Nat
  | [] => 0
  | t :: ts => max (levels t) (levelsItems ts)

def levelsMembers : List (List Piece × Tree) → Nat
  | [] => 0
  | (_, t) :: members => max (levels t) (levelsMembers members)

end

mutual

/-- How many items its arrays have. -/
def elements : Tree → Nat
  | .array items => elementsItems items
  | .object members => elementsMembers members
  | _ => 0

def elementsItems : List Tree → Nat
  | [] => 0
  | t :: ts => elements t + 1 + elementsItems ts

def elementsMembers : List (List Piece × Tree) → Nat
  | [] => 0
  | (_, t) :: members => elements t + elementsMembers members

end

mutual

/-- Every string of a tree passes the limit as it is checked. -/
def StringsFit : Tree → Prop
  | .string pieces => Fits pieces 0 []
  | .array items => stringsFitItems items
  | .object members => stringsFitMembers members
  | _ => True

def stringsFitItems : List Tree → Prop
  | [] => True
  | t :: ts => StringsFit t ∧ stringsFitItems ts

def stringsFitMembers : List (List Piece × Tree) → Prop
  | [] => True
  | (key, t) :: members => Fits key 0 [] ∧ StringsFit t ∧ stringsFitMembers members

end

/-- The keys, with another one. -/
def addKey (key : List UInt16) (keys : List (List UInt16)) : List (List UInt16) :=
  if key ∈ keys then keys else keys ++ [key]

mutual

/-- Before each member of an object, there are fewer properties than an object may have. -/
def MembersFit : Tree → Prop
  | .array items => membersFitItems items
  | .object members => membersFitMembers [] members
  | _ => True

def membersFitItems : List Tree → Prop
  | [] => True
  | t :: ts => MembersFit t ∧ membersFitItems ts

def membersFitMembers (keys : List (List UInt16)) : List (List Piece × Tree) → Prop
  | [] => True
  | (key, t) :: members => keys.length < maxObjectProps ∧ MembersFit t ∧
      membersFitMembers (addKey (units key) keys) members

end

/-- What the parser takes of a tree. -/
structure Accepted (t : Tree) : Prop where
  levels : levels t ≤ maxJsonDepth
  elements : elements t ≤ maxElements
  strings : StringsFit t
  members : MembersFit t

/-! ## Lemmas about the white space and the lengths -/

theorem skipSpace_encoded (x : List Item) :
    skipSpace (encoded x) = encoded (x.dropWhile spaceItem) := by
  induction x with
  | nil => rfl
  | cons i x ih =>
    cases i with
    | error u => rfl
    | ok c =>
      rw [encoded_ok, skipSpace]
      by_cases hc : isSpace c = true
      · rw [dropWhile_cons_of_pos hc,
          dropWhile_cons_of_pos (show spaceItem (.ok c) = true from hc)]
        exact ih
      · rw [dropWhile_cons_of_neg hc,
          dropWhile_cons_of_neg (show ¬ spaceItem (.ok c) = true from hc)]
        rfl

theorem skipSpace_ws {x y : List Item} (h : Ws x y) (hy : Inky y) :
    skipSpace (encoded x) = encoded y := by
  rw [skipSpace_encoded, h.dropWhile hy]

/-- What is behind the white space, when it is none of the rewriting. -/
theorem ws_of_skipSpace {x : List Item} {c : Char} {l : List Char}
    (h : skipSpace (encoded x) = c :: l) (hc : c ≠ '\\') :
    ∃ y, Ws x (.ok c :: y) ∧ l = encoded y := by
  rw [skipSpace_encoded] at h
  obtain ⟨y, heq, rfl⟩ := encoded_head h hc
  exact ⟨y, heq ▸ ws_dropWhile x, rfl⟩

theorem length_le_encoded (x : List Item) : x.length ≤ (encoded x).length := by
  induction x with
  | nil => exact Nat.le_refl _
  | cons i x ih =>
    cases i with
    | ok c => exact Nat.succ_le_succ ih
    | error u =>
      rw [encoded_error, length_append, length_cons]
      have : (unicodeEscape u).length = 6 := rfl
      omega

/-! ## What is parsed is a tree -/

section

variable {parseF64 : List Char → UInt64}

/-- What a tree takes of the limits, below so many levels. -/
structure Found (t : Tree) (depth remaining remaining' : Nat) : Prop where
  levels : levels t + depth ≤ maxJsonDepth
  elements : remaining = remaining' + elements t
  strings : StringsFit t
  members : MembersFit t

structure FoundItems (ts : List Tree) (depth remaining remaining' : Nat) : Prop where
  levels : levelsItems ts + depth ≤ maxJsonDepth
  elements : remaining = remaining' + elementsItems ts
  strings : stringsFitItems ts
  members : membersFitItems ts

structure FoundMembers (ms : List (List Piece × Tree)) (keys : List (List UInt16))
    (depth remaining remaining' : Nat) : Prop where
  levels : levelsMembers ms + depth ≤ maxJsonDepth
  elements : remaining = remaining' + elementsMembers ms
  strings : stringsFitMembers ms
  members : membersFitMembers keys ms

/-- A value that is read is the value of a tree. -/
def ValueSound (parseF64 : List Char → UInt64) (n : Nat) : Prop :=
  ∀ depth remaining x v remaining' l,
    value parseF64 n depth remaining (encoded x) = .ok (v, remaining', l) →
    ∃ t a y, Ws x a ∧ Writes t a y ∧ v = denote parseF64 t ∧ l = encoded y ∧
      Found t depth remaining remaining'

def ArraySound (parseF64 : List Char → UInt64) (n : Nat) : Prop :=
  ∀ depth remaining x items remaining' l,
    array parseF64 n depth remaining (encoded x) = .ok (items, remaining', l) →
    ∃ ts y, ts ≠ [] ∧ WritesItems ts x (.ok ']' :: y) ∧ items = denoteItems parseF64 ts ∧
      l = encoded y ∧ FoundItems ts depth remaining remaining'

def ObjectSound (parseF64 : List Char → UInt64) (n : Nat) : Prop :=
  ∀ depth remaining props x v remaining' l,
    object parseF64 n depth remaining props (encoded x) = .ok (v, remaining', l) →
    ∃ ms y, ms ≠ [] ∧ WritesMembers ms x (.ok '}' :: y) ∧
      v = .object (denoteMembers parseF64 props ms) ∧ l = encoded y ∧
      FoundMembers ms (props.map Prod.fst) depth remaining remaining'

theorem keys_put (key : List UInt16) (v : JsonValue) (props : List (List UInt16 × JsonValue)) :
    (put key v props).map Prod.fst = addKey key (props.map Prod.fst) := by
  induction props with
  | nil => rfl
  | cons p props ih =>
    simp only [put, addKey, map_cons, mem_cons]
    by_cases hp : p.1 = key
    · rw [if_pos hp, if_pos (.inl hp.symm), map_cons, hp]
    · rw [if_neg hp, map_cons, ih, addKey]
      by_cases hkey : key ∈ props.map Prod.fst
      · rw [if_pos hkey, if_pos (.inr hkey)]
      · rw [if_neg hkey, if_neg (by rintro (h | h); exacts [hp h.symm, hkey h])]
        rfl

variable {remaining n : Nat} {l word : List Char} {r : JsonValue × Nat × List Char} {x : List Item}

theorem checkedObject_eq_ok {props : List (List UInt16 × JsonValue)} :
    checkedObject props remaining l = .ok r ↔
      r = (.object props, remaining, l) ∧ props.length ≤ maxObjectProps := by
  rw [checkedObject]
  split
  · next hlong =>
      constructor
      · nofun
      · rintro ⟨-, h⟩
        omega
  · next hshort =>
      constructor
      · intro h
        cases h
        exact ⟨rfl, Nat.le_of_not_lt hshort⟩
      · rintro ⟨rfl, -⟩
        rfl

/-- Characters of which the rewriting makes none are found in the text as they are. -/
theorem encoded_scalars (h : encoded x = word ++ l) (hword : '\\' ∉ word) :
    ∃ y, x = scalars word ++ y ∧ l = encoded y := by
  induction word generalizing x with
  | nil => exact ⟨x, rfl, h.symm⟩
  | cons c word ih =>
    obtain ⟨hc, hword⟩ := not_or.1 (mt mem_cons.2 hword)
    obtain ⟨x, rfl, hx⟩ := encoded_head h (Ne.symm hc)
    obtain ⟨y, rfl, hy⟩ := ih hx.symm hword
    exact ⟨y, rfl, hy⟩

theorem literal_sound {v : JsonValue} (hword : '\\' ∉ word)
    (h : literal word v remaining (encoded x) = .ok r) :
    ∃ y, x = scalars word ++ y ∧ r = (v, remaining, encoded y) := by
  rw [literal] at h
  split at h
  · next hpre =>
      cases h
      obtain ⟨l, hl⟩ := List.isPrefixOf_iff_prefix.1 hpre
      obtain ⟨y, hx, rfl⟩ := encoded_scalars hl.symm hword
      exact ⟨y, hx, by rw [← hl, drop_left]⟩
  · cases h

/-- A value of one level, without a string. -/
theorem found_leaf {t : Tree} {depth : Nat} (remaining : Nat) (h : depth + 1 ≤ maxJsonDepth)
    (hlevels : levels t = 1) (helements : elements t = 0) (hstrings : StringsFit t)
    (hmembers : MembersFit t) : Found t depth remaining remaining :=
  ⟨by rw [hlevels, Nat.add_comm]; exact h, by rw [helements, Nat.add_zero], hstrings, hmembers⟩

theorem value_sound (harray : ArraySound parseF64 n) (hobject : ObjectSound parseF64 n) :
    ValueSound parseF64 (n + 1) := by
  intro depth remaining x v remaining' l h
  rw [value] at h
  split at h
  · cases h
  next hdepth =>
  have hdepth := Nat.le_of_not_lt hdepth
  split at h
  · next l₁ heq =>
      obtain ⟨x₁, hx, rfl⟩ := ws_of_skipSpace heq (by decide)
      split at h
      · next l₂ heq₂ =>
          obtain ⟨x₂, hx₂, rfl⟩ := ws_of_skipSpace heq₂ (by decide)
          rw [checkedObject_eq_ok] at h
          obtain ⟨h, -⟩ := h
          cases h
          exact ⟨.object [], _, x₂, hx, ⟨x₁, rfl, hx₂⟩, rfl, rfl,
            found_leaf remaining hdepth rfl rfl trivial trivial⟩
      · obtain ⟨ms, y, -, hms, rfl, rfl, hfound⟩ := hobject _ _ _ _ _ _ _ h
        refine ⟨.object ms, _, y, hx, ⟨x₁, rfl, hms⟩, rfl, rfl, ?_, hfound.elements,
          hfound.strings, hfound.members⟩
        have hlevels := hfound.levels
        rw [levels]
        omega
  · next l₁ heq =>
      obtain ⟨x₁, hx, rfl⟩ := ws_of_skipSpace heq (by decide)
      split at h
      · next l₂ heq₂ =>
          obtain ⟨x₂, hx₂, rfl⟩ := ws_of_skipSpace heq₂ (by decide)
          cases h
          exact ⟨.array [], _, x₂, hx, ⟨x₁, rfl, hx₂⟩, rfl, rfl,
            found_leaf remaining hdepth rfl rfl trivial trivial⟩
      · obtain ⟨⟨items, remaining₁, l₂⟩, h₁, hr⟩ := map_eq_ok.1 h
        cases hr
        obtain ⟨ts, y, -, hts, rfl, rfl, hfound⟩ := harray _ _ _ _ _ _ h₁
        refine ⟨.array ts, _, y, hx, ⟨x₁, rfl, hts⟩, rfl, rfl, ?_, hfound.elements,
          hfound.strings, hfound.members⟩
        have hlevels := hfound.levels
        rw [levels]
        omega
  · next l₁ heq =>
      obtain ⟨x₁, hx, rfl⟩ := ws_of_skipSpace heq (by decide)
      obtain ⟨r, h₁, hr⟩ := map_eq_ok.1 h
      cases hr
      obtain ⟨ps, y, hps, rfl, rfl, hfits⟩ := string_sound h₁
      exact ⟨.string ps, _, y, hx, ⟨hps, rfl⟩, rfl, rfl,
        found_leaf remaining hdepth rfl rfl hfits trivial⟩
  · next l₁ heq =>
      obtain ⟨x₁, hx, rfl⟩ := ws_of_skipSpace heq (by decide)
      obtain ⟨y, hword, hr⟩ := literal_sound (x := .ok 't' :: x₁) (by decide) h
      cases hr
      exact ⟨.bool true, _, y, hx, hword, rfl, rfl,
        found_leaf remaining hdepth rfl rfl trivial trivial⟩
  · next l₁ heq =>
      obtain ⟨x₁, hx, rfl⟩ := ws_of_skipSpace heq (by decide)
      obtain ⟨y, hword, hr⟩ := literal_sound (x := .ok 'f' :: x₁) (by decide) h
      cases hr
      exact ⟨.bool false, _, y, hx, hword, rfl, rfl,
        found_leaf remaining hdepth rfl rfl trivial trivial⟩
  · next l₁ heq =>
      obtain ⟨x₁, hx, rfl⟩ := ws_of_skipSpace heq (by decide)
      obtain ⟨y, hword, hr⟩ := literal_sound (x := .ok 'n' :: x₁) (by decide) h
      cases hr
      exact ⟨.null, _, y, hx, hword, rfl, rfl, found_leaf remaining hdepth rfl rfl trivial trivial⟩
  · next c l₁ _ _ _ _ _ _ heq =>
      split at h
      · next hc =>
          have hslash : c ≠ '\\' := by
            rintro rfl
            revert hc
            decide
          obtain ⟨x₁, hx, rfl⟩ := ws_of_skipSpace heq hslash
          split at h
          · next lexeme l₂ hnumber =>
              cases h
              obtain ⟨heq₂, hlexeme⟩ := number_sound hnumber
              obtain ⟨y, hword, rfl⟩ := encoded_scalars (x := .ok c :: x₁) heq₂ fun hmem => by
                have hslash := hlexeme.numberChars '\\' hmem
                revert hslash
                decide
              exact ⟨.number lexeme, _, y, hx, ⟨hlexeme, hword⟩, rfl, rfl,
                found_leaf _ hdepth rfl rfl trivial trivial⟩
          · cases h
      · cases h
  · cases h

theorem array_sound (hvalue : ValueSound parseF64 n) (harray : ArraySound parseF64 n) :
    ArraySound parseF64 (n + 1) := by
  intro depth remaining x items remaining' l h
  rw [array] at h
  split at h
  · cases h
  next hremaining =>
  obtain ⟨⟨v, remaining₁, l₁⟩, h₁, h⟩ := bind_eq_ok.1 h
  obtain ⟨t, a, y, hx, ht, rfl, rfl, hfound⟩ := hvalue _ _ _ _ _ _ h₁
  have helements := hfound.elements
  have hlevels := hfound.levels
  split at h
  · next l₂ heq =>
      obtain ⟨y₂, hy, rfl⟩ := ws_of_skipSpace heq (by decide)
      obtain ⟨⟨items₂, remaining₂, l₃⟩, h₂, hr⟩ := map_eq_ok.1 h
      cases hr
      obtain ⟨ts, z, hne, hts, rfl, rfl, hfounds⟩ := harray _ _ _ _ _ _ h₂
      have helements₂ := hfounds.elements
      have hlevels₂ := hfounds.levels
      refine ⟨t :: ts, z, cons_ne_nil _ _,
        writesItems_cons.2 ⟨a, y, hx, ht, .inr ⟨hne, y₂, hy, hts⟩⟩, rfl, rfl, ?_, ?_,
        ⟨hfound.strings, hfounds.strings⟩, hfound.members, hfounds.members⟩
      · rw [levelsItems]
        omega
      · rw [elementsItems]
        dsimp only at helements₂
        omega
  · next l₂ heq =>
      obtain ⟨y₂, hy, rfl⟩ := ws_of_skipSpace heq (by decide)
      cases h
      refine ⟨[t], y₂, cons_ne_nil _ _, writesItems_cons.2 ⟨a, y, hx, ht, .inl ⟨rfl, hy⟩⟩,
        rfl, rfl, ?_, ?_, ⟨hfound.strings, trivial⟩, hfound.members, trivial⟩
      · rw [levelsItems, levelsItems]
        omega
      · rw [elementsItems, elementsItems]
        dsimp only
        omega
  · cases h

theorem object_sound (hvalue : ValueSound parseF64 n) (hobject : ObjectSound parseF64 n) :
    ObjectSound parseF64 (n + 1) := by
  intro depth remaining props x v remaining' l h
  rw [object] at h
  split at h
  · next l₁ heq₁ =>
      obtain ⟨x₁, hx, rfl⟩ := ws_of_skipSpace heq₁ (by decide)
      obtain ⟨r, h₁, h⟩ := bind_eq_ok.1 h
      obtain ⟨ps, x₂, hps, rfl, rfl, hfits⟩ := string_sound h₁
      have hkey : WritesString ps (.ok '"' :: (ps.flatMap Piece.text ++ .ok '"' :: x₂)) x₂ :=
        ⟨hps, rfl⟩
      rw [encode_nil, append_nil, nil_append] at h
      split at h
      · next l₂ heq₂ =>
          obtain ⟨x₃, hx₂, rfl⟩ := ws_of_skipSpace heq₂ (by decide)
          split at h
          · cases h
          next hcount =>
          have hcount : (props.map Prod.fst).length < maxObjectProps := by
            rw [length_map]
            exact Nat.lt_of_not_le hcount
          obtain ⟨⟨v₁, remaining₁, l₃⟩, h₂, h⟩ := bind_eq_ok.1 h
          obtain ⟨t, x₄, x₅, hx₃, ht, rfl, rfl, hfound⟩ := hvalue _ _ _ _ _ _ h₂
          have helements := hfound.elements
          have hlevels := hfound.levels
          split at h
          · next l₄ heq₃ =>
              obtain ⟨x₆, hx₅, rfl⟩ := ws_of_skipSpace heq₃ (by decide)
              obtain ⟨ms, y, hne, hms, rfl, rfl, hfounds⟩ := hobject _ _ _ _ _ _ _ h
              have helements₂ := hfounds.elements
              have hlevels₂ := hfounds.levels
              have hmembers := hfounds.members
              rw [keys_put] at hmembers
              refine ⟨(ps, t) :: ms, y, cons_ne_nil _ _, writesMembers_cons.2 ⟨_, _, _, _, _,
                hx, hkey, hx₂, hx₃, ht, .inr ⟨hne, x₆, hx₅, hms⟩⟩, rfl, rfl, ?_, ?_,
                ⟨hfits, hfound.strings, hfounds.strings⟩, hcount, hfound.members, hmembers⟩
              · rw [levelsMembers]
                omega
              · rw [elementsMembers]
                dsimp only at helements₂
                omega
          · next l₄ heq₃ =>
              obtain ⟨x₆, hx₅, rfl⟩ := ws_of_skipSpace heq₃ (by decide)
              rw [checkedObject_eq_ok] at h
              obtain ⟨h, -⟩ := h
              cases h
              refine ⟨[(ps, t)], x₆, cons_ne_nil _ _, writesMembers_cons.2 ⟨_, _, _, _, _,
                hx, hkey, hx₂, hx₃, ht, .inl ⟨rfl, hx₅⟩⟩, rfl, rfl, ?_, ?_,
                ⟨hfits, hfound.strings, trivial⟩, hcount, hfound.members, trivial⟩
              · rw [levelsMembers, levelsMembers]
                omega
              · rw [elementsMembers, elementsMembers]
                exact helements
          · cases h
      · cases h
  · cases h

theorem sound (n : Nat) :
    ValueSound parseF64 n ∧ ArraySound parseF64 n ∧ ObjectSound parseF64 n := by
  induction n with
  | zero =>
    refine ⟨fun _ _ _ _ _ _ h => ?_, fun _ _ _ _ _ _ h => ?_, fun _ _ _ _ _ _ _ h => ?_⟩
    · rw [value] at h
      cases h
    · rw [array] at h
      cases h
    · rw [object] at h
      cases h
  | succ n ih =>
    obtain ⟨hvalue, harray, hobject⟩ := ih
    exact ⟨value_sound harray hobject, array_sound hvalue harray, object_sound hvalue hobject⟩

end

/-! ## A tree is parsed -/

section

variable {parseF64 : List Char → UInt64}

theorem length_put_le (key : List UInt16) (v : JsonValue) (props : List (List UInt16 × JsonValue)) :
    (put key v props).length ≤ props.length + 1 := by
  induction props with
  | nil => exact Nat.le_refl _
  | cons p props ih =>
    rw [put]
    split
    · exact Nat.le_succ _
    · exact Nat.succ_le_succ ih

theorem encoded_scalars_append (word : List Char) (y : List Item) :
    encoded (scalars word ++ y) = word ++ encoded y := by
  induction word with
  | nil => rfl
  | cons c word ih => rw [scalars_append, encoded_ok, ih, cons_append]

theorem literal_complete (word : List Char) (v : JsonValue) (remaining : Nat) (y : List Item) :
    literal word v remaining (encoded (scalars word ++ y)) = .ok (v, remaining, encoded y) := by
  rw [literal, encoded_scalars_append, if_pos (List.isPrefixOf_iff_prefix.2 ⟨_, rfl⟩),
    drop_left]

variable {y x z : List Item} {t : Tree}

/-- The rewriting does not make a number longer. -/
theorem Delimited.ended (h : Delimited y) : Ended (encoded y) := by
  intro c hc
  cases y with
  | nil => cases hc
  | cons i y =>
    cases i with
    | ok d =>
      cases hc
      exact h c rfl
    | error u =>
      cases hc
      decide

/-- A number begins with a sign or a digit. -/
theorem IsNumber.begins {c : Char} {l : List Char} (h : IsNumber (c :: l)) :
    c = '-' ∨ c.isDigit = true := by
  obtain ⟨sign, int, fraction, exponent, heq, hsign, hint, -, -⟩ := h
  rcases hsign with rfl | rfl
  · cases int with
    | nil =>
      rcases hint with hint | ⟨hdigits, -⟩
      · cases hint
      · exact absurd rfl hdigits.ne_nil
    | cons d int =>
      injection heq with heq
      subst heq
      rcases hint with hint | ⟨hdigits, -⟩
      · cases hint
        exact .inr (by decide)
      · exact .inr (hdigits.isDigit _ mem_cons_self)
  · injection heq with heq
    exact .inl heq

theorem items_not_closed {ts : List Tree} (h : WritesItems (t :: ts) x z) (l : List Char) :
    skipSpace (encoded x) ≠ ']' :: l := by
  obtain ⟨a, b, hx, ht, -⟩ := writesItems_cons.1 h
  intro hskip
  obtain ⟨y, hy, -⟩ := ws_of_skipSpace hskip (by decide)
  obtain rfl := hx.unique hy ht.inky (closer_bracket y).inky
  exact (closer_bracket y).value _ _ ht

theorem members_not_closed {key : List Piece} {ms : List (List Piece × Tree)}
    (h : WritesMembers ((key, t) :: ms) x z) (l : List Char) :
    skipSpace (encoded x) ≠ '}' :: l := by
  obtain ⟨a, b, c, d, e, hx, hkey, -⟩ := writesMembers_cons.1 h
  intro hskip
  obtain ⟨y, hy, -⟩ := ws_of_skipSpace hskip (by decide)
  obtain rfl := hx.unique hy hkey.inky (closer_brace y).inky
  exact (closer_brace y).string _ hkey.2

/-- A key or a string that fits is read. -/
theorem writesString_complete {ps : List Piece} (h : WritesString ps x y) (hfits : Fits ps 0 []) :
    ∃ l, encoded x = '"' :: l ∧ string l [] [] = .ok (units ps, encoded y) := by
  obtain ⟨hps, rfl⟩ := h
  refine ⟨_, rfl, ?_⟩
  exact @string_complete [] [] ps hps hfits y

section

variable {n depth remaining : Nat} {l rest : List Char}

section

variable (hdepth : depth + 1 ≤ maxJsonDepth)

include hdepth

theorem value_bracket (hskip : skipSpace l = '[' :: rest) :
    value parseF64 (n + 1) depth remaining l = match skipSpace rest with
      | ']' :: rest => .ok (.array [], remaining, rest)
      | _ => (array parseF64 n (depth + 1) remaining rest).map fun r => (.array r.1, r.2) := by
  rw [value, if_neg (Nat.not_lt.2 hdepth), hskip]
  rfl

theorem value_brace (hskip : skipSpace l = '{' :: rest) :
    value parseF64 (n + 1) depth remaining l = match skipSpace rest with
      | '}' :: rest => checkedObject [] remaining rest
      | _ => object parseF64 n (depth + 1) remaining [] rest := by
  rw [value, if_neg (Nat.not_lt.2 hdepth), hskip]
  rfl

theorem value_number {c : Char} {lexeme : List Char} (hskip : skipSpace l = c :: rest)
    (hc : c = '-' ∨ c.isDigit = true) {l' : List Char}
    (hnumber : number (c :: rest) = some (lexeme, l')) :
    value parseF64 (n + 1) depth remaining l = .ok (.number (parseF64 lexeme), remaining, l') := by
  have hne : ∀ d, ¬ (d = '-' ∨ d.isDigit = true) → c ≠ d := by
    rintro d hd rfl
    exact hd hc
  rw [value, if_neg (Nat.not_lt.2 hdepth), hskip]
  split
  · next heq =>
      injection heq with heq
      exact absurd heq (hne _ (by decide))
  · next heq =>
      injection heq with heq
      exact absurd heq (hne _ (by decide))
  · next heq =>
      injection heq with heq
      exact absurd heq (hne _ (by decide))
  · next heq =>
      injection heq with heq
      exact absurd heq (hne _ (by decide))
  · next heq =>
      injection heq with heq
      exact absurd heq (hne _ (by decide))
  · next heq =>
      injection heq with heq
      exact absurd heq (hne _ (by decide))
  · next heq =>
      injection heq with heq₁ heq₂
      subst heq₁ heq₂
      rw [if_pos hc, hnumber]
  · next heq => cases heq

end

end

mutual

theorem value_complete (t : Tree) {n depth remaining remaining' : Nat} {x a y : List Item}
    (hx : Ws x a) (ht : Writes t a y) (hy : Delimited y) (hn : 2 * x.length < n)
    (hfound : Found t depth remaining remaining') :
    value parseF64 n depth remaining (encoded x) =
      .ok (denote parseF64 t, remaining', encoded y) := by
  obtain ⟨hlevels, rfl, hstrings, hmembers⟩ := hfound
  obtain ⟨n, rfl⟩ := Nat.exists_eq_succ_of_ne_zero (Nat.ne_of_gt (Nat.zero_lt_of_lt hn))
  have hlength := hx.length_le
  have hskip := skipSpace_ws hx ht.inky
  have hpos : 1 ≤ levels t := by
    cases t <;> first | exact Nat.le_refl _ | exact Nat.le_add_left _ _
  have hdepth : depth + 1 ≤ maxJsonDepth := by omega
  match t with
  | .null =>
    obtain rfl := ht
    rw [value, if_neg (Nat.not_lt.2 hdepth), hskip]
    exact literal_complete _ _ _ y
  | .bool true =>
    obtain rfl := ht
    rw [value, if_neg (Nat.not_lt.2 hdepth), hskip]
    exact literal_complete _ _ _ y
  | .bool false =>
    obtain rfl := ht
    rw [value, if_neg (Nat.not_lt.2 hdepth), hskip]
    exact literal_complete _ _ _ y
  | .number lexeme =>
    obtain ⟨hnumber, rfl⟩ := ht
    cases lexeme with
    | nil => exact absurd rfl hnumber.ne_nil
    | cons c l =>
      rw [encoded_scalars_append, cons_append] at hskip
      exact value_number hdepth hskip (IsNumber.begins hnumber)
        (number_complete hnumber (Delimited.ended hy))
  | .string ps =>
    obtain ⟨l, heq, hread⟩ := writesString_complete ht hstrings
    rw [heq] at hskip
    rw [value, if_neg (Nat.not_lt.2 hdepth), hskip]
    exact map_eq_ok.2 ⟨_, hread, rfl⟩
  | .array [] =>
    obtain ⟨b, rfl, hb⟩ := ht
    rw [encoded_ok] at hskip
    rw [value_bracket hdepth hskip, skipSpace_ws hb (closer_bracket y).inky]
    rfl
  | .array (t :: ts) =>
    obtain ⟨b, rfl, hb⟩ := ht
    rw [levels] at hlevels
    rw [length_cons] at hlength
    rw [encoded_ok] at hskip
    rw [value_bracket hdepth hskip]
    split
    · next heq => exact absurd heq (items_not_closed hb _)
    · exact map_eq_ok.2 ⟨_, array_complete (t :: ts) hb (cons_ne_nil _ _) (by omega)
        ⟨by omega, rfl, hstrings, hmembers⟩, rfl⟩
  | .object [] =>
    obtain ⟨b, rfl, hb⟩ := ht
    rw [encoded_ok] at hskip
    rw [value_brace hdepth hskip, skipSpace_ws hb (closer_brace y).inky]
    rfl
  | .object ((key, t) :: ms) =>
    obtain ⟨b, rfl, hb⟩ := ht
    rw [levels] at hlevels
    rw [length_cons] at hlength
    rw [encoded_ok] at hskip
    rw [value_brace hdepth hskip]
    split
    · next heq => exact absurd heq (members_not_closed hb _)
    · exact object_complete ((key, t) :: ms) hb (cons_ne_nil _ _) (by omega)
        ⟨by omega, rfl, hstrings, hmembers⟩

theorem array_complete (ts : List Tree) {n depth remaining remaining' : Nat} {x y : List Item}
    (hts : WritesItems ts x (.ok ']' :: y)) (hne : ts ≠ []) (hn : 2 * x.length + 1 < n)
    (hfound : FoundItems ts depth remaining remaining') :
    array parseF64 n depth remaining (encoded x) =
      .ok (denoteItems parseF64 ts, remaining', encoded y) := by
  match ts with
  | [] => exact absurd rfl hne
  | t :: ts =>
    obtain ⟨hlevels, rfl, ⟨hstring, hstrings⟩, hmember, hmembers⟩ := hfound
    rw [levelsItems] at hlevels
    obtain ⟨n, rfl⟩ := Nat.exists_eq_succ_of_ne_zero (Nat.ne_of_gt (Nat.zero_lt_of_lt hn))
    obtain ⟨a, b, hx, ht, hafter⟩ := writesItems_cons.1 hts
    have hread : value parseF64 n depth (remaining' + elementsItems ts + elements t) (encoded x) =
        .ok (denote parseF64 t, remaining' + elementsItems ts, encoded b) :=
      value_complete t hx ht (hafter.delimited (closer_bracket y)) (by omega)
        ⟨by omega, rfl, hstring, hmember⟩
    have hpred : remaining' + elementsItems (t :: ts) - 1 =
        remaining' + elementsItems ts + elements t := by
      rw [elementsItems]
      omega
    rw [array, if_neg (by rw [elementsItems]; omega), hpred, hread]
    have hlengthx := hx.length_le
    have hlengtha := Writes.length_lt t ht
    rcases hafter with ⟨rfl, hb⟩ | ⟨hne, c, hb, hc⟩
    · simp only [Except.bind, skipSpace_ws hb (closer_bracket y).inky, encoded_ok]
      rfl
    · have hlengthb := hb.length_le
      rw [length_cons] at hlengthb
      have hrest : array parseF64 n depth (remaining' + elementsItems ts) (encoded c) =
          .ok (denoteItems parseF64 ts, remaining', encoded y) :=
        array_complete ts hc hne (by omega) ⟨by omega, rfl, hstrings, hmembers⟩
      simp only [Except.bind, skipSpace_ws hb (inky_comma c), encoded_ok]
      exact map_eq_ok.2 ⟨_, hrest, rfl⟩

theorem object_complete (ms : List (List Piece × Tree)) {n depth remaining remaining' : Nat}
    {props : List (List UInt16 × JsonValue)} {x y : List Item}
    (hms : WritesMembers ms x (.ok '}' :: y)) (hne : ms ≠ []) (hn : 2 * x.length + 1 < n)
    (hfound : FoundMembers ms (props.map Prod.fst) depth remaining remaining') :
    object parseF64 n depth remaining props (encoded x) =
      .ok (.object (denoteMembers parseF64 props ms), remaining', encoded y) := by
  match ms with
  | [] => exact absurd rfl hne
  | (key, t) :: ms =>
    obtain ⟨hlevels, rfl, ⟨hkeyFits, hstring, hstrings⟩, hcount, hmember, hmembers⟩ := hfound
    rw [levelsMembers] at hlevels
    rw [length_map] at hcount
    rw [← keys_put _ (denote parseF64 t)] at hmembers
    obtain ⟨n, rfl⟩ := Nat.exists_eq_succ_of_ne_zero (Nat.ne_of_gt (Nat.zero_lt_of_lt hn))
    obtain ⟨a, b, c, d, e, hx, hkey, hb, hc, ht, hafter⟩ := writesMembers_cons.1 hms
    have hlengthx := hx.length_le
    have hlengtha := hkey.length_lt
    have hlengthb := hb.length_le
    have hlengthc := hc.length_le
    have hlengthd := Writes.length_lt t ht
    rw [length_cons] at hlengthb
    obtain ⟨l, hquote, hstringRead⟩ := writesString_complete hkey hkeyFits
    have hskip := skipSpace_ws hx hkey.inky
    rw [hquote] at hskip
    have hread : value parseF64 n depth (remaining' + elementsMembers ms + elements t)
        (encoded c) = .ok (denote parseF64 t, remaining' + elementsMembers ms, encoded e) :=
      value_complete t hc ht (hafter.delimited (closer_brace y)) (by omega)
        ⟨by omega, rfl, hstring, hmember⟩
    have hput := length_put_le (units key) (denote parseF64 t) props
    have helements : remaining' + elementsMembers ((key, t) :: ms) =
        remaining' + elementsMembers ms + elements t := by
      rw [elementsMembers]
      omega
    rw [object, hskip, helements]
    simp only [hstringRead, Except.bind, skipSpace_ws hb (inky_colon c), encoded_ok]
    rw [if_neg (Nat.not_le.2 hcount), hread]
    rcases hafter with ⟨rfl, he⟩ | ⟨hne, f, he, hf⟩
    · simp only [skipSpace_ws he (closer_brace y).inky, encoded_ok]
      exact checkedObject_eq_ok.2 ⟨rfl, by omega⟩
    · have hlengthe := he.length_le
      rw [length_cons] at hlengthe
      simp only [skipSpace_ws he (inky_comma f), encoded_ok]
      exact object_complete ms hf hne (by omega) ⟨by omega, rfl, hstrings, hmembers⟩

end

end

/-! ## Texts -/

/-- The different keys of members, behind others. -/
def keysOf (keys : List (List UInt16)) (members : List (List Piece × Tree)) : List (List UInt16) :=
  members.foldl (fun keys member => addKey (units member.1) keys) keys

mutual

/-- No object has too many properties. -/
def PropertiesFit : Tree → Prop
  | .array items => propertiesFitItems items
  | .object members => (keysOf [] members).length ≤ maxObjectProps ∧ propertiesFitMembers members
  | _ => True

def propertiesFitItems : List Tree → Prop
  | [] => True
  | t :: ts => PropertiesFit t ∧ propertiesFitItems ts

def propertiesFitMembers : List (List Piece × Tree) → Prop
  | [] => True
  | (_, t) :: members => PropertiesFit t ∧ propertiesFitMembers members

end

/-- The limits of depth, of elements and of properties. -/
structure Within (t : Tree) : Prop where
  levels : levels t ≤ maxJsonDepth
  elements : elements t ≤ maxElements
  properties : PropertiesFit t

section

variable {parseF64 : List Char → UInt64} {s : List UInt16}

/-- What the parser accepts, and what it makes of it. -/
theorem jsonParse_eq_ok (hlength : s.length ≤ maxStringLen) {v : JsonValue} :
    jsonParse parseF64 s = .ok v ↔
      ∃ t, IsText (decodeUtf16 s) t ∧ Accepted t ∧ v = denote parseF64 t := by
  rw [jsonParse, if_neg (Nat.not_lt.2 hlength), bind_eq_ok]
  constructor
  · rintro ⟨⟨v', remaining, l⟩, hvalue, h⟩
    obtain ⟨t, a, y, hx, ht, rfl, rfl, hfound⟩ := (sound _).1 _ _ _ _ _ _ hvalue
    split at h
    · next hskip =>
        cases h
        have hend : y.dropWhile spaceItem = [] := by
          rw [skipSpace_encoded] at hskip
          have hle := length_le_encoded (y.dropWhile spaceItem)
          rw [hskip] at hle
          exact length_eq_zero_iff.1 (Nat.le_zero.1 hle)
        have hy := ws_dropWhile y
        rw [hend] at hy
        have helements := hfound.elements
        exact ⟨t, ⟨a, y, hx, ht, hy⟩,
          ⟨hfound.levels, by omega, hfound.strings, hfound.members⟩, rfl⟩
    · cases h
  · rintro ⟨t, ⟨a, b, hx, ht, hb⟩, haccepted, rfl⟩
    have hle := length_le_encoded (decodeUtf16 s)
    refine ⟨_, value_complete t hx ht (hb.delimited nofun) (by omega)
      ⟨haccepted.levels, (Nat.sub_add_cancel haccepted.elements).symm, haccepted.strings,
        haccepted.members⟩, ?_⟩
    rw [skipSpace_ws hb inky_nil]
    rfl

/-- `[null]`. -/
theorem isText_null : IsText (decodeUtf16 [0x5B, 0x6E, 0x75, 0x6C, 0x6C, 0x5D]) (.array [.null]) :=
  ⟨_, _, ⟨[], nofun, rfl⟩, ⟨_, rfl, _, _, ⟨[], nofun, rfl⟩, rfl, [], nofun, rfl⟩, [], nofun, rfl⟩

/-- `"\` and an unpaired surrogate, and `"`. -/
theorem isText_misread :
    IsText (decodeUtf16 [0x22, 0x5C, 0xD800, 0x22]) (.string [.misread 0xD800]) :=
  ⟨_, _, ⟨[], nofun, rfl⟩, ⟨by simp [Piece.Valid], rfl⟩, [], nofun, rfl⟩

end

end NapiVm.JsonParser
