import NapiVm.Text.JsonText

/-!
# The grammar of JSON texts

A text is a list of code points, which are scalars or unpaired surrogates.

* `Piece`, `Tree` — what a text is made of.  A `misread` piece is no JSON: it is a backslash before
  an unpaired surrogate, and stands here for what the parser takes it for.
* `IsText` — a text of a tree.
* `Tree.Standard` — a tree of the JSON grammar.
* `isText_unique` — a text has one tree at most.
-/

namespace NapiVm.JsonGrammar

open JsString JsonText List

/-- A scalar, or an unpaired surrogate. -/
abbrev Item : Type := Except UInt16 Char

/-- A text of scalars. -/
def scalars (l : List Char) : List Item := l.map .ok

/-! ## Strings -/

/-- A part of a string literal. -/
inductive Piece where
  | char (c : Char)
  | lone (u : UInt16)
  | letter (c : Char)
  | unicode (a b c d : Char)
  | misread (u : UInt16)

namespace Piece

/-- How it is written. -/
def text : Piece → List Item
  | char c => [.ok c]
  | lone u => [.error u]
  | letter c => [.ok '\\', .ok c]
  | unicode a b c d => [.ok '\\', .ok 'u', .ok a, .ok b, .ok c, .ok d]
  | misread u => [.ok '\\', .error u]

/-- Which characters it may have. -/
def Valid : Piece → Prop
  | char c => ¬ c.toNat < 32 ∧ c ≠ '"' ∧ c ≠ '\\'
  | letter c => (simpleEscape c).isSome = true
  | unicode a b c d => (hexDigits 0 [a, b, c, d]).isSome = true
  | _ => True

/-- The units that it stands for. -/
def value : Piece → List UInt16
  | char c => encodeUtf16 c
  | lone u => [u]
  | letter c => (simpleEscape c).toList
  | unicode a b c d => ((hexDigits 0 [a, b, c, d]).map UInt16.ofNat).toList
  | misread u => (unicodeEscape u).flatMap encodeUtf16

/-- Is it of the JSON grammar? -/
def Standard : Piece → Prop
  | misread _ => False
  | _ => True

end Piece

/-- `x` is a string literal, and then `y`. -/
def WritesString (pieces : List Piece) (x y : List Item) : Prop :=
  (∀ p ∈ pieces, p.Valid) ∧ x = .ok '"' :: (pieces.flatMap Piece.text ++ .ok '"' :: y)

/-- The units of a string literal. -/
def units (pieces : List Piece) : List UInt16 := pieces.flatMap Piece.value

/-! ## Numbers -/

structure Digits (l : List Char) : Prop where
  ne_nil : l ≠ []
  isDigit : ∀ c ∈ l, c.isDigit = true

/-- `int`: no leading zero. -/
def IsInt (l : List Char) : Prop := l = ['0'] ∨ Digits l ∧ l.head? ≠ some '0'

/-- `frac`. -/
def IsFraction (l : List Char) : Prop := l = [] ∨ ∃ digits, l = '.' :: digits ∧ Digits digits

/-- `exp`. -/
def IsExponent (l : List Char) : Prop :=
  l = [] ∨ ∃ e sign digits, l = e :: (sign ++ digits) ∧ (e = 'e' ∨ e = 'E') ∧
    (sign = [] ∨ sign = ['+'] ∨ sign = ['-']) ∧ Digits digits

/-- A number. -/
def IsNumber (l : List Char) : Prop :=
  ∃ sign int fraction exponent, l = sign ++ (int ++ (fraction ++ exponent)) ∧
    (sign = [] ∨ sign = ['-']) ∧ IsInt int ∧ IsFraction fraction ∧ IsExponent exponent

/-! ## Values -/

/-- `x` is white space, and then `y`. -/
def Ws (x y : List Item) : Prop := ∃ l, (∀ c ∈ l, isSpace c = true) ∧ x = scalars l ++ y

/-- What a text is made of, but for the white space. -/
inductive Tree where
  | null
  | bool (b : Bool)
  | number (lexeme : List Char)
  | string (pieces : List Piece)
  | array (items : List Tree)
  | object (members : List (List Piece × Tree))

mutual

/-- `x` is a text of a tree, and then `y`. -/
def Writes : Tree → List Item → List Item → Prop
  | .null, x, y => x = scalars ['n', 'u', 'l', 'l'] ++ y
  | .bool true, x, y => x = scalars ['t', 'r', 'u', 'e'] ++ y
  | .bool false, x, y => x = scalars ['f', 'a', 'l', 's', 'e'] ++ y
  | .number lexeme, x, y => IsNumber lexeme ∧ x = scalars lexeme ++ y
  | .string pieces, x, y => WritesString pieces x y
  | .array items, x, y => ∃ a, x = .ok '[' :: a ∧ WritesItems items a (.ok ']' :: y)
  | .object members, x, y => ∃ a, x = .ok '{' :: a ∧ WritesMembers members a (.ok '}' :: y)

/-- The items of an array, with the white space around them. -/
def WritesItems : List Tree → List Item → List Item → Prop
  | [], x, y => Ws x y
  | [t], x, y => ∃ a b, Ws x a ∧ Writes t a b ∧ Ws b y
  | t :: ts, x, y => ∃ a b c, Ws x a ∧ Writes t a b ∧ Ws b (.ok ',' :: c) ∧ WritesItems ts c y

/-- The members of an object, with the white space around them. -/
def WritesMembers : List (List Piece × Tree) → List Item → List Item → Prop
  | [], x, y => Ws x y
  | [(key, t)], x, y => ∃ a b c d e, Ws x a ∧ WritesString key a b ∧ Ws b (.ok ':' :: c) ∧ Ws c d ∧
      Writes t d e ∧ Ws e y
  | (key, t) :: members, x, y => ∃ a b c d e f, Ws x a ∧ WritesString key a b ∧
      Ws b (.ok ':' :: c) ∧ Ws c d ∧ Writes t d e ∧ Ws e (.ok ',' :: f) ∧ WritesMembers members f y

end

/-- A text of a tree. -/
def IsText (x : List Item) (t : Tree) : Prop := ∃ a b, Ws x a ∧ Writes t a b ∧ Ws b []

mutual

/-- Is a tree of the JSON grammar? -/
def Tree.Standard : Tree → Prop
  | .string pieces => ∀ p ∈ pieces, p.Standard
  | .array items => standardItems items
  | .object members => standardMembers members
  | _ => True

def standardItems : List Tree → Prop
  | [] => True
  | t :: ts => t.Standard ∧ standardItems ts

def standardMembers : List (List Piece × Tree) → Prop
  | [] => True
  | (key, t) :: members => (∀ p ∈ key, p.Standard) ∧ t.Standard ∧ standardMembers members

end

/-! ## White space -/

/-- Is a code point white space? -/
def spaceItem : Item → Bool
  | .ok c => isSpace c
  | .error _ => false

/-- The text does not begin with white space. -/
def Inky (x : List Item) : Prop := ∀ i, x.head? = some i → spaceItem i = false

theorem inky_cons {i : Item} (h : spaceItem i = false) (x : List Item) : Inky (i :: x) := by
  rintro j hj
  cases hj
  exact h

variable {c : Char} {x y y' : List Item} {l : List Char} {ps : List Piece} {t : Tree}

theorem inky_ok (h : isSpace c = false) (x : List Item) : Inky (.ok c :: x) :=
  inky_cons (show spaceItem (.ok c) = false from h) x

theorem inky_nil : Inky [] := nofun

theorem scalars_append (l : List Char) (c : Char) (x : List Item) :
    scalars (c :: l) ++ x = .ok c :: (scalars l ++ x) := rfl

/-- White space ends where `dropWhile` ends. -/
theorem Ws.dropWhile (h : Ws x y) (hy : Inky y) : x.dropWhile spaceItem = y := by
  obtain ⟨l, hl, rfl⟩ := h
  induction l with
  | nil =>
    cases y with
    | nil => rfl
    | cons i y => exact dropWhile_cons_of_neg (by rw [hy i rfl]; exact Bool.false_ne_true)
  | cons c l ih =>
    obtain ⟨hc, hrest⟩ := forall_mem_cons.1 hl
    rw [scalars_append, dropWhile_cons_of_pos (show spaceItem (.ok c) = true from hc)]
    exact ih hrest

theorem ws_dropWhile (x : List Item) : Ws x (x.dropWhile spaceItem) := by
  induction x with
  | nil => exact ⟨[], nofun, rfl⟩
  | cons i x ih =>
    by_cases hi : spaceItem i = true
    · obtain ⟨l, hl, heq⟩ := ih
      rw [dropWhile_cons_of_pos hi]
      cases i with
      | error u => cases hi
      | ok c =>
        refine ⟨c :: l, forall_mem_cons.2 ⟨hi, hl⟩, ?_⟩
        rw [scalars_append, ← heq]
    · rw [dropWhile_cons_of_neg hi]
      exact ⟨[], nofun, rfl⟩

theorem Ws.unique (h : Ws x y) (h' : Ws x y') (hy : Inky y) (hy' : Inky y') : y = y' := by
  rw [← h.dropWhile hy, h'.dropWhile hy']

theorem Ws.length_le (h : Ws x y) : y.length ≤ x.length := by
  obtain ⟨l, -, rfl⟩ := h
  rw [length_append]
  exact Nat.le_add_left _ _

/-! ## Where a number ends -/

/-- The text does not go on with a number. -/
def Delimited (x : List Item) : Prop := ∀ c, x.head? = some (.ok c) → isNumberChar c = false

theorem delimited_cons (h : isNumberChar c = false) (x : List Item) : Delimited (.ok c :: x) := by
  intro d hd
  cases hd
  exact h

theorem Ws.delimited (h : Ws x y) (hy : Delimited y) : Delimited x := by
  obtain ⟨l, hl, rfl⟩ := h
  cases l with
  | nil => exact hy
  | cons c l =>
    refine delimited_cons ?_ _
    have hspace := hl c mem_cons_self
    simp only [isSpace, Bool.or_eq_true, decide_eq_true_eq] at hspace
    rcases hspace with ((rfl | rfl) | rfl) | rfl <;> decide

theorem Digits.numberChars (h : Digits l) : ∀ c ∈ l, isNumberChar c = true :=
  fun c hc => isNumberChar_of_isDigit (h.isDigit c hc)

theorem IsNumber.numberChars (h : IsNumber l) : ∀ c ∈ l, isNumberChar c = true := by
  obtain ⟨sign, int, fraction, exponent, rfl, hsign, hint, hfraction, hexponent⟩ := h
  intro c hc
  simp only [mem_append] at hc
  rcases hc with hc | hc | hc | hc
  · rcases hsign with rfl | rfl
    · cases hc
    · rw [mem_singleton.1 hc]
      rfl
  · rcases hint with rfl | ⟨hdigits, -⟩
    · rw [mem_singleton.1 hc]
      rfl
    · exact hdigits.numberChars c hc
  · rcases hfraction with rfl | ⟨digits, rfl, hdigits⟩
    · cases hc
    · rcases mem_cons.1 hc with rfl | hc
      · rfl
      · exact hdigits.numberChars c hc
  · rcases hexponent with rfl | ⟨e, sign', digits, rfl, he, hsign', hdigits⟩
    · cases hc
    · rcases mem_cons.1 hc with rfl | hc
      · rcases he with rfl | rfl <;> rfl
      · rcases mem_append.1 hc with hc | hc
        · rcases hsign' with rfl | rfl | rfl
          · cases hc
          · rw [mem_singleton.1 hc]
            rfl
          · rw [mem_singleton.1 hc]
            rfl
        · exact hdigits.numberChars c hc

theorem IsNumber.ne_nil (h : IsNumber l) : l ≠ [] := by
  obtain ⟨sign, int, fraction, exponent, rfl, -, hint, -, -⟩ := h
  intro hnil
  have hint' := (append_eq_nil_iff.1 (append_eq_nil_iff.1 hnil).2).1
  rcases hint with rfl | ⟨hdigits, -⟩
  · cases hint'
  · exact hdigits.ne_nil hint'

/-- Numbers are as long as they can be. -/
theorem number_unique {l' : List Char} (hl : ∀ c ∈ l, isNumberChar c = true)
    (hl' : ∀ c ∈ l', isNumberChar c = true) (hy : Delimited y) (hy' : Delimited y')
    (h : scalars l ++ y = scalars l' ++ y') : l = l' ∧ y = y' := by
  induction l generalizing l' with
  | nil =>
    cases l' with
    | nil => exact ⟨rfl, h⟩
    | cons c l' =>
      have hc := hl' c mem_cons_self
      rw [hy c (by rw [show y = _ from h]; rfl)] at hc
      cases hc
  | cons c l ih =>
    cases l' with
    | nil =>
      have hc := hl c mem_cons_self
      rw [hy' c (by rw [show y' = _ from h.symm]; rfl)] at hc
      cases hc
    | cons c' l' =>
      rw [scalars_append, scalars_append] at h
      injection h with hhead htail
      injection hhead with hhead
      obtain ⟨rfl, rfl⟩ := ih (forall_mem_cons.1 hl).2 (forall_mem_cons.1 hl').2 htail
      exact ⟨by rw [hhead], rfl⟩

/-! ## A text has one tree -/

/-- No part of a string literal begins with a quote. -/
theorem Piece.text_ne_quote {p : Piece} (hp : p.Valid) (x y : List Item) :
    p.text ++ x ≠ .ok '"' :: y := by
  cases p with
  | char c =>
    intro h
    injection h with hhead
    injection hhead with hhead
    exact hp.2.1 hhead
  | lone u => nofun
  | letter c => nofun
  | unicode a b c d => nofun
  | misread u => nofun

theorem Piece.text_unique {p p' : Piece} {x' : List Item} (hp : p.Valid) (hp' : p'.Valid)
    (h : p.text ++ x = p'.text ++ x') : p = p' ∧ x = x' := by
  have hslash : ∀ {c}, (char c).Valid → '\\' ≠ c := fun hc => hc.2.2.symm
  have hu : ∀ {c}, (letter c).Valid → 'u' ≠ c := by
    rintro c hc rfl
    have hnone : ¬ (simpleEscape 'u').isSome = true := by decide
    exact hnone hc
  cases p with
  | char c =>
    have hc := (hslash hp).symm
    cases p' <;> simp_all [Piece.text]
  | lone u => cases p' <;> simp_all [Piece.text]
  | letter c =>
    have hc := (hu hp).symm
    cases p' with
    | char c' =>
      have hc' := hslash hp'
      simp_all [Piece.text]
    | _ => simp_all [Piece.text]
  | unicode a b c d =>
    cases p' with
    | char c' =>
      have hc' := hslash hp'
      simp_all [Piece.text]
    | letter c' =>
      have hc' := hu hp'
      simp_all [Piece.text]
    | _ => simp_all [Piece.text]
  | misread u =>
    cases p' with
    | char c' =>
      have hc' := hslash hp'
      simp_all [Piece.text]
    | _ => simp_all [Piece.text]

theorem pieces_unique {ps' : List Piece} (hps : ∀ p ∈ ps, p.Valid) (hps' : ∀ p ∈ ps', p.Valid)
    (h : ps.flatMap Piece.text ++ .ok '"' :: y = ps'.flatMap Piece.text ++ .ok '"' :: y') :
    ps = ps' ∧ y = y' := by
  induction ps generalizing ps' with
  | nil =>
    cases ps' with
    | nil =>
      injection h with _ hy
      exact ⟨rfl, hy⟩
    | cons p' ps' =>
      rw [flatMap_cons, append_assoc] at h
      exact absurd h.symm (Piece.text_ne_quote (hps' p' mem_cons_self) _ _)
  | cons p ps ih =>
    obtain ⟨hp, hps⟩ := forall_mem_cons.1 hps
    rw [flatMap_cons, append_assoc] at h
    cases ps' with
    | nil => exact absurd h (Piece.text_ne_quote hp _ _)
    | cons p' ps' =>
      obtain ⟨hp', hrest'⟩ := forall_mem_cons.1 hps'
      rw [flatMap_cons, append_assoc] at h
      obtain ⟨rfl, hrest⟩ := Piece.text_unique hp hp' h
      obtain ⟨rfl, rfl⟩ := ih hps hrest' hrest
      exact ⟨rfl, rfl⟩

theorem WritesString.unique {ps' : List Piece} (h : WritesString ps x y)
    (h' : WritesString ps' x y') : ps = ps' ∧ y = y' := by
  have heq := h.2.symm.trans h'.2
  injection heq with _ heq
  exact pieces_unique h.1 h'.1 heq

/-- What the first character of a value says of it. -/
def kindOfChar (c : Char) : Nat :=
  if c = 'n' then 0 else if c = 't' then 1 else if c = 'f' then 2 else if c = '"' then 3
  else if c = '[' then 4 else if c = '{' then 5 else 6

def kind : Tree → Nat
  | .null => 0
  | .bool true => 1
  | .bool false => 2
  | .string _ => 3
  | .array _ => 4
  | .object _ => 5
  | .number _ => 6

theorem kindOfChar_number (h : isNumberChar c = true) : kindOfChar c = 6 := by
  have hne : ∀ d, isNumberChar d = false → c ≠ d := by
    rintro d hd rfl
    rw [hd] at h
    cases h
  simp only [kindOfChar, hne 'n' rfl, hne 't' rfl, hne 'f' rfl, hne '"' rfl, hne '[' rfl,
    hne '{' rfl, if_false]

/-- A value begins with a character of its kind. -/
theorem Writes.head (h : Writes t x y) :
    ∃ c z, x = .ok c :: z ∧ kindOfChar c = kind t ∧ isSpace c = false := by
  cases t with
  | null => exact ⟨'n', _, h, by decide, by decide⟩
  | bool b =>
    cases b with
    | true => exact ⟨'t', _, h, by decide, by decide⟩
    | false => exact ⟨'f', _, h, by decide, by decide⟩
  | number lexeme =>
    obtain ⟨hnumber, rfl⟩ := h
    cases lexeme with
    | nil => exact absurd rfl hnumber.ne_nil
    | cons c l =>
      have hc := hnumber.numberChars c mem_cons_self
      refine ⟨c, _, rfl, kindOfChar_number hc, ?_⟩
      rw [Bool.eq_false_iff]
      intro hspace
      simp only [isSpace, Bool.or_eq_true, decide_eq_true_eq] at hspace
      rcases hspace with ((rfl | rfl) | rfl) | rfl <;> exact absurd hc (by decide)
  | string pieces => exact ⟨'"', _, h.2, rfl, by decide⟩
  | array items =>
    obtain ⟨a, rfl, -⟩ := h
    exact ⟨'[', a, rfl, rfl, by decide⟩
  | object members =>
    obtain ⟨a, rfl, -⟩ := h
    exact ⟨'{', a, rfl, rfl, by decide⟩

theorem Writes.inky (h : Writes t x y) : Inky x := by
  obtain ⟨c, z, rfl, -, hspace⟩ := h.head
  exact inky_ok hspace z

theorem Writes.kind_eq {t' : Tree} (h : Writes t x y) (h' : Writes t' x y') : kind t = kind t' := by
  obtain ⟨c, z, rfl, hc, -⟩ := h.head
  obtain ⟨c', z', heq, hc', -⟩ := h'.head
  injection heq with heq
  injection heq with heq
  rw [← hc, ← hc', heq]

theorem WritesString.inky (h : WritesString ps x y) : Inky x := by
  rw [h.2]
  exact inky_ok (by decide) _

/-- What stands behind the items of an array, or the members of an object. -/
structure Closer (x : List Item) : Prop where
  inky : Inky x
  delimited : Delimited x
  comma : ∀ y, x ≠ .ok ',' :: y
  string : ∀ y, x ≠ .ok '"' :: y
  value : ∀ t y, ¬ Writes t x y

theorem closer_cons (hspace : isSpace c = false) (hnumber : isNumberChar c = false)
    (hcomma : c ≠ ',') (hkind : kindOfChar c = 6) (x : List Item) : Closer (.ok c :: x) := by
  refine ⟨inky_ok hspace x, delimited_cons hnumber x, fun y h => ?_, fun y h => ?_, fun t y h => ?_⟩
  · injection h with h
    injection h with h
    exact hcomma h
  · injection h with h
    injection h with h
    rw [h] at hkind
    exact absurd hkind (by decide)
  · obtain ⟨d, z, heq, hd, -⟩ := h.head
    injection heq with heq
    injection heq with heq
    rw [← heq, hkind] at hd
    match t, hd with
    | .number l, _ =>
      obtain ⟨hl, heq⟩ := h
      cases l with
      | nil => exact hl.ne_nil rfl
      | cons e l =>
        rw [scalars_append] at heq
        injection heq with heq
        injection heq with heq
        have hc := hl.numberChars e mem_cons_self
        rw [← heq, hnumber] at hc
        cases hc

theorem closer_bracket (x : List Item) : Closer (.ok ']' :: x) :=
  closer_cons (by decide) (by decide) (by decide) (by decide) x

theorem closer_brace (x : List Item) : Closer (.ok '}' :: x) :=
  closer_cons (by decide) (by decide) (by decide) (by decide) x

theorem inky_comma (x : List Item) : Inky (.ok ',' :: x) := inky_ok (by decide) x

theorem inky_colon (x : List Item) : Inky (.ok ':' :: x) := inky_ok (by decide) x

theorem delimited_comma (x : List Item) : Delimited (.ok ',' :: x) := delimited_cons (by decide) x

/-- What comes behind an item: the end, or a comma and the other items. -/
def After (more : List Item → List Item → Prop) (last : Prop) (b y : List Item) : Prop :=
  last ∧ Ws b y ∨ ¬ last ∧ ∃ c, Ws b (.ok ',' :: c) ∧ more c y

theorem After.delimited {more : List Item → List Item → Prop} {last : Prop} {b : List Item}
    (h : After more last b y) (hy : Closer y) : Delimited b := by
  rcases h with ⟨-, h⟩ | ⟨-, c, h, -⟩
  · exact h.delimited hy.delimited
  · exact h.delimited (delimited_comma c)

theorem writesItems_cons {ts : List Tree} :
    WritesItems (t :: ts) x y ↔
      ∃ a b, Ws x a ∧ Writes t a b ∧ After (WritesItems ts) (ts = []) b y := by
  cases ts with
  | nil => simp [WritesItems, After]
  | cons u ts =>
    constructor
    · rintro ⟨a, b, c, hx, ht, hb, hc⟩
      exact ⟨a, b, hx, ht, .inr ⟨cons_ne_nil _ _, c, hb, hc⟩⟩
    · rintro ⟨a, b, hx, ht, ⟨h, -⟩ | ⟨-, c, hb, hc⟩⟩
      · cases h
      · exact ⟨a, b, c, hx, ht, hb, hc⟩

theorem writesMembers_cons {key : List Piece} {ms : List (List Piece × Tree)} :
    WritesMembers ((key, t) :: ms) x y ↔
      ∃ a b c d e, Ws x a ∧ WritesString key a b ∧ Ws b (.ok ':' :: c) ∧ Ws c d ∧ Writes t d e ∧
        After (WritesMembers ms) (ms = []) e y := by
  cases ms with
  | nil => simp [WritesMembers, After]
  | cons m ms =>
    constructor
    · rintro ⟨a, b, c, d, e, f, hx, hkey, hb, hc, ht, he, hf⟩
      exact ⟨a, b, c, d, e, hx, hkey, hb, hc, ht, .inr ⟨cons_ne_nil _ _, f, he, hf⟩⟩
    · rintro ⟨a, b, c, d, e, hx, hkey, hb, hc, ht, ⟨h, -⟩ | ⟨-, f, he, hf⟩⟩
      · cases h
      · exact ⟨a, b, c, d, e, f, hx, hkey, hb, hc, ht, he, hf⟩

/-- Behind the same item, there is the same. -/
theorem After.unique {α : Type} {more : List α → List Item → List Item → Prop} {l l' : List α}
    {b : List Item} (h : After (more l) (l = []) b y) (h' : After (more l') (l' = []) b y')
    (hy : Closer y) (hy' : Closer y') (hmore : ∀ c, more l c y → more l' c y' → l = l' ∧ y = y') :
    l = l' ∧ y = y' := by
  rcases h with ⟨rfl, hb⟩ | ⟨-, c, hb, hc⟩
  · rcases h' with ⟨rfl, hb'⟩ | ⟨-, c', hb', -⟩
    · exact ⟨rfl, hb.unique hb' hy.inky hy'.inky⟩
    · exact absurd (hb.unique hb' hy.inky (inky_comma c')) (hy.comma c')
  · rcases h' with ⟨rfl, hb'⟩ | ⟨-, c', hb', hc'⟩
    · exact absurd (hb'.unique hb hy'.inky (inky_comma c)) (hy'.comma c)
    · have heq := hb.unique hb' (inky_comma c) (inky_comma c')
      injection heq with _ heq
      subst heq
      exact hmore c hc hc'

mutual

/-- A tree is what its text says, and no more than that. -/
theorem writes_unique (t t' : Tree) {x y y' : List Item} (h : Writes t x y) (h' : Writes t' x y')
    (hy : Delimited y) (hy' : Delimited y') : t = t' ∧ y = y' := by
  match t, t', h.kind_eq h' with
  | .null, .null, _ => exact ⟨rfl, append_cancel_left (h.symm.trans h')⟩
  | .bool true, .bool true, _ => exact ⟨rfl, append_cancel_left (h.symm.trans h')⟩
  | .bool false, .bool false, _ => exact ⟨rfl, append_cancel_left (h.symm.trans h')⟩
  | .number l, .number l', _ =>
    obtain ⟨rfl, rfl⟩ := number_unique h.1.numberChars h'.1.numberChars hy hy' (h.2.symm.trans h'.2)
    exact ⟨rfl, rfl⟩
  | .string ps, .string ps', _ =>
    obtain ⟨rfl, rfl⟩ := WritesString.unique h h'
    exact ⟨rfl, rfl⟩
  | .array ts, .array ts', _ =>
    obtain ⟨a, rfl, ha⟩ := h
    obtain ⟨a', heq, ha'⟩ := h'
    injection heq with _ heq
    subst heq
    obtain ⟨rfl, heq⟩ := writesItems_unique ts ts' ha ha' (closer_bracket y) (closer_bracket y')
    injection heq with _ heq
    exact ⟨rfl, heq⟩
  | .object ms, .object ms', _ =>
    obtain ⟨a, rfl, ha⟩ := h
    obtain ⟨a', heq, ha'⟩ := h'
    injection heq with _ heq
    subst heq
    obtain ⟨rfl, heq⟩ := writesMembers_unique ms ms' ha ha' (closer_brace y) (closer_brace y')
    injection heq with _ heq
    exact ⟨rfl, heq⟩

theorem writesItems_unique (ts ts' : List Tree) {x y y' : List Item} (h : WritesItems ts x y)
    (h' : WritesItems ts' x y') (hy : Closer y) (hy' : Closer y') : ts = ts' ∧ y = y' := by
  match ts, ts' with
  | [], [] => exact ⟨rfl, h.unique h' hy.inky hy'.inky⟩
  | [], t' :: ts' =>
    obtain ⟨a, b, hx, ht, -⟩ := writesItems_cons.1 h'
    obtain rfl := h.unique hx hy.inky ht.inky
    exact absurd ht (hy.value _ _)
  | t :: ts, [] =>
    obtain ⟨a, b, hx, ht, -⟩ := writesItems_cons.1 h
    obtain rfl := h'.unique hx hy'.inky ht.inky
    exact absurd ht (hy'.value _ _)
  | t :: ts, t' :: ts' =>
    obtain ⟨a, b, hx, ht, hafter⟩ := writesItems_cons.1 h
    obtain ⟨a', b', hx', ht', hafter'⟩ := writesItems_cons.1 h'
    obtain rfl := hx.unique hx' ht.inky ht'.inky
    obtain ⟨rfl, rfl⟩ := writes_unique t t' ht ht' (hafter.delimited hy) (hafter'.delimited hy')
    obtain ⟨rfl, rfl⟩ := hafter.unique hafter' hy hy' fun c hc hc' =>
      writesItems_unique ts ts' hc hc' hy hy'
    exact ⟨rfl, rfl⟩

theorem writesMembers_unique (ms ms' : List (List Piece × Tree)) {x y y' : List Item}
    (h : WritesMembers ms x y) (h' : WritesMembers ms' x y') (hy : Closer y) (hy' : Closer y') :
    ms = ms' ∧ y = y' := by
  match ms, ms' with
  | [], [] => exact ⟨rfl, h.unique h' hy.inky hy'.inky⟩
  | [], (key', t') :: ms' =>
    obtain ⟨a, b, c, d, e, hx, hkey, -⟩ := writesMembers_cons.1 h'
    obtain rfl := h.unique hx hy.inky hkey.inky
    exact absurd hkey.2 (hy.string _)
  | (key, t) :: ms, [] =>
    obtain ⟨a, b, c, d, e, hx, hkey, -⟩ := writesMembers_cons.1 h
    obtain rfl := h'.unique hx hy'.inky hkey.inky
    exact absurd hkey.2 (hy'.string _)
  | (key, t) :: ms, (key', t') :: ms' =>
    obtain ⟨a, b, c, d, e, hx, hkey, hb, hc, ht, hafter⟩ := writesMembers_cons.1 h
    obtain ⟨a', b', c', d', e', hx', hkey', hb', hc', ht', hafter'⟩ := writesMembers_cons.1 h'
    obtain rfl := hx.unique hx' hkey.inky hkey'.inky
    obtain ⟨rfl, rfl⟩ := hkey.unique hkey'
    have heq := hb.unique hb' (inky_colon c) (inky_colon c')
    injection heq with _ heq
    subst heq
    obtain rfl := hc.unique hc' ht.inky ht'.inky
    obtain ⟨rfl, rfl⟩ := writes_unique t t' ht ht' (hafter.delimited hy) (hafter'.delimited hy')
    obtain ⟨rfl, rfl⟩ := hafter.unique hafter' hy hy' fun f hf hf' =>
      writesMembers_unique ms ms' hf hf' hy hy'
    exact ⟨rfl, rfl⟩

end

/-- **The grammar is unambiguous.** -/
theorem isText_unique {x : List Item} {t t' : Tree} (h : IsText x t) (h' : IsText x t') :
    t = t' := by
  obtain ⟨a, b, hx, ht, hb⟩ := h
  obtain ⟨a', b', hx', ht', hb'⟩ := h'
  obtain rfl := hx.unique hx' ht.inky ht'.inky
  exact (writes_unique t t' ht ht' (hb.delimited nofun) (hb'.delimited nofun)).1

/-! ## Lengths -/

theorem WritesString.length_lt {ps : List Piece} {x y : List Item} (h : WritesString ps x y) :
    y.length < x.length := by
  rw [h.2, length_cons, length_append, length_cons]
  omega

theorem After.length_le {α : Type} {more : List α → List Item → List Item → Prop} {l : List α}
    {b y : List Item} (h : After (more l) (l = []) b y)
    (hmore : ∀ c, more l c y → y.length ≤ c.length) : y.length ≤ b.length := by
  rcases h with ⟨-, h⟩ | ⟨-, c, h, hc⟩
  · exact h.length_le
  · have hb := h.length_le
    rw [length_cons] at hb
    have hy := hmore c hc
    omega

mutual

theorem Writes.length_lt (t : Tree) {x y : List Item} (h : Writes t x y) : y.length < x.length := by
  match t with
  | .null =>
    rw [show x = _ from h, length_append]
    exact Nat.lt_add_of_pos_left (by decide)
  | .bool true =>
    rw [show x = _ from h, length_append]
    exact Nat.lt_add_of_pos_left (by decide)
  | .bool false =>
    rw [show x = _ from h, length_append]
    exact Nat.lt_add_of_pos_left (by decide)
  | .number lexeme =>
    rw [h.2, length_append]
    refine Nat.lt_add_of_pos_left ?_
    rw [scalars, length_map]
    exact length_pos_iff.2 h.1.ne_nil
  | .string ps => exact WritesString.length_lt h
  | .array ts =>
    obtain ⟨a, rfl, ha⟩ := h
    have hlength := WritesItems.length_le ts ha
    rw [length_cons] at hlength ⊢
    omega
  | .object ms =>
    obtain ⟨a, rfl, ha⟩ := h
    have hlength := WritesMembers.length_le ms ha
    rw [length_cons] at hlength ⊢
    omega

theorem WritesItems.length_le (ts : List Tree) {x y : List Item} (h : WritesItems ts x y) :
    y.length ≤ x.length := by
  match ts with
  | [] => exact Ws.length_le h
  | t :: ts =>
    obtain ⟨a, b, hx, ht, hafter⟩ := writesItems_cons.1 h
    have ha := hx.length_le
    have hb := Writes.length_lt t ht
    have hy := hafter.length_le fun c => WritesItems.length_le ts
    omega

theorem WritesMembers.length_le (ms : List (List Piece × Tree)) {x y : List Item}
    (h : WritesMembers ms x y) : y.length ≤ x.length := by
  match ms with
  | [] => exact Ws.length_le h
  | (key, t) :: ms =>
    obtain ⟨a, b, c, d, e, hx, hkey, hb, hc, ht, hafter⟩ := writesMembers_cons.1 h
    have ha := hx.length_le
    have hkey := hkey.length_lt
    have hb := hb.length_le
    have hc := hc.length_le
    have he := Writes.length_lt t ht
    have hy := hafter.length_le fun f => WritesMembers.length_le ms
    rw [length_cons] at hb
    omega

end

end NapiVm.JsonGrammar
