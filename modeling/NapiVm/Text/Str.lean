import Mathlib.Algebra.GroupWithZero.Nat
import Mathlib.Data.List.Basic

/-!
# Strings of the standard library

What the sources use of `str` and `String`, on lists of characters.

* `trim`, `splitOnce`, `split`, `splitWhitespace` — by characters.
* `splitOnce_mid`, `split_mid`, `splitWhitespace_mid`, `trim_eq` — what they do to joined parts.
* `fromUtf8Lossy` — `String::from_utf8_lossy`.
-/

namespace NapiVm.Str

/-- `str::len`. -/
def len (text : List Char) : Nat := (text.map Char.utf8Size).sum

/-- `char::is_whitespace`. -/
def isWhitespace (c : Char) : Bool :=
  let n := c.toNat
  decide (9 ≤ n ∧ n ≤ 13) || decide (0x2000 ≤ n ∧ n ≤ 0x200A) ||
    [0x20, 0x85, 0xA0, 0x1680, 0x2028, 0x2029, 0x202F, 0x205F, 0x3000].contains n

/-- `str::trim`. -/
def trim (text : List Char) : List Char :=
  ((text.dropWhile isWhitespace).reverse.dropWhile isWhitespace).reverse

/-- `str::split_once`. -/
def splitOnce (pattern : List Char) : List Char → Option (List Char × List Char)
  | [] => if pattern = [] then some ([], []) else none
  | c :: rest =>
    if pattern.isPrefixOf (c :: rest) then some ([], (c :: rest).drop pattern.length)
    else (splitOnce pattern rest).map fun parts => (c :: parts.1, parts.2)

/-- `str::rsplit_once`, by a character. -/
def rsplitOnce (c : Char) (text : List Char) : Option (List Char × List Char) :=
  (splitOnce [c] text.reverse).map fun parts => (parts.2.reverse, parts.1.reverse)

/-- `str::eq_ignore_ascii_case`. -/
def eqIgnoreAsciiCase (a b : List Char) : Bool := a.map Char.toLower = b.map Char.toLower

/-- `str::split`, at the characters with a property. -/
def split (p : Char → Bool) : List Char → List (List Char)
  | [] => [[]]
  | c :: rest => if p c then [] :: split p rest else (split p rest).modifyHead (c :: ·)

/-- `str::split_whitespace`. -/
def splitWhitespace (text : List Char) : List (List Char) :=
  (split isWhitespace text).filter fun word => !word.isEmpty

/-- `str::get`, of so many bytes. -/
def getTo : Nat → List Char → Option (List Char)
  | 0, _ => some []
  | _ + 1, [] => none
  | n + 1, c :: rest =>
    if c.utf8Size ≤ n + 1 then (getTo (n + 1 - c.utf8Size) rest).map (c :: ·) else none

/-- `str::trim_end_matches`. -/
def trimEndMatches (c : Char) (text : List Char) : List Char :=
  (text.reverse.dropWhile (· == c)).reverse

/-- `str::rfind`, with what is before and behind the character. -/
def rfind (p : Char → Bool) (text : List Char) : Option (List Char × Char × List Char) :=
  match text.reverse.dropWhile fun c => !p c with
  | [] => none
  | c :: before => some (before.reverse, c, (text.reverse.takeWhile fun c => !p c).reverse)

/-! ## Parts of a text -/

section Lemmas

variable {l r : List Char} {c : Char} {p : Char → Bool}

theorem splitOnce_mid (h : c ∉ l) : splitOnce [c] (l ++ c :: r) = some (l, r) := by
  induction l with
  | nil =>
    rw [List.nil_append, splitOnce, if_pos (by simp only [List.isPrefixOf, beq_self_eq_true,
      Bool.true_and])]
    rfl
  | cons a l ih =>
    obtain ⟨ha, hl⟩ := List.ne_and_not_mem_of_not_mem_cons h
    have hne : [c].isPrefixOf (a :: (l ++ c :: r)) = false := by
      rw [List.isPrefixOf, beq_false_of_ne ha, Bool.false_and]
    rw [List.cons_append, splitOnce, if_neg (by rw [hne]; exact Bool.false_ne_true), ih hl]
    rfl

theorem split_mid (h : ∀ a ∈ l, p a = false) (hc : p c = true) :
    split p (l ++ c :: r) = l :: split p r := by
  induction l with
  | nil => rw [List.nil_append, split, if_pos hc]
  | cons a l ih =>
    obtain ⟨ha, hl⟩ := List.forall_mem_cons.1 h
    rw [List.cons_append, split, ha, if_neg Bool.false_ne_true, ih hl]
    rfl

theorem split_last (h : ∀ a ∈ l, p a = false) : split p l = [l] := by
  induction l with
  | nil => rfl
  | cons a l ih =>
    obtain ⟨ha, hl⟩ := List.forall_mem_cons.1 h
    rw [split, ha, if_neg Bool.false_ne_true, ih hl]
    rfl

theorem splitWhitespace_mid (hl : l ≠ []) (h : ∀ a ∈ l, isWhitespace a = false) :
    splitWhitespace (l ++ ' ' :: r) = l :: splitWhitespace r := by
  rw [splitWhitespace, split_mid h rfl, List.filter_cons_of_pos, splitWhitespace]
  rw [Bool.not_eq_true', List.isEmpty_eq_false_iff]
  exact hl

theorem splitWhitespace_last (hl : l ≠ []) (h : ∀ a ∈ l, isWhitespace a = false) :
    splitWhitespace l = [l] := by
  rw [splitWhitespace, split_last h, List.filter_cons_of_pos]
  · rfl
  · rw [Bool.not_eq_true', List.isEmpty_eq_false_iff]
    exact hl

theorem dropWhile_head (h : ∀ a ∈ l.head?, p a = false) : l.dropWhile p = l := by
  cases l with
  | nil => rfl
  | cons a l => rw [List.dropWhile_cons, h a rfl, if_neg Bool.false_ne_true]

/-- A text without whitespace at its ends. -/
theorem trim_eq (hhead : ∀ a ∈ l.head?, isWhitespace a = false)
    (hlast : ∀ a ∈ l.getLast?, isWhitespace a = false) : trim l = l := by
  rw [trim, dropWhile_head hhead, dropWhile_head, List.reverse_reverse]
  rwa [List.head?_reverse]

end Lemmas

/-! ## Bytes -/

/-- The bytes that may follow the first byte of a character, from and to. -/
def followers (b : UInt8) : List (UInt8 × UInt8) :=
  if 0xC2 ≤ b ∧ b ≤ 0xDF then [(0x80, 0xBF)]
  else if b = 0xE0 then [(0xA0, 0xBF), (0x80, 0xBF)]
  else if b = 0xED then [(0x80, 0x9F), (0x80, 0xBF)]
  else if 0xE1 ≤ b ∧ b ≤ 0xEF then [(0x80, 0xBF), (0x80, 0xBF)]
  else if b = 0xF0 then [(0x90, 0xBF), (0x80, 0xBF), (0x80, 0xBF)]
  else if 0xF1 ≤ b ∧ b ≤ 0xF3 then [(0x80, 0xBF), (0x80, 0xBF), (0x80, 0xBF)]
  else if b = 0xF4 then [(0x80, 0x8F), (0x80, 0xBF), (0x80, 0xBF)]
  else []

/-- How many bytes follow as they may. -/
def following : List (UInt8 × UInt8) → List UInt8 → Nat
  | range :: ranges, b :: rest =>
    if range.1 ≤ b ∧ b ≤ range.2 then following ranges rest + 1 else 0
  | _, _ => 0

/-- What the first byte of a character has of its number. -/
def leading (b : UInt8) : Nat :=
  if b < 0xE0 then b.toNat % 32 else if b < 0xF0 then b.toNat % 16 else b.toNat % 8

/-- The first character, and how many more bytes it has: a replacement character stands for
bytes that begin one and do not end it. -/
def firstChar (b : UInt8) (rest : List UInt8) : Char × Nat :=
  if b < 0x80 then (Char.ofNat b.toNat, 0)
  else
    let n := following (followers b) rest
    if n = 0 ∨ n < (followers b).length then ('\uFFFD', n)
    else (Char.ofNat ((rest.take n).foldl (fun code b => code * 64 + b.toNat % 64) (leading b)), n)

/-- The characters behind so many bytes that have been read. -/
def lossyFrom : Nat → List UInt8 → List Char
  | _, [] => []
  | n + 1, _ :: rest => lossyFrom n rest
  | 0, b :: rest => (firstChar b rest).1 :: lossyFrom (firstChar b rest).2 rest

/-- `String::from_utf8_lossy`. -/
def fromUtf8Lossy (bytes : List UInt8) : List Char := lossyFrom 0 bytes

example : fromUtf8Lossy [0x61, 0xE2, 0x82, 0xAC, 0xE2, 0x82, 0x41, 0xC0, 0x80] =
    ['a', '€', '\uFFFD', 'A', '\uFFFD', '\uFFFD'] := by decide

end NapiVm.Str
