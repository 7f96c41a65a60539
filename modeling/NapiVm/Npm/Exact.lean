import NapiVm.Npm.Range

/-!
# Exact versions

A requirement that is a whole version, or several of them between bars, selects just these.  The
wildcards are put in before the requirement is read, so a version with an `x` in an identifier
is not recognised.

* `Version` — a version, and its text.
* `Reads` — what the library does with the texts at hand.
* `versionMatches_exact_iff` — when a requirement of whole versions is met by just these.
-/

namespace NapiVm.Npm

open List

/-- A character of an identifier of a version, or the dot between two. -/
def isIdentifierChar (c : Char) : Bool :=
  let n := c.toNat
  decide (48 ≤ n ∧ n ≤ 57) || decide (65 ≤ n ∧ n ≤ 90) || decide (97 ≤ n ∧ n ≤ 122) ||
    n == 45 || n == 46

/-- A whole version. -/
structure Version where
  major : Nat
  minor : Nat
  patch : Nat
  pre : List Char
  build : List Char
  identifiers : (pre ++ build).all isIdentifierChar = true
  deriving DecidableEq

namespace Version

/-- The number of a release. -/
def core (v : Version) : List Char :=
  Nat.toDigits 10 v.major ++ '.' :: (Nat.toDigits 10 v.minor ++ '.' :: Nat.toDigits 10 v.patch)

/-- The identifiers, with their marks. -/
def suffix (v : Version) : List Char :=
  (if v.pre = [] then [] else '-' :: v.pre) ++ if v.build = [] then [] else '+' :: v.build

/-- `Display` of a version. -/
def text (v : Version) : List Char := v.core ++ v.suffix

/-- No identifier has a character that is taken for a wildcard. -/
def NoWildcard (v : Version) : Prop := 'x' ∉ v.pre ++ v.build ∧ 'X' ∉ v.pre ++ v.build

end Version

/-- Versions between bars. -/
def joinBars (versions : List Version) : List Char :=
  ['|', '|'].intercalate (versions.map Version.text)

/-- The versions that are looked at: up to the one that is there. -/
def reached (version : Version) : List Version → List Version
  | [] => []
  | first :: rest => first :: if first = version then [] else reached version rest

/-- A release number before something that is neither a part of it nor of an identifier. -/
def BadTail (range : List Char) : Prop :=
  ∃ (v : Version) (mark : Char) (identifier rest : List Char), (mark = '-' ∨ mark = '+') ∧
    range = v.core ++ mark :: (identifier ++ '*' :: rest) ∧ ',' ∉ identifier

/-- What the library does with the texts at hand. -/
structure Reads {R : Type} (semver : Semver Version R) (versions : List Version) : Prop where
  /-- The versions are well formed: their texts are read back. -/
  parse_text : ∀ v ∈ versions, semver.parse (String.ofList v.text) = .ok v
  /-- There is no star in a version. -/
  parse_star : ∀ range : List Char, '*' ∈ range → ∃ e, semver.parse (String.ofList range) = .error e
  /-- There is no wildcard in an identifier of a comparator. -/
  parseReq_tail : ∀ range : List Char, BadTail range →
    ∃ e, semver.parseReq (String.ofList range) = .error e
  /-- A star is any release. -/
  star : ∃ any, semver.parseReq "*" = .ok any ∧
    ∀ v : Version, semver.reqMatches any v = decide (v.pre = [])

/-! ## Characters of a text -/

/-- A character of the text of a version. -/
def IsTextChar (c : Char) : Prop := isIdentifierChar c = true ∨ c = '+'

theorem IsTextChar.toNat {c : Char} (h : IsTextChar c) :
    43 ≤ c.toNat ∧ c.toNat ≤ 122 ∧ c.toNat ≠ 44 := by
  rcases h with h | rfl
  · simp only [isIdentifierChar, Bool.or_eq_true, decide_eq_true_eq, beq_iff_eq] at h
    omega
  · decide

theorem IsTextChar.ne {c d : Char} (h : IsTextChar c) (hd : d.toNat < 43 ∨ 122 < d.toNat ∨ d = ',') :
    c ≠ d := by
  rintro rfl
  have hc := h.toNat
  rcases hd with hd | hd | rfl
  · omega
  · omega
  · exact hc.2.2 rfl

theorem isWhite_of_text {c : Char} (h : IsTextChar c) : isWhite c = false := by
  have hc := h.toNat
  simp only [isWhite, contains_eq_mem, mem_cons, not_mem_nil, or_false,
    Bool.or_eq_false_iff, decide_eq_false_iff_not]
  omega

theorem isTextChar_digit {n : Nat} {c : Char} (h : c ∈ Nat.toDigits 10 n) : IsTextChar c := by
  have hdigit := Char.isDigit_iff_toNat.1 (Nat.isDigit_of_mem_toDigits (by decide) (by decide) h)
  have hzero : '0'.toNat = 48 := rfl
  have hnine : '9'.toNat = 57 := rfl
  left
  simp only [isIdentifierChar, Bool.or_eq_true, decide_eq_true_eq, beq_iff_eq]
  omega

namespace Version

variable {v : Version} {c : Char}

/-- A character of a release number. -/
theorem digit_or_dot (h : c ∈ v.core) : (∃ n, c ∈ Nat.toDigits 10 n) ∨ c = '.' := by
  simp only [core, mem_append, mem_cons] at h
  rcases h with h | h | h | h | h
  · exact .inl ⟨_, h⟩
  · exact .inr h
  · exact .inl ⟨_, h⟩
  · exact .inr h
  · exact .inl ⟨_, h⟩

theorem isTextChar_core (h : c ∈ v.core) : IsTextChar c := by
  rcases digit_or_dot h with ⟨n, h⟩ | rfl
  · exact isTextChar_digit h
  · exact .inl (by decide)

/-- What is left of the text when a release number has its mark. -/
theorem suffix_eq (h : v.pre ++ v.build ≠ []) :
    ∃ (mark : Char) (tail : List Char), (mark = '-' ∨ mark = '+') ∧ v.suffix = mark :: tail ∧
      ∀ c, c ∈ tail ↔ c ∈ v.pre ++ v.build ∨ (v.pre ≠ [] ∧ v.build ≠ [] ∧ c = '+') := by
  by_cases hpre : v.pre = []
  · have hbuild : v.build ≠ [] := by
      rw [hpre] at h
      exact h
    refine ⟨'+', v.build, .inr rfl, ?_, fun c => ?_⟩
    · rw [suffix, if_pos hpre, if_neg hbuild, nil_append]
    · simp [hpre]
  · refine ⟨'-', v.pre ++ if v.build = [] then [] else '+' :: v.build, .inl rfl, ?_, fun c => ?_⟩
    · rw [suffix, if_neg hpre, cons_append]
    · by_cases hbuild : v.build = []
      · simp [hbuild]
      · rw [if_neg hbuild]
        simp only [mem_append, mem_cons, ne_eq, hpre, not_false_iff, hbuild, true_and]
        tauto

theorem isTextChar_identifiers (h : c ∈ v.pre ++ v.build) : IsTextChar c :=
  .inl (all_eq_true.1 v.identifiers c h)

theorem isTextChar (h : c ∈ v.text) : IsTextChar c := by
  rcases mem_append.1 h with h | h
  · exact isTextChar_core h
  · by_cases hnil : v.pre ++ v.build = []
    · obtain ⟨hpre, hbuild⟩ := append_eq_nil_iff.1 hnil
      simp [suffix, hpre, hbuild] at h
    · obtain ⟨mark, tail, hmark, hsuffix, htail⟩ := suffix_eq hnil
      rw [hsuffix, mem_cons] at h
      rcases h with rfl | h
      · rcases hmark with rfl | rfl
        · exact .inl (by decide)
        · exact .inr rfl
      · rcases (htail c).1 h with h | ⟨-, -, rfl⟩
        · exact isTextChar_identifiers h
        · exact .inr rfl

end Version

/-! ## The range of a text -/

/-- What is put in for a character. -/
def wildcard (c : Char) : Char := if c = 'x' ∨ c = 'X' then '*' else c

variable {c : Char} {s : List Char} {v : Version}

theorem wildcard_of_ne (hx : c ≠ 'x') (hX : c ≠ 'X') : wildcard c = c :=
  if_neg (not_or.2 ⟨hx, hX⟩)

theorem map_wildcard (hx : 'x' ∉ s) (hX : 'X' ∉ s) : s.map wildcard = s := by
  have hsame : s.map wildcard = s.map id := map_congr_left fun c hc =>
    wildcard_of_ne (fun h => hx (h ▸ hc)) fun h => hX (h ▸ hc)
  rw [hsame, map_id]

theorem trim_eq (h : ∀ c ∈ s, isWhite c = false) : trim s = s := by
  have hdrop : ∀ {t : List Char}, (∀ c ∈ t, isWhite c = false) → t.dropWhile isWhite = t := by
    intro t ht
    cases t with
    | nil => rfl
    | cons c rest => rw [dropWhile_cons_of_neg (by simp [ht c mem_cons_self])]
  rw [trim, hdrop h, hdrop fun c hc => h c (mem_reverse.1 hc), reverse_reverse]

/-- Nothing of a whole version is cut off. -/
theorem alternativeRange_text (v : Version) : alternativeRange v.text = v.text.map wildcard := by
  have htrim : trim v.text = v.text := trim_eq fun c hc => isWhite_of_text (v.isTextChar hc)
  have hdrop : v.text.dropWhile (· == 'v') = v.text := by
    cases hdigits : Nat.toDigits 10 v.major with
    | nil => exact absurd hdigits Nat.toDigits_ne_nil
    | cons c rest =>
      have hdigit : c.isDigit = true :=
        Nat.isDigit_of_mem_toDigits (b := 10) (n := v.major) (by decide) (by decide)
          (hdigits ▸ mem_cons_self)
      have hne : (c == 'v') = false := by
        rw [beq_eq_false_iff_ne]
        rintro rfl
        exact absurd hdigit (by decide)
      rw [Version.text, Version.core, hdigits]
      exact dropWhile_cons_of_neg (by simp [hne])
  have hne : v.text.map wildcard ≠ [] := by
    simp [Version.text, Version.core]
  rw [alternativeRange, htrim, hdrop]
  exact if_neg (by simpa [wildcard] using hne)

theorem mem_text_iff (hc : c = 'x' ∨ c = 'X') : c ∈ v.text ↔ c ∈ v.pre ++ v.build := by
  have hdigit : c ≠ '.' ∧ ∀ n, c ∉ Nat.toDigits 10 n := by
    have hnot : c.isDigit = false := by rcases hc with rfl | rfl <;> decide
    refine ⟨by rcases hc with rfl | rfl <;> decide, fun n hn => ?_⟩
    rw [Nat.isDigit_of_mem_toDigits (by decide) (by decide) hn] at hnot
    cases hnot
  have hcore : c ∉ v.core := fun h => by
    rcases Version.digit_or_dot h with ⟨n, hn⟩ | h
    · exact hdigit.2 n hn
    · exact hdigit.1 h
  have hplus : c ≠ '+' ∧ c ≠ '-' := by rcases hc with rfl | rfl <;> decide
  rw [Version.text, mem_append, or_iff_right hcore]
  by_cases hnil : v.pre ++ v.build = []
  · obtain ⟨hpre, hbuild⟩ := append_eq_nil_iff.1 hnil
    simp [Version.suffix, hpre, hbuild]
  · obtain ⟨mark, tail, hmark, hsuffix, htail⟩ := Version.suffix_eq hnil
    have hne : c ≠ mark := by
      rcases hmark with rfl | rfl
      · exact hplus.2
      · exact hplus.1
    rw [hsuffix, mem_cons, or_iff_right hne, htail]
    exact or_iff_left fun h => hplus.1 h.2.2

/-- A version without wildcards is the range that it is written as. -/
theorem map_wildcard_text (h : v.NoWildcard) : v.text.map wildcard = v.text :=
  map_wildcard (fun hx => h.1 ((mem_text_iff (.inl rfl)).1 hx))
    fun hX => h.2 ((mem_text_iff (.inr rfl)).1 hX)

/-- A version with a wildcard has it after the mark of its identifiers. -/
theorem badTail_text (h : ¬ v.NoWildcard) :
    BadTail (v.text.map wildcard) ∧ '*' ∈ v.text.map wildcard := by
  obtain ⟨c, hc, hmem⟩ : ∃ c, (c = 'x' ∨ c = 'X') ∧ c ∈ v.pre ++ v.build := by
    rw [Version.NoWildcard, not_and_or, not_not, not_not] at h
    rcases h with h | h
    · exact ⟨'x', .inl rfl, h⟩
    · exact ⟨'X', .inr rfl, h⟩
  have hstar : wildcard c = '*' := if_pos hc
  refine ⟨?_, mem_map.2 ⟨c, (mem_text_iff hc).2 hmem, hstar⟩⟩
  obtain ⟨mark, tail, hmark, hsuffix, htail⟩ := Version.suffix_eq (ne_nil_of_mem hmem)
  have hcore : v.core.map wildcard = v.core := by
    refine map_wildcard (fun hx => ?_) fun hX => ?_
    · rcases Version.digit_or_dot hx with ⟨n, hn⟩ | h
      · exact absurd (Nat.isDigit_of_mem_toDigits (by decide) (by decide) hn) (by decide)
      · exact absurd h (by decide)
    · rcases Version.digit_or_dot hX with ⟨n, hn⟩ | h
      · exact absurd (Nat.isDigit_of_mem_toDigits (by decide) (by decide) hn) (by decide)
      · exact absurd h (by decide)
  have hmarked : wildcard mark = mark := by rcases hmark with rfl | rfl <;> decide
  obtain ⟨identifier, rest, hsplit⟩ := append_of_mem
    (mem_map.2 ⟨c, (htail c).2 (.inl hmem), hstar⟩ : '*' ∈ tail.map wildcard)
  refine ⟨v, mark, identifier, rest, hmark, ?_, fun hcomma => ?_⟩
  · rw [Version.text, map_append, hcore, hsuffix, map_cons, hmarked, hsplit]
  · have hcomma : ',' ∈ tail.map wildcard := hsplit ▸ mem_append_left _ hcomma
    obtain ⟨d, hd, hwild⟩ := mem_map.1 hcomma
    have htext : IsTextChar d := v.isTextChar
      (mem_append_right _ (hsuffix ▸ mem_cons_of_mem _ hd))
    rw [wildcard] at hwild
    split at hwild
    · exact absurd hwild (by decide)
    · exact htext.ne (.inr (.inr rfl)) hwild

theorem splitOnce_none {separator : List Char} (h : c ∉ s) :
    splitOnce (c :: separator) s = none := by
  induction s with
  | nil => rfl
  | cons d rest ih =>
    have hne : ¬ (c :: separator).isPrefixOf (d :: rest) = true := fun hp => by
      rw [isPrefixOf_cons_cons, Bool.and_eq_true, beq_iff_eq] at hp
      exact h (hp.1 ▸ mem_cons_self)
    rw [splitOnce, if_neg hne, ih fun hc => h (mem_cons_of_mem _ hc), Option.map_none]

/-- A range with a star, and with no space, is read as it is. -/
theorem comparators_star {range : List Char} (hstar : '*' ∈ range) (hspace : ' ' ∉ range) :
    comparators range = String.ofList range := by
  have honce : splitOnce " - ".toList range = none := splitOnce_none hspace
  have hall : (range.all fun c => c.isDigit || c == '.') = false := by
    rw [all_eq_false]
    exact ⟨'*', hstar, by decide⟩
  have hcontains : range.contains ' ' = false := by
    rw [contains_eq_mem, decide_eq_false hspace]
  rw [comparators, honce]
  simp only [hall, hcontains, Bool.false_and, Bool.false_eq_true, if_false]

/-! ## A requirement of whole versions -/

section Matches

variable {R : Type} {semver : Semver Version R} {version : Version} {versions : List Version}

/-- A version that the library reads is compared. -/
theorem anyAlternative_exact {v : Version} {rest : List (List Char)} (h : v.NoWildcard)
    (hparse : semver.parse (String.ofList v.text) = .ok v) :
    anyAlternative semver version (v.text :: rest) =
      if v = version then .ok true else anyAlternative semver version rest := by
  rw [anyAlternative, alternativeRange_text, map_wildcard_text h]
  simp only [hparse]

/-- A version with a wildcard is refused. -/
theorem anyAlternative_wildcard (version : Version) (rest : List (List Char)) {v : Version}
    (hreads : Reads semver versions) (h : ¬ v.NoWildcard) :
    ∃ e, anyAlternative semver version (v.text :: rest) = .error e := by
  obtain ⟨htail, hstar⟩ := badTail_text h
  have hspace : ' ' ∉ v.text.map wildcard := fun hmem => by
    obtain ⟨c, hc, hwild⟩ := mem_map.1 hmem
    rw [wildcard] at hwild
    split at hwild
    · exact absurd hwild (by decide)
    · exact (v.isTextChar hc).ne (.inl (by decide)) hwild
  obtain ⟨parsed, hparse⟩ := hreads.parse_star _ hstar
  obtain ⟨read, hread⟩ := hreads.parseReq_tail _ htail
  refine ⟨err ("Unsupported npm version range: " ++ read), ?_⟩
  rw [anyAlternative, alternativeRange_text]
  simp only [hparse, comparators_star hstar hspace, hread]

/-- The run over the alternatives: it comes to the right answer when no version that is looked at
has a wildcard. -/
theorem anyAlternative_texts (hreads : Reads semver versions) {seen : List Version}
    (hseen : ∀ v ∈ seen, v ∈ versions) :
    anyAlternative semver version (seen.map Version.text) = .ok (decide (version ∈ seen)) ↔
      ∀ v ∈ reached version seen, v.NoWildcard := by
  induction seen with
  | nil => simp [anyAlternative, reached]
  | cons first rest ih =>
    have ih := ih fun v hv => hseen v (mem_cons_of_mem _ hv)
    rw [map_cons, reached, forall_mem_cons]
    by_cases hfirst : first.NoWildcard
    · rw [anyAlternative_exact hfirst (hreads.parse_text first (hseen first mem_cons_self))]
      by_cases hv : first = version
      · simp [hv, hv ▸ hfirst]
      · rw [if_neg hv, if_neg hv, decide_eq_decide.2 (mem_cons.trans
          (or_iff_right (Ne.symm hv))), ih]
        exact (and_iff_right hfirst).symm
    · obtain ⟨e, he⟩ := anyAlternative_wildcard version (rest.map Version.text) hreads hfirst
      rw [he]
      exact iff_of_false (by simp) fun h => hfirst h.1

theorem splitBars_of_not_mem {s : List Char} (h : '|' ∉ s) : splitBars s = [s] := by
  induction s with
  | nil => rfl
  | cons c rest ih =>
    rw [splitBars, ih fun hc => h (mem_cons_of_mem _ hc)]
    rintro others rfl
    exact fun _ => h mem_cons_self

theorem splitBars_append {s rest : List Char} (h : '|' ∉ s) :
    splitBars (s ++ '|' :: '|' :: rest) = s :: splitBars rest := by
  induction s with
  | nil => rfl
  | cons c s ih =>
    rw [cons_append, splitBars, ih fun hc => h (mem_cons_of_mem _ hc)]
    rintro others rfl
    exact fun _ => h mem_cons_self

/-- The alternatives are the texts that were joined. -/
theorem splitBars_joinBars (h : versions ≠ []) :
    splitBars (joinBars versions) = versions.map Version.text := by
  have hbar : ∀ v : Version, '|' ∉ v.text := fun v hv =>
    (v.isTextChar hv).ne (.inr (.inl (by decide))) rfl
  induction versions with
  | nil => exact absurd rfl h
  | cons first rest ih =>
    cases rest with
    | nil => simpa [joinBars] using splitBars_of_not_mem (hbar first)
    | cons second rest =>
      rw [joinBars, map_cons, map_cons, intercalate_cons_cons, append_assoc]
      exact (splitBars_append (hbar first)).trans (congrArg _ (ih (cons_ne_nil _ _)))

/-- No version at all is any release. -/
theorem anyAlternative_nil (hreads : Reads semver versions) :
    anyAlternative semver version [[]] = .ok (decide (version.pre = [])) := by
  obtain ⟨e, hparse⟩ := hreads.parse_star ['*'] mem_cons_self
  obtain ⟨any, hany, hmatches⟩ := hreads.star
  have hrange : alternativeRange [] = ['*'] := by decide
  have hread : semver.parseReq (comparators ['*']) = .ok any := by
    rw [comparators_star mem_cons_self (by decide)]
    exact hany
  rw [anyAlternative, hrange]
  simp only [hparse, hread, hmatches, anyAlternative]
  by_cases hpre : version.pre = []
  · simp [hpre]
  · simp [hpre]

/-- A requirement of whole versions is met by just these, unless a version with a wildcard is
looked at, or there is none at all. -/
theorem versionMatches_exact_iff (hreads : Reads semver (version :: versions)) :
    versionMatches semver (String.ofList version.text) (String.ofList (joinBars versions)) =
        .ok (decide (version ∈ versions)) ↔
      (versions = [] → version.pre ≠ []) ∧ ∀ v ∈ reached version versions, v.NoWildcard := by
  rw [versionMatches, hreads.parse_text version List.mem_cons_self]
  simp only [String.toList_ofList]
  by_cases hnil : versions = []
  · subst hnil
    rw [show splitBars (joinBars []) = [[]] from rfl, anyAlternative_nil hreads]
    simp [reached]
  · rw [splitBars_joinBars hnil, anyAlternative_texts hreads fun v hv => List.mem_cons_of_mem _ hv]
    simp [hnil]

end Matches

/-! ## Two versions -/

/-- `1.0.0-beta`. -/
def beta : Version := ⟨1, 0, 0, "beta".toList, [], by decide⟩

/-- `1.0.0-next`. -/
def next : Version := ⟨1, 0, 0, "next".toList, [], by decide⟩

/-- A library that knows two versions, and any release. -/
def twoVersions : Semver Version Unit where
  parse s :=
    match [beta, next].find? fun v => v.text == s.toList with
    | some v => .ok v
    | none => .error "unexpected character"
  display v := String.ofList v.text
  le _ _ := true
  parseReq s := if s = "*" then .ok () else .error "unexpected character"
  reqMatches _ v := decide (v.pre = [])

theorem reads_twoVersions : Reads twoVersions [beta, next] where
  parse_text v hv := by
    rw [mem_cons, mem_singleton] at hv
    rcases hv with rfl | rfl
    · rfl
    · rfl
  parse_star range hstar := by
    refine ⟨"unexpected character", ?_⟩
    have hnone : ([beta, next].find? fun v => v.text == (String.ofList range).toList) = none := by
      refine find?_eq_none.2 fun v _ htext => ?_
      rw [String.toList_ofList, beq_iff_eq] at htext
      exact (v.isTextChar (htext ▸ hstar)).ne (.inl (by decide)) rfl
    simp only [twoVersions, hnone]
  parseReq_tail range hbad := by
    obtain ⟨v, mark, identifier, rest, -, rfl, -⟩ := hbad
    refine ⟨"unexpected character", if_neg fun h => ?_⟩
    have hlist := congrArg String.toList h
    rw [String.toList_ofList] at hlist
    have hlength := congrArg length hlist
    simp [Version.core] at hlength
    omega
  star := ⟨(), rfl, fun _ => rfl⟩

theorem versionMatches_exact_beta :
    Reads twoVersions [beta, next] ∧
      (versionMatches twoVersions "1.0.0-beta" (String.ofList (joinBars [next])) = .ok false ↔
        ([next] = [] → beta.pre ≠ []) ∧ ∀ v ∈ reached beta [next], v.NoWildcard) :=
  ⟨reads_twoVersions, versionMatches_exact_iff reads_twoVersions⟩

/-- A version with an `x` does not match itself. -/
theorem next_not_exact :
    Reads twoVersions [beta, next] ∧ "1.0.0-next" = String.ofList next.text ∧
      versionMatches twoVersions (String.ofList next.text) (String.ofList next.text) ≠ .ok true := by
  refine ⟨reads_twoVersions, by decide, fun h => ?_⟩
  have hreads : Reads twoVersions [next] :=
    { reads_twoVersions with
      parse_text := fun v hv => reads_twoVersions.parse_text v (List.mem_cons_of_mem _ hv) }
  have hwild : ¬ next.NoWildcard := fun hno => hno.1 (by decide)
  obtain ⟨e, he⟩ := anyAlternative_wildcard next [] hreads hwild
  rw [versionMatches, reads_twoVersions.parse_text next (by decide)] at h
  simp only [String.toList_ofList] at h
  rw [splitBars_of_not_mem (by decide), he] at h
  cases h

end NapiVm.Npm
