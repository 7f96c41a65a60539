import NapiVm.Value.Basic

/-!
# Package names and version ranges

How a package specifier is read, and which version of a package a range selects.  Versions
and comparators are those of a library, a parameter here.

* `request` — the name and the range in a specifier.
* `versionMatches`, `selectVersion` — `version_matches`, `select_version`.
-/

namespace NapiVm.Npm

/-! ## Text -/

/-- `char::is_whitespace`. -/
def isWhite (c : Char) : Bool :=
  let n := c.toNat
  decide (9 ≤ n ∧ n ≤ 13) || decide (0x2000 ≤ n ∧ n ≤ 0x200A) ||
    [0x20, 0x85, 0xA0, 0x1680, 0x2028, 0x2029, 0x202F, 0x205F, 0x3000].contains n

/-- `trim`. -/
def trim (s : List Char) : List Char :=
  ((s.dropWhile isWhite).reverse.dropWhile isWhite).reverse

/-- `split_once`. -/
def splitOnce (separator : List Char) : List Char → Option (List Char × List Char)
  | [] => if separator.isEmpty then some ([], []) else none
  | c :: rest =>
    if separator.isPrefixOf (c :: rest) then some ([], (c :: rest).drop separator.length)
    else (splitOnce separator rest).map fun p => (c :: p.1, p.2)

/-- `rsplit_once`, at one character. -/
def rsplitOnce (separator : Char) (s : List Char) : Option (List Char × List Char) :=
  (splitOnce [separator] s.reverse).map fun p => (p.2.reverse, p.1.reverse)

/-- `split`, at one character. -/
def splitChar (separator : Char) : List Char → List (List Char)
  | [] => [[]]
  | c :: rest =>
    if c = separator then [] :: splitChar separator rest
    else
      match splitChar separator rest with
      | [] => [[c]]
      | first :: others => (c :: first) :: others

/-- `split("||")`. -/
def splitBars : List Char → List (List Char)
  | '|' :: '|' :: rest => [] :: splitBars rest
  | [] => [[]]
  | c :: rest =>
    match splitBars rest with
    | [] => [[c]]
    | first :: others => (c :: first) :: others

/-- `split_whitespace`. -/
def splitWhite (s : List Char) : List (List Char) :=
  (splitChar ' ' (s.map fun c => if isWhite c then ' ' else c)).filter fun word => !word.isEmpty

/-- `err`. -/
def err (text : String) : VmErr := .msg text

/-! ## Specifiers -/

/-- A character of a package name. -/
def isNameChar (c : Char) : Bool :=
  c.isAlphanum || ['@', '_', '-', '.'].contains c

/-- `request`. -/
def request (specifier : String) : Except VmErr (String × String) :=
  let whole := specifier.toList
  let whole := if "npm:".toList.isPrefixOf whole then whole.drop 4 else whole
  let (name, requirement) :=
    match (rsplitOnce '@' whole).filter fun p => !p.1.isEmpty with
    | some p => p
    | none => (whole, "latest".toList)
  let segments := splitChar '/' name
  if segments.length ≠ (if name.head? = some '@' then 2 else 1) ∨
      segments.any (fun s => s.isEmpty || s == ['.'] || s == ['.', '.'] || !s.all isNameChar) then
    .error (err "Invalid npm package name")
  else .ok (String.ofList name, String.ofList requirement)

/-! ## Versions -/

/-- The version library. -/
structure Semver (V R : Type) where
  /-- `Version::parse`. -/
  parse : String → Except String V
  display : V → String
  le : V → V → Bool
  /-- `VersionReq::parse`. -/
  parseReq : String → Except String R
  reqMatches : R → V → Bool

/-- A release in a package's metadata. -/
structure Release where
  name : Option String
  version : Option String
  integrity : Option String
  tarball : Option String

/-- The metadata of a package: its tags and its versions. -/
structure Metadata where
  tags : List (String × Option String)
  versions : List (String × Release)

section Versions

variable {V R : Type} [DecidableEq V] (semver : Semver V R)

/-- What the library can read of a range. -/
def comparators (range : List Char) : String :=
  match splitOnce " - ".toList range with
  | some (start, last) =>
    ">=" ++ String.ofList start ++ ", <=" ++ String.ofList last
  | none =>
    if range.all (fun c => c.isDigit || c == '.') && (splitChar '.' range).length < 3 then
      String.ofList range ++ ".*"
    else if range.contains ' ' && !range.contains ',' then
      String.intercalate ", " ((splitWhite range).map String.ofList)
    else String.ofList range

/-- One alternative, without its leading `v` and with `*` for `x`. -/
def alternativeRange (alternative : List Char) : List Char :=
  let range := ((trim alternative).dropWhile (· == 'v')).map fun c =>
    if c = 'x' ∨ c = 'X' then '*' else c
  if range.isEmpty then ['*'] else range

/-- Does one of the alternatives match? -/
def anyAlternative (version : V) : List (List Char) → Except VmErr Bool
  | [] => .ok false
  | alternative :: rest =>
    let range := alternativeRange alternative
    match semver.parse (String.ofList range) with
    | .ok exact => if exact = version then .ok true else anyAlternative version rest
    | .error _ =>
      match semver.parseReq (comparators range) with
      | .error e => .error (err ("Unsupported npm version range: " ++ e))
      | .ok req =>
        if semver.reqMatches req version then .ok true else anyAlternative version rest

/-- `version_matches`. -/
def versionMatches (version requirement : String) : Except VmErr Bool :=
  match semver.parse version with
  | .error e => .error (err e)
  | .ok version => anyAlternative semver version (splitBars requirement.toList)

/-- The greatest version. -/
def greatest (versions : List V) : Option V :=
  versions.foldl (fun found version =>
    match found with
    | none => some version
    | some other => if semver.le other version then some version else some other) none

/-- `select_version`. -/
def selectVersion (metadata : Metadata) (requirement : String) : Except VmErr String :=
  match metadata.tags.lookup requirement with
  | some (some version) => .ok version
  | _ =>
    let requirement := if requirement = "" then "*" else requirement
    match versionMatches semver "0.0.0" requirement with
    | .error e => .error e
    | .ok _ =>
      let versions := metadata.versions.filterMap fun p => (semver.parse p.1).toOption
      let candidates := versions.filter fun version =>
          match versionMatches semver (semver.display version) requirement with
          | .ok b => b
          | .error _ => false
      match greatest semver candidates with
      | some version => .ok (semver.display version)
      | none => .error (err "No npm version satisfies the requested range")

/-- A tag names the version, or the range matches it. -/
def Satisfies (metadata : Metadata) (requirement version : String) : Prop :=
  metadata.tags.lookup requirement = some (some version) ∨
    versionMatches semver version requirement = .ok true

omit [DecidableEq V] in
theorem greatest_mem {versions : List V} {version : V}
    (h : greatest semver versions = some version) : version ∈ versions := by
  have hall : ∀ (l : List V) (found : Option V),
      l.foldl (fun found version =>
        match found with
        | none => some version
        | some other => if semver.le other version then some version else some other) found =
          some version → version ∈ l ∨ found = some version := by
    intro l
    induction l with
    | nil => exact fun found h => .inr h
    | cons first rest ih =>
      intro found h
      rcases ih _ h with hmem | hfound
      · exact .inl (List.mem_cons_of_mem _ hmem)
      · cases found with
        | none =>
          cases hfound
          exact .inl List.mem_cons_self
        | some other =>
          simp only at hfound
          split at hfound
          · cases hfound
            exact .inl List.mem_cons_self
          · exact .inr hfound
  rcases hall versions none h with hmem | hnone
  · exact hmem
  · cases hnone

/-- An empty range is any version. -/
theorem versionMatches_star (version : String) :
    versionMatches semver version "*" = versionMatches semver version "" := by
  unfold versionMatches
  cases semver.parse version with
  | error e => rfl
  | ok v =>
    have hstar : splitBars "*".toList = [['*']] := by decide
    have hempty : splitBars "".toList = [[]] := by decide
    have hrange : alternativeRange ['*'] = alternativeRange [] := by decide
    simp only [hstar, hempty, anyAlternative, hrange]

/-- What is selected satisfies the range. -/
theorem satisfies_selectVersion {metadata : Metadata} {requirement version : String}
    (h : selectVersion semver metadata requirement = .ok version) :
    Satisfies semver metadata requirement version := by
  unfold selectVersion at h
  split at h
  · rename_i tag htag
    cases h
    exact .inl htag
  · dsimp only at h
    split at h
    · cases h
    · split at h
      · rename_i found hfound
        cases h
        have hmem := (List.mem_filter.1 (greatest_mem semver hfound)).2
        right
        split at hmem
        · rename_i b hb
          subst hmem
          split at hb
          · rename_i hempty
            rw [hempty, ← versionMatches_star]
            exact hb
          · exact hb
        · cases hmem
      · cases h

end Versions

end NapiVm.Npm
