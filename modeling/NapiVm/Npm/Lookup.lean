import Mathlib.Data.Nat.Find
import NapiVm.Npm.Walk

/-!
# What a dependency finds

After an installation, a package looks its dependencies up in the directories above it, the
nearest first.  A dependency that was installed below the package is found there.  One that was
left out finds the nearest package of its name, which need not be the one it was left out for.

* `Consistent` — every dependency finds a version that it allows.
* `Unshadowed` — what the registry must say for that.
* `registry` — a registry that serves some packages.
-/

namespace NapiVm.Npm

section Lookup

variable {B V R : Type} [DecidableEq V] (world : World B V R)

/-- The version has the tag, or the range matches it. -/
def Allows (name requirement version : String) : Prop :=
  ∃ metadata, world.metadata name = .ok metadata ∧
    Satisfies world.semver metadata requirement version

/-- Every package finds what it declares. -/
def Consistent (files : PMap Path Manifest) : Prop :=
  ∀ path manifest, files path = some manifest → ∀ d ∈ manifest.dependencies,
    ∃ range found manifest' version, d.2 = some range ∧ find files path d.1 = some found ∧
      files found = some manifest' ∧ manifest'.version = some version ∧
      Allows world d.1 range version

/-- The last of some packages has a dependency on another that is not among them. -/
def Placed (name requirement : String) (ancestors : Ancestors) (d version : String) : Prop :=
  ∃ range pin, Walk world [] name requirement ancestors d range ∧
    select world d range = .ok pin ∧ (d, pin.version) ∉ ancestors ∧ pin.version = version

/-- Where a dependency is left out, the nearest package of its name is one that it allows. -/
def Unshadowed (name requirement : String) : Prop :=
  ∀ ancestors d range pin, Walk world [] name requirement ancestors d range →
    select world d range = .ok pin → (d, pin.version) ∈ ancestors →
    ∀ k ≤ ancestors.length, ∀ version,
      Placed world name requirement (ancestors.take k) d version →
      (∀ j, k < j → j ≤ ancestors.length →
        ∀ other, ¬ Placed world name requirement (ancestors.take j) d other) →
      Allows world d range version

variable {world} {name requirement : String}

variable {range d n r n' r' : String} {a a' : Ancestors} {k : Nat}

theorem allows_select {pin : PackageLock} (h : select world name range = .ok pin) :
    Allows world name range pin.version := by
  obtain ⟨-, -, metadata, -, hmetadata, hversion, -⟩ := select_ok h
  exact ⟨metadata, hmetadata, satisfies_selectVersion world.semver hversion⟩

/-! ## Walks from the start -/

/-- How a walk has come to where it is. -/
theorem walk_last (h : Walk world [] name requirement a d range) :
    (a = [] ∧ d = name ∧ range = requirement) ∨
      ∃ a' n' r' pin manifest, Walk world [] name requirement a' n' r' ∧
        select world n' r' = .ok pin ∧ (n', pin.version) ∉ a' ∧
        manifestOf world pin = .ok manifest ∧ (d, some range) ∈ manifest.dependencies ∧
        a = a' ++ [(n', pin.version)] := by
  induction h using Walk.fromStart with
  | here => exact .inl ⟨rfl, rfl, rfl⟩
  | next hwalk _ hselect hfree hmanifest hdependency =>
    exact .inr ⟨_, _, _, _, _, hwalk, hselect, hfree, hmanifest, hdependency, rfl⟩

/-- There is one walk to a path. -/
theorem walk_unique (h : Walk world [] name requirement a n r)
    (h' : Walk world [] name requirement a' n' r') (hpath : pathOf a n = pathOf a' n') :
    a = a' ∧ n = n' ∧ r = r' := by
  induction h using Walk.fromStart generalizing a' n' r' with
  | here =>
    rcases walk_last h' with ⟨rfl, rfl, rfl⟩ | ⟨b, m, q, pin, manifest, -, -, -, -, -, rfl⟩
    · exact ⟨rfl, rfl, rfl⟩
    · have hlength := congrArg List.length hpath
      simp [pathOf] at hlength
  | @next b m q d range pin manifest hwalk ih hselect hfree hmanifest hdependency =>
    rcases walk_last h' with ⟨rfl, rfl, rfl⟩ |
      ⟨b', m', q', pin', manifest', hwalk', hselect', hfree', hmanifest', hdependency', rfl⟩
    · have hlength := congrArg List.length hpath
      simp [pathOf] at hlength
    · rw [pathOf_append, pathOf_append] at hpath
      obtain ⟨hparent, hname⟩ := List.append_inj' hpath rfl
      obtain ⟨rfl, rfl, rfl⟩ := ih hwalk' hparent
      cases hselect.symm.trans hselect'
      cases hmanifest.symm.trans hmanifest'
      obtain rfl : d = n' := List.singleton_injective hname
      have hrange := List.inj_on_of_nodup_map manifest.distinct hdependency hdependency' rfl
      cases hrange
      exact ⟨rfl, rfl, rfl⟩

/-- Walks through the same names have come to the same package. -/
theorem ancestors_unique (h : Walk world [] name requirement a n r)
    (h' : Walk world [] name requirement a' n' r') (hnames : a.map Prod.fst = a'.map Prod.fst) :
    a = a' := by
  rcases walk_last h with ⟨rfl, -, -⟩ | ⟨b, m, q, pin, -, hwalk, hselect, -, -, -, rfl⟩
  · exact (List.map_eq_nil_iff.1 hnames.symm).symm
  · rcases walk_last h' with ⟨rfl, -, -⟩ | ⟨b', m', q', pin', -, hwalk', hselect', -, -, -, rfl⟩
    · exact List.map_eq_nil_iff.1 hnames
    · simp only [List.map_append, List.map_cons, List.map_nil] at hnames
      obtain ⟨rfl, rfl, rfl⟩ := walk_unique hwalk hwalk' hnames
      cases hselect.symm.trans hselect'
      rfl

/-- A walk has been where its ancestors are. -/
theorem walk_take (h : Walk world [] name requirement a d range) (hk : k ≤ a.length) :
    ∃ d' range', Walk world [] name requirement (a.take k) d' range' := by
  induction h using Walk.fromStart with
  | here => exact ⟨name, requirement, by rw [List.take_nil]; exact .here _ _ _⟩
  | @next b m q d range pin manifest hwalk ih hselect hfree hmanifest hdependency =>
    rw [List.length_append, List.length_singleton] at hk
    rcases Nat.lt_or_ge b.length k with hlast | hle
    · have hall : (b ++ [(m, pin.version)]).take k = b ++ [(m, pin.version)] :=
        List.take_of_length_le (by simp; omega)
      rw [hall]
      exact ⟨d, range, hwalk.snoc hselect hfree hmanifest hdependency⟩
    · rw [List.take_append_of_le_length hle]
      exact ih hle

/-- Every ancestor has been placed. -/
theorem placed_of_mem {m version : String} (h : Walk world [] name requirement a d range)
    (hmem : (m, version) ∈ a) :
    ∃ k ≤ a.length, Placed world name requirement (a.take k) m version := by
  induction h using Walk.fromStart with
  | here => cases hmem
  | @next b n q d range pin manifest hwalk ih hselect hfree hmanifest hdependency =>
    rcases List.mem_append.1 hmem with hmem | hmem
    · obtain ⟨k, hk, hplaced⟩ := ih hmem
      refine ⟨k, Nat.le_trans hk (by simp), ?_⟩
      rwa [List.take_append_of_le_length hk]
    · cases List.mem_singleton.1 hmem
      refine ⟨b.length, by simp, q, pin, ?_, hselect, ?_, rfl⟩
      · rwa [List.take_left']
        rfl
      · rwa [List.take_left']
        rfl

/-! ## The nearest package -/

omit [DecidableEq V] in
theorem findFrom_nearest {files : PMap Path Manifest} {path : Path} {j : Nat} (hj : j ≤ k)
    (hsome : files (path.take j ++ [d]) ≠ none)
    (hnone : ∀ i, j < i → i ≤ k → files (path.take i ++ [d]) = none) :
    findFrom files path d k = some (path.take j ++ [d]) := by
  induction k with
  | zero =>
    obtain rfl : j = 0 := Nat.le_zero.1 hj
    obtain ⟨found, hfound⟩ := Option.ne_none_iff_exists'.1 hsome
    rw [List.take_zero, List.nil_append] at hfound ⊢
    simp only [findFrom, hfound, Option.map_some]
  | succ k ih =>
    rcases Nat.lt_or_ge k j with hlast | hle
    · obtain rfl : j = k + 1 := by omega
      obtain ⟨found, hfound⟩ := Option.ne_none_iff_exists'.1 hsome
      simp only [findFrom, hfound]
    · have habove := hnone (k + 1) (by omega) le_rfl
      simp only [findFrom, habove]
      exact ih hle fun i hi hik => hnone i hi (by omega)

/-- A property that holds somewhere holds at a last place. -/
theorem exists_nearest {P : Nat → Prop} {n : Nat} (hk : k ≤ n) (h : P k) :
    ∃ j ≤ n, P j ∧ ∀ i, j < i → i ≤ n → ¬ P i := by
  classical
  exact ⟨Nat.findGreatest P n, Nat.findGreatest_le n, Nat.findGreatest_spec hk h,
    fun i hi hin => Nat.findGreatest_is_greatest hi hin⟩

theorem take_pathOf (a : Ancestors) (k : Nat) (d : String) :
    (a.map Prod.fst).take k ++ [d] = pathOf (a.take k) d := by
  rw [pathOf, List.map_take]

section Outcome

variable {s' : Installer B}
  (houtcome : Outcome world Installer.new s' ([name] <+: ·) (Walk world [] name requirement))

include houtcome

variable {a : Ancestors} {d version d₀ range₀ : String} {manifest : Manifest} {k : Nat}

/-- What is placed has been written. -/
theorem files_of_placed (h : Placed world name requirement a d version) :
    ∃ manifest, s'.files (pathOf a d) = some manifest ∧ manifest.version = some version := by
  obtain ⟨range, pin, hwalk, hselect, hfree, rfl⟩ := h
  obtain ⟨pin', hselect', hrest⟩ := houtcome.visited _ _ _ hwalk
  cases hselect.symm.trans hselect'
  obtain ⟨-, manifest, -, hversion, -, hfiles⟩ := hrest hfree
  exact ⟨manifest, hfiles, hversion⟩

/-- Where the written packages come from. -/
theorem source_of_files {path : Path} (h : s'.files path = some manifest) :
    ∃ a n r pin, Walk world [] name requirement a n r ∧ select world n r = .ok pin ∧
      (n, pin.version) ∉ a ∧ path = pathOf a n ∧ manifestOf world pin = .ok manifest ∧
      manifest.version = some pin.version ∧ ∀ d ∈ manifest.dependencies, d.2 ≠ none := by
  by_cases hunder : [name] <+: path
  · obtain ⟨a, n, r, pin, hwalk, hselect, hfree, rfl⟩ :=
      houtcome.only path hunder (.inr (by rw [h]; nofun))
    obtain ⟨pin', hselect', hrest⟩ := houtcome.visited _ _ _ hwalk
    cases hselect.symm.trans hselect'
    obtain ⟨-, manifest', hmanifest, hversion, hranges, hfiles⟩ := hrest hfree
    cases h.symm.trans hfiles
    exact ⟨a, n, r, pin, hwalk, hselect, hfree, rfl, hmanifest, hversion, hranges⟩
  · have hnone := (houtcome.outside path hunder).2
    cases h.symm.trans hnone

/-- What is written above a package has been placed there. -/
theorem placed_of_files (hwalk : Walk world [] name requirement a d₀ range₀) (hk : k ≤ a.length)
    (h : s'.files (pathOf (a.take k) d) = some manifest) :
    ∃ version, Placed world name requirement (a.take k) d version := by
  obtain ⟨a', n, r, pin, hwalk', hselect, hfree, hpath, -⟩ := source_of_files houtcome h
  obtain ⟨d', range', htake⟩ := walk_take hwalk hk
  obtain ⟨hnames, hname⟩ := List.append_inj' hpath rfl
  obtain rfl : d = n := List.singleton_injective hname
  obtain rfl := ancestors_unique htake hwalk' hnames
  exact ⟨pin.version, r, pin, hwalk', hselect, hfree, rfl⟩

/-- A package finds the nearest that has been placed. -/
theorem find_nearest
    (hwalk : Walk world [] name requirement a d₀ range₀) (hk : k ≤ a.length)
    (hplaced : Placed world name requirement (a.take k) d version)
    (hnearest : ∀ j, k < j → j ≤ a.length →
      ∀ other, ¬ Placed world name requirement (a.take j) d other) :
    find s'.files (a.map Prod.fst) d = some (pathOf (a.take k) d) := by
  obtain ⟨manifest, hfiles, -⟩ := files_of_placed houtcome hplaced
  rw [find, List.length_map, ← take_pathOf]
  apply findFrom_nearest hk
  · rw [take_pathOf, hfiles]
    nofun
  · intro j hj hja
    rw [take_pathOf]
    cases hfound : s'.files (pathOf (a.take j) d) with
    | none => rfl
    | some found =>
      obtain ⟨other, hother⟩ := placed_of_files houtcome hwalk hja hfound
      exact absurd hother (hnearest j hj hja other)

theorem consistent_of_unshadowed (h : Unshadowed world name requirement) :
    Consistent world s'.files := by
  intro path manifest hfiles d hd
  obtain ⟨a, n, r, pin, hwalk, hselect, hfree, rfl, hmanifest, hversion, hranges⟩ :=
    source_of_files houtcome hfiles
  obtain ⟨d, range⟩ := d
  obtain ⟨range, rfl⟩ := Option.ne_none_iff_exists'.1 (hranges _ hd)
  have hnext := hwalk.snoc hselect hfree hmanifest hd
  obtain ⟨pin', hselect', -⟩ := houtcome.visited _ _ _ hnext
  have hpath : pathOf a n = (a ++ [(n, pin.version)]).map Prod.fst := by
    simp only [pathOf, List.map_append, List.map_cons, List.map_nil]
  -- one of that name has been placed, at the package itself or above it
  have hplaced : ∃ k ≤ (a ++ [(n, pin.version)]).length, ∃ version,
      Placed world name requirement ((a ++ [(n, pin.version)]).take k) d version := by
    by_cases hmem : (d, pin'.version) ∈ a ++ [(n, pin.version)]
    · obtain ⟨k, hk, hplaced⟩ := placed_of_mem hnext hmem
      exact ⟨k, hk, _, hplaced⟩
    · refine ⟨_, le_rfl, pin'.version, range, pin', ?_, hselect', ?_, rfl⟩
      · rwa [List.take_length]
      · rwa [List.take_length]
  obtain ⟨k₀, hk₀, hplaced⟩ := hplaced
  obtain ⟨k, hk, ⟨version, hplaced⟩, hnearest⟩ := exists_nearest (P := fun k => ∃ version,
    Placed world name requirement ((a ++ [(n, pin.version)]).take k) d version) hk₀ hplaced
  have hnearest' : ∀ j, k < j → j ≤ (a ++ [(n, pin.version)]).length → ∀ other,
      ¬ Placed world name requirement ((a ++ [(n, pin.version)]).take j) d other :=
    fun j hj hja other hother => hnearest j hj hja ⟨other, hother⟩
  obtain ⟨found, hfound, hfoundVersion⟩ := files_of_placed houtcome hplaced
  refine ⟨range, _, found, version, rfl, ?_, hfound, hfoundVersion, ?_⟩
  · rw [hpath]
    exact find_nearest houtcome hnext hk hplaced hnearest'
  · by_cases hmem : (d, pin'.version) ∈ a ++ [(n, pin.version)]
    · exact h _ d range pin' hnext hselect' hmem k hk version hplaced hnearest'
    · -- it has been placed below the package, and is the nearest
      have hown : Placed world name requirement
          ((a ++ [(n, pin.version)]).take (a ++ [(n, pin.version)]).length) d pin'.version := by
        rw [List.take_length]
        exact ⟨range, pin', hnext, hselect', hmem, rfl⟩
      have hkl : k = (a ++ [(n, pin.version)]).length := by
        by_contra hne
        exact hnearest' _ (by omega) le_rfl _ hown
      subst hkl
      obtain ⟨manifest₁, hfiles₁, hversion₁⟩ := files_of_placed houtcome hown
      cases hfound.symm.trans hfiles₁
      cases hfoundVersion.symm.trans hversion₁
      exact allows_select hselect'

theorem unshadowed_of_consistent (h : Consistent world s'.files) :
    Unshadowed world name requirement := by
  intro a d range pin hwalk hselect hmem k hk version hplaced hnearest
  rcases walk_last hwalk with ⟨rfl, -, -⟩ |
    ⟨a, n, r, pin', manifest, hwalk', hselect', hfree', hmanifest', hdependency, rfl⟩
  · cases hmem
  · obtain ⟨pin'', hselect'', hrest⟩ := houtcome.visited _ _ _ hwalk'
    cases hselect'.symm.trans hselect''
    obtain ⟨-, manifest'', hmanifest'', -, -, hfiles⟩ := hrest hfree'
    cases hmanifest'.symm.trans hmanifest''
    obtain ⟨range', found, manifest₁, version', hrange, hfind, hfound, hversion, hallows⟩ :=
      h _ _ hfiles _ hdependency
    cases hrange
    have hnear := find_nearest houtcome hwalk hk hplaced hnearest
    have hpath : pathOf a n = (a ++ [(n, pin'.version)]).map Prod.fst := by
      simp only [pathOf, List.map_append, List.map_cons, List.map_nil]
    rw [hpath] at hfind
    cases hfind.symm.trans hnear
    obtain ⟨manifest₂, hfiles₂, hversion₂⟩ := files_of_placed houtcome hplaced
    cases hfound.symm.trans hfiles₂
    cases hversion.symm.trans hversion₂
    exact hallows

end Outcome

end Lookup

/-! ## A registry -/

namespace Registry

/-- A number without leading zeros. -/
def numeral (digits : List Char) : Option Nat :=
  if digits.isEmpty || !digits.all Char.isDigit || (digits.head? == some '0' && digits ≠ ['0']) then
    none
  else some (digits.foldl (fun n c => 10 * n + (c.toNat - '0'.toNat)) 0)

/-- Versions of three numbers, and the range of all versions. -/
def semver : Semver (Nat × Nat × Nat) Unit where
  parse text :=
    match (splitChar '.' text.toList).map numeral with
    | [some major, some minor, some patch] => .ok (major, minor, patch)
    | _ => .error "unexpected end of input"
  display v := s!"{v.1}.{v.2.1}.{v.2.2}"
  le v w :=
    decide (v.1 < w.1 ∨ v.1 = w.1 ∧ (v.2.1 < w.2.1 ∨ v.2.1 = w.2.1 ∧ v.2.2 ≤ w.2.2))
  parseReq text := if text = "*" then .ok () else .error "unexpected character"
  reqMatches _ _ := true

/-- The URL of a package, and the bytes behind it. -/
def url (manifest : Manifest) : String :=
  manifest.name.getD "" ++ "/" ++ manifest.version.getD ""

/-- Some packages are served, the archive at a URL being that URL. -/
def world (packages : List Manifest) (tags : List (String × Option String)) :
    World String (Nat × Nat × Nat) Unit where
  semver := semver
  metadata name := .ok
    { tags
      versions := (packages.filter fun manifest => manifest.name == some name).map fun manifest =>
        (manifest.version.getD "", {
          name := manifest.name
          version := manifest.version
          integrity := some ("sha512-" ++ url manifest)
          tarball := some (url manifest) }) }
  download tarball := .ok tarball
  verify bytes integrity :=
    if integrity = "sha512-" ++ bytes then .ok () else .error (err "Package integrity check failed")
  unpack bytes :=
    match packages.find? fun manifest => url manifest == bytes with
    | some manifest => .ok manifest
    | none => .error (err "Archive has no package.json")
  cacheKey integrity := integrity
  writeCache _ _ := .ok ()
  writePackage _ _ := .ok ()
  writeLock _ := .ok ()

/-- A package with one dependency. -/
def package (name version dependency range : String)
    (plain : request dependency = .ok (dependency, "latest")) : Manifest where
  name := some name
  version := some version
  dependencies := [(dependency, some range)]
  distinct := List.nodup_singleton _
  plain d hd := by rw [List.mem_singleton.1 hd]; exact plain

/-- A package without dependencies. -/
def leaf (name version : String) : Manifest where
  name := some name
  version := some version
  dependencies := []
  distinct := List.nodup_nil
  plain d hd := by cases hd

/-- Two versions of a package, one between the other and what depends on it. -/
def shadowing : World String (Nat × Nat × Nat) Unit :=
  world [package "a" "1.0.0" "b" "1.0.0" rfl, package "b" "1.0.0" "a" "2.0.0" rfl,
    package "a" "2.0.0" "c" "1.0.0" rfl, package "c" "1.0.0" "a" "1.0.0" rfl] []

/-- Two packages that depend on each other. -/
def cyclic : World String (Nat × Nat × Nat) Unit :=
  world [package "a" "1.0.0" "b" "1.0.0" rfl, package "b" "1.0.0" "a" "1.0.0" rfl] []

/-- A package that depends on another. -/
def chain : World String (Nat × Nat × Nat) Unit :=
  world [package "a" "1.0.0" "b" "1.0.0" rfl, leaf "b" "1.0.0"] []

/-- The text of an error. -/
def errorText (result : Except VmErr (Installer String)) : Option String :=
  match result with
  | .error (.msg text) => some text
  | _ => none

theorem error_of_errorText {result : Except VmErr (Installer String)} {text : String}
    (h : errorText result = some text) : result = .error (.msg text) := by
  unfold errorText at h
  split at h
  · cases h
    rfl
  · cases h

/-- The state that an installation leaves, checked. -/
def leaves (result : Except VmErr (Installer String)) (test : Installer String → Bool) : Bool :=
  match result with
  | .ok s => test s
  | .error _ => false

theorem leaves_iff {result : Except VmErr (Installer String)} {test : Installer String → Bool} :
    leaves result test = true ↔ ∃ s, result = .ok s ∧ test s = true := by
  cases result with
  | ok s =>
    refine ⟨fun h => ⟨s, rfl, h⟩, ?_⟩
    rintro ⟨s', heq, h⟩
    cases heq
    exact h
  | error e =>
    refine ⟨nofun, ?_⟩
    rintro ⟨s', heq, -⟩
    cases heq

end Registry

end NapiVm.Npm
