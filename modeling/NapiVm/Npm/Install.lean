import NapiVm.Npm.Range

/-!
# Installing packages

A package is written below the directory of the package that depends on it, and pinned in the
lockfile under that path.  A dependency on a name and version that is being installed already
is left out, so that cycles end.

The registry, the disk and the hashes are outside.  An archive is known by its `package.json`;
the names of its dependencies are package names.

* `Installer.install` — `install`, with or without a lockfile.
* `find` — the directory in which a dependency is looked up.
-/

namespace NapiVm.Npm

/-- `package.json`. -/
structure Manifest where
  name : Option String
  version : Option String
  dependencies : List (String × Option String)
  /-- The keys of an object, each of them the name of a package. -/
  distinct : (dependencies.map Prod.fst).Nodup
  plain : ∀ d ∈ dependencies, request d.1 = .ok (d.1, "latest")

/-- `PackageLock`. -/
structure PackageLock where
  name : String
  version : String
  integrity : String
  tarball : String
  requirement : String

/-- A path below `node_modules`, by the names of the packages in it. -/
abbrev Path := List String

/-- The same as text. -/
def keyText (path : Path) : String := String.intercalate "/node_modules/" path

/-- What an installer works with. -/
structure World (B V R : Type) where
  semver : Semver V R
  /-- What the registry says about a package. -/
  metadata : String → Except VmErr Metadata
  /-- The archive at a URL. -/
  download : String → Except VmErr B
  /-- `verify_integrity`. -/
  verify : B → String → Except VmErr Unit
  /-- `unpack_archive`, and the `package.json` in it. -/
  unpack : B → Except VmErr Manifest
  /-- The file of the cache, by the integrity. -/
  cacheKey : String → String
  writeCache : String → B → Except VmErr Unit
  /-- The files of an archive are written below a path. -/
  writePackage : Path → B → Except VmErr Unit
  writeLock : PMap Path PackageLock → Except VmErr Unit

/-- `NpmInstaller`, with the disk: the cache, and the packages that were written. -/
structure Installer (B : Type) where
  lock : PMap Path PackageLock
  locked : Bool
  installed : Nat
  cache : PMap String B
  files : PMap Path Manifest

def graphErr : VmErr := err "ResourceLimit: package graph exceeded"
def lockNameErr : VmErr := err "Lockfile package identity mismatch"
def lockVersionErr : VmErr := err "Lockfile version does not satisfy dependency"
def lockRequirementErr : VmErr := err "Lockfile dependency requirement mismatch"
def identityErr : VmErr := err "Registry package identity mismatch"
def integrityErr : VmErr := err "Package integrity required"
def tarballErr : VmErr := err "Package tarball required"
def archiveErr : VmErr := err "Archive package identity mismatch"
def rangeErr : VmErr := err "Invalid dependency version"

section Install

variable {B V R : Type} [DecidableEq V] (world : World B V R)

/-- The package that the registry selects. -/
def select (name requirement : String) : Except VmErr PackageLock :=
  match world.metadata name with
  | .error e => .error e
  | .ok metadata =>
    match selectVersion world.semver metadata requirement with
    | .error e => .error e
    | .ok version =>
      match metadata.versions.lookup version with
      | none => .error identityErr
      | some selected =>
        if selected.name ≠ some name ∨ selected.version ≠ some version then
          .error identityErr
        else
          match selected.integrity, selected.tarball with
          | none, _ => .error integrityErr
          | some _, none => .error tarballErr
          | some integrity, some tarball =>
            .ok ⟨name, version, integrity, tarball, requirement⟩

/-- What a pin in the lockfile must be. -/
def checkPin (pin : PackageLock) (name requirement : String) : Except VmErr Unit :=
  if pin.name ≠ name then .error lockNameErr
  else
    match versionMatches world.semver pin.version requirement with
    | .ok false => .error lockVersionErr
    | .error _ => if pin.requirement ≠ requirement then .error lockRequirementErr else .ok ()
    | .ok true => .ok ()

namespace Installer

/-- `new`, in an empty root. -/
def new : Installer B := ⟨PMap.empty, false, 0, PMap.empty, PMap.empty⟩

/-- `new`, locked, in a root with a lockfile. -/
def newLocked (lock : PMap Path PackageLock) (cache : PMap String B)
    (files : PMap Path Manifest) : Installer B :=
  ⟨lock, true, 0, cache, files⟩

/-- The pin of a package: that of the lockfile, or what the registry selects. -/
def pin (s : Installer B) (path : Path) (name requirement : String) :
    Except VmErr PackageLock :=
  match s.lock path with
  | some pin =>
    match checkPin world pin name requirement with
    | .error e => .error e
    | .ok () => .ok pin
  | none =>
    if s.locked then .error (err ("Package missing from lockfile: " ++ keyText path))
    else select world name requirement

/-- The archive of a pin, from the cache or into it. -/
def archive (s : Installer B) (pin : PackageLock) : Except VmErr (B × Installer B) :=
  let key := world.cacheKey pin.integrity
  match s.cache key with
  | some bytes => .ok (bytes, s)
  | none =>
    match world.download pin.tarball with
    | .error e => .error e
    | .ok bytes =>
      match world.verify bytes pin.integrity with
      | .error e => .error e
      | .ok () =>
        match world.writeCache key bytes with
        | .error e => .error e
        | .ok () => .ok (bytes, { s with cache := s.cache.insert key bytes })

/-- A package is unpacked and written, and pinned. -/
def place (s : Installer B) (path : Path) (name : String) (pin : PackageLock) :
    Except VmErr (Manifest × Installer B) :=
  match s.archive world pin with
  | .error e => .error e
  | .ok (bytes, s) =>
    match world.verify bytes pin.integrity with
    | .error e => .error e
    | .ok () =>
      match world.unpack bytes with
      | .error e => .error e
      | .ok manifest =>
        if manifest.name ≠ some name ∨ manifest.version ≠ some pin.version then
          .error archiveErr
        else
          match world.writePackage path bytes with
          | .error e => .error e
          | .ok () =>
            .ok (manifest, { s with
              installed := s.installed + 1
              lock := s.lock.insert path pin
              files := s.files.insert path manifest })

/-- The dependencies of a package, in order. -/
def installAll (install : Installer B → String → String → Except VmErr (Installer B)) :
    List (String × Option String) → Installer B → Except VmErr (Installer B)
  | [], s => .ok s
  | (dependency, range) :: rest, s =>
    match range with
    | none => .error rangeErr
    | some range =>
      match request dependency with
      | .error e => .error e
      | .ok (name, _) =>
        match install s name range with
        | .error e => .error e
        | .ok s => installAll install rest s

/-- `install_package`; a fuel of 33 lasts, for there are at most 32 ancestors. -/
def installPackage : Nat → Installer B → String → String → Path → List (String × String) →
    Except VmErr (Installer B)
  | 0, _, _, _, _, _ => .error graphErr
  | fuel + 1, s, name, requirement, path, ancestors =>
    if 32 ≤ ancestors.length ∨ 256 ≤ s.installed then .error graphErr
    else
      match s.pin world path name requirement with
      | .error e => .error e
      | .ok pin =>
        if (name, pin.version) ∈ ancestors then .ok s
        else
          match s.place world path name pin with
          | .error e => .error e
          | .ok (manifest, s) =>
            installAll (fun s dependency range =>
              installPackage fuel s dependency range (path ++ [dependency])
                (ancestors ++ [(name, pin.version)])) manifest.dependencies s

/-- `install`. -/
def install (s : Installer B) (specifier : String) : Except VmErr (Installer B) :=
  match request specifier with
  | .error e => .error e
  | .ok (name, requirement) =>
    match installPackage world 33 s name requirement [name] [] with
    | .error e => .error e
    | .ok s =>
      if s.locked then .ok s
      else
        match world.writeLock s.lock with
        | .error e => .error e
        | .ok () => .ok s

variable {world} {s s' : Installer B} {specifier name requirement : String}

theorem install_error {e : VmErr} (hrequest : request specifier = .ok (name, requirement))
    (h : installPackage world 33 s name requirement [name] [] = .error e) :
    s.install world specifier = .error e := by
  simp only [install, hrequest, h]

theorem install_locked (hrequest : request specifier = .ok (name, requirement))
    (h : installPackage world 33 s name requirement [name] [] = .ok s')
    (hlocked : s'.locked = true) : s.install world specifier = .ok s' := by
  simp only [install, hrequest, h, hlocked, if_true]

end Installer

end Install

/-- The nearest directory that has a package, from a path of length `k` upwards. -/
def findFrom (files : PMap Path Manifest) (path : Path) (name : String) : Nat → Option Path
  | 0 => (files [name]).map fun _ => [name]
  | k + 1 =>
    match files (path.take (k + 1) ++ [name]) with
    | some _ => some (path.take (k + 1) ++ [name])
    | none => findFrom files path name k

/-- The directory in which `resolve_path` finds a package, from the directory of another. -/
def find (files : PMap Path Manifest) (path : Path) (name : String) : Option Path :=
  findFrom files path name path.length

end NapiVm.Npm
