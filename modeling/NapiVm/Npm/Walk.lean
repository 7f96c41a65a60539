import NapiVm.Npm.Install

/-!
# Dependency paths

What an installation without a lockfile leaves behind, in terms of the registry alone: a
`Walk` follows dependencies from package to package, until one is on its own path already.

* `Walk` — the dependencies that `install_package` comes to.
* `Outcome` — what has been pinned and written, by the walks.
-/

namespace NapiVm.Npm

section Walk

variable {B V R : Type} [DecidableEq V] (world : World B V R)

/-- The packages on the way to a dependency, with their versions. -/
abbrev Ancestors := List (String × String)

/-- Where a dependency would be installed. -/
def pathOf (ancestors : Ancestors) (name : String) : Path := ancestors.map Prod.fst ++ [name]

/-- The `package.json` in the archive of a pin. -/
def manifestOf (pin : PackageLock) : Except VmErr Manifest :=
  match world.download pin.tarball with
  | .error e => .error e
  | .ok bytes => world.unpack bytes

/-- From one dependency to another. -/
inductive Walk : Ancestors → String → String → Ancestors → String → String → Prop where
  | here (ancestors : Ancestors) (name requirement : String) :
      Walk ancestors name requirement ancestors name requirement
  | into {ancestors : Ancestors} {name requirement : String} {pin : PackageLock}
      {manifest : Manifest} {dependency range : String} {ancestors' : Ancestors}
      {name' requirement' : String} (hselect : select world name requirement = .ok pin)
      (hfree : (name, pin.version) ∉ ancestors) (hmanifest : manifestOf world pin = .ok manifest)
      (hdependency : (dependency, some range) ∈ manifest.dependencies)
      (hwalk : Walk (ancestors ++ [(name, pin.version)]) dependency range
        ancestors' name' requirement') :
      Walk ancestors name requirement ancestors' name' requirement'

/-- Every archive in the cache is that of a release with its name and version. -/
def Cached (s : Installer B) : Prop :=
  ∀ key bytes, s.cache key = some bytes → ∃ name requirement pin manifest,
    select world name requirement = .ok pin ∧ world.cacheKey pin.integrity = key ∧
      world.download pin.tarball = .ok bytes ∧ world.writeCache key bytes = .ok () ∧
      world.unpack bytes = .ok manifest ∧ manifest.name = some name ∧
      manifest.version = some pin.version

/-- What an installation does, at the paths under it and for the dependencies it comes to. -/
structure Outcome (s s' : Installer B) (Under : Path → Prop)
    (Visit : Ancestors → String → String → Prop) : Prop where
  locked : s'.locked = s.locked
  cached : Cached world s'
  cache : s.cache.Le s'.cache
  outside : ∀ p, ¬ Under p → s'.lock p = s.lock p ∧ s'.files p = s.files p
  visited : ∀ ancestors name requirement, Visit ancestors name requirement →
    ∃ pin, select world name requirement = .ok pin ∧ ((name, pin.version) ∉ ancestors →
      s'.lock (pathOf ancestors name) = some pin ∧ ∃ manifest,
        manifestOf world pin = .ok manifest ∧ manifest.version = some pin.version ∧
          (∀ d ∈ manifest.dependencies, d.2 ≠ none) ∧
          s'.files (pathOf ancestors name) = some manifest)
  only : ∀ p, Under p → s'.lock p ≠ none ∨ s'.files p ≠ none →
    ∃ ancestors name requirement pin, Visit ancestors name requirement ∧
      select world name requirement = .ok pin ∧ (name, pin.version) ∉ ancestors ∧
      p = pathOf ancestors name

/-- Nothing is there yet. -/
def Fresh (s : Installer B) (Under : Path → Prop) : Prop :=
  ∀ p, Under p → s.lock p = none ∧ s.files p = none

variable {world} {s s' : Installer B}

/-! ## Releases -/

variable {name requirement n r n' r' d : String} {pin : PackageLock} {a a' ancestors : Ancestors}
  {manifest : Manifest} {path p : Path} {Under Under' : Path → Prop}
  {Visit Visit' : Ancestors → String → String → Prop} {mid : Installer B}

theorem select_ok (h : select world name requirement = .ok pin) :
    pin.name = name ∧ pin.requirement = requirement ∧ ∃ metadata selected,
      world.metadata name = .ok metadata ∧
      selectVersion world.semver metadata requirement = .ok pin.version ∧
      metadata.versions.lookup pin.version = some selected ∧
      selected.integrity = some pin.integrity ∧ selected.tarball = some pin.tarball := by
  unfold select at h
  split at h
  · cases h
  · rename_i metadata hmetadata
    split at h
    · cases h
    · rename_i version hversion
      split at h
      · cases h
      · rename_i selected hselected
        split at h
        · cases h
        · split at h
          · cases h
          · cases h
          · rename_i integrity tarball hintegrity htarball
            cases h
            exact ⟨rfl, rfl, metadata, selected, hmetadata, hversion, hselected, hintegrity,
              htarball⟩

/-- A name and a version make the artifact. -/
theorem select_agree {requirement' : String} {pin' : PackageLock}
    (h : select world name requirement = .ok pin) (h' : select world name requirement' = .ok pin')
    (hversion : pin.version = pin'.version) :
    pin.integrity = pin'.integrity ∧ pin.tarball = pin'.tarball := by
  obtain ⟨-, -, metadata, selected, hmetadata, -, hselected, hintegrity, htarball⟩ := select_ok h
  obtain ⟨-, -, metadata', selected', hmetadata', -, hselected', hintegrity', htarball'⟩ :=
    select_ok h'
  cases hmetadata.symm.trans hmetadata'
  rw [hversion] at hselected
  cases hselected.symm.trans hselected'
  exact ⟨Option.some.inj (hintegrity.symm.trans hintegrity'),
    Option.some.inj (htarball.symm.trans htarball')⟩

/-! ## Walks -/

theorem pathOf_append (ancestors : Ancestors) (name version dependency : String) :
    pathOf (ancestors ++ [(name, version)]) dependency = pathOf ancestors name ++ [dependency] := by
  simp [pathOf]

/-- A walk goes down. -/
theorem walk_below (h : Walk world a n r a' n' r') : pathOf a n <+: pathOf a' n' := by
  induction h with
  | here a n r => exact List.prefix_refl _
  | into hselect hfree hmanifest hdependency hwalk ih =>
    rw [pathOf_append] at ih
    exact (List.prefix_append _ _).trans ih

/-- A walk goes on to a dependency of the package it has come to. -/
theorem Walk.snoc {dependency range : String} (h : Walk world a n r a' n' r')
    (hselect : select world n' r' = .ok pin) (hfree : (n', pin.version) ∉ a')
    (hmanifest : manifestOf world pin = .ok manifest)
    (hdependency : (dependency, some range) ∈ manifest.dependencies) :
    Walk world a n r (a' ++ [(n', pin.version)]) dependency range := by
  induction h with
  | here a n r => exact .into hselect hfree hmanifest hdependency (.here _ _ _)
  | into hselect' hfree' hmanifest' hdependency' _ ih =>
    exact .into hselect' hfree' hmanifest' hdependency' (ih hselect hfree)

/-- Induction along a walk, from its start. -/
@[elab_as_elim]
theorem Walk.fromStart
    {motive : ∀ a' n' r', Walk world a n r a' n' r' → Prop} (here : motive a n r (.here a n r))
    (next : ∀ {a' : Ancestors} {n' r' dependency range : String} {pin : PackageLock}
      {manifest : Manifest} (hwalk : Walk world a n r a' n' r'), motive a' n' r' hwalk →
      ∀ (hselect : select world n' r' = .ok pin) (hfree : (n', pin.version) ∉ a')
        (hmanifest : manifestOf world pin = .ok manifest)
        (hdependency : (dependency, some range) ∈ manifest.dependencies),
        motive (a' ++ [(n', pin.version)]) dependency range
          (hwalk.snoc hselect hfree hmanifest hdependency))
    {a' : Ancestors} {n' r' : String} (h : Walk world a n r a' n' r') : motive a' n' r' h := by
  induction h with
  | here a n r => exact here
  | into hselect hfree hmanifest hdependency hwalk ih =>
    exact ih (motive := fun a' n' r' hwalk =>
        motive a' n' r' (.into hselect hfree hmanifest hdependency hwalk))
      (next (.here _ _ _) here hselect hfree hmanifest hdependency)
      fun hwalk hmotive => next (.into hselect hfree hmanifest hdependency hwalk) hmotive

/-! ## One package -/

omit [DecidableEq V] in
/-- What `archive` does. -/
theorem archive_ok {bytes : B} (h : s.archive world pin = .ok (bytes, s')) :
    (s' = s ∧ s.cache (world.cacheKey pin.integrity) = some bytes) ∨
      (s.cache (world.cacheKey pin.integrity) = none ∧
        world.download pin.tarball = .ok bytes ∧ world.verify bytes pin.integrity = .ok () ∧
        world.writeCache (world.cacheKey pin.integrity) bytes = .ok () ∧
        s' = { s with cache := s.cache.insert (world.cacheKey pin.integrity) bytes }) := by
  unfold Installer.archive at h
  dsimp only at h
  split at h
  · rename_i found hfound
    cases h
    exact .inl ⟨rfl, hfound⟩
  · rename_i hnone
    split at h
    · cases h
    · rename_i found hdownload
      split at h
      · cases h
      · rename_i hverify
        split at h
        · cases h
        · rename_i hwrite
          cases h
          exact .inr ⟨hnone, hdownload, hverify, hwrite, rfl⟩

omit [DecidableEq V] in
/-- What `place` does. -/
theorem place_ok (h : s.place world path name pin = .ok (manifest, s')) :
    ∃ bytes mid, s.archive world pin = .ok (bytes, mid) ∧
      world.verify bytes pin.integrity = .ok () ∧ world.unpack bytes = .ok manifest ∧
      manifest.name = some name ∧ manifest.version = some pin.version ∧
      world.writePackage path bytes = .ok () ∧
      s' = { mid with
        installed := mid.installed + 1
        lock := mid.lock.insert path pin
        files := mid.files.insert path manifest } := by
  unfold Installer.place at h
  split at h
  · cases h
  · rename_i bytes mid harchive
    split at h
    · cases h
    · rename_i hverify
      split at h
      · cases h
      · rename_i found hunpack
        split at h
        · cases h
        · rename_i hidentity
          rw [not_or, not_not, not_not] at hidentity
          split at h
          · cases h
          · rename_i hwrite
            cases h
            exact ⟨bytes, mid, harchive, hverify, hunpack, hidentity.1, hidentity.2, hwrite, rfl⟩

/-- A release is placed with the manifest of its own archive. -/
theorem place_select (hcached : Cached world s)
    (hselect : select world name requirement = .ok pin)
    (h : s.place world path name pin = .ok (manifest, s')) :
    manifestOf world pin = .ok manifest ∧ manifest.version = some pin.version ∧
      Cached world s' ∧ s.cache.Le s'.cache ∧
      s'.locked = s.locked ∧ s'.installed = s.installed + 1 ∧
      s'.lock = s.lock.insert path pin ∧ s'.files = s.files.insert path manifest := by
  obtain ⟨bytes, mid, harchive, -, hunpack, hname, hversion, -, rfl⟩ := place_ok h
  rcases archive_ok harchive with ⟨rfl, hfound⟩ | ⟨hnone, hdownload, -, hwrite, rfl⟩
  · -- the archive was there, as that of a release with the same name and version
    obtain ⟨other, requirement', pin', manifest', hselect', -, hdownload, -, hunpack', hname',
      hversion'⟩ := hcached _ _ hfound
    cases hunpack.symm.trans hunpack'
    obtain rfl : name = other := Option.some.inj (hname.symm.trans hname')
    have hagree := select_agree hselect hselect' (Option.some.inj (hversion.symm.trans hversion'))
    have hmanifest : manifestOf world pin = .ok manifest := by
      simp only [manifestOf, hagree.2, hdownload, hunpack]
    exact ⟨hmanifest, hversion, hcached, fun _ _ h => h, rfl, rfl, rfl, rfl⟩
  · have hmanifest : manifestOf world pin = .ok manifest := by
      simp only [manifestOf, hdownload, hunpack]
    refine ⟨hmanifest, hversion, fun key found hfound => ?_, PMap.le_insert _ ?_, rfl, rfl, rfl,
      rfl⟩
    · rcases PMap.insert_cases hfound with ⟨rfl, rfl⟩ | ⟨-, hfound⟩
      · exact ⟨name, requirement, pin, manifest, hselect, rfl, hdownload, hwrite, hunpack, hname,
          hversion⟩
      · exact hcached key found hfound
    · intro other hother
      cases hnone.symm.trans hother

/-! ## Several packages -/

theorem Outcome.refl
    (hcached : Cached world s) (hfresh : Fresh s Under)
    (hvisit : ∀ ancestors name requirement, Visit ancestors name requirement →
      ∃ pin, select world name requirement = .ok pin ∧ (name, pin.version) ∈ ancestors) :
    Outcome world s s Under Visit where
  locked := rfl
  cached := hcached
  cache _ _ h := h
  outside _ _ := ⟨rfl, rfl⟩
  visited ancestors name requirement h := by
    obtain ⟨pin, hselect, hmem⟩ := hvisit ancestors name requirement h
    exact ⟨pin, hselect, fun hfree => absurd hmem hfree⟩
  only p hp h := by
    obtain ⟨hlock, hfiles⟩ := hfresh p hp
    exact absurd hfiles (h.resolve_left (not_not.2 hlock))

theorem Outcome.congr (h : Outcome world s s' Under Visit) (hunder : ∀ p, Under' p ↔ Under p)
    (hvisit : ∀ a n r, Visit' a n r ↔ Visit a n r) :
    Outcome world s s' Under' Visit' where
  locked := h.locked
  cached := h.cached
  cache := h.cache
  outside p hp := h.outside p fun hu => hp ((hunder p).2 hu)
  visited a n r hv := h.visited a n r ((hvisit a n r).1 hv)
  only p hp hsome := by
    obtain ⟨a, n, r, pin, hv, hrest⟩ := h.only p ((hunder p).1 hp) hsome
    exact ⟨a, n, r, pin, (hvisit a n r).2 hv, hrest⟩

/-- One installation after another, at other paths. -/
theorem Outcome.trans (h : Outcome world s mid Under Visit)
    (h' : Outcome world mid s' Under' Visit') (hapart : ∀ p, Under p → ¬ Under' p)
    (hplace : ∀ a n r, Visit a n r → Under (pathOf a n)) :
    Outcome world s s' (fun p => Under p ∨ Under' p) (fun a n r => Visit a n r ∨ Visit' a n r) where
  locked := h'.locked.trans h.locked
  cached := h'.cached
  cache := h.cache.trans h'.cache
  outside p hp := by
    rw [not_or] at hp
    obtain ⟨hlock, hfiles⟩ := h.outside p hp.1
    obtain ⟨hlock', hfiles'⟩ := h'.outside p hp.2
    exact ⟨hlock'.trans hlock, hfiles'.trans hfiles⟩
  visited a n r hv := by
    rcases hv with hv | hv
    · obtain ⟨pin, hselect, hrest⟩ := h.visited a n r hv
      refine ⟨pin, hselect, fun hfree => ?_⟩
      obtain ⟨hlock, manifest, hmanifest, hversion, hranges, hfiles⟩ := hrest hfree
      obtain ⟨hlock', hfiles'⟩ := h'.outside _ (hapart _ (hplace a n r hv))
      exact ⟨hlock'.trans hlock, manifest, hmanifest, hversion, hranges, hfiles'.trans hfiles⟩
    · exact h'.visited a n r hv
  only p hp hsome := by
    by_cases hunder : Under p
    · obtain ⟨hlock', hfiles'⟩ := h'.outside p (hapart p hunder)
      rw [hlock', hfiles'] at hsome
      obtain ⟨a, n, r, pin, hv, hrest⟩ := h.only p hunder hsome
      exact ⟨a, n, r, pin, .inl hv, hrest⟩
    · obtain ⟨a, n, r, pin, hv, hrest⟩ := h'.only p (hp.resolve_left hunder) hsome
      exact ⟨a, n, r, pin, .inr hv, hrest⟩

theorem child_eq {d' : String} (h : path ++ [d] <+: p) (h' : path ++ [d'] <+: p) : d = d' := by
  have heq : path ++ [d] = path ++ [d'] :=
    (List.prefix_of_prefix_length_le h h' (by simp)).eq_of_length (by simp)
  exact List.singleton_injective (List.append_cancel_left heq)

/-- Below one dependency is not below the others. -/
theorem child_apart {rest : List (String × Option String)} (hd : d ∉ rest.map Prod.fst)
    (hp : path ++ [d] <+: p) : ¬ ∃ d' ∈ rest, path ++ [d'.1] <+: p := by
  rintro ⟨d', hd', hp'⟩
  exact hd (List.mem_map.2 ⟨d', hd', (child_eq hp hp').symm⟩)

theorem child_below (hp : path ++ [d] <+: p) : path <+: p ∧ p ≠ path := by
  refine ⟨(List.prefix_append _ _).trans hp, ?_⟩
  rintro rfl
  have hlength := hp.length_le
  rw [List.length_append, List.length_singleton] at hlength
  omega

/-- Nothing is below the other dependencies when the first has been installed. -/
theorem Fresh.rest {rest : List (String × Option String)} (hd : d ∉ rest.map Prod.fst)
    (hfresh : ∀ d' ∈ rest, Fresh s (path ++ [d'.1] <+: ·))
    (h : Outcome world s mid (path ++ [d] <+: ·) Visit) :
    ∀ d' ∈ rest, Fresh mid (path ++ [d'.1] <+: ·) := by
  intro d' hd' p hp
  have hout := h.outside p fun hp' => child_apart hd hp' ⟨d', hd', hp⟩
  have hempty := hfresh d' hd' p hp
  exact ⟨hout.1.trans hempty.1, hout.2.trans hempty.2⟩

omit [DecidableEq V] in
/-- Nothing is below a package that has just been placed. -/
theorem Fresh.child (hfresh : Fresh s (path <+: ·)) (hlock : s'.lock = s.lock.insert path pin)
    (hfiles : s'.files = s.files.insert path manifest) (d : String) :
    Fresh s' (path ++ [d] <+: ·) := by
  intro p hp
  obtain ⟨hunder, hne⟩ := child_below hp
  rw [hlock, hfiles, PMap.insert_of_ne hne, PMap.insert_of_ne hne]
  exact hfresh p hunder

/-- Where nothing is pinned, the registry selects. -/
theorem pin_fresh (hlocked : s.locked = false) (hnone : s.lock path = none) :
    s.pin world path name requirement =
      select world name requirement := by
  simp only [Installer.pin, hnone, hlocked, Bool.false_eq_true, if_false]

theorem outcome_installAll
    {install : Installer B → String → String → Except VmErr (Installer B)}
    {l : List (String × Option String)} (hpath : ∀ d, pathOf ancestors d = path ++ [d])
    (hdistinct : (l.map Prod.fst).Nodup)
    (hplain : ∀ d ∈ l, request d.1 = .ok (d.1, "latest"))
    (hinstall : ∀ d range s s', (d, some range) ∈ l → s.locked = false → Cached world s →
      Fresh s (path ++ [d] <+: ·) → install s d range = .ok s' →
        Outcome world s s' (path ++ [d] <+: ·) (Walk world ancestors d range))
    (hlocked : s.locked = false) (hcached : Cached world s)
    (hfresh : ∀ d ∈ l, Fresh s (path ++ [d.1] <+: ·))
    (h : Installer.installAll install l s = .ok s') :
    (∀ d ∈ l, d.2 ≠ none) ∧
      Outcome world s s' (fun p => ∃ d ∈ l, path ++ [d.1] <+: p)
        (fun a n r => ∃ d range, (d, some range) ∈ l ∧ Walk world ancestors d range a n r) := by
  induction l generalizing s with
  | nil =>
    cases h
    refine ⟨nofun, Outcome.refl hcached (fun p hp => ?_) fun a n r hv => ?_⟩
    · obtain ⟨d, hd, -⟩ := hp
      cases hd
    · obtain ⟨d, range, hd, -⟩ := hv
      cases hd
  | cons first rest ih =>
    obtain ⟨d, range⟩ := first
    simp only [Installer.installAll] at h
    cases range with
    | none => cases h
    | some range =>
      rw [hplain (d, some range) List.mem_cons_self] at h
      dsimp only at h
      split at h
      · cases h
      · rename_i mid hmid
        rw [List.map_cons, List.nodup_cons] at hdistinct
        have hfirst := hinstall d range s mid List.mem_cons_self hlocked hcached
          (hfresh _ List.mem_cons_self) hmid
        have hmidFresh := Fresh.rest hdistinct.1
          (fun d' hd' => hfresh d' (List.mem_cons_of_mem _ hd')) hfirst
        have hrest := ih hdistinct.2 (fun d' hd' => hplain d' (List.mem_cons_of_mem _ hd'))
          (fun d' range' s s' hd' => hinstall d' range' s s' (List.mem_cons_of_mem _ hd'))
          (hfirst.locked.trans hlocked) hfirst.cached hmidFresh h
        have hapart : ∀ p, path ++ [d] <+: p → ¬ ∃ d' ∈ rest, path ++ [d'.1] <+: p :=
          fun _ => child_apart hdistinct.1
        refine ⟨fun d' hd' => ?_, (hfirst.trans hrest.2 hapart fun a n r hv => ?_).congr
          (fun p => ?_) fun a n r => ?_⟩
        · rcases List.mem_cons.1 hd' with rfl | hd'
          · nofun
          · exact hrest.1 d' hd'
        · have hbelow := walk_below hv
          rwa [hpath d] at hbelow
        · simp only [List.mem_cons, exists_eq_or_imp]
        · simp only [List.mem_cons]
          constructor
          · rintro ⟨d', range', heq | hd', hv⟩
            · cases heq
              exact .inl hv
            · exact .inr ⟨d', range', hd', hv⟩
          · rintro (hv | ⟨d', range', hd', hv⟩)
            · exact ⟨d, range, .inl rfl, hv⟩
            · exact ⟨d', range', .inr hd', hv⟩

/-- **What an installation without a lockfile does.** -/
theorem outcome_installPackage {fuel : Nat}
    (hlocked : s.locked = false) (hcached : Cached world s)
    (hfresh : Fresh s (pathOf ancestors name <+: ·))
    (h : Installer.installPackage world fuel s name requirement (pathOf ancestors name) ancestors =
      .ok s') :
    Outcome world s s' (pathOf ancestors name <+: ·) (Walk world ancestors name requirement) := by
  induction fuel generalizing s s' name requirement ancestors with
  | zero => cases h
  | succ fuel ih =>
    rw [Installer.installPackage] at h
    split at h
    · cases h
    · have hempty := hfresh _ (List.prefix_refl _)
      rw [pin_fresh hlocked hempty.1] at h
      split at h
      · cases h
      · rename_i pin hselect
        split at h
        · -- it is being installed already, and no walk goes on
          rename_i hmem
          cases h
          refine .refl hcached hfresh fun a n r hv => ?_
          cases hv with
          | here => exact ⟨pin, hselect, hmem⟩
          | into hselect' hfree =>
            cases hselect.symm.trans hselect'
            exact absurd hmem hfree
        · rename_i hfree
          split at h
          · cases h
          · rename_i manifest mid hplace
            obtain ⟨hmanifest, hversion, hmidCached, hmidCache, hmidLocked, -, hmidLock,
              hmidFiles⟩ := place_select hcached hselect hplace
            obtain ⟨hranges, hall⟩ := outcome_installAll
              (fun d => pathOf_append ancestors name pin.version d) manifest.distinct
              manifest.plain
              (fun d range s s' hd hlocked hcached hfresh h => by
                rw [← pathOf_append ancestors name pin.version d] at hfresh h ⊢
                exact ih hlocked hcached hfresh h)
              (hmidLocked.trans hlocked) hmidCached
              (fun d _ => hfresh.child hmidLock hmidFiles d.1) h
            have hkept : s'.lock (pathOf ancestors name) = some pin ∧
                s'.files (pathOf ancestors name) = some manifest := by
              obtain ⟨hlock, hfiles⟩ := hall.outside (pathOf ancestors name) (by
                rintro ⟨d, -, hp⟩
                exact (child_below hp).2 rfl)
              rw [hlock, hfiles, hmidLock, hmidFiles]
              exact ⟨PMap.insert_self, PMap.insert_self⟩
            refine ⟨hall.locked.trans hmidLocked, hall.cached, hmidCache.trans hall.cache,
              fun p hp => ?_, fun a n r hv => ?_, fun p hp hsome => ?_⟩
            · obtain ⟨hlock, hfiles⟩ := hall.outside p (by
                rintro ⟨d, -, hd⟩
                exact hp (child_below hd).1)
              have hne : p ≠ pathOf ancestors name := by
                rintro rfl
                exact hp (List.prefix_refl _)
              rw [hlock, hfiles, hmidLock, hmidFiles]
              exact ⟨PMap.insert_of_ne hne, PMap.insert_of_ne hne⟩
            · cases hv with
              | here =>
                exact ⟨pin, hselect, fun _ =>
                  ⟨hkept.1, manifest, hmanifest, hversion, hranges, hkept.2⟩⟩
              | into hselect' hfree' hmanifest' hdependency hwalk =>
                cases hselect.symm.trans hselect'
                cases hmanifest.symm.trans hmanifest'
                exact hall.visited a n r ⟨_, _, hdependency, hwalk⟩
            · by_cases hpath : p = pathOf ancestors name
              · exact ⟨ancestors, name, requirement, pin, .here _ _ _, hselect, hfree, hpath⟩
              · by_cases hd : ∃ d ∈ manifest.dependencies, pathOf ancestors name ++ [d.1] <+: p
                · obtain ⟨a, n, r, pin', ⟨d, range, hdep, hwalk⟩, hrest⟩ := hall.only p hd hsome
                  exact ⟨a, n, r, pin', .into hselect hfree hmanifest hdep hwalk, hrest⟩
                · obtain ⟨hlock, hfiles⟩ := hall.outside p hd
                  rw [hlock, hfiles, hmidLock, hmidFiles, PMap.insert_of_ne hpath,
                    PMap.insert_of_ne hpath] at hsome
                  obtain ⟨hnone, hnone'⟩ := hfresh p hp
                  exact absurd hnone' (hsome.resolve_left (not_not.2 hnone))

/-- An installation into an empty root is that of one package. -/
theorem installPackage_of_install {specifier : String}
    (hrequest : request specifier = .ok (name, requirement))
    (h : Installer.new.install world specifier = .ok s') :
    Installer.installPackage world 33 Installer.new name requirement (pathOf [] name) [] = .ok s' ∧
      Outcome world Installer.new s' ([name] <+: ·) (Walk world [] name requirement) := by
  simp only [Installer.install, hrequest] at h
  split at h
  · cases h
  · rename_i final hfinal
    have hfinal' : Installer.installPackage world 33 Installer.new name requirement
        (pathOf [] name) [] = .ok final := hfinal
    have hcached : Cached world Installer.new := by
      intro _ _ h
      cases h
    have houtcome := outcome_installPackage rfl hcached (fun _ _ => ⟨rfl, rfl⟩) hfinal'
    have hlocked : final.locked = false := houtcome.locked
    simp only [hlocked, Bool.false_eq_true, if_false] at h
    split at h
    · cases h
    · cases h
      exact ⟨hfinal', houtcome⟩

end Walk

end NapiVm.Npm
