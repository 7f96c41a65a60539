import NapiVm.Npm.Lookup

/-!
# Installing from a lockfile

A locked installation takes every version from the lockfile that an unlocked one wrote, which
has no pin for a dependency that was left out.  The two are run side by side.

* `Replayable` — what the registry must say for the lockfile to be enough.
* `replay_iff` — then, and only then, it is.
-/

namespace NapiVm.Npm

open List

section Replay

variable {B V R : Type} [DecidableEq V]

/-- The same with another registry before the archives. -/
def World.withMetadata (world : World B V R) (metadata : String → Except VmErr Metadata) :
    World B V R :=
  { world with metadata }

variable (world : World B V R)

/-- Nothing is left out, and no tag that reads as a range names a version outside of it. -/
def Replayable (ancestors : Ancestors) (name requirement : String) : Prop :=
  ∀ a n r pin, Walk world ancestors name requirement a n r → select world n r = .ok pin →
    (n, pin.version) ∉ a ∧ versionMatches world.semver pin.version r ≠ .ok false

/-- A locked installation is where an unlocked one is that will end with `final`. -/
structure Ready (final s t : Installer B) : Prop where
  locked : t.locked = true
  lock : t.lock = final.lock
  installed : t.installed = s.installed
  cache : t.cache.Le final.cache
  files : t.files.Le final.files

/-- It comes to where the unlocked one is next, with the same packages, if `Good`; and fails
otherwise. -/
def Follows (final s' t : Installer B) (Under : Path → Prop) (Good : Prop)
    (result : Except VmErr (Installer B)) : Prop :=
  (Good → ∃ t', result = .ok t' ∧ Ready final s' t' ∧ t.files.Le t'.files ∧
    ∀ p, Under p → ∀ manifest, s'.files p = some manifest → t'.files p = some manifest) ∧
  (¬ Good → ∃ e, result = .error e)

/-- The unlocked installation is done with some paths. -/
structure Done (final s' : Installer B) (Under : Path → Prop) : Prop where
  cache : s'.cache.Le final.cache
  same : ∀ p, Under p → final.lock p = s'.lock p ∧ final.files p = s'.files p

variable {world} {s s' t final : Installer B} {metadata : String → Except VmErr Metadata}

variable {ancestors : Ancestors} {name requirement : String} {pin : PackageLock}
  {manifest : Manifest} {path : Path}

theorem replayable_iff (hselect : select world name requirement = .ok pin)
    (hfree : (name, pin.version) ∉ ancestors) (hmanifest : manifestOf world pin = .ok manifest) :
    Replayable world ancestors name requirement ↔
      versionMatches world.semver pin.version requirement ≠ .ok false ∧
      ∀ d range, (d, some range) ∈ manifest.dependencies →
        Replayable world (ancestors ++ [(name, pin.version)]) d range := by
  constructor
  · intro h
    refine ⟨(h _ _ _ pin (.here _ _ _) hselect).2, ?_⟩
    intro d range hd a n r pin' hwalk
    exact h a n r pin' (.into hselect hfree hmanifest hd hwalk)
  · rintro ⟨hmatches, hall⟩ a n r pin' hwalk hselect'
    cases hwalk with
    | here =>
      cases hselect.symm.trans hselect'
      exact ⟨hfree, hmatches⟩
    | into hselect'' hfree' hmanifest' hdependency hwalk =>
      cases hselect.symm.trans hselect''
      cases hmanifest.symm.trans hmanifest'
      exact hall _ _ hdependency a n r pin' hwalk hselect'

/-- A pin passes for the dependency that it was selected for, but for such a tag. -/
theorem checkPin_select (hselect : select world name requirement = .ok pin) :
    checkPin (world.withMetadata metadata) pin name requirement =
      if versionMatches world.semver pin.version requirement = .ok false then
        .error lockVersionErr
      else .ok () := by
  obtain ⟨hname, hrequirement, -⟩ := select_ok hselect
  simp only [checkPin, World.withMetadata, hname, ne_eq, not_true_eq_false, if_false]
  cases hmatches : versionMatches world.semver pin.version requirement with
  | error e => simp [hrequirement]
  | ok b => cases b <;> simp

variable (metadata) in
/-- The archive is the same. -/
theorem archive_replay (hfinal : Cached world final)
    (hselect : select world name requirement = .ok pin)
    (h : s.place world path name pin = .ok (manifest, s')) (hs' : s'.cache.Le final.cache)
    (ht : t.cache.Le final.cache) :
    ∃ bytes cache, t.archive (world.withMetadata metadata) pin = .ok (bytes, { t with cache }) ∧
      cache.Le final.cache ∧ world.verify bytes pin.integrity = .ok () ∧
      world.unpack bytes = .ok manifest ∧ manifest.name = some name ∧
      manifest.version = some pin.version ∧ world.writePackage path bytes = .ok () := by
  obtain ⟨bytes, mid, harchive, hverify, hunpack, hname, hversion, hwrite, rfl⟩ := place_ok h
  have hmid : mid.cache (world.cacheKey pin.integrity) = some bytes := by
    rcases archive_ok harchive with ⟨rfl, hfound⟩ | ⟨-, -, -, -, rfl⟩
    · exact hfound
    · exact PMap.insert_self
  have hbytes := hs' _ _ hmid
  cases hcache : t.cache (world.cacheKey pin.integrity) with
  | some found =>
    cases hbytes.symm.trans (ht _ _ hcache)
    refine ⟨bytes, t.cache, ?_, ht, hverify, hunpack, hname, hversion, hwrite⟩
    simp only [Installer.archive, World.withMetadata, hcache]
  | none =>
    obtain ⟨other, requirement', pin', manifest', hselect', -, hdownload, hwriteCache, hunpack',
      hname', hversion'⟩ := hfinal _ _ hbytes
    cases hunpack.symm.trans hunpack'
    obtain rfl : name = other := Option.some.inj (hname.symm.trans hname')
    have hagree := select_agree hselect hselect' (Option.some.inj (hversion.symm.trans hversion'))
    rw [← hagree.2] at hdownload
    refine ⟨bytes, _, ?_, PMap.insert_le ht hbytes, hverify, hunpack, hname, hversion, hwrite⟩
    simp only [Installer.archive, World.withMetadata, hcache, hdownload, hverify, hwriteCache]

variable (metadata) in
/-- So the package is placed again. -/
theorem place_replay (hfinal : Cached world final)
    (hselect : select world name requirement = .ok pin)
    (h : s.place world path name pin = .ok (manifest, s')) (hs' : s'.cache.Le final.cache)
    (hinstalled : s'.installed = s.installed + 1) (hlock : final.lock path = some pin)
    (hfiles : final.files path = some manifest) (hready : Ready final s t) :
    ∃ t', t.place (world.withMetadata metadata) path name pin = .ok (manifest, t') ∧
      Ready final s' t' ∧ t'.files = t.files.insert path manifest := by
  obtain ⟨bytes, cache, harchive, hcache, hverify, hunpack, hname, hversion, hwrite⟩ :=
    archive_replay metadata hfinal hselect h hs' hready.cache
  let placed : Installer B := { t with
    installed := t.installed + 1
    lock := t.lock.insert path pin
    cache
    files := t.files.insert path manifest }
  have hplaced : Ready final s' placed :=
    { locked := hready.locked
      lock := (congrArg (PMap.insert · path pin) hready.lock).trans (PMap.insert_eq_self hlock)
      installed := (congrArg (· + 1) hready.installed).trans hinstalled.symm
      cache := hcache
      files := PMap.insert_le hready.files hfiles }
  refine ⟨placed, ?_, hplaced, rfl⟩
  simp only [Installer.place, harchive]
  simp only [World.withMetadata, hverify, hunpack, hname, hversion, ne_eq, not_true_eq_false,
    or_self, if_false, hwrite]
  rfl

theorem Done.mono {mid : Installer B} {Under Under' : Path → Prop} (h : Done final s' Under)
    (hcache : mid.cache.Le s'.cache) (hunder : ∀ p, Under' p → Under p)
    (hsame : ∀ p, Under' p → s'.lock p = mid.lock p ∧ s'.files p = mid.files p) :
    Done final mid Under' where
  cache := hcache.trans h.cache
  same p hp := by
    obtain ⟨hlock, hfiles⟩ := h.same p (hunder p hp)
    obtain ⟨hlock', hfiles'⟩ := hsame p hp
    exact ⟨hlock.trans hlock', hfiles.trans hfiles'⟩

theorem replay_installAll
    {install install' : Installer B → String → String → Except VmErr (Installer B)}
    {l : List (String × Option String)} (hpath : ∀ d, pathOf ancestors d = path ++ [d])
    (hdistinct : (l.map Prod.fst).Nodup)
    (hplain : ∀ d ∈ l, request d.1 = .ok (d.1, "latest"))
    (hinstall : ∀ d range s s', (d, some range) ∈ l → s.locked = false → Cached world s →
      Fresh s (path ++ [d] <+: ·) → install s d range = .ok s' →
        Outcome world s s' (path ++ [d] <+: ·) (Walk world ancestors d range))
    (hreplay : ∀ d range s s' t, (d, some range) ∈ l → s.locked = false → Cached world s →
      Fresh s (path ++ [d] <+: ·) → install s d range = .ok s' → Done final s' (path ++ [d] <+: ·) →
      Ready final s t → Follows final s' t (path ++ [d] <+: ·)
        (Replayable world ancestors d range) (install' t d range))
    (hlocked : s.locked = false) (hcached : Cached world s)
    (hfresh : ∀ d ∈ l, Fresh s (path ++ [d.1] <+: ·))
    (h : Installer.installAll install l s = .ok s')
    (hdone : Done final s' fun p => ∃ d ∈ l, path ++ [d.1] <+: p) (hready : Ready final s t) :
    Follows final s' t (fun p => ∃ d ∈ l, path ++ [d.1] <+: p)
      (∀ d range, (d, some range) ∈ l → Replayable world ancestors d range)
      (Installer.installAll install' l t) := by
  induction l generalizing s t with
  | nil =>
    cases h
    constructor
    · rintro -
      refine ⟨t, rfl, hready, fun _ _ h => h, ?_⟩
      rintro p ⟨d, hd, -⟩
      cases hd
    · intro hbad
      exact absurd nofun hbad
  | cons first rest ih =>
    obtain ⟨d, range⟩ := first
    have hplainFirst := hplain _ mem_cons_self
    simp only [Installer.installAll] at h ⊢
    cases range with
    | none => cases h
    | some range =>
      simp only [hplainFirst] at h ⊢
      split at h
      · cases h
      · rename_i mid hmid
        rw [map_cons, nodup_cons] at hdistinct
        have hrestPlain : ∀ d' ∈ rest, request d'.1 = .ok (d'.1, "latest") :=
          fun d' hd' => hplain d' (mem_cons_of_mem _ hd')
        have hfirst := hinstall d range s mid mem_cons_self hlocked hcached
          (hfresh _ mem_cons_self) hmid
        have hapart : ∀ p, path ++ [d] <+: p → ¬ ∃ d' ∈ rest, path ++ [d'.1] <+: p :=
          fun _ => child_apart hdistinct.1
        have hmidFresh := Fresh.rest hdistinct.1
          (fun d' hd' => hfresh d' (mem_cons_of_mem _ hd')) hfirst
        have hrest := outcome_installAll hpath hdistinct.2 hrestPlain
          (fun d' range' s s' hd' => hinstall d' range' s s' (mem_cons_of_mem _ hd'))
          (hfirst.locked.trans hlocked) hfirst.cached hmidFresh h
        have hfollows := hreplay d range s mid t mem_cons_self hlocked hcached
          (hfresh _ mem_cons_self) hmid
          (hdone.mono hrest.2.cache (fun p hp => ⟨_, mem_cons_self, hp⟩)
            fun p hp => hrest.2.outside p (hapart p hp)) hready
        have hrestDone : Done final s' fun p => ∃ d' ∈ rest, path ++ [d'.1] <+: p := by
          refine hdone.mono (fun _ _ h => h) ?_ fun p _ => ⟨rfl, rfl⟩
          rintro p ⟨d', hd', hp⟩
          exact ⟨d', mem_cons_of_mem _ hd', hp⟩
        by_cases hgood : Replayable world ancestors d range
        · obtain ⟨t₁, hrun, hready₁, hle₁, hfiles₁⟩ := hfollows.1 hgood
          simp only [hrun]
          have hnext := ih hdistinct.2 hrestPlain
            (fun d' range' s s' hd' => hinstall d' range' s s' (mem_cons_of_mem _ hd'))
            (fun d' range' s s' t hd' =>
              hreplay d' range' s s' t (mem_cons_of_mem _ hd'))
            (hfirst.locked.trans hlocked) hfirst.cached hmidFresh h hrestDone hready₁
          constructor
          · intro hall
            obtain ⟨t', hrun', hready', hle', hfiles'⟩ := hnext.1 fun d' range' hd' =>
              hall d' range' (mem_cons_of_mem _ hd')
            refine ⟨t', hrun', hready', hle₁.trans hle', ?_⟩
            rintro p ⟨d', hd', hp⟩ manifest hmanifest
            rcases mem_cons.1 hd' with rfl | hd'
            · rw [(hrest.2.outside p (hapart p hp)).2] at hmanifest
              exact hle' p manifest (hfiles₁ p hp manifest hmanifest)
            · exact hfiles' p ⟨d', hd', hp⟩ manifest hmanifest
          · intro hbad
            refine hnext.2 fun hall => hbad fun d' range' hd' => ?_
            rcases mem_cons.1 hd' with heq | hd'
            · cases heq
              exact hgood
            · exact hall d' range' hd'
        · obtain ⟨e, he⟩ := hfollows.2 hgood
          simp only [he]
          exact ⟨fun hall => absurd (hall d range mem_cons_self) hgood, fun _ => ⟨e, rfl⟩⟩

variable (metadata) in
/-- **One package of a locked installation.** -/
theorem replay_installPackage {fuel : Nat}
    (hfinal : Cached world final) (hlocked : s.locked = false) (hcached : Cached world s)
    (hfresh : Fresh s (pathOf ancestors name <+: ·))
    (h : Installer.installPackage world fuel s name requirement (pathOf ancestors name) ancestors =
      .ok s')
    (hdone : Done final s' (pathOf ancestors name <+: ·)) (hready : Ready final s t) :
    Follows final s' t (pathOf ancestors name <+: ·) (Replayable world ancestors name requirement)
      (Installer.installPackage (world.withMetadata metadata) fuel t name requirement
        (pathOf ancestors name) ancestors) := by
  induction fuel generalizing s s' t name requirement ancestors with
  | zero => cases h
  | succ fuel ih =>
    have houtcome := outcome_installPackage hlocked hcached hfresh h
    have hempty := hfresh _ (prefix_refl _)
    rw [Installer.installPackage] at h ⊢
    rw [hready.installed]
    split at h
    · cases h
    · rename_i hbound
      rw [if_neg hbound]
      rw [pin_fresh hlocked hempty.1] at h
      split at h
      · cases h
      · rename_i pin hselect
        have hlock := (hdone.same _ (prefix_refl _)).1
        split at h
        · -- the dependency was left out, and has no pin
          rename_i hmem
          cases h
          have hnone : t.lock (pathOf ancestors name) = none := by
            rw [hready.lock, hlock, hempty.1]
          simp only [Installer.pin, hnone, hready.locked, if_true]
          exact ⟨fun hgood => absurd hmem (hgood _ _ _ pin (.here _ _ _) hselect).1,
            fun _ => ⟨_, rfl⟩⟩
        · rename_i hfree
          split at h
          · cases h
          · rename_i manifest mid hplace
            obtain ⟨hmanifest, -, hmidCached, -, hmidLocked, hmidInstalled, hmidLock,
              hmidFiles⟩ := place_select hcached hselect hplace
            obtain ⟨pin', hselect', hrest⟩ := houtcome.visited _ _ _ (.here _ _ _)
            cases hselect.symm.trans hselect'
            obtain ⟨hkept, manifest', hmanifest', -, -, hkeptFiles⟩ := hrest hfree
            cases hmanifest.symm.trans hmanifest'
            have hsome : t.lock (pathOf ancestors name) = some pin := by
              rw [hready.lock, hlock, hkept]
            simp only [Installer.pin, hsome, checkPin_select hselect]
            by_cases hmatches : versionMatches world.semver pin.version requirement = .ok false
            · rw [if_pos hmatches]
              exact ⟨fun hgood => absurd hmatches
                ((replayable_iff hselect hfree hmanifest).1 hgood).1, fun _ => ⟨_, rfl⟩⟩
            · rw [if_neg hmatches]
              have hmidFresh : ∀ d ∈ manifest.dependencies,
                  Fresh mid (pathOf ancestors name ++ [d.1] <+: ·) :=
                fun d _ => hfresh.child hmidLock hmidFiles d.1
              have hinstall : ∀ d range s s', (d, some range) ∈ manifest.dependencies →
                  s.locked = false → Cached world s →
                  Fresh s (pathOf ancestors name ++ [d] <+: ·) →
                  Installer.installPackage world fuel s d range (pathOf ancestors name ++ [d])
                    (ancestors ++ [(name, pin.version)]) = .ok s' →
                  Outcome world s s' (pathOf ancestors name ++ [d] <+: ·)
                    (Walk world (ancestors ++ [(name, pin.version)]) d range) := by
                intro d range s s' _ hlocked hcached hfresh h
                rw [← pathOf_append ancestors name pin.version d] at hfresh h ⊢
                exact outcome_installPackage hlocked hcached hfresh h
              obtain ⟨-, hall⟩ := outcome_installAll
                (fun d => pathOf_append ancestors name pin.version d) manifest.distinct
                manifest.plain hinstall (hmidLocked.trans hlocked) hmidCached hmidFresh h
              obtain ⟨t₁, hplaced, hready₁, hfiles₁⟩ := place_replay metadata
                hfinal hselect hplace (hall.cache.trans hdone.cache) hmidInstalled
                (hlock.trans hkept)
                ((hdone.same _ (prefix_refl _)).2.trans hkeptFiles) hready
              simp only [if_neg hfree, hplaced]
              have hreplay : ∀ d range s s' t, (d, some range) ∈ manifest.dependencies →
                  s.locked = false → Cached world s →
                  Fresh s (pathOf ancestors name ++ [d] <+: ·) →
                  Installer.installPackage world fuel s d range (pathOf ancestors name ++ [d])
                    (ancestors ++ [(name, pin.version)]) = .ok s' →
                  Done final s' (pathOf ancestors name ++ [d] <+: ·) → Ready final s t →
                  Follows final s' t (pathOf ancestors name ++ [d] <+: ·)
                    (Replayable world (ancestors ++ [(name, pin.version)]) d range)
                    (Installer.installPackage (world.withMetadata metadata) fuel t d range
                      (pathOf ancestors name ++ [d]) (ancestors ++ [(name, pin.version)])) := by
                intro d range s s' t _ hlocked hcached hfresh h hdone hready
                rw [← pathOf_append ancestors name pin.version d] at hfresh h hdone ⊢
                exact ih hlocked hcached hfresh h hdone hready
              have hbelow : ∀ p, (∃ d ∈ manifest.dependencies,
                  pathOf ancestors name ++ [d.1] <+: p) → pathOf ancestors name <+: p := by
                rintro p ⟨d, -, hp⟩
                exact (child_below hp).1
              have hfollows := replay_installAll
                (fun d => pathOf_append ancestors name pin.version d) manifest.distinct
                manifest.plain hinstall hreplay (hmidLocked.trans hlocked) hmidCached hmidFresh h
                (hdone.mono (fun _ _ h => h) hbelow fun p _ => ⟨rfl, rfl⟩) hready₁
              constructor
              · intro hgood
                obtain ⟨t', hrun, hready', hle, hfiles⟩ :=
                  hfollows.1 ((replayable_iff hselect hfree hmanifest).1 hgood).2
                have hfirst : t.files.Le t₁.files := by
                  rw [hfiles₁]
                  refine PMap.le_insert _ fun other hother => ?_
                  have hsame := (hdone.same _ (prefix_refl _)).2.trans hkeptFiles
                  exact Option.some.inj ((hready.files _ _ hother).symm.trans hsame)
                refine ⟨t', hrun, hready', hfirst.trans hle, ?_⟩
                intro p hp found hfound
                by_cases hpath : p = pathOf ancestors name
                · subst hpath
                  cases hkeptFiles.symm.trans hfound
                  exact hle _ _ (by rw [hfiles₁]; exact PMap.insert_self)
                · by_cases hd : ∃ d ∈ manifest.dependencies, pathOf ancestors name ++ [d.1] <+: p
                  · exact hfiles p hd found hfound
                  · have hnone := (hfresh p hp).2
                    rw [(hall.outside p hd).2, hmidFiles, PMap.insert_of_ne hpath, hnone] at hfound
                    cases hfound
              · intro hbad
                refine hfollows.2 fun hall => hbad ?_
                exact (replayable_iff hselect hfree hmanifest).2 ⟨hmatches, hall⟩

/-- **A lockfile is enough to install the same packages exactly if it can be replayed.** -/
theorem replay_iff {specifier name requirement : String} {s' : Installer B}
    (hrequest : request specifier = .ok (name, requirement))
    (h : Installer.new.install world specifier = .ok s')
    (metadata : String → Except VmErr Metadata) (cache : PMap String B) (files : PMap Path Manifest)
    (hcache : cache.Le s'.cache) (hfiles : files.Le s'.files) :
    (∃ t', (Installer.newLocked s'.lock cache files).install (world.withMetadata metadata)
      specifier = .ok t' ∧ t'.lock = s'.lock ∧ t'.files = s'.files) ↔
      Replayable world [] name requirement := by
  obtain ⟨hrun, houtcome⟩ := installPackage_of_install hrequest h
  have hcached : Cached world Installer.new := by
    intro key bytes hnone
    cases hnone
  have hready : Ready s' Installer.new (Installer.newLocked s'.lock cache files) :=
    ⟨rfl, rfl, rfl, hcache, hfiles⟩
  obtain ⟨hgood, hbad⟩ := replay_installPackage metadata houtcome.cached rfl hcached
    (fun _ _ => ⟨rfl, rfl⟩) hrun ⟨fun _ _ h => h, fun _ _ => ⟨rfl, rfl⟩⟩ hready
  constructor
  · rintro ⟨t', ht', -, -⟩
    by_contra hnot
    obtain ⟨e, he⟩ := hbad hnot
    cases (Installer.install_error hrequest he).symm.trans ht'
  · intro hreplayable
    obtain ⟨t', ht', hready', -, hsame⟩ := hgood hreplayable
    refine ⟨t', Installer.install_locked hrequest ht' hready'.locked, hready'.lock, ?_⟩
    refine hready'.files.antisymm fun p manifest hp => ?_
    by_cases hunder : [name] <+: p
    · exact hsame p hunder manifest hp
    · cases hp.symm.trans (houtcome.outside p hunder).2

end Replay

/-- The lockfile of packages that depend on each other cannot be used. -/
theorem cyclic_not_replayed : ∃ s', Installer.new.install Registry.cyclic "a@1.0.0" = .ok s' ∧
    (Installer.newLocked s'.lock s'.cache s'.files).install Registry.cyclic "a@1.0.0" =
      .error (err "Package missing from lockfile: a/node_modules/b/node_modules/a") := by
  have hrun : Registry.leaves (Installer.new.install Registry.cyclic "a@1.0.0") (fun s' =>
      Registry.errorText
          ((Installer.newLocked s'.lock s'.cache s'.files).install Registry.cyclic "a@1.0.0") =
        some "Package missing from lockfile: a/node_modules/b/node_modules/a") = true := by
    decide +kernel
  obtain ⟨s', hs', htest⟩ := Registry.leaves_iff.1 hrun
  exact ⟨s', hs', Registry.error_of_errorText (of_decide_eq_true htest)⟩

theorem replay_iff_chain : ∃ s', Installer.new.install Registry.chain "a@1.0.0" = .ok s' ∧
    ((∃ t', (Installer.newLocked s'.lock PMap.empty PMap.empty).install
      (Registry.chain.withMetadata fun _ => .error (err "offline")) "a@1.0.0" = .ok t' ∧
        t'.lock = s'.lock ∧ t'.files = s'.files) ↔
      Replayable Registry.chain [] "a" "1.0.0") := by
  have hrun : Registry.leaves (Installer.new.install Registry.chain "a@1.0.0")
      (fun _ => true) = true := by decide +kernel
  obtain ⟨s', hs', -⟩ := Registry.leaves_iff.1 hrun
  refine ⟨s', hs', replay_iff rfl hs' _ _ _ ?_ ?_⟩
  · intro key bytes hnone
    cases hnone
  · intro path manifest hnone
    cases hnone

end NapiVm.Npm
