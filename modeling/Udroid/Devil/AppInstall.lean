import Udroid.Devil.AppCache

/-!
# Apps are installed and removed

What is cached stays true, whatever command fails on the way.

- `uninstall_meets`: an app that has been uninstalled is gone.
- `apksToInstall_meets`: what is not installed anew is on the device.
- `installInternal_meets`: an installation that returns has left all apks on the device.
-/

namespace Udroid.Devil

open Udroid.Unix Std.Do

set_option mvcgen.warning false

variable {facts : ApkFacts} {σ : Type} {c : Commands σ} {view : σ → Look} {dumps : List Dump}
  {u u' : DeviceUtils σ}

/-! ## Section 1: Apps that go -/

/-- The app is not there any more. -/
theorem coherentAt_uninstalled {look : Look} {p : Text} (k : Cache)
    (hnil : look.installed p = []) :
    CoherentAt facts ((k.setPaths p []).setChecksums p (some ∅)) look p := by
  refine ⟨fun hpaths => ?_, fun hsums => ?_⟩
  · rw [Cache.setChecksums, Cache.setPaths_self] at hpaths
    exact Or.inl ((Option.some.inj hpaths).symm.trans hnil.symm)
  · rw [Cache.setChecksums_self] at hsums
    obtain rfl := Option.some.inj hsums
    exact Or.inl fun d hd => absurd hd (Finset.notMem_empty d)

/-- Nothing is known of the app. -/
theorem coherentAt_popApp (k : Cache) (look : Look) (p : Text) :
    CoherentAt facts (k.popApp p) look p := by
  refine ⟨fun hpaths => ?_, fun hsums => ?_⟩
  · rw [Cache.popApp_paths] at hpaths
    cases hpaths
  · rw [Cache.popApp_checksums] at hsums
    cases hsums

/-- Nothing is known of the app that has changed. -/
theorem Sound.popApp (h : Sound facts view dumps u) (u' : DeviceUtils σ)
    (hc : c.Lawful facts view) {p : Text}
    (hstarted : u.cache.token ≠ none) (hcache : u'.cache = u.cache.popApp p)
    (huuids : u'.uuids = u.uuids) (hlook : OthersKept facts p (view u.world) (view u'.world)) :
    Sound facts view dumps u' ∧ u'.cache.token ≠ none := by
  have hothers : OthersCached p u.cache u'.cache := hcache ▸ othersCached_popApp p _
  refine ⟨h.edit u' (hc.sane _) hstarted huuids hlook hothers ?_, ?_⟩
  · rw [hcache]
    exact coherentAt_popApp _ _ p
  · rw [hothers.token]
    exact hstarted

theorem uninstall_meets (hc : c.Lawful facts view) (dumps : List Dump) (p : Text)
    (keepData : Bool) :
    (uninstall c p keepData).Meets
      (fun u _ u' => Sound facts view dumps u → Sound facts view dumps u' ∧
        u'.cache.token ≠ none ∧ (view u'.world).host = (view u.world).host ∧
        (view u'.world).installed p = [])
      (fun u _ u' => Sound facts view dumps u → Sound facts view dumps u') := by
  apply Routine.Meets.of_spec
  intro u₀
  have hpaths := (getApplicationPathsInternal_meets hc dumps p).spec
  have hadb := fun keepData => (world_meets (hc.uninstall p keepData)).spec
  unfold uninstall editCache
  mvcgen [hpaths, hadb]
  -- it has been uninstalled
  · rename_i u hu paths _ u₁ hr _ u₂ hr' _
    subst hu
    obtain ⟨hcache, huuids, hothers, hnil⟩ := hr'
    intro h
    obtain ⟨h₁, hk, -, hpaths⟩ := hr h
    have hstarted := h₁.token_ne_none hpaths
    have hcached : OthersCached p u₁.cache ((u₂.cache.setPaths p []).setChecksums p (some ∅)) := by
      rw [hcache]
      exact (othersCached_setPaths p _ []).trans (othersCached_setChecksums p _ (some ∅))
    refine ⟨h₁.edit { u₂ with cache := (u₂.cache.setPaths p []).setChecksums p (some ∅) }
      (hc.sane _) hstarted huuids hothers hcached (coherentAt_uninstalled _ hnil), ?_,
      hothers.host.trans hk.host, hnil⟩
    rw [← hcache] at hstarted
    exact hstarted
  -- this failed
  · rename_i u hu paths _ u₁ hr _ u₂ hr' _
    subst hu
    obtain ⟨hcache, huuids, hothers⟩ := hr'
    intro h
    obtain ⟨h₁, -, -, hpaths⟩ := hr h
    -- it may have gone or not
    exact (h₁.popApp { u₂ with cache := u₂.cache.popApp p } hc (h₁.token_ne_none hpaths)
      (congrArg (·.popApp p) hcache) huuids hothers).1
  -- it was not there
  · rename_i u hu paths hnil u₁ hr
    subst hu
    intro h
    obtain ⟨h₁, hk, -, hpaths⟩ := hr h
    refine ⟨h₁, h₁.token_ne_none hpaths, hk.host, ?_⟩
    rcases (h₁.coherent p).paths hpaths with heq | hgone
    · rw [← heq]
      exact not_not.mp hnil
    · exact hgone.installed
  · rename_i u hu _ u₁
    subst hu
    exact fun hr h => (hr h).1

/-! ## Section 2: Permissions -/

theorem grantPermissions_meets (hc : c.Lawful facts view) (dumps : List Dump) (p : Text)
    (permissions : List Text) :
    (grantPermissions c p permissions).Meets (fun u _ u' => Observes facts view dumps u u')
      (fun u _ u' => Observes facts view dumps u u') := by
  apply Routine.Meets.of_spec
  intro u₀
  have hsdk := (buildVersionSdk_meets hc dumps).spec
  have hgrant := fun permissions => (world_meets (hc.pmGrant p permissions)).spec
  unfold grantPermissions
  mvcgen [hsdk, hgrant]
  · rename_i u hu _ _ _ _ _ _ u₁ hr _ u₂
    subst u
    exact fun hcache huuids hv => hr.1.trans (Observes.world hcache huuids hv)
  · rename_i u hu _ _ _ _ _ _ u₁ hr _ u₂
    subst u
    exact fun hcache huuids hv => hr.1.trans (Observes.world hcache huuids hv)
  · rename_i hu _ _ _ _ _ _ u₁ hr
    subst u₀
    exact hr.1
  · rename_i hu _ _ u₁ hr
    subst u₀
    exact hr.1
  · rename_i hu _ u₁
    subst hu
    exact id
  · rename_i hu
    subst hu
    exact Observes.refl _

theorem grantAsked_meets (hc : c.Lawful facts view) (dumps : List Dump) (p baseApk : Text)
    (permissions : Option (List Text)) :
    (grantAsked c p baseApk permissions).Meets (fun u _ u' => Looks facts view dumps u u')
      (fun u _ u' => Looks facts view dumps u u') := by
  apply Routine.Meets.of_spec
  intro u₀
  have hgrant := fun permissions => (grantPermissions_meets hc dumps p permissions).spec
  have hsdk := (buildVersionSdk_meets hc dumps).spec
  have hasked := (world_meets (hc.getPermissions baseApk)).spec
  unfold grantAsked
  mvcgen [hgrant, hsdk, hasked]
  · rename_i u hu _ u'
    subst hu
    exact Observes.looks
  · rename_i u hu _ u'
    subst hu
    exact Observes.looks
  · rename_i u hu _ _ u₁ hr _ u₂ hr' _ u₃
    subst hu
    exact fun hr'' => ((hr.1.trans (Observes.world hr'.1 hr'.2.1 hr'.2.2)).trans hr'').looks
  · rename_i u hu _ _ u₁ hr _ u₂ hr' _ u₃
    subst hu
    exact fun hr'' => ((hr.1.trans (Observes.world hr'.1 hr'.2.1 hr'.2.2)).trans hr'').looks
  · rename_i u hu _ _ u₁ hr _ u₂
    subst hu
    exact fun hcache huuids hv => (hr.1.trans (Observes.world hcache huuids hv)).looks
  · rename_i u hu _ _ u₁ hr
    subst hu
    exact hr.1.looks
  · rename_i u hu _ u'
    subst hu
    exact Observes.looks

/-! ## Section 3: What is to be installed -/

/-- All files are taken to be stale. -/
theorem compared_all {host : HostFiles} {held : Text → Prop} {files : List Text}
    {sums : Finset Text} (hfiles : ∀ f ∈ files, host.sum f ≠ none)
    (hsums : ∀ d ∈ sums, ∃ f ∈ files, host.sum f = some d) :
    Compared host held files files sums := by
  refine ⟨fun f hf => ?_, fun f hf d hd => Or.inl ⟨f, hf, hd⟩, hsums⟩
  obtain ⟨d, hd⟩ := Option.ne_none_iff_exists'.mp (hfiles f hf)
  exact ⟨f, hf, d, hd, hd⟩

/-- What is to be installed is known, with the checksums of all files if they were calculated. -/
structure Planned (facts : ApkFacts) (view : σ → Look) (dumps : List Dump) (p : Text)
    (files : List Text) (host : HostFiles) (r : List Text × Option (Finset Text))
    (u : DeviceUtils σ) : Prop where
  sound : Sound facts view dumps u
  started : u.cache.token ≠ none
  kept : (view u.world).host = host
  compared : Compared host ((view u.world).Holds p) files r.1 (r.2.getD ∅)

theorem planned_all (h : Sound facts view dumps u) (hstarted : u.cache.token ≠ none) {p : Text}
    {files : List Text} (hfiles : ∀ f ∈ files, (view u.world).host.sum f ≠ none) :
    Planned facts view dumps p files (view u.world).host (files, none) u :=
  ⟨h, hstarted, rfl, compared_all hfiles fun d hd => absurd hd (Finset.notMem_empty d)⟩

theorem apksToInstall_meets (hc : c.Lawful facts view) (dumps : List Dump) (p : Text)
    (files : List Text) (hasSplits reinstall : Bool) (paths : List Text) :
    (apksToInstall c p files hasSplits reinstall paths).Meets
      (fun u r u' => Sound facts view dumps u → u.cache.packageApkPaths p = some paths →
        Trusted u.cache (view u.world) p → (∀ f ∈ files, (view u.world).host.sum f ≠ none) →
        Planned facts view dumps p files (view u.world).host r u')
      (fun u _ u' => Sound facts view dumps u → Sound facts view dumps u') := by
  apply Routine.Meets.of_spec
  intro u₀
  have hstale := (computeStaleApks_meets hc dumps p files).spec
  have huninstall := fun keepData => (uninstall_meets hc dumps p keepData).spec
  unfold apksToInstall
  mvcgen [hstale, huninstall]
  -- the app is not there
  · rename_i u hu
    subst hu
    exact fun h hpaths _ hfiles => planned_all h (h.token_ne_none hpaths) hfiles
  -- it was split and is not any more
  · rename_i u hu
    subst hu
    exact fun h hpaths _ hfiles => planned_all h (h.token_ne_none hpaths) hfiles
  -- it was not split and is now
  · rename_i u hu
    subst hu
    exact fun h hpaths _ hfiles => planned_all h (h.token_ne_none hpaths) hfiles
  -- some are stale, and the app is uninstalled first
  · rename_i hne _ _ u hu r u₁ hr _ _ u₂ hr'
    subst hu
    intro h hpaths htrusted hfiles
    obtain ⟨h₁, hk, hcompared⟩ := hr h
    obtain ⟨h₂, htoken, hhost, -⟩ := hr' h₁
    exact ⟨h₂, htoken, hhost.trans hk.host,
      compared_all hfiles (hcompared htrusted ⟨paths, hpaths, hne⟩ hfiles).sum⟩
  · rename_i hne _ _ u hu r u₁ hr _ _ u₂
    subst hu
    exact fun hr' h => hr' (hr h).1
  -- only those that are stale
  · rename_i hne _ _ u hu r u₁ hr _
    subst hu
    intro h hpaths htrusted hfiles
    obtain ⟨h₁, hk, hcompared⟩ := hr h
    refine ⟨h₁, hk.started (h.token_ne_none hpaths), hk.host, ?_⟩
    rw [hk.holds]
    exact hcompared htrusted ⟨paths, hpaths, hne⟩ hfiles
  -- the checksums could not be calculated
  · rename_i u hu _ u₁ _ hr _ _ u₂ hr'
    subst hu
    intro h hpaths _ hfiles
    obtain ⟨h₁, hk⟩ := hr h
    obtain ⟨h₂, htoken, hhost, -⟩ := hr' h₁
    have hhost : (view u₂.world).host = (view u.world).host := hhost.trans hk.host
    rw [← hhost] at hfiles ⊢
    exact planned_all h₂ htoken hfiles
  · rename_i u hu _ u₁ _ hr _ _ u₂
    subst hu
    exact fun hr' h => hr' (hr h).1
  · rename_i u hu _ u₁ _ hr _
    subst hu
    intro h hpaths _ hfiles
    obtain ⟨h₁, hk⟩ := hr h
    have hhost : (view u₁.world).host = (view u.world).host := hk.host
    rw [← hhost] at hfiles ⊢
    exact planned_all h₁ (hk.started (h.token_ne_none hpaths)) hfiles
  · rename_i u hu _ u₁ _ hr
    subst hu
    exact fun h => (hr h).1

/-! ## Section 4: What is installed -/

/-- The files of an installation: apks of one package, and each another split. -/
structure Files (facts : ApkFacts) (host : HostFiles) (p : Text) (files : List Text) : Prop where
  package : ∀ f ∈ files, ∃ d, host.sum f = some d ∧ facts.package d = p
  split : ∀ f ∈ files, ∀ g ∈ files, ∀ d d', host.sum f = some d → host.sum g = some d' →
    facts.split d = facts.split d' → d = d'

theorem Files.there {host : HostFiles} {p : Text} {files : List Text}
    (h : Files facts host p files) : ∀ f ∈ files, host.sum f ≠ none := by
  intro f hf
  obtain ⟨d, hd, -⟩ := h.package f hf
  rw [hd]
  exact Option.some_ne_none d

theorem Files.stale {host : HostFiles} {held : Text → Prop} {p : Text} {files apks : List Text}
    {sums : Finset Text} (h : Files facts host p files) (hk : Compared host held files apks sums) :
    ∀ a ∈ apks, ∃ d, host.sum a = some d ∧ facts.package d = p := by
  intro a ha
  obtain ⟨f, hf, d, hsum, hd⟩ := hk.file a ha
  obtain ⟨d', hd', hp⟩ := h.package f hf
  obtain rfl : d = d' := Option.some.inj (hd.symm.trans hd')
  exact ⟨d, hsum, hp⟩

/-- An apk that is not stale stays, when the stale ones are put next to it. -/
theorem Compared.stays {host : HostFiles} {look look' : Look} {p : Text} {files apks : List Text}
    {sums : Finset Text} (hk : Compared host (look.Holds p) files apks sums)
    (hfiles : Files facts host p files)
    (hput : ∀ a ∈ apks, ∀ d, host.sum a = some d → look'.Holds p d)
    (hbeside : apks.length < files.length → ∀ d, look.Holds p d →
      (∀ a ∈ apks, ∀ d', host.sum a = some d' → facts.split d' ≠ facts.split d) →
      look'.Holds p d) :
    ∀ f ∈ files, ∀ d, host.sum f = some d → look'.Holds p d := by
  intro f hf d hd
  by_cases hstale : ∃ a ∈ apks, host.sum a = some d
  · obtain ⟨a, ha, hsum⟩ := hstale
    exact hput a ha d hsum
  · obtain ⟨hfewer, hheld⟩ := (hk.held f hf d hd).resolve_left hstale
    apply hbeside hfewer d hheld
    intro a ha d' hsum heq
    obtain ⟨g, hg, d'', hsum', hg'⟩ := hk.file a ha
    obtain rfl : d' = d'' := Option.some.inj (hsum.symm.trans hsum')
    obtain rfl : d' = d := hfiles.split g hg f hf d' d hg' hd heq
    exact hstale ⟨a, ha, hsum⟩

theorem pushApks_meets (hc : c.Lawful facts view) (dumps : List Dump) (p baseApk : Text)
    (files apks : List Text) (sums : Option (Finset Text))
    (hasSplits allowDowngrade reinstall : Bool) :
    (pushApks c p baseApk files apks hasSplits allowDowngrade reinstall).Meets
      (fun u _ u' => Planned facts view dumps p files (view u.world).host (apks, sums) u →
        Files facts (view u.world).host p files → (hasSplits = false → files = [baseApk]) →
        Sound facts view dumps u' ∧ u'.cache.token ≠ none ∧
        (view u'.world).host = (view u.world).host ∧
        ∀ f ∈ files, ∀ d, (view u.world).host.sum f = some d → (view u'.world).Holds p d)
      (fun u _ u' => Planned facts view dumps p files (view u.world).host (apks, sums) u →
        Files facts (view u.world).host p files → (hasSplits = false → files = [baseApk]) →
        Sound facts view dumps u') := by
  apply Routine.Meets.of_spec
  intro u₀
  have hmultiple := fun apks partialTo reinstall downgrade =>
    (world_meets (hc.installMultiple apks partialTo reinstall downgrade)).spec
  have hinstall := fun apk reinstall downgrade =>
    (world_meets (hc.install apk reinstall downgrade)).spec
  unfold pushApks editCache
  mvcgen [hmultiple, hinstall]
  -- the splits
  · rename_i u hu _ _ _ u'
    subst hu
    intro hcache huuids hadb hplanned hfiles _
    obtain ⟨hothers, hput, hbeside⟩ := hadb p (hfiles.stale hplanned.compared)
    obtain ⟨hs, htoken⟩ := hplanned.sound.popApp u' hc hplanned.started hcache huuids hothers
    refine ⟨hs, htoken, hothers.host, ?_⟩
    apply hplanned.compared.stays hfiles hput
    intro hfewer
    exact hbeside (if_pos hfewer)
  · rename_i u hu _ _ _ u'
    subst hu
    intro hcache huuids hadb hplanned hfiles _
    exact (hplanned.sound.popApp u' hc hplanned.started hcache huuids
      (hadb p (hfiles.stale hplanned.compared))).1
  -- one apk
  · rename_i u hu _ hone _ u'
    subst hu
    intro hcache huuids hadb hplanned hfiles hfile
    obtain rfl := hfile (by simpa using hone)
    obtain ⟨d, hd, rfl⟩ := hfiles.package baseApk List.mem_cons_self
    obtain ⟨hothers, hput⟩ := hadb d hd
    obtain ⟨hs, htoken⟩ := hplanned.sound.popApp u' hc hplanned.started hcache huuids hothers
    refine ⟨hs, htoken, hothers.host, ?_⟩
    intro f hf d' hd'
    obtain rfl := List.mem_singleton.mp hf
    obtain rfl : d' = d := Option.some.inj (hd'.symm.trans hd)
    exact hput
  · rename_i u hu _ hone _ u'
    subst hu
    intro hcache huuids hadb hplanned hfiles hfile
    obtain rfl := hfile (by simpa using hone)
    obtain ⟨d, hd, rfl⟩ := hfiles.package baseApk List.mem_cons_self
    exact (hplanned.sound.popApp u' hc hplanned.started hcache huuids (hadb d hd)).1

theorem putApks_meets (hc : c.Lawful facts view) (dumps : List Dump) (p baseApk : Text)
    (files apks : List Text) (sums : Option (Finset Text))
    (hasSplits allowDowngrade reinstall : Bool) (permissions : Option (List Text)) :
    (putApks c p baseApk files apks sums hasSplits allowDowngrade reinstall permissions).Meets
      (fun u _ u' => Planned facts view dumps p files (view u.world).host (apks, sums) u →
        Files facts (view u.world).host p files → (hasSplits = false → files = [baseApk]) →
        (∀ f ∈ files, ∀ d, (view u.world).host.sum f = some d → (view u'.world).Holds p d) ∧
        (view u'.world).host = (view u.world).host ∧ Sound facts view dumps u')
      (fun u _ u' => Planned facts view dumps p files (view u.world).host (apks, sums) u →
        Files facts (view u.world).host p files → (hasSplits = false → files = [baseApk]) →
        Sound facts view dumps u') := by
  apply Routine.Meets.of_spec
  intro u₀
  have hpush := (pushApks_meets hc dumps p baseApk files apks sums hasSplits allowDowngrade
    reinstall).spec
  have hgrant := (grantAsked_meets hc dumps p baseApk permissions).spec
  unfold putApks editCache
  mvcgen [hpush, hgrant]
  -- the checksums are known
  · rename_i u hu _ u₁ hr _ counted hsums u₂ hr' _
    subst hu
    intro hplanned hfiles hfile
    subst hsums
    obtain ⟨h₁, htoken, hhost, hput⟩ := hr hplanned hfiles hfile
    obtain ⟨h₂, hk⟩ := hr' h₁
    rw [← hk.holds] at hput
    have hholds : ∀ d ∈ counted, (view u₂.world).Holds p d := by
      intro d hd
      obtain ⟨f, hf, hsum⟩ := hplanned.compared.sum d hd
      exact hput f hf d hsum
    obtain ⟨h₃, -⟩ := h₂.editCache { u₂ with cache := u₂.cache.setChecksums p (some counted) }
      (hc.sane _) (hk.started htoken) rfl rfl (othersCached_setChecksums p _ _)
      ((h₂.coherent p).counted hholds)
    exact ⟨hput, hk.host.trans hhost, h₃⟩
  -- they could not be calculated
  · rename_i u hu _ u₁ hr _ _ _ hsums u₂ hr'
    subst hu
    intro hplanned hfiles hfile
    subst hsums
    obtain ⟨h₁, htoken, hhost, hput⟩ := hr hplanned hfiles hfile
    obtain ⟨h₂, hk⟩ := hr' h₁
    rw [← hk.holds] at hput
    exact ⟨hput, hk.host.trans hhost, h₂⟩
  · rename_i u hu _ u₁ hr _ u₂
    subst hu
    exact fun hr' hplanned hfiles hfile => (hr' (hr hplanned hfiles hfile).1).1
  · rename_i u hu _ u₁
    subst hu
    exact id

/-! ## Section 5: Installations -/

theorem checkSdkLevel_meets (hc : c.Lawful facts view) (dumps : List Dump) (required : Int) :
    (checkSdkLevel c required).Meets (fun u _ u' => Observes facts view dumps u u')
      (fun u _ u' => Observes facts view dumps u u') := by
  apply Routine.Meets.of_spec
  intro u₀
  have hsdk := (buildVersionSdk_meets hc dumps).spec
  unfold checkSdkLevel
  mvcgen [hsdk]
  · rename_i u hu _ _ u' hr
    subst hu
    exact hr.1
  · rename_i u hu _ _ u' hr
    subst hu
    exact hr.1
  · rename_i u hu _ u'
    subst hu
    exact id

/-- The files of an installation, when all of them are there. -/
theorem Look.Sane.files {look : Look} (h : look.Sane facts) {base p : Text} {splits : List Text}
    (hthere : ∀ f ∈ allApks facts look.host base splits, look.host.sum f ≠ none)
    (hp : ∀ d, look.host.sum base = some d → p = facts.package d) :
    Files facts look.host p (allApks facts look.host base splits) := by
  obtain ⟨d, hd⟩ := Option.ne_none_iff_exists'.mp (hthere base List.mem_cons_self)
  obtain rfl := hp d hd
  refine ⟨fun f hf => ?_, fun f hf g hg d d' => h.split hf hg⟩
  obtain ⟨d', hd'⟩ := Option.ne_none_iff_exists'.mp (hthere f hf)
  refine ⟨d', hd', ?_⟩
  rcases List.mem_cons.mp hf with rfl | hselected
  · obtain rfl : d' = d := Option.some.inj (hd'.symm.trans hd)
    rfl
  · split at hselected
    · exact h.package hselected hd hd'
    · cases hselected

theorem selectApks_meets (hc : c.Lawful facts view) (dumps : List Dump) (baseApk : Text)
    (splitApks : List Text) :
    (selectApks c baseApk splitApks).Meets
      (fun u files u' => Sound facts view dumps u → Sound facts view dumps u' ∧
        SameApps view u u' ∧ files = allApks facts (view u.world).host baseApk splitApks)
      (fun u _ u' => Looks facts view dumps u u') := by
  apply Routine.Meets.of_spec
  intro u₀
  have hlevel := (checkSdkLevel_meets hc dumps lollipop).spec
  have hselect := (world_meets (hc.selectSplits baseApk splitApks)).spec
  unfold selectApks
  mvcgen [hlevel, hselect]
  · rename_i hsplits u hu _ u₁ hr _ u₂ hr'
    subst hu
    obtain ⟨hcache, huuids, hv, hselected⟩ := hr'
    intro h
    obtain ⟨h₁, hk₁⟩ := hr h
    obtain ⟨h₂, hk₂⟩ := Observes.world hcache huuids hv h₁
    refine ⟨h₂, (hk₁.trans hk₂).toSameApps, ?_⟩
    rw [allApks, if_pos hsplits, hselected, hk₁.host]
  · rename_i u hu _ u₁ hr _ u₂
    subst hu
    exact fun hcache huuids hv => (hr.trans (Observes.world hcache huuids hv)).looks
  · rename_i u hu _ u₁
    subst hu
    exact Observes.looks
  · rename_i hsplits u hu
    subst hu
    intro h
    refine ⟨h, (Unchanged.refl view u).toSameApps, ?_⟩
    rw [allApks, if_neg hsplits]

/-- The apps have only been looked up before. -/
theorem Planned.before {u₁ u₂ : DeviceUtils σ} {p : Text} {files paths : List Text}
    {r : List Text × Option (Finset Text)}
    (h : Sound facts view dumps u₁ ∧ SameApps view u u₁ ∧ Trusted u₁.cache (view u₁.world) p ∧
      u₁.cache.packageApkPaths p = some paths)
    (hr : Sound facts view dumps u₁ → u₁.cache.packageApkPaths p = some paths →
      Trusted u₁.cache (view u₁.world) p → (∀ f ∈ files, (view u₁.world).host.sum f ≠ none) →
      Planned facts view dumps p files (view u₁.world).host r u₂)
    (hfiles : Files facts (view u.world).host p files) :
    Planned facts view dumps p files (view u.world).host r u₂ := by
  obtain ⟨h₁, hk, htrusted, hpaths⟩ := h
  rw [← hk.host] at hfiles ⊢
  exact hr h₁ hpaths htrusted hfiles.there

theorem installApks_meets (hc : c.Lawful facts view) (dumps : List Dump) (p baseApk : Text)
    (files : List Text) (hasSplits allowDowngrade reinstall : Bool)
    (permissions : Option (List Text)) :
    (installApks c p baseApk files hasSplits allowDowngrade reinstall permissions).Meets
      (fun u _ u' => Sound facts view dumps u → Files facts (view u.world).host p files →
        (hasSplits = false → files = [baseApk]) → Sound facts view dumps u' ∧
        (view u'.world).host = (view u.world).host ∧
        ∀ f ∈ files, ∀ d, (view u.world).host.sum f = some d → (view u'.world).Holds p d)
      (fun u _ u' => Sound facts view dumps u → Files facts (view u.world).host p files →
        (hasSplits = false → files = [baseApk]) → Sound facts view dumps u') := by
  apply Routine.Meets.of_spec
  intro u₀
  have hpaths := (getApplicationPathsInternal_meets hc dumps p).spec
  have hplan := fun paths =>
    (apksToInstall_meets hc dumps p files hasSplits reinstall paths).spec
  have hput := fun apks sums => (putApks_meets hc dumps p baseApk files apks sums hasSplits
    allowDowngrade reinstall permissions).spec
  have hstop := (world_meets (hc.forceStop p)).spec
  unfold installApks
  mvcgen [hpaths, hplan, hput, hstop]
  -- what is stale is installed
  · rename_i u hu _ u₁ hr _ _ u₂ hr' _ u₃
    subst hu
    intro hr'' h hfiles hfile
    have hplanned := Planned.before (hr h) hr' hfiles
    have hhost := hplanned.kept
    rw [← hhost] at hplanned hfiles ⊢
    obtain ⟨hput, hkept, h₃⟩ := hr'' hplanned hfiles hfile
    exact ⟨h₃, hkept, hput⟩
  · rename_i u hu _ u₁ hr _ _ u₂ hr' _ u₃
    subst hu
    intro hr'' h hfiles hfile
    have hplanned := Planned.before (hr h) hr' hfiles
    have hhost := hplanned.kept
    rw [← hhost] at hplanned hfiles
    exact hr'' hplanned hfiles hfile
  -- nothing is stale
  · rename_i u hu _ u₁ hr _ hnil u₂ hr' _ u₃
    subst hu
    intro hcache huuids hv h hfiles _
    have hplanned := Planned.before (hr h) hr' hfiles
    rw [hv]
    refine ⟨(Observes.world hcache huuids hv hplanned.sound).1, hplanned.kept, ?_⟩
    intro f hf d hd
    rcases hplanned.compared.held f hf d hd with ⟨a, ha, -⟩ | ⟨-, hheld⟩
    · rw [not_not.mp hnil] at ha
      cases ha
    · exact hheld
  · rename_i u hu _ u₁ hr _ _ u₂ hr' _ u₃
    subst hu
    intro hcache huuids hv h hfiles _
    have hplanned := Planned.before (hr h) hr' hfiles
    exact (Observes.world hcache huuids hv hplanned.sound).1
  · rename_i u hu _ u₁ hr _ u₂
    subst hu
    exact fun hr' h _ _ => hr' (hr h).1
  · rename_i u hu _ u₁
    subst hu
    exact fun hr h _ _ => (hr h).1

/-- No apk is missing. -/
theorem Commands.Lawful.files (hc : c.Lawful facts view) {s : σ} {base p : Text}
    {splits : List Text} (hmissing : ((allApks facts (view s).host base splits).filter
      fun apk => !c.hostExists apk s) = [])
    (hp : ∀ d, (view s).host.sum base = some d → p = facts.package d) :
    Files facts (view s).host p (allApks facts (view s).host base splits) ∧
      (decide (splits ≠ []) = false → allApks facts (view s).host base splits = [base]) := by
  constructor
  · apply (hc.sane s).files _ hp
    intro f hf hnone
    have hexists := List.filter_eq_nil_iff.mp hmissing f hf
    rw [hc.hostExists, hnone] at hexists
    exact hexists rfl
  · intro hsplits
    rw [allApks, if_neg (of_decide_eq_false hsplits)]

/-- All apks of an installation are on the device. -/
def Installed (facts : ApkFacts) (look : Look) (baseApk : Text) (splitApks : List Text) : Prop :=
  ∃ p, Files facts look.host p (allApks facts look.host baseApk splitApks) ∧
    ∀ f ∈ allApks facts look.host baseApk splitApks, ∀ d, look.host.sum f = some d →
      look.Holds p d

theorem installInternal_meets (hc : c.Lawful facts view) (dumps : List Dump) (baseApk : Text)
    (splitApks : List Text) (allowDowngrade reinstall : Bool)
    (permissions : Option (List Text)) :
    (installInternal c baseApk splitApks allowDowngrade reinstall permissions).Meets
      (fun u _ u' => Sound facts view dumps u → Sound facts view dumps u' ∧
        (view u'.world).host = (view u.world).host ∧
        Installed facts (view u'.world) baseApk splitApks)
      (fun u _ u' => Sound facts view dumps u → Sound facts view dumps u') := by
  apply Routine.Meets.of_spec
  intro u₀
  have hselect := (selectApks_meets hc dumps baseApk splitApks).spec
  have hpackage := (world_meets (hc.getPackageName baseApk)).spec
  have hinstall := fun p files hasSplits => (installApks_meets hc dumps p baseApk files hasSplits
    allowDowngrade reinstall permissions).spec
  unfold installInternal
  mvcgen [hselect, hpackage, hinstall]
  -- an apk is missing
  · rename_i u hu _ u₁ hr _ _ _
    subst hu
    exact fun h => (hr h).1
  -- none is missing
  · rename_i u hu files u₁ hr missing _ hmissing p u₂ hr' _ u₃
    subst hu
    obtain ⟨hcache, huuids, hv, hp⟩ := hr'
    intro hr'' h
    obtain ⟨h₁, hk, hall⟩ := hr h
    rw [← hk.host] at hall ⊢
    subst hall
    obtain ⟨hfiles, hfile⟩ := hc.files (not_not.mp hmissing) hp
    rw [hv] at hr''
    obtain ⟨h₃, hhost, hholds⟩ := hr'' (Observes.world hcache huuids hv h₁).1 hfiles hfile
    rw [← hhost] at hfiles hholds
    exact ⟨h₃, hhost, p, hfiles, hholds⟩
  · rename_i u hu files u₁ hr missing _ hmissing p u₂ hr' _ u₃
    subst hu
    obtain ⟨hcache, huuids, hv, hp⟩ := hr'
    intro hr'' h
    obtain ⟨h₁, hk, hall⟩ := hr h
    rw [← hk.host] at hall
    subst hall
    obtain ⟨hfiles, hfile⟩ := hc.files (not_not.mp hmissing) hp
    rw [hv] at hr''
    exact hr'' (Observes.world hcache huuids hv h₁).1 hfiles hfile
  · rename_i u hu _ u₁ hr _ _ _ _ u₂
    subst hu
    exact fun hcache huuids hv h => (Observes.world hcache huuids hv (hr h).1).1
  · rename_i u hu _ u₁
    subst hu
    exact fun hr h => (hr h).1

end Udroid.Devil
