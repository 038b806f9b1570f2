import Udroid.Devil.AppInstall

/-!
# One script after the other

Scripts install apps and remove them, and what one has cached goes on to the next.

- `loadCacheData_meets`: a dump is taken only when nothing has happened since.
- `Reached.sound`: what is cached and dumped stays true, whatever the scripts call.
- `getApplicationPaths_coherent`: in every history, the paths of an app are those on the device.
- `install_installed`: in every history, an installation that returns has left all apks of the
  host on the device.
- `uninstall_gone`: in every history, an app that has been uninstalled is gone.
- `getApplicationPathsInternal_cut_off`: a verification that is cut off is not made again.
-/

namespace Udroid.Devil

open Udroid.Unix Std.Do

set_option mvcgen.warning false

variable {facts : ApkFacts} {σ : Type} {c : Commands σ} {view : σ → Look} {dumps : List Dump}
  {u u' : DeviceUtils σ}

/-! ## Section 1: Nothing is known -/

theorem coherent_empty (look : Look) : Coherent facts Cache.empty look := by
  intro p
  constructor
  · rintro _ ⟨⟩
  · rintro _ ⟨⟩

theorem Sound.cleared (h : Sound facts view dumps u) :
    Sound facts view dumps { u with cache := Cache.empty } := by
  refine ⟨coherent_empty _, h.dumped, fun _ _ => rfl, ?_, h.fresh, h.freshToken, ?_⟩
  · intro hne
    exact absurd rfl hne
  · rintro _ ⟨⟩

theorem reboot_meets (hc : c.Lawful facts view) (dumps : List Dump) :
    (reboot c).Keeps (Sound facts view dumps) := by
  apply Routine.Meets.of_spec
  intro u₀
  have hreboot := (world_meets hc.reboot).spec
  have hwait := (world_meets hc.waitUntilFullyBooted).spec
  unfold reboot editCache
  mvcgen [hreboot, hwait]
  · rename_i u hu _ u₁ hr _ _ u₂
    subst hu
    intro hcache huuids hv h
    have h₁ := ((Observes.world hr.1 hr.2.1 hr.2.2 h).1).cleared
    exact (Observes.world hcache huuids hv h₁).1
  · rename_i u hu _ u₁ hr _ _ u₂
    subst hu
    intro hcache huuids hv h
    have h₁ := ((Observes.world hr.1 hr.2.1 hr.2.2 h).1).cleared
    exact (Observes.world hcache huuids hv h₁).1
  · rename_i u hu _ u₁
    subst hu
    exact fun hcache huuids hv h => (Observes.world hcache huuids hv h).1

/-! ## Section 2: What is dumped -/

/-- What is loaded is what was dumped. -/
theorem Coherent.load {k : Cache} {d : Dump} {look look' : Look}
    (h : Coherent facts (Cache.empty.load d) look) (hi : look'.installed = look.installed)
    (hs : look'.sum = look.sum) : Coherent facts (k.load d) look' := by
  intro p
  apply (h p).congr
  · rfl
  · rfl
  · rfl
  · rw [hi]
  · intro path _
    rw [hs]

/-- A dump is verified when it is loaded. -/
theorem Coherent.dumped {k : Cache} {look : Look} (h : Coherent facts k look) (token : Option Nat) :
    Coherent facts (Cache.empty.load ⟨token, k.packageApkPaths, k.packageApkChecksums,
      k.devicePathChecksums⟩) look := by
  intro p
  refine ⟨(h p).paths, fun hsums => ?_⟩
  apply ((h p).sums hsums).imp_right
  rintro ⟨hnil, -⟩
  refine ⟨hnil, fun paths hpaths => Or.inr ?_⟩
  exact Option.isSome_of_mem hpaths

theorem Sound.load (h : Sound facts view dumps u) (h' : Sound facts view dumps u')
    (hk : SameApps view u u') {d : Dump} (hd : d ∈ dumps) (htoken : d.token = (view u.world).token)
    (hstarted : u'.cache.token ≠ none) :
    Sound facts view dumps { u' with cache := u'.cache.load d } :=
  ⟨(h.dumped d hd htoken).load hk.installed hk.sum, h'.dumped, fun hnone => absurd hnone hstarted,
    h'.own, h'.fresh, h'.freshToken, h'.freshOwn⟩

/-- Loading comes before all else that a script does. -/
theorem loadCacheData_meets (hc : c.Lawful facts view) {d : Dump} (hd : d ∈ dumps) :
    (loadCacheData c d).Meets
      (fun u _ u' => u.cache.token = none → Sound facts view dumps u → Sound facts view dumps u')
      (fun u _ u' => u.cache.token = none → Sound facts view dumps u →
        Sound facts view dumps u') := by
  apply Routine.Meets.of_spec
  intro u₀
  have hinit := (ensureCacheInitialized_meets hc dumps).spec
  unfold loadCacheData editCache
  mvcgen [hinit]
  · rename_i u hu _ u₁ hr _
    subst hu
    exact fun _ h => (hr.1 h).1
  · rename_i u hu _ u₁ hr hgiven _
    subst hu
    intro hnone h
    obtain ⟨hread, hstarted, hprev, -⟩ := hr
    obtain ⟨h₁, hk⟩ := hread h
    have htoken : u₁.cache.prevToken = d.token := not_not.mp (not_or.mp hgiven).2
    exact h.load h₁ hk.toSameApps hd (htoken.symm.trans (hprev hnone)) hstarted
  · rename_i u hu _ u₁
    subst hu
    exact fun hr _ h => (hr h).1

theorem dumpCacheData_meets (hc : c.Lawful facts view) (dumps : List Dump) :
    (dumpCacheData c).Meets
      (fun u d u' => Sound facts view dumps u →
        Sound facts view (d :: dumps) { u' with cache := Cache.empty })
      (fun u _ u' => Sound facts view dumps u → Sound facts view dumps u') := by
  apply Routine.Meets.of_spec
  intro u₀
  have hinit := (ensureCacheInitialized_meets hc dumps).spec
  unfold dumpCacheData
  mvcgen [hinit]
  · rename_i u hu _ u₁ hr k
    subst hu
    intro h
    obtain ⟨hread, hstarted, -⟩ := hr
    obtain ⟨h₁, -⟩ := hread h
    have h₂ := h₁.cleared
    refine ⟨h₂.coherent, ?_, h₂.started, fun hne => absurd rfl hne, ?_, h₂.freshToken, h₂.freshOwn⟩
    · intro d hd htoken
      rcases List.mem_cons.mp hd with rfl | hd
      · exact h₁.coherent.dumped _
      · exact absurd htoken (h₁.own hstarted d hd)
    · intro d hd t ht
      rcases List.mem_cons.mp hd with rfl | hd
      · exact h₁.freshOwn t ht
      · exact h₁.fresh d hd t ht
  · rename_i u hu _ u₁
    subst hu
    exact fun hr h => (hr h).1

/-! ## Section 3: Between scripts -/

/-- An app has been removed by hand. -/
structure Removed (facts : ApkFacts) (p : Text) (look look' : Look) : Prop extends
    OthersKept facts p look look' where
  gone : look'.installed p = []
  files : ∀ path, facts.owner path = p → look'.sum path = none

/-- What was dumped of it is verified when it is loaded. -/
theorem Coherent.removed {d : Dump} {look look' : Look} {p : Text}
    (h : Coherent facts (Cache.empty.load d) look) (hsane : look.Sane facts)
    (hr : Removed facts p look look') : Coherent facts (Cache.empty.load d) look' := by
  intro q
  by_cases hq : q = p
  · subst hq
    refine ⟨fun {paths} hpaths => Or.inr ?_,
      fun _ => Or.inr ⟨hr.gone, fun paths hpaths => Or.inr ?_⟩⟩
    · have howner : ∀ path ∈ paths, ∀ file, Under path file → facts.owner file = q := by
        rcases (h q).paths hpaths with rfl | hgone
        · exact fun path hpath file hfile => ((hsane.apk hpath).2 file hfile).1
        · exact hgone.owner
      exact ⟨hr.gone, fun path hpath file hfile => hr.files file (howner path hpath file hfile),
        howner⟩
    · exact Option.isSome_of_mem hpaths
  · exact (h q).others hsane hr.toOthersKept hq

theorem Sound.removed (h : Sound facts view dumps u) (hc : c.Lawful facts view)
    (hempty : u.cache = Cache.empty) {p : Text} {s : σ}
    (hr : Removed facts p (view u.world) (view s)) :
    Sound facts view dumps { u with world := s } := by
  refine ⟨?_, ?_, h.started, ?_, h.fresh, ?_, h.freshOwn⟩
  · rw [hempty]
    exact coherent_empty _
  · intro d hd htoken
    exact (h.dumped d hd (htoken.trans hr.token)).removed (hc.sane _) hr
  · intro hstarted d hd
    rw [hr.token]
    exact h.own hstarted d hd
  · rw [hr.token]
    exact h.freshToken

/-- Files of the host have been edited. -/
theorem Sound.edited (h : Sound facts view dumps u) {s : σ} {host : HostFiles}
    (hv : view s = { view u.world with host := host }) :
    Sound facts view dumps { u with world := s } := by
  refine ⟨?_, ?_, h.started, ?_, h.fresh, ?_, h.freshOwn⟩
  · intro p
    apply (h.coherent p).congr rfl rfl rfl
    · rw [hv]
    · intro path _
      rw [hv]
  · intro d hd htoken
    rw [hv] at htoken ⊢
    exact (h.dumped d hd htoken).load rfl rfl
  · rw [hv]
    exact h.own
  · rw [hv]
    exact h.freshToken

/-- A dump of another device. -/
theorem Sound.foreign (h : Sound facts view dumps u) {d : Dump}
    (hfresh : ∀ t, d.token = some t → t < u.uuids) (hother : d.token ≠ (view u.world).token) :
    Sound facts view (d :: dumps) u := by
  refine ⟨h.coherent, ?_, h.started, ?_, ?_, h.freshToken, h.freshOwn⟩
  · intro d' hd' htoken
    rcases List.mem_cons.mp hd' with rfl | hd'
    · exact absurd htoken hother
    · exact h.dumped d' hd' htoken
  · intro hstarted d' hd'
    rcases List.mem_cons.mp hd' with rfl | hd'
    · exact hother
    · exact h.own hstarted d' hd'
  · intro d' hd'
    rcases List.mem_cons.mp hd' with rfl | hd'
    · exact hfresh
    · exact h.fresh d' hd'

/-! ## Section 4: A device -/

/-- A device with one app at most. -/
structure OneApp where
  installed : Bool
  token : Option Nat
deriving DecidableEq

namespace OneApp

def package : Text := "a".toList
def devicePath : Text := "/data/app/a.apk".toList
def hostPath : Text := "a.apk".toList
def checksum : Text := "1".toList

def apks : ApkFacts := ⟨fun _ => package, fun _ => [], fun _ => package, fun _ _ _ => []⟩

/-- The host has an apk of the app. -/
def look (s : OneApp) : Look where
  installed p := if p = package ∧ s.installed = true then [devicePath] else []
  sum path := if path = devicePath ∧ s.installed = true then some checksum else none
  token := s.token
  host := ⟨fun path => if path = hostPath then some checksum else none, id⟩

instance (path q : Text) : Decidable (Under path q) := inferInstanceAs (Decidable (_ ∨ _))

/-- A command that fails when it cannot be done. -/
def tryTo (can : OneApp → Bool) (f : OneApp → OneApp) : Routine OneApp DeviceError Unit := fun s =>
  if can s then .ok () (f s) else .error (.commandFailed []) s

def commands : Commands OneApp where
  swapToken token := modifyGet fun s =>
    ((s.token, [("ro.build.version.sdk".toList, "21".toList)]), { s with token := some token })
  getprop _ := pure "21".toList
  setprop _ _ := pure ()
  pmPath _ p := do return ((← get).look.installed p).map (packagePrefix ++ ·)
  testExists paths := tryTo (fun s => paths.all fun path => (s.look.sum path).isSome) id
  deviceMd5Sums paths := do
    let s ← get
    return if s.installed ∧ ∃ path ∈ paths, Under path devicePath then [(devicePath, checksum)]
      else []
  hostMd5Sums paths := pure
    (if ∃ path ∈ paths, Under path hostPath then [(hostPath, checksum)] else [])
  hostExists path s := (s.look.host.sum path).isSome
  getPackageName _ := pure package
  getPermissions _ := pure []
  selectSplits _ _ := pure []
  install apk _ _ := tryTo (fun _ => apk = hostPath) fun s => { s with installed := true }
  installMultiple apks _ _ _ := tryTo (fun _ => apks ≠ [] ∧ ∀ apk ∈ apks, apk = hostPath)
    fun s => { s with installed := true }
  uninstall p _ := tryTo (fun s => p = package ∧ s.installed) fun s => { s with installed := false }
  pmGrant _ _ := pure ()
  forceStop _ := pure ()
  reboot := pure ()
  waitUntilFullyBooted := pure ()

theorem tryTo_meets {can : OneApp → Bool} {f : OneApp → OneApp} :
    (tryTo can f).Meets (fun s _ s' => can s = true ∧ s' = f s)
      (fun s e s' => can s = false ∧ e = .commandFailed [] ∧ s' = s) := by
  intro s
  cases hcan : can s with
  | true =>
    have heq : (tryTo can f).run s = .ok () (f s) := by
      rw [EStateM.run, tryTo, if_pos hcan]
    rw [heq]
    exact ⟨hcan, rfl⟩
  | false =>
    have heq : (tryTo can f).run s = .error (.commandFailed []) s := by
      rw [EStateM.run, tryTo, if_neg (Bool.eq_false_iff.mp hcan)]
    rw [heq]
    exact ⟨hcan, rfl, rfl⟩

theorem mem_installed {s : OneApp} {p path : Text} :
    path ∈ s.look.installed p ↔ (p = package ∧ s.installed = true) ∧ path = devicePath := by
  simp [look]

theorem sum_eq {s : OneApp} {path d : Text} :
    s.look.sum path = some d ↔ (path = devicePath ∧ s.installed = true) ∧ checksum = d := by
  simp [look]

theorem host_sum_eq {s : OneApp} {path d : Text} :
    s.look.host.sum path = some d ↔ path = hostPath ∧ checksum = d := by
  simp [look]

theorem apkLines_map (paths : List Text) : apkLines (paths.map (packagePrefix ++ ·)) = paths := by
  have hstarts : ∀ path : Text, packagePrefix.isPrefixOf (packagePrefix ++ path) = true := by
    intro path
    rw [List.isPrefixOf_iff_prefix]
    exact List.prefix_append _ _
  unfold apkLines
  induction paths with
  | nil => rfl
  | cons path paths ih =>
    rw [List.map_cons, List.filter_cons_of_pos (hstarts path), List.map_cons, ih, List.drop_left]

theorem holds {s : OneApp} (h : s.installed = true) : s.look.Holds package checksum :=
  ⟨devicePath, mem_installed.mpr ⟨⟨rfl, h⟩, rfl⟩, sum_eq.mpr ⟨⟨rfl, h⟩, rfl⟩⟩

theorem sane (s : OneApp) : s.look.Sane apks where
  apk := by
    intro p path hpath
    obtain ⟨⟨rfl, hinstalled⟩, rfl⟩ := mem_installed.mp hpath
    refine ⟨⟨checksum, sum_eq.mpr ⟨⟨rfl, hinstalled⟩, rfl⟩⟩, fun q _ => ⟨rfl, fun hne => ?_⟩⟩
    exact if_neg fun h => hne h.1
  file := by
    intro f d hd
    obtain ⟨rfl, rfl⟩ := host_sum_eq.mp hd
    exact ⟨rfl, fun q _ hne => if_neg hne⟩
  package _ _ _ := rfl
  split := by
    intro base splits f g d d' _ _ hd hd' _
    exact (host_sum_eq.mp hd).2.symm.trans (host_sum_eq.mp hd').2

theorem othersKept {s s' : OneApp} (h : s'.token = s.token) :
    OthersKept apks package s.look s'.look where
  installed q hq := by
    have hnil : ∀ t : OneApp, t.look.installed q = [] := fun t => if_neg fun h => hq h.1
    rw [hnil, hnil]
  sum path hpath := absurd rfl hpath
  token := h
  host := rfl

theorem lawful : commands.Lawful apks look where
  sane := sane
  swapToken _ _ := ⟨rfl, rfl⟩
  getprop _ _ := rfl
  setprop _ _ _ := rfl
  pmPath _ p s := by
    refine ⟨rfl, ?_⟩
    exact apkLines_map (s.look.installed p)
  testExists paths := by
    apply tryTo_meets.mono
    · rintro s _ s' ⟨hall, rfl⟩
      refine ⟨rfl, fun path hpath => ?_⟩
      exact Option.isSome_iff_ne_none.mp (List.all_eq_true.mp hall path hpath)
    · rintro s e s' ⟨-, rfl, rfl⟩
      exact ⟨rfl, rfl⟩
  deviceMd5Sums paths s := by
    refine ⟨rfl, fun q d => ?_⟩
    show ((q, d) ∈ if s.installed = true ∧ ∃ path ∈ paths, Under path devicePath then _ else _) ↔ _
    rw [List.mem_ite_nil_right, List.mem_singleton, Prod.mk.injEq, sum_eq]
    constructor
    · rintro ⟨⟨hinstalled, hunder⟩, rfl, rfl⟩
      exact ⟨⟨⟨rfl, hinstalled⟩, rfl⟩, hunder⟩
    · rintro ⟨⟨⟨rfl, hinstalled⟩, rfl⟩, hunder⟩
      exact ⟨⟨hinstalled, hunder⟩, rfl, rfl⟩
  hostMd5Sums paths s := by
    refine ⟨rfl, ?_, fun q d => ?_⟩
    · split
      · exact List.nodup_singleton _
      · exact List.nodup_nil
    · rw [List.mem_ite_nil_right, List.mem_singleton, Prod.mk.injEq, host_sum_eq]
      constructor
      · rintro ⟨hunder, rfl, rfl⟩
        exact ⟨⟨rfl, rfl⟩, hunder⟩
      · rintro ⟨⟨rfl, rfl⟩, hunder⟩
        exact ⟨hunder, rfl, rfl⟩
  hostExists _ _ := rfl
  getPackageName _ _ := ⟨rfl, fun _ _ => rfl⟩
  getPermissions _ _ := rfl
  selectSplits _ _ _ := ⟨rfl, rfl⟩
  install apk _ _ := by
    apply tryTo_meets.mono
    · rintro s _ s' ⟨-, rfl⟩ d hd
      obtain ⟨-, rfl⟩ := host_sum_eq.mp hd
      exact ⟨othersKept rfl, holds rfl⟩
    · rintro s e s' ⟨-, -, rfl⟩ d _
      exact othersKept rfl
  installMultiple files partialTo _ _ := by
    apply tryTo_meets.mono
    · rintro s _ s' ⟨hfiles, rfl⟩ p hp
      obtain ⟨hne, -⟩ := of_decide_eq_true hfiles
      obtain ⟨f, hf⟩ := List.exists_mem_of_ne_nil _ hne
      obtain ⟨-, -, rfl⟩ := hp f hf
      refine ⟨othersKept rfl, fun f _ d hd => ?_, fun _ d hd _ => ?_⟩
      · obtain ⟨-, rfl⟩ := host_sum_eq.mp hd
        exact holds rfl
      · obtain ⟨path, hpath, hsum⟩ := hd
        obtain ⟨-, rfl⟩ := sum_eq.mp hsum
        exact holds rfl
    · rintro s e s' ⟨-, -, rfl⟩ p _
      exact OthersKept.of_eq p rfl
  uninstall p _ := by
    apply tryTo_meets.mono
    · rintro s _ s' ⟨hp, rfl⟩
      obtain ⟨rfl, -⟩ := of_decide_eq_true hp
      exact ⟨othersKept rfl, rfl⟩
    · rintro s e s' ⟨-, -, rfl⟩
      exact OthersKept.of_eq p rfl
  pmGrant _ _ _ := rfl
  forceStop _ _ := rfl
  reboot _ := rfl
  waitUntilFullyBooted _ := rfl

end OneApp

/-! ## Section 5: Histories -/

/-- A call of a script. -/
inductive Call where
  | getApplicationPaths (package : Text)
  /-- `Install`, and `InstallSplitApk` when there are splits. -/
  | install (baseApk : Text) (splitApks : List Text) (allowDowngrade reinstall : Bool)
      (permissions : Option (List Text))
  | uninstall (package : Text) (keepData : Bool)
  | grantPermissions (package : Text) (permissions : List Text)
  | getProp (name : Text) (cache : Bool)
  | setProp (name value : Text) (check : Bool)
  | reboot

/-- What a call leaves, whether it raises or not. -/
def Call.after (c : Commands σ) : Call → DeviceUtils σ → DeviceUtils σ
  | .getApplicationPaths package => (getApplicationPathsInternal c package).after
  | .install baseApk splitApks allowDowngrade reinstall permissions =>
      (installInternal c baseApk splitApks allowDowngrade reinstall permissions).after
  | .uninstall package keepData => (Devil.uninstall c package keepData).after
  | .grantPermissions package permissions => (Devil.grantPermissions c package permissions).after
  | .getProp name cache => (Devil.getProp c name cache).after
  | .setProp name value check => (Devil.setProp c name value check).after
  | .reboot => (Devil.reboot c).after

/-- What is reached on a device that scripts use one after the other, and what they have dumped. -/
inductive Reached (facts : ApkFacts) (c : Commands σ) (view : σ → Look) :
    List Dump → DeviceUtils σ → Prop where
  | start {s : σ} {n : Nat} (htoken : ∀ t, (view s).token = some t → t < n) :
      Reached facts c view [] ⟨Cache.empty, n, s⟩
  | call {dumps : List Dump} {u : DeviceUtils σ} (h : Reached facts c view dumps u)
      (call : Call) : Reached facts c view dumps (call.after c u)
  /-- A script loads before it calls anything else. -/
  | load {dumps : List Dump} {u : DeviceUtils σ} (h : Reached facts c view dumps u)
      (hnone : u.cache.token = none) {d : Dump} (hd : d ∈ dumps) :
      Reached facts c view dumps ((loadCacheData c d).after u)
  /-- A script dumps when it has called all else, and ends. -/
  | dump {dumps : List Dump} {u u' : DeviceUtils σ} (h : Reached facts c view dumps u) {d : Dump}
      (hrun : (dumpCacheData c).run u = .ok d u') :
      Reached facts c view (d :: dumps) { u' with cache := Cache.empty }
  /-- A script ends and does not dump. -/
  | quit {dumps : List Dump} {u : DeviceUtils σ} (h : Reached facts c view dumps u) :
      Reached facts c view dumps { u with cache := Cache.empty }
  | remove {dumps : List Dump} {u : DeviceUtils σ} (h : Reached facts c view dumps u)
      (hempty : u.cache = Cache.empty) {p : Text} {s : σ}
      (hr : Removed facts p (view u.world) (view s)) :
      Reached facts c view dumps { u with world := s }
  | edit {dumps : List Dump} {u : DeviceUtils σ} (h : Reached facts c view dumps u) {s : σ}
      {host : HostFiles} (hv : view s = { view u.world with host := host }) :
      Reached facts c view dumps { u with world := s }
  | foreign {dumps : List Dump} {u : DeviceUtils σ} (h : Reached facts c view dumps u) {d : Dump}
      (hfresh : ∀ t, d.token = some t → t < u.uuids) (hother : d.token ≠ (view u.world).token) :
      Reached facts c view (d :: dumps) u

/-- Whatever a script calls, what is cached stays true. -/
theorem Call.after_sound (hc : c.Lawful facts view) (call : Call)
    (h : Sound facts view dumps u) : Sound facts view dumps (call.after c u) := by
  cases call with
  | getApplicationPaths package =>
    exact (getApplicationPathsInternal_meets hc dumps package).after (fun _ _ hr => (hr h).1)
      fun _ _ hr => (hr h).1
  | install baseApk splitApks allowDowngrade reinstall permissions =>
    exact (installInternal_meets hc dumps baseApk splitApks allowDowngrade reinstall
      permissions).after (fun _ _ hr => (hr h).1) fun _ _ hr => hr h
  | uninstall package keepData =>
    exact (uninstall_meets hc dumps package keepData).after (fun _ _ hr => (hr h).1)
      fun _ _ hr => hr h
  | grantPermissions package permissions =>
    exact (grantPermissions_meets hc dumps package permissions).after (fun _ _ hr => (hr h).1)
      fun _ _ hr => (hr h).1
  | getProp name cache =>
    exact (getProp_meets hc dumps name cache).after (fun _ _ hr => (hr.1 h).1)
      fun _ _ hr => (hr h).1
  | setProp name value check => exact (setProp_meets hc dumps name value check).after h
  | reboot => exact (reboot_meets hc dumps).after h

/-- What is cached and dumped stays true in every history. -/
theorem Reached.sound (hc : c.Lawful facts view) (h : Reached facts c view dumps u) :
    Sound facts view dumps u := by
  induction h with
  | start htoken =>
    refine ⟨coherent_empty _, ?_, fun _ _ => rfl, fun hne => absurd rfl hne, ?_, htoken, ?_⟩
    · rintro _ ⟨⟩
    · rintro _ ⟨⟩
    · rintro _ ⟨⟩
  | call _ call ih => exact call.after_sound hc ih
  | load _ hnone hd ih =>
    exact (loadCacheData_meets hc hd).after (fun _ _ hr => hr hnone ih) fun _ _ hr => hr hnone ih
  | dump _ hrun ih => exact (dumpCacheData_meets hc _).ok hrun ih
  | quit _ ih => exact ih.cleared
  | remove _ hempty hr ih => exact ih.removed hc hempty hr
  | edit _ hv ih => exact ih.edited hv
  | foreign _ hfresh hother ih => exact ih.foreign hfresh hother

namespace OneApp

/-- No script has used the device. -/
def blank : DeviceUtils OneApp := ⟨Cache.empty, 0, ⟨false, none⟩⟩

theorem reached_blank : Reached apks commands look [] blank :=
  Reached.start (by rintro t ⟨⟩)

/-- One script has installed the app and dumped its cache.  The app has been removed by hand, and
the next script has loaded the dump. -/
theorem reached_removed : ∃ dumps u, Reached apks commands look dumps u ∧
    u.cache.packageApkPaths package = some [devicePath] ∧ u.world.installed = false ∧
    (∃ u', (getApplicationPathsInternal commands package).run u = .ok [] u') ∧
    ∃ u', (installInternal commands hostPath [] false false none).run u = .ok () u' := by
  have h₁ := reached_blank.call (.install hostPath [] false false none)
  have h₂ := h₁.call (.getApplicationPaths package)
  have h₃ := h₂.dump rfl
  have hr : Removed apks package (look ⟨true, some 0⟩) (look ⟨false, some 0⟩) :=
    ⟨othersKept rfl, rfl, fun path _ => if_neg fun h => Bool.false_ne_true h.2⟩
  have h₄ := h₃.remove rfl hr
  have h₅ := h₄.load rfl List.mem_cons_self
  exact ⟨_, _, h₅, rfl, rfl, ⟨_, rfl⟩, _, rfl⟩

end OneApp

theorem pathExists_error {paths : List Text} {e : DeviceError} {s : σ} (hne : paths ≠ [])
    (hrun : (c.testExists paths).run u.world = .error e s) (he : e.isCommandFailed = false) :
    (pathExists c paths).run u = .error e { u with world := s } := by
  have hworld : (onWorld (c.testExists paths)).run u = .error e { u with world := s } := by
    rw [EStateM.run, onWorld, Routine.within, hrun]
  unfold pathExists
  rw [if_neg hne]
  simp only [EStateM.run_tryCatch, EStateM.run_bind, hworld, he]
  rfl

/-- The app counts as verified all the same: the next time its paths are what was dumped, whether
they are there or not. -/
theorem getApplicationPathsInternal_cut_off {p : Text} {paths : List Text} {e : DeviceError}
    {s : σ} (hpaths : u.cache.packageApkPaths p = some paths) (hne : paths ≠ [])
    (hverify : u.cache.packageApkPathsToVerify p = true)
    (hrun : (c.testExists paths).run u.world = .error e s) (he : e.isCommandFailed = false) :
    (getApplicationPathsInternal c p).run u = .error e ⟨u.cache.verified p, u.uuids, s⟩ ∧
      (getApplicationPathsInternal c p).run ⟨u.cache.verified p, u.uuids, s⟩ =
        .ok paths ⟨u.cache.verified p, u.uuids, s⟩ := by
  have hcached : (u.cache.verified p).packageApkPaths p = some paths := hpaths
  constructor
  · have hexists : (pathExists c paths).run ⟨u.cache.verified p, u.uuids, u.world⟩ =
        .error e ⟨u.cache.verified p, u.uuids, s⟩ := pathExists_error hne hrun he
    simp [getApplicationPathsInternal, cachedApplicationPaths, editCache, hpaths, hne, hverify,
      hexists]
  · simp [getApplicationPathsInternal, cachedApplicationPaths, hcached]

/-- The app has been removed by hand, and the device does not answer in time. -/
theorem OneApp.getApplicationPathsInternal_removed : ∃ u : DeviceUtils OneApp,
    u.world.installed = false ∧
      (getApplicationPathsInternal { commands with testExists := fun _ => throw (.other []) }
        package).run u = .ok [devicePath] u :=
  ⟨_, rfl, (getApplicationPathsInternal_cut_off (u := ⟨Cache.empty.load ⟨some 0,
    fun _ => some [devicePath], fun _ => none, fun _ => none⟩, 1, ⟨false, some 1⟩⟩)
      rfl (by decide) rfl rfl rfl).2⟩

end Udroid.Devil
