import Udroid.Devil.Apps

/-!
# What is cached of apps is true

The methods of `DeviceUtils` rely on what they have cached of the apps on a device.

- `Commands.Lawful`: what the commands do to the apps, the files and the token.
- `Coherent`, `Sound`: what is cached and dumped, next to what is on the device.
- `getApplicationPathsInternal_meets`: the paths of an app are looked up.
- `computeStaleApks_meets`: the files with other checksums than those on the device are stale.
-/

namespace Udroid.Devil

open Udroid.Unix Std.Do

set_option mvcgen.warning false

/-! ## Section 1: The device and the host -/

/-- The files of the host. -/
structure HostFiles where
  sum : Text → Option Text
  realpath : Text → Text

/-- What there is on the device and on the host. -/
structure Look where
  /-- The apks of an app. -/
  installed : Text → List Text
  /-- The checksum of a file. -/
  sum : Text → Option Text
  token : Option Nat
  host : HostFiles

/-- What is known of apks. -/
structure ApkFacts where
  /-- The package that an apk with this checksum is of. -/
  package : Text → Text
  /-- The split that an apk with this checksum is. -/
  split : Text → Text
  /-- The package that an apk at this path of a device is of. -/
  owner : Text → Text
  /-- The splits that are for the device. -/
  selected : HostFiles → Text → List Text → List Text

/-- A path, or one below it. -/
def Under (path q : Text) : Prop := q = path ∨ path ++ ['/'] <+: q

/-- An apk with this checksum is installed. -/
def Look.Holds (look : Look) (package sum : Text) : Prop :=
  ∃ path ∈ look.installed package, look.sum path = some sum

variable (facts : ApkFacts)

/-- All apks of an installation. -/
def allApks (host : HostFiles) (baseApk : Text) (splitApks : List Text) : List Text :=
  baseApk :: if splitApks ≠ [] then facts.selected host baseApk splitApks else []

/-- How files and apks are on any device and host. -/
structure Look.Sane (look : Look) : Prop where
  apk : ∀ {p path}, path ∈ look.installed p → (∃ d, look.sum path = some d) ∧
    ∀ q, Under path q → facts.owner q = p ∧ (q ≠ path → look.sum q = none)
  file : ∀ {f d}, look.host.sum f = some d → look.host.sum (look.host.realpath f) = some d ∧
    ∀ q, Under (look.host.realpath f) q → q ≠ look.host.realpath f → look.host.sum q = none
  package : ∀ {base splits f d d'}, f ∈ facts.selected look.host base splits →
    look.host.sum base = some d → look.host.sum f = some d' → facts.package d' = facts.package d
  split : ∀ {base splits f g d d'}, f ∈ allApks facts look.host base splits →
    g ∈ allApks facts look.host base splits → look.host.sum f = some d →
    look.host.sum g = some d' → facts.split d = facts.split d' → d = d'

/-- One app at most has changed. -/
structure OthersKept (p : Text) (look look' : Look) : Prop where
  installed : ∀ q, q ≠ p → look'.installed q = look.installed q
  sum : ∀ path, facts.owner path ≠ p → look'.sum path = look.sum path
  token : look'.token = look.token
  host : look'.host = look.host

variable {σ α : Type}

/-- Nothing changes. -/
abbrev Quiet (view : σ → Look) (m : Routine σ DeviceError α) : Prop :=
  m.Meets (fun s _ s' => view s' = view s) (fun s _ s' => view s' = view s)

/-- What the commands do. -/
structure Commands.Lawful (c : Commands σ) (view : σ → Look) : Prop where
  sane : ∀ s, (view s).Sane facts
  swapToken : ∀ token, (c.swapToken token).Meets
    (fun s r s' => r.1 = (view s).token ∧ view s' = { view s with token := some token })
    (fun s _ s' => view s' = view s ∨ view s' = { view s with token := some token })
  getprop : ∀ name, Quiet view (c.getprop name)
  setprop : ∀ name value, Quiet view (c.setprop name value)
  pmPath : ∀ checkReturn p, (c.pmPath checkReturn p).Meets
    (fun s output s' => view s' = view s ∧ apkLines output = (view s).installed p)
    (fun s _ s' => view s' = view s)
  /-- It is not cut off: the app counts as verified before the command is run. -/
  testExists : ∀ paths, (c.testExists paths).Meets
    (fun s _ s' => view s' = view s ∧ ∀ path ∈ paths, (view s).sum path ≠ none)
    (fun s e s' => view s' = view s ∧ e.isCommandFailed = true)
  deviceMd5Sums : ∀ paths, (c.deviceMd5Sums paths).Meets
    (fun s sums s' => view s' = view s ∧ ∀ q d, (q, d) ∈ sums ↔
      (view s).sum q = some d ∧ ∃ path ∈ paths, Under path q)
    (fun s _ s' => view s' = view s)
  hostMd5Sums : ∀ paths, (c.hostMd5Sums paths).Meets
    (fun s sums s' => view s' = view s ∧ (sums.map Prod.fst).Nodup ∧ ∀ q d, (q, d) ∈ sums ↔
      (view s).host.sum q = some d ∧ ∃ path ∈ paths, Under ((view s).host.realpath path) q)
    (fun s _ s' => view s' = view s)
  hostExists : ∀ path s, c.hostExists path s = ((view s).host.sum path).isSome
  getPackageName : ∀ apk, (c.getPackageName apk).Meets
    (fun s p s' => view s' = view s ∧ ∀ d, (view s).host.sum apk = some d → p = facts.package d)
    (fun s _ s' => view s' = view s)
  getPermissions : ∀ apk, Quiet view (c.getPermissions apk)
  selectSplits : ∀ base splits, (c.selectSplits base splits).Meets
    (fun s apks s' => view s' = view s ∧ apks = facts.selected (view s).host base splits)
    (fun s _ s' => view s' = view s)
  install : ∀ apk reinstall downgrade, (c.install apk reinstall downgrade).Meets
    (fun s _ s' => ∀ d, (view s).host.sum apk = some d →
      OthersKept facts (facts.package d) (view s) (view s') ∧ (view s').Holds (facts.package d) d)
    (fun s _ s' => ∀ d, (view s).host.sum apk = some d →
      OthersKept facts (facts.package d) (view s) (view s'))
  /-- With `partialTo` what is there stays, but for the splits that are put in anew. -/
  installMultiple : ∀ apks partialTo reinstall downgrade,
    (c.installMultiple apks partialTo reinstall downgrade).Meets
    (fun s _ s' => ∀ p, (∀ f ∈ apks, ∃ d, (view s).host.sum f = some d ∧ facts.package d = p) →
      OthersKept facts p (view s) (view s') ∧
      (∀ f ∈ apks, ∀ d, (view s).host.sum f = some d → (view s').Holds p d) ∧
      (partialTo = some p → ∀ d, (view s).Holds p d →
        (∀ f ∈ apks, ∀ d', (view s).host.sum f = some d' → facts.split d' ≠ facts.split d) →
        (view s').Holds p d))
    (fun s _ s' => ∀ p, (∀ f ∈ apks, ∃ d, (view s).host.sum f = some d ∧ facts.package d = p) →
      OthersKept facts p (view s) (view s'))
  uninstall : ∀ p keepData, (c.uninstall p keepData).Meets
    (fun s _ s' => OthersKept facts p (view s) (view s') ∧ (view s').installed p = [])
    (fun s _ s' => OthersKept facts p (view s) (view s'))
  pmGrant : ∀ p permissions, Quiet view (c.pmGrant p permissions)
  forceStop : ∀ p, Quiet view (c.forceStop p)
  reboot : Quiet view c.reboot
  waitUntilFullyBooted : Quiet view c.waitUntilFullyBooted

/-! ## Section 2: What is cached -/

/-- The app has been removed, and nothing is left where its apks were. -/
structure Gone (look : Look) (p : Text) (paths : List Text) : Prop where
  installed : look.installed p = []
  sum : ∀ path ∈ paths, ∀ q, Under path q → look.sum q = none
  owner : ∀ path ∈ paths, ∀ q, Under path q → facts.owner q = p

/-- What is cached of an app is what is on the device, but for apps that have been removed. -/
structure CoherentAt (k : Cache) (look : Look) (p : Text) : Prop where
  paths : ∀ {paths}, k.packageApkPaths p = some paths →
    paths = look.installed p ∨ Gone facts look p paths
  /-- The checksums of an app that has been removed are not read. -/
  sums : ∀ {sums}, k.packageApkChecksums p = some sums → (∀ d ∈ sums, look.Holds p d) ∨
    (look.installed p = [] ∧ ∀ paths, k.packageApkPaths p = some paths →
      paths = [] ∨ k.packageApkPathsToVerify p = true)

def Coherent (k : Cache) (look : Look) : Prop := ∀ p, CoherentAt facts k look p

/-- Every script that has read something of an app has put a new token on the device, and then no
other script takes what was dumped before. -/
structure Sound (view : σ → Look) (dumps : List Dump) (u : DeviceUtils σ) : Prop where
  coherent : Coherent facts u.cache (view u.world)
  dumped : ∀ d ∈ dumps, d.token = (view u.world).token →
    Coherent facts (Cache.empty.load d) (view u.world)
  started : u.cache.token = none → ∀ p, u.cache.packageApkPaths p = none
  own : u.cache.token ≠ none → ∀ d ∈ dumps, d.token ≠ (view u.world).token
  fresh : ∀ d ∈ dumps, ∀ t, d.token = some t → t < u.uuids
  freshToken : ∀ t, (view u.world).token = some t → t < u.uuids
  freshOwn : ∀ t, u.cache.token = some t → t < u.uuids

/-- The apps are as they were. -/
structure SameApps (view : σ → Look) (u u' : DeviceUtils σ) : Prop where
  installed : (view u'.world).installed = (view u.world).installed
  sum : (view u'.world).sum = (view u.world).sum
  host : (view u'.world).host = (view u.world).host
  started : u.cache.token ≠ none → u'.cache.token ≠ none

/-- What is known of the apps is as it was, too. -/
structure Unchanged (view : σ → Look) (u u' : DeviceUtils σ) : Prop extends SameApps view u u' where
  paths : u'.cache.packageApkPaths = u.cache.packageApkPaths
  verify : u'.cache.packageApkPathsToVerify = u.cache.packageApkPathsToVerify
  checksums : u'.cache.packageApkChecksums = u.cache.packageApkChecksums

variable {facts} {c : Commands σ} {view : σ → Look} {dumps : List Dump} {u u' : DeviceUtils σ}

theorem Unchanged.refl (view : σ → Look) (u : DeviceUtils σ) : Unchanged view u u :=
  ⟨⟨rfl, rfl, rfl, id⟩, rfl, rfl, rfl⟩

theorem SameApps.trans {u'' : DeviceUtils σ} (h : SameApps view u u')
    (h' : SameApps view u' u'') : SameApps view u u'' :=
  ⟨h'.installed.trans h.installed, h'.sum.trans h.sum, h'.host.trans h.host,
    fun htoken => h'.started (h.started htoken)⟩

theorem SameApps.holds (h : SameApps view u u') (p : Text) :
    (view u'.world).Holds p = (view u.world).Holds p := by
  funext d
  rw [Look.Holds, Look.Holds, h.installed, h.sum]

theorem Unchanged.trans {u'' : DeviceUtils σ} (h : Unchanged view u u')
    (h' : Unchanged view u' u'') : Unchanged view u u'' :=
  ⟨h.toSameApps.trans h'.toSameApps, h'.paths.trans h.paths, h'.verify.trans h.verify,
    h'.checksums.trans h.checksums⟩

theorem CoherentAt.congr {k k' : Cache} {look look' : Look} {p : Text}
    (h : CoherentAt facts k look p) (hp : k'.packageApkPaths p = k.packageApkPaths p)
    (hv : k'.packageApkPathsToVerify p = k.packageApkPathsToVerify p)
    (hc : k'.packageApkChecksums p = k.packageApkChecksums p)
    (hi : look'.installed p = look.installed p)
    (hs : ∀ path, path ∈ look.installed p ∨ facts.owner path = p → look'.sum path = look.sum path) :
    CoherentAt facts k' look' p := by
  constructor
  · intro paths hpaths
    rw [hp] at hpaths
    rw [hi]
    apply (h.paths hpaths).imp_right
    rintro ⟨hnil, hsum, howner⟩
    refine ⟨hi.trans hnil, fun path hpath q hq => ?_, howner⟩
    rw [hs q (Or.inr (howner path hpath q hq))]
    exact hsum path hpath q hq
  · intro sums hsums
    rw [hc] at hsums
    rw [hi, hp, hv]
    apply (h.sums hsums).imp_left
    intro hall d hd
    obtain ⟨path, hpath, hsum⟩ := hall d hd
    exact ⟨path, hi ▸ hpath, (hs path (Or.inl hpath)).trans hsum⟩

theorem Unchanged.coherent (h : Unchanged view u u') (hu : Coherent facts u.cache (view u.world)) :
    Coherent facts u'.cache (view u'.world) := by
  intro p
  apply (hu p).congr
  · rw [h.paths]
  · rw [h.verify]
  · rw [h.checksums]
  · rw [h.installed]
  · intro path _
    rw [h.sum]

/-- Nothing that the cache is about has changed. -/
theorem Sound.same (h : Sound facts view dumps u) (hv : view u'.world = view u.world)
    (hk : Unchanged view u u') (htoken : u'.cache.token = u.cache.token)
    (huuids : u.uuids ≤ u'.uuids) : Sound facts view dumps u' := by
  refine ⟨hk.coherent h.coherent, ?_, ?_, ?_, ?_, ?_, ?_⟩
  · rw [hv]
    exact h.dumped
  · rw [htoken, hk.paths]
    exact h.started
  · rw [htoken, hv]
    exact h.own
  · intro d hd t ht
    exact (h.fresh d hd t ht).trans_le huuids
  · rw [hv]
    intro t ht
    exact (h.freshToken t ht).trans_le huuids
  · rw [htoken]
    intro t ht
    exact (h.freshOwn t ht).trans_le huuids

/-- The cache and the apps are the same. -/
theorem Unchanged.of_cache (hcache : u'.cache = u.cache)
    (hi : (view u'.world).installed = (view u.world).installed)
    (hs : (view u'.world).sum = (view u.world).sum)
    (hh : (view u'.world).host = (view u.world).host) : Unchanged view u u' :=
  ⟨⟨hi, hs, hh, by rw [hcache]; exact id⟩, by rw [hcache], by rw [hcache], by rw [hcache]⟩

/-- Something has been read. -/
def Observes (facts : ApkFacts) (view : σ → Look) (dumps : List Dump)
    (u u' : DeviceUtils σ) : Prop :=
  Sound facts view dumps u → Sound facts view dumps u' ∧ Unchanged view u u'

/-- Apps have been looked up. -/
def Looks (facts : ApkFacts) (view : σ → Look) (dumps : List Dump) (u u' : DeviceUtils σ) : Prop :=
  Sound facts view dumps u → Sound facts view dumps u' ∧ SameApps view u u'

theorem Observes.looks (h : Observes facts view dumps u u') : Looks facts view dumps u u' :=
  fun hu => (h hu).imp_right Unchanged.toSameApps

theorem Looks.trans {u'' : DeviceUtils σ} (h : Looks facts view dumps u u')
    (h' : Looks facts view dumps u' u'') : Looks facts view dumps u u'' := by
  intro hu
  obtain ⟨hu', hk⟩ := h hu
  obtain ⟨hu'', hk'⟩ := h' hu'
  exact ⟨hu'', hk.trans hk'⟩

theorem Observes.refl (u : DeviceUtils σ) : Observes facts view dumps u u :=
  fun h => ⟨h, Unchanged.refl view u⟩

theorem Observes.trans {u'' : DeviceUtils σ} (h : Observes facts view dumps u u')
    (h' : Observes facts view dumps u' u'') : Observes facts view dumps u u'' := by
  intro hu
  obtain ⟨hu', hk⟩ := h hu
  obtain ⟨hu'', hk'⟩ := h' hu'
  exact ⟨hu'', hk.trans hk'⟩

/-- A command that changes nothing. -/
theorem Observes.world (hcache : u'.cache = u.cache) (huuids : u'.uuids = u.uuids)
    (hv : view u'.world = view u.world) : Observes facts view dumps u u' := by
  intro h
  have hk : Unchanged view u u' :=
    Unchanged.of_cache hcache (by rw [hv]) (by rw [hv]) (by rw [hv])
  exact ⟨h.same hv hk (by rw [hcache]) huuids.ge, hk⟩

/-- Only properties in the cache change. -/
theorem Observes.setProp (u : DeviceUtils σ) (name : Text) (value : Option Text) :
    Observes facts view dumps u { u with cache := u.cache.setProp name value } := by
  intro h
  have hk : Unchanged view u { u with cache := u.cache.setProp name value } :=
    ⟨⟨rfl, rfl, rfl, id⟩, rfl, rfl, rfl⟩
  exact ⟨h.same rfl hk rfl le_rfl, hk⟩

/-- A command that changes nothing, and then properties in the cache. -/
theorem Observes.prop (hcache : u'.cache = u.cache) (huuids : u'.uuids = u.uuids)
    (hv : view u'.world = view u.world) (name : Text) (value : Option Text) :
    Observes facts view dumps u { u' with cache := u'.cache.setProp name value } :=
  (Observes.world hcache huuids hv).trans (Observes.setProp u' name value)

/-- A command does to the world what it does. -/
theorem world_meets {m : Routine σ DeviceError α} {Q : σ → α → σ → Prop}
    {E : σ → DeviceError → σ → Prop} (h : m.Meets Q E) :
    (onWorld m).Meets
      (fun u a u' => u'.cache = u.cache ∧ u'.uuids = u.uuids ∧ Q u.world a u'.world)
      (fun u e u' => u'.cache = u.cache ∧ u'.uuids = u.uuids ∧ E u.world e u'.world) := by
  apply (Routine.Meets.within h DeviceUtils.world fun s u => { u with world := s }).mono
  · rintro u a u' ⟨s, rfl, hs⟩
    exact ⟨rfl, rfl, hs⟩
  · rintro u e u' ⟨s, rfl, hs⟩
    exact ⟨rfl, rfl, hs⟩

/-! ## Section 3: Properties -/

/-- A new token is on the device; what was dumped before is not taken any more. -/
theorem Sound.swapped (h : Sound facts view dumps u) (hk : Unchanged view u u')
    (huuids : u'.uuids = u.uuids + 1) (hv : (view u'.world).token = some u.uuids)
    (htoken : u'.cache.token = none → ∀ p, u'.cache.packageApkPaths p = none)
    (hown : ∀ t, u'.cache.token = some t → t = u.uuids) : Sound facts view dumps u' := by
  have hother : ∀ d ∈ dumps, d.token ≠ (view u'.world).token := by
    intro d hd heq
    rw [hv] at heq
    exact absurd (h.fresh d hd _ heq) (Nat.lt_irrefl _)
  refine ⟨hk.coherent h.coherent, ?_, htoken, fun _ => hother, ?_, ?_, ?_⟩
  · intro d hd heq
    exact absurd heq (hother d hd)
  · intro d hd t ht
    rw [huuids]
    exact Nat.lt_succ_of_lt (h.fresh d hd t ht)
  · intro t ht
    rw [hv] at ht
    obtain rfl := Option.some.inj ht
    rw [huuids]
    exact Nat.lt_succ_self _
  · intro t ht
    obtain rfl := hown t ht
    rw [huuids]
    exact Nat.lt_succ_self _

theorem ensureCacheInitialized_meets (hc : c.Lawful facts view) (dumps : List Dump) :
    (ensureCacheInitialized c).Meets
      (fun u _ u' => Observes facts view dumps u u' ∧ u'.cache.token ≠ none ∧
        (u.cache.token = none → u'.cache.prevToken = (view u.world).token) ∧
        (u.cache.token ≠ none → u' = u))
      (fun u _ u' => Observes facts view dumps u u') := by
  apply Routine.Meets.of_spec
  intro u₀
  have hswap := fun token => (world_meets (hc.swapToken token)).spec
  unfold ensureCacheInitialized uuid1 editCache
  mvcgen [hswap]
  -- a new token is on the device
  · rename_i u hu hnone _ r u' hr _
    subst hu
    obtain ⟨hcache, huuids, hprev, hv⟩ : u'.cache = u.cache ∧ u'.uuids = u.uuids + 1 ∧
      r.1 = (view u.world).token ∧
        view u'.world = { view u.world with token := some u.uuids } := hr
    refine ⟨fun h => ?_, Option.some_ne_none _, fun _ => hprev, fun hsome => absurd hnone hsome⟩
    have hk : Unchanged view u ⟨{ u'.cache with
        getprop := r.2.foldl (fun known prop => Function.update known prop.1 (some prop.2))
          fun _ => none
        token := some u.uuids
        prevToken := r.1 }, u'.uuids, u'.world⟩ := by
      rw [hcache]
      exact ⟨⟨by rw [hv], by rw [hv], by rw [hv], fun _ => Option.some_ne_none _⟩, rfl, rfl, rfl⟩
    refine ⟨h.swapped hk huuids (by rw [hv]) ?_ ?_, hk⟩
    · rintro ⟨⟩
    · intro t ht
      exact (Option.some.inj ht).symm
  -- the command failed, before the new token was there or after
  · rename_i u hu hnone _ e u'
    subst hu
    intro (hcache : u'.cache = u.cache) (huuids : u'.uuids = u.uuids + 1)
      (hv : view u'.world = view u.world ∨
        view u'.world = { view u.world with token := some u.uuids }) h
    rcases hv with hv | hv
    · have hk : Unchanged view u u' :=
        Unchanged.of_cache hcache (by rw [hv]) (by rw [hv]) (by rw [hv])
      exact ⟨h.same hv hk (by rw [hcache]) (by omega), hk⟩
    · have hk : Unchanged view u u' :=
        Unchanged.of_cache hcache (by rw [hv]) (by rw [hv]) (by rw [hv])
      refine ⟨h.swapped hk huuids (by rw [hv]) ?_ ?_, hk⟩
      · rw [hcache]
        exact h.started
      · rw [hcache, hnone]
        rintro t ⟨⟩
  -- there is a token already
  · rename_i u hu hsome
    subst hu
    exact ⟨Observes.refl u, hsome, fun hnone => absurd hnone hsome, fun _ => rfl⟩

theorem getProp_meets (hc : c.Lawful facts view) (dumps : List Dump) (name : Text) (cache : Bool) :
    (getProp c name cache).Meets
      (fun u _ u' => Observes facts view dumps u u' ∧ (cache = true → u'.cache.token ≠ none))
      (fun u _ u' => Observes facts view dumps u u') := by
  apply Routine.Meets.of_spec
  intro u₀
  have hinit := (ensureCacheInitialized_meets hc dumps).spec
  have hget := fun name => (world_meets (hc.getprop name)).spec
  unfold getProp editCache
  mvcgen [hinit, hget]
  · rename_i hcache u hu _ u' hr
    subst hu
    exact ⟨hr.1, fun _ => hr.2.1⟩
  · rename_i u hu e u'
    subst hu
    exact id
  · rename_i hcache u hu value u' hr _
    subst hu
    obtain ⟨hk, huuids, hv⟩ := hr
    exact ⟨Observes.prop hk huuids hv name (some value), fun htrue => absurd htrue hcache⟩
  · rename_i u hu e u'
    subst hu
    intro hk huuids hv
    exact Observes.world hk huuids hv

theorem setProp_meets (hc : c.Lawful facts view) (dumps : List Dump) (name value : Text)
    (check : Bool) :
    (setProp c name value check).Keeps (Sound facts view dumps) := by
  apply Routine.Meets.of_spec
  intro u₀
  have hset := fun name value => (world_meets (hc.setprop name value)).spec
  have hget := fun name cache => (getProp_meets hc dumps name cache).spec
  unfold setProp editCache
  mvcgen [hset, hget]
  · rename_i u hu _ u' hr _ _ _ _ u'' hr'
    subst hu
    exact fun h => ((Observes.prop hr.1 hr.2.1 hr.2.2 name none).trans hr'.1 h).1
  · rename_i u hu _ u' hr _ _ _ _ u'' hr'
    subst hu
    exact fun h => ((Observes.prop hr.1 hr.2.1 hr.2.2 name none).trans hr'.1 h).1
  · rename_i u hu _ u' hr _ _ _ u''
    subst hu
    exact fun hr' h => ((Observes.prop hr.1 hr.2.1 hr.2.2 name none).trans hr' h).1
  · rename_i u hu _ u' hr _ _
    subst hu
    exact fun h => (Observes.prop hr.1 hr.2.1 hr.2.2 name none h).1
  · rename_i u hu _ u'
    subst hu
    exact fun hk huuids hv h => (Observes.world hk huuids hv h).1

theorem buildVersionSdk_meets (hc : c.Lawful facts view) (dumps : List Dump) :
    (buildVersionSdk c).Meets
      (fun u _ u' => Observes facts view dumps u u' ∧ u'.cache.token ≠ none)
      (fun u _ u' => Observes facts view dumps u u') := by
  apply Routine.Meets.of_spec
  intro u₀
  have hget := fun name cache => (getProp_meets hc dumps name cache).spec
  unfold buildVersionSdk
  mvcgen [hget]
  · rename_i u hu _ _ _ u' hr
    subst hu
    exact hr
  · rename_i u hu _ _ u' hr
    subst hu
    exact hr.1
  · rename_i u hu _ u'
    subst hu
    exact id

/-- Paths are verified or they are not, but the verification is not cut off. -/
theorem pathExists_meets (hc : c.Lawful facts view) (paths : List Text) :
    (pathExists c paths).Meets
      (fun u r u' => u'.cache = u.cache ∧ u'.uuids = u.uuids ∧ view u'.world = view u.world ∧
        (r = true → ∀ path ∈ paths, (view u.world).sum path ≠ none))
      (fun _ _ _ => False) := by
  apply Routine.Meets.of_spec
  intro u₀
  have htest := fun paths => (world_meets (hc.testExists paths)).spec
  unfold pathExists
  mvcgen [htest]
  -- there is nothing to look for
  · rename_i hnil u hu
    subst hu hnil
    exact ⟨rfl, rfl, rfl, fun path hpath => absurd hpath List.not_mem_nil⟩
  -- all are there
  · rename_i u hu _ u' hr
    subst hu
    exact hr
  -- one is not there
  · rename_i u hu _ u' _ hr
    subst hu
    exact ⟨hr.1, hr.2.1, hr.2.2.1, fun hfalse => absurd hfalse Bool.false_ne_true⟩
  · rename_i hfailed hr
    exact hfailed hr.2.2.2

/-! ## Section 4: Paths -/

theorem OthersKept.of_eq {look look' : Look} (p : Text) (h : look' = look) :
    OthersKept facts p look look' := by
  subst h
  exact ⟨fun _ _ => rfl, fun _ _ => rfl, rfl, rfl⟩

/-- What is cached of another app stays true. -/
theorem CoherentAt.others {k : Cache} {look look' : Look} {p q : Text}
    (h : CoherentAt facts k look q) (hsane : look.Sane facts)
    (hlook : OthersKept facts p look look') (hq : q ≠ p) : CoherentAt facts k look' q := by
  apply h.congr rfl rfl rfl (hlook.installed q hq)
  rintro path (hpath | hpath)
  · apply hlook.sum
    rw [((hsane.apk hpath).2 path (Or.inl rfl)).1]
    exact hq
  · apply hlook.sum
    rw [hpath]
    exact hq

/-- At most one app is cached differently. -/
structure OthersCached (p : Text) (k k' : Cache) : Prop where
  paths : ∀ q, q ≠ p → k'.packageApkPaths q = k.packageApkPaths q
  verify : ∀ q, q ≠ p → k'.packageApkPathsToVerify q = k.packageApkPathsToVerify q
  checksums : ∀ q, q ≠ p → k'.packageApkChecksums q = k.packageApkChecksums q
  token : k'.token = k.token

/-- One app has changed, or what is cached of it. -/
theorem Sound.edit (h : Sound facts view dumps u) (u' : DeviceUtils σ)
    (hsane : (view u.world).Sane facts) {p : Text}
    (hstarted : u.cache.token ≠ none) (huuids : u'.uuids = u.uuids)
    (hlook : OthersKept facts p (view u.world) (view u'.world))
    (hcache : OthersCached p u.cache u'.cache)
    (hp : CoherentAt facts u'.cache (view u'.world) p) : Sound facts view dumps u' := by
  have hother : ∀ d ∈ dumps, d.token ≠ (view u'.world).token := by
    rw [hlook.token]
    exact h.own hstarted
  refine ⟨fun q => ?_, fun d hd heq => absurd heq (hother d hd), fun hnone => ?_,
    fun _ => hother, ?_, ?_, ?_⟩
  · by_cases hq : q = p
    · exact hq ▸ hp
    · exact ((h.coherent q).others hsane hlook hq).congr (hcache.paths q hq) (hcache.verify q hq)
        (hcache.checksums q hq) rfl fun _ _ => rfl
  · exact absurd (hcache.token ▸ hnone) hstarted
  · rw [huuids]
    exact h.fresh
  · rw [hlook.token, huuids]
    exact h.freshToken
  · rw [hcache.token, huuids]
    exact h.freshOwn

/-- Only what is cached of one app has changed. -/
theorem Sound.editCache (h : Sound facts view dumps u) (u' : DeviceUtils σ)
    (hsane : (view u.world).Sane facts) {p : Text} (hstarted : u.cache.token ≠ none)
    (huuids : u'.uuids = u.uuids) (hv : view u'.world = view u.world)
    (hcache : OthersCached p u.cache u'.cache)
    (hp : CoherentAt facts u'.cache (view u.world) p) :
    Sound facts view dumps u' ∧ SameApps view u u' := by
  refine ⟨h.edit u' hsane hstarted huuids (OthersKept.of_eq p hv) hcache (hv.symm ▸ hp), ?_⟩
  exact ⟨by rw [hv], by rw [hv], by rw [hv], by rw [hcache.token]; exact id⟩

theorem OthersCached.trans {p : Text} {k k' k'' : Cache} (h : OthersCached p k k')
    (h' : OthersCached p k' k'') : OthersCached p k k'' :=
  ⟨fun q hq => (h'.paths q hq).trans (h.paths q hq),
    fun q hq => (h'.verify q hq).trans (h.verify q hq),
    fun q hq => (h'.checksums q hq).trans (h.checksums q hq), h'.token.trans h.token⟩

theorem othersCached_verified (p : Text) (k : Cache) : OthersCached p k (k.verified p) :=
  ⟨fun _ _ => rfl, fun _ hq => Function.update_of_ne hq _ _, fun _ _ => rfl, rfl⟩

theorem othersCached_setPaths (p : Text) (k : Cache) (paths : List Text) :
    OthersCached p k (k.setPaths p paths) :=
  ⟨fun _ hq => Function.update_of_ne hq _ _, fun _ _ => rfl, fun _ _ => rfl, rfl⟩

theorem othersCached_setChecksums (p : Text) (k : Cache) (sums : Option (Finset Text)) :
    OthersCached p k (k.setChecksums p sums) :=
  ⟨fun _ _ => rfl, fun _ _ => rfl, fun _ hq => Function.update_of_ne hq _ _, rfl⟩

theorem othersCached_popApp (p : Text) (k : Cache) : OthersCached p k (k.popApp p) :=
  ⟨fun _ hq => Function.update_of_ne hq _ _, fun _ _ => rfl,
    fun _ hq => Function.update_of_ne hq _ _, rfl⟩

@[simp] theorem Cache.verified_self (k : Cache) (p : Text) :
    (k.verified p).packageApkPathsToVerify p = false := Function.update_self _ _ _

@[simp] theorem Cache.setPaths_self (k : Cache) (p : Text) (paths : List Text) :
    (k.setPaths p paths).packageApkPaths p = some paths := Function.update_self _ _ _

@[simp] theorem Cache.setChecksums_self (k : Cache) (p : Text) (sums : Option (Finset Text)) :
    (k.setChecksums p sums).packageApkChecksums p = sums := Function.update_self _ _ _

@[simp] theorem Cache.popApp_paths (k : Cache) (p : Text) :
    (k.popApp p).packageApkPaths p = none := Function.update_self _ _ _

@[simp] theorem Cache.popApp_checksums (k : Cache) (p : Text) :
    (k.popApp p).packageApkChecksums p = none := Function.update_self _ _ _

/-- An app that has been read has a token behind it. -/
theorem Sound.token_ne_none (h : Sound facts view dumps u) {p : Text} {paths : List Text}
    (hpaths : u.cache.packageApkPaths p = some paths) : u.cache.token ≠ none := by
  intro hnone
  rw [h.started hnone p] at hpaths
  cases hpaths

/-- The checksums of an app may be read: they are of what is installed. -/
def Trusted (k : Cache) (look : Look) (p : Text) : Prop :=
  ∀ paths, k.packageApkPaths p = some paths → paths ≠ [] →
    ∀ sums, k.packageApkChecksums p = some sums → ∀ d ∈ sums, look.Holds p d

theorem CoherentAt.trusted {k : Cache} {look : Look} {p : Text} (h : CoherentAt facts k look p)
    (hread : k.packageApkPathsToVerify p = false ∨ k.packageApkPaths p = some (look.installed p)) :
    Trusted k look p := by
  intro paths hpaths hne sums hsums
  rcases h.sums hsums with hall | ⟨hnil, hno⟩
  · exact hall
  · rcases hread with hverify | hinstalled
    · rcases hno paths hpaths with heq | htrue
      · exact absurd heq hne
      · exact absurd (hverify.symm.trans htrue) Bool.false_ne_true
    · exact absurd ((Option.some.inj (hpaths.symm.trans hinstalled)).trans hnil) hne

/-- An app is there: its paths need not be verified any more. -/
theorem CoherentAt.verified {k : Cache} {look : Look} {p : Text} {paths : List Text}
    (h : CoherentAt facts k look p) (hpaths : k.packageApkPaths p = some paths)
    (hthere : ∀ path ∈ paths, look.sum path ≠ none) :
    CoherentAt facts (k.verified p) look p := by
  refine ⟨h.paths, fun hsums => ?_⟩
  apply (h.sums hsums).imp_right
  rintro ⟨hnil, -⟩
  refine ⟨hnil, fun paths' hpaths' => Or.inl ?_⟩
  obtain rfl : paths = paths' := Option.some.inj (hpaths.symm.trans hpaths')
  rcases h.paths hpaths with heq | hgone
  · exact heq.trans hnil
  · apply List.eq_nil_iff_forall_not_mem.mpr
    intro path hpath
    exact hthere path hpath (hgone.sum path hpath path (Or.inl rfl))

/-- An app is not there: its checksums are forgotten. -/
theorem CoherentAt.missing {k : Cache} {look : Look} {p : Text} (h : CoherentAt facts k look p) :
    CoherentAt facts ((k.verified p).setChecksums p none) look p := by
  refine ⟨h.paths, fun hsums => ?_⟩
  rw [Cache.setChecksums_self] at hsums
  cases hsums

/-- The paths have been asked for. -/
theorem CoherentAt.queried {k : Cache} {look : Look} {p : Text} (h : CoherentAt facts k look p) :
    CoherentAt facts (k.setPaths p (look.installed p)) look p := by
  refine ⟨fun hpaths => ?_, fun hsums => ?_⟩
  · rw [Cache.setPaths_self] at hpaths
    exact Or.inl (Option.some.inj hpaths).symm
  · apply (h.sums hsums).imp_right
    rintro ⟨hnil, -⟩
    refine ⟨hnil, fun paths hpaths => Or.inl ?_⟩
    rw [Cache.setPaths_self] at hpaths
    exact (Option.some.inj hpaths).symm.trans hnil

theorem cachedApplicationPaths_meets (hc : c.Lawful facts view) (dumps : List Dump) (p : Text) :
    (cachedApplicationPaths c p).Meets
      (fun u r u' => Sound facts view dumps u → Sound facts view dumps u' ∧ SameApps view u u' ∧
        ∀ paths, r = some paths → u'.cache.packageApkPaths p = some paths ∧
          Trusted u'.cache (view u'.world) p)
      (fun _ _ _ => False) := by
  apply Routine.Meets.of_spec
  intro u₀
  have hexists := fun paths => (pathExists_meets hc paths).spec
  unfold cachedApplicationPaths editCache
  mvcgen [hexists]
  -- nothing is cached
  · rename_i u hu hnone
    subst hu
    exact fun h => ⟨h, (Unchanged.refl view u).toSameApps, fun _ hsome => by cases hsome⟩
  -- the app is not there any more
  · rename_i u hu paths hpaths _ _ _ _ r hr u' hr' _
    subst hu
    obtain ⟨hcache, huuids, hv, -⟩ : u'.cache = u.cache.verified p ∧ u'.uuids = u.uuids ∧
      view u'.world = view u.world ∧ _ := hr'
    intro h
    have hothers : OthersCached p u.cache (u'.cache.setChecksums p none) := by
      rw [hcache]
      exact (othersCached_verified p _).trans (othersCached_setChecksums p _ none)
    have hat : CoherentAt facts (u'.cache.setChecksums p none) (view u.world) p := by
      rw [hcache]
      exact (h.coherent p).missing
    obtain ⟨hs, hk⟩ := h.editCache { u' with cache := u'.cache.setChecksums p none }
      (hc.sane _) (h.token_ne_none hpaths) huuids hv hothers hat
    exact ⟨hs, hk, fun _ hsome => by cases hsome⟩
  -- it is still there
  · rename_i u hu paths hpaths _ _ _ _ r hr u' hr'
    subst hu
    obtain ⟨hcache, huuids, hv, hthere⟩ : u'.cache = u.cache.verified p ∧ u'.uuids = u.uuids ∧
      view u'.world = view u.world ∧
        (r = true → ∀ path ∈ paths, (view u.world).sum path ≠ none) := hr'
    intro h
    have hothers : OthersCached p u.cache u'.cache := hcache ▸ othersCached_verified p _
    have hat : CoherentAt facts u'.cache (view u.world) p :=
      hcache ▸ (h.coherent p).verified hpaths (hthere (by simpa using hr))
    obtain ⟨hs, hk⟩ := h.editCache u' (hc.sane _) (h.token_ne_none hpaths) huuids hv hothers hat
    refine ⟨hs, hk, ?_⟩
    rintro _ ⟨⟩
    refine ⟨by rw [hcache]; exact hpaths, (hs.coherent p).trusted (Or.inl ?_)⟩
    rw [hcache, Cache.verified_self]
  -- it was not thought to be installed
  · rename_i u hu paths hpaths _ _ _ hnil
    subst hu
    obtain rfl : paths = [] := by simpa using hnil
    intro h
    obtain ⟨hs, hk⟩ := h.editCache { u with cache := u.cache.verified p } (hc.sane _)
      (h.token_ne_none hpaths) rfl rfl (othersCached_verified p _)
      ((h.coherent p).verified hpaths fun path hpath => absurd hpath List.not_mem_nil)
    refine ⟨hs, hk, ?_⟩
    rintro _ ⟨⟩
    exact ⟨hpaths, (hs.coherent p).trusted (Or.inl (Cache.verified_self _ p))⟩
  -- it has been verified before
  · rename_i u hu paths hpaths _ hverify
    subst hu
    intro h
    refine ⟨h, (Unchanged.refl view u).toSameApps, ?_⟩
    rintro _ ⟨⟩
    exact ⟨hpaths, (h.coherent p).trusted (Or.inl (by simpa using hverify))⟩

theorem queryApplicationPaths_meets (hc : c.Lawful facts view) (dumps : List Dump) (p : Text) :
    (queryApplicationPaths c p).Meets
      (fun u r u' => Sound facts view dumps u → Sound facts view dumps u' ∧ SameApps view u u' ∧
        u'.cache.packageApkPaths p = some r ∧ Trusted u'.cache (view u'.world) p)
      (fun u _ u' => Looks facts view dumps u u') := by
  apply Routine.Meets.of_spec
  intro u₀
  have hsdk := (buildVersionSdk_meets hc dumps).spec
  have hpm := fun checkReturn => (world_meets (hc.pmPath checkReturn p)).spec
  unfold queryApplicationPaths editCache
  mvcgen [hsdk, hpm]
  -- the output names no apk
  · rename_i u hu _ u₁ hr _ _ _ _ u₂ hr'
    subst hu
    exact (hr.1.trans (Observes.world hr'.1 hr'.2.1 hr'.2.2.1)).looks
  -- the apks are cached
  · rename_i u hu _ u₁ hr output _ _ _ u₂ hr' _
    subst hu
    obtain ⟨hcache, huuids, hv, hinstalled⟩ := hr'
    intro h
    obtain ⟨h₁, hk₁⟩ := hr.1 h
    have hothers : OthersCached p u₁.cache (u₂.cache.setPaths p (apkLines output)) :=
      hcache ▸ othersCached_setPaths p _ _
    have hat : CoherentAt facts (u₂.cache.setPaths p (apkLines output)) (view u₁.world) p := by
      rw [hcache, hinstalled]
      exact (h₁.coherent p).queried
    obtain ⟨hs, hk⟩ := h₁.editCache
      { u₂ with cache := u₂.cache.setPaths p (apkLines output) } (hc.sane _) hr.2 huuids hv
      hothers hat
    refine ⟨hs, hk₁.toSameApps.trans hk, Cache.setPaths_self _ p _, ?_⟩
    apply (hs.coherent p).trusted
    right
    rw [hk.installed, ← hinstalled]
    exact Cache.setPaths_self _ p _
  · rename_i u hu _ u₁ hr _ u₂
    subst hu
    exact fun hcache huuids hv => (hr.1.trans (Observes.world hcache huuids hv)).looks
  · rename_i u hu _ u₁
    subst hu
    exact Observes.looks

theorem getApplicationPathsInternal_meets (hc : c.Lawful facts view) (dumps : List Dump)
    (p : Text) :
    (getApplicationPathsInternal c p).Meets
      (fun u r u' => Sound facts view dumps u → Sound facts view dumps u' ∧ SameApps view u u' ∧
        Trusted u'.cache (view u'.world) p ∧ u'.cache.packageApkPaths p = some r)
      (fun u _ u' => Looks facts view dumps u u') := by
  apply Routine.Meets.of_spec
  intro u₀
  have hcached := (cachedApplicationPaths_meets hc dumps p).spec
  have hquery := (queryApplicationPaths_meets hc dumps p).spec
  unfold getApplicationPathsInternal
  mvcgen [hcached, hquery]
  -- the paths were cached
  · rename_i u hu _ paths _ u₁ hr
    subst hu
    intro h
    obtain ⟨h₁, hk, hread⟩ := hr h
    exact ⟨h₁, hk, (hread paths rfl).2, (hread paths rfl).1⟩
  -- they have been asked for
  · rename_i u hu _ _ u₁ hr paths u₂
    subst hu
    intro hr' h
    obtain ⟨h₁, hk₁, -⟩ := hr h
    obtain ⟨h₂, hk₂, hpaths, htrusted⟩ := hr' h₁
    exact ⟨h₂, hk₁.trans hk₂, htrusted, hpaths⟩
  · rename_i u hu _ _ u₁ hr _ u₂
    subst hu
    exact fun hr' => Looks.trans (fun h => ⟨(hr h).1, (hr h).2.1⟩) hr'

/-! ## Section 5: Checksums -/

/-- What is found at the paths of an app are its apks. -/
theorem CoherentAt.holds {k : Cache} {look : Look} {p : Text} {paths : List Text}
    (h : CoherentAt facts k look p) (hsane : look.Sane facts)
    (hpaths : k.packageApkPaths p = some paths) {path q d : Text} (hpath : path ∈ paths)
    (hq : Under path q) (hsum : look.sum q = some d) : look.Holds p d := by
  rcases h.paths hpaths with rfl | hgone
  · by_cases hne : q = path
    · exact ⟨path, hpath, hne ▸ hsum⟩
    · rw [((hsane.apk hpath).2 q hq).2 hne] at hsum
      cases hsum
  · rw [hgone.sum path hpath q hq] at hsum
    cases hsum

/-- The checksums of an app have been calculated. -/
theorem CoherentAt.counted {k : Cache} {look : Look} {p : Text} (h : CoherentAt facts k look p)
    {sums : Finset Text} (hsums : ∀ d ∈ sums, look.Holds p d) :
    CoherentAt facts (k.setChecksums p (some sums)) look p := by
  refine ⟨h.paths, fun hsome => Or.inl ?_⟩
  rw [Cache.setChecksums_self] at hsome
  exact Option.some.inj hsome ▸ hsums

theorem computeDeviceChecksumsForApks_meets (hc : c.Lawful facts view) (dumps : List Dump)
    (p : Text) :
    (computeDeviceChecksumsForApks c p).Meets
      (fun u sums u' => Sound facts view dumps u → Sound facts view dumps u' ∧
        SameApps view u u' ∧ (Trusted u.cache (view u.world) p →
          ∀ paths, u.cache.packageApkPaths p = some paths → paths ≠ [] →
            ∀ d ∈ sums, (view u.world).Holds p d))
      (fun u _ u' => Looks facts view dumps u u') := by
  apply Routine.Meets.of_spec
  intro u₀
  have hpaths := (getApplicationPathsInternal_meets hc dumps p).spec
  have hmd5 := fun paths => (world_meets (hc.deviceMd5Sums paths)).spec
  unfold computeDeviceChecksumsForApks editCache
  mvcgen [hpaths, hmd5]
  -- the checksums were cached
  · rename_i u hu sums hsums
    subst hu
    exact fun h => ⟨h, (Unchanged.refl view u).toSameApps,
      fun htrusted paths hpaths hne => htrusted paths hpaths hne sums hsums⟩
  -- they are those of the apks that were found
  · rename_i u hu _ paths u₁ hr found _ u₂ hr' _
    subst hu
    obtain ⟨hcache, huuids, hv, hfound⟩ := hr'
    intro h
    obtain ⟨h₁, hk₁, -, hpaths⟩ := hr h
    have hholds : ∀ d ∈ (found.map Prod.snd).toFinset, (view u₁.world).Holds p d := by
      intro d hd
      obtain ⟨⟨q, d'⟩, hmem, rfl⟩ := List.mem_map.mp (List.mem_toFinset.mp hd)
      obtain ⟨hsum, path, hpath, hq⟩ := (hfound q d').mp hmem
      exact (h₁.coherent p).holds (hc.sane _) hpaths hpath hq hsum
    have hothers : OthersCached p u₁.cache
        (u₂.cache.setChecksums p (some (found.map Prod.snd).toFinset)) :=
      hcache ▸ othersCached_setChecksums p _ _
    obtain ⟨hs, hk⟩ := h₁.editCache
      { u₂ with cache := u₂.cache.setChecksums p (some (found.map Prod.snd).toFinset) }
      (hc.sane _) (h₁.token_ne_none hpaths) huuids hv hothers
      (hcache ▸ (h₁.coherent p).counted hholds)
    refine ⟨hs, hk₁.trans hk, fun _ _ _ _ d hd => ?_⟩
    obtain ⟨path, hpath, hsum⟩ := hholds d hd
    exact ⟨path, hk₁.installed ▸ hpath, hk₁.sum ▸ hsum⟩
  · rename_i u hu _ paths u₁ hr _ u₂
    subst hu
    exact fun hcache huuids hv => Looks.trans (fun h => ⟨(hr h).1, (hr h).2.1⟩)
      (Observes.world hcache huuids hv).looks
  · rename_i u hu _ _ u₁
    subst hu
    exact id

/-- Which of these files are stale, and the checksums of all. -/
structure Compared (host : HostFiles) (held : Text → Prop) (files stale : List Text)
    (sums : Finset Text) : Prop where
  file : ∀ a ∈ stale, ∃ f ∈ files, ∃ d, host.sum a = some d ∧ host.sum f = some d
  held : ∀ f ∈ files, ∀ d, host.sum f = some d → (∃ a ∈ stale, host.sum a = some d) ∨
    (stale.length < files.length ∧ held d)
  sum : ∀ d ∈ sums, ∃ f ∈ files, host.sum f = some d

/-- The files with other checksums than those on the device are stale. -/
theorem compared {look : Look} (hsane : look.Sane facts) {held : Text → Prop} {files : List Text}
    {found : List (Text × Text)} {device : Finset Text}
    (hfiles : ∀ f ∈ files, look.host.sum f ≠ none) (hnodup : (found.map Prod.fst).Nodup)
    (hfound : ∀ q d, (q, d) ∈ found ↔ look.host.sum q = some d ∧
      ∃ f ∈ files, Under (look.host.realpath f) q)
    (hheld : ∀ d ∈ device, held d) :
    Compared look.host held files ((found.filter fun apk => apk.2 ∉ device).map Prod.fst)
      (found.map Prod.snd).toFinset := by
  have hfile : ∀ q d, (q, d) ∈ found → ∃ f ∈ files, q = look.host.realpath f ∧
      look.host.sum f = some d := by
    intro q d hmem
    obtain ⟨hsum, f, hf, hq⟩ := (hfound q d).mp hmem
    obtain ⟨d', hd'⟩ := Option.ne_none_iff_exists'.mp (hfiles f hf)
    obtain ⟨hreal, hbelow⟩ := hsane.file hd'
    have heq : q = look.host.realpath f := by
      by_contra hne
      rw [hbelow q hq hne] at hsum
      cases hsum
    subst heq
    exact ⟨f, hf, rfl, by rw [hd', ← hreal, hsum]⟩
  have hstale : ∀ q d, (q, d) ∈ found → d ∉ device →
      q ∈ (found.filter fun apk => apk.2 ∉ device).map Prod.fst := by
    intro q d hmem hd
    exact List.mem_map.mpr ⟨(q, d), List.mem_filter.mpr ⟨hmem, by simpa using hd⟩, rfl⟩
  refine ⟨?_, ?_, ?_⟩
  · intro a ha
    obtain ⟨⟨q, d⟩, hmem, rfl⟩ := List.mem_map.mp ha
    have hin := (List.mem_filter.mp hmem).1
    obtain ⟨f, hf, -, hsum⟩ := hfile q d hin
    exact ⟨f, hf, d, ((hfound q d).mp hin).1, hsum⟩
  · intro f hf d hd
    have hreal := (hsane.file hd).1
    have hmem : (look.host.realpath f, d) ∈ found :=
      (hfound _ d).mpr ⟨hreal, f, hf, Or.inl rfl⟩
    by_cases hdevice : d ∈ device
    · right
      refine ⟨?_, hheld d hdevice⟩
      -- this file is not stale, so there are fewer stale ones than files
      have hlt : (found.filter fun apk => apk.2 ∉ device).length < found.length := by
        apply List.length_filter_lt_length_iff_exists.mpr
        exact ⟨_, hmem, by simpa using hdevice⟩
      have hle : found.length ≤ files.length := by
        have hsub : found.map Prod.fst ⊆ files.map look.host.realpath := by
          intro q hq
          obtain ⟨⟨q, d⟩, hmem, rfl⟩ := List.mem_map.mp hq
          obtain ⟨f, hf, rfl, -⟩ := hfile q d hmem
          exact List.mem_map_of_mem hf
        have hlen := (hnodup.subperm hsub).length_le
        rwa [List.length_map, List.length_map] at hlen
      rw [List.length_map]
      omega
    · exact Or.inl ⟨_, hstale _ d hmem hdevice, hreal⟩
  · intro d hd
    obtain ⟨⟨q, d⟩, hmem, rfl⟩ := List.mem_map.mp (List.mem_toFinset.mp hd)
    obtain ⟨f, hf, -, hsum⟩ := hfile q d hmem
    exact ⟨f, hf, hsum⟩

theorem computeStaleApks_meets (hc : c.Lawful facts view) (dumps : List Dump) (p : Text)
    (files : List Text) :
    (computeStaleApks c p files).Meets
      (fun u r u' => Sound facts view dumps u → Sound facts view dumps u' ∧ SameApps view u u' ∧
        (Trusted u.cache (view u.world) p →
          (∃ paths, u.cache.packageApkPaths p = some paths ∧ paths ≠ []) →
          (∀ f ∈ files, (view u.world).host.sum f ≠ none) →
          Compared (view u.world).host ((view u.world).Holds p) files r.1 r.2))
      (fun u _ u' => Looks facts view dumps u u') := by
  apply Routine.Meets.of_spec
  intro u₀
  have hboth := (Routine.Meets.both (world_meets (hc.hostMd5Sums files))
    (computeDeviceChecksumsForApks_meets hc dumps p)).spec
  unfold computeStaleApks
  mvcgen [hboth]
  · rename_i u hu r u' hr
    subst hu
    obtain ⟨u₁, ⟨hcache, huuids, hv, hnodup, hfound⟩, hr⟩ := hr
    intro h
    obtain ⟨h₁, hk₁⟩ := Observes.world hcache huuids hv h
    obtain ⟨h', hk, hheld⟩ := hr h₁
    refine ⟨h', hk₁.toSameApps.trans hk, fun htrusted hpaths hfiles => ?_⟩
    obtain ⟨paths, hpaths, hne⟩ := hpaths
    rw [hcache, hv] at hheld
    exact compared (hc.sane _) hfiles hnodup hfound (hheld htrusted paths hpaths hne)
  -- one of the two raised
  · rename_i u hu _ u'
    subst hu
    rintro ⟨u₁, ⟨_, ⟨hcache, huuids, hv, -⟩, hr⟩ | ⟨⟨hcache, huuids, hv⟩, hr⟩⟩
    · exact (Observes.world hcache huuids hv).looks.trans hr
    · rcases hr with ⟨_, hr⟩ | ⟨_, hr⟩
      · exact (Observes.world hcache huuids hv).looks.trans fun h => ⟨(hr h).1, (hr h).2.1⟩
      · exact (Observes.world hcache huuids hv).looks.trans hr

end Udroid.Devil
