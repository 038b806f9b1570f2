import Udroid.Devil.RunShell
import Udroid.Unix.Routine

/-!
# Apps on a device

`DeviceUtils` installs apps and removes them.  What it learns of the device on the way it keeps in
a cache, and the cache goes from one script to the next, under a token that is on the device too.

- `Commands`: what it calls on the device and on the host.
- `getApplicationPathsInternal`, `installInternal`, `uninstall`: the methods, over the cache.
- `loadCacheData`, `dumpCacheData`: how a cache goes on to the next script.
-/

namespace Udroid.Devil

open Udroid.Unix

/-! ## Section 1: The cache -/

/-- What a method raises. -/
inductive DeviceError where
  /-- `CommandFailedError`, of a command. -/
  | commandFailed (output : Text)
  /-- `EnvironmentError`. -/
  | environment (message : Text)
  /-- The device is away, or has not answered in time. -/
  | other (message : Text)
  | invalidSdk (value : Text)
  | pmPath (output : List Text)
  | missingApks (apks : List Text)
  /-- `DeviceVersionError`. -/
  | sdkLevel (required actual : Int)
  | setProp (name value : Text)
deriving DecidableEq

def DeviceError.isEnvironment : DeviceError → Bool
  | .environment _ => true
  | _ => false

/-- Only `CommandFailedError` is expected of `test`. -/
def DeviceError.isCommandFailed : DeviceError → Bool
  | .environment _ => false
  | .other _ => false
  | _ => true

/-- `_cache`, but for `external_storage`. -/
structure Cache where
  packageApkPaths : Text → Option (List Text)
  packageApkPathsToVerify : Text → Bool
  packageApkChecksums : Text → Option (Finset Text)
  getprop : Text → Option Text
  /-- Behind a path: `ignore_other_files`, and the checksums of files. -/
  devicePathChecksums : Text → Option (Bool × List (Text × Text))
  token : Option Nat
  prevToken : Option Nat

/-- What `DumpCacheData` writes. -/
structure Dump where
  token : Option Nat
  packageApkPaths : Text → Option (List Text)
  packageApkChecksums : Text → Option (Finset Text)
  devicePathChecksums : Text → Option (Bool × List (Text × Text))

/-- The cache that `_ClearCache` leaves. -/
def Cache.empty : Cache := ⟨fun _ => none, fun _ => false, fun _ => none, fun _ => none,
  fun _ => none, none, none⟩

/-- The app is looked up anew next time. -/
def Cache.popApp (k : Cache) (package : Text) : Cache :=
  { k with
    packageApkPaths := Function.update k.packageApkPaths package none
    packageApkChecksums := Function.update k.packageApkChecksums package none }

def Cache.setPaths (k : Cache) (package : Text) (paths : List Text) : Cache :=
  { k with packageApkPaths := Function.update k.packageApkPaths package (some paths) }

def Cache.verified (k : Cache) (package : Text) : Cache :=
  { k with packageApkPathsToVerify := Function.update k.packageApkPathsToVerify package false }

def Cache.setChecksums (k : Cache) (package : Text) (sums : Option (Finset Text)) : Cache :=
  { k with packageApkChecksums := Function.update k.packageApkChecksums package sums }

def Cache.setProp (k : Cache) (name : Text) (value : Option Text) : Cache :=
  { k with getprop := Function.update k.getprop name value }

def Cache.load (k : Cache) (d : Dump) : Cache :=
  { k with
    packageApkPaths := d.packageApkPaths
    packageApkPathsToVerify := fun package => (d.packageApkPaths package).isSome
    packageApkChecksums := d.packageApkChecksums
    devicePathChecksums := d.devicePathChecksums }

/-- A `DeviceUtils`, the world it works on, and how many UUIDs there have been in that. -/
structure DeviceUtils (σ : Type) where
  cache : Cache
  uuids : Nat
  world : σ

/-- A method of `DeviceUtils`. -/
abbrev Method (σ α : Type) := Routine (DeviceUtils σ) DeviceError α

/-! ## Section 2: What the methods call -/

/-- Commands on the device and on the host. -/
structure Commands (σ : Type) where
  /-- The command of `_EnsureCacheInitialized`: the token that was there, and all properties. -/
  swapToken (token : Nat) : Routine σ DeviceError (Option Nat × List (Text × Text))
  getprop (name : Text) : Routine σ DeviceError Text
  setprop (name value : Text) : Routine σ DeviceError Unit
  pmPath (checkReturn : Bool) (package : Text) : Routine σ DeviceError (List Text)
  /-- `test -e` of all these paths. -/
  testExists (paths : List Text) : Routine σ DeviceError Unit
  /-- `md5sum.CalculateDeviceMd5Sums` -/
  deviceMd5Sums (paths : List Text) : Routine σ DeviceError (List (Text × Text))
  /-- `md5sum.CalculateHostMd5Sums` -/
  hostMd5Sums (paths : List Text) : Routine σ DeviceError (List (Text × Text))
  /-- `os.path.exists` -/
  hostExists (path : Text) (s : σ) : Bool
  /-- `ApkHelper.GetPackageName` -/
  getPackageName (apk : Text) : Routine σ DeviceError Text
  /-- `ApkHelper.GetPermissions` -/
  getPermissions (apk : Text) : Routine σ DeviceError (List Text)
  /-- `split_select.SelectSplits` -/
  selectSplits (baseApk : Text) (splitApks : List Text) : Routine σ DeviceError (List Text)
  install (apk : Text) (reinstall allowDowngrade : Bool) : Routine σ DeviceError Unit
  installMultiple (apks : List Text) (partialTo : Option Text) (reinstall allowDowngrade : Bool) :
    Routine σ DeviceError Unit
  uninstall (package : Text) (keepData : Bool) : Routine σ DeviceError Unit
  pmGrant (package : Text) (permissions : List Text) : Routine σ DeviceError Unit
  forceStop (package : Text) : Routine σ DeviceError Unit
  reboot : Routine σ DeviceError Unit
  waitUntilFullyBooted : Routine σ DeviceError Unit

variable {σ α : Type}

def onWorld (m : Routine σ DeviceError α) : Method σ α :=
  m.within DeviceUtils.world fun s u => { u with world := s }

def editCache (f : Cache → Cache) : Method σ Unit :=
  modify fun u => { u with cache := f u.cache }

/-- `uuid.uuid1()` -/
def uuid1 : Method σ Nat := modifyGet fun u => (u.uuids, { u with uuids := u.uuids + 1 })

/-! ## Section 3: Properties -/

/-- `_EnsureCacheInitialized` -/
def ensureCacheInitialized (c : Commands σ) : Method σ Unit := do
  if (← get).cache.token = none then
    let token ← uuid1
    let (prevToken, props) ← onWorld (c.swapToken token)
    editCache fun k =>
      { k with
        prevToken := prevToken
        getprop := props.foldl (fun known prop => Function.update known prop.1 (some prop.2))
          fun _ => none
        token := some token }

/-- `GetProp` -/
def getProp (c : Commands σ) (name : Text) (cache : Bool) : Method σ Text := do
  if cache then
    ensureCacheInitialized c
  else
    let value ← onWorld (c.getprop name)
    editCache fun k => k.setProp name (some value)
  -- a property that there is not is an empty text
  return ((← get).cache.getprop name).getD []

/-- `SetProp` -/
def setProp (c : Commands σ) (name value : Text) (check : Bool) : Method σ Unit := do
  onWorld (c.setprop name value)
  editCache fun k => k.setProp name none
  if check then
    if value ≠ (← getProp c name false) then
      throw (.setProp name value)

/-- `build_version_sdk` -/
def buildVersionSdk (c : Commands σ) : Method σ Int := do
  let value ← getProp c "ro.build.version.sdk".toList true
  match parseInt value with
  | some sdk => return sdk
  | none => throw (.invalidSdk value)

def lollipop : Int := 21
def marshmallow : Int := 23

/-- `_CheckSdkLevel` -/
def checkSdkLevel (c : Commands σ) (required : Int) : Method σ Unit := do
  let sdk ← buildVersionSdk c
  if sdk < required then
    throw (.sdkLevel required sdk)

/-! ## Section 4: Apps -/

/-- `PathExists` -/
def pathExists (c : Commands σ) (paths : List Text) : Method σ Bool := do
  if paths = [] then
    return true
  else
    try
      onWorld (c.testExists paths)
      pure true
    catch e =>
      if e.isCommandFailed then pure false else throw e

def packagePrefix : Text := "package:".toList

/-- The apks that `pm path` names. -/
def apkLines (output : List Text) : List Text :=
  (output.filter packagePrefix.isPrefixOf).map fun line => line.drop packagePrefix.length

/-- The first half of `_GetApplicationPathsInternal`. -/
def cachedApplicationPaths (c : Commands σ) (package : Text) : Method σ (Option (List Text)) := do
  match (← get).cache.packageApkPaths package with
  | none => return none
  | some paths =>
      if (← get).cache.packageApkPathsToVerify package then
        editCache fun k => k.verified package
        -- an app that is not thought to be installed is not verified
        if paths ≠ [] then
          if !(← pathExists c paths) then
            editCache fun k => k.setChecksums package none
            return none
      return some paths

/-- The second half. -/
def queryApplicationPaths (c : Commands σ) (package : Text) : Method σ (List Text) := do
  let sdk ← buildVersionSdk c
  let output ← onWorld (c.pmPath (sdk < lollipop) package)
  let apks := apkLines output
  if apks = [] ∧ output ≠ [] then
    throw (.pmPath output)
  editCache fun k => k.setPaths package apks
  return apks

/-- `_GetApplicationPathsInternal`, without `skip_cache`. -/
def getApplicationPathsInternal (c : Commands σ) (package : Text) : Method σ (List Text) := do
  match ← cachedApplicationPaths c package with
  | some paths => return paths
  | none => queryApplicationPaths c package

/-- `_ComputeDeviceChecksumsForApks` -/
def computeDeviceChecksumsForApks (c : Commands σ) (package : Text) :
    Method σ (Finset Text) := do
  match (← get).cache.packageApkChecksums package with
  | some sums => return sums
  | none =>
      let paths ← getApplicationPathsInternal c package
      let found ← onWorld (c.deviceMd5Sums paths)
      let sums := (found.map Prod.snd).toFinset
      editCache fun k => k.setChecksums package (some sums)
      return sums

/-- `_ComputeStaleApks` -/
def computeStaleApks (c : Commands σ) (package : Text) (hostApkPaths : List Text) :
    Method σ (List Text × Finset Text) := do
  let (host, device) ← Routine.both (onWorld (c.hostMd5Sums hostApkPaths))
    (computeDeviceChecksumsForApks c package)
  let stale := (host.filter fun apk => apk.2 ∉ device).map Prod.fst
  return (stale, (host.map Prod.snd).toFinset)

/-- `Uninstall` -/
def uninstall (c : Commands σ) (package : Text) (keepData : Bool) : Method σ Unit := do
  let installed ← getApplicationPathsInternal c package
  if installed ≠ [] then
    try
      onWorld (c.uninstall package keepData)
      editCache fun k => (k.setPaths package []).setChecksums package (some ∅)
    catch e =>
      -- what is there now is not known
      editCache fun k => k.popApp package
      throw e

/-- The packages of `PACKAGE_INFO`. -/
def chromePackages : List String :=
  ["com.google.android.apps.chrome.document", "com.google.android.apps.chrome", "com.chrome.beta",
   "com.android.chrome", "com.chrome.dev", "com.chrome.canary", "com.chrome.work",
   "org.chromium.chrome", "org.chromium.content_shell_apk"]

/-- Not all permissions can be set. -/
def permissionsBlacklist : List Text :=
  (["android.permission.ACCESS_LOCATION_EXTRA_COMMANDS", "android.permission.ACCESS_MOCK_LOCATION",
    "android.permission.ACCESS_NETWORK_STATE", "android.permission.ACCESS_NOTIFICATION_POLICY",
    "android.permission.ACCESS_WIFI_STATE", "android.permission.AUTHENTICATE_ACCOUNTS",
    "android.permission.BLUETOOTH", "android.permission.BLUETOOTH_ADMIN",
    "android.permission.BROADCAST_STICKY", "android.permission.CHANGE_NETWORK_STATE",
    "android.permission.CHANGE_WIFI_MULTICAST_STATE", "android.permission.CHANGE_WIFI_STATE",
    "android.permission.DISABLE_KEYGUARD", "android.permission.DOWNLOAD_WITHOUT_NOTIFICATION",
    "android.permission.EXPAND_STATUS_BAR", "android.permission.GET_PACKAGE_SIZE",
    "android.permission.INSTALL_SHORTCUT", "android.permission.INTERNET",
    "android.permission.KILL_BACKGROUND_PROCESSES", "android.permission.MANAGE_ACCOUNTS",
    "android.permission.MODIFY_AUDIO_SETTINGS", "android.permission.NFC",
    "android.permission.READ_SYNC_SETTINGS", "android.permission.READ_SYNC_STATS",
    "android.permission.RECEIVE_BOOT_COMPLETED", "android.permission.RECORD_VIDEO",
    "android.permission.REORDER_TASKS", "android.permission.REQUEST_INSTALL_PACKAGES",
    "android.permission.RUN_INSTRUMENTATION", "android.permission.SET_ALARM",
    "android.permission.SET_TIME_ZONE", "android.permission.SET_WALLPAPER",
    "android.permission.SET_WALLPAPER_HINTS", "android.permission.TRANSMIT_IR",
    "android.permission.USE_CREDENTIALS", "android.permission.USE_FINGERPRINT",
    "android.permission.VIBRATE", "android.permission.WAKE_LOCK",
    "android.permission.WRITE_SYNC_SETTINGS",
    "com.android.browser.permission.READ_HISTORY_BOOKMARKS",
    "com.android.browser.permission.WRITE_HISTORY_BOOKMARKS",
    "com.android.launcher.permission.INSTALL_SHORTCUT", "com.chrome.permission.DEVICE_EXTRAS",
    "com.google.android.apps.now.CURRENT_ACCOUNT_ACCESS",
    "com.google.android.c2dm.permission.RECEIVE",
    "com.google.android.providers.gsf.permission.READ_GSERVICES",
    "com.sec.enterprise.knox.MDM_CONTENT_PROVIDER"] ++
    chromePackages.flatMap fun package => [package ++ ".permission.C2D_MESSAGE",
      package ++ ".permission.READ_WRITE_BOOKMARK_FOLDERS", package ++ ".TOS_ACKED"]).map
    String.toList

/-- `GrantPermissions` -/
def grantPermissions (c : Commands σ) (package : Text) (permissions : List Text) :
    Method σ Unit := do
  if permissions ≠ [] then
    if marshmallow ≤ (← buildVersionSdk c) then
      let wanted := permissions.filter fun p => !permissionsBlacklist.contains p
      let writeStorage := "android.permission.WRITE_EXTERNAL_STORAGE".toList
      let readStorage := "android.permission.READ_EXTERNAL_STORAGE".toList
      let wanted :=
        if wanted.contains writeStorage && !wanted.contains readStorage then wanted ++ [readStorage]
        else wanted
      if wanted ≠ [] then
        onWorld (c.pmGrant package wanted)

/-- The middle of `_InstallInternal`: the apks to install, and the checksums of all on the host if
they were calculated. -/
def apksToInstall (c : Commands σ) (package : Text) (allApks : List Text)
    (hasSplits reinstall : Bool) (deviceApkPaths : List Text) :
    Method σ (List Text × Option (Finset Text)) := do
  if deviceApkPaths = [] then
    return (allApks, none)
  else if 1 < deviceApkPaths.length ∧ hasSplits = false then
    return (allApks, none)
  else if deviceApkPaths.length = 1 ∧ hasSplits = true then
    return (allApks, none)
  else
    let (apks, sums) ←
      try
        let (stale, sums) ← computeStaleApks c package allApks
        pure (stale, some sums)
      catch e =>
        if e.isEnvironment then pure (allApks, none) else throw e
    if apks ≠ [] ∧ reinstall = false then
      uninstall c package false
      return (allApks, sums)
    else
      return (apks, sums)

/-- What `_InstallInternal` installs. -/
def pushApks (c : Commands σ) (package baseApk : Text) (allApks apks : List Text)
    (hasSplits allowDowngrade reinstall : Bool) : Method σ Unit := do
  -- what will be there is not known
  editCache fun k => k.popApp package
  if hasSplits then
    onWorld (c.installMultiple apks (if apks.length < allApks.length then some package else none)
      reinstall allowDowngrade)
  else
    onWorld (c.install baseApk reinstall allowDowngrade)

/-- What it grants: the permissions that are given, or else those that the apk asks for. -/
def grantAsked (c : Commands σ) (package baseApk : Text) (permissions : Option (List Text)) :
    Method σ Unit := do
  match permissions with
  | some permissions => grantPermissions c package permissions
  | none =>
      if marshmallow ≤ (← buildVersionSdk c) then
        let permissions ← onWorld (c.getPermissions baseApk)
        grantPermissions c package permissions

/-- The end of `_InstallInternal`, when there are apks to install. -/
def putApks (c : Commands σ) (package baseApk : Text) (allApks apks : List Text)
    (sums : Option (Finset Text)) (hasSplits allowDowngrade reinstall : Bool)
    (permissions : Option (List Text)) : Method σ Unit := do
  pushApks c package baseApk allApks apks hasSplits allowDowngrade reinstall
  grantAsked c package baseApk permissions
  -- the checksums are known now, but not the paths
  if let some sums := sums then
    editCache fun k => k.setChecksums package (some sums)

/-- The beginning of `_InstallInternal`: the apks that are to be on the device then. -/
def selectApks (c : Commands σ) (baseApk : Text) (splitApks : List Text) :
    Method σ (List Text) := do
  if splitApks ≠ [] then
    checkSdkLevel c lollipop
    let selected ← onWorld (c.selectSplits baseApk splitApks)
    return baseApk :: selected
  else
    return [baseApk]

/-- The rest, when no apk is missing. -/
def installApks (c : Commands σ) (package baseApk : Text) (allApks : List Text)
    (hasSplits allowDowngrade reinstall : Bool) (permissions : Option (List Text)) :
    Method σ Unit := do
  let deviceApkPaths ← getApplicationPathsInternal c package
  let (apks, sums) ← apksToInstall c package allApks hasSplits reinstall deviceApkPaths
  if apks ≠ [] then
    putApks c package baseApk allApks apks sums hasSplits allowDowngrade reinstall permissions
  else
    -- an installation would end the app as well
    onWorld (c.forceStop package)

/-- `_InstallInternal` -/
def installInternal (c : Commands σ) (baseApk : Text) (splitApks : List Text)
    (allowDowngrade reinstall : Bool) (permissions : Option (List Text)) : Method σ Unit := do
  let allApks ← selectApks c baseApk splitApks
  let world := (← get).world
  let missing := allApks.filter fun apk => !c.hostExists apk world
  if missing ≠ [] then
    throw (.missingApks missing)
  let package ← onWorld (c.getPackageName baseApk)
  installApks c package baseApk allApks (decide (splitApks ≠ [])) allowDowngrade reinstall
    permissions

/-- `Reboot`; what it waits for changes nothing. -/
def reboot (c : Commands σ) : Method σ Unit := do
  onWorld c.reboot
  editCache fun _ => Cache.empty
  onWorld c.waitUntilFullyBooted

/-! ## Section 5: From one script to the next -/

/-- `LoadCacheData` -/
def loadCacheData (c : Commands σ) (d : Dump) : Method σ Bool := do
  ensureCacheInitialized c
  if d.token = none ∨ (← get).cache.prevToken ≠ d.token then
    return false
  editCache fun k => k.load d
  return true

/-- `DumpCacheData` -/
def dumpCacheData (c : Commands σ) : Method σ Dump := do
  ensureCacheInitialized c
  let k := (← get).cache
  return ⟨k.token, k.packageApkPaths, k.packageApkChecksums, k.devicePathChecksums⟩

end Udroid.Devil
