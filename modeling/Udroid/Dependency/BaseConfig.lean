import Udroid.Dependency.Uploader

/-!
# A config of dependencies and its update jobs

`BaseConfig` names the files in cloud storage that the dependencies are at.  A job changes the
config in memory and leaves an upload pending; `ExecuteUpdateJobs` uploads what is pending and
writes the config, or takes all of it back.

- `addCloudStorageDependencyUpdateJob`, `executeUpdateJobs`: the two methods.
- `Refers`: the files in cloud storage that a config names.
- `refers_modifyPlatform`: what it names after a change.
-/

namespace Udroid.Dependency

open Udroid.Unix

/-! ## Section 1: The data -/

/-- The values of a key, changed. -/
def modify {β : Type} (key : Text) (f : β → β) (dict : List (Text × β)) : List (Text × β) :=
  dict.map fun kv => if kv.1 = key then (kv.1, f kv.2) else kv

structure PlatformInfo where
  cloudStorageHash : Option Text
  versionInCs : Option Text
  /-- The fields that the jobs do not use. -/
  others : List (Text × Text)
deriving DecidableEq

structure DependencyDict where
  cloudStorageBucket : Option Text
  cloudStorageBaseFolder : Option Text
  fileInfo : Option (List (Text × PlatformInfo))
deriving DecidableEq

/-- The `dependencies` of a config. -/
abbrev ConfigData := List (Text × DependencyDict)

def PlatformInfo.empty : PlatformInfo := ⟨none, none, []⟩

def DependencyDict.empty : DependencyDict := ⟨none, none, none⟩

/-- The dependency, if it has any data. -/
def ConfigData.dependency (data : ConfigData) (dependency : Text) : Option DependencyDict :=
  (data.lookup dependency).filter (· ≠ .empty)

/-- The data of a platform, if it has any. -/
def ConfigData.platform (data : ConfigData) (dependency platform : Text) : Option PlatformInfo :=
  (((data.lookup dependency).bind DependencyDict.fileInfo).bind (·.lookup platform)).filter
    (· ≠ .empty)

inductive DataType where
  | cloudStorageBucket
  | cloudStorageBaseFolder
  | versionInCs
  | cloudStorageHash

def modifyPlatform (data : ConfigData) (dependency platform : Text)
    (f : PlatformInfo → PlatformInfo) : ConfigData :=
  modify dependency (fun d => { d with fileInfo := d.fileInfo.map (modify platform f) }) data

/-- `_SetPlatformData` -/
def setPlatformData (data : ConfigData) (dependency platform : Text) (type : DataType)
    (value : Text) : Except Failure ConfigData :=
  if data.platform dependency platform = none then .error (.noPlatform dependency platform)
  else
    match type with
    | .cloudStorageBucket =>
        .ok (modify dependency (fun d => { d with cloudStorageBucket := some value }) data)
    | .cloudStorageBaseFolder =>
        .ok (modify dependency (fun d => { d with cloudStorageBaseFolder := some value }) data)
    | .versionInCs =>
        .ok (modifyPlatform data dependency platform fun i => { i with versionInCs := some value })
    | .cloudStorageHash =>
        .ok (modifyPlatform data dependency platform
          fun i => { i with cloudStorageHash := some value })

/-- `_GetPlatformData` with a type of data. -/
def getPlatformData (data : ConfigData) (dependency platform : Text) (type : DataType) :
    Except Failure (Option Text) :=
  match data.dependency dependency with
  | none => .error (.noDependency dependency)
  | some d =>
      match data.platform dependency platform with
      | none => .error (.noPlatform dependency platform)
      | some i =>
          match type with
          | .cloudStorageBucket => .ok d.cloudStorageBucket
          | .cloudStorageBaseFolder => .ok d.cloudStorageBaseFolder
          | .versionInCs => .ok i.versionInCs
          | .cloudStorageHash => .ok i.cloudStorageHash

/-- `_CloudStorageRemotePath` -/
def cloudStorageRemotePath (dependency csHash : Text) (baseFolder : Option Text) : Text :=
  let file := dependency ++ '_' :: csHash
  match baseFolder with
  | some (c :: folder) => c :: folder ++ '/' :: file
  | _ => file

/-! ## Section 2: The config -/

structure BaseConfig where
  writable : Bool
  configData : ConfigData
  pendingUploads : List CloudStorageUploader
deriving DecidableEq

/-- What a method leaves, and what it returns or raises. -/
structure Returned (α : Type) where
  config : BaseConfig
  host : Host ConfigData
  value : Except Failure α

/-- `BaseConfig.__init__` on a config file that is there. -/
def BaseConfig.init (h : Host ConfigData) (writable : Bool) : Except Failure BaseConfig :=
  match h.disk with
  | none => .error .unreadableConfig
  | some data => .ok ⟨writable, data, []⟩

/-- `_IsDirty` -/
def BaseConfig.isDirty (b : BaseConfig) (h : Host ConfigData) : Except Failure Bool :=
  match h.disk with
  | none => .error .unreadableConfig
  | some data => .ok (b.configData ≠ data)

/-- `_ValidateIsConfigUpdatable` -/
def BaseConfig.validateIsConfigUpdatable (b : BaseConfig) (h : Host ConfigData) (executeJob : Bool)
    (dependency platform : Text) : Except Failure Unit :=
  if !b.writable then .error .readOnlyConfig
  else
    match b.isDirty h with
    | .error e => .error e
    | .ok dirty =>
        if dirty && executeJob then .error .changedConfig
        else if dependency ≠ [] ∧ b.configData.dependency dependency = none then
          .error (.noDependency dependency)
        else if platform = [] then .ok ()
        else if b.configData.dependency dependency = none then .error (.noDependency dependency)
        else if b.configData.platform dependency platform = none then
          .error (.noPlatform dependency platform)
        else .ok ()

/-- `_WriteConfigToFile`; a file that is cut off cannot be read. -/
def writeConfigToFile (data : ConfigData) (h : Host ConfigData) :
    Host ConfigData × Option Failure :=
  match h.nextLuck with
  | .works => ({ h.next with disk := some data }, none)
  | .fails => (h.next, some .writeFailed)
  | .breaks => ({ h.next with disk := none }, some .writeFailed)

/-- The `try` block of `ExecuteUpdateJobs`. -/
def BaseConfig.runUploads (force : Bool) (b : BaseConfig) (h : Host ConfigData) : Returned Bool :=
  let done := (uploads force).transact (writeConfigToFile b.configData) b.pendingUploads h
  match done.error with
  | some e => ⟨{ b with pendingUploads := done.item }, done.state, .error e⟩
  | none => ⟨{ b with pendingUploads := [] }, done.state, .ok true⟩

/-- `ExecuteUpdateJobs` -/
def BaseConfig.executeUpdateJobs (force : Bool) (b : BaseConfig) (h : Host ConfigData) :
    Returned Bool :=
  match b.validateIsConfigUpdatable h false [] [] with
  | .error e => ⟨b, h, .error e⟩
  | .ok () =>
      match b.isDirty h with
      | .error e => ⟨b, h, .error e⟩
      | .ok false => ⟨b, h, .ok false⟩
      | .ok true =>
          if b.pendingUploads = [] then ⟨b, h, .ok true⟩ else b.runUploads force h

/-- What a job asks for. -/
structure Job where
  dependency : Text
  platform : Text
  dependencyPath : Text
  version : Option Text
  executeJob : Bool

/-- The data with the version, if there is one. -/
def Job.setVersion (j : Job) (data : ConfigData) : Except Failure ConfigData :=
  match j.version with
  | some (c :: version) =>
      setPlatformData data j.dependency j.platform .versionInCs (c :: version)
  | _ => .ok data

/-- The upload of the job. -/
def Job.uploader (j : Job) (data : ConfigData) (csHash : Text) (h : Host ConfigData) :
    Except Failure CloudStorageUploader :=
  match getPlatformData data j.dependency j.platform .cloudStorageBaseFolder,
    getPlatformData data j.dependency j.platform .cloudStorageBucket with
  | .ok baseFolder, .ok bucket =>
      CloudStorageUploader.init h bucket
        (cloudStorageRemotePath j.dependency csHash baseFolder) j.dependencyPath none
  | .error e, _ => .error e
  | _, .error e => .error e

/-- `AddCloudStorageDependencyUpdateJob`; what was set in memory stays when it raises later. -/
def BaseConfig.addCloudStorageDependencyUpdateJob (sha1 : Text → Text) (b : BaseConfig)
    (h : Host ConfigData) (j : Job) : Returned Unit :=
  match b.validateIsConfigUpdatable h j.executeJob j.dependency j.platform with
  | .error e => ⟨b, h, .error e⟩
  | .ok () =>
      match h.readLocal j.dependencyPath with
      | none => ⟨b, h, .error (.noLocalFile j.dependencyPath)⟩
      | some content =>
          match j.setVersion b.configData with
          | .error e => ⟨b, h, .error e⟩
          | .ok versioned =>
              match setPlatformData versioned j.dependency j.platform .cloudStorageHash
                (sha1 content) with
              | .error e => ⟨{ b with configData := versioned }, h, .error e⟩
              | .ok data =>
                  match j.uploader data (sha1 content) h with
                  | .error e => ⟨{ b with configData := data }, h, .error e⟩
                  | .ok u =>
                      let b := { b with
                        configData := data
                        pendingUploads := b.pendingUploads ++ [u] }
                      if j.executeJob then
                        let r := b.executeUpdateJobs false h
                        ⟨r.config, r.host, r.value.map fun _ => ()⟩
                      else ⟨b, h, .ok ()⟩

/-- Executing the jobs does nothing, or runs the uploads. -/
theorem execute_cases (force : Bool) (b : BaseConfig) (h : Host ConfigData) :
    (∃ value, b.executeUpdateJobs force h = ⟨b, h, value⟩) ∨
      (∃ data, h.disk = some data) ∧ b.executeUpdateJobs force h = b.runUploads force h := by
  rw [BaseConfig.executeUpdateJobs]
  cases b.validateIsConfigUpdatable h false [] [] with
  | error e => exact Or.inl ⟨_, rfl⟩
  | ok =>
    cases hdirty : b.isDirty h with
    | error e => exact Or.inl ⟨_, rfl⟩
    | ok dirty =>
      cases dirty with
      | false => exact Or.inl ⟨_, rfl⟩
      | true =>
        by_cases hnil : b.pendingUploads = []
        · exact Or.inl ⟨_, if_pos hnil⟩
        · refine Or.inr ⟨?_, if_neg hnil⟩
          rw [BaseConfig.isDirty] at hdirty
          cases hdisk : h.disk with
          | none => simp [hdisk] at hdirty
          | some data => exact ⟨data, rfl⟩

theorem writeConfigToFile_cases (data : ConfigData) (h : Host ConfigData) :
    writeConfigToFile data h = ({ h.next with disk := some data }, none) ∨
      writeConfigToFile data h = (h.next, some .writeFailed) ∨
        .breaks ∈ h.luck ∧
          writeConfigToFile data h = ({ h.next with disk := none }, some .writeFailed) := by
  rw [writeConfigToFile]
  cases hluck : h.nextLuck with
  | works => exact Or.inl rfl
  | fails => exact Or.inr (Or.inl rfl)
  | breaks => exact Or.inr (Or.inr ⟨Host.breaks_mem hluck, rfl⟩)

/-- The uploads are done and the config is written, or the uploads are taken back; then the config
file is as it was, or cannot be read any more. -/
theorem runUploads_cases (force : Bool) (b : BaseConfig) (h : Host ConfigData) :
    (∃ done, done = (uploads force).actAll b.pendingUploads h ∧ done.error = none ∧
        b.runUploads force h = ⟨{ b with pendingUploads := [] },
          { done.state.next with disk := some b.configData }, .ok true⟩) ∨
      ∃ done t e, done = (uploads force).actAll b.pendingUploads h ∧
        b.runUploads force h =
          ⟨{ b with pendingUploads := ((uploads force).abort done.item t e).item },
            ((uploads force).abort done.item t e).state,
            .error (((uploads force).undoAll done.item t).error.getD e)⟩ ∧
          t.cloud = done.state.cloud ∧
            (t.disk = done.state.disk ∨ t.disk = none ∧ .breaks ∈ done.state.luck) := by
  rw [BaseConfig.runUploads]
  generalize hdone : (uploads force).actAll b.pendingUploads h = done
  have hcases := (uploads force).transact_cases (writeConfigToFile b.configData) b.pendingUploads h
  rw [hdone] at hcases
  rcases writeConfigToFile_cases b.configData done.state with hwrite | hwrite | ⟨hbroke, hwrite⟩
  · rw [hwrite] at hcases
    rcases hcases with ⟨hok, -, heq⟩ | ⟨t, e, heq, rfl | ⟨rfl, hwritten⟩⟩
    · exact Or.inl ⟨done, rfl, hok, by rw [heq]⟩
    · exact Or.inr ⟨done, done.state, e, rfl, by rw [heq]; rfl, rfl, Or.inl rfl⟩
    · cases hwritten
  · rw [hwrite] at hcases
    rcases hcases with ⟨-, hwritten, -⟩ | ⟨t, e, heq, rfl | ⟨rfl, -⟩⟩
    · cases hwritten
    · exact Or.inr ⟨done, done.state, e, rfl, by rw [heq]; rfl, rfl, Or.inl rfl⟩
    · exact Or.inr ⟨done, done.state.next, e, rfl, by rw [heq]; rfl, rfl, Or.inl rfl⟩
  · rw [hwrite] at hcases
    rcases hcases with ⟨-, hwritten, -⟩ | ⟨t, e, heq, rfl | ⟨rfl, -⟩⟩
    · cases hwritten
    · exact Or.inr ⟨done, done.state, e, rfl, by rw [heq]; rfl, rfl, Or.inl rfl⟩
    · exact Or.inr ⟨done, { done.state.next with disk := none }, e, rfl, by rw [heq]; rfl, rfl,
        Or.inr ⟨rfl, hbroke⟩⟩

/-! ## Section 3: The files that a config names -/

/-- The config names this file in cloud storage. -/
def Refers (data : ConfigData) (place : Text) : Prop :=
  ∃ dependency d platform i bucket csHash,
    data.lookup dependency = some d ∧ (d.fileInfo.getD []).lookup platform = some i ∧
      d.cloudStorageBucket = some bucket ∧ bucket ≠ [] ∧ i.cloudStorageHash = some csHash ∧
        place = url bucket (cloudStorageRemotePath dependency csHash d.cloudStorageBaseFolder)

theorem lookup_modify {β : Type} (key : Text) (f : β → β) (dict : List (Text × β)) (key' : Text) :
    (modify key f dict).lookup key' =
      (dict.lookup key').map fun v => if key' = key then f v else v := by
  induction dict with
  | nil => rfl
  | cons kv dict ih =>
    obtain ⟨k, v⟩ := kv
    have hhead : modify key f ((k, v) :: dict) =
        (k, if k = key then f v else v) :: modify key f dict := by
      rw [modify, List.map_cons, modify]
      congr 1
      split <;> rfl
    rw [hhead, List.lookup_cons, List.lookup_cons]
    by_cases hk : key' = k
    · subst hk
      simp
    · have hbeq : (key' == k) = false := beq_eq_false_iff_ne.mpr hk
      rw [hbeq]
      exact ih

/-- After a platform is changed, the config names what it named and what the platform names now. -/
theorem refers_modifyPlatform {data : ConfigData} {dependency platform : Text}
    {f : PlatformInfo → PlatformInfo} {place : Text}
    (h : Refers (modifyPlatform data dependency platform f) place) :
    Refers data place ∨
      ∃ d i bucket csHash, data.lookup dependency = some d ∧
        (d.fileInfo.getD []).lookup platform = some i ∧
          d.cloudStorageBucket = some bucket ∧ bucket ≠ [] ∧
            (f i).cloudStorageHash = some csHash ∧
              place = url bucket (cloudStorageRemotePath dependency csHash
                d.cloudStorageBaseFolder) := by
  obtain ⟨dep, d', plat, i', bucket, csHash, hd', hi', hbucket, hne, hhash, hplace⟩ := h
  rw [modifyPlatform, lookup_modify] at hd'
  obtain ⟨d, hd, rfl⟩ := Option.map_eq_some_iff.mp hd'
  by_cases hdep : dep = dependency
  · subst hdep
    simp only [if_true] at hi' hbucket hplace
    have hinfo : (Option.map (modify platform f) d.fileInfo).getD [] =
        modify platform f (d.fileInfo.getD []) := by
      cases d.fileInfo <;> rfl
    rw [hinfo, lookup_modify] at hi'
    obtain ⟨i, hi, rfl⟩ := Option.map_eq_some_iff.mp hi'
    by_cases hplat : plat = platform
    · subst hplat
      rw [if_pos rfl] at hhash
      exact Or.inr ⟨d, i, bucket, csHash, hd, hi, hbucket, hne, hhash, hplace⟩
    · rw [if_neg hplat] at hhash
      exact Or.inl ⟨dep, d, plat, i, bucket, csHash, hd, hi, hbucket, hne, hhash, hplace⟩
  · rw [if_neg hdep] at hi' hbucket hplace
    exact Or.inl ⟨dep, d, plat, i', bucket, csHash, hd, hi', hbucket, hne, hhash, hplace⟩

/-- An upload that was not tried yet. -/
def newUploader (bucket remotePath localPath : Text) : CloudStorageUploader :=
  ⟨bucket, remotePath, localPath, some (remotePath ++ '.' :: backupPathExtension), false, false⟩

theorem cloudStorageRemotePath_ne_nil (dependency csHash : Text) (baseFolder : Option Text) :
    cloudStorageRemotePath dependency csHash baseFolder ≠ [] := by
  unfold cloudStorageRemotePath
  split <;> simp

/-- The upload of a job whose dependency has a bucket. -/
theorem uploader_modifyPlatform (j : Job) {data : ConfigData} {csHash content : Text}
    {h : Host ConfigData} {d : DependencyDict} {i : PlatformInfo} {bucket : Text}
    (hd : data.lookup j.dependency = some d)
    (hi : (d.fileInfo.getD []).lookup j.platform = some i)
    (hbucket : d.cloudStorageBucket = some bucket) (hne : bucket ≠ [])
    (hlocal : h.readLocal j.dependencyPath = some content) :
    j.uploader (modifyPlatform data j.dependency j.platform
        fun i => { i with cloudStorageHash := some csHash }) csHash h =
      .ok (newUploader bucket (cloudStorageRemotePath j.dependency csHash d.cloudStorageBaseFolder)
        j.dependencyPath) := by
  obtain ⟨platforms, hinfo⟩ : ∃ platforms, d.fileInfo = some platforms := by
    cases hinfo : d.fileInfo with
    | none => simp [hinfo] at hi
    | some platforms => exact ⟨platforms, rfl⟩
  rw [hinfo, Option.getD_some] at hi
  set data' := modifyPlatform data j.dependency j.platform
    fun i => { i with cloudStorageHash := some csHash }
  have hlookup : data'.lookup j.dependency = some { d with
      fileInfo := some (modify j.platform (fun i => { i with cloudStorageHash := some csHash })
        platforms) } := by
    simp only [data', modifyPlatform, lookup_modify, hd, Option.map_some, if_true, hinfo]
  have hplatform : data'.platform j.dependency j.platform =
      some { i with cloudStorageHash := some csHash } := by
    simp only [ConfigData.platform, hlookup, Option.bind_some, lookup_modify, hi, Option.map_some,
      if_true]
    exact Option.filter_some_pos (by simp [PlatformInfo.empty])
  have hdependency : data'.dependency j.dependency = some { d with
      fileInfo := some (modify j.platform (fun i => { i with cloudStorageHash := some csHash })
        platforms) } := by
    rw [ConfigData.dependency, hlookup]
    exact Option.filter_some_pos (by simp [DependencyDict.empty])
  have hpath : j.dependencyPath ≠ [] := by
    intro hnil
    rw [Host.readLocal, if_pos hnil] at hlocal
    cases hlocal
  have hinit : ¬ ((some bucket).getD [] = [] ∨
      cloudStorageRemotePath j.dependency csHash d.cloudStorageBaseFolder = [] ∨
        j.dependencyPath = []) := by
    simp [hne, hpath, cloudStorageRemotePath_ne_nil]
  simp only [Job.uploader, getPlatformData, hdependency, hplatform, hbucket]
  unfold CloudStorageUploader.init
  have hfound : ¬ h.readLocal j.dependencyPath = none := by simp [hlocal]
  simp only [if_neg hinit, if_neg hfound]
  rfl

/-- A version names no files. -/
theorem refers_setVersion {j : Job} {data versioned : ConfigData}
    (h : j.setVersion data = .ok versioned) {place : Text} (hrefers : Refers versioned place) :
    Refers data place := by
  unfold Job.setVersion at h
  split at h
  · unfold setPlatformData at h
    split at h
    · cases h
    · cases h
      rcases refers_modifyPlatform hrefers with hold |
        ⟨d, i, bucket, csHash, hd, hi, hbucket, hne, hhash, hplace⟩
      · exact hold
      · exact ⟨_, d, _, i, bucket, csHash, hd, hi, hbucket, hne, hhash, hplace⟩
  · cases h
    exact hrefers

/-- What the config names after a job is what it named and what the job uploads. -/
theorem refers_setHash {j : Job} {versioned data : ConfigData} {csHash content : Text}
    {h : Host ConfigData}
    (hset : setPlatformData versioned j.dependency j.platform .cloudStorageHash csHash = .ok data)
    (hlocal : h.readLocal j.dependencyPath = some content) {place : Text}
    (hrefers : Refers data place) :
    Refers versioned place ∨ ∃ u, j.uploader data csHash h = .ok u ∧ u.place = place := by
  unfold setPlatformData at hset
  split at hset
  · cases hset
  · cases hset
    rcases refers_modifyPlatform hrefers with hold |
      ⟨d, i, bucket, csHash', hd, hi, hbucket, hne, hhash, hplace⟩
    · exact Or.inl hold
    · obtain rfl : csHash = csHash' := Option.some.inj hhash
      exact Or.inr ⟨_, uploader_modifyPlatform j hd hi hbucket hne hlocal, hplace.symm⟩

theorem uploader_new {j : Job} {data : ConfigData} {csHash : Text} {h : Host ConfigData}
    {u : CloudStorageUploader} (hu : j.uploader data csHash h = .ok u) :
    ∃ bucket baseFolder, u =
      newUploader bucket (cloudStorageRemotePath j.dependency csHash baseFolder)
        j.dependencyPath := by
  unfold Job.uploader at hu
  split at hu
  · rename_i baseFolder bucket _ _
    unfold CloudStorageUploader.init at hu
    simp only at hu
    split at hu
    · cases hu
    · split at hu
      · cases hu
      · exact ⟨bucket.getD [], baseFolder, (Except.ok.inj hu).symm⟩
  · cases hu
  · cases hu

/-- A job changes the config in memory, as far as it gets, or leaves its upload pending as well;
then all uploads are run or not. -/
theorem addJob_cases (sha1 : Text → Text) (b : BaseConfig) (h : Host ConfigData) (j : Job) :
    (∃ data value, b.addCloudStorageDependencyUpdateJob sha1 h j =
        ⟨{ b with configData := data }, h, value⟩ ∧
          ∀ place, Refers data place → Refers b.configData place) ∨
      ∃ data content bucket baseFolder u b', u = newUploader bucket
          (cloudStorageRemotePath j.dependency (sha1 content) baseFolder) j.dependencyPath ∧
        b' = { b with configData := data, pendingUploads := b.pendingUploads ++ [u] } ∧
          (∀ place, Refers data place → Refers b.configData place ∨ place = u.place) ∧
            ((∃ value, b.addCloudStorageDependencyUpdateJob sha1 h j = ⟨b', h, value⟩) ∨
              b.addCloudStorageDependencyUpdateJob sha1 h j =
                ⟨(b'.executeUpdateJobs false h).config, (b'.executeUpdateJobs false h).host,
                  (b'.executeUpdateJobs false h).value.map fun _ => ()⟩) := by
  rw [BaseConfig.addCloudStorageDependencyUpdateJob]
  cases b.validateIsConfigUpdatable h j.executeJob j.dependency j.platform with
  | error e => exact Or.inl ⟨b.configData, _, rfl, fun _ hrefers => hrefers⟩
  | ok =>
    cases hlocal : h.readLocal j.dependencyPath with
    | none => exact Or.inl ⟨b.configData, _, rfl, fun _ hrefers => hrefers⟩
    | some content =>
      cases hversion : j.setVersion b.configData with
      | error e => exact Or.inl ⟨b.configData, _, rfl, fun _ hrefers => hrefers⟩
      | ok versioned =>
        cases hset : setPlatformData versioned j.dependency j.platform .cloudStorageHash
          (sha1 content) with
        | error e =>
          exact Or.inl ⟨versioned, .error e, by simp only [hset],
            fun _ => refers_setVersion hversion⟩
        | ok data =>
          have hnames : ∀ place, Refers data place → Refers versioned place ∨
              ∃ u, j.uploader data (sha1 content) h = .ok u ∧ u.place = place :=
            fun _ => refers_setHash hset hlocal
          cases hu : j.uploader data (sha1 content) h with
          | error e =>
            -- without an upload the new hash names no file
            refine Or.inl ⟨data, .error e, by simp only [hset, hu], fun place hrefers => ?_⟩
            rcases hnames place hrefers with hold | ⟨u, hu', -⟩
            · exact refers_setVersion hversion hold
            · rw [hu] at hu'
              cases hu'
          | ok u =>
            obtain ⟨bucket, baseFolder, hnew⟩ := uploader_new hu
            refine Or.inr ⟨data, content, bucket, baseFolder, u, _, hnew, rfl,
              fun place hrefers => ?_, ?_⟩
            · rcases hnames place hrefers with hold | ⟨u', hu', hplace⟩
              · exact Or.inl (refers_setVersion hversion hold)
              · rw [hu] at hu'
                exact Or.inr (Except.ok.inj hu' ▸ hplace.symm)
            · simp only [hset, hu]
              by_cases hexecute : j.executeJob = true
              · exact Or.inr (if_pos hexecute)
              · exact Or.inl ⟨_, if_neg hexecute⟩

end Udroid.Dependency
