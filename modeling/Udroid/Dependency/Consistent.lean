import Udroid.Dependency.BaseConfig

/-!
# The config file names only files that are in cloud storage

Whatever is called, whichever call to the outside fails and whether the uploads can be taken back,
every file that the config file names is in cloud storage.

- `Consistent`: the invariant, which speaks of the config in memory and the pending uploads as well.
- `execute_consistent`, `addJob_consistent`: the two methods keep it.
- `stored_history`: so does every history.
-/

namespace Udroid.Dependency

open Udroid.Unix

/-! ## Section 1: Histories -/

structure System where
  config : BaseConfig
  host : Host ConfigData

/-- What is done with a config. -/
inductive Call where
  /-- The config is loaded again. -/
  | load (writable : Bool)
  | addJob (j : Job)
  | execute (force : Bool)
  /-- The files here change. -/
  | edit (localFiles : Text → Option Text)

/-- What a method leaves, with what it raises. -/
def Returned.left {α : Type} (r : Returned α) : System × Option Failure :=
  (⟨r.config, r.host⟩,
    match r.value with
    | .error e => some e
    | .ok _ => none)

/-- A call, with what it raises; a load that raises leaves the config that was loaded before. -/
def Call.run (sha1 : Text → Text) (s : System) (luck : List Luck) :
    Call → System × Option Failure
  | .load writable =>
      match BaseConfig.init s.host writable with
      | .ok b => (⟨b, s.host⟩, none)
      | .error e => (s, some e)
  | .addJob j =>
      (s.config.addCloudStorageDependencyUpdateJob sha1 (s.host.withLuck luck) j).left
  | .execute force => (s.config.executeUpdateJobs force (s.host.withLuck luck)).left
  | .edit localFiles => (⟨s.config, { s.host with localFiles := localFiles }⟩, none)

/-- The calls of a history, each with the luck that it has; what they raise is caught. -/
def history (sha1 : Text → Text) (s : System) (calls : List (Call × List Luck)) : System :=
  calls.foldl (fun s c => (c.1.run sha1 s c.2).1) s

/-- Every file that the config file names is in cloud storage. -/
def Stored (h : Host ConfigData) : Prop :=
  ∀ data, h.disk = some data → ∀ place, Refers data place → (h.cloud place).isSome

/-- The upload would be taken back by deleting a file that the config file does not name. -/
def Own (disk : Option ConfigData) (u : CloudStorageUploader) : Prop :=
  ∀ data, disk = some data → u.updated = true → u.backedUp = false → ¬ Refers data u.place

/-- What holds between the calls. -/
structure Consistent (s : System) : Prop where
  stored : Stored s.host
  own : ∀ u ∈ s.config.pendingUploads, Own s.host.disk u
  pending : ∀ data, s.host.disk = some data → ∀ place, Refers s.config.configData place →
    Refers data place ∨ place ∈ s.config.pendingUploads.map CloudStorageUploader.place

/-! ## Section 2: Uploads -/

theorem isSome_update {cloud : Text → Option Text} {p : Text} (h : (cloud p).isSome) (q : Text)
    (content : Text) : (Function.update cloud q (some content) p).isSome := by
  rw [Function.update_apply]
  split
  · rfl
  · exact h

section Results

variable {force : Bool} {u item : CloudStorageUploader} {h h' : Host ConfigData} {e : Option Failure}

/-- An upload removes nothing. -/
theorem UploadResult.isSome (hr : UploadResult force u h h' item e) {p : Text}
    (hp : (h.cloud p).isSome) : (h'.cloud p).isSome := by
  cases hr with
  | refused hcloud => exact hcloud ▸ hp
  | inserted _ _ hcloud => exact hcloud ▸ isSome_update hp _ _
  | insertBroke _ _ hcloud => exact hcloud ▸ isSome_update hp _ _
  | copyBroke _ _ _ hcloud => exact hcloud ▸ isSome_update hp _ _
  | copied _ _ hcloud => exact hcloud ▸ isSome_update hp _ _
  | replaced _ _ _ hcloud => exact hcloud ▸ isSome_update (isSome_update hp _ _) _ _
  | replaceBroke _ _ _ hcloud => exact hcloud ▸ isSome_update (isSome_update hp _ _) _ _

theorem UploadResult.place (hr : UploadResult force u h h' item e) : item.place = u.place := by
  cases hr <;> rfl

/-- What was put without a copy of what was there was put where nothing was. -/
theorem UploadResult.own (hr : UploadResult force u h h' item e) (hstored : Stored h)
    (hown : Own h.disk u) : Own h.disk item := by
  cases hr with
  | inserted hfree _ _ =>
    intro data hdisk _ _ hrefers
    have hfound := hstored data hdisk u.place hrefers
    rw [hfree] at hfound
    cases hfound
  | copied => exact fun _ _ _ hb => absurd hb (by simp)
  | replaced => exact fun _ _ _ hb => absurd hb (by simp)
  | replaceBroke => exact fun _ _ _ hb => absurd hb (by simp)
  | refused => exact hown
  | insertBroke => exact hown
  | copyBroke => exact hown

theorem RollbackResult.place (hr : RollbackResult u h h' item e) : item.place = u.place := by
  cases hr <;> rfl

/-- Only what the upload put there itself is removed. -/
theorem RollbackResult.isSome (hr : RollbackResult u h h' item e) {p : Text}
    (hown : u.updated = true → u.backedUp = false → p ≠ u.place) (hp : (h.cloud p).isSome) :
    (h'.cloud p).isSome := by
  cases hr with
  | refused hcloud => exact hcloud ▸ hp
  | copiedBack _ _ hcloud => exact hcloud ▸ isSome_update hp _ _
  | copyBroke _ hcloud => exact hcloud ▸ isSome_update hp _ _
  | deleted hinserted hcloud =>
    rw [hcloud, Function.update_of_ne (hown hinserted.2 hinserted.1)]
    exact hp
  | deleteBroke hinserted hcloud =>
    rw [hcloud, Function.update_of_ne (hown hinserted.2 hinserted.1)]
    exact hp
  | skipped _ hcloud => exact hcloud ▸ hp

theorem RollbackResult.own (hr : RollbackResult u h h' item e) {disk : Option ConfigData}
    (hown : Own disk u) : Own disk item := by
  cases hr with
  | refused => exact hown
  | copyBroke => exact hown
  | deleteBroke => exact hown
  | copiedBack => exact fun _ _ hupdated => absurd hupdated (by simp)
  | deleted => exact fun _ _ hupdated => absurd hupdated (by simp)
  | skipped => exact fun _ _ hupdated => absurd hupdated (by simp)

end Results

/-- What an upload keeps, done or taken back. -/
theorem uploads_keeps (force : Bool) (disk : Option ConfigData) :
    (uploads force).Keeps (fun h : Host ConfigData => h.disk = disk ∧ Stored h)
      (fun u _ => Own disk u) where
  act := by
    rintro u h ⟨hdisk, hstored⟩ hown
    obtain ⟨hlater, hresult⟩ := upload_cases force u h
    subst hdisk
    refine ⟨⟨hlater.disk, fun data hdata p hrefers => ?_⟩, hresult.own hstored hown⟩
    exact hresult.isSome (hstored data (hlater.disk ▸ hdata) p hrefers)
  act_other := fun _ hown => hown
  undo := by
    rintro u h ⟨hdisk, hstored⟩ hown
    obtain ⟨hlater, hresult⟩ := rollback_cases u h
    subst hdisk
    refine ⟨⟨hlater.disk, fun data hdata p hrefers => ?_⟩, hresult.own hown⟩
    have hdisk : h.disk = some data := hlater.disk ▸ hdata
    refine hresult.isSome (fun hupdated hb heq => ?_) (hstored data hdisk p hrefers)
    exact hown data hdisk hupdated hb (heq ▸ hrefers)
  undo_other := fun _ hown => hown

/-- A file that is uploaded is in cloud storage. -/
theorem uploads_reaches (force : Bool) :
    (uploads force).Reaches (fun _ => True)
      (fun u (h : Host ConfigData) => (h.cloud u.place).isSome) where
  state := fun _ => trivial
  act := by
    intro u h _ hok
    obtain ⟨-, hresult⟩ := upload_cases force u h
    change (((u.upload force h).state).cloud (u.upload force h).item.place).isSome
    have herror : (u.upload force h).error = none := hok
    rw [hresult.place]
    rw [herror] at hresult
    generalize (u.upload force h).item = item at hresult
    cases hresult with
    | inserted _ _ hcloud => simp [hcloud]
    | replaced _ _ _ hcloud => simp [hcloud]
  act_other := fun {u h} _ hj => (upload_cases force u h).2.isSome hj

theorem uploads_places (force : Bool) (us : List CloudStorageUploader) (h : Host ConfigData) :
    ((uploads force).actAll us h).item.map CloudStorageUploader.place =
      us.map CloudStorageUploader.place :=
  Jobs.actAll_map (fun u h => (upload_cases force u h).2.place) us h

theorem rollbacks_places (force : Bool) (us : List CloudStorageUploader) (h : Host ConfigData) :
    ((uploads force).undoAll us h).item.map CloudStorageUploader.place =
      us.map CloudStorageUploader.place :=
  Jobs.undoAll_map (fun u h => (rollback_cases u h).2.place) us h

/-! ## Section 3: Executing -/

/-- Uploads that are taken back, or stay because that failed. -/
theorem abort_consistent (force : Bool) {b : BaseConfig} {us : List CloudStorageUploader}
    {t : Host ConfigData} (e : Failure)
    (hplaces : us.map CloudStorageUploader.place =
      b.pendingUploads.map CloudStorageUploader.place)
    (hstored : Stored t) (hown : ∀ u ∈ us, Own t.disk u)
    (hpending : ∀ data, t.disk = some data → ∀ place, Refers b.configData place →
      Refers data place ∨ place ∈ b.pendingUploads.map CloudStorageUploader.place) :
    Consistent ⟨{ b with pendingUploads := ((uploads force).abort us t e).item },
      ((uploads force).abort us t e).state⟩ := by
  have hdone := (uploads_keeps force t.disk).undoAll ⟨rfl, hstored⟩ hown
  have hdisk : ((uploads force).abort us t e).state.disk = t.disk := hdone.1.1
  refine ⟨hdone.1.2, fun u hu => hdisk ▸ hdone.2 u hu, fun data hdata place hrefers => ?_⟩
  have hsame : ((uploads force).abort us t e).item.map CloudStorageUploader.place =
      b.pendingUploads.map CloudStorageUploader.place :=
    (rollbacks_places force us t).trans hplaces
  rw [hdisk] at hdata
  simp only [hsame]
  exact hpending data hdata place hrefers

/-- Executing the jobs keeps the invariant, whatever fails. -/
theorem execute_consistent (force : Bool) {b : BaseConfig} {h : Host ConfigData}
    (hc : Consistent ⟨b, h⟩) :
    Consistent ⟨(b.executeUpdateJobs force h).config, (b.executeUpdateJobs force h).host⟩ := by
  rcases execute_cases force b h with ⟨value, heq⟩ | ⟨⟨data, hdata⟩, heq⟩
  · rw [heq]
    exact hc
  obtain ⟨hstored, hown, hpending⟩ := hc
  have hacts := (uploads_keeps force h.disk).actAll ⟨rfl, hstored⟩ hown
  have hplaces := uploads_places force b.pendingUploads h
  rw [heq]
  rcases runUploads_cases force b h with ⟨done, rfl, hok, hrun⟩ | ⟨done, t, e, rfl, hrun, hcloud, ht⟩
  · -- all are uploaded: what the config names was there, or has been put there
    rw [hrun]
    refine ⟨fun data' hdata' place hrefers => ?_, fun u hu => absurd hu List.not_mem_nil,
      fun data' hdata' place hrefers => Or.inl (Option.some.inj hdata' ▸ hrefers)⟩
    obtain rfl : b.configData = data' := Option.some.inj hdata'
    rcases hpending data hdata place hrefers with hold | hnew
    · exact hacts.1.2 data (hacts.1.1.trans hdata) place hold
    · rw [← hplaces] at hnew
      obtain ⟨u, hu, rfl⟩ := List.mem_map.mp hnew
      exact (uploads_reaches force).actAll trivial hok u hu
  · rw [hrun]
    rcases ht with hdisk | ⟨hdisk, -⟩
    · rw [hacts.1.1] at hdisk
      refine abort_consistent force e hplaces ?_ (hdisk ▸ hacts.2) (hdisk ▸ hpending)
      intro data' hdata' place hrefers
      rw [hcloud]
      exact hacts.1.2 data' (hacts.1.1.trans (hdisk ▸ hdata')) place hrefers
    · have hgone : ∀ data', t.disk ≠ some data' := fun data' => by simp [hdisk]
      exact abort_consistent force e hplaces (fun data' h' => absurd h' (hgone data'))
        (fun _ _ data' h' => absurd h' (hgone data')) fun data' h' => absurd h' (hgone data')

/-! ## Section 4: Histories keep the invariant -/

/-- A config that is loaded has nothing pending. -/
theorem load_consistent {h : Host ConfigData} (hstored : Stored h) {writable : Bool}
    {b : BaseConfig} (hload : BaseConfig.init h writable = .ok b) : Consistent ⟨b, h⟩ := by
  rw [BaseConfig.init] at hload
  cases hdisk : h.disk with
  | none => simp [hdisk] at hload
  | some data =>
    rw [hdisk] at hload
    obtain rfl := Except.ok.inj hload
    refine ⟨hstored, fun u hu => absurd hu List.not_mem_nil, fun data' hdata' place hrefers => ?_⟩
    obtain rfl : data = data' := Option.some.inj (hdisk.symm.trans hdata')
    exact Or.inl hrefers

/-- Adding a job keeps the invariant, wherever it raises. -/
theorem addJob_consistent (sha1 : Text → Text) (j : Job) {b : BaseConfig} {h : Host ConfigData}
    (hc : Consistent ⟨b, h⟩) :
    Consistent ⟨(b.addCloudStorageDependencyUpdateJob sha1 h j).config,
      (b.addCloudStorageDependencyUpdateJob sha1 h j).host⟩ := by
  obtain ⟨hstored, hown, hpending⟩ := hc
  rcases addJob_cases sha1 b h j with ⟨data, value, heq, hnames⟩ |
    ⟨data, content, bucket, baseFolder, u, b', hu, rfl, hnames, hrun⟩
  · rw [heq]
    exact ⟨hstored, hown, fun disk hdisk place hrefers =>
      hpending disk hdisk place (hnames place hrefers)⟩
  · have hadded : Consistent ⟨{ b with
        configData := data
        pendingUploads := b.pendingUploads ++ [u] }, h⟩ := by
      refine ⟨hstored, ?_, fun disk hdisk place hrefers => ?_⟩
      · refine List.forall_mem_append.mpr ⟨hown, List.forall_mem_singleton.mpr ?_⟩
        subst hu
        exact fun _ _ hupdated => absurd hupdated (by simp [newUploader])
      · rw [List.map_append, List.mem_append]
        rcases hnames place hrefers with hold | rfl
        · rcases hpending disk hdisk place hold with hstays | hwaits
          · exact Or.inl hstays
          · exact Or.inr (Or.inl hwaits)
        · exact Or.inr (Or.inr (by simp))
    rcases hrun with ⟨value, heq⟩ | heq
    · rw [heq]
      exact hadded
    · rw [heq]
      exact execute_consistent false hadded

/-- A call keeps the invariant, whatever luck it has. -/
theorem run_consistent (sha1 : Text → Text) {s : System} (hc : Consistent s) (luck : List Luck)
    (call : Call) : Consistent (call.run sha1 s luck).1 := by
  have hlucky : Consistent ⟨s.config, s.host.withLuck luck⟩ :=
    ⟨hc.stored, hc.own, hc.pending⟩
  cases call with
  | load writable =>
    rw [Call.run]
    cases hload : BaseConfig.init s.host writable with
    | error e => exact hc
    | ok b => exact load_consistent hc.stored hload
  | addJob j => exact addJob_consistent sha1 j hlucky
  | execute force => exact execute_consistent force hlucky
  | edit localFiles => exact ⟨hc.stored, hc.own, hc.pending⟩

theorem history_consistent (sha1 : Text → Text) {s : System} (hc : Consistent s)
    (calls : List (Call × List Luck)) : Consistent (history sha1 s calls) := by
  induction calls generalizing s with
  | nil => exact hc
  | cons c calls ih => exact ih (run_consistent sha1 hc c.2 c.1)

/-- A config with one dependency; its file for Linux is in cloud storage. -/
def adbConfig : ConfigData :=
  [("adb".toList, ⟨some "tools".toList, none, some
    [("linux".toList, ⟨some "0".toList, none, []⟩),
      ("mac".toList, ⟨none, some "1".toList, []⟩)]⟩)]

def adbHost : Host ConfigData where
  cloud p := if p = "gs://tools/adb_0".toList then some "elf".toList else none
  localFiles p := if p = "adb".toList then some "abc".toList else none
  disk := some adbConfig
  luck := []

theorem stored_adbHost : Stored adbHost := by
  rintro data hdata place ⟨dependency, d, platform, i, bucket, csHash, hd, hi, hbucket, -, hhash, rfl⟩
  obtain rfl : adbConfig = data := Option.some.inj hdata
  by_cases hdependency : dependency = "adb".toList
  · subst hdependency
    obtain rfl := Option.some.inj hd
    by_cases hplatform : platform = "linux".toList
    · subst hplatform
      obtain rfl := Option.some.inj hi
      obtain rfl := Option.some.inj hbucket
      obtain rfl := Option.some.inj hhash
      decide
    · by_cases hmac : platform = "mac".toList
      · subst hmac
        obtain rfl := Option.some.inj hi
        cases hhash
      · rw [Option.getD_some, List.lookup_cons, beq_eq_false_iff_ne.mpr hplatform, List.lookup_cons,
          beq_eq_false_iff_ne.mpr hmac] at hi
        cases hi
  · rw [adbConfig, List.lookup_cons, beq_eq_false_iff_ne.mpr hdependency] at hd
    cases hd

/-- The digest of `abc`. -/
def abcSha1 (_content : Text) : Text := "a9993e364706816aba3e25717850c26c9cd0d89d".toList

def adbJob : Job where
  dependency := "adb".toList
  platform := "mac".toList
  dependencyPath := "adb".toList
  version := some "2".toList
  executeJob := false

end Udroid.Dependency
