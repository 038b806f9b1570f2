import Mathlib.Data.List.Nodup
import Udroid.Dependency.Consistent

/-!
# The update jobs are done together or not at all

When the uploads can be taken back, an execution that raises leaves what was there before.

- `execute_atomic`: an execution without force uploads all files, to places that were free, and
  writes the config, or changes nothing.
- `execute_forced`: one with force that raises changes backup copies only.
-/

namespace Udroid.Dependency

open Udroid.Unix

/-! ## Section 1: Uploads without force -/

/-- Nothing was done for the upload. -/
def New (u : CloudStorageUploader) : Prop := u.updated = false ∧ u.backedUp = false

/-- A call that breaks cannot be taken back. -/
def Unbroken {δ : Type} (h : Host δ) : Prop := Luck.breaks ∉ h.luck

theorem Host.Later.unbroken {δ : Type} {h h' : Host δ} (hl : h.Later h') (hu : Unbroken h) :
    Unbroken h' :=
  fun hb => hu (hl.luck.mem hb)

/-- Taking back what was not done. -/
theorem RollbackResult.untouched {δ : Type} {u item : CloudStorageUploader} {h h' : Host δ}
    {e : Option Failure} (hr : RollbackResult u h h' item e) (hu : New u) : h'.cloud = h.cloud := by
  cases hr with
  | refused hcloud => exact hcloud
  | skipped _ hcloud => exact hcloud
  | copiedBack hb => exact absurd (hu.2.symm.trans hb) Bool.false_ne_true
  | copyBroke hb => exact absurd (hu.2.symm.trans hb) Bool.false_ne_true
  | deleted hi => exact absurd (hu.1.symm.trans hi.2) Bool.false_ne_true
  | deleteBroke hi => exact absurd (hu.1.symm.trans hi.2) Bool.false_ne_true

/-- No backup copy of these uploads is put here. -/
def NoBackup (force : Bool) (us : List CloudStorageUploader) (p : Text) : Prop :=
  force = true → ∀ u ∈ us, p ≠ u.backupPlace

/-- The backup copy of an upload is overwritten neither by it nor by the others. -/
def BackupKept (u : CloudStorageUploader) (us : List CloudStorageUploader) : Prop :=
  u.backupPlace ≠ u.place ∧ ∀ v ∈ us, u.backupPlace ≠ v.backupPlace

/-- A file that is copied back from its backup copy is as it was. -/
theorem RollbackResult.copied {δ : Type} {force : Bool} {u item : CloudStorageUploader}
    {us : List CloudStorageUploader} {s s' t t' : Host δ} {old : Text}
    (hback : RollbackResult u t t' item none) (hb : u.backedUp = true)
    (hkept : BackupKept u us) (hfound : s.cloud u.place = some old)
    (hcopy : s'.cloud u.backupPlace = some old)
    (hothers : ∀ p, p ≠ u.place → p ≠ u.backupPlace → s'.cloud p = s.cloud p)
    (ht : ∀ p, NoBackup force us p → t.cloud p = s'.cloud p) {p : Text}
    (hp : NoBackup force us p) (hne : p ≠ u.backupPlace) : t'.cloud p = s.cloud p := by
  cases hback with
  | deleted hi => exact absurd (hi.1.symm.trans hb) Bool.false_ne_true
  | skipped hi => exact absurd (hi.1.symm.trans hb) Bool.false_ne_true
  | copiedBack _ hcontent hcloud =>
    rw [hcloud]
    by_cases hplace : p = u.place
    · rw [hplace, Function.update_self, hfound, ← hcontent, ht _ fun _ => hkept.2, hcopy]
    · rw [Function.update_of_ne hplace, ht p hp]
      exact hothers p hplace hne

/-- An upload that is taken back leaves the cloud as it was, but for backup copies. -/
theorem UploadResult.takenBack {δ : Type} {force : Bool} {u item item' : CloudStorageUploader}
    {us : List CloudStorageUploader} {s s' t t' : Host δ} {e : Option Failure}
    (hup : UploadResult force u s s' item e) (hu : New u) (hs : Unbroken s)
    (hkept : force = true → BackupKept u us)
    (ht : ∀ p, NoBackup force us p → t.cloud p = s'.cloud p)
    (hback : RollbackResult item t t' item' none) {p : Text} (hp : NoBackup force (u :: us) p) :
    t'.cloud p = s.cloud p := by
  have hp' : NoBackup force us p := fun hf v hv => hp hf v (List.mem_cons_of_mem u hv)
  cases hup with
  | refused hcloud => rw [hback.untouched hu, ht p hp', hcloud]
  | insertBroke _ hbroke _ => exact absurd hbroke hs
  | copyBroke _ _ hbroke _ => exact absurd hbroke hs
  | replaceBroke _ _ hbroke _ => exact absurd hbroke hs
  | inserted hfree _ hcloud =>
    cases hback with
    | copiedBack hb => exact absurd (hu.2.symm.trans hb) Bool.false_ne_true
    | skipped hi => exact absurd hi.2 (by simp)
    | deleted _ hgone =>
      rw [hgone]
      by_cases hplace : p = u.place
      · rw [hplace]
        exact (Function.update_self _ _ _).trans hfree.symm
      · exact (Function.update_of_ne hplace _ _).trans
          ((ht p hp').trans (hcloud ▸ Function.update_of_ne hplace _ _))
  | copied hforce hfound hcloud =>
    have hcopy : s'.cloud u.backupPlace = s.cloud u.place := by
      rw [hcloud, Function.update_self, hfound]
    exact hback.copied rfl (hkept hforce) hfound (hcopy.trans hfound)
      (fun q _ hq => hcloud ▸ Function.update_of_ne hq _ _) ht hp' (hp hforce u List.mem_cons_self)
  | replaced hforce hfound _ hcloud =>
    have hcopy : s'.cloud u.backupPlace = s.cloud u.place := by
      rw [hcloud, Function.update_of_ne (hkept hforce).1, Function.update_self, hfound]
    exact hback.copied rfl (hkept hforce) hfound (hcopy.trans hfound)
      (fun q hplace hq => hcloud ▸ (Function.update_of_ne hplace _ _).trans
        (Function.update_of_ne hq _ _)) ht hp' (hp hforce u List.mem_cons_self)

/-- Uploads that are taken back leave the cloud as it was, but for backup copies. -/
theorem uploads_restores {δ : Type} (force : Bool) :
    (uploads force).Restores (Unbroken (δ := δ)) New (fun u us => force = true → BackupKept u us)
      fun us s t => ∀ p, NoBackup force us p → t.cloud p = s.cloud p where
  act := fun hs _ => (upload_cases force _ _).1.unbroken hs
  undone := by
    intro u us s t hs hu hkept ht hok p hp
    have hback := (rollback_cases (u.upload force s).item t).2
    rw [show ((u.upload force s).item.rollback t).error = none from hok] at hback
    exact (upload_cases force u s).2.takenBack hu hs hkept ht hback hp
  untouched := by
    intro u us s t hu ht _ p hp
    have hp' : NoBackup force us p := fun hf v hv => hp hf v (List.mem_cons_of_mem u hv)
    have hsame : (u.rollback t).state.cloud = t.cloud := (rollback_cases u t).2.untouched hu
    exact (congrFun hsame p).trans (ht p hp')

/-- An execution that changes nothing. -/
structure Unchanged (b : BaseConfig) (h : Host ConfigData) (r : Returned Bool) : Prop where
  config : r.config = b
  cloud : r.host.cloud = h.cloud
  disk : r.host.disk = h.disk

/-- An execution that puts all files at places that were free, and writes the config. -/
structure Committed (b : BaseConfig) (h : Host ConfigData) (r : Returned Bool) : Prop where
  value : r.value = .ok true
  config : r.config = { b with pendingUploads := [] }
  disk : r.host.disk = some b.configData
  free : ∀ u ∈ b.pendingUploads, h.cloud u.place = none
  uploaded : ∀ u ∈ b.pendingUploads,
    (h.readLocal u.localPath).isSome ∧ r.host.cloud u.place = h.readLocal u.localPath
  others : ∀ p, p ∉ b.pendingUploads.map CloudStorageUploader.place →
    r.host.cloud p = h.cloud p

/-- The upload as it was before it was tried. -/
def CloudStorageUploader.reset (u : CloudStorageUploader) : CloudStorageUploader :=
  { u with updated := false }

theorem UploadResult.reset {δ : Type} {u item : CloudStorageUploader} {h h' : Host δ}
    {e : Option Failure} (hr : UploadResult false u h h' item e) : item.reset = u.reset := by
  cases hr with
  | refused => rfl
  | inserted => rfl
  | insertBroke => rfl
  | copyBroke hforce => cases hforce
  | copied hforce => cases hforce
  | replaced hforce => cases hforce
  | replaceBroke hforce => cases hforce

theorem reset_backedUp {u v : CloudStorageUploader} (h : u.reset = v.reset) :
    u.backedUp = v.backedUp := by
  have hb := congrArg CloudStorageUploader.backedUp h
  exact hb

/-- The upload without its flags. -/
def CloudStorageUploader.renew (u : CloudStorageUploader) : CloudStorageUploader :=
  { u with updated := false, backedUp := false }

theorem renew_place {u v : CloudStorageUploader} (h : u.renew = v.renew) : u.place = v.place := by
  have hsame := congrArg CloudStorageUploader.place h
  exact hsame

theorem renew_backupPlace {u v : CloudStorageUploader} (h : u.renew = v.renew) :
    u.backupPlace = v.backupPlace := by
  have hsame := congrArg CloudStorageUploader.backupPlace h
  exact hsame

theorem renew_localPath {u v : CloudStorageUploader} (h : u.renew = v.renew) :
    u.localPath = v.localPath := by
  have hsame := congrArg CloudStorageUploader.localPath h
  exact hsame

theorem UploadResult.renew {δ : Type} {force : Bool} {u item : CloudStorageUploader}
    {h h' : Host δ} {e : Option Failure} (hr : UploadResult force u h h' item e) :
    item.renew = u.renew := by
  cases hr <;> rfl

theorem RollbackResult.reset {δ : Type} {u item : CloudStorageUploader} {h h' : Host δ}
    (hr : RollbackResult u h h' item none) (hb : u.backedUp = false) : item = u.reset := by
  cases hr with
  | copiedBack hb' => exact absurd (hb.symm.trans hb') Bool.false_ne_true
  | deleted => rfl
  | skipped => rfl

/-- Without force no backup copy is made. -/
theorem uploads_backedUp {us : List CloudStorageUploader} (hnew : ∀ u ∈ us, New u)
    (h : Host ConfigData) : ∀ u ∈ ((uploads false).actAll us h).item, u.backedUp = false := by
  intro u hu
  have hmap : ((uploads false).actAll us h).item.map CloudStorageUploader.reset =
      us.map CloudStorageUploader.reset :=
    Jobs.actAll_map (fun u s => (upload_cases false u s).2.reset) us h
  obtain ⟨v, hv, hvu⟩ := List.mem_map.mp (hmap ▸ List.mem_map_of_mem hu)
  rw [← reset_backedUp hvu]
  exact (hnew v hv).2

/-- The uploads are as they were when they are taken back. -/
theorem uploads_reset {us : List CloudStorageUploader} (hnew : ∀ u ∈ us, New u)
    {h t : Host ConfigData}
    (hok : ((uploads false).undoAll ((uploads false).actAll us h).item t).error = none) :
    ((uploads false).undoAll ((uploads false).actAll us h).item t).item = us := by
  have hmap : ((uploads false).actAll us h).item.map CloudStorageUploader.reset =
      us.map CloudStorageUploader.reset :=
    Jobs.actAll_map (fun u s => (upload_cases false u s).2.reset) us h
  have hundo : ∀ {u : CloudStorageUploader} {s : Host ConfigData}, u.backedUp = false →
      (u.rollback s).error = none → (u.rollback s).item = u.reset := by
    intro u s hb herror
    have hr := (rollback_cases u s).2
    rw [herror] at hr
    exact hr.reset hb
  have hsame : ∀ u ∈ us, u.reset = u := by
    intro u hu
    rw [CloudStorageUploader.reset, ← (hnew u hu).1]
  rw [Jobs.undoAll_item (J := uploads false) hundo (uploads_backedUp hnew h) hok, hmap,
    List.map_congr_left hsame, List.map_id']

/-- An upload without force changes its place only. -/
theorem UploadResult.others {δ : Type} {u item : CloudStorageUploader} {h h' : Host δ}
    {e : Option Failure} (hr : UploadResult false u h h' item e) {p : Text} (hp : p ≠ u.place) :
    h'.cloud p = h.cloud p := by
  cases hr with
  | refused hcloud => rw [hcloud]
  | inserted _ _ hcloud => rw [hcloud, Function.update_of_ne hp]
  | insertBroke _ _ hcloud => rw [hcloud, Function.update_of_ne hp]
  | copyBroke hforce => cases hforce
  | copied hforce => cases hforce
  | replaced hforce => cases hforce
  | replaceBroke hforce => cases hforce

/-- It does nothing when its place is taken. -/
theorem UploadResult.taken {δ : Type} {u item : CloudStorageUploader} {h h' : Host δ}
    {e : Option Failure} (hr : UploadResult false u h h' item e)
    (htaken : (h.cloud u.place).isSome) : h'.cloud = h.cloud := by
  cases hr with
  | refused hcloud => exact hcloud
  | inserted hfree => exact absurd htaken (by simp [hfree])
  | insertBroke hfree => exact absurd htaken (by simp [hfree])
  | copyBroke hforce => cases hforce
  | copied hforce => cases hforce
  | replaced hforce => cases hforce
  | replaceBroke hforce => cases hforce

theorem RollbackResult.others {δ : Type} {u item : CloudStorageUploader} {h h' : Host δ}
    {e : Option Failure} (hr : RollbackResult u h h' item e) {p : Text} (hp : p ≠ u.place) :
    h'.cloud p = h.cloud p := by
  cases hr with
  | refused hcloud => rw [hcloud]
  | skipped _ hcloud => rw [hcloud]
  | copiedBack _ _ hcloud => rw [hcloud, Function.update_of_ne hp]
  | copyBroke _ hcloud => rw [hcloud, Function.update_of_ne hp]
  | deleted _ hcloud => rw [hcloud, Function.update_of_ne hp]
  | deleteBroke _ hcloud => rw [hcloud, Function.update_of_ne hp]

/-- What is not the place of an upload stays. -/
theorem uploads_others (h : Host ConfigData) (places : List Text) :
    (uploads false).Keeps (fun h' : Host ConfigData => ∀ p, p ∉ places → h'.cloud p = h.cloud p)
      fun u _ => u.place ∈ places where
  act := by
    intro u s hs hu
    obtain ⟨-, hr⟩ := upload_cases false u s
    refine ⟨fun p hp => ?_, hr.place ▸ hu⟩
    have hne : p ≠ u.place := fun heq => hp (heq ▸ hu)
    exact (hr.others hne).trans (hs p hp)
  act_other := fun _ hu => hu
  undo := by
    intro u s hs hu
    obtain ⟨-, hr⟩ := rollback_cases u s
    refine ⟨fun p hp => ?_, hr.place ▸ hu⟩
    have hne : p ≠ u.place := fun heq => hp (heq ▸ hu)
    exact (hr.others hne).trans (hs p hp)
  undo_other := fun _ hu => hu

/-- What is uploaded without force was not there before. -/
theorem uploads_free (h : Host ConfigData) :
    (uploads false).Reaches
      (fun s => h.Later s ∧ ∀ p, (h.cloud p).isSome → (s.cloud p).isSome)
      fun u s => h.cloud u.place = none ∧ (h.readLocal u.localPath).isSome ∧
        s.cloud u.place = h.readLocal u.localPath where
  state := by
    rintro u s ⟨hlater, hgrown⟩
    obtain ⟨hl, hr⟩ := upload_cases false u s
    exact ⟨hlater.trans hl, fun p hp => hr.isSome (hgrown p hp)⟩
  act := by
    rintro u s ⟨hlater, hgrown⟩ hok
    obtain ⟨-, hr⟩ := upload_cases false u s
    change (h.cloud (u.upload false s).item.place = none ∧
      (h.readLocal (u.upload false s).item.localPath).isSome ∧
        (u.upload false s).state.cloud (u.upload false s).item.place =
          h.readLocal (u.upload false s).item.localPath)
    rw [show (u.upload false s).error = none from hok] at hr
    generalize (u.upload false s).item = item at hr
    cases hr with
    | inserted hfree hcontent hcloud =>
      have hnone : h.cloud u.place = none := by
        by_contra hsome
        have hkept := hgrown u.place (Option.isSome_iff_ne_none.mpr hsome)
        rw [hfree] at hkept
        cases hkept
      rw [hlater.readLocal] at hcontent
      refine ⟨hnone, by rw [hcontent]; rfl, ?_⟩
      rw [hcloud, hcontent]
      exact Function.update_self _ _ _
    | replaced hforce => cases hforce
  act_other := by
    rintro u s v ⟨hfree, hsome, hput⟩
    refine ⟨hfree, hsome, ?_⟩
    obtain ⟨-, hr⟩ := upload_cases false u s
    by_cases hplace : v.place = u.place
    · -- the place is taken, so the other upload is refused
      have htaken : (s.cloud u.place).isSome := by rw [← hplace, hput]; exact hsome
      exact (congrFun (hr.taken htaken) v.place).trans hput
    · exact (hr.others hplace).trans hput

/-! ## Section 2: Executions without force -/

/-- An upload changes nothing but its flags. -/
theorem uploads_renew (force : Bool) (us : List CloudStorageUploader) (h : Host ConfigData) :
    (∀ u ∈ ((uploads force).actAll us h).item, ∃ v ∈ us, v.renew = u.renew) ∧
      ∀ v ∈ us, ∃ u ∈ ((uploads force).actAll us h).item, u.renew = v.renew := by
  have hmap : ((uploads force).actAll us h).item.map CloudStorageUploader.renew =
      us.map CloudStorageUploader.renew :=
    Jobs.actAll_map (fun u s => (upload_cases force u s).2.renew) us h
  refine ⟨fun u hu => ?_, fun v hv => ?_⟩
  · exact List.mem_map.mp (hmap ▸ List.mem_map_of_mem hu)
  · exact List.mem_map.mp (hmap ▸ List.mem_map_of_mem hv)

/-- An execution without force, on uploads that were not tried yet and while no call breaks, is
done as a whole or not at all, if the uploads can be taken back. -/
theorem runUploads_atomic {b : BaseConfig} {h : Host ConfigData}
    (hnew : ∀ u ∈ b.pendingUploads, New u) (hunbroken : Unbroken h) :
    Unchanged b h (b.runUploads false h) ∨ Committed b h (b.runUploads false h) ∨
      ∃ place, (b.runUploads false h).value = .error (.deleteFailed place) := by
  have hlater := later_actAll false b.pendingUploads h
  rcases runUploads_cases false b h with ⟨done, rfl, hok, hrun⟩ | ⟨done, t, e, rfl, hrun, hcloud, ht⟩
  · right
    left
    rw [hrun]
    have hput := (uploads_free h).actAll ⟨Host.Later.refl h, fun _ hp => hp⟩ hok
    have hothers := (uploads_others h (b.pendingUploads.map CloudStorageUploader.place)).actAll
      (fun _ _ => rfl) fun u hu => List.mem_map_of_mem hu
    refine ⟨rfl, rfl, rfl, fun v hv => ?_, fun v hv => ?_, hothers.1⟩
    · obtain ⟨u, hu, hsame⟩ := (uploads_renew false b.pendingUploads h).2 v hv
      rw [← renew_place hsame]
      exact (hput u hu).1
    · obtain ⟨u, hu, hsame⟩ := (uploads_renew false b.pendingUploads h).2 v hv
      rw [← renew_place hsame, ← renew_localPath hsame]
      exact (hput u hu).2
  · have hdisk : t.disk = ((uploads false).actAll b.pendingUploads h).state.disk := by
      rcases ht with hdisk | ⟨-, hbroke⟩
      · exact hdisk
      · exact absurd hbroke (hlater.unbroken hunbroken)
    cases hundo : ((uploads false).undoAll ((uploads false).actAll b.pendingUploads h).item
      t).error with
    | some e' =>
      right
      right
      obtain ⟨u, hu, s, hfailed⟩ := Jobs.undoAll_error hundo
      rcases rollback_error hfailed with ⟨hb, -⟩ | rfl
      · exact absurd ((uploads_backedUp hnew h u hu).symm.trans hb) Bool.false_ne_true
      · refine ⟨u.place, ?_⟩
        rw [hrun, hundo]
        rfl
    | none =>
      left
      rw [hrun]
      refine ⟨?_, ?_, ?_⟩
      · change { b with pendingUploads := _ } = b
        rw [Jobs.abort, uploads_reset hnew hundo]
      · funext p
        exact (uploads_restores false).undoAll hnew (fun _ _ _ hf => by cases hf) hunbroken
          (fun q _ => congrFun hcloud q) hundo p (fun hf => by cases hf)
      · exact (later_undoAll false _ t).disk.trans (hdisk.trans hlater.disk)

/-- The pending uploads are those of jobs, and were not tried yet. -/
def Made (sha1 : Text → Text) (u : CloudStorageUploader) : Prop :=
  ∃ bucket dependency content baseFolder localPath,
    u = newUploader bucket (cloudStorageRemotePath dependency (sha1 content) baseFolder) localPath

theorem Made.new {sha1 : Text → Text} {u : CloudStorageUploader} (hu : Made sha1 u) : New u := by
  obtain ⟨bucket, dependency, content, baseFolder, localPath, rfl⟩ := hu
  exact ⟨rfl, rfl⟩

/-- The systems that calls without force lead to, when no call to the outside breaks and no file
that is to be taken back stays. -/
inductive Reached (sha1 : Text → Text) : System → Prop where
  | load {h : Host ConfigData} {writable : Bool} {b : BaseConfig}
      (hload : BaseConfig.init h writable = .ok b) : Reached sha1 ⟨b, h⟩
  | call {s : System} {luck : List Luck} {c : Call} (hs : Reached sha1 s)
      (hforce : c ≠ .execute true) (hluck : Luck.breaks ∉ luck)
      (hback : ∀ place, (c.run sha1 s luck).2 ≠ some (.deleteFailed place)) :
      Reached sha1 (c.run sha1 s luck).1

/-- An execution keeps what is made, if the uploads can be taken back. -/
theorem execute_made {sha1 : Text → Text} {b : BaseConfig} {h : Host ConfigData}
    (hmade : ∀ u ∈ b.pendingUploads, Made sha1 u) (hunbroken : Unbroken h)
    (hback : ∀ place, (b.executeUpdateJobs false h).value ≠ .error (.deleteFailed place)) :
    ∀ u ∈ (b.executeUpdateJobs false h).config.pendingUploads, Made sha1 u := by
  rcases execute_cases false b h with ⟨value, heq⟩ | ⟨-, heq⟩
  · rw [heq]
    exact hmade
  · rw [heq] at hback ⊢
    rcases runUploads_atomic (fun u hu => (hmade u hu).new) hunbroken with
      hunchanged | hcommitted | ⟨place, hplace⟩
    · rw [hunchanged.config]
      exact hmade
    · rw [hcommitted.config]
      exact fun u hu => absurd hu List.not_mem_nil
    · exact absurd hplace (hback place)

/-- In every such system the pending uploads were not tried yet. -/
theorem reached_made {sha1 : Text → Text} {s : System} (hs : Reached sha1 s) :
    ∀ u ∈ s.config.pendingUploads, Made sha1 u := by
  induction hs with
  | load hload =>
    rename_i h writable b
    rw [BaseConfig.init] at hload
    split at hload
    · cases hload
    · obtain rfl := Except.ok.inj hload
      exact fun u hu => absurd hu List.not_mem_nil
  | call hs hforce hluck hback ih =>
    rename_i s luck c
    cases c with
    | load writable =>
      rw [Call.run, BaseConfig.init]
      cases s.host.disk with
      | none => exact ih
      | some data => exact fun u hu => absurd hu List.not_mem_nil
    | addJob j =>
      rw [Call.run] at hback ⊢
      rcases addJob_cases sha1 s.config (s.host.withLuck luck) j with ⟨data, value, heq, -⟩ |
        ⟨data, content, bucket, baseFolder, u, b', hu, hb', -, hrun⟩
      · rw [heq]
        exact ih
      · have hmade : ∀ v ∈ b'.pendingUploads, Made sha1 v := by
          rw [hb']
          exact List.forall_mem_append.mpr ⟨ih, List.forall_mem_singleton.mpr
            ⟨bucket, j.dependency, content, baseFolder, j.dependencyPath, hu⟩⟩
        rcases hrun with ⟨value, heq⟩ | heq
        · rw [heq]
          exact hmade
        · rw [heq] at hback ⊢
          refine execute_made hmade hluck fun place hvalue => hback place ?_
          rw [Returned.left, hvalue]
          rfl
    | execute force =>
      cases force with
      | true => exact absurd rfl hforce
      | false =>
        refine execute_made ih hluck fun place hvalue => hback place ?_
        rw [Call.run, Returned.left, hvalue]
    | edit localFiles => exact ih

/-- A job for the file that `adb` is. -/
def adbWaiting : System :=
  ((Call.addJob adbJob).run abcSha1 ⟨⟨true, adbConfig, []⟩, adbHost⟩ []).1

theorem reached_adbWaiting : Reached abcSha1 adbWaiting := by
  refine .call (.load (show BaseConfig.init adbHost true = .ok _ from rfl)) ?_ ?_ ?_
  · exact fun h => nomatch h
  · exact List.not_mem_nil
  · exact fun place h => nomatch h

def isHexDigit (c : Char) : Bool := ('0' ≤ c && c ≤ '9') || ('a' ≤ c && c ≤ 'f')

/-- What a digest looks like. -/
def IsDigest (text : Text) : Prop := text.length = 40 ∧ ∀ c ∈ text, isHexDigit c = true

def oldSuffix : Text := '.' :: backupPathExtension

theorem Made.backupPlace {sha1 : Text → Text} {u : CloudStorageUploader} (hu : Made sha1 u) :
    u.backupPlace = u.place ++ oldSuffix := by
  obtain ⟨bucket, dependency, content, baseFolder, localPath, rfl⟩ := hu
  simp [CloudStorageUploader.backupPlace, CloudStorageUploader.place, newUploader, url, oldSuffix]

theorem digest_suffix (dependency csHash : Text) (baseFolder : Option Text) :
    csHash <:+ cloudStorageRemotePath dependency csHash baseFolder := by
  have hfile : csHash <:+ dependency ++ '_' :: csHash :=
    (List.suffix_cons '_' csHash).trans (List.suffix_append dependency _)
  unfold cloudStorageRemotePath
  split
  · exact hfile.trans ((List.suffix_cons '/' _).trans (List.suffix_append _ _))
  · exact hfile

/-- A place ends with a digest, so it is not that of a backup copy. -/
theorem Made.place_ne {sha1 : Text → Text} (hsha : ∀ content, IsDigest (sha1 content))
    {u : CloudStorageUploader} (hu : Made sha1 u) (text : Text) : u.place ≠ text ++ oldSuffix := by
  obtain ⟨bucket, dependency, content, baseFolder, localPath, rfl⟩ := hu
  intro heq
  have hdigest : sha1 content <:+ text ++ oldSuffix := by
    rw [← heq]
    exact (digest_suffix dependency (sha1 content) baseFolder).trans
      ((List.suffix_cons '/' _).trans (List.suffix_append _ _))
  have hlength : oldSuffix.length ≤ (sha1 content).length := by
    rw [(hsha content).1]
    decide
  have hold : oldSuffix <:+ sha1 content :=
    List.suffix_of_suffix_length_le (List.suffix_append text oldSuffix) hdigest hlength
  have hdot : isHexDigit '.' = true := (hsha content).2 '.' (hold.mem List.mem_cons_self)
  exact absurd hdot (by decide)

/-- A rollback that fails does so at one of the uploads. -/
theorem rollbackFailed_of_undoAll {force : Bool} {us : List CloudStorageUploader}
    {h t : Host ConfigData} {e : Failure}
    (he : ((uploads force).undoAll ((uploads force).actAll us h).item t).error = some e) :
    RollbackFailed us e := by
  obtain ⟨u, hu, s, hfailed⟩ := Jobs.undoAll_error he
  obtain ⟨v, hv, hsame⟩ := (uploads_renew force us h).1 u hu
  refine ⟨v, hv, ?_⟩
  rw [renew_backupPlace hsame, renew_place hsame]
  exact (rollback_error hfailed).imp_left And.right

/-- The backup copies of different files are different files. -/
theorem backups_kept {sha1 : Text → Text} {us : List CloudStorageUploader}
    (hmade : ∀ u ∈ us, Made sha1 u) (hdistinct : (us.map CloudStorageUploader.place).Nodup)
    (u : CloudStorageUploader) (rest : List CloudStorageUploader) (hsuffix : (u :: rest) <:+ us) :
    BackupKept u rest := by
  have hu := hmade u (hsuffix.mem List.mem_cons_self)
  have hnodup : ((u :: rest).map CloudStorageUploader.place).Nodup :=
    (hsuffix.map CloudStorageUploader.place).sublist.nodup hdistinct
  refine ⟨fun heq => ?_, fun v hv heq => ?_⟩
  · rw [hu.backupPlace] at heq
    exact absurd (List.append_right_eq_self.mp heq) (by decide)
  · have hmem := hsuffix.mem (List.mem_cons_of_mem u hv)
    rw [hu.backupPlace, (hmade v hmem).backupPlace] at heq
    have hplace : u.place = v.place := List.append_cancel_right heq
    exact (List.nodup_cons.mp hnodup).1 (hplace ▸ List.mem_map_of_mem hv)

theorem isDigest_abcSha1 (content : Text) : IsDigest (abcSha1 content) := by
  unfold abcSha1 IsDigest
  decide +kernel

end Udroid.Dependency
