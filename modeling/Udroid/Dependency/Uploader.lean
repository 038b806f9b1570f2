import Mathlib.Logic.Function.Basic
import Udroid.Unix.Text
import Udroid.Unix.Transaction

/-!
# Uploads to cloud storage

`CloudStorageUploader` puts a file into cloud storage, over a backup copy of what was there, and
takes it back.  Every command may fail, before or after it has had its effect.

- `upload`, `rollback`: the two methods, with the flags that connect them.
- `upload_cases`, `rollback_cases`: all that they can do.
-/

namespace Udroid.Dependency

open Udroid.Unix

/-! ## Section 1: Cloud storage -/

/-- How a call to the outside goes. -/
inductive Luck where
  | works
  /-- It fails and does nothing. -/
  | fails
  /-- It fails half way: a command in the cloud was done all the same. -/
  | breaks
deriving DecidableEq

inductive Failure where
  | listFailed (url : Text)
  | copyFailed (source target : Text)
  | insertFailed (url : Text)
  | deleteFailed (url : Text)
  | uploadConflict (bucket path : Text)
  | partialUpload
  | noLocalFile (path : Text)
  | unreadableConfig
  | writeFailed
  | readOnlyConfig
  | changedConfig
  | noDependency (dependency : Text)
  | noPlatform (dependency platform : Text)
deriving DecidableEq

/-- The cloud, the files here and the config file, and how the next calls go. -/
structure Host (δ : Type) where
  cloud : Text → Option Text
  localFiles : Text → Option Text
  /-- `none` is a config file that cannot be read. -/
  disk : Option δ
  luck : List Luck

variable {δ : Type}

def url (bucket path : Text) : Text := "gs://".toList ++ bucket ++ '/' :: path

/-- The next call has been made. -/
def Host.next (h : Host δ) : Host δ := { h with luck := h.luck.tail }

/-- The next calls have this luck. -/
def Host.withLuck (h : Host δ) (luck : List Luck) : Host δ := { h with luck := luck }

def Host.nextLuck (h : Host δ) : Luck := h.luck.headD .works

/-- There is no file without a name. -/
def Host.readLocal (h : Host δ) (path : Text) : Option Text :=
  if path = [] then none else h.localFiles path

/-- `gsutil` with what it makes of the cloud, if it can. -/
def Host.gsutil (h : Host δ) (e : Failure) (effect : Option (Text → Option Text)) :
    Host δ × Option Failure :=
  match h.nextLuck, effect with
  | .works, some cloud => ({ h.next with cloud := cloud }, none)
  | .breaks, some cloud => ({ h.next with cloud := cloud }, some e)
  | _, _ => (h.next, some e)

/-- `cloud_storage.Exists` -/
def Host.exists (h : Host δ) (place : Text) : Host δ × Except Failure Bool :=
  match h.nextLuck with
  | .works => (h.next, .ok (h.cloud place).isSome)
  | _ => (h.next, .error (.listFailed place))

/-- `cloud_storage.Copy` -/
def Host.copy (h : Host δ) (source target : Text) : Host δ × Option Failure :=
  h.gsutil (.copyFailed source target)
    ((h.cloud source).map fun content => Function.update h.cloud target (some content))

/-- `cloud_storage.Insert` -/
def Host.insert (h : Host δ) (place localPath : Text) : Host δ × Option Failure :=
  h.gsutil (.insertFailed place)
    ((h.readLocal localPath).map fun content => Function.update h.cloud place (some content))

/-- `cloud_storage.Delete` -/
def Host.delete (h : Host δ) (place : Text) : Host δ × Option Failure :=
  h.gsutil (.deleteFailed place)
    (if (h.cloud place).isSome then some (Function.update h.cloud place none) else none)

/-! ## Section 2: The uploader -/

structure CloudStorageUploader where
  bucket : Text
  remotePath : Text
  localPath : Text
  backupPath : Option Text
  updated : Bool
  backedUp : Bool
deriving DecidableEq

def backupPathExtension : Text := "old".toList

/-- `CloudStorageUploader.__init__` -/
def CloudStorageUploader.init (h : Host δ) (bucket : Option Text)
    (remotePath localPath : Text) (backupPath : Option Text) :
    Except Failure CloudStorageUploader :=
  let bucket := bucket.getD []
  if bucket = [] ∨ remotePath = [] ∨ localPath = [] then .error .partialUpload
  else if h.readLocal localPath = none then .error (.noLocalFile localPath)
  else
    let backup :=
      match backupPath with
      | some (c :: path) => c :: path
      | _ => remotePath ++ '.' :: backupPathExtension
    .ok ⟨bucket, remotePath, localPath, some backup, false, false⟩

def CloudStorageUploader.place (u : CloudStorageUploader) : Text := url u.bucket u.remotePath

/-- `None` is a path as well when it is put into a text. -/
def CloudStorageUploader.backupPlace (u : CloudStorageUploader) : Text :=
  url u.bucket (u.backupPath.getD "None".toList)

/-- The second half of `Upload`. -/
def CloudStorageUploader.put (u : CloudStorageUploader) (h : Host δ) :
    Step CloudStorageUploader (Host δ) Failure :=
  match h.insert u.place u.localPath with
  | (h, some e) => ⟨u, h, some e⟩
  | (h, none) => ⟨{ u with updated := true }, h, none⟩

/-- `Upload` -/
def CloudStorageUploader.upload (force : Bool) (u : CloudStorageUploader) (h : Host δ) :
    Step CloudStorageUploader (Host δ) Failure :=
  match h.exists u.place with
  | (h, .error e) => ⟨u, h, some e⟩
  | (h, .ok false) => u.put h
  | (h, .ok true) =>
      if force then
        match h.copy u.place u.backupPlace with
        | (h, some e) => ⟨u, h, some e⟩
        | (h, none) => { u with backedUp := true }.put h
      else ⟨u, h, some (.uploadConflict u.bucket u.remotePath)⟩

/-- `Rollback`; the path of the backup is forgotten, the flag is not. -/
def CloudStorageUploader.rollback (u : CloudStorageUploader) (h : Host δ) :
    Step CloudStorageUploader (Host δ) Failure :=
  if u.backedUp then
    match h.copy u.backupPlace u.place with
    | (h, some e) => ⟨u, h, some e⟩
    | (h, none) => ⟨{ u with backupPath := none, updated := false }, h, none⟩
  else if u.updated then
    match h.delete u.place with
    | (h, some e) => ⟨u, h, some e⟩
    | (h, none) => ⟨{ u with updated := false }, h, none⟩
  else ⟨{ u with updated := false }, h, none⟩

/-- Uploading a list of files. -/
def uploads (force : Bool) : Jobs CloudStorageUploader (Host δ) Failure where
  act := CloudStorageUploader.upload force
  undo := CloudStorageUploader.rollback

/-! ## Section 3: What the methods do -/

/-- Nothing but the cloud has changed, and some calls have been made. -/
structure Host.Later (h h' : Host δ) : Prop where
  localFiles : h'.localFiles = h.localFiles
  disk : h'.disk = h.disk
  luck : h'.luck <:+ h.luck

theorem Host.Later.refl (h : Host δ) : h.Later h := ⟨rfl, rfl, List.suffix_rfl⟩

theorem Host.Later.trans {h₁ h₂ h₃ : Host δ} (h : h₁.Later h₂) (h' : h₂.Later h₃) : h₁.Later h₃ :=
  ⟨h'.localFiles.trans h.localFiles, h'.disk.trans h.disk, h'.luck.trans h.luck⟩

theorem Host.later_next (h : Host δ) (cloud : Text → Option Text) :
    h.Later { h.next with cloud := cloud } :=
  ⟨rfl, rfl, List.tail_suffix h.luck⟩

theorem Host.Later.readLocal {h h' : Host δ} (hl : h.Later h') (path : Text) :
    h'.readLocal path = h.readLocal path := by
  rw [Host.readLocal, hl.localFiles, Host.readLocal]

theorem Host.breaks_mem {h : Host δ} (hb : h.nextLuck = .breaks) : .breaks ∈ h.luck := by
  cases hluck : h.luck with
  | nil => simp [Host.nextLuck, hluck] at hb
  | cons l rest =>
    rw [Host.nextLuck, hluck] at hb
    rw [show l = .breaks from hb]
    exact List.mem_cons_self

/-- A command does nothing, works or breaks. -/
theorem Host.gsutil_cases (h : Host δ) (e : Failure) (effect : Option (Text → Option Text)) :
    ∃ h', h.Later h' ∧
      (h.gsutil e effect = (h', some e) ∧ h'.cloud = h.cloud ∨
        ∃ cloud, effect = some cloud ∧ h'.cloud = cloud ∧
          (h.gsutil e effect = (h', none) ∨
            .breaks ∈ h.luck ∧ h.gsutil e effect = (h', some e))) := by
  have hnext : h.Later h.next := h.later_next h.cloud
  unfold Host.gsutil
  cases hluck : h.nextLuck with
  | works =>
    cases effect with
    | none => exact ⟨_, hnext, Or.inl ⟨rfl, rfl⟩⟩
    | some cloud => exact ⟨_, h.later_next cloud, Or.inr ⟨cloud, rfl, rfl, Or.inl rfl⟩⟩
  | fails => exact ⟨_, hnext, Or.inl ⟨rfl, rfl⟩⟩
  | breaks =>
    cases effect with
    | none => exact ⟨_, hnext, Or.inl ⟨rfl, rfl⟩⟩
    | some cloud =>
      exact ⟨_, h.later_next cloud, Or.inr ⟨cloud, rfl, rfl, Or.inr ⟨Host.breaks_mem hluck, rfl⟩⟩⟩

theorem Host.copy_cases (h : Host δ) (source target : Text) :
    ∃ h', h.Later h' ∧
      (h.copy source target = (h', some (.copyFailed source target)) ∧ h'.cloud = h.cloud ∨
        ∃ content, h.cloud source = some content ∧
          h'.cloud = Function.update h.cloud target (some content) ∧
            (h.copy source target = (h', none) ∨
              .breaks ∈ h.luck ∧
                h.copy source target = (h', some (.copyFailed source target)))) := by
  obtain ⟨h', hlater, hrefused | ⟨cloud, heffect, hcloud, hdone⟩⟩ :=
    h.gsutil_cases (.copyFailed source target)
      ((h.cloud source).map fun content => Function.update h.cloud target (some content))
  · exact ⟨h', hlater, Or.inl hrefused⟩
  · obtain ⟨content, hcontent, rfl⟩ := Option.map_eq_some_iff.mp heffect
    exact ⟨h', hlater, Or.inr ⟨content, hcontent, hcloud, hdone⟩⟩

theorem Host.exists_cases (h : Host δ) (place : Text) :
    (∃ e, h.exists place = (h.next, .error e)) ∨
      h.exists place = (h.next, .ok (h.cloud place).isSome) := by
  unfold Host.exists
  cases h.nextLuck with
  | works => exact Or.inr rfl
  | fails => exact Or.inl ⟨_, rfl⟩
  | breaks => exact Or.inl ⟨_, rfl⟩

/-- What an upload can do; a call that breaks has its effect without a flag. -/
inductive UploadResult (force : Bool) (u : CloudStorageUploader) (h h' : Host δ) :
    CloudStorageUploader → Option Failure → Prop where
  | refused {e} (cloud : h'.cloud = h.cloud) : UploadResult force u h h' u (some e)
  | inserted {content} (free : h.cloud u.place = none)
      (content_eq : h.readLocal u.localPath = some content)
      (cloud : h'.cloud = Function.update h.cloud u.place (some content)) :
      UploadResult force u h h' { u with updated := true } none
  | insertBroke {e content} (free : h.cloud u.place = none) (broke : .breaks ∈ h.luck)
      (cloud : h'.cloud = Function.update h.cloud u.place (some content)) :
      UploadResult force u h h' u (some e)
  | copyBroke {e old} (forced : force = true) (found : h.cloud u.place = some old)
      (broke : .breaks ∈ h.luck)
      (cloud : h'.cloud = Function.update h.cloud u.backupPlace (some old)) :
      UploadResult force u h h' u (some e)
  | copied {e old} (forced : force = true) (found : h.cloud u.place = some old)
      (cloud : h'.cloud = Function.update h.cloud u.backupPlace (some old)) :
      UploadResult force u h h' { u with backedUp := true } (some e)
  | replaced {old content} (forced : force = true) (found : h.cloud u.place = some old)
      (content_eq : h.readLocal u.localPath = some content)
      (cloud : h'.cloud = Function.update (Function.update h.cloud u.backupPlace (some old))
        u.place (some content)) :
      UploadResult force u h h' { u with backedUp := true, updated := true } none
  | replaceBroke {e old content} (forced : force = true) (found : h.cloud u.place = some old)
      (broke : .breaks ∈ h.luck)
      (cloud : h'.cloud = Function.update (Function.update h.cloud u.backupPlace (some old))
        u.place (some content)) :
      UploadResult force u h h' { u with backedUp := true } (some e)

/-- What the second half of an upload can do. -/
theorem put_cases (u : CloudStorageUploader) (h : Host δ) :
    h.Later (u.put h).state ∧
      ((u.put h).item = u ∧ (u.put h).error.isSome ∧ (u.put h).state.cloud = h.cloud ∨
        ∃ content, h.readLocal u.localPath = some content ∧
          (u.put h).state.cloud = Function.update h.cloud u.place (some content) ∧
            ((u.put h).item = { u with updated := true } ∧ (u.put h).error = none ∨
              (u.put h).item = u ∧ (u.put h).error.isSome ∧ .breaks ∈ h.luck)) := by
  rw [CloudStorageUploader.put, Host.insert]
  obtain ⟨h', hlater, ⟨heq, hcloud⟩ | ⟨cloud, heffect, hcloud, hdone⟩⟩ :=
    h.gsutil_cases (.insertFailed u.place) ((h.readLocal u.localPath).map fun content =>
      Function.update h.cloud u.place (some content))
  · rw [heq]
    exact ⟨hlater, Or.inl ⟨rfl, rfl, hcloud⟩⟩
  · obtain ⟨content, hcontent, rfl⟩ := Option.map_eq_some_iff.mp heffect
    rcases hdone with heq | ⟨hbroke, heq⟩
    · rw [heq]
      exact ⟨hlater, Or.inr ⟨content, hcontent, hcloud, Or.inl ⟨rfl, rfl⟩⟩⟩
    · rw [heq]
      exact ⟨hlater, Or.inr ⟨content, hcontent, hcloud, Or.inr ⟨rfl, rfl, hbroke⟩⟩⟩

/-- All that an upload can do. -/
theorem upload_cases (force : Bool) (u : CloudStorageUploader) (h : Host δ) :
    h.Later (u.upload force h).state ∧
      UploadResult force u h (u.upload force h).state (u.upload force h).item
        (u.upload force h).error := by
  have hnext : h.Later h.next := h.later_next h.cloud
  have hbroke : .breaks ∈ h.next.luck → .breaks ∈ h.luck := fun hb => hnext.luck.mem hb
  unfold CloudStorageUploader.upload
  rcases h.exists_cases u.place with ⟨e, heq⟩ | heq
  · rw [heq]
    exact ⟨hnext, .refused rfl⟩
  · cases hfound : h.cloud u.place with
    | none =>
      rw [heq, hfound]
      obtain ⟨hlater, ⟨hitem, herror, hcloud⟩ | ⟨content, hcontent, hcloud, hput⟩⟩ :=
        put_cases u h.next
      · refine ⟨hnext.trans hlater, ?_⟩
        obtain ⟨e, he⟩ := Option.isSome_iff_exists.mp herror
        simp only [Option.isSome_none, hitem, he]
        exact .refused hcloud
      · refine ⟨hnext.trans hlater, ?_⟩
        rcases hput with ⟨hitem, herror⟩ | ⟨hitem, herror, hb⟩
        · simp only [Option.isSome_none, hitem, herror]
          exact .inserted hfound hcontent hcloud
        · obtain ⟨e, he⟩ := Option.isSome_iff_exists.mp herror
          simp only [Option.isSome_none, hitem, he]
          exact .insertBroke hfound (hbroke hb) hcloud
    | some old =>
      rw [heq, hfound]
      cases force with
      | false => exact ⟨hnext, .refused rfl⟩
      | true =>
        simp only [Option.isSome_some, if_true]
        obtain ⟨h', hlater, ⟨heq, hcloud⟩ | ⟨content, hcontent, hcopied, hdone⟩⟩ :=
          h.next.copy_cases u.place u.backupPlace
        · rw [heq]
          exact ⟨hnext.trans hlater, .refused hcloud⟩
        · obtain rfl : old = content := Option.some.inj (hfound.symm.trans hcontent)
          rcases hdone with heq | ⟨hb, heq⟩
          · rw [heq]
            obtain ⟨hlater', ⟨hitem, herror, hcloud⟩ | ⟨content', hcontent', hcloud, hput⟩⟩ :=
              put_cases { u with backedUp := true } h'
            · refine ⟨hnext.trans (hlater.trans hlater'), ?_⟩
              obtain ⟨e, he⟩ := Option.isSome_iff_exists.mp herror
              simp only [hitem, he]
              exact .copied rfl hfound (hcloud.trans hcopied)
            · refine ⟨hnext.trans (hlater.trans hlater'), ?_⟩
              rw [hlater.readLocal] at hcontent'
              rw [hcopied] at hcloud
              rcases hput with ⟨hitem, herror⟩ | ⟨hitem, herror, hb⟩
              · simp only [hitem, herror]
                exact .replaced rfl hfound hcontent' hcloud
              · obtain ⟨e, he⟩ := Option.isSome_iff_exists.mp herror
                simp only [hitem, he]
                exact .replaceBroke rfl hfound (hbroke (hlater.luck.mem hb)) hcloud
          · rw [heq]
            exact ⟨hnext.trans hlater, .copyBroke rfl hfound (hbroke hb) hcopied⟩

/-- What taking back can do. -/
inductive RollbackResult (u : CloudStorageUploader) (h h' : Host δ) :
    CloudStorageUploader → Option Failure → Prop where
  | refused {e} (cloud : h'.cloud = h.cloud) : RollbackResult u h h' u (some e)
  | copiedBack {content} (backedUp : u.backedUp = true)
      (found : h.cloud u.backupPlace = some content)
      (cloud : h'.cloud = Function.update h.cloud u.place (some content)) :
      RollbackResult u h h' { u with backupPath := none, updated := false } none
  | copyBroke {e content} (backedUp : u.backedUp = true)
      (cloud : h'.cloud = Function.update h.cloud u.place (some content)) :
      RollbackResult u h h' u (some e)
  | deleted (inserted : u.backedUp = false ∧ u.updated = true)
      (cloud : h'.cloud = Function.update h.cloud u.place none) :
      RollbackResult u h h' { u with updated := false } none
  | deleteBroke {e} (inserted : u.backedUp = false ∧ u.updated = true)
      (cloud : h'.cloud = Function.update h.cloud u.place none) :
      RollbackResult u h h' u (some e)
  | skipped (untouched : u.backedUp = false ∧ u.updated = false) (cloud : h'.cloud = h.cloud) :
      RollbackResult u h h' { u with updated := false } none

/-- All that taking back can do. -/
theorem rollback_cases (u : CloudStorageUploader) (h : Host δ) :
    h.Later (u.rollback h).state ∧
      RollbackResult u h (u.rollback h).state (u.rollback h).item (u.rollback h).error := by
  unfold CloudStorageUploader.rollback
  rcases Bool.eq_false_or_eq_true u.backedUp with hb | hb
  · rw [if_pos hb]
    obtain ⟨h', hlater, ⟨heq, hcloud⟩ | ⟨content, hcontent, hcopied, heq | ⟨-, heq⟩⟩⟩ :=
      h.copy_cases u.backupPlace u.place
    · rw [heq]
      exact ⟨hlater, .refused hcloud⟩
    · rw [heq]
      exact ⟨hlater, .copiedBack hb hcontent hcopied⟩
    · rw [heq]
      exact ⟨hlater, .copyBroke hb hcopied⟩
  · rw [if_neg (ne_true_of_eq_false hb)]
    rcases Bool.eq_false_or_eq_true u.updated with hupdated | hupdated
    · rw [if_pos hupdated, Host.delete]
      obtain ⟨h', hlater, ⟨heq, hcloud⟩ | ⟨cloud, heffect, hcloud, hdone⟩⟩ :=
        h.gsutil_cases (.deleteFailed u.place)
          (if (h.cloud u.place).isSome then some (Function.update h.cloud u.place none) else none)
      · rw [heq]
        exact ⟨hlater, .refused hcloud⟩
      · have hgone : cloud = Function.update h.cloud u.place none := by
          split at heffect
          · exact (Option.some.inj heffect).symm
          · cases heffect
        rcases hdone with heq | ⟨-, heq⟩
        · rw [heq]
          exact ⟨hlater, .deleted ⟨hb, hupdated⟩ (hcloud.trans hgone)⟩
        · rw [heq]
          exact ⟨hlater, .deleteBroke ⟨hb, hupdated⟩ (hcloud.trans hgone)⟩
    · rw [if_neg (ne_true_of_eq_false hupdated)]
      exact ⟨Host.Later.refl h, .skipped ⟨hb, hupdated⟩ rfl⟩

/-- What is raised when an upload cannot be taken back. -/
def RollbackFailed (us : List CloudStorageUploader) (e : Failure) : Prop :=
  ∃ u ∈ us, e = .copyFailed u.backupPlace u.place ∨ e = .deleteFailed u.place

theorem rollback_error {u : CloudStorageUploader} {h : Host δ} {e : Failure}
    (he : (u.rollback h).error = some e) :
    u.backedUp = true ∧ e = .copyFailed u.backupPlace u.place ∨ e = .deleteFailed u.place := by
  unfold CloudStorageUploader.rollback at he
  split at he
  · rename_i hb
    obtain ⟨h', -, ⟨heq, -⟩ | ⟨_, -, -, heq | ⟨-, heq⟩⟩⟩ := h.copy_cases u.backupPlace u.place
    · rw [heq] at he
      exact Or.inl ⟨hb, (Option.some.inj he).symm⟩
    · rw [heq] at he
      cases he
    · rw [heq] at he
      exact Or.inl ⟨hb, (Option.some.inj he).symm⟩
  · split at he
    · rw [Host.delete] at he
      obtain ⟨h', -, ⟨heq, -⟩ | ⟨_, -, -, heq | ⟨-, heq⟩⟩⟩ :=
        h.gsutil_cases (.deleteFailed u.place)
          (if (h.cloud u.place).isSome then some (Function.update h.cloud u.place none) else none)
      · rw [heq] at he
        exact Or.inr (Option.some.inj he).symm
      · rw [heq] at he
        cases he
      · rw [heq] at he
        exact Or.inr (Option.some.inj he).symm
    · cases he

theorem uploads_later (force : Bool) (h : Host δ) :
    (uploads force).Keeps (fun h' : Host δ => h.Later h') fun _ _ => True where
  act := fun hl _ => ⟨hl.trans (upload_cases force _ _).1, trivial⟩
  act_other := fun _ _ => trivial
  undo := fun hl _ => ⟨hl.trans (rollback_cases _ _).1, trivial⟩
  undo_other := fun _ _ => trivial

theorem later_actAll (force : Bool) (us : List CloudStorageUploader) (h : Host δ) :
    h.Later ((uploads force).actAll us h).state :=
  ((uploads_later force h).actAll (Host.Later.refl h) fun _ _ => trivial).1

theorem later_undoAll (force : Bool) (us : List CloudStorageUploader) (h : Host δ) :
    h.Later ((uploads force).undoAll us h).state :=
  ((uploads_later force h).undoAll (Host.Later.refl h) fun _ _ => trivial).1

end Udroid.Dependency
