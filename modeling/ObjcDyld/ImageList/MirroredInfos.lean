import Mathlib

/-!
# The image lists for debuggers

`AllImages::mirrorToOldAllImageInfos` copies the list of loaded images into two arrays that other
processes read.  The second one is only written again when the number of images outside the shared
cache is no longer the one that was written.
-/

namespace ObjcDyld.ImageList.MirroredInfos

/-- A `LoadedImage`, with what its header and its closure image say. -/
structure LoadedImage where
  loadedAddress : BitVec 64
  imagePath : String
  uuid : BitVec 128
  inDyldCache : Bool
  deriving DecidableEq

/-- `dyld_image_info` -/
structure ImageInfo where
  imageLoadAddress : BitVec 64
  imageFilePath : String
  imageFileModDate : ℕ
  deriving DecidableEq

/-- `dyld_uuid_info` -/
structure UuidInfo where
  imageLoadAddress : BitVec 64
  imageUUID : BitVec 128
  deriving DecidableEq

def LoadedImage.info (li : LoadedImage) : ImageInfo := ⟨li.loadedAddress, li.imagePath, 0⟩

def LoadedImage.uuidInfo (li : LoadedImage) : UuidInfo := ⟨li.loadedAddress, li.uuid⟩

/-- Write entries into an array from an index on; an entry is `none` before it is written. -/
def fill {α : Type} (array : List (Option α)) (index : ℕ) : List α → List (Option α)
  | [] => array
  | entry :: entries => fill (array.set index (some entry)) (index + 1) entries

/-- The list of images and the two arrays, each as long as its allocation. -/
structure AllImages where
  loadedImages : List LoadedImage
  /-- dyld itself. -/
  dyld : UuidInfo
  oldAllImageArray : List (Option ImageInfo)
  infoArrayCount : ℕ
  oldUUIDArray : List (Option UuidInfo)
  uuidArrayCount : ℕ

def nonCached (images : List LoadedImage) : List LoadedImage := images.filter fun li => !li.inDyldCache

namespace AllImages

variable (all : AllImages)

/-- The first part of `mirrorToOldAllImageInfos`. -/
def mirrorInfos : AllImages :=
  let imageCount := all.loadedImages.length
  let array :=
    if all.oldAllImageArray.length < imageCount then
      List.takeD (imageCount + 16) (all.oldAllImageArray.take all.infoArrayCount) none
    else all.oldAllImageArray
  { all with
    oldAllImageArray := fill array 0 (all.loadedImages.map LoadedImage.info)
    infoArrayCount := imageCount }

/-- The second part. -/
def mirrorUuids : AllImages :=
  let nonCachedCount := 1 + (nonCached all.loadedImages).length
  if nonCachedCount = all.uuidArrayCount then all
  else
    let array :=
      if all.oldUUIDArray.length < nonCachedCount then
        -- round up to multiple of 4
        List.replicate ((nonCachedCount + 3) / 4 * 4) none
      else all.oldUUIDArray
    { all with
      oldUUIDArray := fill array 0 (all.dyld :: (nonCached all.loadedImages).map LoadedImage.uuidInfo)
      uuidArrayCount := nonCachedCount }

def mirrorToOldAllImageInfos : AllImages := all.mirrorInfos.mirrorUuids

/-- What `addImages` does to the list of images. -/
def addImages (newImages : List LoadedImage) : AllImages :=
  { all with loadedImages := all.loadedImages ++ newImages }

/-- What `removeImages` does to the list of images. -/
def eraseImages (unloadImages : List LoadedImage) : AllImages :=
  { all with
    loadedImages := unloadImages.foldl
      (fun images uli => images.eraseP fun li => uli.loadedAddress == li.loadedAddress) all.loadedImages }

def removeImages (unloadImages : List LoadedImage) : AllImages :=
  (all.eraseImages unloadImages).mirrorToOldAllImageInfos

end AllImages

/-! ## Runs -/

inductive Step where
  | addImages (newImages : List LoadedImage)
  | removeImages (unloadImages : List LoadedImage)
  /-- A call of `mirrorToOldAllImageInfos` by another function. -/
  | mirror

/-- Whether a step ends with a mirror. -/
def Step.mirrors : Step → Bool
  | .addImages _ => false
  | .removeImages _ | .mirror => true

def Step.images : Step → List LoadedImage → List LoadedImage
  | .addImages newImages, images => images ++ newImages
  | .removeImages unloadImages, images =>
      unloadImages.foldl (fun images uli => images.eraseP fun li => uli.loadedAddress == li.loadedAddress) images
  | .mirror, images => images

namespace AllImages

variable (all : AllImages)

def step : Step → AllImages
  | .addImages newImages => all.addImages newImages
  | .removeImages unloadImages => all.removeImages unloadImages
  | .mirror => all.mirrorToOldAllImageInfos

/-- The states right after the mirrors of a run. -/
def mirrored (all : AllImages) : List Step → List AllImages
  | [] => []
  | step :: steps =>
      let next := all.step step
      if step.mirrors then next :: mirrored next steps else mirrored next steps

/-- What `uuidArray` is to list. -/
def uuidsOf (dyld : UuidInfo) (images : List LoadedImage) : List UuidInfo :=
  dyld :: (nonCached images).map LoadedImage.uuidInfo

/-- `infoArray` lists some infos. -/
def ListsInfos (infos : List ImageInfo) : Prop :=
  all.infoArrayCount = infos.length ∧ all.oldAllImageArray.take infos.length = infos.map some

/-- `uuidArray` lists some infos. -/
def ListsUuids (uuids : List UuidInfo) : Prop :=
  all.uuidArrayCount = uuids.length ∧ all.oldUUIDArray.take uuids.length = uuids.map some

/-- Both arrays list what is loaded. -/
structure InSync : Prop where
  infos : all.ListsInfos (all.loadedImages.map LoadedImage.info)
  uuids : all.ListsUuids (uuidsOf all.dyld all.loadedImages)

end AllImages

/-- The lists for `uuidArray` at the mirrors of a run. -/
def uuidLists (dyld : UuidInfo) (images : List LoadedImage) : List Step → List (List UuidInfo)
  | [] => []
  | step :: steps =>
      let next := step.images images
      if step.mirrors then AllImages.uuidsOf dyld next :: uuidLists dyld next steps else uuidLists dyld next steps

/-- A list that is the same as the one before or has another length. -/
def Noticed (seen now : List UuidInfo) : Prop := now = seen ∨ now.length ≠ seen.length

/-! ## Filling an array -/

variable {α : Type} {array : List (Option α)} {entries : List α} {index : ℕ}

theorem fill_take (room : index + entries.length ≤ array.length) :
    (fill array index entries).take (index + entries.length) = array.take index ++ entries.map some := by
  induction entries generalizing array index with
  | nil => simp [fill]
  | cons entry entries ih =>
      rw [List.length_cons] at room
      have inside : index < array.length := by omega
      have later : (fill (array.set index (some entry)) (index + 1) entries).take (index + 1 + entries.length) =
          (array.set index (some entry)).take (index + 1) ++ entries.map some := by
        apply ih
        rw [List.length_set]
        omega
      rw [fill, List.length_cons, show index + (entries.length + 1) = index + 1 + entries.length by omega, later,
        List.map_cons, List.take_add_one, List.getElem?_set_self inside, List.take_set_of_le le_rfl]
      simp

theorem fill_lists (room : entries.length ≤ array.length) :
    (fill array 0 entries).take entries.length = entries.map some := by
  have filled : (fill array 0 entries).take (0 + entries.length) = array.take 0 ++ entries.map some :=
    fill_take (by rwa [Nat.zero_add])
  rwa [Nat.zero_add, List.take_zero, List.nil_append] at filled

/-! ## One mirror -/

namespace AllImages

variable {all : AllImages} {seen : List UuidInfo}

theorem ListsUuids.unique {uuids others : List UuidInfo} (lists : all.ListsUuids uuids) (other : all.ListsUuids others) :
    uuids = others := by
  have length : uuids.length = others.length := lists.1.symm.trans other.1
  have contents : uuids.map some = others.map some := by rw [← lists.2, ← other.2, length]
  exact List.map_injective_iff.2 (Option.some_injective _) contents

theorem mirrorInfos_lists (all : AllImages) : all.mirrorInfos.ListsInfos (all.loadedImages.map LoadedImage.info) := by
  refine ⟨(List.length_map _).symm, ?_⟩
  apply fill_lists
  rw [List.length_map]
  split
  · rw [List.takeD_length]
    omega
  · rename_i enough
    exact Nat.le_of_not_lt enough

theorem mirrorUuids_lists (lists : all.ListsUuids seen) :
    all.mirrorUuids.ListsUuids
      (if (uuidsOf all.dyld all.loadedImages).length = seen.length then seen else uuidsOf all.dyld all.loadedImages) := by
  have count : 1 + (nonCached all.loadedImages).length = (uuidsOf all.dyld all.loadedImages).length := by
    rw [uuidsOf, List.length_cons, List.length_map, Nat.add_comm]
  rw [mirrorUuids, lists.1, count]
  split
  · exact lists
  · refine ⟨rfl, ?_⟩
    apply fill_lists
    split
    · rw [List.length_replicate, uuidsOf]
      omega
    · rename_i enough
      exact Nat.le_of_not_lt enough

theorem mirrorUuids_infos (all : AllImages) :
    all.mirrorUuids.infoArrayCount = all.infoArrayCount ∧ all.mirrorUuids.oldAllImageArray = all.oldAllImageArray := by
  simp only [mirrorUuids]
  split
  · exact ⟨rfl, rfl⟩
  · exact ⟨rfl, rfl⟩

@[simp] theorem mirror_loadedImages (all : AllImages) : all.mirrorToOldAllImageInfos.loadedImages = all.loadedImages := by
  simp only [mirrorToOldAllImageInfos, mirrorUuids]
  split <;> rfl

@[simp] theorem mirror_dyld (all : AllImages) : all.mirrorToOldAllImageInfos.dyld = all.dyld := by
  simp only [mirrorToOldAllImageInfos, mirrorUuids]
  split <;> rfl

theorem mirror_infos (all : AllImages) :
    all.mirrorToOldAllImageInfos.ListsInfos (all.loadedImages.map LoadedImage.info) := by
  obtain ⟨count, array⟩ := mirrorUuids_infos all.mirrorInfos
  rw [ListsInfos, mirrorToOldAllImageInfos, count, array]
  exact mirrorInfos_lists all

theorem mirror_uuids (lists : all.ListsUuids seen) :
    all.mirrorToOldAllImageInfos.ListsUuids
      (if (uuidsOf all.dyld all.loadedImages).length = seen.length then seen else uuidsOf all.dyld all.loadedImages) :=
  @mirrorUuids_lists all.mirrorInfos seen lists

theorem mirror_inSync_iff (lists : all.ListsUuids seen) :
    all.mirrorToOldAllImageInfos.InSync ↔ Noticed seen (uuidsOf all.dyld all.loadedImages) := by
  have shown := mirror_uuids lists
  constructor
  · intro sync
    have same := shown.unique sync.uuids
    rw [mirror_dyld, mirror_loadedImages] at same
    split at same
    · exact .inl same.symm
    · rename_i longer
      exact .inr longer
  · intro noticed
    refine ⟨by rw [mirror_loadedImages]; exact mirror_infos all, ?_⟩
    rw [mirror_dyld, mirror_loadedImages]
    rcases noticed with same | longer
    · rw [same, if_pos rfl] at shown
      rwa [same]
    · rwa [if_neg longer] at shown

/-! ## Whole runs -/

theorem step_spec (all : AllImages) (step : Step) :
    ∃ before : AllImages, before.loadedImages = step.images all.loadedImages ∧ before.dyld = all.dyld ∧
      (∀ uuids, all.ListsUuids uuids → before.ListsUuids uuids) ∧
      all.step step = if step.mirrors then before.mirrorToOldAllImageInfos else before := by
  cases step with
  | addImages newImages => exact ⟨all.addImages newImages, rfl, rfl, fun _ lists => lists, rfl⟩
  | removeImages unloadImages => exact ⟨all.eraseImages unloadImages, rfl, rfl, fun _ lists => lists, rfl⟩
  | mirror => exact ⟨all, rfl, rfl, fun _ lists => lists, rfl⟩

theorem mirrored_iff (steps : List Step) (lists : all.ListsUuids seen) :
    (∀ after ∈ all.mirrored steps, after.InSync) ↔
      List.IsChain Noticed (seen :: uuidLists all.dyld all.loadedImages steps) := by
  induction steps generalizing all seen with
  | nil => simp [mirrored, uuidLists]
  | cons step steps ih =>
      obtain ⟨before, images, dyld, kept, next⟩ := step_spec all step
      have shown : before.ListsUuids seen := kept seen lists
      rw [mirrored, uuidLists, next, ← images, ← dyld]
      cases mirrors : step.mirrors with
      | false => exact ih shown
      | true =>
          simp only [if_true, List.forall_mem_cons, List.isChain_cons_cons, mirror_inSync_iff shown]
          refine and_congr_right fun noticed => ?_
          have sync := (mirror_inSync_iff shown).2 noticed
          have later := ih sync.uuids
          rwa [mirror_dyld, mirror_loadedImages] at later

/-- From a mirrored state on, every mirror of a run is in sync exactly when each list for the second array is the same
as at the mirror before, or has another length. -/
theorem mirrored_inSync_iff (all : AllImages) (steps : List Step) (start : all.InSync) :
    (∀ after ∈ all.mirrored steps, after.InSync) ↔
      List.IsChain Noticed (uuidsOf all.dyld all.loadedImages :: uuidLists all.dyld all.loadedImages steps) :=
  mirrored_iff steps start.uuids

end AllImages

/-- A mirrored state with one image outside of the shared cache. -/
def oneImage : AllImages where
  loadedImages := [⟨0x10000, "/bin/a", 1, false⟩]
  dyld := ⟨0x1000, 0⟩
  oldAllImageArray := [some ⟨0x10000, "/bin/a", 0⟩]
  infoArrayCount := 1
  oldUUIDArray := [some ⟨0x1000, 0⟩, some ⟨0x10000, 1⟩]
  uuidArrayCount := 2

theorem oneImage_inSync : oneImage.InSync := ⟨⟨rfl, rfl⟩, ⟨rfl, rfl⟩⟩

/-- Another image is added, and the first one is removed. -/
def replaceImage : List Step :=
  [.addImages [⟨0x20000, "/bin/b", 2, false⟩], .removeImages [⟨0x10000, "/bin/a", 1, false⟩]]

theorem replaceImage_inSync_iff :
    (∀ after ∈ oneImage.mirrored replaceImage, after.InSync) ↔
      List.IsChain Noticed
        (AllImages.uuidsOf oneImage.dyld oneImage.loadedImages ::
          uuidLists oneImage.dyld oneImage.loadedImages replaceImage) :=
  AllImages.mirrored_inSync_iff oneImage replaceImage oneImage_inSync

/-- The second array still lists the image that is gone. -/
theorem replaceImage_not_inSync : ¬ ∀ after ∈ oneImage.mirrored replaceImage, after.InSync := by
  intro sync
  have last := sync _ (List.mem_singleton_self _)
  exact absurd last.uuids.2 (by decide)

end ObjcDyld.ImageList.MirroredInfos
