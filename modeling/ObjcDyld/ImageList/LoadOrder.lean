import ObjcDyld.ImageList.Dependents

/-!
# The load order

`ClosureBuilder::buildLoadOrder` lists the images of a closure: an image puts the images that it links to and that are not in
the list yet behind the list, and then each of these does the same.
-/

namespace ObjcDyld.ImageList

open Closures (LinkedImage kMissingWeakLinkedImage)
open TopDown (Config Steps never scan)

/-- `ImageArray`.  The numbers of images in an array without roots follow each other. -/
structure ImageArray where
  firstImageNum : BitVec 32
  hasRoots : Bool
  images : List LinkingImage
  numbered : hasRoots = false → ∀ index (inside : index < images.length),
    images[index].imageNum = firstImageNum + BitVec.ofNat 32 index

/-- `ImageArray::imageForNum` -/
def ImageArray.imageForNum (array : ImageArray) (num : BitVec 32) : Option LinkingImage :=
  if array.hasRoots then array.images.find? fun image => image.imageNum == num
  else if num < array.firstImageNum then none
  else array.images[(num - array.firstImageNum).toNat]?

/-- `ImageArray::findImage` -/
def findImage (imagesArrays : List ImageArray) (imageNum : BitVec 32) : Option LinkingImage :=
  imagesArrays.findSome? fun array => array.imageForNum imageNum

/-- `ClosureBuilder::inLoadedImageArray` -/
def inLoadedImageArray (loadedList : List LinkingImage) (imageNum : BitVec 32) : Bool :=
  loadedList.any fun image => image.representsImageNum imageNum

/-- The size of `needToRecurse`. -/
def maxNeedToRecurse : ℕ := 256

/-- The loop of `forEachDependentImage` with the block of `buildLoadOrderRecurse`, on the rest of the links.  `none` for an
array that is full, or a missing image, which is a null pointer that the next look at it follows. -/
def pushDependents (imagesArrays : List ImageArray) (maxCount : ℕ) :
    List LinkedImage → List LinkingImage → List LinkingImage → Option (List LinkingImage × List LinkingImage)
  | [], loadedList, needToRecurse => some (loadedList, needToRecurse)
  | dependent :: rest, loadedList, needToRecurse =>
      let depImageNum := dependent.imageNum.setWidth 32
      -- ignore missing weak links
      if dependent.imageNum = kMissingWeakLinkedImage ∧ dependent.kind = .weak then
        pushDependents imagesArrays maxCount rest loadedList needToRecurse
      else if inLoadedImageArray loadedList depImageNum then
        pushDependents imagesArrays maxCount rest loadedList needToRecurse
      else
        match findImage imagesArrays depImageNum with
        | none => none
        | some depImage =>
            if loadedList.length < maxCount ∧ needToRecurse.length < maxNeedToRecurse then
              pushDependents imagesArrays maxCount rest (loadedList ++ [depImage]) (needToRecurse ++ [depImage])
            else none

/-- `ClosureBuilder::buildLoadOrderRecurse`, to a bounded depth. -/
def buildLoadOrderRecurse (imagesArrays : List ImageArray) (maxCount : ℕ) :
    ℕ → List LinkingImage → LinkingImage → Option (List LinkingImage)
  | 0, _, _ => none
  | depth + 1, loadedList, image => do
      let (loadedList, needToRecurse) ← pushDependents imagesArrays maxCount image.dependents loadedList []
      needToRecurse.foldlM (buildLoadOrderRecurse imagesArrays maxCount depth) loadedList

/-- `ClosureBuilder::buildLoadOrder` with an empty list that has room for `maxCount` images. -/
def buildLoadOrder (imagesArrays : List ImageArray) (maxCount depth : ℕ) (topImageNum : BitVec 32) : Option (List LinkingImage) := do
  let topImage ← findImage imagesArrays topImageNum
  if 0 < maxCount then buildLoadOrderRecurse imagesArrays maxCount depth [topImage] topImage else none

/-! ## What is meant -/

/-- The numbers that the links of an image lead to, without missing weak links. -/
def linkedNums (dependents : List LinkedImage) : List (BitVec 32) :=
  (dependents.filter fun dependent => ¬(dependent.imageNum = kMissingWeakLinkedImage ∧ dependent.kind = .weak)).map
    fun dependent => dependent.imageNum.setWidth 32

/-- The numbers of the direct dependents of an image. -/
def links (imagesArrays : List ImageArray) (num : BitVec 32) : List (BitVec 32) :=
  match findImage imagesArrays num with
  | some image => linkedNums image.dependents
  | none => []

/-- An image is the top image, or is reached from it through links. -/
def IsLinked (imagesArrays : List ImageArray) : BitVec 32 → BitVec 32 → Prop :=
  Relation.ReflTransGen fun above below => below ∈ links imagesArrays above

/-- What is loaded when images that are loaded put their dependents that are not behind the list, in the order of the links. -/
inductive Visits (imagesArrays : List ImageArray) : List (BitVec 32) → List (BitVec 32) → List (BitVec 32) → Prop where
  | nil {loaded : List (BitVec 32)} : Visits imagesArrays loaded [] loaded
  | cons {loaded visits final : List (BitVec 32)} {num : BitVec 32} (inside : num ∈ loaded)
      (rest : Visits imagesArrays (loaded ++ ((links imagesArrays num).filter (· ∉ loaded)).eraseDups) visits final) :
      Visits imagesArrays loaded (num :: visits) final

structure IsLoadOrder (imagesArrays : List ImageArray) (topImageNum : BitVec 32) (loadedList : List LinkingImage) : Prop where
  images : ∀ image ∈ loadedList, findImage imagesArrays image.imageNum = some image
  first : (loadedList.map LinkingImage.imageNum).head? = some topImageNum
  once : (loadedList.map LinkingImage.imageNum).Nodup
  complete : ∀ num, num ∈ loadedList.map LinkingImage.imageNum ↔ IsLinked imagesArrays topImageNum num
  grouped : ∃ visits, Visits imagesArrays [topImageNum] visits (loadedList.map LinkingImage.imageNum) ∧
    visits.Perm (loadedList.map LinkingImage.imageNum)

/-- All links lead to images, the list has room for them, and an image that is visited has at most 256 dependents that are
not in the list yet. -/
structure Loadable (imagesArrays : List ImageArray) (maxCount : ℕ) (topImageNum : BitVec 32) : Prop where
  found : ∀ num, IsLinked imagesArrays topImageNum num → (findImage imagesArrays num).isSome
  room : ∀ nums : List (BitVec 32), nums.Nodup → (∀ num ∈ nums, IsLinked imagesArrays topImageNum num) → nums.length ≤ maxCount
  narrow : ∀ config, Steps (links imagesArrays) never (.start topImageNum) config → config.widest ≤ maxNeedToRecurse

def NoOverrides (imagesArrays : List ImageArray) : Prop :=
  ∀ array ∈ imagesArrays, ∀ image ∈ array.images, image.cacheImageNum = none

/-! ## Finding images -/

section Find

variable {imagesArrays : List ImageArray} {num : BitVec 32} {image : LinkingImage}

theorem imageForNum_spec {array : ImageArray} (found : array.imageForNum num = some image) :
    image.imageNum = num ∧ image ∈ array.images := by
  rw [ImageArray.imageForNum] at found
  split at found
  · exact ⟨by simpa using List.find?_some found, List.mem_of_find?_eq_some found⟩
  · next numbered =>
      split at found
      · cases found
      · next reached =>
          obtain ⟨inside, rfl⟩ := List.getElem?_eq_some_iff.1 found
          refine ⟨?_, List.getElem_mem inside⟩
          rw [array.numbered (by simpa using numbered), BitVec.ofNat_toNat, BitVec.setWidth_eq, BitVec.add_comm, BitVec.sub_add_cancel]

theorem findImage_spec (found : findImage imagesArrays num = some image) :
    image.imageNum = num ∧ ∃ array ∈ imagesArrays, image ∈ array.images := by
  obtain ⟨array, member, here⟩ := List.exists_of_findSome?_eq_some found
  obtain ⟨same, inside⟩ := imageForNum_spec here
  exact ⟨same, array, member, inside⟩

/-- The images in the list are those that are found under their numbers. -/
def Found (imagesArrays : List ImageArray) (loadedList : List LinkingImage) : Prop :=
  ∀ image ∈ loadedList, findImage imagesArrays image.imageNum = some image

theorem inLoadedImageArray_iff {loadedList : List LinkingImage} (noOverrides : NoOverrides imagesArrays)
    (found : Found imagesArrays loadedList) :
    inLoadedImageArray loadedList num = true ↔ num ∈ loadedList.map LinkingImage.imageNum := by
  rw [inLoadedImageArray, List.any_eq_true, List.mem_map]
  refine exists_congr fun image => and_congr_right fun member => ?_
  obtain ⟨-, array, inside, here⟩ := findImage_spec (found image member)
  rw [LinkingImage.representsImageNum, noOverrides array inside image here]
  split
  · next same => exact iff_of_true rfl (by simpa using same)
  · next other =>
      refine iff_of_false ?_ (by simpa using other)
      split
      · exact Bool.false_ne_true
      · split
        · exact Bool.false_ne_true
        · exact Bool.false_ne_true

end Find

/-! ## The walk -/

section Walk

variable {imagesArrays : List ImageArray} {maxCount : ℕ} {loadedList needToRecurse : List LinkingImage} {num : BitVec 32}
  {image : LinkingImage} {config : Config (BitVec 32)} {waiting : List (BitVec 32)}

/-- The images that are found under numbers. -/
def imagesOf (imagesArrays : List ImageArray) (nums : List (BitVec 32)) : List LinkingImage := nums.filterMap (findImage imagesArrays)

theorem imageNum_imagesOf {nums : List (BitVec 32)} (found : ∀ num ∈ nums, (findImage imagesArrays num).isSome) :
    (imagesOf imagesArrays nums).map LinkingImage.imageNum = nums ∧ Found imagesArrays (imagesOf imagesArrays nums) := by
  constructor
  · induction nums with
    | nil => rfl
    | cons num nums ih =>
        obtain ⟨here, rest⟩ := List.forall_mem_cons.1 found
        obtain ⟨image, same⟩ := Option.isSome_iff_exists.1 here
        rw [imagesOf, List.filterMap_cons_some same, List.map_cons, (findImage_spec same).1, ← imagesOf, ih rest]
  · intro image member
    obtain ⟨num, -, same⟩ := List.mem_filterMap.1 member
    rw [(findImage_spec same).1, same]

/-- What a look at some links needs, and what it leaves behind. -/
def PushesAll (imagesArrays : List ImageArray) (maxCount : ℕ) (needToRecurse : List LinkingImage) (pass : TopDown.Pass (BitVec 32)) :
    Prop :=
  (∀ num ∈ pass.found, (findImage imagesArrays num).isSome) ∧ pass.seen.length ≤ maxCount ∧
    needToRecurse.length + pass.found.length ≤ maxNeedToRecurse

instance (pass : TopDown.Pass (BitVec 32)) : Decidable (PushesAll imagesArrays maxCount needToRecurse pass) :=
  inferInstanceAs (Decidable (_ ∧ _ ∧ _))

theorem pushDependents_eq (noOverrides : NoOverrides imagesArrays) (dependents : List LinkedImage)
    (found : Found imagesArrays loadedList) (room : loadedList.length ≤ maxCount) (narrow : needToRecurse.length ≤ maxNeedToRecurse)
    {pass : TopDown.Pass (BitVec 32)} (passed : scan never (linkedNums dependents) (loadedList.map LinkingImage.imageNum) = pass) :
    pushDependents imagesArrays maxCount dependents loadedList needToRecurse =
      if PushesAll imagesArrays maxCount needToRecurse pass then
        some (loadedList ++ imagesOf imagesArrays pass.found, needToRecurse ++ imagesOf imagesArrays pass.found)
      else none := by
  induction dependents generalizing loadedList needToRecurse pass with
  | nil =>
      rw [← passed, if_pos ⟨List.forall_mem_nil _, (List.length_map _).trans_le room, narrow⟩]
      exact congrArg some (Prod.ext (List.append_nil _).symm (List.append_nil _).symm)
  | cons dependent rest ih =>
      rw [pushDependents]
      by_cases missing : dependent.imageNum = kMissingWeakLinkedImage ∧ dependent.kind = .weak
      · have skipped : linkedNums (dependent :: rest) = linkedNums rest := by
          rw [linkedNums, List.filter_cons, if_neg (by simpa using missing)]
          rfl
        rw [skipped] at passed
        rw [if_pos missing, ih found room narrow passed]
      · have linked : linkedNums (dependent :: rest) = dependent.imageNum.setWidth 32 :: linkedNums rest := by
          rw [linkedNums, List.filter_cons, if_pos (decide_eq_true missing)]
          rfl
        rw [linked, scan] at passed
        rw [if_neg missing]
        by_cases inside : dependent.imageNum.setWidth 32 ∈ loadedList.map LinkingImage.imageNum
        · rw [if_pos inside] at passed
          rw [if_pos ((inLoadedImageArray_iff noOverrides found).2 inside), ih found room narrow passed]
        · rw [if_neg inside, if_neg (by exact Bool.false_ne_true)] at passed
          rw [if_neg ((inLoadedImageArray_iff noOverrides found).not.2 inside)]
          have head : dependent.imageNum.setWidth 32 ∈ pass.found := passed ▸ List.mem_cons_self
          cases image : findImage imagesArrays (dependent.imageNum.setWidth 32) with
          | none =>
              rw [if_neg]
              intro all
              have isSome := all.1 _ head
              rw [image] at isSome
              cases isSome
          | some depImage =>
              have num := (findImage_spec image).1
              have found' : Found imagesArrays (loadedList ++ [depImage]) := List.forall_mem_append.2
                ⟨found, List.forall_mem_singleton.2 (num.symm ▸ image)⟩
              have nums : (loadedList ++ [depImage]).map LinkingImage.imageNum =
                  loadedList.map LinkingImage.imageNum ++ [dependent.imageNum.setWidth 32] := by
                rw [List.map_append, List.map_singleton, num]
              dsimp only
              generalize later : scan never (linkedNums rest) (loadedList.map LinkingImage.imageNum ++ [dependent.imageNum.setWidth 32]) =
                next at passed
              have grows : loadedList.length + 1 ≤ next.seen.length := by
                have initial := (TopDown.scan_grows never (linkedNums rest)
                  (loadedList.map LinkingImage.imageNum ++ [dependent.imageNum.setWidth 32])).length_le
                rwa [later, List.length_append, List.length_map] at initial
              rw [← passed]
              by_cases fits : loadedList.length < maxCount ∧ needToRecurse.length < maxNeedToRecurse
              · have one : (needToRecurse ++ [depImage]).length = needToRecurse.length + 1 := List.length_append
                have same : PushesAll imagesArrays maxCount needToRecurse
                    ⟨next.seen, dependent.imageNum.setWidth 32 :: next.found, next.stopped⟩ ↔
                      PushesAll imagesArrays maxCount (needToRecurse ++ [depImage]) next := by
                  rw [PushesAll, PushesAll, List.forall_mem_cons, List.length_cons, one, Nat.add_assoc, Nat.add_comm 1,
                    and_iff_right (Option.isSome_iff_exists.2 ⟨depImage, image⟩)]
                rw [if_pos fits, ih found' (List.length_append.trans_le fits.1) (one.trans_le fits.2) (nums ▸ later), imagesOf, imagesOf,
                  List.filterMap_cons_some image, List.append_assoc, List.append_assoc]
                exact if_congr same.symm rfl rfl
              · rw [if_neg fits, if_neg]
                rintro ⟨-, seen, pushed⟩
                rw [List.length_cons] at pushed
                dsimp only at seen
                omega

/-- The list of a walk that has not overflown an array. -/
structure Loads (imagesArrays : List ImageArray) (maxCount : ℕ) (loadedList : List LinkingImage) (config : Config (BitVec 32)) : Prop where
  found : Found imagesArrays loadedList
  nums : loadedList.map LinkingImage.imageNum = config.seen
  running : config.stopped = false
  room : config.seen.length ≤ maxCount
  narrow : config.widest ≤ maxNeedToRecurse

theorem Loads.step (noOverrides : NoOverrides imagesArrays) (loads : Loads imagesArrays maxCount loadedList config)
    (pending : config.pending = num :: waiting) (here : findImage imagesArrays num = some image)
    {pass : TopDown.Pass (BitVec 32)} (passed : scan never (links imagesArrays num) config.seen = pass) :
    TopDown.step (links imagesArrays) never config = ⟨pass.found ++ waiting, pass.seen, false, max config.widest pass.found.length⟩ ∧
      if PushesAll imagesArrays maxCount [] pass then
        pushDependents imagesArrays maxCount image.dependents loadedList [] =
            some (loadedList ++ imagesOf imagesArrays pass.found, imagesOf imagesArrays pass.found) ∧
          Loads imagesArrays maxCount (loadedList ++ imagesOf imagesArrays pass.found)
            (TopDown.step (links imagesArrays) never config)
      else pushDependents imagesArrays maxCount image.dependents loadedList [] = none := by
  have goesOn := TopDown.scan_never_goesOn (links imagesArrays num) config.seen
  have all := TopDown.scan_of_goesOn goesOn
  have stepped := TopDown.step_of_goesOn pending loads.running goesOn
  rw [passed] at all stepped
  have linked : linkedNums image.dependents = links imagesArrays num := by rw [links, here]
  have pushed := @pushDependents_eq imagesArrays maxCount loadedList [] noOverrides image.dependents loads.found
    ((List.length_map _).symm.trans_le (loads.nums ▸ loads.room)) (Nat.zero_le _) pass (by rw [linked, loads.nums, passed])
  refine ⟨stepped, ?_⟩
  split
  · next fits =>
      obtain ⟨nums, found⟩ := imageNum_imagesOf fits.1
      refine ⟨pushed.trans (if_pos fits), List.forall_mem_append.2 ⟨loads.found, found⟩, ?_, ?_, ?_, ?_⟩
      · rw [stepped, List.map_append, loads.nums, nums, all.1]
      · rw [stepped]
      · rw [stepped]
        exact fits.2.1
      · rw [stepped]
        exact max_le loads.narrow ((Nat.zero_add _).symm.trans_le fits.2.2)
  · next tooMuch => exact pushed.trans (if_neg tooMuch)

theorem buildLoadOrderRecurse_walks (noOverrides : NoOverrides imagesArrays) (depth : ℕ) {loadedList' : List LinkingImage}
    (loads : Loads imagesArrays maxCount loadedList config) (pending : config.pending = image.imageNum :: waiting)
    (here : findImage imagesArrays image.imageNum = some image)
    (returns : buildLoadOrderRecurse imagesArrays maxCount depth loadedList image = some loadedList') :
    ∃ next, Steps (links imagesArrays) never config next ∧ next.pending = waiting ∧ Loads imagesArrays maxCount loadedList' next := by
  induction depth generalizing image loadedList loadedList' config waiting with
  | zero => cases returns
  | succ depth ih =>
      -- the recursions for the images that were pushed
      have recursions : ∀ (images : List LinkingImage) {loadedList : List LinkingImage} {config : Config (BitVec 32)},
          Found imagesArrays images → Loads imagesArrays maxCount loadedList config →
          config.pending = images.map LinkingImage.imageNum ++ waiting →
          images.foldlM (buildLoadOrderRecurse imagesArrays maxCount depth) loadedList = some loadedList' →
          ∃ next, Steps (links imagesArrays) never config next ∧ next.pending = waiting ∧ Loads imagesArrays maxCount loadedList' next := by
        intro images
        induction images with
        | nil =>
            intro loadedList config _ loads pending returns
            cases returns
            exact ⟨config, Relation.ReflTransGen.refl, pending, loads⟩
        | cons image images ihImages =>
            intro loadedList config found loads pending returns
            obtain ⟨here, found⟩ := List.forall_mem_cons.1 found
            obtain ⟨middle, first, rest⟩ := Option.bind_eq_some_iff.1 returns
            obtain ⟨between, path, pending', loads'⟩ := ih loads pending here first
            obtain ⟨next, path', done, loads''⟩ := ihImages found loads' pending' rest
            exact ⟨next, path.trans path', done, loads''⟩
      obtain ⟨stepped, pushed⟩ := loads.step noOverrides pending here rfl
      rw [buildLoadOrderRecurse] at returns
      split at pushed
      · next fits =>
          obtain ⟨pushed, loads'⟩ := pushed
          rw [pushed] at returns
          obtain ⟨nums, found⟩ := imageNum_imagesOf fits.1
          obtain ⟨next, path, done, loads''⟩ := recursions _ found loads' (by rw [stepped, nums]) returns
          exact ⟨next, (Steps.one (List.ne_nil_of_mem (pending ▸ List.mem_cons_self))).trans path, done, loads''⟩
      · rw [pushed] at returns
        cases returns

/-- All numbers that links lead to. -/
def allLinks (imagesArrays : List ImageArray) : Finset (BitVec 32) :=
  (imagesArrays.flatMap fun array => array.images.flatMap fun image => linkedNums image.dependents).toFinset

theorem mem_allLinks {link : BitVec 32} (linked : link ∈ links imagesArrays num) : link ∈ allLinks imagesArrays := by
  rw [links] at linked
  cases here : findImage imagesArrays num with
  | none =>
      rw [here] at linked
      cases linked
  | some image =>
      rw [here] at linked
      obtain ⟨-, array, inside, member⟩ := findImage_spec here
      exact List.mem_toFinset.2 (List.mem_flatMap.2 ⟨array, inside, List.mem_flatMap.2 ⟨image, member, linked⟩⟩)

theorem buildLoadOrderRecurse_returns (noOverrides : NoOverrides imagesArrays) (depth : ℕ)
    (loads : Loads imagesArrays maxCount loadedList config) (pending : config.pending = image.imageNum :: waiting)
    (here : findImage imagesArrays image.imageNum = some image)
    (fits : ∀ next, Steps (links imagesArrays) never config next →
      (∀ num ∈ next.seen, (findImage imagesArrays num).isSome) ∧ next.seen.length ≤ maxCount ∧ next.widest ≤ maxNeedToRecurse)
    (deep : TopDown.unmarked (allLinks imagesArrays) config.seen < depth) :
    ∃ loadedList', buildLoadOrderRecurse imagesArrays maxCount depth loadedList image = some loadedList' := by
  induction depth generalizing image loadedList config waiting with
  | zero => exact absurd deep (Nat.not_lt_zero _)
  | succ depth ih =>
      have recursions : ∀ (images : List LinkingImage) {loadedList : List LinkingImage} {config : Config (BitVec 32)},
          Found imagesArrays images → Loads imagesArrays maxCount loadedList config →
          config.pending = images.map LinkingImage.imageNum ++ waiting →
          (∀ next, Steps (links imagesArrays) never config next →
            (∀ num ∈ next.seen, (findImage imagesArrays num).isSome) ∧ next.seen.length ≤ maxCount ∧ next.widest ≤ maxNeedToRecurse) →
          (images ≠ [] → TopDown.unmarked (allLinks imagesArrays) config.seen < depth) →
          ∃ loadedList', images.foldlM (buildLoadOrderRecurse imagesArrays maxCount depth) loadedList = some loadedList' := by
        intro images
        induction images with
        | nil => exact fun {loadedList} _ _ _ _ _ _ => ⟨loadedList, rfl⟩
        | cons image images ihImages =>
            intro loadedList config found loads pending fits deep
            obtain ⟨here, found⟩ := List.forall_mem_cons.1 found
            have deep := deep (List.cons_ne_nil _ _)
            obtain ⟨middle, first⟩ := ih loads pending here fits deep
            obtain ⟨between, path, pending', loads'⟩ := buildLoadOrderRecurse_walks noOverrides depth loads pending here first
            have less := @TopDown.unmarked_le _ _ (allLinks imagesArrays) _ _ path.grows.subset
            obtain ⟨loadedList', rest⟩ := ihImages found loads' pending' (fun next path' => fits next (path.trans path'))
              fun _ => Nat.lt_of_le_of_lt less deep
            exact ⟨loadedList', by rw [List.foldlM_cons, first]; exact rest⟩
      obtain ⟨stepped, pushed⟩ := loads.step noOverrides pending here rfl
      have one : Steps (links imagesArrays) never config _ := Steps.one (List.ne_nil_of_mem (pending ▸ List.mem_cons_self))
      obtain ⟨found, room, narrow⟩ := fits _ one
      have grows := (TopDown.step_grows (links imagesArrays) never config).subset
      rw [stepped] at found room narrow
      have all : PushesAll imagesArrays maxCount [] (scan never (links imagesArrays image.imageNum) config.seen) :=
        ⟨fun num member => found num (TopDown.fresh_of_found member).2.2, room,
          (Nat.zero_add _).trans_le ((Nat.le_max_right _ _).trans narrow)⟩
      rw [if_pos all] at pushed
      obtain ⟨pushed, loads'⟩ := pushed
      obtain ⟨nums, found'⟩ := imageNum_imagesOf all.1
      rw [buildLoadOrderRecurse, pushed]
      refine recursions _ found' loads' (by rw [stepped, nums]) (fun next path => fits next (one.trans path)) fun nonempty => ?_
      have nonempty : (scan never (links imagesArrays image.imageNum) config.seen).found ≠ [] := by
        intro none
        rw [none] at nonempty
        exact nonempty rfl
      obtain ⟨link, inside⟩ := List.exists_mem_of_ne_nil _ nonempty
      obtain ⟨linked, fresh, marked⟩ := TopDown.fresh_of_found inside
      have less := TopDown.unmarked_lt grows (mem_allLinks linked) fresh (TopDown.step_seen pending ▸ marked)
      exact Nat.lt_of_lt_of_le less (Nat.le_of_lt_succ deep)

/-! ## The order -/

theorem scan_found (links seen : List (BitVec 32)) : (scan never links seen).found = (links.filter (· ∉ seen)).eraseDups := by
  induction links generalizing seen with
  | nil => rfl
  | cons link links ih =>
      rw [scan]
      by_cases inside : link ∈ seen
      · rw [if_pos inside, ih, List.filter_cons, if_neg (by simpa using inside)]
      · rw [if_neg inside, if_neg (by exact Bool.false_ne_true), List.filter_cons, if_pos (by simpa using inside),
          List.eraseDups_cons, List.filter_filter]
        dsimp only
        rw [ih]
        refine congrArg (fun rest => link :: List.eraseDups rest) (List.filter_congr fun other _ => ?_)
        simp only [List.mem_append, List.mem_singleton, not_or, Bool.decide_and, decide_not, Bool.and_comm]
        rfl

theorem Visits.snoc {loaded visits final : List (BitVec 32)} (visited : Visits imagesArrays loaded visits final) (inside : num ∈ final) :
    Visits imagesArrays loaded (visits ++ [num]) (final ++ ((links imagesArrays num).filter (· ∉ final)).eraseDups) := by
  induction visited with
  | nil => exact .cons inside .nil
  | cons there _ ih => exact .cons there (ih inside)

theorem visits_of_steps {topImageNum : BitVec 32} (path : Steps (links imagesArrays) never (.start topImageNum) config) :
    ∃ visits, Visits imagesArrays [topImageNum] visits config.seen ∧ (visits ++ config.pending).Perm config.seen := by
  induction path with
  | refl => exact ⟨[], .nil, List.Perm.refl _⟩
  | @tail config next before edge ih =>
      obtain ⟨nonempty, rfl⟩ := edge
      obtain ⟨visits, visited, perm⟩ := ih
      obtain ⟨num, waiting, pending⟩ := List.exists_cons_of_ne_nil nonempty
      have goesOn := TopDown.scan_never_goesOn (links imagesArrays num) config.seen
      have inside := (Steps.sound before).waiting num (pending ▸ List.mem_cons_self)
      have more := (TopDown.scan_of_goesOn goesOn).1
      rw [TopDown.step_of_goesOn pending (Steps.settled before).1 goesOn]
      rw [pending] at perm
      refine ⟨visits ++ [num], ?_, ?_⟩
      · rw [more, scan_found]
        exact visited.snoc inside
      · rw [more, List.append_assoc, List.singleton_append]
        refine List.Perm.trans ?_ (perm.append_right _)
        rw [List.append_assoc, List.cons_append]
        exact (List.perm_append_comm.cons num).append_left visits

end Walk

section Main

variable {imagesArrays : List ImageArray} {maxCount depth : ℕ} {topImageNum : BitVec 32} {loadedList : List LinkingImage}

theorem buildLoadOrder_walks (noOverrides : NoOverrides imagesArrays)
    (returns : buildLoadOrder imagesArrays maxCount depth topImageNum = some loadedList) :
    ∃ config, Steps (links imagesArrays) never (.start topImageNum) config ∧ config.pending = [] ∧
      Loads imagesArrays maxCount loadedList config := by
  obtain ⟨topImage, here, later⟩ := Option.bind_eq_some_iff.1 returns
  obtain rfl := (findImage_spec here).1
  split at later
  · next room =>
      have loads : Loads imagesArrays maxCount [topImage] (.start topImage.imageNum) :=
        ⟨List.forall_mem_singleton.2 here, rfl, rfl, room, Nat.zero_le _⟩
      exact buildLoadOrderRecurse_walks noOverrides depth loads rfl here later
  · cases later

theorem loadable_of_returns (noOverrides : NoOverrides imagesArrays)
    (returns : buildLoadOrder imagesArrays maxCount depth topImageNum = some loadedList) : Loadable imagesArrays maxCount topImageNum := by
  obtain ⟨config, path, done, loads⟩ := buildLoadOrder_walks noOverrides returns
  refine ⟨fun num linked => ?_, fun nums nodup linked => ?_, fun other path' => ?_⟩
  · have inside := (path.mem_iff done).2 linked
    rw [← loads.nums] at inside
    obtain ⟨image, member, rfl⟩ := List.mem_map.1 inside
    exact Option.isSome_iff_exists.2 ⟨image, loads.found image member⟩
  · exact ((nodup.subperm fun num member => (path.mem_iff done).2 (linked num member)).length_le).trans loads.room
  · exact (Steps.to_end path' path done).widest_le.trans loads.narrow

theorem Loadable.returns (loadable : Loadable imagesArrays maxCount topImageNum) (noOverrides : NoOverrides imagesArrays) :
    ∃ depth loadedList, buildLoadOrder imagesArrays maxCount depth topImageNum = some loadedList := by
  obtain ⟨found, room, narrow⟩ := loadable
  obtain ⟨topImage, here⟩ := Option.isSome_iff_exists.1 (found topImageNum Relation.ReflTransGen.refl)
  obtain rfl := (findImage_spec here).1
  have one : 0 < maxCount := room [topImage.imageNum] (List.nodup_singleton _)
    (List.forall_mem_singleton.2 Relation.ReflTransGen.refl)
  have loads : Loads imagesArrays maxCount [topImage] (.start topImage.imageNum) :=
    ⟨List.forall_mem_singleton.2 here, rfl, rfl, one, Nat.zero_le _⟩
  obtain ⟨loadedList, returns⟩ := buildLoadOrderRecurse_returns noOverrides _ loads rfl here
    (fun next path => ⟨fun num inside => found num (path.sound.reached num inside),
      room next.seen path.sound.nodup path.sound.reached, narrow next path⟩) (Nat.lt_succ_self _)
  refine ⟨TopDown.unmarked (allLinks imagesArrays) [topImage.imageNum] + 1, loadedList, ?_⟩
  rw [buildLoadOrder, here, Option.bind_eq_bind, Option.bind_some, if_pos one]
  exact returns

end Main

/-- A load order is built, and is what it is to be, just when all images are there, the list has room for them, and no image
that is visited has more than 256 dependents that are not in the list. -/
theorem buildLoadOrder_iff (imagesArrays : List ImageArray) (maxCount : ℕ) (topImageNum : BitVec 32)
    (noOverrides : NoOverrides imagesArrays) :
    (∃ depth loadedList, buildLoadOrder imagesArrays maxCount depth topImageNum = some loadedList ∧
      IsLoadOrder imagesArrays topImageNum loadedList) ↔ Loadable imagesArrays maxCount topImageNum := by
  constructor
  · rintro ⟨depth, loadedList, returns, -⟩
    exact loadable_of_returns noOverrides returns
  · intro loadable
    obtain ⟨depth, loadedList, returns⟩ := loadable.returns noOverrides
    obtain ⟨config, path, done, loads⟩ := buildLoadOrder_walks noOverrides returns
    obtain ⟨visits, visited, perm⟩ := visits_of_steps path
    rw [done, List.append_nil] at perm
    refine ⟨depth, loadedList, returns, loads.found, ?_, loads.nums ▸ path.sound.nodup, fun num => ?_, visits, ?_, ?_⟩
    · obtain ⟨rest, same⟩ := path.grows
      rw [loads.nums, ← same]
      rfl
    · rw [loads.nums]
      exact path.mem_iff done
    · rw [loads.nums]
      exact visited
    · rw [loads.nums]
      exact perm

/-- An image with links to images with given numbers. -/
def plainImage (imageNum : BitVec 32) (dependents : List (BitVec 30)) : LinkingImage where
  imageNum := imageNum
  isDylib := true
  inDyldCache := false
  cacheImageNum := none
  dependents := dependents.map fun num => ⟨num, .regular⟩

def arrayOf (images : List LinkingImage) : List ImageArray :=
  [{ firstImageNum := 0x2000
     hasRoots := true
     images := images
     numbered := fun numbered => Bool.noConfusion numbered }]

/-- Two images that link to each other. -/
def linkedPair : List ImageArray := arrayOf [plainImage 0x2000 [0x2001], plainImage 0x2001 [0x2000]]

theorem linkedPair_iff : (∃ depth loadedList, buildLoadOrder linkedPair 1024 depth 0x2000 = some loadedList ∧
    IsLoadOrder linkedPair 0x2000 loadedList) ↔ Loadable linkedPair 1024 0x2000 :=
  buildLoadOrder_iff linkedPair 1024 0x2000 (by
    intro array member image inside
    rw [linkedPair, arrayOf, List.mem_singleton] at member
    rw [member] at inside
    rcases List.mem_pair.1 inside with rfl | rfl
    · rfl
    · rfl)

def wideImages : List ImageArray :=
  arrayOf (plainImage 0x2000 ((List.range 257).map fun i => 0x2001 + BitVec.ofNat 30 i) ::
    (List.range 257).map fun i => plainImage (0x2001 + BitVec.ofNat 32 i) [])

theorem wideImages_not_loaded : ¬∃ depth loadedList, buildLoadOrder wideImages 1024 depth 0x2000 = some loadedList ∧
    IsLoadOrder wideImages 0x2000 loadedList := by
  rintro ⟨depth, loadedList, returns, -⟩
  have noOverrides : NoOverrides wideImages := by
    intro array member image inside
    rw [wideImages, arrayOf, List.mem_singleton] at member
    rw [member] at inside
    rcases List.mem_cons.1 inside with rfl | inside
    · rfl
    · obtain ⟨i, -, rfl⟩ := List.mem_map.1 inside
      rfl
  have path : Steps (links wideImages) never (.start 0x2000) _ := Steps.one (List.cons_ne_nil _ _)
  have narrow := (loadable_of_returns noOverrides returns).narrow _ path
  exact absurd narrow (by decide +kernel)

end ObjcDyld.ImageList
