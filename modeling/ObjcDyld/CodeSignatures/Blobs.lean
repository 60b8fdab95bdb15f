import ObjcDyld.Common.ByteMemory
import ObjcDyld.Common.Rankings

/-!
# Code signature blobs

A code signature is a super blob with an index of sub-blobs; `forEachCodeDirectoryBlob` looks in it
for code directories.  All its numbers are big-endian and are read by a little-endian machine.
-/

namespace ObjcDyld.CodeSignatures

open ByteMemory Rankings

/-- `htonl` on a little-endian machine. -/
def htonl (value : BitVec 32) : BitVec 32 :=
  value.extractLsb' 0 8 ++ value.extractLsb' 8 8 ++ value.extractLsb' 16 8 ++ value.extractLsb' 24 8

def CSMAGIC_EMBEDDED_SIGNATURE : BitVec 32 := 0xfade0cc0

def CSMAGIC_CODEDIRECTORY : BitVec 32 := 0xfade0c02

def CSSLOT_CODEDIRECTORY : BitVec 32 := 0

def CSSLOT_ALTERNATE_CODEDIRECTORIES : BitVec 32 := 0x1000

def CSSLOT_ALTERNATE_CODEDIRECTORY_LIMIT : BitVec 32 := 0x1005

def CS_HASHTYPE_SHA1 : BitVec 8 := 1

def CS_HASHTYPE_SHA256 : BitVec 8 := 2

def CS_HASHTYPE_SHA256_TRUNCATED : BitVec 8 := 3

def CS_HASHTYPE_SHA384 : BitVec 8 := 4

/-- `sizeof(CS_SuperBlob)`. -/
def superBlobSize : ℕ := 12

/-- `sizeof(CS_BlobIndex)`. -/
def blobIndexSize : ℕ := 8

/-- `sizeof(CS_CodeDirectory)`. -/
def codeDirectorySize : ℕ := 88

/-! ## The ranks of hashes -/

/-- `hashPriorities`, which match the kernel. -/
def hashPriorities : List (BitVec 8) :=
  [CS_HASHTYPE_SHA1, CS_HASHTYPE_SHA256_TRUNCATED, CS_HASHTYPE_SHA256, CS_HASHTYPE_SHA384]

/-- `hashPriorities_watchOS_dylibs`, which do not. -/
def hashPriorities_watchOS_dylibs : List (BitVec 8) :=
  [CS_HASHTYPE_SHA256_TRUNCATED, CS_HASHTYPE_SHA256, CS_HASHTYPE_SHA384, CS_HASHTYPE_SHA1]

/-- The loop of both rank functions; a hash that is not supported has rank zero. -/
def rankIn (priorities : List (BitVec 8)) (type : BitVec 8) : ℕ :=
  match priorities.findIdx? (· == type) with
  | some n => n + 1
  | none => 0

def hash_rank (type : BitVec 8) : ℕ := rankIn hashPriorities type

def hash_rank_watchOS_dylibs (type : BitVec 8) : ℕ := rankIn hashPriorities_watchOS_dylibs type

/-! ## The fields of a blob -/

/-- The signature, as the memory from `codeSigStart` on and `codeSignLen`, with what the image says of its use. -/
structure CodeSignature where
  memory : Memory
  codeSignLen : BitVec 64
  isWatchOS : Bool
  isMainExecutable : Bool

namespace CodeSignature

variable (blob : CodeSignature)

def magic : BitVec 32 := get32 blob.memory 0

def subBlobCount : BitVec 32 := htonl (get32 blob.memory 8)

/-- Where the `i`-th entry of the index is. -/
def indexOffset (i : ℕ) : ℕ := superBlobSize + blobIndexSize * i

/-- The type of an entry as it is read. -/
def type (i : ℕ) : BitVec 32 := get32 blob.memory (indexOffset i)

def cdOffset (i : ℕ) : BitVec 32 := htonl (get32 blob.memory (indexOffset i + 4))

def cdMagic (cd : ℕ) : BitVec 32 := get32 blob.memory cd

def cdLength (cd : ℕ) : BitVec 32 := htonl (get32 blob.memory (cd + 4))

def hashType (cd : ℕ) : BitVec 8 := blob.memory (cd + 37)

/-- `hashRankFn`. -/
def hashRank (cd : ℕ) : ℕ :=
  if blob.isWatchOS then hash_rank_watchOS_dylibs (blob.hashType cd) else hash_rank (blob.hashType cd)

def wantsAll : Bool := blob.isWatchOS && blob.isMainExecutable

/-! ## The walk -/

/-- The first two tests of the loop. -/
def isCodeDirectoryType (type : BitVec 32) : Bool :=
  type == htonl CSSLOT_CODEDIRECTORY ||
    (htonl CSSLOT_ALTERNATE_CODEDIRECTORIES ≤ type && type ≤ htonl CSSLOT_ALTERNATE_CODEDIRECTORY_LIMIT)

/-- What has happened while the index is walked: the reads as offsets and sizes, the code directories that the callback
was given, and `bestCd`. -/
structure Visit where
  reads : List (ℕ × ℕ)
  calls : List ℕ
  bestCd : Option ℕ
  deriving DecidableEq

def Visit.start : Visit := ⟨[], [], none⟩

def Visit.read (visit : Visit) (reads : List (ℕ × ℕ)) : Visit := { visit with reads := visit.reads ++ reads }

def Visit.callback (visit : Visit) (cd : ℕ) : Visit := { visit with calls := visit.calls ++ [cd] }

/-- The comparison of a code directory with `bestCd`. -/
def rankDirectory (visit : Visit) (cd : ℕ) : Visit :=
  match visit.bestCd with
  | none => { visit with bestCd := some cd }
  | some bestCd =>
      let visit := visit.read [(cd + 37, 1), (bestCd + 37, 1)]
      if blob.hashRank cd > blob.hashRank bestCd then { visit with bestCd := some cd } else visit

/-- The body of the loop. -/
def visitEntry (visit : Visit) (i : ℕ) : Visit :=
  let visit := visit.read [(indexOffset i, 4)]
  if !isCodeDirectoryType (blob.type i) then visit
  else
    let visit := visit.read [(indexOffset i + 4, 4)]
    -- verify offset is not out of range
    if (blob.cdOffset i).setWidth 64 > blob.codeSignLen - BitVec.ofNat 64 codeDirectorySize then visit
    else
      let cd := (blob.cdOffset i).toNat
      let visit := visit.read [(cd + 4, 4)]
      -- verify code directory length not out of range
      if (blob.cdLength cd).setWidth 64 > blob.codeSignLen - (blob.cdOffset i).setWidth 64 then visit
      else if blob.wantsAll then visit.callback cd
      else
        let visit := visit.read [(cd, 4)]
        if blob.cdMagic cd == htonl CSMAGIC_CODEDIRECTORY then blob.rankDirectory visit cd else visit

def visitEntries (visit : Visit) : ℕ → Visit
  | 0 => visit
  | count + 1 => blob.visitEntry (visitEntries visit count) count

def forEachCodeDirectoryBlob : Visit :=
  if blob.codeSignLen < BitVec.ofNat 64 superBlobSize then .start
  else
    let visit := Visit.start.read [(0, 4)]
    if blob.magic ≠ htonl CSMAGIC_EMBEDDED_SIGNATURE then visit
    else
      let visit := visit.read [(8, 4)]
      if (blob.codeSignLen - BitVec.ofNat 64 superBlobSize) / BitVec.ofNat 64 blobIndexSize <
          blob.subBlobCount.setWidth 64 then visit
      else
        let visit := blob.visitEntries visit blob.subBlobCount.toNat
        match visit.bestCd with
        | some bestCd => visit.callback bestCd
        | none => visit

end CodeSignature

end ObjcDyld.CodeSignatures

/-!
## Selection of code directories

Which code directories `forEachCodeDirectoryBlob` is to call back with, and when it does so.  The
types are compared as they are read, and the constants are swapped: the alternate range then holds
types whose low bytes are arbitrary.  For a blob that is shorter than a code directory the bound on
the offsets wraps around.
-/

namespace ObjcDyld.CodeSignatures

open ByteMemory Rankings

namespace CodeSignature

variable (blob : CodeSignature)

/-! ## What is expected -/

/-- The blob has the magic, and holds its whole index. -/
def IsSuperBlob : Prop :=
  superBlobSize + blobIndexSize * blob.subBlobCount.toNat ≤ blob.codeSignLen.toNat ∧
    blob.magic = htonl CSMAGIC_EMBEDDED_SIGNATURE

instance : Decidable blob.IsSuperBlob := inferInstanceAs (Decidable (_ ∧ _))

/-- How many entries the index of the blob has. -/
def entryCount : ℕ := if blob.IsSuperBlob then blob.subBlobCount.toNat else 0

/-- Where the sub-blob of an entry starts. -/
def directory (i : ℕ) : ℕ := (blob.cdOffset i).toNat

/-- The type of the entry is that of a code directory, as a number in host order. -/
def NamesDirectory (i : ℕ) : Prop :=
  htonl (blob.type i) = CSSLOT_CODEDIRECTORY ∨
    CSSLOT_ALTERNATE_CODEDIRECTORIES ≤ htonl (blob.type i) ∧
      htonl (blob.type i) ≤ CSSLOT_ALTERNATE_CODEDIRECTORY_LIMIT

instance : DecidablePred blob.NamesDirectory := fun _ => inferInstanceAs (Decidable (_ ∨ _))

/-- A code directory lies wholly inside the blob. -/
def LiesInside (cd : ℕ) : Prop :=
  cd + codeDirectorySize ≤ blob.codeSignLen.toNat ∧ cd + (blob.cdLength cd).toNat ≤ blob.codeSignLen.toNat

instance : DecidablePred blob.LiesInside := fun _ => inferInstanceAs (Decidable (_ ∧ _))

def HasMagic (cd : ℕ) : Prop := blob.cdMagic cd = htonl CSMAGIC_CODEDIRECTORY

instance : DecidablePred blob.HasMagic := fun _ => inferInstanceAs (Decidable (_ = _))

/-- The entry points to a code directory that may be selected. -/
def IsCandidate (i : ℕ) : Prop :=
  blob.NamesDirectory i ∧ blob.LiesInside (blob.directory i) ∧ blob.HasMagic (blob.directory i)

instance : DecidablePred blob.IsCandidate := fun _ => inferInstanceAs (Decidable (_ ∧ _))

def rank (i : ℕ) : ℕ := blob.hashRank (blob.directory i)

/-- The callbacks are those that are expected, and nothing outside of the blob is read. -/
structure IsExact (visit : Visit) : Prop where
  inside : ∀ read ∈ visit.reads, read.1 + read.2 ≤ blob.codeSignLen.toNat
  all : blob.wantsAll = true → visit.calls =
    ((List.range blob.entryCount).filter fun i =>
      blob.NamesDirectory i ∧ blob.LiesInside (blob.directory i)).map blob.directory
  best : blob.wantsAll = false → ∀ i, IsFirstBest blob.rank blob.IsCandidate blob.entryCount i →
    visit.calls = [blob.directory i]
  never : blob.wantsAll = false → (∀ i < blob.entryCount, ¬ blob.IsCandidate i) → visit.calls = []

/-! ## When it is met -/

/-- The entry passes as a code directory, although its type is another one. -/
def IsImpostor (i : ℕ) : Prop := isCodeDirectoryType (blob.type i) = true ∧ ¬ blob.NamesDirectory i

/-- The entries that the code selects from. -/
def IsSelectable (i : ℕ) : Prop :=
  isCodeDirectoryType (blob.type i) = true ∧ blob.LiesInside (blob.directory i) ∧ blob.HasMagic (blob.directory i)

instance : DecidablePred blob.IsSelectable := fun _ => inferInstanceAs (Decidable (_ ∧ _))

/-- In a blob that is too short for a code directory, no entry has a length outside of the blob or is taken for one. -/
def NoneTakenShort : Prop :=
  ∀ i < blob.entryCount, isCodeDirectoryType (blob.type i) = true →
    blob.directory i + 8 ≤ blob.codeSignLen.toNat ∧
      ¬ (blob.directory i + (blob.cdLength (blob.directory i)).toNat ≤ blob.codeSignLen.toNat ∧
        (blob.wantsAll = true ∨ blob.HasMagic (blob.directory i)))

/-- No impostor is wanted. -/
def NoImpostorInside : Prop := ∀ i < blob.entryCount, blob.IsImpostor i → ¬ blob.LiesInside (blob.directory i)

/-- An impostor that outranks everything points to the code directory that is to be selected. -/
def NoImpostorBest : Prop :=
  ∀ i, blob.IsImpostor i → IsFirstBest blob.rank blob.IsSelectable blob.entryCount i →
    ∃ j, IsFirstBest blob.rank blob.IsCandidate blob.entryCount j ∧ blob.directory j = blob.directory i

/-- What a blob must be like to be walked as expected. -/
def IsUnambiguous : Prop :=
  if blob.codeSignLen.toNat < codeDirectorySize then blob.NoneTakenShort
  else if blob.wantsAll then blob.NoImpostorInside
  else blob.NoImpostorBest

end CodeSignature

/-! ## Byte order -/

@[simp] theorem htonl_htonl (value : BitVec 32) : htonl (htonl value) = value := by
  simp only [htonl]
  ext i bound
  simp only [BitVec.getElem_append, BitVec.getElem_extractLsb', BitVec.getLsbD_append, BitVec.getLsbD_extractLsb']
  grind

theorem isCodeDirectoryType_of_host {type : BitVec 32}
    (host : htonl type = CSSLOT_CODEDIRECTORY ∨
      CSSLOT_ALTERNATE_CODEDIRECTORIES ≤ htonl type ∧ htonl type ≤ CSSLOT_ALTERNATE_CODEDIRECTORY_LIMIT) :
    CodeSignature.isCodeDirectoryType type = true := by
  rw [← htonl_htonl type]
  generalize htonl type = number at host ⊢
  rcases host with rfl | ⟨low, high⟩
  · decide
  · have cases : number = 0x1000 ∨ number = 0x1001 ∨ number = 0x1002 ∨ number = 0x1003 ∨ number = 0x1004 ∨
        number = 0x1005 := by
      simp only [CSSLOT_ALTERNATE_CODEDIRECTORIES, CSSLOT_ALTERNATE_CODEDIRECTORY_LIMIT] at low high
      bv_omega
    rcases cases with rfl | rfl | rfl | rfl | rfl | rfl <;> decide

end ObjcDyld.CodeSignatures
