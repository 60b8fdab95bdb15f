import Mathlib

/-!
# Construction of perfect hashes

`make_perfect` over the names of selectors, classes or protocols, with the 64-bit hash
`lookup8` as a parameter. Keys are referred to by their indexes, entries of `tabb` by their
`b`, entries of `tabh` by the hash. Loops that may run forever take a bound on their rounds.
-/

namespace ObjcDyld.ObjcTables

/-- A C string without its terminator. -/
abbrev Name := List (BitVec 8)

/-- `log2u`: the least shift that reaches the value; `none` when the shift leaves the 32 bits. -/
def log2u (val : ℕ) : Option ℕ := (List.range 32).find? fun i => decide (val ≤ 1 <<< i)

/-- One round of `permute`. -/
def permuteRound (nbits : ℕ) (x : BitVec 32) : BitVec 32 :=
  let mask := (1#32 <<< nbits) - 1
  let x := (x + (x <<< (1 + nbits / 2))) &&& mask
  let x := x ^^^ (x >>> (1 + nbits / 3))
  let x := (x + (x <<< (1 + nbits / 4))) &&& mask
  x ^^^ (x >>> (1 + nbits / 5))

def permute (x : BitVec 32) (nbits : ℕ) : BitVec 32 := (permuteRound nbits)^[20] x

def scrambleLen : ℕ := 256

/-- `scrambleinit`, for the logarithm of `smax`. -/
def scrambleinit (nbits : ℕ) (i : ℕ) : BitVec 32 := permute (BitVec.ofNat 32 i) nbits

/-- The mapping-dependent fields `a_k` and `b_k` of each key. -/
structure Pairs where
  aK : ℕ → BitVec 32
  bK : ℕ → ℕ

/-- `bstuff`; the list of keys holds their indexes. -/
structure BStuff where
  valB : ℕ
  listB : List ℕ
  listlenB : ℕ
  waterB : ℕ

/-- `qstuff`; the `b` of a hash that nothing occupies is null. -/
structure QStuff where
  bQ : Option ℕ
  parentQ : ℕ
  newvalQ : ℕ
  oldvalQ : ℕ

abbrev Tabb := ℕ → BStuff

/-- `tabh`: the key with a hash. -/
abbrev Tabh := BitVec 32 → Option ℕ

/-- The length of a key cut to `ub4`. -/
def lenK (name : Name) : ℕ := name.length % 2 ^ 32

/-- The hash of the first `len_k` bytes of a key. -/
def keyHash (lookup8 : Name → BitVec 64 → BitVec 64) (salt : BitVec 64) (name : Name) : BitVec 64 :=
  lookup8 (name.take (lenK name)) salt

/-- `initnorm`, for the logarithm of `alen`. -/
def initnorm (lookup8 : Name → BitVec 64 → BitVec 64) (keys : List Name) (loga blen : ℕ) (salt : BitVec 64) :
    Pairs where
  aK i := if 0 < loga then (keyHash lookup8 salt (keys.getD i []) >>> (64 - loga)).setWidth 32 else 0
  bK i := if 1 < blen then (keyHash lookup8 salt (keys.getD i []) &&& BitVec.ofNat 64 (blen - 1)).toNat else 0

/-- A key joins the list of its `b`, unless one there has the same `a`. -/
def inittabKey (pairs : Pairs) (tabb : Tabb) (mykey : ℕ) : Option Tabb :=
  let b := pairs.bK mykey
  if (tabb b).listB.any fun otherkey => pairs.aK mykey = pairs.aK otherkey then none
  else some (Function.update tabb b
    { tabb b with listB := mykey :: (tabb b).listB, listlenB := (tabb b).listlenB + 1 })

/--
`inittab` without `complete`; `none` when two keys have the same pair. With an index of 32 bits
over more keys than that, the first key meets itself.
-/
def inittab (pairs : Pairs) (count : ℕ) : Option Tabb :=
  if 2 ^ 32 ≤ count then none
  else (List.range count).foldlM (inittabKey pairs) fun _ => ⟨0, [], 0, 0⟩

structure Tables where
  tabb : Tabb
  tabh : Tabh

section Mapping

variable (pairs : Pairs) (scramble : ℕ → BitVec 32)

/-- The loop of `apply` that erases old hash values. -/
def eraseHashes (stabb : BitVec 32) (tabh : Tabh) (list : List ℕ) : Tabh :=
  list.foldl (fun tabh mykey =>
    let hash := pairs.aK mykey ^^^ stabb
    if tabh hash = some mykey then Function.update tabh hash none else tabh) tabh

/-- The loop of `apply` that sets new hash values, with `false` for a collision. -/
def setHashes (stabb : BitVec 32) (rollback : Bool) (parent : ℕ) : List ℕ → Tabh → Bool × Tabh
  | [], tabh => (true, tabh)
  | mykey :: rest, tabh =>
      let hash := pairs.aK mykey ^^^ stabb
      if rollback && parent = 0 then setHashes stabb rollback parent rest tabh
      else if !rollback && (tabh hash).isSome then (false, tabh)
      else setHashes stabb rollback parent rest (Function.update tabh hash (some mykey))

/-- The walk of `apply` from child to parent, over at most `steps` entries of the queue. -/
def applyWalk (tabq : ℕ → QStuff) (rollback : Bool) : ℕ → ℕ → Tables → Bool × Tables
  | 0, _, tables => (true, tables)
  | steps + 1, child, tables =>
      if child = 0 then (true, tables)
      else
        let parent := (tabq child).parentQ
        match (tabq parent).bQ with
        | none => (false, tables)
        | some pb =>
            let erased := eraseHashes pairs (scramble (tables.tabb pb).valB) tables.tabh (tables.tabb pb).listB
            let valB := if rollback then (tabq child).oldvalQ else (tabq child).newvalQ
            let tabb := Function.update tables.tabb pb { tables.tabb pb with valB := valB }
            match setHashes pairs (scramble valB) rollback parent (tabb pb).listB erased with
            | (false, tabh) => (false, ⟨tabb, tabh⟩)
            | (true, tabh) => applyWalk tabq rollback steps parent ⟨tabb, tabh⟩

/-- `apply`: a collision rolls the changes back. -/
def apply (tabq : ℕ → QStuff) (tail : ℕ) (tables : Tables) : Bool × Tables :=
  match applyWalk pairs scramble tabq false tail (tail - 1) tables with
  | (true, applied) => (true, applied)
  | (false, partly) => (false, (applyWalk pairs scramble tabq true tail (tail - 1) partly).2)

/-- The walk over the keys of a `b` under one of its values: `none` for multiple collisions. -/
def childOf (smax : ℕ) (highwater : ℕ) (tables : Tables) (i : ℕ) : List ℕ → Option ℕ → Option (Option ℕ)
  | [], childb => some childb
  | mykey :: rest, childb =>
      let hash := pairs.aK mykey ^^^ scramble i
      if smax ≤ hash.toNat then none
      else
        match tables.tabh hash with
        | none => childOf smax highwater tables i rest childb
        | some childkey =>
            let hitb := pairs.bK childkey
            match childb with
            | some b => if b ≠ hitb then none else childOf smax highwater tables i rest childb
            | none =>
                if (tables.tabb hitb).waterB = highwater then none
                else childOf smax highwater tables i rest (some hitb)

/-- The locals of `augment` and the tables it changes. -/
structure Augmenting where
  tables : Tables
  tabq : ℕ → QStuff
  tail : ℕ

/-- The loop of `augment` over the values of `myb`, the head of the queue. -/
def augmentValues (smax : ℕ) (myb highwater : ℕ) : List ℕ → Augmenting → Option Tables
  | [], _ => none
  | i :: rest, state =>
      match childOf pairs scramble smax highwater state.tables i (state.tables.tabb myb).listB none with
      | none => augmentValues smax myb highwater rest state
      | some childb =>
          let tabb := match childb with
            | none => state.tables.tabb
            | some b => Function.update state.tables.tabb b { state.tables.tabb b with waterB := highwater }
          let tabq := Function.update state.tabq state.tail ⟨childb, 0, i, (state.tables.tabb myb).valB⟩
          match childb with
          | some _ => augmentValues smax myb highwater rest ⟨⟨tabb, state.tables.tabh⟩, tabq, state.tail + 1⟩
          | none =>
              match apply pairs scramble tabq (state.tail + 1) ⟨tabb, state.tables.tabh⟩ with
              | (true, applied) => some applied
              | (false, rolledBack) => augmentValues smax myb highwater rest ⟨rolledBack, tabq, state.tail⟩

/--
`augment`; `none` when it fails. The loop over the queue stops before its second entry, so only
the values of the root are tried.
-/
def augment (smax : ℕ) (tabq : ℕ → QStuff) (tables : Tables) (item : ℕ) : Option Tables :=
  augmentValues pairs scramble smax item (item + 1) (List.range 256)
    ⟨tables, Function.update tabq 0 { tabq 0 with bQ := some item }, 1⟩

/-- The `b`s in descending order of their numbers of keys. -/
def schedule (tabb : Tabb) (blen : ℕ) : List ℕ :=
  let maxkeys := (List.range blen).foldl (fun maxkeys i => max maxkeys (tabb i).listlenB) 0
  (List.range maxkeys).reverse.flatMap fun j => (List.range blen).filter fun i => (tabb i).listlenB = j + 1

/-- `perfect`; the entries of the queue that `augment` leaves are overwritten before they are read. -/
def perfect (smax blen : ℕ) (tabb : Tabb) : Option Tables :=
  (schedule tabb blen).foldlM (augment pairs scramble smax fun _ => ⟨none, 0, 0, 0⟩) ⟨tabb, fun _ => none⟩

end Mapping

/-- The initial `alen` and `blen` of `initalen`; the bounds are in fifths of `smax`. -/
def initalen (smax nkeys : ℕ) : ℕ × ℕ :=
  let blen := if 5 * nkeys ≤ 3 * smax then smax / 16 else if 5 * nkeys ≤ 4 * smax then smax / 8 else smax / 4
  (max smax 1, max blen 1)

def retryInitkey : ℕ := 2048

def retryPerfect : ℕ := 4

def goldenRatio : BitVec 64 := 0x9e3779b97f4a7c13#64

/-- The locals of `findhash` that its loop changes. -/
structure Finding where
  si : BitVec 32
  alen : ℕ
  blen : ℕ
  badInitkey : ℕ
  badPerfect : ℕ

/-- What `findhash` returns through its arguments. -/
structure Found where
  tabb : Tabb
  alen : ℕ
  blen : ℕ
  salt : BitVec 64

section Search

variable (lookup8 : Name → BitVec 64 → BitVec 64) (keys : List Name) (scramble : ℕ → BitVec 32) (smax : ℕ)

/-- After a collision of pairs: more of them after `RETRY_INITKEY` salts. -/
def Finding.badPairs (state : Finding) : Finding :=
  if retryInitkey ≤ state.badInitkey + 1 then
    { si := state.si + 1
      alen := if state.alen < smax then state.alen * 2 else state.alen
      blen := if state.alen < smax then state.blen else if state.blen < smax then state.blen * 2 else state.blen
      badInitkey := 0
      badPerfect := 0 }
  else { state with si := state.si + 1, badInitkey := state.badInitkey + 1 }

/-- After `perfect` failed: a longer `tab` with the same salt after `RETRY_PERFECT` salts, or none. -/
def Finding.badMapping (state : Finding) : Option Finding :=
  if retryPerfect ≤ state.badPerfect + 1 then
    if state.blen < smax then some { state with blen := state.blen * 2, badPerfect := 0 }
    else none
  else some { state with si := state.si + 1, badPerfect := state.badPerfect + 1 }

/-- The loop of `findhash`: `none` after too many rounds, `some none` when it gives up. -/
def findhashLoop : ℕ → Finding → Option (Option Found)
  | 0, _ => none
  | rounds + 1, state => do
      let salt := state.si.setWidth 64 * goldenRatio
      let loga ← log2u state.alen
      let pairs := initnorm lookup8 keys loga state.blen salt
      match inittab pairs keys.length with
      | none => findhashLoop rounds (state.badPairs smax)
      | some tabb =>
          match perfect pairs scramble smax state.blen tabb with
          | some tables => return some ⟨tables.tabb, state.alen, state.blen, salt⟩
          | none =>
              match state.badMapping smax with
              | none => return none
              | some next => findhashLoop rounds next

def findhash (rounds : ℕ) : Option (Option Found) :=
  let (alen, blen) := initalen smax (keys.length % 2 ^ 32)
  findhashLoop lookup8 keys scramble smax rounds ⟨1, alen, blen, 0, 0⟩

end Search

structure PerfectHash where
  capacity : BitVec 32
  occupied : BitVec 32
  shift : BitVec 32
  mask : BitVec 32
  salt : BitVec 64
  scramble : List (BitVec 32)
  tab : List (BitVec 8)

/-- The result of a failure, after `bzero`. -/
def PerfectHash.failed : PerfectHash := ⟨0, 0, 0, 0, 0, List.replicate 256 0, []⟩

/-- The tables that `make_perfect` builds. -/
def PerfectHash.build (found : Found) (loga smax nkeys : ℕ) (scramble : ℕ → BitVec 32) : PerfectHash where
  capacity := BitVec.ofNat 32 smax
  occupied := BitVec.ofNat 32 nkeys
  shift := BitVec.ofNat 32 (64 - loga)
  mask := BitVec.ofNat 32 (found.blen - 1)
  salt := found.salt
  scramble := (List.range 256).map scramble
  tab := (List.range found.blen).map fun i => BitVec.ofNat 8 (found.tabb i).valB

/-- One call of `findhash` by `make_perfect` for a table of size `smax`. -/
def tryCapacity (lookup8 : Name → BitVec 64 → BitVec 64) (rounds : ℕ) (keys : List Name) (smax : ℕ) :
    Option (Option PerfectHash) := do
  let nbits ← log2u smax
  let found ← findhash lookup8 keys (scrambleinit nbits) smax rounds
  match found with
  | none => return none
  | some found =>
      let loga ← log2u found.alen
      return some (PerfectHash.build found loga smax keys.length (scrambleinit nbits))

/-- `make_perfect`; `none` when it does not return within the bound on each loop of `findhash`. -/
def makePerfect (lookup8 : Name → BitVec 64 → BitVec 64) (rounds : ℕ) (keys : List Name) :
    Option PerfectHash := do
  let nbits ← log2u (keys.length % 2 ^ 32)
  match ← tryCapacity lookup8 rounds keys (1 <<< nbits) with
  | some result => return result
  | none =>
      match ← tryCapacity lookup8 rounds keys (2 * 1 <<< nbits % 2 ^ 32) with
      | some result => return result
      | none => return PerfectHash.failed

end ObjcDyld.ObjcTables
