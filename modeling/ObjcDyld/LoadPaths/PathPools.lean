import Mathlib.Data.List.Forall2
import Mathlib.Data.List.Flatten

/-!
# The path pool

Strings are copied behind each other into blocks of 32 KB.  A string goes to the first block with room for it, and a new
block is chained behind the last one when there is none.
-/

namespace ObjcDyld.LoadPaths

/-- A C string, without its terminator. -/
structure CString where
  chars : List Char
  unterminated : '\x00' ∉ chars

/-- The string at a place of a buffer; `none` when no terminator follows. -/
def stringAt (buffer : List Char) (s : ℕ) : Option (List Char) :=
  if '\x00' ∈ buffer.drop s then some ((buffer.drop s).takeWhile (· ≠ '\x00')) else none

/-- `strcpy`; `none` when the buffer is too short. -/
def strcpy (buffer : List Char) (place : ℕ) (path : List Char) : Option (List Char) :=
  if place + (path.length + 1) ≤ buffer.length then
    some (buffer.take place ++ ((path ++ ['\x00']) ++ buffer.drop (place + (path.length + 1))))
  else none

def kAllocationSize : ℕ := 32 * 1024

/-- `sizeof(PathPool)` -/
def sizeofPathPool : ℕ := 24

/-- One `PathPool`; `_next` is the block behind it in the list of blocks, and `_current` is a place in the buffer. -/
structure PathPool where
  current : ℕ
  bytesFree : ℕ
  buffer : List Char

/-- Where a string was put. -/
structure Pointer where
  block : ℕ
  offset : ℕ

namespace PathPool

/-- `PathPool::allocate` -/
def allocate : PathPool where
  current := 0
  bytesFree := kAllocationSize - sizeofPathPool
  buffer := List.replicate (kAllocationSize - sizeofPathPool) '\x00'

/-- `PathPool::add` on a block and those behind it.  A missing block is allocated; `none` when the fuel is used up, or a
string is copied behind the end of a block. -/
def add : ℕ → List PathPool → List Char → Option (List PathPool × Pointer)
  | 0, _, _ => none
  | fuel + 1, [], path => add fuel [allocate] path
  | fuel + 1, pool :: next, path =>
      let len := path.length + 1
      if len < pool.bytesFree then do
        let buffer ← strcpy pool.buffer pool.current path
        return ({ current := pool.current + len, bytesFree := pool.bytesFree - len, buffer := buffer } :: next, ⟨0, pool.current⟩)
      else do
        let (next, result) ← add fuel next path
        return (pool :: next, { result with block := result.block + 1 })

/-- The loop of `PathPool::forEachPath` over one block. -/
def pathsFrom (pool : PathPool) (s : ℕ) : Option (List (List Char)) :=
  if s < pool.current then do
    let path ← stringAt pool.buffer s
    let paths ← pathsFrom pool (s + path.length + 1)
    return path :: paths
  else some []
termination_by pool.current - s

/-- The strings that `PathPool::forEachPath` hands to its handler. -/
def forEachPath : List PathPool → Option (List (List Char))
  | [] => some []
  | pool :: next => do
      let paths ← pathsFrom pool 0
      let others ← forEachPath next
      return paths ++ others

/-- A call of `PathPool::add` that returns. -/
def Adds (pools : List PathPool) (path : List Char) (pools' : List PathPool) (result : Pointer) : Prop :=
  ∃ fuel, add fuel pools path = some (pools', result)

/-- Calls of `PathPool::add` that all return, with the pointers they return. -/
inductive AddsAll : List PathPool → List CString → List PathPool → List Pointer → Prop where
  | nil {pools : List PathPool} : AddsAll pools [] pools []
  | cons {pools pools' pools'' : List PathPool} {string : CString} {strings : List CString} {result : Pointer}
      {results : List Pointer} (first : Adds pools string.chars pools' result) (rest : AddsAll pools' strings pools'' results) :
      AddsAll pools (string :: strings) pools'' (result :: results)

def read (pools : List PathPool) (pointer : Pointer) : Option (List Char) := do
  let pool ← pools[pointer.block]?
  stringAt pool.buffer pointer.offset

def Inside (pools : List PathPool) (string : CString) (pointer : Pointer) : Prop :=
  ∃ pool, pools[pointer.block]? = some pool ∧ pool.buffer.length = kAllocationSize - sizeofPathPool ∧
    pointer.offset + (string.chars.length + 1) ≤ pool.buffer.length

/-- Two strings share no byte. -/
def Apart (first second : CString × Pointer) : Prop :=
  first.2.block ≠ second.2.block ∨ first.2.offset + (first.1.chars.length + 1) ≤ second.2.offset ∨
    second.2.offset + (second.1.chars.length + 1) ≤ first.2.offset

/-- What the pool promises of the strings that were added. -/
structure Stored (pools : List PathPool) (strings : List CString) (pointers : List Pointer) : Prop where
  read : List.Forall₂ (fun string pointer => read pools pointer = some string.chars) strings pointers
  inside : List.Forall₂ (Inside pools) strings pointers
  disjoint : (strings.zip pointers).Pairwise Apart
  visited : ∃ paths, forEachPath pools = some paths ∧ paths.Perm (strings.map CString.chars)

/-! ## One block -/

def bytes (strings : List CString) : List Char := strings.flatMap fun string => string.chars ++ ['\x00']

@[simp] theorem bytes_append (first second : List CString) : bytes (first ++ second) = bytes first ++ bytes second :=
  List.flatMap_append

@[simp] theorem bytes_cons (string : CString) (strings : List CString) :
    bytes (string :: strings) = string.chars ++ ['\x00'] ++ bytes strings := rfl

theorem bytes_singleton (string : CString) : bytes [string] = string.chars ++ ['\x00'] := List.append_nil _

/-- The strings in a block. -/
structure Holds (pool : PathPool) (strings : List CString) : Prop where
  buffer : ∃ rest, pool.buffer = bytes strings ++ rest
  length : pool.buffer.length = kAllocationSize - sizeofPathPool
  current : pool.current = (bytes strings).length
  bytesFree : pool.current + pool.bytesFree = kAllocationSize - sizeofPathPool

theorem allocate_holds : allocate.Holds [] := ⟨⟨_, rfl⟩, List.length_replicate, rfl, Nat.zero_add _⟩

section Block

variable {pool : PathPool} {string : CString} {front back strings : List CString}

theorem stringAt_bytes (rest : List Char) :
    stringAt (bytes (front ++ string :: back) ++ rest) (bytes front).length = some string.chars := by
  have place : (bytes (front ++ string :: back) ++ rest).drop (bytes front).length =
      string.chars ++ '\x00' :: (bytes back ++ rest) := by
    rw [bytes_append, List.append_assoc, List.drop_left, bytes_cons, List.append_assoc, List.append_assoc]
    rfl
  have inner : ∀ c ∈ string.chars, decide (c ≠ '\x00') = true := fun c member =>
    decide_eq_true (ne_of_mem_of_not_mem member string.unterminated)
  rw [stringAt, place, if_pos (by simp), List.takeWhile_append_of_pos inner, List.takeWhile_cons_of_neg (by simp),
    List.append_nil]

theorem Holds.add (holds : pool.Holds strings) (fits : string.chars.length + 1 < pool.bytesFree) :
    ∃ buffer, strcpy pool.buffer pool.current string.chars = some buffer ∧
      Holds ⟨pool.current + (string.chars.length + 1), pool.bytesFree - (string.chars.length + 1), buffer⟩ (strings ++ [string]) := by
  obtain ⟨rest, buffer⟩ := holds.buffer
  have room := holds.bytesFree
  have length := holds.length
  have enough : pool.current + (string.chars.length + 1) ≤ pool.buffer.length := by omega
  have kept : pool.buffer.take pool.current = bytes strings := by rw [holds.current, buffer, List.take_left]
  refine ⟨_, if_pos enough, ⟨pool.buffer.drop (pool.current + (string.chars.length + 1)), ?_⟩, ?_, ?_, ?_⟩
  · dsimp only
    rw [kept, bytes_append, bytes_singleton, List.append_assoc, List.append_assoc, List.append_assoc]
  · dsimp only
    rw [kept, List.length_append, List.length_append, List.length_append, List.length_drop, ← holds.current,
      List.length_singleton, ← length]
    omega
  · rw [bytes_append, bytes_singleton, List.length_append, List.length_append, ← holds.current]
    rfl
  · dsimp only
    omega

theorem pathsFrom_eq (holds : pool.Holds (front ++ back)) : pathsFrom pool (bytes front).length = some (back.map CString.chars) := by
  induction back generalizing front with
  | nil =>
      rw [List.append_nil] at holds
      rw [pathsFrom, if_neg (by rw [holds.current]; exact Nat.lt_irrefl _)]
      rfl
  | cons string back ih =>
      obtain ⟨rest, buffer⟩ := holds.buffer
      have more : (bytes front).length < pool.current := by
        rw [holds.current, bytes_append, bytes_cons]
        simp only [List.length_append, List.length_cons]
        omega
      have next : (bytes front).length + string.chars.length + 1 = (bytes (front ++ [string])).length := by
        rw [bytes_append, bytes_cons]
        simp [bytes]
        omega
      rw [pathsFrom, if_pos more, buffer, stringAt_bytes, Option.bind_eq_bind, Option.bind_some, next,
        ih (by rw [List.append_assoc]; exact holds)]
      rfl

end Block

/-! ## The chain of blocks -/

def PointsTo (contents : List (List CString)) (string : CString) (pointer : Pointer) : Prop :=
  ∃ front back, contents[pointer.block]? = some (front ++ string :: back) ∧ pointer.offset = (bytes front).length

/-- A string is put behind those of one block. -/
inductive Put (string : CString) : List (List CString) → Pointer → List (List CString) → Prop where
  | here {strings : List CString} {contents : List (List CString)} :
      Put string (strings :: contents) ⟨0, (bytes strings).length⟩ ((strings ++ [string]) :: contents)
  | next {strings : List CString} {contents contents' : List (List CString)} {pointer : Pointer}
      (behind : Put string contents pointer contents') :
      Put string (strings :: contents) ⟨pointer.block + 1, pointer.offset⟩ (strings :: contents')
  | new : Put string [] ⟨0, 0⟩ [[string]]

namespace Put

variable {string other : CString} {contents contents' : List (List CString)} {pointer pointer' : Pointer}

theorem pointsTo (put : Put string contents pointer contents') : PointsTo contents' string pointer := by
  induction put with
  | here => exact ⟨_, [], rfl, rfl⟩
  | next behind ih => exact ih
  | new => exact ⟨[], [], rfl, rfl⟩

theorem perm (put : Put string contents pointer contents') : contents'.flatten.Perm (string :: contents.flatten) := by
  induction put with
  | here =>
      rw [List.flatten_cons, List.flatten_cons, List.append_assoc]
      exact List.perm_middle
  | next behind ih =>
      rw [List.flatten_cons, List.flatten_cons]
      exact (ih.append_left _).trans List.perm_middle
  | new => exact List.Perm.refl _

theorem kept (put : Put string contents pointer contents') (there : PointsTo contents other pointer') :
    PointsTo contents' other pointer' ∧ Apart (other, pointer') (string, pointer) := by
  induction put generalizing pointer' with
  | @here strings contents =>
      obtain ⟨block, offset⟩ := pointer'
      obtain ⟨front, back, content, place⟩ := there
      cases block with
      | zero =>
          have same : strings = front ++ other :: back := Option.some.inj content
          refine ⟨⟨front, back ++ [string], ?_, place⟩, .inr (.inl ?_)⟩
          · rw [same, List.append_assoc]
            rfl
          · dsimp only at place ⊢
            rw [place, same, bytes_append, bytes_cons]
            simp
      | succ block => exact ⟨⟨front, back, content, place⟩, .inl (Nat.succ_ne_zero block)⟩
  | @next strings contents contents' pointer behind ih =>
      obtain ⟨block, offset⟩ := pointer'
      cases block with
      | zero =>
          obtain ⟨front, back, content, place⟩ := there
          exact ⟨⟨front, back, content, place⟩, .inl (Nat.succ_ne_zero _).symm⟩
      | succ block =>
          obtain ⟨kept, apart⟩ := @ih ⟨block, offset⟩ there
          exact ⟨kept, apart.imp_left fun ne same => ne (Nat.succ.inj same)⟩
  | new =>
      obtain ⟨front, back, content, place⟩ := there
      cases content

end Put

theorem add_mono {pools : List PathPool} {path : List Char} {fuel fuel' : ℕ} {found : List PathPool × Pointer}
    (run : add fuel pools path = some found) (more : fuel ≤ fuel') : add fuel' pools path = some found := by
  induction fuel generalizing pools found fuel' with
  | zero => cases run
  | succ fuel ih =>
      cases fuel' with
      | zero => cases more
      | succ fuel' =>
          have more := Nat.le_of_succ_le_succ more
          cases pools with
          | nil =>
              rw [add] at run ⊢
              exact ih run more
          | cons pool pools =>
              rw [add] at run ⊢
              dsimp only at run ⊢
              split at run
              · next fits =>
                  rw [if_pos fits]
                  exact run
              · next full =>
                  obtain ⟨later, inner, result⟩ := Option.bind_eq_some_iff.1 run
                  rw [if_neg full, ih inner more]
                  exact result

theorem Adds.unique {pools : List PathPool} {path : List Char} {found found' : List PathPool × Pointer}
    (first : Adds pools path found.1 found.2) (second : Adds pools path found'.1 found'.2) : found = found' := by
  obtain ⟨fuel, first⟩ := first
  obtain ⟨fuel', second⟩ := second
  have first := add_mono first (Nat.le_max_left fuel fuel')
  exact Option.some.inj (first.symm.trans (add_mono second (Nat.le_max_right fuel fuel')))

section Chain

variable {pools : List PathPool} {contents : List (List CString)} {string : CString} {pointer : Pointer}

theorem read_of_pointsTo (holds : List.Forall₂ Holds pools contents) (there : PointsTo contents string pointer) :
    read pools pointer = some string.chars ∧ Inside pools string pointer := by
  obtain ⟨front, back, content, place⟩ := there
  obtain ⟨block, offset⟩ := pointer
  dsimp only at content place
  obtain ⟨inside, value⟩ := List.getElem?_eq_some_iff.1 content
  have blocks : block < pools.length := holds.length_eq.symm ▸ inside
  have here := (List.forall₂_iff_get.1 holds).2 block blocks inside
  rw [List.get_eq_getElem, List.get_eq_getElem, value] at here
  have pool := List.getElem?_eq_getElem blocks
  generalize pools[block] = found at here pool
  obtain ⟨rest, buffer⟩ := here.buffer
  constructor
  · rw [read, pool, Option.bind_eq_bind, Option.bind_some, buffer, place, stringAt_bytes]
  · refine ⟨found, pool, here.length, ?_⟩
    dsimp only
    rw [buffer, place, bytes_append, bytes_cons]
    simp

theorem forEachPath_eq (holds : List.Forall₂ Holds pools contents) :
    forEachPath pools = some (contents.flatten.map CString.chars) := by
  induction holds with
  | nil => rfl
  | cons here rest ih =>
      rw [forEachPath, show (0 : ℕ) = (bytes []).length from rfl, pathsFrom_eq here, ih, List.flatten_cons, List.map_append]
      rfl

theorem add_of_fits {pool : PathPool} {path buffer : List Char} (fits : path.length + 1 < pool.bytesFree)
    (copied : strcpy pool.buffer pool.current path = some buffer) (fuel : ℕ) (next : List PathPool) :
    add (fuel + 1) (pool :: next) path =
      some (⟨pool.current + (path.length + 1), pool.bytesFree - (path.length + 1), buffer⟩ :: next, ⟨0, pool.current⟩) := by
  rw [add]
  dsimp only
  rw [if_pos fits, copied]
  rfl

theorem adds_of_short (short : string.chars.length + 1 < kAllocationSize - sizeofPathPool)
    (holds : List.Forall₂ Holds pools contents) :
    ∃ pools' result contents', Adds pools string.chars pools' result ∧ Put string contents result contents' ∧
      List.Forall₂ Holds pools' contents' := by
  induction holds with
  | nil =>
      obtain ⟨buffer, copied, holds'⟩ := allocate_holds.add short
      exact ⟨_, ⟨0, 0⟩, _, ⟨2, add_of_fits short copied 0 []⟩, .new, .cons holds' .nil⟩
  | @cons pool strings pools contents here rest ih =>
      by_cases fits : string.chars.length + 1 < pool.bytesFree
      · obtain ⟨buffer, copied, holds'⟩ := here.add fits
        refine ⟨_, ⟨0, pool.current⟩, _, ⟨1, add_of_fits fits copied 0 pools⟩, ?_, .cons holds' rest⟩
        rw [here.current]
        exact .here
      · obtain ⟨pools', result, contents', ⟨fuel, run⟩, put, holds'⟩ := ih
        refine ⟨_, ⟨result.block + 1, result.offset⟩, _, ⟨fuel + 1, ?_⟩, .next put, .cons here holds'⟩
        rw [add]
        dsimp only
        rw [if_neg fits, run]
        rfl

theorem not_adds_of_long (long : ¬string.chars.length + 1 < kAllocationSize - sizeofPathPool)
    (holds : List.Forall₂ Holds pools contents) (pools' : List PathPool) (result : Pointer) :
    ¬Adds pools string.chars pools' result := by
  rintro ⟨fuel, run⟩
  induction fuel generalizing pools contents pools' result with
  | zero => cases run
  | succ fuel ih =>
      cases holds with
      | nil => exact ih (.cons allocate_holds .nil) pools' result run
      | @cons pool strings pools contents here rest =>
          have full : ¬string.chars.length + 1 < pool.bytesFree := by
            have room := here.bytesFree
            omega
          rw [add] at run
          dsimp only at run
          rw [if_neg full] at run
          cases later : add fuel pools string.chars with
          | none =>
              rw [later] at run
              cases run
          | some found => exact ih rest found.1 found.2 later

end Chain

/-! ## All strings -/

/-- What is known of the pool while strings are added. -/
structure Invariant (contents : List (List CString)) (strings : List CString) (pointers : List Pointer) : Prop where
  pointsTo : List.Forall₂ (PointsTo contents) strings pointers
  disjoint : (strings.zip pointers).Pairwise Apart
  perm : contents.flatten.Perm strings

section Run

variable {pools : List PathPool} {contents contents' : List (List CString)} {string : CString} {pointer : Pointer}
  {strings done : List CString} {pointers : List Pointer}

theorem Invariant.put (invariant : Invariant contents strings pointers) (put : Put string contents pointer contents') :
    Invariant contents' (strings ++ [string]) (pointers ++ [pointer]) := by
  obtain ⟨there, disjoint, perm⟩ := invariant
  refine ⟨?_, ?_, ?_⟩
  · exact List.rel_append (there.imp fun other pointer' here => (put.kept here).1) (.cons put.pointsTo .nil)
  · rw [List.zip_append there.length_eq, List.pairwise_append]
    refine ⟨disjoint, List.pairwise_singleton _ _, fun first member second last => ?_⟩
    rw [List.zip_cons_cons, List.zip_nil_left, List.mem_singleton] at last
    rw [last]
    exact (put.kept ((List.forall₂_iff_zip.1 there).2 member)).2
  · exact put.perm.trans ((perm.cons string).trans (List.perm_append_singleton string strings).symm)

theorem addsAll_of_short (short : ∀ string ∈ strings, string.chars.length + 1 < kAllocationSize - sizeofPathPool)
    (holds : List.Forall₂ Holds pools contents) (invariant : Invariant contents done pointers) :
    ∃ pools' results contents', AddsAll pools strings pools' results ∧ List.Forall₂ Holds pools' contents' ∧
      Invariant contents' (done ++ strings) (pointers ++ results) := by
  induction strings generalizing pools contents done pointers with
  | nil => exact ⟨pools, [], contents, .nil, holds, by rwa [List.append_nil, List.append_nil]⟩
  | cons string strings ih =>
      obtain ⟨pools₁, result, contents₁, first, put, holds₁⟩ := adds_of_short (short string List.mem_cons_self) holds
      obtain ⟨pools', results, contents', rest, holds', invariant'⟩ :=
        ih (fun string member => short string (List.mem_cons_of_mem _ member)) holds₁ (invariant.put put)
      rw [List.append_assoc, List.append_assoc] at invariant'
      exact ⟨pools', result :: results, contents', .cons first rest, holds', invariant'⟩

theorem short_of_addsAll {pools' : List PathPool} {results : List Pointer} (run : AddsAll pools strings pools' results)
    (holds : ∃ contents, List.Forall₂ Holds pools contents) :
    ∀ string ∈ strings, string.chars.length + 1 < kAllocationSize - sizeofPathPool := by
  obtain ⟨contents, holds⟩ := holds
  induction run generalizing contents with
  | nil =>
      intro string member
      cases member
  | @cons pools pools₁ pools' string strings result results first rest ih =>
      have short : string.chars.length + 1 < kAllocationSize - sizeofPathPool := by
        by_contra long
        exact not_adds_of_long long holds pools₁ result first
      obtain ⟨pools₂, result', contents', first', -, holds'⟩ := adds_of_short short holds
      rw [(Prod.mk.inj (first.unique first')).1] at ih
      exact List.forall_mem_cons.2 ⟨short, ih contents' holds'⟩

end Run

/-- All calls return, with pointers at which the strings stay, just when every string is shorter than a block by more than
its terminator. -/
theorem addsAll_iff (strings : List CString) :
    (∃ pools pointers, AddsAll [allocate] strings pools pointers ∧ Stored pools strings pointers) ↔
      ∀ string ∈ strings, string.chars.length + 1 < kAllocationSize - sizeofPathPool := by
  have start : List.Forall₂ Holds [allocate] [[]] := .cons allocate_holds .nil
  constructor
  · rintro ⟨pools, pointers, run, -⟩
    exact short_of_addsAll run ⟨_, start⟩
  · intro short
    have empty : Invariant [[]] [] [] := ⟨.nil, .nil, .nil⟩
    obtain ⟨pools, pointers, contents, run, holds, there, disjoint, perm⟩ := addsAll_of_short short start empty
    refine ⟨pools, pointers, run, ?_, ?_, disjoint, _, forEachPath_eq holds, perm.map _⟩
    · exact there.imp fun string pointer here => (read_of_pointsTo holds here).1
    · exact there.imp fun string pointer here => (read_of_pointsTo holds here).2

/-- A string that, with its terminator, takes a whole block. -/
def wholeBlock : CString where
  chars := List.replicate (kAllocationSize - sizeofPathPool - 1) 'a'
  unterminated := fun member => absurd (List.eq_of_mem_replicate member) (by decide)

/-- A string that would fill an empty block is never put anywhere. -/
theorem wholeBlock_not_stored :
    ¬∃ pools pointers, AddsAll [allocate] [wholeBlock] pools pointers ∧ Stored pools [wholeBlock] pointers := by
  rintro ⟨pools, pointers, run, -⟩
  have short := short_of_addsAll run ⟨_, .cons allocate_holds .nil⟩ wholeBlock List.mem_cons_self
  rw [wholeBlock, List.length_replicate] at short
  exact absurd short (by decide)

end PathPool

end ObjcDyld.LoadPaths
