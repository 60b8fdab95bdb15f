import ObjcDyld.Weak.VariablesInvariant

/-!
# Weak variables do not dangle

Every sequence of completed calls leaves each weak variable holding nil, a tagged pointer, or an
object that is not freed and has the variable registered once; and the object's flag is set, so that
its deallocation finds the variable.
-/

namespace ObjcDyld.Weak

open Function (update update_self update_of_ne)
open Retain (Isa Object RetainOp isWeaklyReferenced)

variable {platform : Platform} {heap : Heap} {live : Set ℕ}

/-! ## What the callers promise -/

/-- Allocation succeeds, and a class's own methods do not install the nil class. -/
structure Outside.Sound (outside : Outside) : Prop where
  alloc : ∀ n, 0 < outside.calloc n ∧ outside.calloc n < 2 ^ 64
  retaining : ∀ custom ∈ outside.customRR, ∀ op ∈ custom.retaining, op.Installs
  releasing : ∀ custom ∈ outside.customRR, ∀ op ∈ custom.releasing, op.Installs

/--
A variable is initialized before it is used and not twice, what is stored is not freed, and objects
are allocated where nothing is.
-/
def WeakCall.Legal (platform : Platform) (heap : Heap) (live : Set ℕ) : WeakCall → Prop
  | .initWeak outside location newObj | .initWeakOrNil outside location newObj =>
      outside.Sound ∧ Location location ∧ location ∉ live ∧ HeapInv.Referable platform heap newObj
  | .storeWeak outside location newObj | .storeWeakOrNil outside location newObj =>
      outside.Sound ∧ location ∈ live ∧ HeapInv.Referable platform heap newObj
  | .copyWeak outside dst src | .moveWeak outside dst src =>
      outside.Sound ∧ src ∈ live ∧ Location dst ∧ dst ∉ live
  | .destroyWeak _ location => location ∈ live
  | .rootDealloc obj | .objectDispose obj => heap.allocated obj = true
  | .retainOp obj op => heap.allocated obj = true ∧ op.Installs
  | .allocate obj isa =>
      heap.allocated obj = false ∧ obj ≠ 0 ∧ platform.isTaggedPointer obj = false ∧ isa.Named
  | .zeroed location => Location location ∧ location ∉ live
  | .write location _ => location ∉ live

/-- The weak variables after a call: a variable that was moved stays, holding nil. -/
def WeakCall.liveAfter (live : Set ℕ) : WeakCall → Set ℕ
  | .initWeak _ location _ | .initWeakOrNil _ location _ | .zeroed location => insert location live
  | .copyWeak _ dst _ | .moveWeak _ dst _ => insert dst live
  | .destroyWeak _ location => live \ {location}
  | _ => live

/-- Every call of a sequence is legal when its turn comes. -/
def LegalCalls (platform : Platform) : List WeakCall → Heap → Set ℕ → Prop
  | [], _, _ => True
  | call :: calls, heap, live =>
      call.Legal platform heap live ∧
        ∀ heap', call.run platform heap = .ok heap' →
          LegalCalls platform calls heap' (call.liveAfter live)

/-- The calls that halt the process when the object is deallocating. -/
def WeakCall.CrashesIfDeallocating : WeakCall → Prop
  | .initWeak .. | .storeWeak .. | .copyWeak .. | .moveWeak .. => True
  | _ => False

/-- How a call ends: with the invariant, or the process is halted on forming a weak reference. -/
def Ends (platform : Platform) (result : Except WeakError Heap) (live : Set ℕ) (crash : Prop) :
    Prop :=
  (∃ heap', result = .ok heap' ∧ HeapInv platform heap' live) ∨
    (result = .error .cannotFormWeakReference ∧ crash)

namespace HeapInv

/-! ## One call -/

theorem referable (inv : HeapInv platform heap live) {r : ℕ} (mem : r ∈ live) :
    Referable platform heap (heap.memory r) := by
  by_cases nil : heap.memory r = 0
  · exact .inl nil
  · cases tagged : platform.isTaggedPointer (heap.memory r) with
    | true => exact .inr (.inl tagged)
    | false => exact .inr (.inr (inv.entries _ _ nil (inv.entered mem nil tagged)).2.1)

theorem initWeak (inv : HeapInv platform heap live) {location newObj : ℕ} {outside : Outside}
    (sound : outside.Sound) (loc : Location location) (dead : location ∉ live)
    (referable : Referable platform heap newObj) (crash : Bool) {result : Except WeakError (ℕ × Heap)}
    (run : result = if newObj = 0 then .ok (0, heap.store location 0)
      else Weak.storeWeak platform outside false true crash location newObj heap) :
    (∃ answer heap', result = .ok (answer, heap') ∧ HeapInv platform heap' (insert location live) ∧
        heap'.allocated = heap.allocated) ∨
      (result = .error .cannotFormWeakReference ∧ crash = true) := by
  rw [run]
  split
  · exact .inl ⟨0, _, rfl, inv.storeUnregistered dead loc (.inl rfl), rfl⟩
  · exact inv.registerNew dead loc sound.alloc crash referable

theorem storeWeak (inv : HeapInv platform heap live) {location newObj : ℕ} {outside : Outside}
    (sound : outside.Sound) (mem : location ∈ live) (referable : Referable platform heap newObj)
    (crash : Bool) :
    (∃ answer heap', Weak.storeWeak platform outside true true crash location newObj heap =
        .ok (answer, heap') ∧ HeapInv platform heap' live) ∨
      (Weak.storeWeak platform outside true true crash location newObj heap =
        .error .cannotFormWeakReference ∧ crash = true) := by
  obtain ⟨table, run, inv'⟩ := inv.unregisterOld mem
  have back : insert location (live \ {location}) = live := by
    rw [Set.insert_sdiff_singleton, Set.insert_eq_of_mem mem]
  have step : Weak.storeWeak platform outside true true crash location newObj heap =
      Weak.registerNew platform outside crash location newObj
        (heap.setWeakTable platform (heap.memory location) table) := by
    rw [Weak.storeWeak, if_pos rfl, run]
    rfl
  rw [step]
  rcases inv'.registerNew (fun mem => mem.2 rfl) (inv.locations location mem) sound.alloc crash
    referable with ⟨answer, heap', registers, after, -⟩ | halts
  · rw [back] at after
    exact .inl ⟨answer, heap', registers, after⟩
  · exact .inr halts

theorem destroyWeak (inv : HeapInv platform heap live) {location : ℕ} (outside : Outside)
    (mem : location ∈ live) :
    ∃ heap', objcDestroyWeak platform outside location heap = .ok heap' ∧
      HeapInv platform heap' (live \ {location}) := by
  obtain ⟨table, run, inv'⟩ := inv.unregisterOld mem
  refine ⟨_, ?_, inv'⟩
  rw [objcDestroyWeak, Weak.storeWeak, if_pos rfl, run]
  rfl

theorem runOps (inv : HeapInv platform heap live) {obj : ℕ} (allocated : heap.allocated obj = true)
    {ops : List RetainOp} (installs : ∀ op ∈ ops, op.Installs) :
    HeapInv platform (heap.runOps platform obj ops) live :=
  inv.keepsFlag allocated (Retain.runRetainOps_keepsFlag _ ops installs _)

theorem loadWeakRetained (inv : HeapInv platform heap live) {r : ℕ} {outside : Outside}
    (sound : outside.Sound) (mem : r ∈ live) :
    HeapInv platform (objcLoadWeakRetained platform outside r heap).2 live ∧
      Referable platform (objcLoadWeakRetained platform outside r heap).2
        (objcLoadWeakRetained platform outside r heap).1 := by
  unfold objcLoadWeakRetained
  dsimp only
  split
  next => exact ⟨inv, .inl rfl⟩
  next nil =>
    split
    next tagged => exact ⟨inv, .inr (.inl tagged)⟩
    next untagged =>
      have allocated : heap.allocated (heap.memory r) = true := by
        rcases inv.referable mem with zero | tagged | allocated
        · exact absurd zero nil
        · exact absurd tagged untagged
        · exact allocated
      have answer : ∀ (retained : Bool) (heap' : Heap), heap'.allocated = heap.allocated →
          Referable platform heap' (if retained then heap.memory r else 0) := by
        intro retained heap' same
        cases retained with
        | true =>
            rw [if_pos rfl, Referable, same]
            exact .inr (.inr allocated)
        | false => exact .inl rfl
      cases custom : outside.customRR with
      | none =>
          exact ⟨inv.keepsFlag allocated (Retain.rootRetain_keepsFlag true false _ _),
            answer _ _ rfl⟩
      | some custom' =>
          have installs := sound.retaining custom' custom
          simp only
          split
          next => exact ⟨inv, .inl rfl⟩
          next retained _ => exact ⟨inv.runOps allocated installs, answer retained _ rfl⟩

theorem release (inv : HeapInv platform heap live) {obj : ℕ} {outside : Outside}
    (sound : outside.Sound) (referable : Referable platform heap obj) :
    ∃ heap', objcRelease platform outside obj heap = .ok heap' ∧
      HeapInv platform heap' live := by
  unfold objcRelease
  split
  next => exact ⟨heap, rfl, inv⟩
  next nil =>
    split
    next => exact ⟨heap, rfl, inv⟩
    next untagged =>
      have allocated : heap.allocated obj = true :=
        (referable.resolve_left nil).resolve_left untagged
      -- what happens once the count is taken off
      have rest : ∀ (heap' : Heap) (deallocates : Bool), HeapInv platform heap' live →
          heap'.allocated = heap.allocated →
          ∃ after, (if deallocates then Weak.rootDealloc platform obj heap' else .ok heap') =
            .ok after ∧ HeapInv platform after live := by
        intro heap' deallocates inv' same
        cases deallocates with
        | true =>
            obtain ⟨after, run, disposed⟩ := inv'.rootDealloc (same ▸ allocated)
            exact ⟨after, run, disposed.inv⟩
        | false => exact ⟨heap', rfl, inv'⟩
      cases custom : outside.customRR with
      | none =>
          exact rest _ _ (inv.keepsFlag allocated
            (Retain.rootRelease_keepsFlag true false false outside.stores _)) rfl
      | some custom' =>
          exact rest _ _ (inv.runOps allocated (sound.releasing custom' custom)) rfl

/-- Copying initializes the destination with what loading the source answers. -/
theorem copyWeak (inv : HeapInv platform heap live) {dst src : ℕ} {outside : Outside}
    (sound : outside.Sound) (mem : src ∈ live) (loc : Location dst) (dead : dst ∉ live) :
    Ends platform (objcCopyWeak platform outside dst src heap) (insert dst live) True := by
  obtain ⟨inv', referable⟩ := inv.loadWeakRetained sound mem
  rw [objcCopyWeak]
  generalize objcLoadWeakRetained platform outside src heap = loaded at inv' referable
  obtain ⟨obj, retained⟩ := loaded
  rcases inv'.initWeak sound loc dead referable true rfl with
    ⟨answer, initialized, run, inv'', same⟩ | ⟨run, -⟩
  · have referable : Referable platform initialized obj := by
      rw [Referable, same]
      exact referable
    obtain ⟨released, ran, after⟩ := inv''.release sound referable
    refine .inl ⟨released, ?_, after⟩
    show (objcInitWeak platform outside dst obj retained >>= _) = _
    rw [objcInitWeak, run]
    exact ran
  · refine .inr ⟨?_, trivial⟩
    show (objcInitWeak platform outside dst obj retained >>= _) = _
    rw [objcInitWeak, run]
    rfl

/-- Moving copies the variable, and then leaves nil in the source. -/
theorem moveWeak (inv : HeapInv platform heap live) {dst src : ℕ} {outside : Outside}
    (sound : outside.Sound) (mem : src ∈ live) (loc : Location dst) (dead : dst ∉ live) :
    Ends platform (objcMoveWeak platform outside dst src heap) (insert dst live) True := by
  rw [objcMoveWeak]
  rcases inv.copyWeak sound mem loc dead with ⟨copied, run, inv'⟩ | ⟨run, -⟩
  · have held : src ∈ insert dst live := Set.mem_insert_of_mem dst mem
    obtain ⟨destroyed, ran, inv''⟩ := inv'.destroyWeak outside held
    have after := inv''.storeUnregistered (fun mem => mem.2 rfl) (inv.locations src mem) (.inl rfl)
    rw [Set.insert_sdiff_singleton, Set.insert_eq_of_mem held] at after
    refine .inl ⟨_, ?_, after⟩
    rw [run, Loops.ok_bind, ran]
    rfl
  · refine .inr ⟨?_, trivial⟩
    rw [run]
    rfl

theorem ends_initWeak {result : Except WeakError (ℕ × Heap)} {live : Set ℕ} {crash : Bool}
    {Kept : Heap → Prop} {halts : Prop} (imp : crash = true → halts)
    (ended : (∃ answer heap', result = .ok (answer, heap') ∧ HeapInv platform heap' live ∧
      Kept heap') ∨ (result = .error .cannotFormWeakReference ∧ crash = true)) :
    Ends platform (do let (_, heap) ← result; return heap) live halts := by
  rcases ended with ⟨answer, heap', rfl, inv, -⟩ | ⟨rfl, crashes⟩
  · exact .inl ⟨heap', rfl, inv⟩
  · exact .inr ⟨rfl, imp crashes⟩

theorem run (inv : HeapInv platform heap live) (call : WeakCall)
    (legal : call.Legal platform heap live) :
    Ends platform (call.run platform heap) (call.liveAfter live) call.CrashesIfDeallocating := by
  cases call with
  | initWeak outside location newObj =>
      obtain ⟨sound, loc, dead, referable⟩ := legal
      exact ends_initWeak (fun _ => trivial)
        (inv.initWeak sound loc dead referable true rfl)
  | initWeakOrNil outside location newObj =>
      obtain ⟨sound, loc, dead, referable⟩ := legal
      exact ends_initWeak (fun crash => absurd crash Bool.false_ne_true)
        (inv.initWeak sound loc dead referable false rfl)
  | storeWeak outside location newObj =>
      obtain ⟨sound, mem, referable⟩ := legal
      rcases inv.storeWeak sound mem referable true with ⟨answer, heap', run, inv'⟩ | ⟨run, -⟩
      · refine .inl ⟨heap', ?_, inv'⟩
        rw [WeakCall.run, objcStoreWeak, run]
        rfl
      · refine .inr ⟨?_, trivial⟩
        rw [WeakCall.run, objcStoreWeak, run]
        rfl
  | storeWeakOrNil outside location newObj =>
      obtain ⟨sound, mem, referable⟩ := legal
      rcases inv.storeWeak sound mem referable false with ⟨answer, heap', run, inv'⟩ | ⟨-, crash⟩
      · refine .inl ⟨heap', ?_, inv'⟩
        rw [WeakCall.run, objcStoreWeakOrNil, run]
        rfl
      · exact absurd crash Bool.false_ne_true
  | copyWeak outside dst src =>
      obtain ⟨sound, mem, loc, dead⟩ := legal
      exact inv.copyWeak sound mem loc dead
  | moveWeak outside dst src =>
      obtain ⟨sound, mem, loc, dead⟩ := legal
      exact inv.moveWeak sound mem loc dead
  | destroyWeak outside location => exact .inl (inv.destroyWeak outside legal)
  | rootDealloc obj =>
      obtain ⟨heap', run, disposed⟩ := inv.rootDealloc legal
      exact .inl ⟨heap', run, disposed.inv⟩
  | objectDispose obj =>
      obtain ⟨heap', run, disposed⟩ := inv.objectDispose legal
      exact .inl ⟨heap', run, disposed.inv⟩
  | retainOp obj op =>
      obtain ⟨allocated, installs⟩ := legal
      refine .inl ⟨_, rfl, inv.runOps allocated fun other mem => ?_⟩
      rw [List.mem_singleton.mp mem]
      exact installs
  | allocate obj isa =>
      obtain ⟨fresh, ne, untagged, named⟩ := legal
      exact .inl ⟨_, rfl, inv.allocate fresh ne untagged named⟩
  | zeroed location =>
      exact .inl ⟨_, rfl, inv.storeUnregistered legal.2 legal.1 (.inl rfl)⟩
  | write location value => exact .inl ⟨_, rfl, inv.write legal value⟩

/-! ## Runs -/

theorem start (platform : Platform) (isa : ℕ → Isa) (memory : ℕ → ℕ) :
    HeapInv platform (Heap.start isa memory) ∅ where
  locations _ mem := absurd mem (Set.notMem_empty _)
  tables stripe := by
    have none : (Heap.start isa memory).registered platform ∅ stripe = ∅ :=
      Set.eq_empty_iff_forall_notMem.mpr fun _ mem => Set.notMem_empty _ mem.1
    rw [none]
    exact tableInv_empty
  entries stripe o ne there := by
    obtain ⟨i, found⟩ := there
    exact absurd (Except.ok.inj found).symm (Option.some_ne_none i)
  objects o allocated := absurd allocated Bool.false_ne_true

theorem runs (inv : HeapInv platform heap live) (calls : List WeakCall)
    (legal : LegalCalls platform calls heap live) :
    Ends platform (runWeakCalls platform calls heap) (calls.foldl WeakCall.liveAfter live)
      (∃ call ∈ calls, call.CrashesIfDeallocating) := by
  induction calls generalizing heap live with
  | nil => exact .inl ⟨heap, rfl, inv⟩
  | cons call calls ih =>
      rw [runWeakCalls, List.foldlM_cons]
      rcases inv.run call legal.1 with ⟨middle, run, inv'⟩ | ⟨run, crash⟩
      · rw [run, Loops.ok_bind]
        exact (ih inv' (legal.2 middle run)).imp_right fun halted =>
          ⟨halted.1, halted.2.imp fun _ found => ⟨List.mem_cons_of_mem call found.1, found.2⟩⟩
      · rw [run, Loops.error_bind]
        exact .inr ⟨rfl, call, List.mem_cons_self, crash⟩

end HeapInv

/-! ## What the variables hold -/

/-- The variable holds an object that is not freed and whose entry has the variable once. -/
def RegisteredOnce (platform : Platform) (heap : Heap) (location : ℕ) : Prop :=
  heap.allocated (heap.memory location) = true ∧
    ∃ i, weakEntryForReferent platform.ptrHash
        (heap.sideTable platform (heap.memory location)).weakTable (heap.memory location) =
          .ok (some i) ∧
      ((heap.sideTable platform (heap.memory location)).weakTable.entry i).referent =
        heap.memory location ∧
      ((heap.sideTable platform (heap.memory location)).weakTable.entry i).occurrences location = 1

/-- No variable dangles, and the deallocation of an object leaves none behind that holds it. -/
structure NeverDangles (platform : Platform) (heap : Heap) (live : Set ℕ) : Prop where
  holds : ∀ r ∈ live, heap.memory r = 0 ∨ platform.isTaggedPointer (heap.memory r) = true ∨
    RegisteredOnce platform heap r
  flagged : ∀ o, o ≠ 0 → heap.Entered platform o →
    heap.allocated o = true ∧ isWeaklyReferenced (heap.object platform o) = true
  deallocated : ∀ o, heap.allocated o = true →
    ∀ call, call = WeakCall.rootDealloc o ∨ call = WeakCall.objectDispose o →
      ∃ heap', call.run platform heap = .ok heap' ∧ heap'.allocated o = false ∧
        ∀ r ∈ live, heap.memory r = o → heap'.memory r = 0

theorem HeapInv.neverDangles (inv : HeapInv platform heap live) :
    NeverDangles platform heap live := by
  refine ⟨fun r mem => ?_, fun o ne there => (inv.entries _ o ne there).2,
    fun o allocated call deallocates => ?_⟩
  · by_cases nil : heap.memory r = 0
    · exact .inl nil
    · cases tagged : platform.isTaggedPointer (heap.memory r) with
      | true => exact .inr (.inl rfl)
      | false =>
          obtain ⟨i, found⟩ := inv.entered mem nil tagged
          have represents :=
            (inv.tables (platform.indexForPointer (heap.memory r))).tableRepresents
          exact .inr (.inr ⟨(inv.entries _ _ nil ⟨i, found⟩).2.1, i, found,
            represents.keyed _ i nil found,
            represents.once _ i r found ⟨mem, rfl, nil, tagged, rfl⟩⟩)
  · have disposed : ∃ heap', call.run platform heap = .ok heap' ∧
        Disposed platform heap heap' live o := by
      rcases deallocates with rfl | rfl
      · exact inv.rootDealloc allocated
      · exact inv.objectDispose allocated
    obtain ⟨heap', run, disposed⟩ := disposed
    refine ⟨heap', run, ?_, disposed.nil⟩
    rw [disposed.allocated, update_self]

/--
After every legal sequence of calls no weak variable dangles; the sequence ends early only where a
caller asked to crash on forming a weak reference to a deallocating object.
-/
theorem runWeakCalls_neverDangle (platform : Platform) (isa : ℕ → Isa) (memory : ℕ → ℕ)
    (calls : List WeakCall) (legal : LegalCalls platform calls (Heap.start isa memory) ∅) :
    (∃ heap, runWeakCalls platform calls (Heap.start isa memory) = .ok heap ∧
      NeverDangles platform heap (calls.foldl WeakCall.liveAfter ∅)) ∨
    (runWeakCalls platform calls (Heap.start isa memory) = .error .cannotFormWeakReference ∧
      ∃ call ∈ calls, call.CrashesIfDeallocating) := by
  rcases (HeapInv.start platform isa memory).runs calls legal with ⟨heap, run, inv⟩ | halted
  · exact .inl ⟨heap, run, inv.neverDangles⟩
  · exact .inr halted

/-- A platform with tagged pointers in the low bit. -/
def lowTagPlatform : Platform := ⟨.x86_64, some 1, 64, id, id⟩

/-- A class with the default methods; `calloc` answers some fixed address. -/
def defaultClass : Outside := ⟨fun _ => 4096, [], none⟩

theorem defaultClass_sound : defaultClass.Sound :=
  ⟨fun _ => show 0 < 4096 ∧ 4096 < 2 ^ 64 by decide, fun _ mem => absurd mem.symm
    (Option.some_ne_none _), fun _ mem => absurd mem.symm (Option.some_ne_none _)⟩

/-- An object is held by a variable, the variable is copied, and the first one goes away. -/
def copiedOps : List WeakCall :=
  [.allocate 16 (.nonpointer (Retain.Arch.magicIsa .x86_64)), .initWeak defaultClass 8 16,
    .copyWeak defaultClass 24 8, .destroyWeak defaultClass 8]

theorem copiedOps_legal (isa : ℕ → Isa) (memory : ℕ → ℕ) :
    LegalCalls lowTagPlatform copiedOps (Heap.start isa memory) ∅ := by
  refine ⟨⟨rfl, by decide, by decide, trivial⟩, fun allocated run => ?_⟩
  obtain rfl := Except.ok.inj run
  refine ⟨⟨defaultClass_sound, show Location 8 by decide, Set.notMem_empty 8, .inr (.inr ?_)⟩,
    fun stored _ => ?_⟩
  · simp only [update_self]
  refine ⟨⟨defaultClass_sound, Set.mem_insert .., show Location 24 by decide, ?_⟩, fun copied _ => ?_⟩
  · simp [WeakCall.liveAfter]
  · exact ⟨Set.mem_insert_of_mem _ (Set.mem_insert ..), fun _ _ => trivial⟩

theorem runWeakCalls_neverDangle_copied :
    (∃ heap, runWeakCalls lowTagPlatform copiedOps
        (Heap.start (fun _ => .raw Retain.ordinaryClass) fun _ => 0) = .ok heap ∧
      NeverDangles lowTagPlatform heap (copiedOps.foldl WeakCall.liveAfter ∅)) ∨
    (runWeakCalls lowTagPlatform copiedOps
        (Heap.start (fun _ => .raw Retain.ordinaryClass) fun _ => 0) =
          .error .cannotFormWeakReference ∧
      ∃ call ∈ copiedOps, call.CrashesIfDeallocating) :=
  runWeakCalls_neverDangle lowTagPlatform _ _ copiedOps (copiedOps_legal _ _)

end ObjcDyld.Weak
