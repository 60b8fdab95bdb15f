import ObjcDyld.Retain.Runs

/-!
# The weakly-referenced flag

An object with a nonpointer isa keeps the flag in the isa, and one with a raw isa keeps it in its
side-table word.  No retain, release or change of class takes the flag off an object whose class is
not nil; a change of class may move it.
-/

namespace ObjcDyld.Retain

def sidetableIsWeaklyReferenced (storage : Option ℕ) : Bool :=
  match storage with
  | none => false
  | some refcnt => refcnt &&& sideTableWeaklyReferenced ≠ 0

def isWeaklyReferenced (object : Object) : Bool :=
  match object.isa with
  | .raw _ => sidetableIsWeaklyReferenced object.refcnt
  | .nonpointer bits => bits.weaklyReferenced

/-- The isa of an object that has a class: not the zero word of fresh memory. -/
def Isa.Named : Isa → Prop
  | .raw cls => cls.address ≠ 0
  | .nonpointer _ => True

/-- A call that leaves an object with a class and does not take the flag off it. -/
structure KeepsFlag (before after : Object) : Prop where
  named : before.isa.Named → after.isa.Named
  flagged : before.isa.Named → isWeaklyReferenced before = true → isWeaklyReferenced after = true

variable {arch : Arch} {object : Object}

/-! ## The side-table word -/

theorem sidetableIsWeaklyReferenced_iff (storage : Option ℕ) :
    sidetableIsWeaklyReferenced storage = true ↔ storage.getD 0 % 2 = 1 := by
  cases storage with
  | none => decide
  | some refcnt =>
      rw [sidetableIsWeaklyReferenced, sideTableWeaklyReferenced, decide_eq_true_iff, Nat.pow_zero,
        Nat.and_one_is_mod, Option.getD_some]
      omega

theorem two_dvd_word (arch : Arch) : 2 ∣ 2 ^ arch.wordBits := by cases arch <;> decide

theorem addc_one_mod_two (arch : Arch) (refcnt : ℕ) :
    (addc arch.wordBits refcnt sideTableRCOne).1 % 2 = refcnt % 2 := by
  rw [addc, Nat.mod_mod_of_dvd _ (two_dvd_word arch), sideTableRCOne]
  omega

theorem subc_one_mod_two (arch : Arch) (refcnt : ℕ) :
    (subc arch.wordBits refcnt sideTableRCOne).1 % 2 = refcnt % 2 := by
  have four : 4 ≤ 2 ^ arch.wordBits := by cases arch <;> decide
  have even := two_dvd_word arch
  rw [subc, Nat.mod_mod_of_dvd _ even, sideTableRCOne]
  omega

theorem or_deallocating_mod_two (refcnt : ℕ) : (refcnt ||| sideTableDeallocating) % 2 = refcnt % 2 := by
  rw [← Nat.and_one_is_mod, ← Nat.and_one_is_mod, Nat.and_or_distrib_right]
  simp [sideTableDeallocating]

theorem or_weaklyReferenced_mod_two (refcnt : ℕ) :
    (refcnt ||| sideTableWeaklyReferenced) % 2 = 1 := by
  rw [← Nat.and_one_is_mod, Nat.and_or_distrib_right]
  have bit := Nat.and_one_is_mod refcnt
  simp only [sideTableWeaklyReferenced, Nat.pow_zero, Nat.and_self, bit]
  rcases Nat.mod_two_eq_zero_or_one refcnt with even | odd
  · rw [even]
    rfl
  · rw [odd]
    rfl

theorem sidetableRetain_mod_two (storage : Option ℕ) :
    (sidetableRetain arch storage).getD 0 % 2 = storage.getD 0 % 2 := by
  unfold sidetableRetain
  dsimp only
  split
  · exact addc_one_mod_two arch _
  · rfl

theorem sidetableTryRetain_mod_two (storage : Option ℕ) :
    (sidetableTryRetain arch storage).2.getD 0 % 2 = storage.getD 0 % 2 := by
  cases storage with
  | none => simp [sidetableTryRetain, sideTableRCOne]
  | some refcnt =>
      simp only [sidetableTryRetain]
      split
      · rfl
      · split
        · exact addc_one_mod_two arch refcnt
        · rfl

theorem sidetableRelease_mod_two (storage : Option ℕ) :
    (sidetableRelease arch storage).2.getD 0 % 2 = storage.getD 0 % 2 := by
  cases storage with
  | none => simp [sidetableRelease, sideTableDeallocating]
  | some refcnt =>
      simp only [sidetableRelease]
      split
      · exact or_deallocating_mod_two refcnt
      · split
        · exact subc_one_mod_two arch refcnt
        · rfl

theorem sidetableMoveExtraRC_flagged (extraRC : ℕ) (isDeallocating : Bool) (storage : Option ℕ) :
    (sidetableMoveExtraRC arch extraRC isDeallocating true storage).getD 0 % 2 = 1 :=
  or_weaklyReferenced_mod_two _

/-! ## The object -/

namespace KeepsFlag

theorem refl (object : Object) : KeepsFlag object object := ⟨id, fun _ => id⟩

theorem trans {first second third : Object} (earlier : KeepsFlag first second)
    (later : KeepsFlag second third) : KeepsFlag first third :=
  ⟨fun named => later.named (earlier.named named),
    fun named flag => later.flagged (earlier.named named) (earlier.flagged named flag)⟩

theorem word {cls : Class} (shape : object.isa = .raw cls) {storage : Option ℕ}
    (same : storage.getD 0 % 2 = object.refcnt.getD 0 % 2) :
    KeepsFlag object { object with refcnt := storage } := by
  refine ⟨id, fun _ flag => ?_⟩
  simp only [isWeaklyReferenced, shape, sidetableIsWeaklyReferenced_iff] at flag ⊢
  rw [same]
  exact flag

theorem fields {oldisa newisa : IsaFields} (shape : object.isa = .nonpointer oldisa)
    (same : newisa.weaklyReferenced = oldisa.weaklyReferenced) (storage : Option ℕ) :
    KeepsFlag object ⟨.nonpointer newisa, storage⟩ := by
  refine ⟨fun _ => trivial, fun _ flag => ?_⟩
  simp only [isWeaklyReferenced, shape] at flag ⊢
  rw [same]
  exact flag

end KeepsFlag

theorem rootRetain_keepsFlag (tryRetain handleOverflow : Bool) (stores : List Bool)
    (object : Object) :
    KeepsFlag object (rootRetain arch tryRetain handleOverflow stores object).2 := by
  fun_induction rootRetain arch tryRetain handleOverflow stores object with
  | case1 _ _ cls shape metaclass => exact .refl _
  | case2 _ _ cls shape _ trying retained entry tried =>
      have same := @sidetableTryRetain_mod_two arch object.refcnt
      rw [tried] at same
      exact .word shape same
  | case3 _ _ cls shape _ _ => exact .word shape (sidetableRetain_mod_two _)
  | case4 _ _ oldisa shape dying => exact .refl _
  | case5 _ _ _ _ _ _ _ _ ih => exact ih
  | case6 _ _ _ _ _ _ _ _ ih => exact ih
  | case7 _ _ oldisa shape _ newisa _ halved _ sum =>
      obtain ⟨rfl, -⟩ := addRC_carry sum
      exact .fields shape (by rfl) _
  | case8 _ _ _ _ _ _ _ _ _ ih => exact ih
  | case9 _ _ oldisa shape _ newisa carry sum uncarried _ =>
      obtain ⟨rfl, -⟩ := addRC_carry sum
      exact .fields shape (by rfl) _

theorem rootRelease_keepsFlag (performDealloc handleUnderflow sideTableLocked : Bool)
    (stores : List Bool) (object : Object) :
    KeepsFlag object
      (rootRelease arch performDealloc handleUnderflow sideTableLocked stores object).object := by
  fun_induction rootRelease arch performDealloc handleUnderflow sideTableLocked stores object with
  | case1 _ _ _ object cls shape metaclass => exact .refl _
  | case2 _ _ _ object cls shape _ retained entry released =>
      have same := @sidetableRelease_mod_two arch object.refcnt
      rw [released] at same
      exact .word shape same
  | case3 _ _ _ _ _ _ _ _ _ _ ih => exact ih
  | case4 _ _ _ object oldisa shape newisa carry difference uncarried _ =>
      obtain ⟨rfl, -⟩ := subRC_carry difference
      exact .fields shape (by rfl) _
  | case5 _ _ _ _ _ _ _ _ _ _ _ ih => exact ih
  | case6 _ _ _ _ _ _ _ _ _ _ _ _ ih => exact ih
  | case7 _ _ object oldisa shape _ carry difference borrows _ _ borrowed entry taken some_left
      putBack _ _ overflows ih =>
      have put : KeepsFlag object putBack := by
        rw [show putBack = ⟨.nonpointer oldisa, _⟩ from congrArg₂ Object.mk shape rfl]
        exact .fields shape (by rfl) _
      exact put.trans ih
  | case8 _ _ object oldisa shape _ carry difference borrows _ _ borrowed entry taken some_left
      putBack _ _ _ _ _ ih =>
      have put : KeepsFlag object putBack := by
        rw [show putBack = ⟨.nonpointer oldisa, _⟩ from congrArg₂ Object.mk shape rfl]
        exact .fields shape (by rfl) _
      exact put.trans ih
  | case9 _ _ object oldisa shape _ carry difference borrows _ _ borrowed entry taken some_left
      _ newisa2 overflow sum _ _ =>
      obtain ⟨rfl, -⟩ := addRC_carry sum
      exact .fields shape (by rfl) _
  | case10 _ _ _ object oldisa shape _ carry difference borrows _ _ borrowed entry taken some_left _ =>
      exact .fields shape (by rfl) _
  | case11 _ _ _ object oldisa shape _ carry difference borrows _ _ borrowed entry taken none_left
      dying =>
      rw [show (⟨object.isa, entry⟩ : Object) = ⟨.nonpointer oldisa, entry⟩ from
        congrArg₂ Object.mk shape rfl]
      exact .fields shape (by rfl) _
  | case12 _ _ object oldisa shape _ carry difference borrows _ _ borrowed entry taken none_left
      _ _ ih =>
      have put : KeepsFlag object ⟨object.isa, entry⟩ := by
        rw [shape]
        exact .fields shape (by rfl) _
      exact put.trans ih
  | case13 _ _ _ object oldisa shape _ carry difference borrows _ _ borrowed entry taken none_left
      _ _ =>
      exact .fields shape (by rfl) _

theorem changeIsa_keepsFlag (classForIndex : ℕ → ℕ) {newCls : Class} (named : newCls.address ≠ 0)
    (stores : List Bool) (object : Object) :
    KeepsFlag object (changeIsa arch classForIndex newCls stores object).2 := by
  fun_induction changeIsa arch classForIndex newCls stores object with
  | case1 _ ih => exact ih
  | case2 _ _ =>
      unfold changedIsa
      cases shape : object.isa with
      | raw cls =>
          -- a raw isa stays raw, as the class that it names is not nil
          have raw : object.isa.Named → (cls.address = 0) = False := by
            rw [shape]
            exact eq_false
          refine ⟨fun before => ?_, fun before flag => ?_⟩
          · simp only [raw before, decide_false, Bool.false_and, Bool.false_eq_true, if_false]
            exact named
          · simp only [raw before, decide_false, Bool.false_and, Bool.false_eq_true, if_false]
            simpa only [isWeaklyReferenced, shape] using flag
      | nonpointer oldisa =>
          simp only
          split
          · exact .fields shape (by rfl) _
          · refine ⟨fun _ => named, fun _ flag => ?_⟩
            simp only [isWeaklyReferenced, shape] at flag
            simp only [isWeaklyReferenced, sidetableIsWeaklyReferenced_iff, flag]
            exact sidetableMoveExtraRC_flagged _ _ _

theorem isWeaklyReferenced_setWeaklyReferenced (stores : List Bool) (object : Object) :
    isWeaklyReferenced (setWeaklyReferenced stores object) = true ∧
      (object.isa.Named → (setWeaklyReferenced stores object).isa.Named) := by
  fun_induction setWeaklyReferenced stores object with
  | case1 _ ih => exact ih
  | case2 _ cls shape _ =>
      simp only [isWeaklyReferenced, shape, sidetableIsWeaklyReferenced_iff]
      exact ⟨or_weaklyReferenced_mod_two _, id⟩
  | case3 _ oldisa shape _ => exact ⟨rfl, fun _ => trivial⟩

theorem purgeRefcnt_keepsFlag (object : Object) : KeepsFlag object (purgeRefcnt object) := by
  unfold purgeRefcnt
  split
  next zero =>
    refine ⟨id, fun _ flag => ?_⟩
    cases shape : object.isa with
    | raw cls =>
        simp only [isWeaklyReferenced, shape, zero] at flag
        exact absurd flag (by decide)
    | nonpointer fields => simpa only [isWeaklyReferenced, shape] using flag
  next => exact .refl object

/-- A call that does not install the nil class. -/
def RetainOp.Installs : RetainOp → Prop
  | .changeIsa newCls _ => newCls.address ≠ 0
  | _ => True

theorem RetainOp.keepsFlag (classForIndex : ℕ → ℕ) (op : RetainOp) (installs : op.Installs)
    (object : Object) : KeepsFlag object (op.run arch classForIndex object).2 := by
  cases op with
  | retain stores => exact rootRetain_keepsFlag false false stores object
  | tryRetain stores => exact rootRetain_keepsFlag true false stores object
  | release stores => exact rootRelease_keepsFlag true false false stores object
  | changeIsa newCls stores => exact changeIsa_keepsFlag classForIndex installs stores object
  | setWeaklyReferenced stores =>
      have set := isWeaklyReferenced_setWeaklyReferenced stores object
      exact ⟨set.2, fun _ _ => set.1⟩
  | purge => exact purgeRefcnt_keepsFlag object

theorem runRetainOps_keepsFlag (classForIndex : ℕ → ℕ) (ops : List RetainOp)
    (installs : ∀ op ∈ ops, op.Installs) (object : Object) :
    KeepsFlag object (runRetainOps arch classForIndex ops object).2 := by
  induction ops generalizing object with
  | nil => exact .refl object
  | cons op ops ih =>
      have first := @RetainOp.keepsFlag arch classForIndex op (installs op List.mem_cons_self) object
      refine first.trans ?_
      exact ih (fun op mem => installs op (List.mem_cons_of_mem _ mem)) _

end ObjcDyld.Retain
