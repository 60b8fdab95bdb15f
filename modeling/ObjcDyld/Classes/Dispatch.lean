import ObjcDyld.Classes.Enumeration
import ObjcDyld.MethodCache.Runs
import ObjcDyld.MethodLists.Bulk

/-!
# Method lookup

`lookUpImpOrForward` answers from the caches of a class and its superclasses, and fills them.  Whoever changes
a method list flushes the caches that may have been filled from it, so a cache never answers what a search of
the method lists would not.
-/

namespace ObjcDyld.Classes

open Function (update update_self update_of_ne)
open MethodCache (Known CacheOp Stands)
open MethodLists (implementations placeNoSuper Fresh Searchable emptyClass nextAddress fresh_nextAddress searchable_emptyClass)

/-! ## The code -/

/-- The classes with their method lists and with what their method caches know. -/
structure Dispatch extends Tree where
  methods : ℕ → Categories.State
  cache : ℕ → Known
  isInitialized : ℕ → Bool

/-- `cache_fill`; `cache_t::insert` may reallocate the buckets. -/
def cacheFill (state : Dispatch) (cls sel imp : ℕ) (reallocates : Bool) : Dispatch :=
  -- never cache before +initialize is done
  if state.isInitialized cls then
    let kept : Known := if reallocates then fun _ => none else state.cache cls
    { state with cache := update state.cache cls (update kept sel (some ((kept sel).getD imp))) }
  else state

/-- `cache_getImp`, which is nil for a selector that is not found. -/
def cacheGetImp (state : Dispatch) (cls sel : ℕ) : ℕ := (state.cache cls sel).getD 0

/-- `flushCaches` for a class; no result where the enumeration ends in `_objc_fatal`. -/
def flushCaches (state : Dispatch) (cls unreasonableClassCount : ℕ) : Option Dispatch :=
  (foreachRealizedClassAndSubclass state.toTree cls unreasonableClassCount (fun c cache => (true, update cache c fun _ => none))
    state.cache).map fun cache => { state with cache := cache }

variable (runtime : MethodLists.Runtime) (calloc : Categories.State → ℕ) (forwardImp : ℕ)

/-- The loop of `lookUpImpOrForward`: the implementation, and whether it goes on at `done`. -/
def searchFrom (state : Dispatch) (sel : ℕ) : ℕ → ℕ → Option (ℕ × Bool)
  | 0, _ => none
  | attempts + 1, curClass =>
      match implementations runtime (state.methods curClass) sel, (state.cls curClass).superclass with
      | some imp, _ => some (imp, true)
      -- no implementation found, use forwarding
      | none, none => some (forwardImp, false)
      | none, some curClass =>
          if attempts = 0 then none
          -- found a forward:: entry in a superclass
          else if cacheGetImp state curClass sel = forwardImp then some (forwardImp, false)
          else if cacheGetImp state curClass sel ≠ 0 then some (cacheGetImp state curClass sel, true)
          else searchFrom state sel attempts curClass

/-- `LOOKUP_CACHE`, `LOOKUP_RESOLVER` and `LOOKUP_NIL`. -/
structure Behavior where
  cache : Bool
  resolver : Bool
  nil : Bool

/-- What a lookup ends with: an implementation, or a call of `resolveMethod_locked`. -/
inductive Answer where
  | imp (imp : ℕ)
  | resolveMethod
  deriving DecidableEq

def Behavior.answer (behavior : Behavior) (imp : ℕ) : Answer := .imp (if behavior.nil ∧ imp = forwardImp then 0 else imp)

/-- `lookUpImpOrForward` for a class that is realized and, if that is asked for, initialized. -/
def lookUpImpOrForward (state : Dispatch) (sel cls : ℕ) (behavior : Behavior) (attempts : ℕ) (reallocates : Bool) :
    Option (Dispatch × Answer) :=
  if behavior.cache ∧ cacheGetImp state cls sel ≠ 0 then some (state, behavior.answer forwardImp (cacheGetImp state cls sel))
  else do
    let (imp, done) ← searchFrom runtime forwardImp state sel attempts cls
    if ¬done ∧ behavior.resolver then some (state, .resolveMethod)
    else some (cacheFill state cls sel imp reallocates, behavior.answer forwardImp imp)

/-- `addMethod`. -/
def addMethod (state : Dispatch) (cls name imp : ℕ) (types : String) (replace : Bool) (unreasonableClassCount : ℕ) : Option Dispatch :=
  let methods := (MethodLists.addMethod runtime calloc (state.methods cls) name imp types replace).1
  match placeNoSuper runtime (state.methods cls) name, replace, imp with
  -- already exists, or `_method_setImplementation` without an implementation
  | some _, false, _ | some _, true, 0 => some state
  | _, _, _ => flushCaches { state with methods := update state.methods cls methods } cls unreasonableClassCount

/-! ## Runs -/

/-- The calls that the classes live through, under `runtimeLock`; what a resolver or a method does is calls of its own. -/
inductive Op where
  | realizeClass (cls : ℕ) (supercls : Option ℕ) (isMetaClass : Bool) (methods : Categories.State)
  | initialized (cls : ℕ)
  | lookUp (sel cls : ℕ) (behavior : Behavior) (attempts : ℕ) (reallocates : Bool)
  | addMethod (cls name imp : ℕ) (types : String) (replace : Bool) (unreasonableClassCount : ℕ)

def Op.run (state : Dispatch) : Op → Option Dispatch
  | .realizeClass cls supercls isMetaClass methods => some
      { state with toTree := Classes.realizeClass state.toTree cls supercls isMetaClass, methods := update state.methods cls methods }
  | .initialized cls => some { state with isInitialized := update state.isInitialized cls true }
  | .lookUp sel cls behavior attempts reallocates =>
      (lookUpImpOrForward runtime forwardImp state sel cls behavior attempts reallocates).map Prod.fst
  | .addMethod cls name imp types replace unreasonableClassCount =>
      Classes.addMethod runtime calloc state cls name imp types replace unreasonableClassCount

/-- Classes are realized once, after their superclasses, and looked up in and changed after that. -/
def Op.Legal (state : Dispatch) : Op → Prop
  | .realizeClass cls supercls _ _ => cls ∉ state.realized ∧ ∀ p, supercls = some p → p ∈ state.realized
  | .initialized _ => True
  | .lookUp _ cls _ _ _ => cls ∈ state.realized
  | .addMethod cls _ _ _ _ unreasonableClassCount => cls ∈ state.realized ∧ 2 * state.realized.card < unreasonableClassCount

/-- The states of a process: no class is realized at first. -/
inductive Reachable : Dispatch → Prop where
  | start (methods : ℕ → Categories.State) (nonnil : forwardImp ≠ 0) :
      Reachable ⟨⟨fun _ => ⟨none, none, none, false⟩, none, ∅⟩, methods, fun _ _ => none, fun _ => false⟩
  | step {state state' : Dispatch} (reachable : Reachable state) (op : Op) (legal : op.Legal state)
      (run : op.run runtime calloc forwardImp state = some state') : Reachable state'

/-! ## Coherence -/

variable {runtime} {calloc} {forwardImp} {state state' : Dispatch} {sel c cls imp : ℕ}

/-- What a search of the method lists along the superclasses finds, or forwarding. -/
inductive Answers (runtime : MethodLists.Runtime) (forwardImp : ℕ) (state : Dispatch) (sel : ℕ) : ℕ → ℕ → Prop where
  | own {c imp : ℕ} (found : implementations runtime (state.methods c) sel = some imp) : Answers runtime forwardImp state sel c imp
  | inherited {c p imp : ℕ} (absent : implementations runtime (state.methods c) sel = none) (up : (state.cls c).superclass = some p)
      (rest : Answers runtime forwardImp state sel p imp) : Answers runtime forwardImp state sel c imp
  | forward {c : ℕ} (absent : implementations runtime (state.methods c) sel = none) (root : (state.cls c).superclass = none) :
      Answers runtime forwardImp state sel c forwardImp

theorem Answers.congr (answers : Answers runtime forwardImp state sel c imp) (same : ∀ d, state.Inherits c d →
    implementations runtime (state'.methods d) sel = implementations runtime (state.methods d) sel ∧
      (state'.cls d).superclass = (state.cls d).superclass) : Answers runtime forwardImp state' sel c imp := by
  induction answers with
  | own found => exact .own ((same _ .refl).1.trans found)
  | inherited absent up rest ih =>
      exact .inherited ((same _ .refl).1.trans absent) ((same _ .refl).2.trans up) (ih fun d above => same d (.head up above))
  | forward absent root => exact .forward ((same _ .refl).1.trans absent) ((same _ .refl).2.trans root)

/-- The caches of realized classes answer what the method lists answer, the others nothing. -/
structure Coherent (runtime : MethodLists.Runtime) (forwardImp : ℕ) (state : Dispatch) : Prop where
  nonnil : forwardImp ≠ 0
  sound : ∃ children, state.toTree.Sound children
  realized : ∀ c sel imp, state.cache c sel = some imp → c ∈ state.realized
  answers : ∀ c sel imp, state.cache c sel = some imp → Answers runtime forwardImp state sel c imp

theorem Coherent.cacheGetImp (coherent : Coherent runtime forwardImp state) (found : cacheGetImp state c sel ≠ 0) :
    Answers runtime forwardImp state sel c (cacheGetImp state c sel) := by
  rw [Classes.cacheGetImp] at found ⊢
  cases known : state.cache c sel with
  | none => exact absurd (by rw [known]; rfl) found
  | some imp => exact coherent.answers c sel imp known

/-- A change keeps coherence if what the caches still answer does not depend on it. -/
theorem Coherent.change (coherent : Coherent runtime forwardImp state) (sound : ∃ children, state'.toTree.Sound children)
    (grows : state.realized ⊆ state'.realized) (kept : ∀ c sel imp, state'.cache c sel = some imp → state.cache c sel = some imp ∧
      ∀ d, state.Inherits c d → state'.methods d = state.methods d ∧ (state'.cls d).superclass = (state.cls d).superclass) :
    Coherent runtime forwardImp state' where
  nonnil := coherent.nonnil
  sound := sound
  realized c sel imp known := grows (coherent.realized c sel imp (kept c sel imp known).1)
  answers c sel imp known := (coherent.answers c sel imp (kept c sel imp known).1).congr fun d above =>
    ((kept c sel imp known).2 d above).imp_left (congrArg (implementations runtime · sel))

theorem Coherent.cacheFill (coherent : Coherent runtime forwardImp state) (realized : cls ∈ state.realized)
    (answers : Answers runtime forwardImp state sel cls imp) (reallocates : Bool) :
    Coherent runtime forwardImp (cacheFill state cls sel imp reallocates) := by
  rw [Classes.cacheFill]
  split
  next =>
    have known (c sel' imp' : ℕ) (found : update state.cache cls (update (if reallocates then fun _ => none else state.cache cls) sel
        (some (((if reallocates then fun _ => none else state.cache cls : Known) sel).getD imp))) c sel' = some imp') :
        state.cache c sel' = some imp' ∨ c = cls ∧ sel' = sel ∧ imp' = imp := by
      by_cases here : c = cls
      · subst here
        by_cases same : sel' = sel
        · subst same
          cases reallocates <;> cases old : state.cache c sel' <;> simp_all
        · cases reallocates <;> simp_all
      · rw [update_of_ne here] at found
        exact .inl found
    refine ⟨coherent.nonnil, coherent.sound, fun c sel' imp' found => ?_, fun c sel' imp' found => ?_⟩
    · rcases known c sel' imp' found with old | ⟨rfl, -, -⟩
      · exact coherent.realized c sel' imp' old
      · exact realized
    · have answers' : Answers runtime forwardImp state sel' c imp' := by
        rcases known c sel' imp' found with old | ⟨rfl, rfl, rfl⟩
        · exact coherent.answers c sel' imp' old
        · exact answers
      exact answers'.congr fun d _ => ⟨rfl, rfl⟩
  next => exact coherent

theorem Coherent.searchFrom (coherent : Coherent runtime forwardImp state) {attempts : ℕ} {done : Bool}
    (found : searchFrom runtime forwardImp state sel attempts c = some (imp, done)) :
    Answers runtime forwardImp state sel c imp ∧ (done = false → imp = forwardImp) := by
  induction attempts generalizing c with
  | zero => cases found
  | succ attempts ih =>
      rw [Classes.searchFrom] at found
      cases own : implementations runtime (state.methods c) sel with
      | some own' =>
          rw [own] at found
          cases found
          exact ⟨.own own, fun contra => by cases contra⟩
      | none =>
          rw [own] at found
          cases up : (state.cls c).superclass with
          | none =>
              rw [up] at found
              cases found
              exact ⟨.forward own up, fun _ => rfl⟩
          | some p =>
              simp only [up] at found
              split at found
              next => cases found
              next =>
                split at found
                next forwards =>
                  cases found
                  have cached : Classes.cacheGetImp state p sel ≠ 0 := forwards ▸ coherent.nonnil
                  exact ⟨.inherited own up (forwards ▸ coherent.cacheGetImp cached), fun _ => rfl⟩
                next =>
                  split at found
                  next cached =>
                    cases found
                    exact ⟨.inherited own up (coherent.cacheGetImp cached), fun contra => by cases contra⟩
                  next => exact ⟨.inherited own up (ih found).1, (ih found).2⟩

open Classical in
/-- The attempts last for a chain of superclasses, which are all different. -/
theorem Coherent.exists_searchFrom (coherent : Coherent runtime forwardImp state) (realized : c ∈ state.realized) {attempts : ℕ}
    (enough : (state.realized.filter fun d => state.Inherits c d).card ≤ attempts) :
    ∃ result, Classes.searchFrom runtime forwardImp state sel attempts c = some result := by
  obtain ⟨children, sound⟩ := coherent.sound
  induction attempts generalizing c with
  | zero =>
      have own : c ∈ state.realized.filter fun d => state.Inherits c d := Finset.mem_filter.mpr ⟨realized, .refl⟩
      exact absurd (Finset.card_pos.mpr ⟨c, own⟩) (by omega)
  | succ attempts ih =>
      rw [Classes.searchFrom]
      cases implementations runtime (state.methods c) sel with
      | some imp => exact ⟨_, rfl⟩
      | none =>
          cases up : (state.cls c).superclass with
          | none => exact ⟨_, rfl⟩
          | some p =>
              have realized' := sound.closed c realized p up
              have fewer : (state.realized.filter fun d => state.Inherits p d).card < (state.realized.filter fun d => state.Inherits c d).card := by
                obtain ⟨depth, bound, ranked⟩ := sound.ranked
                refine Finset.card_lt_card (Finset.ssubset_iff_subset_ne.mpr ⟨fun d member => ?_, fun same => ?_⟩)
                · obtain ⟨inside, above⟩ := Finset.mem_filter.mp member
                  exact Finset.mem_filter.mpr ⟨inside, .head up above⟩
                · have back := (Finset.mem_filter.mp (same ▸ Finset.mem_filter.mpr ⟨realized, .refl⟩ :
                    c ∈ state.realized.filter fun d => state.Inherits p d)).2
                  exact absurd (ranked.inherits_le sound back realized') (Nat.not_le.mpr (ranked.ascends c realized p up))
              obtain ⟨result, rest⟩ := ih realized' (by omega)
              have some : 0 < (state.realized.filter fun d => state.Inherits p d).card :=
                Finset.card_pos.mpr ⟨p, Finset.mem_filter.mpr ⟨realized', .refl⟩⟩
              simp only [if_neg (show attempts ≠ 0 by omega), rest]
              split
              · exact ⟨_, rfl⟩
              · split <;> exact ⟨_, rfl⟩

/-! ## Steps -/

theorem foldl_erase (visited : List ℕ) (cache : ℕ → Known) (c : ℕ) :
    visited.foldl (fun cache c => update cache c fun _ => none) cache c = if c ∈ visited then fun _ => none else cache c := by
  induction visited generalizing cache with
  | nil => rfl
  | cons d visited ih =>
      rw [List.foldl_cons, ih]
      by_cases here : c = d <;> simp [here]

/-- Flushing the caches of a class and its subclasses makes good for a change of its methods. -/
theorem Coherent.flushCaches (coherent : Coherent runtime forwardImp state) (realized : cls ∈ state.realized) {count : ℕ}
    (enough : 2 * state.realized.card < count) (methods : Categories.State) (run :
    flushCaches { state with methods := update state.methods cls methods } cls count = some state') : Coherent runtime forwardImp state' := by
  obtain ⟨children, sound⟩ := coherent.sound
  obtain ⟨visited, -, member, visits⟩ := sound.foreach_subclass realized enough
  rw [Classes.flushCaches, visits] at run
  cases run
  refine coherent.change coherent.sound (Finset.Subset.refl _) fun c sel imp known => ?_
  simp only [foldl_erase] at known
  split at known
  next => cases known
  next absent =>
    refine ⟨known, fun d above => ⟨update_of_ne ?_ .., rfl⟩⟩
    rintro rfl
    exact absent ((member c).mpr ⟨coherent.realized c sel imp known, above⟩)

theorem Coherent.lookUp (coherent : Coherent runtime forwardImp state) (realized : cls ∈ state.realized) {behavior : Behavior}
    {attempts : ℕ} {reallocates : Bool} {answer : Answer}
    (run : lookUpImpOrForward runtime forwardImp state sel cls behavior attempts reallocates = some (state', answer)) :
    Coherent runtime forwardImp state' ∧ ∃ imp, Answers runtime forwardImp state sel cls imp ∧
      (answer = behavior.answer forwardImp imp ∨ answer = .resolveMethod ∧ behavior.resolver ∧ imp = forwardImp) := by
  rw [lookUpImpOrForward] at run
  split at run
  next cached =>
    cases run
    exact ⟨coherent, _, coherent.cacheGetImp cached.2, .inl rfl⟩
  next =>
    cases search : Classes.searchFrom runtime forwardImp state sel attempts cls with
    | none =>
        rw [search] at run
        cases run
    | some result =>
        obtain ⟨imp, done⟩ := result
        obtain ⟨answers, forwards⟩ := coherent.searchFrom search
        rw [search, Option.bind_eq_bind, Option.bind_some] at run
        dsimp only at run
        split at run
        next resolves =>
          cases run
          exact ⟨coherent, _, answers, .inr ⟨rfl, resolves.2, forwards (by simpa using resolves.1)⟩⟩
        next =>
          cases run
          exact ⟨coherent.cacheFill realized answers reallocates, _, answers, .inl rfl⟩

theorem Coherent.exists_lookUp (coherent : Coherent runtime forwardImp state) (realized : cls ∈ state.realized) (sel : ℕ)
    (behavior : Behavior) {attempts : ℕ} (enough : state.realized.card ≤ attempts) (reallocates : Bool) :
    ∃ result, lookUpImpOrForward runtime forwardImp state sel cls behavior attempts reallocates = some result := by
  classical
  obtain ⟨⟨imp, done⟩, search⟩ : ∃ result, Classes.searchFrom runtime forwardImp state sel attempts cls = some result :=
    coherent.exists_searchFrom realized ((Finset.card_filter_le ..).trans enough)
  rw [lookUpImpOrForward, search, Option.bind_eq_bind, Option.bind_some]
  dsimp only
  split
  · exact ⟨_, rfl⟩
  · split <;> exact ⟨_, rfl⟩

theorem Coherent.step (coherent : Coherent runtime forwardImp state) {op : Op} (legal : op.Legal state)
    (run : op.run runtime calloc forwardImp state = some state') : Coherent runtime forwardImp state' := by
  cases op with
  | realizeClass cls supercls isMetaClass methods =>
      cases run
      obtain ⟨fresh, known⟩ := legal
      obtain ⟨children, sound⟩ := coherent.sound
      refine coherent.change ⟨_, sound.realizeClass fresh known isMetaClass⟩ ?_ fun c sel imp found => ⟨found, fun d above => ?_⟩
      · rw [realized_realizeClass]
        exact Finset.subset_insert ..
      · have apart : d ≠ cls := by
          rintro rfl
          exact fresh (sound.inherits_realized above (coherent.realized c sel imp found))
        rw [superclass_realizeClass, if_neg apart]
        exact ⟨update_of_ne apart .., rfl⟩
  | initialized cls =>
      cases run
      exact coherent.change coherent.sound (Finset.Subset.refl _) fun _ _ _ known => ⟨known, fun _ _ => ⟨rfl, rfl⟩⟩
  | lookUp sel cls behavior attempts reallocates =>
      obtain ⟨⟨_, answer⟩, result, rfl⟩ := Option.map_eq_some_iff.mp run
      exact (coherent.lookUp legal result).1
  | addMethod cls name imp types replace count =>
      unfold Op.run Classes.addMethod at run
      dsimp only at run
      split at run
      next => cases run; exact coherent
      next => cases run; exact coherent
      next => exact coherent.flushCaches legal.1 legal.2 _ run

theorem Reachable.coherent (reachable : Reachable runtime calloc forwardImp state) : Coherent runtime forwardImp state := by
  induction reachable with
  | start methods nonnil =>
      have empty : (⟨fun _ => ⟨none, none, none, false⟩, none, ∅⟩ : Tree).Sound fun _ => [] := by
        refine ⟨fun parent => ?_, by simp, by simp, ⟨fun _ => 0, by simp⟩⟩
        cases parent <;> exact .nil
      exact ⟨nonnil, ⟨_, empty⟩, fun _ _ _ known => (Option.some_ne_none _ known.symm).elim,
        fun _ _ _ known => (Option.some_ne_none _ known.symm).elim⟩
  | step _ _ legal run ih => exact ih.step legal run

/--
In every state that a process reaches, a lookup ends with what the method lists have for the selector, whichever
caches it meets on its way, and calls the resolver only where they have nothing.
-/
theorem lookUpImpOrForward_exact (reachable : Reachable runtime calloc forwardImp state) (realized : cls ∈ state.realized) (sel : ℕ)
    (behavior : Behavior) {attempts : ℕ} (enough : state.realized.card ≤ attempts) (reallocates : Bool) :
    ∃ imp, Answers runtime forwardImp state sel cls imp ∧ ∃ state' answer,
      lookUpImpOrForward runtime forwardImp state sel cls behavior attempts reallocates = some (state', answer) ∧
      (answer = behavior.answer forwardImp imp ∨ answer = .resolveMethod ∧ behavior.resolver ∧ imp = forwardImp) := by
  have coherent := reachable.coherent
  obtain ⟨⟨state', answer⟩, run⟩ := coherent.exists_lookUp realized sel behavior enough reallocates
  obtain ⟨imp, answers, exact'⟩ := (coherent.lookUp realized run).2
  exact ⟨imp, answers, state', answer, run, exact'⟩

theorem Answers.unique {imp' : ℕ} (answers : Answers runtime forwardImp state sel c imp) (answers' : Answers runtime forwardImp state sel c imp') :
    imp = imp' := by
  induction answers with
  | own found => cases answers' <;> simp_all
  | inherited absent up rest ih => cases answers' <;> simp_all
  | forward absent root => cases answers' <;> simp_all

section

variable (reachable : Reachable runtime calloc forwardImp state) (realized : cls ∈ state.realized) {count attempts : ℕ}
  (enough : 2 * state.realized.card < count) (searchable : Searchable runtime (state.methods cls))
  (fresh : Fresh calloc) {name : ℕ}

include reachable realized enough

/-- In every state that a process reaches, the enumeration visits a class and its subclasses once each, superclasses first. -/
theorem foreachRealizedClassAndSubclass_visits :
    ∃ visited : List ℕ, (visited.Pairwise fun earlier later => ¬ state.Inherits earlier later) ∧
      (∀ c, c ∈ visited ↔ c ∈ state.realized ∧ state.Inherits c cls) ∧ ∀ (σ : Type) (visit : ℕ → σ → σ) (s : σ),
        foreachRealizedClassAndSubclass state.toTree cls count (fun c s => (true, visit c s)) s =
          some (visited.foldl (fun s c => visit c s) s) := by
  obtain ⟨children, sound⟩ := reachable.coherent.sound
  obtain ⟨visited, ordered, member, visits⟩ := sound.foreach_subclass realized enough
  exact ⟨visited, ordered, member, visits⟩

include searchable fresh

/-- `addMethod` binds its name in its class, and changes no other method. -/
theorem exists_addMethod (name imp : ℕ) (types : String) (replace : Bool) :
    ∃ state', addMethod runtime calloc state cls name imp types replace count = some state' ∧ state'.toTree = state.toTree ∧
      (∀ d, d ≠ cls → state'.methods d = state.methods d) ∧
      (∀ sel, sel ≠ name → implementations runtime (state'.methods cls) sel = implementations runtime (state.methods cls) sel) ∧
      (replace → imp ≠ 0 → implementations runtime (state'.methods cls) name = some imp) := by
  obtain ⟨children, sound⟩ := reachable.coherent.sound
  obtain ⟨visited, -, -, visits⟩ := sound.foreach_subclass realized enough
  have bound (methods : Categories.State) (is : methods = (MethodLists.addMethod runtime calloc (state.methods cls) name imp types replace).1) :
      (∀ sel, sel ≠ name → implementations runtime methods sel = implementations runtime (state.methods cls) sel) ∧
        (replace → imp ≠ 0 → implementations runtime methods name = some imp) := by
    subst is
    cases replace with
    | false =>
        have added := (MethodLists.classAddMethod_spec searchable fresh ⟨name, types, imp⟩).1.implementations
        exact ⟨fun sel other => (congrFun added sel).trans (Bindings.bindNew_other other.symm), nofun⟩
    | true =>
        have replaced := (MethodLists.classReplaceMethod_spec searchable fresh ⟨name, types, imp⟩).implementations
        refine ⟨fun sel other => (congrFun replaced sel).trans (Bindings.rebind_other other.symm), fun _ nonnil => ?_⟩
        refine (congrFun replaced name).trans ?_
        rw [MethodLists.rebind, Bindings.rebind, if_neg (by simp [MethodLists.isNil, nonnil]), update_self]
  unfold addMethod
  dsimp only
  split
  next => exact ⟨state, rfl, rfl, fun _ _ => rfl, fun _ _ => rfl, nofun⟩
  next => exact ⟨state, rfl, rfl, fun _ _ => rfl, fun _ _ => rfl, fun _ nonnil => absurd rfl nonnil⟩
  next =>
    rw [flushCaches, visits]
    exact ⟨_, rfl, rfl, fun d apart => update_of_ne apart .., bound _ (update_self ..)⟩

/--
A method that is replaced is what a lookup finds from then on, in the class and in each subclass that inherits it,
whatever their caches have answered before.
-/
theorem addMethod_found (nonnil : imp ≠ 0) (method : imp ≠ forwardImp) (types : String)
    (member : c ∈ state.realized) (inherits : state.Inherits c cls) (inherited : ∀ d, state.Inherits c d → d ≠ cls →
      state.Inherits d cls → implementations runtime (state.methods d) name = none)
    (behavior : Behavior) (long : state.realized.card ≤ attempts) (reallocates : Bool) :
    ∃ state' state'', addMethod runtime calloc state cls name imp types true count = some state' ∧
      lookUpImpOrForward runtime forwardImp state' name c behavior attempts reallocates = some (state'', .imp imp) := by
  obtain ⟨state', run, tree, others, -, own⟩ := exists_addMethod reachable realized enough searchable fresh name imp types true
  replace own := own rfl nonnil
  have answers : Answers runtime forwardImp state' name c imp := by
    clear member
    induction inherits using Relation.ReflTransGen.head_induction_on with
    | refl => exact .own own
    | @head c p up rest ih =>
        by_cases here : c = cls
        · exact here ▸ .own own
        · have absent : implementations runtime (state'.methods c) name = none := by
            rw [others c here]
            exact inherited c .refl here (.head up rest)
          exact .inherited absent (tree ▸ up) (ih fun d above => inherited d (.head up above))
  have legal : (Op.addMethod cls name imp types true count).Legal state := ⟨realized, enough⟩
  have coherent := reachable.coherent.step legal run
  obtain ⟨⟨state'', answer⟩, found⟩ := coherent.exists_lookUp (tree ▸ member) name behavior (tree ▸ long) reallocates
  obtain ⟨-, imp', answers', exact'⟩ := coherent.lookUp (tree ▸ member) found
  obtain rfl := answers.unique answers'
  rcases exact' with rfl | ⟨-, -, same⟩
  · refine ⟨state', state'', run, found.trans ?_⟩
    rw [Behavior.answer, if_neg fun forwards => method forwards.2]
  · exact absurd same method

/--
A method that is added or replaced changes no lookup of another selector, and none in a class that does not inherit from
its class, where no resolver is asked for: an emptied cache may let it be called again.
-/
theorem addMethod_elsewhere (imp : ℕ) (types : String) (replace : Bool) (member : c ∈ state.realized)
    (elsewhere : sel = name → ¬ state.Inherits c cls) {behavior : Behavior} (resolver : behavior.resolver = false)
    (long : state.realized.card ≤ attempts) (reallocates : Bool) :
    ∃ state' before after answer, addMethod runtime calloc state cls name imp types replace count = some state' ∧
      lookUpImpOrForward runtime forwardImp state sel c behavior attempts reallocates = some (before, answer) ∧
      lookUpImpOrForward runtime forwardImp state' sel c behavior attempts reallocates = some (after, answer) := by
  obtain ⟨state', run, tree, others, same, -⟩ := exists_addMethod reachable realized enough searchable fresh name imp types replace
  have coherent := reachable.coherent
  have legal : (Op.addMethod cls name imp types replace count).Legal state := ⟨realized, enough⟩
  have coherent' := coherent.step legal run
  obtain ⟨⟨before, answer⟩, found⟩ := coherent.exists_lookUp member sel behavior long reallocates
  obtain ⟨⟨after, answer'⟩, found'⟩ := coherent'.exists_lookUp (tree ▸ member) sel behavior (tree ▸ long) reallocates
  obtain ⟨-, old, answers, exact'⟩ := coherent.lookUp member found
  obtain ⟨-, new, answers', exact''⟩ := coherent'.lookUp (tree ▸ member) found'
  have kept : Answers runtime forwardImp state' sel c old := by
    refine answers.congr fun d above => ⟨?_, by rw [tree]⟩
    by_cases here : d = cls
    · subst here
      exact same sel fun named => elsewhere named above
    · rw [others d here]
  obtain rfl := kept.unique answers'
  rw [resolver] at exact' exact''
  obtain rfl : answer = _ := exact'.resolve_right fun resolves => nomatch resolves.2.1
  obtain rfl : answer' = _ := exact''.resolve_right fun resolves => nomatch resolves.2.1
  exact ⟨state', before, after, _, run, found, found'⟩

end

/-- A class `1` and its subclass `2`, without methods. -/
def pair : Dispatch :=
  ⟨realizeClass (realizeClass ⟨fun _ => ⟨none, none, none, false⟩, none, ∅⟩ 1 none false) 2 (some 1) false,
    fun _ => emptyClass, fun _ _ => none, fun _ => false⟩

def pairRuntime : MethodLists.Runtime := ⟨true, id, Eq.refl⟩

theorem reachable_pair : Reachable pairRuntime nextAddress 64 pair := by
  refine .step (.step (.start (fun _ => emptyClass) (by decide)) (.realizeClass 1 none false emptyClass)
    ⟨by simp, by simp⟩ rfl) (.realizeClass 2 (some 1) false emptyClass) ⟨by decide, by decide⟩ ?_
  simp [Op.run, pair]

theorem foreachRealizedClassAndSubclass_visits_pair : ∃ visited : List ℕ,
    (visited.Pairwise fun earlier later => ¬ pair.Inherits earlier later) ∧ (∀ c, c ∈ visited ↔ c ∈ pair.realized ∧ pair.Inherits c 1) ∧
      ∀ (σ : Type) (visit : ℕ → σ → σ) (s : σ), foreachRealizedClassAndSubclass pair.toTree 1 5 (fun c s => (true, visit c s)) s =
        some (visited.foldl (fun s c => visit c s) s) :=
  foreachRealizedClassAndSubclass_visits reachable_pair (by decide) (by decide)

theorem lookUpImpOrForward_exact_pair : ∃ imp, Answers pairRuntime 64 pair 5 2 imp ∧ ∃ state' answer,
    lookUpImpOrForward pairRuntime 64 pair 5 2 ⟨true, true, false⟩ 2 false = some (state', answer) ∧
      (answer = Behavior.answer 64 ⟨true, true, false⟩ imp ∨ answer = .resolveMethod ∧ true ∧ imp = 64) :=
  lookUpImpOrForward_exact reachable_pair (by decide) 5 ⟨true, true, false⟩ (by decide) false

theorem addMethod_found_pair : ∃ state' state'',
    addMethod pairRuntime nextAddress pair 1 5 100 "v16@0:8" true 5 = some state' ∧
      lookUpImpOrForward pairRuntime 64 state' 5 2 ⟨true, true, false⟩ 2 false = some (state'', .imp 100) :=
  addMethod_found reachable_pair (by decide) (by decide) (searchable_emptyClass _) fresh_nextAddress (by decide)
    (by decide) _ (by decide) (.single (by decide)) (fun _ _ _ _ => rfl) ⟨true, true, false⟩ (by decide) false

theorem addMethod_elsewhere_pair : ∃ state' before after answer,
    addMethod pairRuntime nextAddress pair 2 5 100 "v16@0:8" false 5 = some state' ∧
      lookUpImpOrForward pairRuntime 64 pair 5 1 ⟨true, false, true⟩ 2 false = some (before, answer) ∧
      lookUpImpOrForward pairRuntime 64 state' 5 1 ⟨true, false, true⟩ 2 false = some (after, answer) :=
  addMethod_elsewhere reachable_pair (by decide) (by decide) (searchable_emptyClass _) fresh_nextAddress 100 _ _
    (by decide) (fun _ above => by
      obtain same | ⟨p, up, -⟩ := Relation.ReflTransGen.cases_head above
      · exact absurd same (by decide)
      · exact nomatch (up : none = some p)) rfl (by decide) false

end ObjcDyld.Classes
