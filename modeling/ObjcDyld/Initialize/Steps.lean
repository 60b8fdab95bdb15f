import Mathlib

/-!
# Sending `+initialize`

`initializeNonMetaClass` on any number of threads. What a thread does under `classInitLock` is one
step. While a will-initialize callback or a `+initialize` method runs, the thread may initialize
further classes, and so may all other threads; and a `+initialize` method may throw an exception.
-/

namespace ObjcDyld.Initialize

variable {Class : Type}

structure Hierarchy (Class : Type) where
  superclass : Class → Option Class
  acyclic : WellFounded fun supercls cls => superclass cls = some supercls

/-- The bits `RW_INITIALIZING` and `RW_INITIALIZED`, of which at most one is set. -/
inductive ClassState where
  | uninitialized
  | initializing
  | initialized
  deriving DecidableEq

/-- An access to a list that is not right, a failed assertion or a loop that does not end. -/
inductive Fault where
  | fatal (message : String)
  | assertion
  | endless
  deriving DecidableEq

/-- The slots of `_objc_initializing_classes`; without slots, there is no list. -/
abbrev InitializingClasses (Class : Type) := List (Option Class)

/-- The state of the classes, the lists of the threads, and the `pendingInitializeMap` as its pairs of a
superclass and a subclass, the last one first. -/
structure Process (Class : Type) where
  state : Class → ClassState
  lists : ℕ → InitializingClasses Class
  pendingInitializeMap : List (Class × Class)
  /-- The classes that `+initialize` was sent for. -/
  sent : List Class
  /-- The classes for which that returned. -/
  returned : List Class

def Process.start : Process Class := ⟨fun _ => .uninitialized, fun _ => [], [], [], []⟩

variable [DecidableEq Class]

def thisThreadIsInitializingClass (list : InitializingClasses Class) (cls : Class) : Bool := some cls ∈ list

def setThisThreadIsInitializingClass (list : InitializingClasses Class) (cls : Class) : Except Fault (InitializingClasses Class) :=
  let list := if list = [] then List.replicate 4 none else list
  if some cls ∈ list then .error (.fatal "thread is already initializing this class!")
  else
    match list.findIdx? fun slot => slot = none with
    | some i => .ok (list.set i (some cls))
    -- class list is full
    | none => .ok (list ++ some cls :: List.replicate list.length none)

def setThisThreadIsNotInitializingClass (list : InitializingClasses Class) (cls : Class) : Except Fault (InitializingClasses Class) :=
  match list.findIdx? fun slot => slot = some cls with
  | some i => .ok (list.set i none)
  | none => .error (.fatal "thread is not initializing this class!")

/-- The subclasses that wait for a class, in their order. -/
def Process.pending (process : Process Class) (cls : Class) : List Class :=
  (process.pendingInitializeMap.filter fun pair => pair.1 = cls).map Prod.snd

def finishInitializing (thread : ℕ) : ℕ → Process Class → Class → Option Class →
    Except Fault (Process Class)
  | 0, _, _, _ => .error .endless
  | fuel + 1, process, cls, supercls => do
      if (supercls.map process.state).getD .initialized ≠ .initialized then throw .assertion
      let process := { process with state := Function.update process.state cls .initialized }
      let list ← setThisThreadIsNotInitializingClass (process.lists thread) cls
      let process := { process with lists := Function.update process.lists thread list }
      -- mark any subclasses that were merely waiting for this class
      let subclasses := process.pending cls
      let process := { process with pendingInitializeMap := process.pendingInitializeMap.filter fun pair => pair.1 ≠ cls }
      subclasses.foldlM (fun process subclass => finishInitializing thread fuel process subclass (some cls)) process

def finishInitializingAfter (process : Process Class) (cls supercls : Class) : Process Class :=
  { process with pendingInitializeMap := (supercls, cls) :: process.pendingInitializeMap }

def lockAndFinishInitializing (hierarchy : Hierarchy Class) (thread : ℕ) (process : Process Class) (cls : Class) :
    Except Fault (Process Class) :=
  match hierarchy.superclass cls with
  | none => finishInitializing thread (process.pendingInitializeMap.length + 1) process cls none
  | some supercls =>
      if process.state supercls = .initialized then
        finishInitializing thread (process.pendingInitializeMap.length + 1) process cls (some supercls)
      else .ok (finishInitializingAfter process cls supercls)

/-- Where a call of `initializeNonMetaClass` is. -/
inductive Phase where
  /-- Before the superclass is looked at. -/
  | superclass
  /-- In the call for the superclass. -/
  | inSuperclass
  /-- Before the state is set. -/
  | setInitializing
  /-- The state has been set by this call. -/
  | reallyInitialize
  /-- In the will-initialize callbacks. -/
  | callbacks
  /-- In `callInitialize`. -/
  | callInitialize
  /-- The state was set already. -/
  | isInitializing
  /-- In `waitForInitializeToComplete`. -/
  | waitForInitializeToComplete
  /-- The class was not initializing any more. -/
  | isInitialized
  deriving DecidableEq

/-- A call of `initializeNonMetaClass`. -/
structure Frame (Class : Type) where
  cls : Class
  phase : Phase
  deriving DecidableEq

/-- The calls of a thread, the innermost one first, and whether an exception is on its way. -/
structure Thread (Class : Type) where
  stack : List (Frame Class)
  throwing : Bool

structure System (Class : Type) where
  process : Process Class
  threads : ℕ → Thread Class

def System.start : System Class := ⟨.start, fun _ => ⟨[], false⟩⟩

/-- What is chosen by the code that runs: the calls from it, and how it ends. -/
inductive Action (Class : Type) where
  /-- A class is initialized from outside, a callback or a `+initialize` method. -/
  | call (cls : Class)
  | advance
  /-- The `+initialize` method ends, and may throw. -/
  | finish (throws : Bool)
  | catch

/-- A call has returned to its caller. -/
def returnTo : List (Frame Class) → List (Frame Class)
  | ⟨cls, .inSuperclass⟩ :: callers => ⟨cls, .setInitializing⟩ :: callers
  | callers => callers

/-- The next step of the innermost call by itself; `none` if there is none, or it waits. -/
def advance (hierarchy : Hierarchy Class) (thread : ℕ) (process : Process Class) (frame : Frame Class) (callers : List (Frame Class)) :
    Option (Except Fault (Process Class × List (Frame Class))) :=
  match frame with
  | ⟨cls, .superclass⟩ =>
      match hierarchy.superclass cls with
      | none => some (.ok (process, ⟨cls, .setInitializing⟩ :: callers))
      | some supercls =>
          if process.state supercls = .initialized then some (.ok (process, ⟨cls, .setInitializing⟩ :: callers))
          else some (.ok (process, ⟨supercls, .superclass⟩ :: ⟨cls, .inSuperclass⟩ :: callers))
  | ⟨_, .inSuperclass⟩ => none
  | ⟨cls, .setInitializing⟩ =>
      if process.state cls = .uninitialized then
        some (.ok ({ process with state := Function.update process.state cls .initializing }, ⟨cls, .reallyInitialize⟩ :: callers))
      else some (.ok (process, ⟨cls, .isInitializing⟩ :: callers))
  | ⟨cls, .reallyInitialize⟩ =>
      some do
        let list ← setThisThreadIsInitializingClass (process.lists thread) cls
        return ({ process with lists := Function.update process.lists thread list }, ⟨cls, .callbacks⟩ :: callers)
  | ⟨cls, .callbacks⟩ => some (.ok ({ process with sent := process.sent ++ [cls] }, ⟨cls, .callInitialize⟩ :: callers))
  | ⟨_, .callInitialize⟩ => none
  | ⟨cls, .isInitializing⟩ =>
      if process.state cls = .initializing then
        if thisThreadIsInitializingClass (process.lists thread) cls then some (.ok (process, returnTo callers))
        else some (.ok (process, ⟨cls, .waitForInitializeToComplete⟩ :: callers))
      else some (.ok (process, ⟨cls, .isInitialized⟩ :: callers))
  | ⟨cls, .waitForInitializeToComplete⟩ =>
      if process.state cls = .initialized then some (.ok (process, returnTo callers)) else none
  | ⟨cls, .isInitialized⟩ =>
      if process.state cls = .initialized then some (.ok (process, returnTo callers))
      else some (.error (.fatal "thread-safe class init in objc runtime is buggy!"))

/-- The code of this phase may call `initializeNonMetaClass`. -/
def Phase.mayCall : Phase → Bool
  | .callbacks | .callInitialize => true
  | _ => false

/-- A step of a thread; `none` if it cannot be made. An exception leaves the calls for superclasses, and the
`+initialize` methods that do not catch it, but no callback. -/
def act (hierarchy : Hierarchy Class) (system : System Class) (thread : ℕ) (action : Action Class) :
    Option (Except Fault (System Class)) :=
  let process := system.process
  let set (process : Process Class) (stack : List (Frame Class)) (throwing : Bool) : System Class :=
    ⟨process, Function.update system.threads thread ⟨stack, throwing⟩⟩
  match action, system.threads thread with
  | .call cls, ⟨stack, false⟩ =>
      if stack.head?.all fun frame => frame.phase.mayCall then some (.ok (set process (⟨cls, .superclass⟩ :: stack) false)) else none
  | .advance, ⟨frame :: callers, false⟩ =>
      (advance hierarchy thread process frame callers).map fun result => result.map fun (process, stack) => set process stack false
  | .advance, ⟨⟨_, .inSuperclass⟩ :: callers, true⟩ => some (.ok (set process callers true))
  | .finish throws, ⟨⟨cls, .callInitialize⟩ :: callers, throwing⟩ =>
      if throwing ∧ ¬throws then none
      else
        some ((lockAndFinishInitializing hierarchy thread { process with returned := process.returned ++ [cls] } cls).map fun process =>
          if throws then set process callers true else set process (returnTo callers) false)
  | .catch, ⟨stack, true⟩ =>
      if stack.head?.all fun frame => frame.phase.mayCall then some (.ok (set process stack false)) else none
  | _, _ => none

/-- A step of any thread. -/
def Step (hierarchy : Hierarchy Class) (system system' : System Class) : Prop :=
  ∃ thread action, act hierarchy system thread action = some (.ok system')

end ObjcDyld.Initialize
