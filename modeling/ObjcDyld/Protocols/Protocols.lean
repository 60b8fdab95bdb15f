import ObjcDyld.Common.Sorting
import ObjcDyld.MethodLists.Lists

/-!
# Protocols

Protocols with their four method lists, as the compiler emits them or as they are built at run time. Before
the first lookup, `fixupProtocol` fixes up the lists of a protocol and of those that it adopts.
-/

namespace ObjcDyld.Protocols

open MethodLists

/-- The `isa` of a protocol; `unused` where there is no protocol. -/
inductive Isa where
  | unused
  | incompleteProtocol
  | protocol
  deriving DecidableEq

/-- `protocol_t`. -/
structure Protocol where
  isa : Isa
  mangledName : String
  /-- `protocol_ref_t`s: addresses of protocols that were not remapped. -/
  protocols : Option (List ℕ)
  instanceMethods : Option MethodList
  classMethods : Option MethodList
  optionalInstanceMethods : Option MethodList
  optionalClassMethods : Option MethodList
  flags : BitVec 32
  extendedMethodTypes : Option (List String)
  deriving DecidableEq

/-- The protocols by their addresses, and `getProtocol`: those that were found first under a name. -/
structure Store where
  protocol : ℕ → Protocol
  getProtocol : String → Option ℕ

variable (runtime : Runtime)

/-- `PROTOCOL_FIXED_UP_MASK`. -/
def fixedUpMask : BitVec 32 := 0xc0000000

def fixedUpProtocol : BitVec 32 := if runtime.preoptimized then 0x40000000 else 0xc0000000

def canonicalProtocol : BitVec 32 := if runtime.preoptimized then 0x20000000 else 0

namespace Protocol

def isFixedUp (proto : Protocol) : Bool := proto.flags &&& fixedUpMask = fixedUpProtocol runtime

def setFixedUp (proto : Protocol) : Protocol := { proto with flags := proto.flags &&& ~~~fixedUpMask ||| fixedUpProtocol runtime }

def isCanonical (proto : Protocol) : Bool := proto.flags &&& canonicalProtocol runtime ≠ 0

/-- `getProtocolMethodList`. -/
def methodList (proto : Protocol) (required inst : Bool) : Option MethodList :=
  match required, inst with
  | true, true => proto.instanceMethods
  | true, false => proto.classMethods
  | false, true => proto.optionalInstanceMethods
  | false, false => proto.optionalClassMethods

def setMethodList (proto : Protocol) (required inst : Bool) (mlist : MethodList) : Protocol :=
  match required, inst with
  | true, true => { proto with instanceMethods := some mlist }
  | true, false => { proto with classMethods := some mlist }
  | false, true => { proto with optionalInstanceMethods := some mlist }
  | false, false => { proto with optionalClassMethods := some mlist }

end Protocol

def Store.remapProtocol (store : Store) (ref : ℕ) : ℕ :=
  if (store.protocol ref).isCanonical runtime then ref else (store.getProtocol (store.protocol ref).mangledName).getD ref

/-- How far the entry at an index is from the start of a list, with the mark of a small method. -/
def methodOffset (mlist : MethodList) (index : ℕ) : ℕ := 8 + index * mlist.entsize.toNat + if mlist.isSmallList then 1 else 0

/-- `indexOfMethod`, for a pointer that is this far from the start of the list. -/
def indexOfMethod (mlist : MethodList) (offset : ℕ) : ℕ := offset / mlist.entsize.toNat

def methodCount (mlist : Option MethodList) : ℕ := (mlist.map fun mlist => mlist.methods.length).getD 0

/-- `getExtendedTypesIndexesForMethod`: the methods of the lists before, and the index in the list itself. -/
def getExtendedTypesIndexesForMethod (proto : Protocol) (offset : ℕ) (required inst : Bool) : ℕ × ℕ :=
  let index (mlist : Option MethodList) : ℕ := (mlist.map fun mlist => indexOfMethod mlist offset).getD 0
  let a := 0
  if proto.instanceMethods.isSome ∧ required ∧ inst then (a, index proto.instanceMethods)
  else
    let a := a + methodCount proto.instanceMethods
    if proto.classMethods.isSome ∧ required ∧ ¬inst then (a, index proto.classMethods)
    else
      let a := a + methodCount proto.classMethods
      if proto.optionalInstanceMethods.isSome ∧ ¬required ∧ inst then (a, index proto.optionalInstanceMethods)
      else
        let a := a + methodCount proto.optionalInstanceMethods
        if proto.optionalClassMethods.isSome ∧ ¬required ∧ ¬inst then (a, index proto.optionalClassMethods)
        else (a + methodCount proto.optionalClassMethods, 0)

def getExtendedTypesIndexForMethod (proto : Protocol) (offset : ℕ) (required inst : Bool) : ℕ :=
  let (a, b) := getExtendedTypesIndexesForMethod proto offset required inst
  a + b

def fixupProtocolMethodList (proto : Protocol) (required inst : Bool) : Protocol :=
  match proto.methodList required inst with
  | none => proto
  | some mlist =>
      if mlist.isFixedUp runtime then proto
      else
        -- sort if no extended method types
        let fixed := fixupMethodList runtime mlist proto.extendedMethodTypes.isNone
        match proto.extendedMethodTypes with
        | none => proto.setMethodList required inst fixed
        | some extTypes =>
            if mlist.isSmallList then proto.setMethodList required inst fixed
            else
              -- sort method list and extended method types together
              let (first, _) := getExtendedTypesIndexesForMethod proto (methodOffset mlist 0) required inst
              let (methods, extTypes) := ExchangeSort.sort Method.name first (fixed.methods, extTypes)
              { proto.setMethodList required inst { fixed with methods := methods } with extendedMethodTypes := some extTypes }

/-- The end of `fixupProtocol`: the four lists. -/
def fixupMethodLists (proto : Protocol) : Protocol :=
  let proto := fixupProtocolMethodList runtime proto true true
  let proto := fixupProtocolMethodList runtime proto true false
  let proto := fixupProtocolMethodList runtime proto false true
  let proto := fixupProtocolMethodList runtime proto false false
  proto.setFixedUp runtime

def Store.update (store : Store) (address : ℕ) (proto : Protocol) : Store :=
  { store with protocol := Function.update store.protocol address proto }

/-- `fixupProtocol`; `none` if the fuel does not suffice for the depth of the adopted protocols. -/
def fixupProtocol : ℕ → Store → ℕ → Option Store
  | 0, _, _ => none
  | fuel + 1, store, proto => do
      let store ← ((store.protocol proto).protocols.getD []).foldlM (fun store ref =>
        let sub := store.remapProtocol runtime ref
        if (store.protocol sub).isFixedUp runtime then some store else fixupProtocol fuel store sub) store
      return store.update proto (fixupMethodLists runtime (store.protocol proto))

/-- `protocol_getMethod_nolock`; `none` if the fuel does not suffice. -/
def protocolGetMethodNolock (store : Store) (sel : ℕ) (required inst recursive : Bool) : ℕ → ℕ → Option (Option Method)
  | 0, _ => none
  | fuel + 1, proto =>
      if sel = 0 then some none
      else
        match ((store.protocol proto).methodList required inst).bind fun mlist => searchMethodListInline runtime mlist sel with
        | some meth => some (some meth)
        | none =>
            if recursive then
              ((store.protocol proto).protocols.getD []).foldlM (fun found ref =>
                match found with
                | some meth => some (some meth)
                | none => protocolGetMethodNolock store sel required inst recursive fuel (store.remapProtocol runtime ref)) none
            else some none

def protocolGetMethod (fuel : ℕ) (store : Store) (proto sel : ℕ) (required inst recursive : Bool) : Option (Store × Option Method) := do
  let store ← if (store.protocol proto).isFixedUp runtime then some store else fixupProtocol runtime fuel store proto
  let meth ← protocolGetMethodNolock runtime store sel required inst recursive fuel proto
  return (store, meth)

/-- `objc_allocateProtocol`, with the address from `calloc`. -/
def allocateProtocol (store : Store) (address : ℕ) (name : String) : Store :=
  match store.getProtocol name with
  | some _ => store
  | none => store.update address ⟨.incompleteProtocol, name, none, none, none, none, none, 0, none⟩

/-- `objc_registerProtocol`. -/
def registerProtocol (store : Store) (proto : ℕ) : Store :=
  if (store.protocol proto).isa ≠ .incompleteProtocol then store
  else
    let store := store.update proto { store.protocol proto with isa := .protocol }
    -- don't add this protocol if we already have it
    match store.getProtocol (store.protocol proto).mangledName with
    | some _ => store
    | none => { store with getProtocol := Function.update store.getProtocol (store.protocol proto).mangledName (some proto) }

/-- `protocol_addProtocol`. -/
def addProtocol (store : Store) (proto addition : ℕ) : Store :=
  if (store.protocol proto).isa ≠ .incompleteProtocol then store
  else if (store.protocol addition).isa = .incompleteProtocol then store
  else store.update proto { store.protocol proto with protocols := some ((store.protocol proto).protocols.getD [] ++ [addition]) }

/-- `protocol_addMethod_nolock`. -/
def addMethodNolock (list : Option MethodList) (name : ℕ) (types : Option String) : MethodList :=
  let list := list.getD ((⟨MethodList.bigSize, []⟩ : MethodList).setFixedUp runtime)
  { list with methods := list.methods ++ [⟨name, types.getD "", 0⟩] }

/-- `protocol_addMethodDescription`. -/
def addMethodDescription (store : Store) (proto name : ℕ) (types : Option String) (required inst : Bool) : Store :=
  if (store.protocol proto).isa ≠ .incompleteProtocol then store
  else
    store.update proto ((store.protocol proto).setMethodList required inst
      (addMethodNolock runtime ((store.protocol proto).methodList required inst) name types))

/-- A call of the interface. -/
inductive Call where
  | allocateProtocol (address : ℕ) (name : String)
  | registerProtocol (proto : ℕ)
  | addProtocol (proto addition : ℕ)
  | addMethodDescription (proto name : ℕ) (types : Option String) (required inst : Bool)
  | getMethod (proto sel : ℕ) (required inst recursive : Bool)
  deriving DecidableEq

def Call.run (fuel : ℕ) (store : Store) : Call → Option Store
  | .allocateProtocol address name => some (Protocols.allocateProtocol store address name)
  | .registerProtocol proto => some (Protocols.registerProtocol store proto)
  | .addProtocol proto addition => some (Protocols.addProtocol store proto addition)
  | .addMethodDescription proto name types required inst => some (Protocols.addMethodDescription runtime store proto name types required inst)
  | .getMethod proto sel required inst recursive =>
      (protocolGetMethod runtime fuel store proto sel required inst recursive).map Prod.fst

end ObjcDyld.Protocols
