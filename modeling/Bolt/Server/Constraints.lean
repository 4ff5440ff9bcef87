import Bolt.Lru.Cache
import Mathlib.Logic.Function.Basic

/-! `mev-boost/server/constraints.go`: the constraint types and `ConstraintCache`, an
`lru.Cache` from slots to Go maps from transaction hashes to constraints. A Go map is a
reference, so the cache holds references into the heap of maps it has made. -/
namespace Bolt.Server

abbrev Transaction := List UInt8

structure Constraint where
  tx : Transaction
  index : Option UInt64
  deriving DecidableEq, Repr

/-- The two go-ethereum calls the cache makes on a `types.Transaction`. -/
structure Codec (Tx Hash : Type) where
  unmarshalBinary : Transaction → Except String Tx
  hash : Tx → Hash

/-- A `map[gethCommon.Hash]*Constraint`, as the function its lookups compute. -/
abbrev HashToConstraint (Hash : Type) := Hash → Option Constraint

/-- The Go maps made so far, by reference; `next` is the reference `make` returns next. -/
structure Heap (Hash : Type) where
  maps : Nat → HashToConstraint Hash
  next : Nat

namespace Heap
variable {Hash : Type} [DecidableEq Hash]

def make (heap : Heap Hash) : Nat × Heap Hash :=
  (heap.next,{ maps := Function.update heap.maps heap.next (fun _ => none), next := heap.next + 1 })

def write (heap : Heap Hash) (m : Nat) (hash : Hash) (constraint : Constraint) : Heap Hash :=
  { heap with maps := Function.update heap.maps m (Function.update (heap.maps m) hash (some constraint)) }

@[simp] theorem write_maps (heap : Heap Hash) (m : Nat) (hash : Hash) (constraint : Constraint) :
    (heap.write m hash constraint).maps m = Function.update (heap.maps m) hash (some constraint) := by
  simp [write]

@[simp] theorem write_next (heap : Heap Hash) (m : Nat) (hash : Hash) (constraint : Constraint) :
    (heap.write m hash constraint).next = heap.next := rfl

end Heap

structure ConstraintCache (Hash : Type) where
  constraints : Lru.Cache UInt64 Nat
  heap : Heap Hash

/-- `NewConstraintCache`. `none` stands for the cache whose `lru.New` failed: Go drops the
error, and every call on that cache panics. -/
def newConstraintCache {Hash : Type} (cap : Int) : Option (ConstraintCache Hash) :=
  match Lru.new cap with
  | .ok constraints => some ⟨constraints,⟨fun _ _ => none,0⟩⟩
  | .error _ => none

namespace ConstraintCache
variable {Tx Hash : Type}

/-! The atomic steps the calls are made of: one `lru.Cache` call or one map write each. -/

def lruGet (c : ConstraintCache Hash) (slot : UInt64) : Option Nat × ConstraintCache Hash :=
  let (m,constraints) := c.constraints.get slot
  (m,{ c with constraints })

def addEmpty (c : ConstraintCache Hash) (slot : UInt64) : ConstraintCache Hash :=
  let (m,heap) := c.heap.make
  { constraints := (c.constraints.add slot m).1, heap }

/-- `if _, exists := c.constraints.Get(slot); !exists { c.constraints.Add(slot, ...) }`,
the opening of both add calls. -/
def addIfAbsent (c : ConstraintCache Hash) (slot : UInt64) : ConstraintCache Hash :=
  match c.lruGet slot with
  | (some _,c) => c
  | (none,c) => c.addEmpty slot

@[simp] theorem lruGet_fst (c : ConstraintCache Hash) (slot : UInt64) :
    (c.lruGet slot).1 = c.constraints.lookup slot := by
  simp [lruGet]

@[simp] theorem lruGet_constraints (c : ConstraintCache Hash) (slot : UInt64) :
    (c.lruGet slot).2.constraints = (c.constraints.get slot).2 := rfl

@[simp] theorem lruGet_heap (c : ConstraintCache Hash) (slot : UInt64) :
    (c.lruGet slot).2.heap = c.heap := rfl

theorem lruGet_eq (c : ConstraintCache Hash) (slot : UInt64) :
    c.lruGet slot = (c.constraints.lookup slot,(c.lruGet slot).2) :=
  Prod.ext (lruGet_fst c slot) rfl

theorem lruGet_of_lookup_none {c : ConstraintCache Hash} {slot : UInt64}
    (missing : c.constraints.lookup slot = none) : c.lruGet slot = (none,c) := by
  simp [lruGet,Lru.Cache.get_of_lookup_none missing]

theorem lruGet_of_getLast {c : ConstraintCache Hash} {slot : UInt64} {m : Nat}
    (last : c.constraints.entries.getLast? = some (slot,m)) : c.lruGet slot = (some m,c) := by
  simp [lruGet,Lru.Cache.get_of_getLast last]

theorem addIfAbsent_of_lookup_some {c : ConstraintCache Hash} {slot : UInt64} {m : Nat}
    (found : c.constraints.lookup slot = some m) : c.addIfAbsent slot = (c.lruGet slot).2 := by
  simp [addIfAbsent,lruGet,Lru.Cache.get_of_lookup_some found]

theorem addIfAbsent_of_lookup_none {c : ConstraintCache Hash} {slot : UInt64}
    (missing : c.constraints.lookup slot = none) : c.addIfAbsent slot = c.addEmpty slot := by
  simp [addIfAbsent,lruGet,Lru.Cache.get_of_lookup_none missing]

theorem addIfAbsent_of_getLast {c : ConstraintCache Hash} {slot : UInt64} {m : Nat}
    (last : c.constraints.entries.getLast? = some (slot,m)) : c.addIfAbsent slot = c := by
  simp [addIfAbsent,lruGet_of_getLast last]

theorem lruGet_of_lookup_some {c : ConstraintCache Hash} {slot : UInt64} {m : Nat}
    (found : c.constraints.lookup slot = some m) : c.lruGet slot = (some m,c.addIfAbsent slot) :=
  Prod.ext (by simp [found]) (addIfAbsent_of_lookup_some found).symm

theorem addIfAbsent_getLast (c : ConstraintCache Hash) (slot : UInt64) :
    ∃ m, (c.addIfAbsent slot).constraints.entries.getLast? = some (slot,m) := by
  cases found : c.constraints.lookup slot with
  | none =>
    rw [addIfAbsent_of_lookup_none found]
    exact ⟨_,Lru.Cache.add_getLast _ _ _⟩
  | some m =>
    rw [addIfAbsent_of_lookup_some found]
    exact ⟨m,Lru.Cache.get_getLast found⟩

variable [DecidableEq Hash]

def store (c : ConstraintCache Hash) (m : Option Nat) (hash : Hash) (constraint : Constraint) :
    Option (ConstraintCache Hash) :=
  m.map fun m => { c with heap := c.heap.write m hash constraint }

@[simp] theorem store_none (c : ConstraintCache Hash) (hash : Hash) (constraint : Constraint) :
    c.store none hash constraint = none := rfl

@[simp] theorem store_some (c : ConstraintCache Hash) (m : Nat) (hash : Hash) (constraint : Constraint) :
    c.store (some m) hash constraint = some { c with heap := c.heap.write m hash constraint } := rfl

/-! The calls. A result of `none` is a panic. -/

def addInclusionConstraint (codec : Codec Tx Hash) (c : ConstraintCache Hash) (slot : UInt64)
    (tx : Transaction) (index : Option UInt64) : Option (ConstraintCache Hash × Except String Unit) :=
  let c := c.addIfAbsent slot
  match codec.unmarshalBinary tx with
  | .error err => some (c,.error err)
  | .ok parsedTx =>
    let (m,c) := c.lruGet slot
    (c.store m (codec.hash parsedTx) ⟨tx,index⟩).map fun c => (c,.ok ())

def storeAll (codec : Codec Tx Hash) (m : Option Nat) (c : ConstraintCache Hash) :
    List Constraint → Option (ConstraintCache Hash × Except String Unit)
  | [] => some (c,.ok ())
  | constraint :: constraints =>
    match codec.unmarshalBinary constraint.tx with
    | .error err => some (c,.error err)
    | .ok parsedTx =>
      (c.store m (codec.hash parsedTx) constraint).bind fun c => storeAll codec m c constraints

def addInclusionConstraints (codec : Codec Tx Hash) (c : ConstraintCache Hash) (slot : UInt64)
    (constraints : List Constraint) : Option (ConstraintCache Hash × Except String Unit) :=
  let (m,c) := (c.addIfAbsent slot).lruGet slot
  storeAll codec m c constraints

/-- A single add is a batch of one: the second `Get` finds the slot most recent. -/
theorem addInclusionConstraint_eq_batch (codec : Codec Tx Hash) (c : ConstraintCache Hash)
    (slot : UInt64) (tx : Transaction) (index : Option UInt64) :
    c.addInclusionConstraint codec slot tx index = c.addInclusionConstraints codec slot [⟨tx,index⟩] := by
  obtain ⟨m,last⟩ := c.addIfAbsent_getLast slot
  simp only [addInclusionConstraint,addInclusionConstraints,lruGet_of_getLast last,storeAll]
  cases codec.unmarshalBinary tx <;> rfl

/-- `Get`: the map of `slot` as it stands when it is read. -/
def get (c : ConstraintCache Hash) (slot : UInt64) :
    Option (HashToConstraint Hash) × ConstraintCache Hash :=
  let (m,c) := c.lruGet slot
  (m.map c.heap.maps,c)

/-- `FindTransactionByHash`: the first map in `Values`, oldest first, that holds `txHash`. -/
def findTransactionByHash (c : ConstraintCache Hash) (txHash : Hash) : Option Constraint :=
  (c.constraints.values.map c.heap.maps).findSome? fun hashToConstraint => hashToConstraint txHash

end ConstraintCache

end Bolt.Server
