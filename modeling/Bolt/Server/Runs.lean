import Bolt.Server.Store

/-! Sequential runs of calls on a cache made by `NewConstraintCache`. No call of such a run
panics, and each cached slot holds what the add calls on it wrote since it last entered
the cache, the last write for a hash winning. -/
namespace Bolt.Server

inductive Op (Hash : Type)
  | addInclusionConstraint (slot : UInt64) (tx : Transaction) (index : Option UInt64)
  | addInclusionConstraints (slot : UInt64) (constraints : List Constraint)
  | get (slot : UInt64)
  | findTransactionByHash (txHash : Hash)

/-- One-byte stand-ins for go-ethereum's decoding: the empty encoding fails as
`UnmarshalBinary` fails on it, and any other decodes to its first byte, its hash. -/
def firstByteCodec : Codec UInt8 UInt8 where
  unmarshalBinary
    | [] => .error "typed transaction too short"
    | byte :: _ => .ok byte
  hash := id

variable {Tx Hash : Type} (codec : Codec Tx Hash)

namespace ConstraintCache

/-- The cache after a call; `none` if the call panics. -/
def exec [DecidableEq Hash] (c : ConstraintCache Hash) : Op Hash → Option (ConstraintCache Hash)
  | .addInclusionConstraint slot tx index =>
    (c.addInclusionConstraint codec slot tx index).map Prod.fst
  | .addInclusionConstraints slot constraints =>
    (c.addInclusionConstraints codec slot constraints).map Prod.fst
  | .get slot => some (c.get slot).2
  | .findTransactionByHash _ => some c

def run [DecidableEq Hash] (c : ConstraintCache Hash) : List (Op Hash) → Option (ConstraintCache Hash)
  | [] => some c
  | op :: ops => (c.exec codec op).bind fun c => c.run ops

end ConstraintCache

namespace Store

def exec [DecidableEq Hash] (st : Store Hash) : Op Hash → Store Hash
  | .addInclusionConstraint slot tx index => (st.write codec slot [⟨tx,index⟩]).1
  | .addInclusionConstraints slot constraints => (st.write codec slot constraints).1
  | .get slot => (st.get slot).2
  | .findTransactionByHash _ => st

def run [DecidableEq Hash] (st : Store Hash) (ops : List (Op Hash)) : Store Hash :=
  ops.foldl (exec codec) st

end Store

theorem newConstraintCache_of_pos {cap : Int} (positive : 0 < cap) :
    ∃ c : ConstraintCache Hash, newConstraintCache cap = some c ∧ c.constraints.entries = [] := by
  simp [newConstraintCache,Lru.new,positive]

theorem ConstraintCache.Separated.of_new {cap : Int} {c : ConstraintCache Hash}
    (new : newConstraintCache cap = some c) : c.Separated := by
  unfold newConstraintCache Lru.new at new
  split_ifs at new with positive
  cases new
  constructor <;> simp [Lru.Cache.lookup]

variable [DecidableEq Hash] {c : ConstraintCache Hash}

theorem exec_refines (separated : c.Separated) (op : Op Hash) :
    ∃ c', c.exec codec op = some c' ∧ c'.view = c.view.exec codec op ∧ c'.Separated := by
  cases op with
  | addInclusionConstraint slot tx index =>
    obtain ⟨c',call,view',separated'⟩ := c.addInclusionConstraint_refines codec separated slot tx index
    exact ⟨c',by simp [ConstraintCache.exec,call],view',separated'⟩
  | addInclusionConstraints slot constraints =>
    obtain ⟨c',call,view',separated'⟩ := c.addInclusionConstraints_refines codec separated slot constraints
    exact ⟨c',by simp [ConstraintCache.exec,call],view',separated'⟩
  | get slot => exact ⟨_,rfl,c.view_get slot,separated.get slot⟩
  | findTransactionByHash _ => exact ⟨c,rfl,rfl,separated⟩

/-- The caches that calls reach from `NewConstraintCache(cap)`, for a `cap` it accepts. -/
inductive Reachable : ConstraintCache Hash → Prop
  | new {cap : Int} {c : ConstraintCache Hash} : newConstraintCache cap = some c → Reachable c
  | step {c c' : ConstraintCache Hash} (op : Op Hash) :
      Reachable c → c.exec codec op = some c' → Reachable c'

theorem Reachable.separated (reachable : Reachable codec c) : c.Separated := by
  induction reachable with
  | new new => exact ConstraintCache.Separated.of_new new
  | step op _ exec separated =>
    obtain ⟨c',exec',-,separated'⟩ := exec_refines codec separated op
    rw [exec] at exec'
    cases exec'
    exact separated'

/-- `NewConstraintCache(size)` after `AddInclusionConstraint(1, [7], 0)` under `firstByteCodec`:
slot 1 holds map 0, which maps 7 to that constraint. -/
def sevenCache (size : Nat) (positive : 0 < size) : ConstraintCache UInt8 :=
  ⟨⟨size,[(1,0)],positive,List.nodup_singleton _,positive⟩,
    (Heap.make ⟨fun _ _ => none,0⟩).2.write 0 7 ⟨[7],some 0⟩⟩

theorem sevenCache_reachable :
    Reachable firstByteCodec (sevenCache 1 (by decide)) ∧ Reachable firstByteCodec (sevenCache 2 (by decide)) :=
  ⟨.step (.addInclusionConstraint 1 [7] (some 0)) (.new (rfl : newConstraintCache 1 = some _)) rfl,
    .step (.addInclusionConstraint 1 [7] (some 0)) (.new (rfl : newConstraintCache 2 = some _)) rfl⟩

/-- No call of a run from a cache without shared maps panics, and the run is the run of the
store it stands for. -/
theorem run_refines (separated : c.Separated) (ops : List (Op Hash)) :
    ∃ c', c.run codec ops = some c' ∧ c'.view = c.view.run codec ops ∧ c'.Separated := by
  induction ops generalizing c with
  | nil => exact ⟨c,rfl,rfl,separated⟩
  | cons op ops ih =>
    obtain ⟨c₁,exec,view₁,separated₁⟩ := exec_refines codec separated op
    obtain ⟨c',run,view',separated'⟩ := ih separated₁
    refine ⟨c',by simp [ConstraintCache.run,exec,run],?_,separated'⟩
    rw [view',view₁]
    rfl

theorem run_refines_first_byte :
    (sevenCache 2 (by decide)).Separated ∧
    ∃ c', (sevenCache 2 (by decide)).run firstByteCodec
        [.addInclusionConstraint 2 [7] none,.get 1,.findTransactionByHash 7] = some c' ∧
      c'.view = (sevenCache 2 (by decide)).view.run firstByteCodec
        [.addInclusionConstraint 2 [7] none,.get 1,.findTransactionByHash 7] ∧
      c'.Separated :=
  have separated := sevenCache_reachable.2.separated firstByteCodec
  ⟨separated,run_refines firstByteCodec separated _⟩

end Bolt.Server
