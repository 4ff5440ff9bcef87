import Bolt.Server.Runs

/-! `AddInclusionConstraints` against `AddInclusionConstraint` on each constraint in turn,
stopping at the first error. On every cache, a non-empty batch gives the same result and
the same cache. An empty batch still makes its existence check, and its `Add` for an
uncached slot, which the calls one by one never make. -/
namespace Bolt.Server

namespace ConstraintCache
variable {Tx Hash : Type} [DecidableEq Hash] (codec : Codec Tx Hash)

/-- `AddInclusionConstraint(slot, c.Tx, c.Index)` for each `c` in order, up to the first
error. -/
def addEach (c : ConstraintCache Hash) (slot : UInt64) :
    List Constraint → Option (ConstraintCache Hash × Except String Unit)
  | [] => some (c,.ok ())
  | constraint :: constraints =>
    (c.addInclusionConstraint codec slot constraint.tx constraint.index).bind fun
      | (c,.ok ()) => c.addEach slot constraints
      | (c,.error err) => some (c,.error err)

theorem addEach_of_getLast {c : ConstraintCache Hash} {slot : UInt64} {m : Nat}
    (last : c.constraints.entries.getLast? = some (slot,m)) (constraints : List Constraint) :
    c.addEach codec slot constraints = c.storeAll codec (some m) constraints := by
  induction constraints generalizing c with
  | nil => rfl
  | cons constraint constraints ih =>
    simp only [addEach,addInclusionConstraint,addIfAbsent_of_getLast last,lruGet_of_getLast last,
      storeAll]
    cases codec.unmarshalBinary constraint.tx with
    | error err => rfl
    | ok parsedTx => exact ih last

theorem addInclusionConstraints_eq_addEach (c : ConstraintCache Hash) (slot : UInt64)
    (constraints : List Constraint) :
    c.addInclusionConstraints codec slot constraints =
      if constraints = [] then some (c.addIfAbsent slot,.ok ()) else c.addEach codec slot constraints := by
  obtain ⟨m,last⟩ := c.addIfAbsent_getLast slot
  cases constraints with
  | nil => simp [addInclusionConstraints,lruGet_of_getLast last,storeAll]
  | cons constraint constraints =>
    have opened : c.addEach codec slot (constraint :: constraints) =
        (c.addIfAbsent slot).addEach codec slot (constraint :: constraints) := by
      simp only [addEach,addInclusionConstraint,addIfAbsent_of_getLast last]
    rw [if_neg (List.cons_ne_nil _ _),opened,addEach_of_getLast codec last]
    simp [addInclusionConstraints,lruGet_of_getLast last]

end ConstraintCache

/-- With one slot of room, an empty batch for a new slot evicts the cached one, where the
calls one by one leave the cache alone. -/
theorem addInclusionConstraints_empty_evicts :
    ((newConstraintCache 1).bind fun c =>
      (c.addInclusionConstraint firstByteCodec 1 [7] none).bind fun added =>
        (added.1.addInclusionConstraints firstByteCodec 2 []).map fun r =>
          (r.1.constraints.keys,r.2)) = some ([2],.ok ()) ∧
    ((newConstraintCache 1).bind fun c =>
      (c.addInclusionConstraint firstByteCodec 1 [7] none).bind fun added =>
        (added.1.addEach firstByteCodec 2 []).map fun r =>
          (r.1.constraints.keys,r.2)) = some ([1],.ok ()) :=
  ⟨rfl,rfl⟩

end Bolt.Server
