import Bolt.Lru.Recency
import Bolt.Server.Runs

/-! Which slots a sequential run leaves cached, said without the cache: the `cap` slots the
run used last, least recently used first. Every add call uses its slot, also when its
transaction then fails to parse; a `Get` uses its slot only when it finds it, and
`FindTransactionByHash` uses none. -/
namespace Bolt.Server

/-- The slots a call uses, given the slots cached before it. -/
def Op.used {Hash : Type} (cached : List UInt64) : Op Hash → List UInt64
  | .addInclusionConstraint slot _ _ => [slot]
  | .addInclusionConstraints slot _ => [slot]
  | .get slot => if slot ∈ cached then [slot] else []
  | .findTransactionByHash _ => []

/-- The uses of a run after the history `uses`, oldest first. Whether a `Get` finds its slot
is read off the window of the uses before it. -/
def usedSlots {Hash : Type} (cap : Nat) (uses : List UInt64) : List (Op Hash) → List UInt64
  | [] => uses
  | op :: ops => usedSlots cap (uses ++ op.used (Lru.window cap uses)) ops

theorem newConstraintCache_size {Hash : Type} {cap : Int} {c : ConstraintCache Hash}
    (new : newConstraintCache cap = some c) : c.constraints.size = cap.toNat := by
  unfold newConstraintCache Lru.new at new
  split_ifs at new
  cases new
  rfl

namespace ConstraintCache
variable {Tx Hash : Type} [DecidableEq Hash] (codec : Codec Tx Hash)

/-! The slots and their order change only in the opening of an add call and in `Get`; map
writes leave them alone. -/

theorem store_constraints {c c' : ConstraintCache Hash} {m : Option Nat} {hash : Hash}
    {constraint : Constraint} (stored : c.store m hash constraint = some c') :
    c'.constraints = c.constraints := by
  cases m <;> simp only [store_none,store_some,Option.some.injEq,reduceCtorEq] at stored
  exact stored ▸ rfl

theorem storeAll_constraints {m : Option Nat} {c c' : ConstraintCache Hash}
    {constraints : List Constraint} {result : Except String Unit}
    (stored : c.storeAll codec m constraints = some (c',result)) : c'.constraints = c.constraints := by
  induction constraints generalizing c with
  | nil => cases stored; rfl
  | cons constraint constraints ih =>
    simp only [storeAll] at stored
    split at stored
    · cases stored; rfl
    · obtain ⟨c₁,store,rest⟩ := Option.bind_eq_some.mp stored
      rw [ih rest,store_constraints store]

theorem addInclusionConstraints_constraints {c c' : ConstraintCache Hash} {slot : UInt64}
    {constraints : List Constraint} {result : Except String Unit}
    (call : c.addInclusionConstraints codec slot constraints = some (c',result)) :
    c'.constraints = (c.addIfAbsent slot).constraints := by
  obtain ⟨m,last⟩ := c.addIfAbsent_getLast slot
  simp only [addInclusionConstraints,lruGet_of_getLast last] at call
  exact storeAll_constraints codec call

omit [DecidableEq Hash] in
theorem keys_addIfAbsent {c : ConstraintCache Hash} {uses : List UInt64}
    (recent : c.constraints.keys = Lru.window c.constraints.size uses) (slot : UInt64) :
    (c.addIfAbsent slot).constraints.size = c.constraints.size ∧
      (c.addIfAbsent slot).constraints.keys = Lru.window c.constraints.size (uses ++ [slot]) := by
  cases found : c.constraints.lookup slot with
  | none =>
    rw [addIfAbsent_of_lookup_none found]
    exact ⟨Lru.Cache.size_add _ _ _,Lru.Cache.keys_add_window recent slot _⟩
  | some m =>
    have used := Lru.Cache.keys_get_window recent slot
    rw [if_pos (Lru.Cache.mem_keys_of_lookup found)] at used
    rw [addIfAbsent_of_lookup_some found,lruGet_constraints]
    exact ⟨Lru.Cache.size_get _ _,used⟩

theorem exec_keys {c c' : ConstraintCache Hash} {uses : List UInt64}
    (recent : c.constraints.keys = Lru.window c.constraints.size uses) {op : Op Hash}
    (exec : c.exec codec op = some c') :
    c'.constraints.size = c.constraints.size ∧
      c'.constraints.keys =
        Lru.window c.constraints.size (uses ++ op.used (Lru.window c.constraints.size uses)) := by
  rw [← recent]
  cases op with
  | addInclusionConstraint slot tx index =>
    obtain ⟨⟨c₁,result⟩,call,rfl⟩ := Option.map_eq_some'.mp exec
    rw [addInclusionConstraint_eq_batch] at call
    rw [addInclusionConstraints_constraints codec call]
    exact keys_addIfAbsent recent slot
  | addInclusionConstraints slot constraints =>
    obtain ⟨⟨c₁,result⟩,call,rfl⟩ := Option.map_eq_some'.mp exec
    rw [addInclusionConstraints_constraints codec call]
    exact keys_addIfAbsent recent slot
  | get slot =>
    cases exec
    exact ⟨Lru.Cache.size_get _ _,Lru.Cache.keys_get_window recent slot⟩
  | findTransactionByHash _ =>
    cases exec
    exact ⟨rfl,by rw [Op.used,List.append_nil,recent]⟩

theorem run_keys {c c' : ConstraintCache Hash} {uses : List UInt64}
    (recent : c.constraints.keys = Lru.window c.constraints.size uses) {ops : List (Op Hash)}
    (run : c.run codec ops = some c') :
    c'.constraints.keys = Lru.window c.constraints.size (usedSlots c.constraints.size uses ops) := by
  induction ops generalizing c uses with
  | nil => cases run; exact recent
  | cons op ops ih =>
    obtain ⟨c₁,exec,run₁⟩ := Option.bind_eq_some.mp run
    obtain ⟨size,keys⟩ := exec_keys codec recent exec
    have rest := ih (size ▸ keys) run₁
    rw [size] at rest
    exact rest

end ConstraintCache

variable {Tx Hash : Type} [DecidableEq Hash] (codec : Codec Tx Hash)

/-- After any run from `NewConstraintCache(cap)`, the cached slots, least recently used
first, are the `cap` slots the run used last, and `Get` finds exactly those. -/
theorem keys_run_eq_window {cap : Int} (positive : 0 < cap) (ops : List (Op Hash)) :
    ∃ c₀ c, newConstraintCache cap = some c₀ ∧ c₀.run codec ops = some c ∧
      c.constraints.keys = Lru.window cap.toNat (usedSlots cap.toNat [] ops) ∧
      ∀ slot, (c.get slot).1.isSome ↔ slot ∈ Lru.window cap.toNat (usedSlots cap.toNat [] ops) := by
  obtain ⟨c₀,new,empty⟩ := newConstraintCache_of_pos positive
  obtain ⟨c,run,-,-⟩ := run_refines codec (ConstraintCache.Separated.of_new new) ops
  have start : c₀.constraints.keys = Lru.window c₀.constraints.size [] := by
    simp [Lru.Cache.keys,empty,Lru.window]
  have keys := ConstraintCache.run_keys codec start run
  rw [newConstraintCache_size new] at keys
  refine ⟨c₀,c,new,run,keys,fun slot => ?_⟩
  rw [← keys,ConstraintCache.get_fst,ConstraintCache.view_lookup]
  simp [Option.isSome_iff_ne_none,Lru.Cache.lookup_eq_none_iff]

theorem keys_run_eq_window_parse_error :
    (0 : Int) < 2 ∧ ∃ c₀ c, newConstraintCache 2 = some c₀ ∧
      c₀.run firstByteCodec [.addInclusionConstraint 1 [7] none,.addInclusionConstraint 2 [] none,
        .get 1,.addInclusionConstraints 3 [],.get 2] = some c ∧
      c.constraints.keys = Lru.window (2 : Int).toNat (usedSlots (2 : Int).toNat []
        ([.addInclusionConstraint 1 [7] none,.addInclusionConstraint 2 [] none,.get 1,
          .addInclusionConstraints 3 [],.get 2] : List (Op UInt8))) ∧
      ∀ slot, (c.get slot).1.isSome ↔ slot ∈ Lru.window (2 : Int).toNat (usedSlots (2 : Int).toNat []
        ([.addInclusionConstraint 1 [7] none,.addInclusionConstraint 2 [] none,.get 1,
          .addInclusionConstraints 3 [],.get 2] : List (Op UInt8))) :=
  ⟨by decide,keys_run_eq_window firstByteCodec (by decide) _⟩

end Bolt.Server
