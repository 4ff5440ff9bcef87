import Bolt.Server.Runs

/-! The add calls as threads over one shared cache. Each `lru.Cache` call and each map write
is one atomic step, so other calls can run between a call's existence check, its `Add` and
its second `Get`: the check-then-add is not atomic. A call alone computes what the
sequential model computes. -/
namespace Bolt.Server

/-- Where an add call stands between two atomic steps, with the locals it holds there. -/
inductive Call (Hash : Type)
  | checkOne (slot : UInt64) (tx : Transaction) (index : Option UInt64)
  | addOne (slot : UInt64) (tx : Transaction) (index : Option UInt64)
  | getOne (slot : UInt64) (tx : Transaction) (index : Option UInt64)
  | storeOne (m : Option Nat) (hash : Hash) (constraint : Constraint)
  | checkMany (slot : UInt64) (constraints : List Constraint)
  | addMany (slot : UInt64) (constraints : List Constraint)
  | getMany (slot : UInt64) (constraints : List Constraint)
  | storeMany (m : Option Nat) (constraints : List Constraint)
  | returned (result : Except String Unit)
  | panicked

variable {Tx Hash : Type} [DecidableEq Hash] (codec : Codec Tx Hash)

/-- One atomic step of a call on the shared cache. -/
def Call.step (c : ConstraintCache Hash) : Call Hash → ConstraintCache Hash × Call Hash
  | .checkOne slot tx index =>
    match c.lruGet slot with
    | (some _,c) => (c,.getOne slot tx index)
    | (none,c) => (c,.addOne slot tx index)
  | .addOne slot tx index => (c.addEmpty slot,.getOne slot tx index)
  | .getOne slot tx index =>
    match codec.unmarshalBinary tx with
    | .error err => (c,.returned (.error err))
    | .ok parsedTx =>
      let (m,c) := c.lruGet slot
      (c,.storeOne m (codec.hash parsedTx) ⟨tx,index⟩)
  | .storeOne m hash constraint =>
    match c.store m hash constraint with
    | some c => (c,.returned (.ok ()))
    | none => (c,.panicked)
  | .checkMany slot constraints =>
    match c.lruGet slot with
    | (some _,c) => (c,.getMany slot constraints)
    | (none,c) => (c,.addMany slot constraints)
  | .addMany slot constraints => (c.addEmpty slot,.getMany slot constraints)
  | .getMany slot constraints =>
    let (m,c) := c.lruGet slot
    (c,.storeMany m constraints)
  | .storeMany _ [] => (c,.returned (.ok ()))
  | .storeMany m (constraint :: constraints) =>
    match codec.unmarshalBinary constraint.tx with
    | .error err => (c,.returned (.error err))
    | .ok parsedTx =>
      match c.store m (codec.hash parsedTx) constraint with
      | some c => (c,.storeMany m constraints)
      | none => (c,.panicked)
  | .returned result => (c,.returned result)
  | .panicked => (c,.panicked)

structure World (Hash : Type) where
  cache : ConstraintCache Hash
  calls : List (Call Hash)

def World.step (w : World Hash) (i : Nat) : World Hash :=
  match w.calls[i]? with
  | some call =>
    let (cache,call) := call.step codec w.cache
    ⟨cache,w.calls.set i call⟩
  | none => w

def World.run (w : World Hash) (schedule : List Nat) : World Hash :=
  schedule.foldl (World.step codec) w

theorem World.step_alone (c : ConstraintCache Hash) (call : Call Hash) :
    World.step codec ⟨c,[call]⟩ 0 = ⟨(call.step codec c).1,[(call.step codec c).2]⟩ :=
  rfl

theorem Call.step_returned (c : ConstraintCache Hash) (result : Except String Unit) :
    (Call.returned result).step codec c = (c,.returned result) :=
  rfl

theorem World.run_append (w : World Hash) (first rest : List Nat) :
    World.run codec w (first ++ rest) = World.run codec (World.run codec w first) rest :=
  List.foldl_append _ _ _ _

theorem World.run_cons (w : World Hash) (i : Nat) (schedule : List Nat) :
    World.run codec w (i :: schedule) = World.run codec (World.step codec w i) schedule :=
  rfl

theorem World.run_returned (c : ConstraintCache Hash) (result : Except String Unit)
    (schedule : List Nat) : World.run codec ⟨c,[.returned result]⟩ schedule = ⟨c,[.returned result]⟩ := by
  induction schedule with
  | nil => rfl
  | cons i schedule ih => rcases i with _ | i <;> exact ih

theorem World.step_calls (w : World Hash) (i : Nat) {j : Nat} {call : Call Hash}
    (taken : w.calls[j]? = some call) :
    (World.step codec w i).calls[j]? = some (if i = j then (call.step codec w.cache).2 else call) := by
  by_cases same : i = j
  · subst same
    simp [World.step,taken,(List.getElem?_eq_some_iff.mp taken).1]
  · unfold World.step
    split <;> simp [List.getElem?_set,same,taken]

theorem World.step_of_getElem? {w : World Hash} {i : Nat} {call : Call Hash} (taken : w.calls[i]? = some call) :
    World.step codec w i = ⟨(call.step codec w.cache).1,w.calls.set i (call.step codec w.cache).2⟩ := by
  unfold World.step
  rw [taken]

theorem World.length_step (w : World Hash) (i : Nat) : (World.step codec w i).calls.length = w.calls.length := by
  unfold World.step
  split <;> simp

/-- Each call after a step of call `i`: call `i` stepped, every other call as it was. -/
theorem World.getElem?_step {w : World Hash} {i j : Nat} {call' : Call Hash}
    (taken : (World.step codec w i).calls[j]? = some call') :
    ∃ call, w.calls[j]? = some call ∧ call' = if i = j then (call.step codec w.cache).2 else call := by
  have bound : j < w.calls.length := World.length_step codec w i ▸ (List.getElem?_eq_some_iff.mp taken).1
  have current : w.calls[j]? = some w.calls[j] := List.getElem?_eq_getElem bound
  rw [World.step_calls codec w i current,Option.some.injEq] at taken
  exact ⟨_,current,taken.symm⟩

theorem World.step_of_getElem?_none {w : World Hash} {i : Nat} (idle : w.calls[i]? = none) :
    World.step codec w i = w := by
  unfold World.step
  rw [idle]

private theorem opening_alone {check add fetch : Call Hash} {slot : UInt64}
    (checks : ∀ c : ConstraintCache Hash, check.step codec c = match c.lruGet slot with
      | (some _,c) => (c,fetch)
      | (none,c) => (c,add))
    (adds : ∀ c : ConstraintCache Hash, add.step codec c = (c.addEmpty slot,fetch))
    {c c' : ConstraintCache Hash} {result : Except String Unit} {n : Nat}
    (rest : World.run codec ⟨c.addIfAbsent slot,[fetch]⟩ (List.replicate n 0) = ⟨c',[.returned result]⟩) :
    World.run codec ⟨c,[check]⟩ (List.replicate (n + 2) 0) = ⟨c',[.returned result]⟩ := by
  cases found : c.constraints.lookup slot with
  | none =>
    rw [ConstraintCache.addIfAbsent_of_lookup_none found] at rest
    simpa [World.run,World.step_alone,checks,adds,ConstraintCache.lruGet_of_lookup_none found,
      List.replicate_succ] using rest
  | some m =>
    rw [List.replicate_succ',List.replicate_succ,World.run_append,World.run_cons codec ⟨c,[check]⟩,
      World.step_alone,checks,ConstraintCache.lruGet_of_lookup_some found]
    exact congrArg (World.run codec · [0]) rest

private theorem getOne_alone (c : ConstraintCache Hash) (slot : UInt64) (tx : Transaction)
    (index : Option UInt64) :
    ∃ c' result, c.addInclusionConstraint codec slot tx index = some (c',result) ∧
      World.run codec ⟨c.addIfAbsent slot,[.getOne slot tx index]⟩ (List.replicate 2 0) =
        ⟨c',[.returned result]⟩ := by
  obtain ⟨m,last⟩ := c.addIfAbsent_getLast slot
  simp only [ConstraintCache.addInclusionConstraint]
  cases parsed : codec.unmarshalBinary tx with
  | error err =>
    exact ⟨_,.error err,rfl,by simp [World.run,World.step_alone,Call.step,parsed,Call.step_returned]⟩
  | ok parsedTx =>
    refine ⟨{ c.addIfAbsent slot with
        heap := (c.addIfAbsent slot).heap.write m (codec.hash parsedTx) ⟨tx,index⟩ },.ok (),
      by simp [ConstraintCache.lruGet_of_getLast last],?_⟩
    simp [World.run,World.step_alone,Call.step,parsed,ConstraintCache.lruGet_of_getLast last]

/-- `AddInclusionConstraint` with no other call between its steps computes the sequential
call: four steps return its result on its cache. -/
theorem addInclusionConstraint_alone (c : ConstraintCache Hash) (slot : UInt64) (tx : Transaction)
    (index : Option UInt64) :
    ∃ c' result, c.addInclusionConstraint codec slot tx index = some (c',result) ∧
      World.run codec ⟨c,[.checkOne slot tx index]⟩ [0,0,0,0] = ⟨c',[.returned result]⟩ := by
  obtain ⟨c',result,call,rest⟩ := getOne_alone codec c slot tx index
  have opened : World.run codec ⟨c,[.checkOne slot tx index]⟩ (List.replicate (2 + 2) 0) =
      ⟨c',[.returned result]⟩ := opening_alone codec (fun _ => by rfl) (fun _ => by rfl) rest
  exact ⟨c',result,call,opened⟩

private theorem storeMany_alone (c : ConstraintCache Hash) (m : Nat) (constraints : List Constraint) :
    ∃ c' result, c.storeAll codec (some m) constraints = some (c',result) ∧
      World.run codec ⟨c,[.storeMany (some m) constraints]⟩ (List.replicate (constraints.length + 1) 0) =
        ⟨c',[.returned result]⟩ := by
  induction constraints generalizing c with
  | nil => exact ⟨c,.ok (),rfl,rfl⟩
  | cons constraint constraints ih =>
    rw [List.length_cons,List.replicate_succ,World.run_cons,World.step_alone]
    cases parsed : codec.unmarshalBinary constraint.tx with
    | error err =>
      refine ⟨c,.error err,by simp [ConstraintCache.storeAll,parsed],?_⟩
      simp only [Call.step,parsed]
      exact World.run_returned codec c _ _
    | ok parsedTx =>
      obtain ⟨c',result,call,rest⟩ :=
        ih { c with heap := c.heap.write m (codec.hash parsedTx) constraint }
      exact ⟨c',result,by simpa [ConstraintCache.storeAll,parsed] using call,
        by simpa [Call.step,parsed] using rest⟩

/-- `AddInclusionConstraints` with no other call between its steps computes the sequential
call. -/
theorem addInclusionConstraints_alone (c : ConstraintCache Hash) (slot : UInt64)
    (constraints : List Constraint) :
    ∃ c' result, c.addInclusionConstraints codec slot constraints = some (c',result) ∧
      World.run codec ⟨c,[.checkMany slot constraints]⟩ (List.replicate (constraints.length + 4) 0) =
        ⟨c',[.returned result]⟩ := by
  obtain ⟨m,last⟩ := c.addIfAbsent_getLast slot
  obtain ⟨c',result,call,rest⟩ := storeMany_alone codec (c.addIfAbsent slot) m constraints
  refine ⟨c',result,by simpa [ConstraintCache.addInclusionConstraints,
    ConstraintCache.lruGet_of_getLast last] using call,
    opening_alone codec (fun _ => by rfl) (fun _ => by rfl) ?_⟩
  rw [List.replicate_succ,World.run_cons,World.step_alone]
  simpa [Call.step,ConstraintCache.lruGet_of_getLast last] using rest

/-- With room for one slot: between a call's `Add(1, ...)` and its second `Get(1)`, another
writer's call for slot 2 evicts slot 1. The `Get` finds no map, and the write into the nil
map panics. -/
theorem addInclusionConstraint_get_after_eviction :
    ((newConstraintCache 1).map fun c =>
      let w := World.run firstByteCodec ⟨c,[.checkOne 1 [7] none,.checkOne 2 [8] none]⟩ [0,0,1,1,0]
      (w.calls,(World.step firstByteCodec w 0).calls)) =
      some ([.storeOne none 7 ⟨[7],none⟩,.getOne 2 [8] none],[.panicked,.getOne 2 [8] none]) :=
  rfl

/-- Two calls on slot 1 both find it uncached; the second `Add` replaces the map the first
call wrote into. Both return nil, and `Get(1)` has only the second constraint. -/
theorem addInclusionConstraint_lost_update :
    ((newConstraintCache 1).map fun c =>
      let w := World.run firstByteCodec ⟨c,[.checkOne 1 [7] none,.checkOne 1 [8] none]⟩
        [0,1,0,0,0,1,1,1]
      (w.calls,(w.cache.get 1).1.map fun m => (m 7,m 8))) =
      some ([.returned (.ok ()),.returned (.ok ())],some (none,some ⟨[8],none⟩)) :=
  rfl

end Bolt.Server
