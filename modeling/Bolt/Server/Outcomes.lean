import Bolt.Server.Interleavings

/-! What each add call returns, and within how many of its own steps, whatever the other
calls do between them. No step waits for another call, so a call ends within
`len(constraints) + 4` of its own steps. What it returns, unless it panics, depends on its
arguments alone: the error of its first transaction that does not decode, or nil. -/
namespace Bolt.Server

variable {Tx Hash : Type} (codec : Codec Tx Hash)

/-- From here on, the call panics or returns `expected`. -/
def Call.Returns (expected : Except String Unit) : Call Hash → Prop
  | .checkOne _ tx index | .addOne _ tx index | .getOne _ tx index => (decodeAll codec [⟨tx,index⟩]).2 = expected
  | .storeOne .. => .ok () = expected
  | .checkMany _ constraints | .addMany _ constraints | .getMany _ constraints | .storeMany _ constraints =>
    (decodeAll codec constraints).2 = expected
  | .returned result => result = expected
  | .panicked => True

def Call.budget {Hash : Type} : Call Hash → Nat
  | .checkOne .. => 4
  | .addOne .. => 3
  | .getOne .. => 2
  | .storeOne .. => 1
  | .checkMany _ constraints => constraints.length + 4
  | .addMany _ constraints => constraints.length + 3
  | .getMany _ constraints => constraints.length + 2
  | .storeMany _ constraints => constraints.length + 1
  | .returned _ | .panicked => 0

theorem Call.budget_eq_zero {call : Call Hash} :
    call.budget = 0 ↔ call = .panicked ∨ ∃ result, call = .returned result := by
  cases call <;> simp [Call.budget]

theorem Request.returns_call (request : Request) :
    (request.call : Call Hash).Returns codec (decodeAll codec request.constraints).2 := by
  cases request <;> rfl

theorem Request.budget_call (request : Request) :
    (request.call : Call Hash).budget ≤ request.constraints.length + 4 := by
  cases request <;> simp [Request.call,Request.constraints,Call.budget]

variable [DecidableEq Hash]

theorem Call.returns_step (c : ConstraintCache Hash) {expected : Except String Unit} {call : Call Hash}
    (returns : call.Returns codec expected) : (call.step codec c).2.Returns codec expected := by
  cases call with
  | checkOne slot tx index | checkMany slot constraints =>
    simp only [Call.step]
    split <;> exact returns
  | addOne slot tx index | addMany slot constraints | getMany slot constraints | returned result | panicked =>
    exact returns
  | getOne slot tx index =>
    simp only [Call.step]
    cases parsed : codec.unmarshalBinary tx <;> simpa [Call.Returns,decodeAll,parsed] using returns
  | storeOne m hash constraint =>
    simp only [Call.step]
    split
    · exact returns
    · trivial
  | storeMany m constraints =>
    cases constraints with
    | nil => exact returns
    | cons constraint constraints =>
      simp only [Call.step]
      cases parsed : codec.unmarshalBinary constraint.tx with
      | error err => simpa [Call.Returns,decodeAll,parsed] using returns
      | ok parsedTx =>
        dsimp only
        split
        · simpa [Call.Returns,decodeAll,parsed] using returns
        · trivial

theorem Call.budget_step (c : ConstraintCache Hash) (call : Call Hash) :
    (call.step codec c).2.budget ≤ call.budget - 1 := by
  cases call with
  | checkOne slot tx index | checkMany slot constraints =>
    simp only [Call.step]
    split <;> simp [Call.budget]
  | getOne slot tx index =>
    simp only [Call.step]
    cases codec.unmarshalBinary tx <;> simp [Call.budget]
  | storeOne m hash constraint =>
    simp only [Call.step]
    split <;> simp [Call.budget]
  | storeMany m constraints =>
    cases constraints with
    | nil => simp [Call.step,Call.budget]
    | cons constraint constraints =>
      simp only [Call.step]
      cases codec.unmarshalBinary constraint.tx with
      | error err => simp [Call.budget]
      | ok parsedTx =>
        dsimp only
        split <;> simp [Call.budget]
  | addOne slot tx index | addMany slot constraints | getMany slot constraints | returned result | panicked =>
    simp [Call.step,Call.budget]

theorem World.run_calls {P : Call Hash → Prop} (kept : ∀ c call, P call → P (call.step codec c).2)
    (w : World Hash) (schedule : List Nat) {j : Nat} {call : Call Hash} (taken : w.calls[j]? = some call)
    (holds : P call) : ∃ call', (World.run codec w schedule).calls[j]? = some call' ∧ P call' := by
  induction schedule generalizing w call with
  | nil => exact ⟨call,taken,holds⟩
  | cons i schedule ih =>
    refine ih _ (World.step_calls codec w i taken) ?_
    split_ifs
    · exact kept _ _ holds
    · exact holds

theorem World.budget_run (w : World Hash) (schedule : List Nat) {j : Nat} {call : Call Hash}
    (taken : w.calls[j]? = some call) :
    ∃ call', (World.run codec w schedule).calls[j]? = some call' ∧
      call'.budget ≤ call.budget - schedule.count j := by
  induction schedule generalizing w call with
  | nil => exact ⟨call,taken,Nat.le_refl _⟩
  | cons i schedule ih =>
    obtain ⟨call',run,spent⟩ := ih _ (World.step_calls codec w i taken)
    refine ⟨call',run,?_⟩
    by_cases same : i = j
    · subst same
      have own := Call.budget_step codec w.cache call
      simp only [if_true,List.count_cons_self] at spent ⊢
      omega
    · simpa [same,List.count_cons_of_ne (Ne.symm same)] using spent

/-- Whatever the interleaving, a call that has returned returns the error of the first of its
transactions that does not decode, or nil: what the call alone returns. -/
theorem addInclusionConstraints_concurrent_result (c : ConstraintCache Hash) (requests : List Request)
    (schedule : List Nat) {i : Nat} {request : Request} {result : Except String Unit}
    (made : requests[i]? = some request)
    (returned : (World.run codec ⟨c,requests.map Request.call⟩ schedule).calls[i]? = some (.returned result)) :
    result = (decodeAll codec request.constraints).2 := by
  have start : (requests.map Request.call : List (Call Hash))[i]? = some request.call := by
    rw [List.getElem?_map,made]; rfl
  obtain ⟨call,run,returns⟩ := World.run_calls codec (fun c _ => Call.returns_step codec c) ⟨c,_⟩ schedule start
    (request.returns_call codec)
  rw [returned,Option.some.injEq] at run
  subst run
  exact returns

theorem addInclusionConstraints_concurrent_result_parse_error :
    [Request.one 1 [] none,.many 2 [⟨[8],none⟩,⟨[],none⟩]][1]? = some (.many 2 [⟨[8],none⟩,⟨[],none⟩]) ∧
    (World.run firstByteCodec ⟨slotOneCache,[Request.one 1 [] none,.many 2 [⟨[8],none⟩,⟨[],none⟩]].map
      Request.call⟩ [1,0,1,0,1,1,1]).calls[1]? = some (.returned (.error "typed transaction too short")) ∧
    .error "typed transaction too short" =
      (decodeAll firstByteCodec (Request.many 2 [⟨[8],none⟩,⟨[],none⟩]).constraints).2 :=
  have made : [Request.one 1 [] none,.many 2 [⟨[8],none⟩,⟨[],none⟩]][1]? =
      some (.many 2 [⟨[8],none⟩,⟨[],none⟩]) := rfl
  have returned : (World.run firstByteCodec ⟨slotOneCache,[Request.one 1 [] none,
      .many 2 [⟨[8],none⟩,⟨[],none⟩]].map Request.call⟩ [1,0,1,0,1,1,1]).calls[1]? =
        some (.returned (.error "typed transaction too short")) := rfl
  ⟨made,returned,addInclusionConstraints_concurrent_result firstByteCodec slotOneCache _ _ made returned⟩

/-- No step waits for another call: whatever the interleaving, a call given
`len(constraints) + 4` turns has returned or panicked. -/
theorem addInclusionConstraints_concurrent_finishes (c : ConstraintCache Hash) (requests : List Request)
    (schedule : List Nat) {i : Nat} {request : Request} (made : requests[i]? = some request)
    (turns : request.constraints.length + 4 ≤ schedule.count i) :
    (World.run codec ⟨c,requests.map Request.call⟩ schedule).calls[i]? = some .panicked ∨
      ∃ result, (World.run codec ⟨c,requests.map Request.call⟩ schedule).calls[i]? = some (.returned result) := by
  have start : (requests.map Request.call : List (Call Hash))[i]? = some request.call := by
    rw [List.getElem?_map,made]; rfl
  obtain ⟨call,run,spent⟩ := World.budget_run codec ⟨c,_⟩ schedule start
  have budget : (request.call : Call Hash).budget ≤ request.constraints.length + 4 := request.budget_call
  rcases Call.budget_eq_zero.mp (by omega : call.budget = 0) with rfl | ⟨result,rfl⟩
  · exact .inl run
  · exact .inr ⟨result,run⟩

theorem addInclusionConstraints_concurrent_finishes_six_turns :
    [Request.one 1 [] none,.many 2 [⟨[8],none⟩,⟨[],none⟩]][1]? = some (.many 2 [⟨[8],none⟩,⟨[],none⟩]) ∧
    (Request.many 2 [⟨[8],none⟩,⟨[],none⟩]).constraints.length + 4 ≤ [1,0,1,0,1,1,1,1].count 1 ∧
    ((World.run firstByteCodec ⟨slotOneCache,[Request.one 1 [] none,.many 2 [⟨[8],none⟩,⟨[],none⟩]].map
      Request.call⟩ [1,0,1,0,1,1,1,1]).calls[1]? = some .panicked ∨
      ∃ result, (World.run firstByteCodec ⟨slotOneCache,[Request.one 1 [] none,
        .many 2 [⟨[8],none⟩,⟨[],none⟩]].map Request.call⟩ [1,0,1,0,1,1,1,1]).calls[1]? = some (.returned result)) :=
  have made : [Request.one 1 [] none,.many 2 [⟨[8],none⟩,⟨[],none⟩]][1]? =
      some (.many 2 [⟨[8],none⟩,⟨[],none⟩]) := rfl
  have turns : (Request.many 2 [⟨[8],none⟩,⟨[],none⟩]).constraints.length + 4 ≤ [1,0,1,0,1,1,1,1].count 1 := by
    decide
  ⟨made,turns,addInclusionConstraints_concurrent_finishes firstByteCodec slotOneCache _ _ made turns⟩

section Placed
variable {slots : List UInt64}

omit [DecidableEq Hash] in
/-- Where a call stands against the cached slots: up to its `Add` it is on its request's slot,
and from its second `Get` on, that slot is cached. -/
def Call.Placed (cached : List UInt64) (request : Request) : Call Hash → Prop
  | .checkOne slot _ _ | .addOne slot _ _ | .checkMany slot _ | .addMany slot _ => slot = request.slot
  | .getOne .. | .getMany .. | .storeOne .. | .storeMany .. | .returned _ => request.slot ∈ cached
  | .panicked => True

omit [DecidableEq Hash] in
theorem Call.Placed.mono {cached cached' : List UInt64} {request : Request} {call : Call Hash}
    (placed : call.Placed cached request) (kept : ∀ slot ∈ cached, slot ∈ cached') : call.Placed cached' request := by
  cases call <;> first | exact kept _ placed | exact placed

theorem Call.step_placed {c : ConstraintCache Hash} (roomy : Roomy slots c) {request : Request}
    (inside : request.slot ∈ slots) {call : Call Hash} (placed : call.Placed c.constraints.keys request) :
    (call.step codec c).2.Placed (call.step codec c).1.constraints.keys request := by
  have fetched : ∀ {slot : UInt64} {next : Call Hash}, next.Placed c.constraints.keys request →
      next.Placed (c.lruGet slot).2.constraints.keys request := fun placed => placed.mono (by simp)
  cases call with
  | checkOne slot tx index | checkMany slot constraints =>
    subst placed
    simp only [Call.step]
    rw [ConstraintCache.lruGet_eq]
    cases found : c.constraints.lookup request.slot with
    | none => rfl
    | some m => exact fetched (Lru.Cache.mem_keys_of_lookup found)
  | addOne slot tx index | addMany slot constraints =>
    subst placed
    exact (roomy.addEmpty inside).2.2
  | getOne slot tx index =>
    simp only [Call.step]
    cases codec.unmarshalBinary tx with
    | error err => exact placed
    | ok parsedTx =>
      rw [ConstraintCache.lruGet_eq]
      exact fetched placed
  | getMany slot constraints =>
    simp only [Call.step]
    rw [ConstraintCache.lruGet_eq]
    exact fetched placed
  | storeOne m hash constraint =>
    cases m with
    | none => trivial
    | some ref => exact placed
  | storeMany m constraints =>
    cases constraints with
    | nil => exact placed
    | cons constraint constraints =>
      simp only [Call.step]
      cases codec.unmarshalBinary constraint.tx with
      | error err => exact placed
      | ok parsedTx =>
        cases m with
        | none => trivial
        | some ref => exact placed
  | returned result | panicked => exact placed

structure World.Placed (slots : List UInt64) (requests : List Request) (w : World Hash) : Prop where
  safe : w.Safe slots
  length : w.calls.length = requests.length
  placed : ∀ (i : Nat) (request : Request) (call : Call Hash), requests[i]? = some request →
    w.calls[i]? = some call → call.Placed w.cache.constraints.keys request

theorem World.Placed.step {requests : List Request} (inside : ∀ request ∈ requests, request.slot ∈ slots)
    {w : World Hash} (placed : w.Placed slots requests) (i : Nat) : (World.step codec w i).Placed slots requests := by
  obtain ⟨safe,kept⟩ := placed.safe.step codec i
  refine ⟨safe,by rw [World.length_step,placed.length],fun j request call made taken => ?_⟩
  have bound : j < w.calls.length := placed.length ▸ (List.getElem?_eq_some_iff.mp made).1
  rw [World.step_calls codec w i (List.getElem?_eq_getElem bound),Option.some.injEq] at taken
  subst taken
  split_ifs with same
  · subst same
    rw [World.step_of_getElem? codec (List.getElem?_eq_getElem bound)]
    exact Call.step_placed codec placed.safe.roomy (inside _ (List.getElem?_mem made))
      (placed.placed i request _ made (List.getElem?_eq_getElem bound))
  · exact (placed.placed j request _ made (List.getElem?_eq_getElem bound)).mono kept

theorem World.Placed.run {requests : List Request} (inside : ∀ request ∈ requests, request.slot ∈ slots)
    {w : World Hash} (placed : w.Placed slots requests) (schedule : List Nat) :
    (World.run codec w schedule).Placed slots requests := by
  induction schedule generalizing w with
  | nil => exact placed
  | cons i schedule ih => exact ih (placed.step codec inside i)

end Placed

/-- While the cache has room for every slot in play, in every interleaving, a call that has
returned leaves its slot cached: `Get(slot)` finds a map for it. -/
theorem addInclusionConstraints_concurrent_returned_cached (c : ConstraintCache Hash) (requests : List Request)
    (room : (c.constraints.keys ++ requests.map Request.slot).dedup.length ≤ c.constraints.size)
    (schedule : List Nat) {i : Nat} {request : Request} {result : Except String Unit}
    (made : requests[i]? = some request)
    (returned : (World.run codec ⟨c,requests.map Request.call⟩ schedule).calls[i]? = some (.returned result)) :
    ((World.run codec ⟨c,requests.map Request.call⟩ schedule).cache.get request.slot).1.isSome := by
  have inside : ∀ request ∈ requests, request.slot ∈ (c.constraints.keys ++ requests.map Request.slot).dedup :=
    fun _ member => List.mem_dedup.mpr (List.mem_append_right _ (List.mem_map_of_mem _ member))
  have start : World.Placed (c.constraints.keys ++ requests.map Request.slot).dedup requests
      ⟨c,requests.map Request.call⟩ := by
    refine ⟨World.Safe.start c requests room,List.length_map _ _,fun j other call made' taken => ?_⟩
    rw [List.getElem?_map,made',Option.map_some',Option.some.injEq] at taken
    subst call
    cases other <;> rfl
  have cached := (start.run codec inside schedule).placed i request _ made returned
  simpa [Option.isSome_iff_ne_none,← Lru.Cache.mem_keys_iff_lookup] using cached

theorem addInclusionConstraints_concurrent_returned_cached_race :
    (slotOneCache.constraints.keys ++ [Request.one 2 [7] none,.one 2 [8] none].map Request.slot).dedup.length ≤
      slotOneCache.constraints.size ∧
    (World.run firstByteCodec ⟨slotOneCache,[Request.one 2 [7] none,.one 2 [8] none].map Request.call⟩
      [0,1,0,1,0,1,0,1]).calls[0]? = some (.returned (.ok ())) ∧
    ((World.run firstByteCodec ⟨slotOneCache,[Request.one 2 [7] none,.one 2 [8] none].map Request.call⟩
      [0,1,0,1,0,1,0,1]).cache.get (Request.one 2 [7] none).slot).1.isSome :=
  have made : [Request.one 2 [7] none,.one 2 [8] none][0]? = some (Request.one 2 [7] none) := rfl
  have returned : (World.run firstByteCodec ⟨slotOneCache,[Request.one 2 [7] none,.one 2 [8] none].map
      Request.call⟩ [0,1,0,1,0,1,0,1]).calls[0]? = some (.returned (.ok ())) := rfl
  ⟨by decide,returned,addInclusionConstraints_concurrent_returned_cached firstByteCodec slotOneCache _ (by decide)
    _ made returned⟩

end Bolt.Server
