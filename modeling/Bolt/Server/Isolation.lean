import Bolt.Server.Interleavings

/-! Which calls write into which map, in every interleaving. `make` returns a map no slot
holds, and a reference never moves to another slot, so each map has the slot it was made for;
a call writes only into the map its second `Get` returned, one made for the call's slot. Two
calls that write into one map are therefore calls on one slot: calls on distinct slots never
write into one Go map, so only calls on one slot can race on a map. A ghost list of the slot
each map was made for, which only grows, carries the argument. -/
namespace Bolt.Server

variable {Tx Hash : Type} (codec : Codec Tx Hash)

/-- The map that the next step of a call writes into, if it writes one. -/
def Call.writesInto : Call Hash → Option Nat
  | .storeOne m _ _ => m
  | .storeMany m (constraint :: _) =>
    match codec.unmarshalBinary constraint.tx with
    | .ok _ => m
    | .error _ => none
  | _ => none

/-- The slot each map was made for: one entry per map made, and every cached slot holds a map
made for it. -/
structure Owners (owners : List UInt64) (c : ConstraintCache Hash) : Prop where
  length : owners.length = c.heap.next
  owned : ∀ slot m, c.constraints.lookup slot = some m → owners[m]? = some slot

/-- What the call of `request` holds: its slot until its second `Get`, then the map that `Get`
returned, made for that slot. -/
def Holds (owners : List UInt64) (request : Request) : Call Hash → Prop
  | .checkOne slot _ _ | .addOne slot _ _ | .getOne slot _ _ | .checkMany slot _ | .addMany slot _
  | .getMany slot _ => slot = request.slot
  | .storeOne m _ _ | .storeMany m _ => ∀ ref ∈ m, owners[ref]? = some request.slot
  | .returned _ | .panicked => True

def origins (c : ConstraintCache Hash) : List UInt64 :=
  (List.range c.heap.next).map fun m =>
    (c.constraints.keys.find? fun slot => c.constraints.lookup slot = some m).getD 0

theorem getElem?_append_of_eq_some {owners : List UInt64} {m : Nat} {slot : UInt64}
    (found : owners[m]? = some slot) (extra : List UInt64) : (owners ++ extra)[m]? = some slot := by
  rw [List.getElem?_append_left (List.getElem?_eq_some_iff.mp found).1,found]

section Owners
variable {owners : List UInt64} {c : ConstraintCache Hash}

theorem Owners.start (separated : c.Separated) : Owners (origins c) c := by
  refine ⟨by simp [origins],fun slot m found => ?_⟩
  obtain ⟨holder,first⟩ : ∃ holder,
      c.constraints.keys.find? (fun slot => c.constraints.lookup slot = some m) = some holder := by
    refine Option.ne_none_iff_exists'.mp fun missing => ?_
    exact List.find?_eq_none.mp missing slot (Lru.Cache.mem_keys_of_lookup found) (by simpa using found)
  have held : c.constraints.lookup holder = some m := by simpa using List.find?_some first
  rw [origins,List.getElem?_map,List.getElem?_range (separated.made _ _ found),Option.map_some',first,
    Option.getD_some,separated.unshared _ _ _ held found]

theorem Owners.lruGet (recorded : Owners owners c) (slot : UInt64) : Owners owners (c.lruGet slot).2 :=
  ⟨recorded.length,fun other m found => recorded.owned other m (by simpa using found)⟩

theorem Owners.addEmpty (recorded : Owners owners c) (slot : UInt64) :
    Owners (owners ++ [slot]) (c.addEmpty slot) := by
  refine ⟨by simp [ConstraintCache.addEmpty,Heap.make,recorded.length],fun other m found => ?_⟩
  rcases Lru.Cache.lookup_add_eq_some found with ⟨rfl,rfl⟩ | ⟨-,old⟩
  · rw [← recorded.length]
    exact List.getElem?_concat_length _ _
  · exact getElem?_append_of_eq_some (recorded.owned other m old) _

theorem Owners.write [DecidableEq Hash] (recorded : Owners owners c) (m : Nat) (hash : Hash)
    (constraint : Constraint) : Owners owners { c with heap := c.heap.write m hash constraint } :=
  ⟨recorded.length,recorded.owned⟩

theorem Holds.append {request : Request} {call : Call Hash} (holds : Holds owners request call)
    (extra : List UInt64) : Holds (owners ++ extra) request call := by
  cases call <;> first | exact holds | exact fun ref held => getElem?_append_of_eq_some (holds ref held) extra

theorem Holds.writesInto {request : Request} {call : Call Hash} (holds : Holds owners request call) {m : Nat}
    (written : call.writesInto codec = some m) : owners[m]? = some request.slot := by
  cases call with
  | storeOne ref hash constraint => exact holds m written
  | storeMany ref constraints =>
    rcases constraints with _ | ⟨constraint,constraints⟩
    · cases written
    · simp only [Call.writesInto] at written
      split at written
      · exact holds m written
      · cases written
  | _ => cases written

end Owners

variable [DecidableEq Hash]

/-- What one step does to the cache: an lru `Get`, an `Add` with a new map, one write into
the map `writesInto` names, or nothing. -/
theorem Call.step_cache (c : ConstraintCache Hash) (call : Call Hash) :
    (∃ slot, (call.step codec c).1 = (c.lruGet slot).2) ∨ (∃ slot, (call.step codec c).1 = c.addEmpty slot) ∨
      (∃ m hash constraint, call.writesInto codec = some m ∧
        (call.step codec c).1 = { c with heap := c.heap.write m hash constraint }) ∨
      (call.step codec c).1 = c := by
  cases call with
  | checkOne slot tx index | checkMany slot constraints =>
    refine .inl ⟨slot,?_⟩
    simp only [Call.step]
    rw [ConstraintCache.lruGet_eq]
    cases c.constraints.lookup slot <;> rfl
  | addOne slot tx index | addMany slot constraints => exact .inr (.inl ⟨slot,rfl⟩)
  | getOne slot tx index =>
    simp only [Call.step]
    cases codec.unmarshalBinary tx with
    | error err => exact .inr (.inr (.inr rfl))
    | ok parsedTx => exact .inl ⟨slot,rfl⟩
  | getMany slot constraints => exact .inl ⟨slot,rfl⟩
  | storeOne m hash constraint =>
    cases m with
    | none => exact .inr (.inr (.inr rfl))
    | some m => exact .inr (.inr (.inl ⟨m,hash,constraint,rfl,rfl⟩))
  | storeMany m constraints =>
    rcases constraints with _ | ⟨constraint,constraints⟩
    · exact .inr (.inr (.inr rfl))
    simp only [Call.step,Call.writesInto]
    cases codec.unmarshalBinary constraint.tx with
    | error err => exact .inr (.inr (.inr rfl))
    | ok parsedTx =>
      cases m with
      | none => exact .inr (.inr (.inr rfl))
      | some m => exact .inr (.inr (.inl ⟨m,_,constraint,rfl,rfl⟩))
  | returned result | panicked => exact .inr (.inr (.inr rfl))

theorem Call.step_next (c : ConstraintCache Hash) (call : Call Hash) :
    c.heap.next ≤ (call.step codec c).1.heap.next := by
  rcases Call.step_cache codec c call with ⟨slot,same⟩ | ⟨slot,same⟩ | ⟨m,hash,constraint,-,same⟩ | same <;>
    rw [same]
  · simp
  · exact Nat.le_succ _
  · simp

theorem Call.step_maps (c : ConstraintCache Hash) (call : Call Hash) {m : Nat} (made : m < c.heap.next)
    (unwritten : call.writesInto codec ≠ some m) : (call.step codec c).1.heap.maps m = c.heap.maps m := by
  rcases Call.step_cache codec c call with ⟨slot,same⟩ | ⟨slot,same⟩ | ⟨m',hash,constraint,written,same⟩ | same <;>
    rw [same]
  · simp
  · exact Function.update_noteq (Nat.ne_of_lt made) _ _
  · exact Function.update_noteq (fun (equal : m = m') => unwritten (equal ▸ written)) _ _

theorem Call.step_owners {owners : List UInt64} {c : ConstraintCache Hash} (recorded : Owners owners c)
    (call : Call Hash) : ∃ extra, Owners (owners ++ extra) (call.step codec c).1 := by
  rcases Call.step_cache codec c call with ⟨slot,same⟩ | ⟨slot,same⟩ | ⟨m,hash,constraint,-,same⟩ | same <;>
    rw [same]
  · exact ⟨[],by simpa using recorded.lruGet slot⟩
  · exact ⟨[slot],recorded.addEmpty slot⟩
  · exact ⟨[],by simpa using recorded.write m hash constraint⟩
  · exact ⟨[],by simpa using recorded⟩

theorem Call.step_holds {owners : List UInt64} {c : ConstraintCache Hash} (recorded : Owners owners c)
    {request : Request} {call : Call Hash} (holds : Holds owners request call) :
    Holds owners request (call.step codec c).2 := by
  have fetched : ∀ {slot : UInt64}, slot = request.slot → ∀ ref ∈ (c.lruGet slot).1,
      owners[ref]? = some request.slot := fun same ref found =>
    same ▸ recorded.owned _ ref (by simpa using found)
  cases call with
  | checkOne slot tx index | checkMany slot constraints =>
    simp only [Call.step]
    rw [ConstraintCache.lruGet_eq]
    cases c.constraints.lookup slot <;> exact holds
  | addOne slot tx index | addMany slot constraints => exact holds
  | getOne slot tx index =>
    simp only [Call.step]
    cases codec.unmarshalBinary tx with
    | error err => trivial
    | ok parsedTx => exact fetched holds
  | getMany slot constraints => exact fetched holds
  | storeOne m hash constraint => cases m <;> trivial
  | storeMany m constraints =>
    rcases constraints with _ | ⟨constraint,constraints⟩
    · trivial
    simp only [Call.step]
    cases codec.unmarshalBinary constraint.tx with
    | error err => trivial
    | ok parsedTx => cases m with
      | none => trivial
      | some m => exact holds
  | returned result | panicked => trivial

/-- The map writes of an interleaving, in order: the call that wrote, and the map. -/
def World.writes (w : World Hash) : List Nat → List (Nat × Nat)
  | [] => []
  | i :: schedule => ((w.calls[i]?.bind (Call.writesInto codec)).map fun m => (i,m)).toList ++
      World.writes (World.step codec w i) schedule

theorem World.run_maps (w : World Hash) (schedule : List Nat) {m : Nat} (made : m < w.cache.heap.next)
    (unwritten : ∀ i, (i,m) ∉ World.writes codec w schedule) :
    (World.run codec w schedule).cache.heap.maps m = w.cache.heap.maps m := by
  induction schedule generalizing w with
  | nil => rfl
  | cons i schedule ih =>
    have later : ∀ j, (j,m) ∉ World.writes codec (World.step codec w i) schedule :=
      fun j written => unwritten j (List.mem_append_right _ written)
    cases taken : w.calls[i]? with
    | none =>
      rw [World.step_of_getElem?_none codec taken] at later
      rw [World.run_cons,World.step_of_getElem?_none codec taken]
      exact ih w made later
    | some call =>
      have own : call.writesInto codec ≠ some m := fun written =>
        unwritten i (List.mem_append_left _ (by simp [taken,written]))
      rw [World.step_of_getElem? codec taken] at later
      rw [World.run_cons,World.step_of_getElem? codec taken,
        ih _ (made.trans_le (Call.step_next codec w.cache call)) later]
      exact Call.step_maps codec w.cache call made own

structure World.Owned (requests : List Request) (owners : List UInt64) (w : World Hash) : Prop where
  recorded : Owners owners w.cache
  length : w.calls.length = requests.length
  holds : ∀ (i : Nat) (request : Request) (call : Call Hash), requests[i]? = some request →
    w.calls[i]? = some call → Holds owners request call

section Owned
variable {requests : List Request}

theorem World.Owned.step {owners : List UInt64} {w : World Hash} (owned : w.Owned requests owners) (i : Nat) :
    ∃ extra, (World.step codec w i).Owned requests (owners ++ extra) ∧
      ∀ request m, requests[i]? = some request → w.calls[i]?.bind (Call.writesInto codec) = some m →
        owners[m]? = some request.slot := by
  cases taken : w.calls[i]? with
  | none =>
    rw [World.step_of_getElem?_none codec taken]
    exact ⟨[],by simpa using owned,fun _ _ _ written => by cases written⟩
  | some call =>
    obtain ⟨extra,recorded⟩ := Call.step_owners codec owned.recorded call
    refine ⟨extra,⟨by rw [World.step_of_getElem? codec taken]; exact recorded,
      by rw [World.length_step,owned.length],fun j request call' made taken' => ?_⟩,
      fun request m made written => (owned.holds i request call made taken).writesInto codec written⟩
    obtain ⟨before,current,rfl⟩ := World.getElem?_step codec taken'
    split_ifs with same
    · subst same
      rw [taken,Option.some.injEq] at current
      subst current
      exact (Call.step_holds codec owned.recorded (owned.holds i request _ made taken)).append extra
    · exact (owned.holds j request _ made current).append extra

theorem World.Owned.run {owners : List UInt64} {w : World Hash} (owned : w.Owned requests owners)
    (schedule : List Nat) :
    ∃ extra, (World.run codec w schedule).Owned requests (owners ++ extra) ∧
      ∀ i m request, (i,m) ∈ World.writes codec w schedule → requests[i]? = some request →
        (owners ++ extra)[m]? = some request.slot := by
  induction schedule generalizing w owners with
  | nil => exact ⟨[],by simpa using owned,fun _ _ _ written => by cases written⟩
  | cons i schedule ih =>
    obtain ⟨extra,stepped,wrote⟩ := owned.step codec i
    obtain ⟨extra',ran,wrote'⟩ := ih stepped
    refine ⟨extra ++ extra',by simpa using ran,fun j m request written made => ?_⟩
    rcases List.mem_append.mp written with now | later
    · obtain ⟨m',bound,same⟩ := Option.mem_toList.mp now |> Option.map_eq_some'.mp
      cases same
      simpa using getElem?_append_of_eq_some (wrote request m made bound) (extra ++ extra')
    · simpa using wrote' j m request later made

end Owned

/-- In every interleaving of add calls from a cache whose slots do not share maps: a map made
before it changes only through the writes it records, and two calls that write into one map
are calls on one slot. Calls on distinct slots never write into one map. -/
theorem addInclusionConstraints_concurrent_map_writers (c : ConstraintCache Hash) (separated : c.Separated)
    (requests : List Request) (schedule : List Nat) :
    (∀ m < c.heap.next, (∀ i, (i,m) ∉ World.writes codec ⟨c,requests.map Request.call⟩ schedule) →
      (World.run codec ⟨c,requests.map Request.call⟩ schedule).cache.heap.maps m = c.heap.maps m) ∧
    ∀ i j m first second, (i,m) ∈ World.writes codec ⟨c,requests.map Request.call⟩ schedule →
      (j,m) ∈ World.writes codec ⟨c,requests.map Request.call⟩ schedule →
      requests[i]? = some first → requests[j]? = some second → first.slot = second.slot := by
  have start : World.Owned requests (origins c) ⟨c,requests.map Request.call⟩ := by
    refine ⟨.start separated,List.length_map _ _,fun j request call made taken => ?_⟩
    rw [List.getElem?_map,made,Option.map_some',Option.some.injEq] at taken
    subst call
    cases request <;> rfl
  obtain ⟨extra,-,wrote⟩ := start.run codec schedule
  exact ⟨fun m made => World.run_maps codec _ schedule made,fun i j m first second writtenI writtenJ madeI madeJ =>
    Option.some.inj ((wrote i m first writtenI madeI).symm.trans (wrote j m second writtenJ madeJ))⟩

theorem addInclusionConstraints_concurrent_map_writers_one_slot :
    slotOneCache.Separated ∧
    World.writes firstByteCodec ⟨slotOneCache,[Request.one 1 [7] none,.many 1 [⟨[8],none⟩],
      .one 2 [9] none].map Request.call⟩ [0,1,2,0,1,2,0,1,2,0,1,2] = [(0,0),(1,0),(2,1)] ∧
    (∀ m < slotOneCache.heap.next, (∀ i, (i,m) ∉ World.writes firstByteCodec ⟨slotOneCache,
      [Request.one 1 [7] none,.many 1 [⟨[8],none⟩],.one 2 [9] none].map Request.call⟩
        [0,1,2,0,1,2,0,1,2,0,1,2]) →
      (World.run firstByteCodec ⟨slotOneCache,[Request.one 1 [7] none,.many 1 [⟨[8],none⟩],
        .one 2 [9] none].map Request.call⟩ [0,1,2,0,1,2,0,1,2,0,1,2]).cache.heap.maps m =
          slotOneCache.heap.maps m) ∧
    ∀ i j m first second,
      (i,m) ∈ World.writes firstByteCodec ⟨slotOneCache,[Request.one 1 [7] none,.many 1 [⟨[8],none⟩],
        .one 2 [9] none].map Request.call⟩ [0,1,2,0,1,2,0,1,2,0,1,2] →
      (j,m) ∈ World.writes firstByteCodec ⟨slotOneCache,[Request.one 1 [7] none,.many 1 [⟨[8],none⟩],
        .one 2 [9] none].map Request.call⟩ [0,1,2,0,1,2,0,1,2,0,1,2] →
      [Request.one 1 [7] none,.many 1 [⟨[8],none⟩],.one 2 [9] none][i]? = some first →
      [Request.one 1 [7] none,.many 1 [⟨[8],none⟩],.one 2 [9] none][j]? = some second →
      first.slot = second.slot :=
  ⟨slotOneCache_separated,rfl,addInclusionConstraints_concurrent_map_writers firstByteCodec slotOneCache
    slotOneCache_separated _ _⟩

end Bolt.Server
