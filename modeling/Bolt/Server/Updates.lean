import Bolt.Server.Interleavings

/-! Add calls in flight on distinct slots lose no update. While the cache has room for every
slot in play, no slot leaves it; with one call per slot, a call's `Add` makes a map for a slot
no other call is on, and each call writes only into its own slot's map, which no other call
writes. In every interleaving, a call that has returned has left its slot's map as it would
alone: the map the slot had at the start, or an empty one, with the call's decoded writes in
order. Calls on one slot are left out, since their writes into one Go map race. -/
namespace Bolt.Server

variable {Tx Hash : Type} [DecidableEq Hash] (codec : Codec Tx Hash)

namespace Request

def adding {Hash : Type} : Request → Call Hash
  | .one slot tx index => .addOne slot tx index
  | .many slot constraints => .addMany slot constraints

def fetching {Hash : Type} : Request → Call Hash
  | .one slot tx index => .getOne slot tx index
  | .many slot constraints => .getMany slot constraints

theorem step_call (request : Request) (c : ConstraintCache Hash) :
    (request.call : Call Hash).step codec c = ((c.lruGet request.slot).2,
      if c.constraints.lookup request.slot = none then request.adding else request.fetching) := by
  rcases request with ⟨slot,tx,index⟩ | ⟨slot,constraints⟩ <;> cases found : c.constraints.lookup slot <;>
    simp [call,Request.slot,adding,fetching,Call.step,ConstraintCache.lruGet_of_lookup_none,
      ConstraintCache.lruGet_of_lookup_some,found]

theorem step_adding (request : Request) (c : ConstraintCache Hash) :
    (request.adding : Call Hash).step codec c = (c.addEmpty request.slot,request.fetching) := by
  cases request <;> rfl

theorem slot_ne_of_nodup {requests : List Request} (distinct : (requests.map Request.slot).Nodup)
    {i j : Nat} (apart : i ≠ j) {first second : Request} (madeI : requests[i]? = some first)
    (madeJ : requests[j]? = some second) : first.slot ≠ second.slot := fun same =>
  apart (List.getElem?_inj (by simpa using (List.getElem?_eq_some_iff.mp madeI).1) distinct
    (by simp [List.getElem?_map,madeI,madeJ,same]))

end Request

omit [DecidableEq Hash] in
/-- The store phase of a call, writing through the reference its slot has in `c`: a single
add has decoded its transaction; a batch has the constraints `done` behind it, all decoded. -/
def Storing (c : ConstraintCache Hash) : Request → Call Hash → List Constraint → Prop
  | .one slot tx index, call, done => ∃ m parsedTx, c.constraints.lookup slot = some m ∧
    codec.unmarshalBinary tx = .ok parsedTx ∧ call = .storeOne (some m) (codec.hash parsedTx) ⟨tx,index⟩ ∧
    done = []
  | .many slot constraints, call, done => ∃ m rest, c.constraints.lookup slot = some m ∧
    call = .storeMany (some m) rest ∧ constraints = done ++ rest ∧ (decodeAll codec done).2 = .ok ()

omit [DecidableEq Hash] in
/-- Where the call of a request stands on the cache `c`, with the constraints `done` it has
processed. A call reaches its `Add` only for a slot `c₀` does not hold; from its second `Get`
on, its slot is cached, and it writes through the reference the slot has in `c`. -/
def Phase (c₀ c : ConstraintCache Hash) (request : Request) (call : Call Hash) (done : List Constraint) : Prop :=
  (call = request.call ∧ done = []) ∨
  (call = request.adding ∧ request.slot ∉ c₀.constraints.keys ∧ done = []) ∨
  (call = request.fetching ∧ c.constraints.lookup request.slot ≠ none ∧ done = []) ∨
  Storing codec c request call done ∨
  (∃ result, call = .returned result ∧ c.constraints.lookup request.slot ≠ none ∧ done = request.constraints)

/-- The map `slot` has in `c` is the map it had in `c₀`, or an empty one, with the writes of
`done`. -/
def Contents (c₀ c : ConstraintCache Hash) (slot : UInt64) (done : List Constraint) : Prop :=
  ∀ m, c.constraints.lookup slot = some m →
    c.heap.maps m = insertAll ((c₀.get slot).1.getD fun _ => none) (decodeAll codec done).1

def Progress (c₀ c : ConstraintCache Hash) (request : Request) (call : Call Hash) : Prop :=
  ∃ done, Phase codec c₀ c request call done ∧ Contents codec c₀ c request.slot done

structure Steady (slots : List UInt64) (c₀ c : ConstraintCache Hash) : Prop where
  separated : c.Separated
  roomy : Roomy slots c
  grown : ∀ slot ∈ c₀.constraints.keys, slot ∈ c.constraints.keys

structure World.Tracks (slots : List UInt64) (requests : List Request) (c₀ : ConstraintCache Hash)
    (w : World Hash) : Prop where
  steady : Steady slots c₀ w.cache
  length : w.calls.length = requests.length
  progress : ∀ (i : Nat) (request : Request) (call : Call Hash), requests[i]? = some request →
    w.calls[i]? = some call → Progress codec c₀ w.cache request call

section Frames
variable {c₀ c c' : ConstraintCache Hash} {slots : List UInt64}

omit [DecidableEq Hash] in
theorem Storing.of_lookup {request : Request} {call : Call Hash} {done : List Constraint}
    (same : c'.constraints.lookup request.slot = c.constraints.lookup request.slot)
    (storing : Storing codec c request call done) : Storing codec c' request call done := by
  cases request <;> simp only [Request.slot] at same <;> simpa only [Storing,same] using storing

omit [DecidableEq Hash] in
theorem Phase.of_lookup {request : Request} {call : Call Hash} {done : List Constraint}
    (same : c'.constraints.lookup request.slot = c.constraints.lookup request.slot)
    (phase : Phase codec c₀ c request call done) : Phase codec c₀ c' request call done := by
  unfold Phase at phase ⊢
  rw [same]
  exact phase.imp_right (Or.imp_right (Or.imp_right (Or.imp_left (Storing.of_lookup codec same))))

theorem Contents.of_lookup {slot : UInt64} {done : List Constraint} (contents : Contents codec c₀ c slot done)
    (same : c'.constraints.lookup slot = c.constraints.lookup slot)
    (maps : ∀ m, c.constraints.lookup slot = some m → c'.heap.maps m = c.heap.maps m) :
    Contents codec c₀ c' slot done := fun m ref => by
  rw [same] at ref
  rw [maps m ref,contents m ref]

theorem Contents.write {slot : UInt64} {done done' : List Constraint} (contents : Contents codec c₀ c slot done)
    {m : Nat} (ref : c.constraints.lookup slot = some m) {hash : Hash} {constraint : Constraint}
    (decoded : (decodeAll codec done').1 = (decodeAll codec done).1 ++ [(hash,constraint)]) :
    Contents codec c₀ { c with heap := c.heap.write m hash constraint } slot done' := fun m' ref' => by
  obtain rfl : m' = m := Option.some.inj (ref'.symm.trans ref)
  simp [decoded,insertAll_append,contents _ ref,insertAll]

theorem Contents.lruGet {slot : UInt64} {done : List Constraint} (contents : Contents codec c₀ c slot done)
    (other : UInt64) : Contents codec c₀ (c.lruGet other).2 slot done :=
  contents.of_lookup codec (by simp) fun _ _ => rfl

theorem Progress.of_lookup {request : Request} {call : Call Hash} (progress : Progress codec c₀ c request call)
    (same : c'.constraints.lookup request.slot = c.constraints.lookup request.slot)
    (maps : ∀ m, c.constraints.lookup request.slot = some m → c'.heap.maps m = c.heap.maps m) :
    Progress codec c₀ c' request call :=
  let ⟨done,phase,contents⟩ := progress
  ⟨done,phase.of_lookup codec same,contents.of_lookup codec same maps⟩

theorem Progress.storing {request : Request} {call : Call Hash} {done : List Constraint}
    (storing : Storing codec c request call done) (contents : Contents codec c₀ c request.slot done) :
    Progress codec c₀ c request call :=
  ⟨done,.inr (.inr (.inr (.inl storing))),contents⟩

theorem Progress.returned {request : Request} (cached : c.constraints.lookup request.slot ≠ none)
    (contents : Contents codec c₀ c request.slot request.constraints) (result : Except String Unit) :
    Progress codec c₀ c request (.returned result) :=
  ⟨_,.inr (.inr (.inr (.inr ⟨result,rfl,cached,rfl⟩))),contents⟩

theorem Progress.write (separated : c.Separated) {other : Request} {call : Call Hash}
    (progress : Progress codec c₀ c other call) {slot : UInt64} (apart : other.slot ≠ slot) {m : Nat}
    (ref : c.constraints.lookup slot = some m) (hash : Hash) (constraint : Constraint) :
    Progress codec c₀ { c with heap := c.heap.write m hash constraint } other call :=
  progress.of_lookup codec rfl fun m' ref' => Function.update_noteq
    (fun same : m' = m => apart (separated.unshared _ _ _ ref' (same ▸ ref))) _ _

omit [DecidableEq Hash] in
theorem Steady.lruGet (steady : Steady slots c₀ c) (slot : UInt64) : Steady slots c₀ (c.lruGet slot).2 :=
  ⟨steady.separated.lruGet slot,steady.roomy.lruGet slot,
    fun other member => by simpa using steady.grown other member⟩

theorem Progress.lruGet {other : Request} {call : Call Hash} (progress : Progress codec c₀ c other call)
    (slot : UInt64) : Progress codec c₀ (c.lruGet slot).2 other call :=
  progress.of_lookup codec (by simp) fun _ _ => rfl

theorem Steady.write (steady : Steady slots c₀ c) (m : Nat) (hash : Hash) (constraint : Constraint) :
    Steady slots c₀ { c with heap := c.heap.write m hash constraint } :=
  ⟨steady.separated.of_eq rfl rfl,⟨steady.roomy.room,steady.roomy.covered⟩,steady.grown⟩

omit [DecidableEq Hash] in
theorem Steady.addEmpty (steady : Steady slots c₀ c) {slot : UInt64} (inside : slot ∈ slots) :
    Steady slots c₀ (c.addEmpty slot) ∧ slot ∈ (c.addEmpty slot).constraints.keys :=
  let ⟨roomy,grown,cached⟩ := steady.roomy.addEmpty inside
  ⟨⟨steady.separated.addEmpty _,roomy,fun other member => grown other (steady.grown other member)⟩,cached⟩

theorem Progress.addEmpty (steady : Steady slots c₀ c) {slot : UInt64} (inside : slot ∈ slots)
    {other : Request} {call : Call Hash} (apart : other.slot ≠ slot)
    (progress : Progress codec c₀ c other call) : Progress codec c₀ (c.addEmpty slot) other call :=
  progress.of_lookup codec (by rw [steady.roomy.lookup_addEmpty inside,if_neg apart])
    fun _ ref => Function.update_noteq (Nat.ne_of_lt (steady.separated.made _ _ ref)) _ _

end Frames

section Step
variable {requests : List Request} {c₀ : ConstraintCache Hash} {slots : List UInt64}

/-- One step of the call of a request: the cache stays steady, the call keeps its progress,
and so does every call on another slot. -/
theorem Call.step_progress {c c' : ConstraintCache Hash} (steady : Steady slots c₀ c)
    {request : Request} (inside : request.slot ∈ slots) {call next : Call Hash}
    (progress : Progress codec c₀ c request call) (step : call.step codec c = (c',next)) :
    Steady slots c₀ c' ∧ Progress codec c₀ c' request next ∧
      ∀ other call', other.slot ≠ request.slot →
        Progress codec c₀ c other call' → Progress codec c₀ c' other call' := by
  obtain ⟨done,phase,contents⟩ := progress
  rcases phase with ⟨rfl,rfl⟩ | ⟨rfl,fresh,rfl⟩ | ⟨rfl,cached,rfl⟩ | storing | ⟨result,rfl,cached,rfl⟩
  · rw [Request.step_call] at step
    cases step
    refine ⟨steady.lruGet _,⟨[],?_,contents.lruGet codec _⟩,fun _ _ _ progress => progress.lruGet codec _⟩
    split_ifs with missing
    · exact .inr (.inl ⟨rfl,fun member => Lru.Cache.mem_keys_iff_lookup.mp (steady.grown _ member) missing,rfl⟩)
    · exact .inr (.inr (.inl ⟨rfl,by simpa using missing,rfl⟩))
  · rw [Request.step_adding] at step
    cases step
    obtain ⟨steady',cached⟩ := steady.addEmpty inside
    have absent : c₀.constraints.lookup request.slot = none := (c₀.constraints.lookup_eq_none_iff _).mpr fresh
    refine ⟨steady',⟨[],.inr (.inr (.inl ⟨rfl,Lru.Cache.mem_keys_iff_lookup.mp cached,rfl⟩)),fun m ref => ?_⟩,
      fun _ _ apart progress => progress.addEmpty codec steady inside apart⟩
    rw [steady.roomy.lookup_addEmpty inside,if_pos rfl,Option.some.injEq] at ref
    subst ref
    simp [ConstraintCache.addEmpty,Heap.make,absent,insertAll,decodeAll]
  · cases request with
    | one slot tx index =>
      obtain ⟨m,found⟩ : ∃ m, c.constraints.lookup slot = some m := Option.ne_none_iff_exists'.mp cached
      cases parsed : codec.unmarshalBinary tx with
      | error err =>
        simp only [Request.fetching,Call.step,parsed] at step
        cases step
        exact ⟨steady,.returned codec cached (by simpa [Contents,Request.constraints,decodeAll,parsed] using contents) _,
          fun _ _ _ => id⟩
      | ok parsedTx =>
        simp only [Request.fetching,Call.step,parsed] at step
        rw [ConstraintCache.lruGet_eq,found] at step
        cases step
        exact ⟨steady.lruGet slot,.storing codec ⟨m,parsedTx,by simpa using found,parsed,rfl,rfl⟩
          (contents.lruGet codec slot),fun _ _ _ progress => progress.lruGet codec slot⟩
    | many slot constraints =>
      obtain ⟨m,found⟩ : ∃ m, c.constraints.lookup slot = some m := Option.ne_none_iff_exists'.mp cached
      simp only [Request.fetching,Call.step] at step
      rw [ConstraintCache.lruGet_eq,found] at step
      cases step
      exact ⟨steady.lruGet slot,.storing codec
        (⟨m,constraints,by simpa using found,rfl,rfl,rfl⟩ : Storing codec _ (.many slot constraints) _ [])
        (contents.lruGet codec slot),fun _ _ _ progress => progress.lruGet codec slot⟩
  · cases request with
    | one slot tx index =>
      obtain ⟨m,parsedTx,ref,parsed,rfl,rfl⟩ := storing
      simp only [Call.step,ConstraintCache.store_some] at step
      cases step
      exact ⟨steady.write _ _ _,.returned codec (by simp [Request.slot,ref])
        (contents.write codec ref (by simp [Request.constraints,decodeAll,parsed])) _,
        fun _ _ apart progress => progress.write codec steady.separated apart ref _ _⟩
    | many slot constraints =>
      obtain ⟨m,rest,ref,rfl,rfl,decoded⟩ := storing
      have cached : c.constraints.lookup (Request.many slot (done ++ rest)).slot ≠ none := by simp [Request.slot,ref]
      cases rest with
      | nil =>
        cases step
        exact ⟨steady,.returned codec cached (by simpa [Request.constraints] using contents) _,fun _ _ _ => id⟩
      | cons constraint rest =>
        cases parsed : codec.unmarshalBinary constraint.tx with
        | error err =>
          simp only [Call.step,parsed] at step
          cases step
          refine ⟨steady,.returned codec cached ?_ _,fun _ _ _ => id⟩
          simpa [Contents,Request.constraints,decodeAll_append codec decoded,decodeAll,parsed] using contents
        | ok parsedTx =>
          simp only [Call.step,parsed,ConstraintCache.store_some] at step
          cases step
          have decoded' : decodeAll codec (done ++ [constraint]) =
              ((decodeAll codec done).1 ++ [(codec.hash parsedTx,constraint)],.ok ()) := by
            simp [decodeAll_append codec decoded,decodeAll,parsed]
          exact ⟨steady.write _ _ _,.storing codec (⟨m,rest,ref,rfl,by simp,by rw [decoded']⟩ :
              Storing codec _ (.many slot (done ++ constraint :: rest)) _ (done ++ [constraint]))
            (contents.write codec ref (by rw [decoded'])),
            fun _ _ apart progress => progress.write codec steady.separated apart ref _ _⟩
  · cases step
    exact ⟨steady,.returned codec cached contents result,fun _ _ _ => id⟩

theorem World.Tracks.step (distinct : (requests.map Request.slot).Nodup)
    (inside : ∀ request ∈ requests, request.slot ∈ slots) {w : World Hash}
    (tracks : w.Tracks codec slots requests c₀) (i : Nat) :
    (World.step codec w i).Tracks codec slots requests c₀ := by
  cases taken : w.calls[i]? with
  | none => rwa [World.step_of_getElem?_none codec taken]
  | some call =>
    have bound : i < requests.length := tracks.length ▸ (List.getElem?_eq_some_iff.mp taken).1
    have made : requests[i]? = some requests[i] := List.getElem?_eq_getElem bound
    obtain ⟨steady,progress,others⟩ := Call.step_progress codec tracks.steady (inside _ (List.getElem_mem bound))
      (tracks.progress i _ call made taken) rfl
    refine ⟨by rw [World.step_of_getElem? codec taken]; exact steady,by rw [World.length_step,tracks.length],
      fun j request call' made' taken' => ?_⟩
    obtain ⟨before,current,rfl⟩ := World.getElem?_step codec taken'
    rw [World.step_of_getElem? codec taken]
    split_ifs with same
    · subst same
      rw [made,Option.some.injEq] at made'
      rw [taken,Option.some.injEq] at current
      subst made' current
      exact progress
    · exact others _ _ (Request.slot_ne_of_nodup distinct (Ne.symm same) made' made)
        (tracks.progress j request _ made' current)

theorem World.Tracks.run (distinct : (requests.map Request.slot).Nodup)
    (inside : ∀ request ∈ requests, request.slot ∈ slots) {w : World Hash}
    (tracks : w.Tracks codec slots requests c₀) (schedule : List Nat) :
    (World.run codec w schedule).Tracks codec slots requests c₀ := by
  induction schedule generalizing w with
  | nil => exact tracks
  | cons i schedule ih => exact ih (tracks.step codec distinct inside i)

end Step

/-- Add calls, single or batch, on distinct slots, in any interleaving, on a cache with room
for every slot in play: a call that has returned has left in `Get(slot)` the map the slot had
at the start, or an empty one, with the call's decoded writes in order. -/
theorem addInclusionConstraints_concurrent_distinct_slots (c : ConstraintCache Hash) (separated : c.Separated)
    (requests : List Request)
    (room : (c.constraints.keys ++ requests.map Request.slot).dedup.length ≤ c.constraints.size)
    (distinct : (requests.map Request.slot).Nodup) (schedule : List Nat) {i : Nat} {request : Request}
    {result : Except String Unit} (made : requests[i]? = some request)
    (returned : (World.run codec ⟨c,requests.map Request.call⟩ schedule).calls[i]? = some (.returned result)) :
    ((World.run codec ⟨c,requests.map Request.call⟩ schedule).cache.get request.slot).1 =
      some (insertAll ((c.get request.slot).1.getD fun _ => none) (decodeAll codec request.constraints).1) := by
  have inside : ∀ request ∈ requests, request.slot ∈ (c.constraints.keys ++ requests.map Request.slot).dedup :=
    fun other member => List.mem_dedup.mpr (List.mem_append_right _ (List.mem_map_of_mem _ member))
  have start : World.Tracks codec (c.constraints.keys ++ requests.map Request.slot).dedup requests c
      ⟨c,requests.map Request.call⟩ := by
    refine ⟨⟨separated,⟨room,fun slot member => List.mem_dedup.mpr (List.mem_append_left _ member)⟩,
      fun _ => id⟩,List.length_map _ _,fun j other call made' taken => ?_⟩
    rw [List.getElem?_map,made',Option.map_some',Option.some.injEq] at taken
    subst call
    exact ⟨[],.inl ⟨rfl,rfl⟩,fun m ref => by simp [ref,insertAll,decodeAll]⟩
  obtain ⟨done,phase,contents⟩ := (start.run codec distinct inside schedule).progress i request _ made returned
  obtain ⟨cached,finished⟩ : (World.run codec ⟨c,requests.map Request.call⟩ schedule).cache.constraints.lookup
      request.slot ≠ none ∧ done = request.constraints := by
    cases request <;> simpa [Phase,Storing,Request.call,Request.adding,Request.fetching] using phase
  obtain ⟨m,ref⟩ := Option.ne_none_iff_exists'.mp cached
  rw [ConstraintCache.get_fst,ConstraintCache.view_lookup,ref,Option.map_some',contents m ref,finished]

theorem addInclusionConstraints_concurrent_distinct_slots_first_byte :
    slotOneCache.Separated ∧
    (slotOneCache.constraints.keys ++ [Request.one 1 [7] none,.many 2 [⟨[8],none⟩,⟨[9],none⟩]].map
      Request.slot).dedup.length ≤ slotOneCache.constraints.size ∧
    ([Request.one 1 [7] none,.many 2 [⟨[8],none⟩,⟨[9],none⟩]].map Request.slot).Nodup ∧
    [Request.one 1 [7] none,.many 2 [⟨[8],none⟩,⟨[9],none⟩]][1]? = some (.many 2 [⟨[8],none⟩,⟨[9],none⟩]) ∧
    (World.run firstByteCodec ⟨slotOneCache,[Request.one 1 [7] none,.many 2 [⟨[8],none⟩,⟨[9],none⟩]].map
      Request.call⟩ [1,0,1,0,1,0,1,1,1]).calls[1]? = some (.returned (.ok ())) ∧
    ((World.run firstByteCodec ⟨slotOneCache,[Request.one 1 [7] none,.many 2 [⟨[8],none⟩,⟨[9],none⟩]].map
      Request.call⟩ [1,0,1,0,1,0,1,1,1]).cache.get (Request.many 2 [⟨[8],none⟩,⟨[9],none⟩]).slot).1 =
      some (insertAll ((slotOneCache.get (Request.many 2 [⟨[8],none⟩,⟨[9],none⟩]).slot).1.getD fun _ => none)
        (decodeAll firstByteCodec (Request.many 2 [⟨[8],none⟩,⟨[9],none⟩]).constraints).1) :=
  have made : [Request.one 1 [7] none,.many 2 [⟨[8],none⟩,⟨[9],none⟩]][1]? =
      some (.many 2 [⟨[8],none⟩,⟨[9],none⟩]) := rfl
  have returned : (World.run firstByteCodec ⟨slotOneCache,[Request.one 1 [7] none,
      .many 2 [⟨[8],none⟩,⟨[9],none⟩]].map Request.call⟩ [1,0,1,0,1,0,1,1,1]).calls[1]? =
        some (.returned (.ok ())) := rfl
  ⟨slotOneCache_separated,by decide,by decide,made,returned,
    addInclusionConstraints_concurrent_distinct_slots firstByteCodec slotOneCache slotOneCache_separated _
      (by decide) (by decide) _ made returned⟩

end Bolt.Server
