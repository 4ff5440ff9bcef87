import Bolt.Server.Concurrent
import Bolt.Server.Slots

/-! Any number of add calls in flight on one cache, in every interleaving of their atomic
steps. Evictions are the only source of nil-map writes: while the cache has room for every
slot in play, no slot leaves it, and no call writes into a nil map, whatever the order of
steps. -/
namespace Bolt.Server

/-- An add call as it is made, before its first step. -/
inductive Request
  | one (slot : UInt64) (tx : Transaction) (index : Option UInt64)
  | many (slot : UInt64) (constraints : List Constraint)

namespace Request

def slot : Request → UInt64
  | .one slot _ _ => slot
  | .many slot _ => slot

def constraints : Request → List Constraint
  | .one _ tx index => [⟨tx,index⟩]
  | .many _ constraints => constraints

def call {Hash : Type} : Request → Call Hash
  | .one slot tx index => .checkOne slot tx index
  | .many slot constraints => .checkMany slot constraints

end Request

variable {Tx Hash : Type} [DecidableEq Hash] (codec : Codec Tx Hash)

/-- What a call relies on at each of its points while the cache has room for every slot in
`slots`: its slot is one of `slots` until it is added, cached from then until its second
`Get`, and that `Get` found a map. -/
def Call.Safe (slots cached : List UInt64) : Call Hash → Prop
  | .checkOne slot _ _ | .addOne slot _ _ | .checkMany slot _ | .addMany slot _ => slot ∈ slots
  | .getOne slot _ _ | .getMany slot _ => slot ∈ cached
  | .storeOne m _ _ | .storeMany m _ => m.isSome
  | .returned _ => True
  | .panicked => False

omit [DecidableEq Hash] in
theorem Call.Safe.mono {slots cached cached' : List UInt64} {call : Call Hash}
    (safe : call.Safe slots cached) (kept : ∀ slot ∈ cached, slot ∈ cached') :
    call.Safe slots cached' := by
  cases call <;> first | exact kept _ safe | exact safe

section Room
variable {slots : List UInt64}

/-- A cache whose slots lie in `slots` and that has room for all of them. -/
structure Roomy (slots : List UInt64) (c : ConstraintCache Hash) : Prop where
  room : slots.length ≤ c.constraints.size
  covered : ∀ slot ∈ c.constraints.keys, slot ∈ slots

omit [DecidableEq Hash] in
theorem Roomy.lruGet {c : ConstraintCache Hash} (roomy : Roomy slots c) (slot : UInt64) :
    Roomy slots (c.lruGet slot).2 :=
  ⟨by simpa using roomy.room,by simpa using roomy.covered⟩

omit [DecidableEq Hash] in
theorem Roomy.lookup_addEmpty {c : ConstraintCache Hash} (roomy : Roomy slots c) {slot : UInt64}
    (inside : slot ∈ slots) (other : UInt64) :
    (c.addEmpty slot).constraints.lookup other =
      if other = slot then some c.heap.next else c.constraints.lookup other :=
  Lru.Cache.lookup_add_of_room roomy.room roomy.covered inside _ other

omit [DecidableEq Hash] in
theorem Roomy.addEmpty {c : ConstraintCache Hash} (roomy : Roomy slots c) {slot : UInt64}
    (inside : slot ∈ slots) :
    Roomy slots (c.addEmpty slot) ∧
      (∀ other ∈ c.constraints.keys, other ∈ (c.addEmpty slot).constraints.keys) ∧
      slot ∈ (c.addEmpty slot).constraints.keys := by
  have grown : ∀ other, other ∈ (c.addEmpty slot).constraints.keys ↔
      other = slot ∨ other ∈ c.constraints.keys := fun other => by
    rw [Lru.Cache.mem_keys_iff_lookup,Lru.Cache.mem_keys_iff_lookup,roomy.lookup_addEmpty inside]
    split_ifs with same <;> simp [same]
  refine ⟨⟨by simpa [ConstraintCache.addEmpty] using roomy.room,fun other member => ?_⟩,
    fun other member => (grown other).mpr (.inr member),(grown _).mpr (.inl rfl)⟩
  rcases (grown other).mp member with rfl | old
  · exact inside
  · exact roomy.covered other old

theorem Call.step_safe {c : ConstraintCache Hash} (roomy : Roomy slots c) {call : Call Hash}
    (safe : call.Safe slots c.constraints.keys) :
    Roomy slots (call.step codec c).1 ∧
      (∀ slot ∈ c.constraints.keys, slot ∈ (call.step codec c).1.constraints.keys) ∧
      (call.step codec c).2.Safe slots (call.step codec c).1.constraints.keys := by
  have same : ∀ {c' : ConstraintCache Hash} {next : Call Hash}, c'.constraints = c.constraints →
      next.Safe slots c.constraints.keys → Roomy slots c' ∧
        (∀ slot ∈ c.constraints.keys, slot ∈ c'.constraints.keys) ∧ next.Safe slots c'.constraints.keys :=
    fun kept next => by
      obtain ⟨room,covered⟩ := roomy
      rw [← kept] at room covered next
      exact ⟨⟨room,covered⟩,fun _ => by rw [kept]; exact id,next⟩
  have fetched : ∀ {slot : UInt64} {next : Call Hash}, next.Safe slots c.constraints.keys →
      Roomy slots (c.lruGet slot).2 ∧
        (∀ other ∈ c.constraints.keys, other ∈ (c.lruGet slot).2.constraints.keys) ∧
        next.Safe slots (c.lruGet slot).2.constraints.keys := fun next =>
    ⟨roomy.lruGet _,by simp,next.mono (by simp)⟩
  cases call with
  | checkOne slot tx index | checkMany slot constraints =>
    simp only [Call.step]
    cases found : c.constraints.lookup slot
    all_goals
      simp only [ConstraintCache.lruGet,found,Lru.Cache.get_fst] at fetched ⊢
    · exact fetched safe
    · exact fetched (by simp [Call.Safe,Lru.Cache.mem_keys_iff_lookup,found])
  | addOne slot tx index | addMany slot constraints => exact roomy.addEmpty safe
  | getOne slot tx index =>
    simp only [Call.step]
    cases codec.unmarshalBinary tx with
    | error err => exact same rfl trivial
    | ok parsedTx =>
      have found : (c.lruGet slot).1.isSome := by
        simpa [Option.isSome_iff_ne_none,← Lru.Cache.mem_keys_iff_lookup] using safe
      exact fetched found
  | getMany slot constraints =>
    have found : (c.lruGet slot).1.isSome := by
      simpa [Option.isSome_iff_ne_none,← Lru.Cache.mem_keys_iff_lookup] using safe
    exact fetched found
  | storeOne m hash constraint =>
    obtain ⟨m,rfl⟩ := Option.isSome_iff_exists.mp safe
    exact same rfl trivial
  | storeMany m constraints =>
    obtain ⟨m,rfl⟩ := Option.isSome_iff_exists.mp safe
    cases constraints with
    | nil => exact same rfl trivial
    | cons constraint constraints =>
      simp only [Call.step]
      cases codec.unmarshalBinary constraint.tx with
      | error err => exact same rfl trivial
      | ok parsedTx => exact same rfl rfl
  | returned result => exact same rfl trivial
  | panicked => exact absurd safe id

structure World.Safe (slots : List UInt64) (w : World Hash) : Prop where
  roomy : Roomy slots w.cache
  calls : ∀ call ∈ w.calls, call.Safe slots w.cache.constraints.keys

theorem World.Safe.step {w : World Hash} (safe : w.Safe slots) (i : Nat) :
    (World.step codec w i).Safe slots ∧
      ∀ slot ∈ w.cache.constraints.keys, slot ∈ (World.step codec w i).cache.constraints.keys := by
  unfold World.step
  cases taken : w.calls[i]? with
  | none => exact ⟨safe,fun _ => id⟩
  | some call =>
    obtain ⟨roomy,kept,next⟩ :=
      Call.step_safe codec safe.roomy (safe.calls call (List.getElem?_mem taken))
    refine ⟨⟨roomy,fun other member => ?_⟩,kept⟩
    rcases List.mem_or_eq_of_mem_set member with old | rfl
    · exact (safe.calls other old).mono kept
    · exact next

theorem World.Safe.run {w : World Hash} (safe : w.Safe slots) (schedule : List Nat) :
    (World.run codec w schedule).Safe slots ∧
      ∀ slot ∈ w.cache.constraints.keys, slot ∈ (World.run codec w schedule).cache.constraints.keys := by
  induction schedule generalizing w with
  | nil => exact ⟨safe,fun _ => id⟩
  | cons i schedule ih =>
    obtain ⟨safe',kept⟩ := safe.step codec i
    obtain ⟨safe'',kept'⟩ := ih safe'
    exact ⟨safe'',fun slot member => kept' slot (kept slot member)⟩

omit [DecidableEq Hash] in
theorem World.Safe.start (c : ConstraintCache Hash) (requests : List Request)
    (room : (c.constraints.keys ++ requests.map Request.slot).dedup.length ≤ c.constraints.size) :
    World.Safe (c.constraints.keys ++ requests.map Request.slot).dedup ⟨c,requests.map Request.call⟩ := by
  refine ⟨⟨room,fun slot member => List.mem_dedup.mpr (List.mem_append_left _ member)⟩,?_⟩
  simp only [List.mem_map]
  rintro _ ⟨request,member,rfl⟩
  have inside : request.slot ∈ (c.constraints.keys ++ requests.map Request.slot).dedup :=
    List.mem_dedup.mpr (List.mem_append_right _ (List.mem_map_of_mem _ member))
  cases request <;> exact inside

end Room

/-- While the cache has room for all the slots in play, the ones it holds and the ones the
calls are made for, no interleaving of any number of add calls writes into a nil map, and no
cached slot is evicted. -/
theorem addInclusionConstraints_concurrent_no_panic (c : ConstraintCache Hash) (requests : List Request)
    (room : (c.constraints.keys ++ requests.map Request.slot).dedup.length ≤ c.constraints.size)
    (schedule : List Nat) :
    Call.panicked ∉ (World.run codec ⟨c,requests.map Request.call⟩ schedule).calls ∧
      ∀ slot ∈ c.constraints.keys,
        slot ∈ (World.run codec ⟨c,requests.map Request.call⟩ schedule).cache.constraints.keys := by
  obtain ⟨safe,kept⟩ := (World.Safe.start c requests room).run codec schedule
  exact ⟨fun panicked => safe.calls _ panicked,kept⟩

/-- A cache with room for two slots, holding slot 1 under map 0. -/
def slotOneCache : ConstraintCache UInt8 :=
  ⟨⟨2,[(1,0)],by decide,by decide,by decide⟩,⟨fun _ _ => none,1⟩⟩

theorem slotOneCache_separated : slotOneCache.Separated := by
  have only : ∀ slot m, slotOneCache.constraints.lookup slot = some m → slot = 1 ∧ m = 0 :=
    fun slot m found => by
      simp only [slotOneCache,Lru.Cache.lookup,Lru.Cache.lookup_cons,List.lookup_nil] at found
      split_ifs at found with one
      exact ⟨one,(Option.some.inj found).symm⟩
  exact ⟨fun slot m found => by rw [(only slot m found).2]; decide,
    fun slot other m found found' => (only slot m found).1.trans (only other m found').1.symm⟩

theorem addInclusionConstraints_concurrent_no_panic_two_slots :
    (slotOneCache.constraints.keys ++
      [Request.one 1 [7] none,.many 2 [⟨[8],none⟩,⟨[],none⟩]].map Request.slot).dedup.length ≤
        slotOneCache.constraints.size ∧
    Call.panicked ∉ (World.run firstByteCodec ⟨slotOneCache,
      [Request.one 1 [7] none,.many 2 [⟨[8],none⟩,⟨[],none⟩]].map Request.call⟩
        [1,0,1,1,0,1,0,1,0]).calls ∧
    ∀ slot ∈ slotOneCache.constraints.keys, slot ∈ (World.run firstByteCodec ⟨slotOneCache,
      [Request.one 1 [7] none,.many 2 [⟨[8],none⟩,⟨[],none⟩]].map Request.call⟩
        [1,0,1,1,0,1,0,1,0]).cache.constraints.keys :=
  ⟨by decide,addInclusionConstraints_concurrent_no_panic firstByteCodec slotOneCache _ (by decide) _⟩

end Bolt.Server
