import Bolt.Server.Constraints

/-! The constraint cache read by value: each slot with the map its reference points to.
While no two cached slots share a map (`Separated`), every call on the cache is, through
`view`, one call of the value-level `Store`. -/
namespace Bolt.Server

/-- Each cached slot's map by value, least recently used first. -/
abbrev Store (Hash : Type) := Lru.Cache UInt64 (HashToConstraint Hash)

variable {Tx Hash : Type}

/-- Map assignments in order: the last write for a hash wins. -/
def insertAll [DecidableEq Hash] (m : HashToConstraint Hash) (writes : List (Hash × Constraint)) : HashToConstraint Hash :=
  writes.foldl (fun m write => Function.update m write.1 (some write.2)) m

/-- What an add call writes: each constraint under its transaction's hash, up to the first
transaction that does not decode, and what the call returns. -/
def decodeAll (codec : Codec Tx Hash) : List Constraint → List (Hash × Constraint) × Except String Unit
  | [] => ([],.ok ())
  | constraint :: constraints =>
    match codec.unmarshalBinary constraint.tx with
    | .error err => ([],.error err)
    | .ok parsedTx =>
      ((codec.hash parsedTx,constraint) :: (decodeAll codec constraints).1,(decodeAll codec constraints).2)

theorem insertAll_append [DecidableEq Hash] (m : HashToConstraint Hash) (first rest : List (Hash × Constraint)) :
    insertAll m (first ++ rest) = insertAll (insertAll m first) rest :=
  List.foldl_append _ _ _ _

theorem decodeAll_append (codec : Codec Tx Hash) {done : List Constraint} (decoded : (decodeAll codec done).2 = .ok ())
    (rest : List Constraint) :
    decodeAll codec (done ++ rest) =
      ((decodeAll codec done).1 ++ (decodeAll codec rest).1,(decodeAll codec rest).2) := by
  induction done with
  | nil => rfl
  | cons constraint done ih =>
    cases parsed : codec.unmarshalBinary constraint.tx with
    | error err => simp [decodeAll,parsed] at decoded
    | ok parsedTx =>
      rw [List.cons_append]
      simp only [decodeAll,parsed] at decoded ⊢
      rw [ih decoded]
      rfl

namespace Store

def enter (st : Store Hash) (slot : UInt64) : Store Hash :=
  match st.get slot with
  | (some _,st) => st
  | (none,st) => (st.add slot (fun _ => none)).1

/-- Both add calls: the slot enters the cache, then what decodes is written to its map. -/
def write [DecidableEq Hash] (codec : Codec Tx Hash) (st : Store Hash) (slot : UInt64) (constraints : List Constraint) :
    Store Hash × Except String Unit :=
  ((st.enter slot).modify slot (insertAll · (decodeAll codec constraints).1),
    (decodeAll codec constraints).2)

theorem lookup_enter (st : Store Hash) (slot other : UInt64) :
    (st.enter slot).lookup other =
      if other = slot then some ((st.lookup slot).getD fun _ => none)
      else if slot ∉ st.keys ∧ st.victim = some other then none else st.lookup other := by
  cases found : st.lookup slot with
  | none =>
    have absent := (st.lookup_eq_none_iff slot).mp found
    simp [enter,Lru.Cache.get_of_lookup_none found,Lru.Cache.lookup_add,absent]
  | some m =>
    have present := Lru.Cache.mem_keys_of_lookup found
    rw [enter,Lru.Cache.get_of_lookup_some found]
    simp only [Lru.Cache.lookup_touch,present,not_true_eq_false,false_and,if_false,Option.getD_some]

theorem lookup_write [DecidableEq Hash] (codec : Codec Tx Hash) (st : Store Hash) (slot : UInt64)
    (constraints : List Constraint) (other : UInt64) :
    (st.write codec slot constraints).1.lookup other =
      if other = slot then
        some (insertAll ((st.lookup slot).getD fun _ => none) (decodeAll codec constraints).1)
      else if slot ∉ st.keys ∧ st.victim = some other then none else st.lookup other := by
  simp only [write,Lru.Cache.lookup_modify,lookup_enter]
  split_ifs <;> simp_all

end Store

namespace ConstraintCache

def view (c : ConstraintCache Hash) : Store Hash := c.constraints.map c.heap.maps

/-- Every cached reference was made by the cache, and no two slots share one. -/
structure Separated (c : ConstraintCache Hash) : Prop where
  made : ∀ slot m, c.constraints.lookup slot = some m → m < c.heap.next
  unshared : ∀ slot other m,
    c.constraints.lookup slot = some m → c.constraints.lookup other = some m → slot = other

variable {c : ConstraintCache Hash}

theorem Separated.of_eq {c' : ConstraintCache Hash} (separated : Separated c)
    (constraints : c'.constraints = c.constraints) (next : c'.heap.next = c.heap.next) :
    Separated c' :=
  ⟨by rw [constraints,next]; exact separated.made,by rw [constraints]; exact separated.unshared⟩

@[simp] theorem view_lookup (c : ConstraintCache Hash) (slot : UInt64) :
    c.view.lookup slot = (c.constraints.lookup slot).map c.heap.maps := by
  simp [view]

@[simp] theorem view_keys (c : ConstraintCache Hash) : c.view.keys = c.constraints.keys := by
  simp [view]

@[simp] theorem view_victim (c : ConstraintCache Hash) : c.view.victim = c.constraints.victim := by
  simp [view]

theorem view_lruGet (c : ConstraintCache Hash) (slot : UInt64) :
    (c.lruGet slot).2.view = (c.view.get slot).2 := by
  simp [view,Lru.Cache.get_map]

theorem Separated.lruGet (separated : Separated c) (slot : UInt64) : Separated (c.lruGet slot).2 :=
  ⟨by simpa using separated.made,by simpa using separated.unshared⟩

theorem view_addEmpty (separated : Separated c) (slot : UInt64) :
    (c.addEmpty slot).view = (c.view.add slot (fun _ => none)).1 := by
  have fresh : c.constraints.map (Function.update c.heap.maps c.heap.next (fun _ => none)) = c.view :=
    Lru.Cache.map_congr fun s m found =>
      Function.update_noteq (Nat.ne_of_lt (separated.made s m found)) _ _
  have added := Lru.Cache.add_map (Function.update c.heap.maps c.heap.next (fun _ => none))
    c.constraints slot c.heap.next
  rw [Function.update_same,fresh] at added
  rw [added]
  rfl

theorem Separated.addEmpty (separated : Separated c) (slot : UInt64) : Separated (c.addEmpty slot) := by
  constructor
  · intro s m stored
    rcases Lru.Cache.lookup_add_eq_some stored with ⟨-,rfl⟩ | ⟨-,found⟩
    · exact Nat.lt_succ_self _
    · exact Nat.lt_succ_of_lt (separated.made s m found)
  · intro s other m stored stored'
    rcases Lru.Cache.lookup_add_eq_some stored with ⟨rfl,rfl⟩ | ⟨ne,found⟩ <;>
      rcases Lru.Cache.lookup_add_eq_some stored' with ⟨rfl,equal⟩ | ⟨ne',found'⟩
    · rfl
    · exact absurd (separated.made _ _ found') (Nat.lt_irrefl _)
    · exact absurd (separated.made _ _ found) (by rw [equal]; exact Nat.lt_irrefl _)
    · exact separated.unshared _ _ _ found found'

theorem view_addIfAbsent (separated : Separated c) (slot : UInt64) :
    (c.addIfAbsent slot).view = c.view.enter slot := by
  cases found : c.constraints.lookup slot with
  | none =>
    rw [addIfAbsent_of_lookup_none found,view_addEmpty separated slot,Store.enter,
      Lru.Cache.get_of_lookup_none (by simp [found])]
  | some m =>
    rw [addIfAbsent_of_lookup_some found,view_lruGet,Store.enter,
      Lru.Cache.get_of_lookup_some (by simp [found] : c.view.lookup slot = some (c.heap.maps m))]

theorem Separated.addIfAbsent (separated : Separated c) (slot : UInt64) :
    Separated (c.addIfAbsent slot) := by
  cases found : c.constraints.lookup slot with
  | none => rw [addIfAbsent_of_lookup_none found]; exact separated.addEmpty slot
  | some m => rw [addIfAbsent_of_lookup_some found]; exact separated.lruGet slot

variable [DecidableEq Hash]

theorem view_write (separated : Separated c) {slot : UInt64} {m : Nat} (found : c.constraints.lookup slot = some m)
    (hash : Hash) (constraint : Constraint) :
    ({ c with heap := c.heap.write m hash constraint } : ConstraintCache Hash).view =
      c.view.modify slot (Function.update · hash (some constraint)) :=
  Lru.Cache.map_update c.heap.maps (Function.update · hash (some constraint)) found
    fun _ stored => separated.unshared _ _ _ stored found

theorem storeAll_refines (codec : Codec Tx Hash) (separated : Separated c) {slot : UInt64} {m : Nat}
    (found : c.constraints.lookup slot = some m) (constraints : List Constraint) :
    ∃ c', c.storeAll codec (some m) constraints = some (c',(decodeAll codec constraints).2) ∧
      c'.constraints = c.constraints ∧ c'.heap.next = c.heap.next ∧
      c'.view = c.view.modify slot (insertAll · (decodeAll codec constraints).1) := by
  induction constraints generalizing c with
  | nil => exact ⟨c,rfl,rfl,rfl,by simp [insertAll,decodeAll]⟩
  | cons constraint constraints ih =>
    cases parsed : codec.unmarshalBinary constraint.tx with
    | error err => exact ⟨c,by simp [storeAll,parsed,decodeAll],rfl,rfl,by simp [insertAll,decodeAll,parsed]⟩
    | ok parsedTx =>
      let written : ConstraintCache Hash :=
        { c with heap := c.heap.write m (codec.hash parsedTx) constraint }
      have separated' : Separated written := separated.of_eq rfl rfl
      obtain ⟨c',run,constraints',next',view'⟩ := ih separated' found
      refine ⟨c',by simpa [storeAll,parsed,decodeAll] using run,constraints',next',?_⟩
      rw [view',view_write separated found,Lru.Cache.modify_modify]
      simp [decodeAll,parsed,insertAll,Function.comp_def]

theorem addInclusionConstraints_refines (codec : Codec Tx Hash) (separated : Separated c)
    (slot : UInt64) (constraints : List Constraint) :
    ∃ c', c.addInclusionConstraints codec slot constraints =
        some (c',(c.view.write codec slot constraints).2) ∧
      c'.view = (c.view.write codec slot constraints).1 ∧ Separated c' := by
  obtain ⟨m,last⟩ := c.addIfAbsent_getLast slot
  have found := ((c.addIfAbsent slot).constraints.mem_entries_iff slot m).mp
    (List.mem_of_getLast?_eq_some last)
  obtain ⟨c',run,constraints',next',view'⟩ :=
    storeAll_refines codec (separated.addIfAbsent slot) found constraints
  refine ⟨c',by simp [addInclusionConstraints,lruGet_of_getLast last,run,Store.write],?_,
    (separated.addIfAbsent slot).of_eq constraints' next'⟩
  rw [view',view_addIfAbsent separated slot]
  rfl

theorem addInclusionConstraint_refines (codec : Codec Tx Hash) (separated : Separated c)
    (slot : UInt64) (tx : Transaction) (index : Option UInt64) :
    ∃ c', c.addInclusionConstraint codec slot tx index =
        some (c',(c.view.write codec slot [⟨tx,index⟩]).2) ∧
      c'.view = (c.view.write codec slot [⟨tx,index⟩]).1 ∧ Separated c' := by
  rw [addInclusionConstraint_eq_batch]
  exact addInclusionConstraints_refines codec separated slot _

omit [DecidableEq Hash] in
@[simp] theorem get_fst (c : ConstraintCache Hash) (slot : UInt64) :
    (c.get slot).1 = c.view.lookup slot := by
  simp [get,lruGet]

omit [DecidableEq Hash] in
theorem view_get (c : ConstraintCache Hash) (slot : UInt64) :
    (c.get slot).2.view = (c.view.get slot).2 :=
  view_lruGet c slot

omit [DecidableEq Hash] in
theorem Separated.get (separated : Separated c) (slot : UInt64) : Separated (c.get slot).2 :=
  separated.lruGet slot

end ConstraintCache

end Bolt.Server
