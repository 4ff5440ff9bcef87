import Bolt.Server.Runs

/-! One add call on a reachable cache, and what `Get` and `FindTransactionByHash` return
after it. `FindTransactionByHash` scans oldest first, so it answers with the entry of the
least recently used slot that holds the hash, which need not be the one just added. A
failed parse returns its error only after the call has made `slot` cached. -/
namespace Bolt.Server

namespace ConstraintCache
variable {Tx Hash : Type} [DecidableEq Hash]

omit [DecidableEq Hash] in
/-- `FindTransactionByHash` returns the entry of the least recently used slot holding the
hash. -/
theorem findTransactionByHash_eq_some_iff (c : ConstraintCache Hash) (txHash : Hash)
    (constraint : Constraint) :
    c.findTransactionByHash txHash = some constraint ↔
      ∃ before slot m after, c.constraints.entries = before ++ (slot,m) :: after ∧
        c.heap.maps m txHash = some constraint ∧ ∀ entry ∈ before, c.heap.maps entry.2 txHash = none := by
  simp only [findTransactionByHash,Lru.Cache.values,List.map_map,List.findSome?_map,
    List.findSome?_eq_some_iff,Function.comp_def]
  constructor
  · rintro ⟨before,⟨slot,m⟩,after,split,found,older⟩
    exact ⟨before,slot,m,after,split,found,older⟩
  · rintro ⟨before,slot,m,after,split,found,older⟩
    exact ⟨before,(slot,m),after,split,found,older⟩

omit [DecidableEq Hash] in
theorem findTransactionByHash_isSome {c : ConstraintCache Hash} (txHash : Hash) {slot : UInt64}
    {m : HashToConstraint Hash} (held : (c.get slot).1 = some m) (found : (m txHash).isSome) :
    (c.findTransactionByHash txHash).isSome := by
  rw [get_fst,view_lookup,Option.map_eq_some'] at held
  obtain ⟨ref,stored,rfl⟩ := held
  have member : (slot,ref) ∈ c.constraints.entries := (c.constraints.mem_entries_iff _ _).mpr stored
  simp only [findTransactionByHash,Lru.Cache.values,List.findSome?_isSome_iff]
  exact ⟨c.heap.maps ref,List.mem_map_of_mem _ (List.mem_map_of_mem _ member),found⟩

end ConstraintCache

variable {Tx Hash : Type} [DecidableEq Hash] (codec : Codec Tx Hash) {c : ConstraintCache Hash}

/-- After an add whose transaction decodes, `Get(slot)` maps its hash to the new constraint,
and `FindTransactionByHash` returns the entry of the oldest slot holding that hash: the new
constraint whenever no other cached slot holds the hash. -/
theorem addInclusionConstraint_get_find (reachable : Reachable codec c) (slot : UInt64)
    (index : Option UInt64) {tx : Transaction} {parsedTx : Tx}
    (decodes : codec.unmarshalBinary tx = .ok parsedTx) :
    ∃ c', c.addInclusionConstraint codec slot tx index = some (c',.ok ()) ∧
      ((c'.get slot).1.bind fun m => m (codec.hash parsedTx)) = some ⟨tx,index⟩ ∧
      (∃ before other m after constraint,
        c'.constraints.entries = before ++ (other,m) :: after ∧
        c'.heap.maps m (codec.hash parsedTx) = some constraint ∧
        (∀ entry ∈ before, c'.heap.maps entry.2 (codec.hash parsedTx) = none) ∧
        c'.findTransactionByHash (codec.hash parsedTx) = some constraint) ∧
      ((∀ other m, other ≠ slot → (c'.get other).1 = some m → m (codec.hash parsedTx) = none) →
        c'.findTransactionByHash (codec.hash parsedTx) = some ⟨tx,index⟩) := by
  obtain ⟨c',call,view',-⟩ :=
    c.addInclusionConstraint_refines codec (reachable.separated codec) slot tx index
  have written : (c'.get slot).1 = some (insertAll ((c.view.lookup slot).getD fun _ => none)
      [(codec.hash parsedTx,⟨tx,index⟩)]) := by
    rw [ConstraintCache.get_fst,view',Store.lookup_write,if_pos rfl]
    simp [decodeAll,decodes]
  have holds : ((c'.get slot).1.bind fun m => m (codec.hash parsedTx)) = some ⟨tx,index⟩ := by
    rw [written]
    simp [insertAll]
  obtain ⟨constraint,found⟩ := Option.isSome_iff_exists.mp
    (ConstraintCache.findTransactionByHash_isSome (codec.hash parsedTx) written (by simp [insertAll]))
  obtain ⟨before,other,m,after,split,stored,older⟩ :=
    (c'.findTransactionByHash_eq_some_iff _ constraint).mp found
  refine ⟨c',by simpa [Store.write,decodeAll,decodes] using call,holds,
    ⟨before,other,m,after,constraint,split,stored,older,found⟩,fun alone => ?_⟩
  have cached : c'.constraints.lookup other = some m :=
    (c'.constraints.mem_entries_iff _ _).mp (split ▸ List.mem_append_right _ (List.mem_cons_self _ _))
  by_cases same : other = slot
  · subst other
    rw [found]
    simpa [cached,stored] using holds
  · cases (alone other _ same (by simp [cached])).symm.trans stored

/-- With room for two slots, the same transaction added at slot 1 with index 0 and then at
slot 2 with no index: `Get(2)` has the new constraint, `FindTransactionByHash` the old one. -/
theorem findTransactionByHash_prefers_older_slot :
    ((newConstraintCache 2).bind fun c =>
      (c.addInclusionConstraint firstByteCodec 1 [7] (some 0)).bind fun first =>
        (first.1.addInclusionConstraint firstByteCodec 2 [7] none).map fun second =>
          (second.2,(second.1.get 2).1.bind (· 7),second.1.findTransactionByHash 7)) =
      some (.ok (),some ⟨[7],none⟩,some ⟨[7],some 0⟩) :=
  rfl

theorem addInclusionConstraint_get_find_first_byte :
    Reachable firstByteCodec (sevenCache 2 (by decide)) ∧ firstByteCodec.unmarshalBinary [7] = .ok 7 ∧
    ∃ c', (sevenCache 2 (by decide)).addInclusionConstraint firstByteCodec 2 [7] none = some (c',.ok ()) ∧
      ((c'.get 2).1.bind fun m => m (firstByteCodec.hash 7)) = some ⟨[7],none⟩ ∧
      (∃ before other m after constraint,
        c'.constraints.entries = before ++ (other,m) :: after ∧
        c'.heap.maps m (firstByteCodec.hash 7) = some constraint ∧
        (∀ entry ∈ before, c'.heap.maps entry.2 (firstByteCodec.hash 7) = none) ∧
        c'.findTransactionByHash (firstByteCodec.hash 7) = some constraint) ∧
      ((∀ other m, other ≠ 2 → (c'.get other).1 = some m → m (firstByteCodec.hash 7) = none) →
        c'.findTransactionByHash (firstByteCodec.hash 7) = some ⟨[7],none⟩) :=
  ⟨sevenCache_reachable.2,rfl,addInclusionConstraint_get_find firstByteCodec sevenCache_reachable.2 2 none rfl⟩

/-- What an add call does to every slot: `slot` ends up cached with the writes of the
constraints before the first parse failure on top of its map (an empty one if it was not
cached); every other slot keeps its map, except the least recently used one, evicted when
`slot` was not cached and the cache was full. -/
theorem addInclusionConstraints_get (reachable : Reachable codec c) (slot : UInt64)
    (constraints : List Constraint) :
    ∃ c', c.addInclusionConstraints codec slot constraints =
        some (c',(decodeAll codec constraints).2) ∧
      ∀ other, (c'.get other).1 =
        if other = slot then
          some (insertAll (((c.get slot).1).getD fun _ => none) (decodeAll codec constraints).1)
        else if slot ∉ c.constraints.keys ∧ c.constraints.victim = some other then none
        else (c.get other).1 := by
  obtain ⟨c',call,view',-⟩ :=
    c.addInclusionConstraints_refines codec (reachable.separated codec) slot constraints
  refine ⟨c',call,fun other => ?_⟩
  simp only [ConstraintCache.get_fst,view',Store.lookup_write,ConstraintCache.view_keys,
    ConstraintCache.view_victim]

theorem addInclusionConstraints_get_first_byte :
    Reachable firstByteCodec (sevenCache 1 (by decide)) ∧
    ∃ c', (sevenCache 1 (by decide)).addInclusionConstraints firstByteCodec 2 [⟨[8],none⟩,⟨[],none⟩] =
        some (c',(decodeAll firstByteCodec [⟨[8],none⟩,⟨[],none⟩]).2) ∧
      ∀ other, (c'.get other).1 =
        if other = 2 then
          some (insertAll (((sevenCache 1 (by decide)).get 2).1.getD fun _ => none)
            (decodeAll firstByteCodec [⟨[8],none⟩,⟨[],none⟩]).1)
        else if 2 ∉ (sevenCache 1 (by decide)).constraints.keys ∧
          (sevenCache 1 (by decide)).constraints.victim = some other then none
        else ((sevenCache 1 (by decide)).get other).1 :=
  ⟨sevenCache_reachable.1,addInclusionConstraints_get firstByteCodec sevenCache_reachable.1 2 _⟩

/-- With room for one slot, holding slot 1: an add for slot 2 whose bytes do not decode
returns the parse error, and slot 1 is gone with its constraint, an empty slot 2 in its
place. -/
theorem addInclusionConstraint_parse_error_evicts :
    ((newConstraintCache 1).bind fun c =>
      (c.addInclusionConstraint firstByteCodec 1 [7] none).bind fun first =>
        (first.1.addInclusionConstraint firstByteCodec 2 [] none).map fun second =>
          (first.1.constraints.keys,second.2,second.1.constraints.keys,
            (second.1.get 2).1.map (· 7))) =
      some ([1],.error "typed transaction too short",[2],some none) :=
  rfl

end Bolt.Server
