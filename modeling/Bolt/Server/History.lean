import Bolt.Server.Runs

/-! What a slot holds after any run: the writes of the add calls on it since it last entered
the cache, in call order, the last write for a hash winning. Calls on other slots never
change it, and every key is the hash of its own constraint's transaction. -/
namespace Bolt.Server

variable {Tx Hash : Type} [DecidableEq Hash] (codec : Codec Tx Hash)

def Op.writes (s : UInt64) : Op Hash → Option (List (Hash × Constraint))
  | .addInclusionConstraint slot tx index =>
    if slot = s then some (decodeAll codec [⟨tx,index⟩]).1 else none
  | .addInclusionConstraints slot constraints =>
    if slot = s then some (decodeAll codec constraints).1 else none
  | .get _ => none
  | .findTransactionByHash _ => none

/-- The map the history of a run gives slot `s`, starting from `m`: empty again whenever an
add call finds `s` uncached, then the writes of each add call on `s` in call order. -/
def reference (s : UInt64) : ConstraintCache Hash → List (Op Hash) → HashToConstraint Hash →
    HashToConstraint Hash
  | _, [], m => m
  | c, op :: ops, m =>
    let m := match op.writes codec s with
      | some writes => insertAll (if s ∈ c.constraints.keys then m else fun _ => none) writes
      | none => m
    match c.exec codec op with
    | some c => reference s c ops m
    | none => m

/-- Every key of `m` is the hash of its own constraint's transaction. -/
def Keyed (m : HashToConstraint Hash) : Prop :=
  ∀ hash constraint, m hash = some constraint →
    ∃ parsedTx, codec.unmarshalBinary constraint.tx = .ok parsedTx ∧ codec.hash parsedTx = hash

namespace Store
variable {st : Store Hash} {s : UInt64}

theorem lookup_exec_of_writes {op : Op Hash} {writes : List (Hash × Constraint)}
    (adds : op.writes codec s = some writes) :
    (st.exec codec op).lookup s = some (insertAll ((st.lookup s).getD fun _ => none) writes) := by
  cases op with
  | addInclusionConstraint slot | addInclusionConstraints slot =>
    simp only [Op.writes,Option.ite_none_right_eq_some,Option.some.injEq] at adds
    obtain ⟨rfl,rfl⟩ := adds
    simp [exec,lookup_write]
  | get _ | findTransactionByHash _ => cases adds

theorem lookup_of_exec {op : Op Hash} {m : HashToConstraint Hash}
    (other : op.writes codec s = none) (stored : (st.exec codec op).lookup s = some m) :
    st.lookup s = some m := by
  cases op with
  | addInclusionConstraint slot | addInclusionConstraints slot =>
    have different : s ≠ slot := fun same => by simp [Op.writes,same] at other
    rw [exec,lookup_write,if_neg different] at stored
    split_ifs at stored
    exact stored
  | get slot => simpa [exec] using stored
  | findTransactionByHash _ => exact stored

end Store

theorem lookup_run_reference {c c' : ConstraintCache Hash} {s : UInt64} {m : HashToConstraint Hash}
    (separated : c.Separated) (holds : ∀ m', c.view.lookup s = some m' → m' = m)
    {ops : List (Op Hash)} (run : c.run codec ops = some c') :
    ∀ m', c'.view.lookup s = some m' → m' = reference codec s c ops m := by
  induction ops generalizing c m with
  | nil => cases run; exact holds
  | cons op ops ih =>
    obtain ⟨c₁,exec,view₁,separated₁⟩ := exec_refines codec separated op
    have run₁ : c₁.run codec ops = some c' := by simpa [ConstraintCache.run,exec] using run
    simp only [reference,exec]
    refine ih separated₁ (fun m' stored => ?_) run₁
    rw [view₁] at stored
    cases adds : op.writes codec s with
    | none => exact holds m' (Store.lookup_of_exec codec adds stored)
    | some writes =>
      rw [Store.lookup_exec_of_writes codec adds,Option.some.injEq] at stored
      subst m'
      split_ifs with present
      · obtain ⟨m₀,found⟩ := Option.ne_none_iff_exists'.mp
          (mt (c.view.lookup_eq_none_iff s).mp (by simpa using present))
        rw [found,holds m₀ found]
        rfl
      · rw [(c.view.lookup_eq_none_iff s).mpr (by simpa using present)]
        rfl

omit [DecidableEq Hash] in
theorem decodeAll_keyed {constraints : List Constraint} {hash : Hash} {constraint : Constraint}
    (member : (hash,constraint) ∈ (decodeAll codec constraints).1) :
    ∃ parsedTx, codec.unmarshalBinary constraint.tx = .ok parsedTx ∧ codec.hash parsedTx = hash := by
  induction constraints with
  | nil => cases member
  | cons head constraints ih =>
    cases parsed : codec.unmarshalBinary head.tx with
    | error err => simp [decodeAll,parsed] at member
    | ok parsedTx =>
      simp only [decodeAll,parsed,List.mem_cons,Prod.mk.injEq] at member
      rcases member with ⟨rfl,rfl⟩ | member
      · exact ⟨parsedTx,parsed,rfl⟩
      · exact ih member

theorem insertAll_keyed {m : HashToConstraint Hash} (keyed : Keyed codec m)
    {writes : List (Hash × Constraint)}
    (written : ∀ write ∈ writes, ∃ parsedTx, codec.unmarshalBinary write.2.tx = .ok parsedTx ∧
      codec.hash parsedTx = write.1) :
    Keyed codec (insertAll m writes) := by
  induction writes generalizing m with
  | nil => exact keyed
  | cons write writes ih =>
    refine ih (fun hash constraint stored => ?_) (fun w member => written w (.tail _ member))
    dsimp only at stored
    by_cases same : hash = write.1
    · subst hash
      simp only [Function.update_same,Option.some.injEq] at stored
      exact stored ▸ written write (.head _)
    · rw [Function.update_noteq same] at stored
      exact keyed hash constraint stored

omit [DecidableEq Hash] in
theorem Op.writes_keyed {op : Op Hash} {s : UInt64} {writes : List (Hash × Constraint)}
    (adds : op.writes codec s = some writes) :
    ∀ write ∈ writes, ∃ parsedTx, codec.unmarshalBinary write.2.tx = .ok parsedTx ∧
      codec.hash parsedTx = write.1 := by
  intro write member
  cases op <;> simp [Op.writes] at adds <;> exact decodeAll_keyed codec (adds.2 ▸ member)

theorem reference_keyed {s : UInt64} {c : ConstraintCache Hash} {ops : List (Op Hash)}
    {m : HashToConstraint Hash} (keyed : Keyed codec m) : Keyed codec (reference codec s c ops m) := by
  induction ops generalizing c m with
  | nil => exact keyed
  | cons op ops ih =>
    have step : Keyed codec (match op.writes codec s with
        | some writes => insertAll (if s ∈ c.constraints.keys then m else fun _ => none) writes
        | none => m) := by
      cases adds : op.writes codec s with
      | none => exact keyed
      | some writes =>
        refine insertAll_keyed codec ?_ (Op.writes_keyed codec adds)
        split_ifs
        · exact keyed
        · exact fun _ _ stored => by cases stored
    simp only [reference]
    split
    · exact ih step
    · exact step

/-- Every slot a run leaves cached holds the map its history gives it, and every key of that
map is the hash of its constraint's transaction. -/
theorem get_eq_reference {cap : Int} (positive : 0 < cap) (ops : List (Op Hash)) :
    ∃ c₀ c, newConstraintCache cap = some c₀ ∧ c₀.run codec ops = some c ∧
      (∀ s ∈ c.constraints.keys, (c.get s).1.isSome) ∧
      ∀ s m, (c.get s).1 = some m → m = reference codec s c₀ ops (fun _ => none) ∧ Keyed codec m := by
  obtain ⟨c₀,new,empty⟩ := newConstraintCache_of_pos positive
  have separated := ConstraintCache.Separated.of_new new
  obtain ⟨c,run,-,-⟩ := run_refines codec separated ops
  have found : ∀ s ∈ c.constraints.keys, (c.get s).1.isSome := fun s member => by
    simpa [Option.isSome_iff_ne_none] using Lru.Cache.mem_keys_iff_lookup.mp member
  refine ⟨c₀,c,new,run,found,fun s m stored => ?_⟩
  rw [ConstraintCache.get_fst] at stored
  have equal : m = reference codec s c₀ ops (fun _ => none) :=
    lookup_run_reference codec separated
      (fun m' found => by simp [ConstraintCache.view,Lru.Cache.map,Lru.Cache.lookup,empty] at found)
      run m stored
  exact ⟨equal,equal ▸ reference_keyed codec fun _ _ stored => by cases stored⟩

theorem get_eq_reference_one_add :
    (0 : Int) < 1 ∧ ∃ c₀ c, newConstraintCache 1 = some c₀ ∧
      c₀.run firstByteCodec [.addInclusionConstraint 1 [7] none] = some c ∧
      (∀ s ∈ c.constraints.keys, (c.get s).1.isSome) ∧
      ∀ s m, (c.get s).1 = some m →
        m = reference firstByteCodec s c₀ [.addInclusionConstraint 1 [7] none] (fun _ => none) ∧
          Keyed firstByteCodec m :=
  ⟨by decide,get_eq_reference firstByteCodec (by decide) _⟩

end Bolt.Server
