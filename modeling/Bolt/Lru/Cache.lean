import Mathlib.Data.List.Nodup

/-! The `hashicorp/golang-lru/v2` cache that the constraint cache keeps its slots in.
`Get` and `Add` make their key the most recently used one, and `Add` of a new key past
`size` removes the least recently used entry. -/
namespace Bolt.Lru

@[ext] structure Cache (K V : Type) where
  size : Nat
  entries : List (K × V)
  size_pos : 0 < size
  keys_nodup : (entries.map Prod.fst).Nodup
  length_le : entries.length ≤ size

namespace Cache
variable {K V W : Type} [DecidableEq K]

def keys (c : Cache K V) : List K := c.entries.map Prod.fst

def lookup (c : Cache K V) (key : K) : Option V := c.entries.lookup key

def values (c : Cache K V) : List V := c.entries.map Prod.snd

theorem mem_keys_of_lookup {c : Cache K V} {key : K} {value : V}
    (found : c.lookup key = some value) : key ∈ c.keys := by
  obtain ⟨before,after,split,-⟩ := List.lookup_eq_some_iff.mp found
  simp [keys,split]

def touch (c : Cache K V) (key : K) (value : V) (present : key ∈ c.keys) : Cache K V where
  size := c.size
  entries := c.entries.filter (fun entry => entry.1 != key) ++ [(key,value)]
  size_pos := c.size_pos
  keys_nodup := by
    rw [List.map_append,List.map_singleton,← List.concat_eq_append]
    exact List.Nodup.concat (by simp) (c.keys_nodup.sublist ((List.filter_sublist _).map _))
  length_le := by
    obtain ⟨entry,member,same⟩ := List.mem_map.mp present
    have shorter : (c.entries.filter (fun entry => entry.1 != key)).length < c.entries.length :=
      List.length_filter_lt_length_iff_exists.mpr ⟨entry,member,by simp [same]⟩
    simp only [List.length_append,List.length_singleton]
    exact Nat.lt_of_lt_of_le shorter c.length_le

def push (c : Cache K V) (key : K) (value : V) (absent : key ∉ c.keys) : Cache K V where
  size := c.size
  entries :=
    let pushed := c.entries ++ [(key,value)]
    if c.size < pushed.length then pushed.tail else pushed
  size_pos := c.size_pos
  keys_nodup := by
    have pushed : ((c.entries ++ [(key,value)]).map Prod.fst).Nodup := by
      rw [List.map_append,List.map_singleton,← List.concat_eq_append]
      exact List.Nodup.concat absent c.keys_nodup
    dsimp only
    split
    · rw [List.map_tail]
      exact pushed.sublist (List.tail_sublist _)
    · exact pushed
  length_le := by
    have bound := c.length_le
    dsimp only
    split <;> simp only [List.length_tail,List.length_append,List.length_singleton] at * <;> omega

def get (c : Cache K V) (key : K) : Option V × Cache K V :=
  match found : c.lookup key with
  | some value => (some value,c.touch key value (mem_keys_of_lookup found))
  | none => (none,c)

/-- `Add`: a cached key takes the new value and moves to the front; a new key is pushed,
and the returned flag says whether that evicted the oldest entry. -/
def add (c : Cache K V) (key : K) (value : V) : Cache K V × Bool :=
  if present : key ∈ c.keys then (c.touch key value present,false)
  else (c.push key value present,c.size < c.entries.length + 1)

/-- The key that `Add` of a new key evicts: the oldest one, when the cache is full. -/
def victim (c : Cache K V) : Option K := if c.size ≤ c.entries.length then c.keys.head? else none

def modify (c : Cache K V) (key : K) (f : V → V) : Cache K V where
  size := c.size
  entries := c.entries.map (fun entry => if entry.1 = key then (entry.1,f entry.2) else entry)
  size_pos := c.size_pos
  keys_nodup := by
    rw [List.map_map]
    convert c.keys_nodup using 2
    funext entry
    by_cases same : entry.1 = key <;> simp [same]
  length_le := by simpa using c.length_le

def map (f : V → W) (c : Cache K V) : Cache K W where
  size := c.size
  entries := c.entries.map (fun entry => (entry.1,f entry.2))
  size_pos := c.size_pos
  keys_nodup := by simpa [List.map_map,Function.comp_def] using c.keys_nodup
  length_le := by simpa using c.length_le

@[simp] theorem lookup_cons (entry : K × V) (entries : List (K × V)) (other : K) :
    (entry :: entries).lookup other =
      if other = entry.1 then some entry.2 else entries.lookup other := by
  obtain ⟨key,value⟩ := entry
  by_cases same : other = key
  · simp [List.lookup_cons,same]
  · simp [List.lookup_cons,beq_eq_false_iff_ne.mpr same,same]

theorem lookup_eq_none_of_not_mem {entries : List (K × V)} {key : K}
    (absent : key ∉ entries.map Prod.fst) : entries.lookup key = none := by
  rw [List.lookup_eq_none_iff]
  intro pair member
  simp only [bne_iff_ne,ne_eq]
  exact fun equal => absent (List.mem_map.mpr ⟨pair,member,equal.symm⟩)

private theorem lookup_filter (entries : List (K × V)) (key other : K) :
    (entries.filter (fun entry => entry.1 != key)).lookup other =
      if other = key then none else entries.lookup other := by
  induction entries with
  | nil => simp
  | cons entry entries ih =>
    by_cases same : entry.1 = key
    · rw [List.filter_cons_of_neg (by simp [same]),ih,lookup_cons]
      by_cases equal : other = key
      · simp [equal]
      · simp [equal,show other ≠ entry.1 from same ▸ equal]
    · rw [List.filter_cons_of_pos (by simp [same]),lookup_cons,lookup_cons,ih]
      by_cases equal : other = key
      · simp [equal,show key ≠ entry.1 from fun h => same h.symm]
      · simp [equal]

theorem lookup_touch (c : Cache K V) (key : K) (value : V) (present : key ∈ c.keys) (other : K) :
    (c.touch key value present).lookup other = if other = key then some value else c.lookup other := by
  simp only [lookup,touch,List.lookup_append,lookup_filter]
  split_ifs with same <;> simp [same]

theorem keys_touch (c : Cache K V) (key : K) (value : V) (present : key ∈ c.keys) :
    (c.touch key value present).keys = c.keys.filter (fun other => other != key) ++ [key] := by
  simp [keys,touch,List.filter_map,Function.comp_def]

omit [DecidableEq K] in
theorem push_entries (c : Cache K V) (key : K) (value : V) (absent : key ∉ c.keys) :
    (c.push key value absent).entries =
      (if c.size ≤ c.entries.length then c.entries.tail else c.entries) ++ [(key,value)] := by
  have positive := c.size_pos
  simp only [push,List.length_append,List.length_singleton]
  split_ifs with over full full
  · cases entries : c.entries with
    | nil => rw [entries] at full; simp at full; omega
    | cons entry rest => rfl
  all_goals first | rfl | omega

private theorem lookup_tail (entries : List (K × V)) (nodup : (entries.map Prod.fst).Nodup)
    (other : K) : entries.tail.lookup other =
      if (entries.map Prod.fst).head? = some other then none else entries.lookup other := by
  cases entries with
  | nil => simp
  | cons entry rest =>
    have fresh : rest.lookup entry.1 = none :=
      lookup_eq_none_of_not_mem (List.nodup_cons.mp nodup).1
    by_cases same : entry.1 = other
    · subst other; simp [fresh]
    · simp [Ne.symm same,same]

theorem lookup_push (c : Cache K V) (key : K) (value : V) (absent : key ∉ c.keys) (other : K) :
    (c.push key value absent).lookup other =
      if other = key then some value
      else if c.victim = some other then none else c.lookup other := by
  have missing : c.entries.lookup key = none := lookup_eq_none_of_not_mem absent
  simp only [lookup,push_entries,victim,List.lookup_append,lookup_cons,List.lookup_nil]
  by_cases same : other = key
  · subst other
    split_ifs <;> simp [lookup_tail _ c.keys_nodup,missing]
  · split_ifs <;> simp_all [lookup_tail _ c.keys_nodup,keys]

theorem get_of_lookup_some {c : Cache K V} {key : K} {value : V} (found : c.lookup key = some value) :
    c.get key = (some value,c.touch key value (mem_keys_of_lookup found)) := by
  unfold get
  split
  next stored same => rw [found] at same; cases same; rfl
  next same => simp_all

theorem get_of_lookup_none {c : Cache K V} {key : K} (missing : c.lookup key = none) :
    c.get key = (none,c) := by
  unfold get
  split <;> simp_all

private theorem mem_iff_lookup {entries : List (K × V)} (nodup : (entries.map Prod.fst).Nodup)
    (key : K) (value : V) : (key,value) ∈ entries ↔ entries.lookup key = some value := by
  induction entries with
  | nil => simp
  | cons entry rest ih =>
    obtain ⟨stored,held⟩ := entry
    rw [List.map_cons,List.nodup_cons] at nodup
    by_cases same : key = stored
    · subst key
      have missing : (stored,value) ∉ rest := fun member => nodup.1 (List.mem_map.mpr ⟨_,member,rfl⟩)
      simp [missing,eq_comm]
    · simp [same,ih nodup.2]

theorem mem_entries_iff (c : Cache K V) (key : K) (value : V) :
    (key,value) ∈ c.entries ↔ c.lookup key = some value :=
  mem_iff_lookup c.keys_nodup key value

theorem lookup_eq_none_iff (c : Cache K V) (key : K) : c.lookup key = none ↔ key ∉ c.keys := by
  constructor
  · intro missing present
    obtain ⟨⟨stored,value⟩,member,rfl⟩ := List.mem_map.mp present
    rw [(c.mem_entries_iff stored value).mp member] at missing
    cases missing
  · exact lookup_eq_none_of_not_mem

@[simp] theorem get_fst (c : Cache K V) (key : K) : (c.get key).1 = c.lookup key := by
  cases found : c.lookup key with
  | none => rw [get_of_lookup_none found]
  | some value => rw [get_of_lookup_some found]

@[simp] theorem lookup_get (c : Cache K V) (key other : K) :
    (c.get key).2.lookup other = c.lookup other := by
  cases found : c.lookup key with
  | none => rw [get_of_lookup_none found]
  | some value =>
    rw [get_of_lookup_some found,lookup_touch]
    split_ifs with same
    · rw [same,found]
    · rfl

theorem lookup_add (c : Cache K V) (key : K) (value : V) (other : K) :
    (c.add key value).1.lookup other =
      if other = key then some value
      else if key ∉ c.keys ∧ c.victim = some other then none else c.lookup other := by
  unfold add
  split_ifs with present same evicted <;>
    simp_all [lookup_touch,lookup_push]

theorem get_of_getLast {c : Cache K V} {key : K} {value : V}
    (last : c.entries.getLast? = some (key,value)) : c.get key = (some value,c) := by
  have found : c.lookup key = some value :=
    (c.mem_entries_iff key value).mp (List.mem_of_getLast?_eq_some last)
  rw [get_of_lookup_some found]
  congr 1
  obtain ⟨before,split⟩ := List.getLast?_eq_some_iff.mp last
  have fresh : key ∉ before.map Prod.fst := by
    have nodup := c.keys_nodup
    rw [split,List.map_append,List.map_singleton,List.nodup_append] at nodup
    exact fun member => nodup.2.2 member (List.mem_singleton_self key)
  ext1
  · rfl
  · simp only [touch,split,List.filter_append,List.filter_singleton,bne_self_eq_false,
      cond_false,List.append_nil]
    rw [List.filter_eq_self.mpr]
    intro entry member
    simpa using fun equal => fresh (List.mem_map.mpr ⟨entry,member,equal⟩)

theorem add_getLast (c : Cache K V) (key : K) (value : V) :
    (c.add key value).1.entries.getLast? = some (key,value) := by
  unfold add
  split_ifs with present
  · simp [touch]
  · simp [push_entries]

theorem get_getLast {c : Cache K V} {key : K} {value : V} (found : c.lookup key = some value) :
    (c.get key).2.entries.getLast? = some (key,value) := by
  rw [get_of_lookup_some found]
  simp [touch]

private theorem lookup_map_if (entries : List (K × V)) (key : K) (f : V → V) (other : K) :
    (entries.map (fun entry => if entry.1 = key then (entry.1,f entry.2) else entry)).lookup other =
      if other = key then (entries.lookup key).map f else entries.lookup other := by
  induction entries with
  | nil => simp
  | cons entry rest ih =>
    obtain ⟨stored,held⟩ := entry
    by_cases same : stored = key
    · subst stored
      by_cases equal : other = key <;> simp_all
    · by_cases equal : other = key <;> simp_all [Ne.symm same]

@[simp] theorem lookup_modify (c : Cache K V) (key : K) (f : V → V) (other : K) :
    (c.modify key f).lookup other = if other = key then (c.lookup key).map f else c.lookup other :=
  lookup_map_if c.entries key f other

@[simp] theorem keys_modify (c : Cache K V) (key : K) (f : V → V) : (c.modify key f).keys = c.keys := by
  simp [keys,modify,Function.comp_def,apply_ite Prod.fst]

theorem modify_modify (c : Cache K V) (key : K) (f g : V → V) :
    (c.modify key f).modify key g = c.modify key (g ∘ f) := by
  ext1
  · rfl
  · simp only [modify,List.map_map]
    congr 1
    funext entry
    by_cases same : entry.1 = key <;> simp [same]

@[simp] theorem modify_id (c : Cache K V) (key : K) : c.modify key (fun value => value) = c := by
  ext1 <;> simp [modify]

@[simp] theorem lookup_map (f : V → W) (c : Cache K V) (key : K) :
    (c.map f).lookup key = (c.lookup key).map f := by
  simp only [lookup,map]
  induction c.entries with
  | nil => rfl
  | cons entry rest ih => by_cases same : key = entry.1 <;> simp_all

omit [DecidableEq K] in
@[simp] theorem keys_map (f : V → W) (c : Cache K V) : (c.map f).keys = c.keys := by
  simp [keys,map,Function.comp_def]

omit [DecidableEq K] in
@[simp] theorem values_map (f : V → W) (c : Cache K V) : (c.map f).values = c.values.map f := by
  simp [values,map,Function.comp_def]

theorem map_touch (f : V → W) (c : Cache K V) (key : K) (value : V) (present : key ∈ c.keys) :
    (c.touch key value present).map f = (c.map f).touch key (f value) (by simpa using present) := by
  ext1
  · rfl
  · simp [map,touch,List.filter_map,Function.comp_def]

omit [DecidableEq K] in
@[simp] theorem victim_map (f : V → W) (c : Cache K V) : (c.map f).victim = c.victim := by
  simp [victim,map,keys,Function.comp_def]

omit [DecidableEq K] in
theorem map_push (f : V → W) (c : Cache K V) (key : K) (value : V) (absent : key ∉ c.keys) :
    (c.push key value absent).map f = (c.map f).push key (f value) (by simpa using absent) := by
  ext1
  · rfl
  · simp only [map,push_entries,List.map_append,List.map_cons,List.map_nil,List.length_map]
    split_ifs <;> simp [map,List.map_tail]

theorem get_map (f : V → W) (c : Cache K V) (key : K) :
    (c.map f).get key = ((c.get key).1.map f,(c.get key).2.map f) := by
  cases found : c.lookup key with
  | none =>
    rw [get_of_lookup_none found,get_of_lookup_none (by simp [found])]
    rfl
  | some value =>
    rw [get_of_lookup_some found,get_of_lookup_some (by simp [found] : (c.map f).lookup key = some (f value)),
      map_touch]
    rfl

theorem add_map (f : V → W) (c : Cache K V) (key : K) (value : V) :
    (c.map f).add key (f value) = ((c.add key value).1.map f,(c.add key value).2) := by
  unfold add
  by_cases present : key ∈ c.keys
  · rw [dif_pos present,dif_pos (by simpa using present),map_touch]
  · rw [dif_neg present,dif_neg (by simpa using present),map_push]
    simp [map]

theorem map_congr {f g : V → W} {c : Cache K V}
    (same : ∀ key value, c.lookup key = some value → f value = g value) : c.map f = c.map g := by
  ext1
  · rfl
  · simp only [map,List.map_inj_left]
    intro entry member
    rw [same entry.1 entry.2 ((c.mem_entries_iff _ _).mp member)]

theorem map_update [DecidableEq V] {c : Cache K V} {key : K} {value : V} (f : V → W) (g : W → W)
    (found : c.lookup key = some value)
    (unshared : ∀ other, c.lookup other = some value → other = key) :
    c.map (Function.update f value (g (f value))) = (c.map f).modify key g := by
  ext1
  · rfl
  · simp only [map,modify,List.map_map,List.map_inj_left,Function.comp_apply]
    rintro ⟨stored,held⟩ member
    have present := (c.mem_entries_iff _ _).mp member
    by_cases same : stored = key
    · subst stored
      obtain rfl : held = value := Option.some.inj (present.symm.trans found)
      simp only [ite_true]
      exact congrArg (Prod.mk key) (Function.update_same held _ f)
    · have other : held ≠ value := fun equal => same (unshared _ (equal ▸ present))
      simp [same,other]

theorem lookup_add_eq_some {c : Cache K V} {key other : K} {value found : V}
    (stored : (c.add key value).1.lookup other = some found) :
    (other = key ∧ found = value) ∨ (other ≠ key ∧ c.lookup other = some found) := by
  rw [lookup_add] at stored
  split_ifs at stored with same
  · exact .inl ⟨same,(Option.some.inj stored).symm⟩
  · exact .inr ⟨same,stored⟩

theorem mem_keys_iff_lookup {c : Cache K V} {key : K} : key ∈ c.keys ↔ c.lookup key ≠ none := by
  rw [Ne,c.lookup_eq_none_iff,not_not]

@[simp] theorem mem_keys_get (c : Cache K V) (key other : K) : other ∈ (c.get key).2.keys ↔ other ∈ c.keys := by
  rw [mem_keys_iff_lookup,mem_keys_iff_lookup,lookup_get]

theorem victim_eq_none_of_room {c : Cache K V} {slots : List K} (room : slots.length ≤ c.size)
    (covered : ∀ key ∈ c.keys, key ∈ slots) {key : K} (inside : key ∈ slots) (absent : key ∉ c.keys) :
    c.victim = none := by
  have fewer : c.keys.length ≤ (slots.erase key).length :=
    (List.subperm_of_subset c.keys_nodup fun other member =>
      (List.mem_erase_of_ne fun same : other = key => absent (same ▸ member)).mpr (covered other member)).length_le
  rw [List.length_erase_of_mem inside] at fewer
  have nonempty : 0 < slots.length := List.length_pos_of_mem inside
  have short : c.entries.length < c.size := by
    rw [← List.length_map c.entries Prod.fst]
    exact Nat.lt_of_lt_of_le (by simpa [keys] using Nat.lt_of_le_of_lt fewer (by omega)) room
  simp [victim,Nat.not_le.mpr short]

theorem lookup_add_of_room {c : Cache K V} {slots : List K} (room : slots.length ≤ c.size)
    (covered : ∀ key ∈ c.keys, key ∈ slots) {key : K} (inside : key ∈ slots) (value : V) (other : K) :
    (c.add key value).1.lookup other = if other = key then some value else c.lookup other := by
  have kept : ¬(key ∉ c.keys ∧ c.victim = some other) := fun ⟨absent,evicted⟩ => by
    rw [victim_eq_none_of_room room covered inside absent] at evicted
    cases evicted
  rw [lookup_add,if_neg kept]

end Cache

/-- `lru.New`: `simplelru.NewLRU` refuses a size that is not positive. -/
def new {K V : Type} (size : Int) : Except String (Cache K V) :=
  if positive : 0 < size then .ok ⟨size.toNat,[],by omega,List.nodup_nil,Nat.zero_le _⟩
  else .error "must provide a positive size"

end Bolt.Lru
