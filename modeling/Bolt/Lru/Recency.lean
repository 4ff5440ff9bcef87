import Bolt.Lru.Cache
import Mathlib.Data.List.Dedup
import Mathlib.Data.List.DropRight

/-! The LRU discipline said without the cache: a cache of `size` keys holds the `size`
distinct keys used last, least recently used first, where a use is an `Add` or a `Get`
that finds its key. `Get` and `Add` keep the cache's keys equal to this window over the
history of uses. -/
namespace Bolt.Lru

variable {K V : Type} [DecidableEq K]

/-- The `size` most recently used distinct keys of a history of uses, oldest first.
`List.dedup` keeps the last occurrence of each key. -/
def window (size : Nat) (uses : List K) : List K := uses.dedup.rtake size

theorem dedup_concat (uses : List K) (key : K) :
    (uses ++ [key]).dedup = uses.dedup.filter (· != key) ++ [key] := by
  induction uses with
  | nil => rfl
  | cons used uses ih =>
    rw [List.cons_append]
    by_cases again : used ∈ uses
    · rw [List.dedup_cons_of_mem (List.mem_append_left _ again),ih,List.dedup_cons_of_mem again]
    · rw [List.dedup_cons_of_not_mem again]
      by_cases last : used = key
      · subst used
        rw [List.dedup_cons_of_mem (by simp),ih,List.filter_cons_of_neg (by simp)]
      · rw [List.dedup_cons_of_not_mem (by simp [again,last]),ih,
          List.filter_cons_of_pos (by simp [last]),List.cons_append]

private theorem take_filter_of_not_mem {recent : List K} {n : Nat} {key : K}
    (absent : key ∉ recent.take n) : (recent.filter (· != key)).take n = recent.take n := by
  induction recent generalizing n with
  | nil => rfl
  | cons used recent ih =>
    cases n with
    | zero => rfl
    | succ n =>
      simp only [List.take_succ_cons,List.mem_cons,not_or] at absent
      rw [List.filter_cons_of_pos (by simpa using Ne.symm absent.1),List.take_succ_cons,ih absent.2]
      rfl

private theorem take_filter_of_mem {recent : List K} (distinct : recent.Nodup) {n : Nat} {key : K}
    (present : key ∈ recent.take n) :
    (recent.filter (· != key)).take (n - 1) = (recent.take n).filter (· != key) := by
  induction recent generalizing n with
  | nil => simp at present
  | cons used recent ih =>
    obtain ⟨fresh,distinct⟩ := List.nodup_cons.mp distinct
    cases n with
    | zero => simp at present
    | succ n =>
      rw [List.take_succ_cons] at present ⊢
      by_cases same : used = key
      · subst used
        have kept : ∀ other ∈ recent, (other != key) = true := fun other member =>
          bne_iff_ne.mpr fun equal => fresh (equal ▸ member)
        rw [List.filter_cons_of_neg (by simp),List.filter_cons_of_neg (by simp),
          List.filter_eq_self.mpr kept,List.filter_eq_self.mpr fun other member =>
            kept other (List.mem_of_mem_take member)]
        rfl
      · have later : key ∈ recent.take n := (List.mem_cons.mp present).resolve_left (Ne.symm same)
        obtain ⟨n,rfl⟩ : ∃ m, n = m + 1 := Nat.exists_eq_succ_of_ne_zero fun zero => by
          simp [zero] at later
        rw [List.filter_cons_of_pos (by simpa using same),List.filter_cons_of_pos (by simpa using same),
          Nat.add_sub_cancel,List.take_succ_cons,← ih distinct later]
        rfl

theorem window_concat_of_mem {size : Nat} {uses : List K} {key : K}
    (present : key ∈ window size uses) :
    window size (uses ++ [key]) = (window size uses).filter (· != key) ++ [key] := by
  simp only [window,List.rtake_eq_reverse_take_reverse,List.mem_reverse] at present ⊢
  obtain ⟨size,rfl⟩ : ∃ s, size = s + 1 := Nat.exists_eq_succ_of_ne_zero fun zero => by
    simp [zero] at present
  have moved := take_filter_of_mem (List.nodup_reverse.mpr (List.nodup_dedup uses)) present
  rw [Nat.add_sub_cancel] at moved
  rw [dedup_concat,List.reverse_append,List.reverse_singleton,List.singleton_append,
    ← List.filter_reverse,List.take_succ_cons,List.reverse_cons,moved,List.filter_reverse]

theorem window_concat_of_not_mem {size : Nat} (positive : 0 < size) {uses : List K} {key : K}
    (absent : key ∉ window size uses) :
    window size (uses ++ [key]) =
      (if size ≤ (window size uses).length then (window size uses).tail else window size uses) ++
        [key] := by
  simp only [window,List.rtake_eq_reverse_take_reverse,List.mem_reverse,List.length_reverse,
    List.length_take,List.tail_reverse] at absent ⊢
  obtain ⟨size,rfl⟩ : ∃ s, size = s + 1 := Nat.exists_eq_succ_of_ne_zero (Nat.pos_iff_ne_zero.mp positive)
  rw [dedup_concat,List.reverse_append,List.reverse_singleton,List.singleton_append,
    ← List.filter_reverse,List.take_succ_cons,List.reverse_cons]
  have older := congrArg (List.take size) (take_filter_of_not_mem absent)
  simp only [List.take_take,Nat.min_eq_left (Nat.le_succ size)] at older
  rw [older]
  split_ifs with full
  · rw [List.dropLast_eq_take,List.take_take,List.length_take,List.length_reverse]
    have long : size + 1 ≤ uses.dedup.length := le_inf_iff.mp full |>.2
    rw [Nat.min_eq_left long,Nat.add_sub_cancel,Nat.min_eq_left (Nat.le_succ size)]
  · have short : uses.dedup.reverse.length ≤ size := by simp only [List.length_reverse]; omega
    rw [List.take_of_length_le short,List.take_of_length_le (Nat.le_succ_of_le short)]

namespace Cache

@[simp] theorem size_get (c : Cache K V) (key : K) : (c.get key).2.size = c.size := by
  cases found : c.lookup key with
  | none => rw [get_of_lookup_none found]
  | some value => rw [get_of_lookup_some found]; rfl

@[simp] theorem size_add (c : Cache K V) (key : K) (value : V) : (c.add key value).1.size = c.size := by
  unfold add
  split_ifs <;> rfl

omit [DecidableEq K] in
theorem keys_push (c : Cache K V) (key : K) (value : V) (absent : key ∉ c.keys) :
    (c.push key value absent).keys =
      (if c.size ≤ c.keys.length then c.keys.tail else c.keys) ++ [key] := by
  simp only [keys,push_entries,List.map_append,List.map_singleton,List.length_map]
  split_ifs <;> simp [List.map_tail]

theorem keys_get_window {c : Cache K V} {uses : List K} (recent : c.keys = window c.size uses)
    (key : K) : (c.get key).2.keys = window c.size (uses ++ if key ∈ c.keys then [key] else []) := by
  by_cases present : key ∈ c.keys
  · obtain ⟨value,found⟩ := Option.ne_none_iff_exists'.mp (mt (c.lookup_eq_none_iff key).mp (not_not.mpr present))
    rw [get_of_lookup_some found,keys_touch,if_pos present,recent,window_concat_of_mem (recent ▸ present)]
  · rw [get_of_lookup_none ((c.lookup_eq_none_iff key).mpr present),if_neg present,List.append_nil,recent]

theorem keys_add_window {c : Cache K V} {uses : List K} (recent : c.keys = window c.size uses)
    (key : K) (value : V) : (c.add key value).1.keys = window c.size (uses ++ [key]) := by
  unfold add
  split_ifs with present
  · rw [keys_touch,recent,window_concat_of_mem (recent ▸ present)]
  · rw [keys_push,recent,window_concat_of_not_mem c.size_pos (recent ▸ present)]

end Cache

end Bolt.Lru
