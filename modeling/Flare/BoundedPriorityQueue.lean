import Mathlib
import Flare.Lib.Fold
import Flare.Lib.Lowest

/-!
# Bounded priority queues, `take_ordered` and `top`

`BoundedPriorityQueue` (`utils/bounded_priority_queue.rs`) wraps a max-heap of at most
`max_size` elements.  `append` pushes while there is room, and otherwise
`maybe_replace_lowest` swaps the heap's greatest element (`peek`) for a smaller one; `merge`
appends every element of another queue; the conversion into a vector reads the heap
greatest first (`into_iter_sorted`) and reverses it.  `take_ordered` (`rdd/rdd.rs`:2716-2745)
fills one queue of `num` per partition, reduces the partitions' queues with `merge`, and
converts the result; `top` (2700-2711) does the same on the elements wrapped in `Reverse`.

## Main definitions

* `BoundedPriorityQueue`, with `append`, `merge` and `toVec`.
* `Actions.takeOrdered`, `Actions.top`.

## Main results

* `BoundedPriorityQueue.Holds.append`, `BoundedPriorityQueue.Holds.merge` — the queue holds a
  lowest `max_size` of everything put into it, after any appends and merges.
* `Actions.takeOrdered_top` — with at least one partition, `take_ordered(num)` is the `num`
  smallest elements in ascending order, and `top(num)` the `num` largest in descending order.
* `Actions.takeOrdered_no_partition` — with no partition, both fail with `Error::Other`.

## Design notes

The heap is its elements, in the order its iterator yields them: `push` puts the new element
last and `pop` removes a greatest one.  The heap's layout moves elements around, which no
result depends on: they are about the multiset of elements, and `merge` is proved for every
order of the other queue's elements.  `T: Ord` is a linear order; `Reverse` is `OrderDual`.
`Error::Other` is `none`.
-/

namespace Flare

universe u

open Lowest

/-- `BoundedPriorityQueue`: `max_size`, and the heap's elements, never more than `max_size`. -/
structure BoundedPriorityQueue (T : Type u) where
  maxSize : ℕ
  underlying : List T
  length_le : underlying.length ≤ maxSize

namespace BoundedPriorityQueue

variable {T : Type u} [LinearOrder T]

/-- `BoundedPriorityQueue::new`: an empty heap. -/
def new (maxSize : ℕ) : BoundedPriorityQueue T := ⟨maxSize, [], Nat.zero_le _⟩

/-- `maybe_replace_lowest`: an element below the heap's greatest (`peek`) takes its place
(`pop`, then `push`). -/
def maybeReplaceLowest (q : BoundedPriorityQueue T) (elem : T) : BoundedPriorityQueue T :=
  match h : q.underlying.max? with
  | some head =>
      if elem < head then
        ⟨q.maxSize, q.underlying.erase head ++ [elem], by
          have hmem := List.max?_mem h
          have hpos := List.length_pos_of_mem hmem
          rw [List.length_append, List.length_erase_of_mem hmem, List.length_singleton]
          have := q.length_le
          omega⟩
      else q
  | none => q

/-- `append`: the element is pushed while there is room. -/
def append (q : BoundedPriorityQueue T) (elem : T) : BoundedPriorityQueue T :=
  if h : q.underlying.length < q.maxSize then
    ⟨q.maxSize, q.underlying ++ [elem], by rw [List.length_append, List.length_singleton]; omega⟩
  else q.maybeReplaceLowest elem

/-- `merge`: every element of `other`, in the order its heap yields them, appended. -/
def merge (q other : BoundedPriorityQueue T) : BoundedPriorityQueue T :=
  other.underlying.foldl append q

/-- `Into<Vec<T>>`: the heap greatest first (`into_iter_sorted`), reversed. -/
def toVec (q : BoundedPriorityQueue T) : List T :=
  (q.underlying.mergeSort fun a b => decide (b ≤ a)).reverse

/-! ### The queue's invariant -/

/-- The queue holds a lowest `max_size` of `all`, the elements put into it. -/
def Holds (q : BoundedPriorityQueue T) (all : Multiset T) : Prop :=
  IsLowest q.maxSize all q.underlying

theorem holds_new (maxSize : ℕ) : (new maxSize : BoundedPriorityQueue T).Holds 0 :=
  IsLowest.zero maxSize

theorem maxSize_append (q : BoundedPriorityQueue T) (elem : T) :
    (q.append elem).maxSize = q.maxSize := by
  unfold append maybeReplaceLowest
  split
  · rfl
  · split <;> (try split) <;> rfl

/-- At `max_size`, `maybe_replace_lowest` keeps the invariant: the element replaces the greatest
if it is below it, and is left out otherwise. -/
theorem Holds.maybeReplaceLowest {q : BoundedPriorityQueue T} {all : Multiset T} (h : q.Holds all)
    (hcard : Multiset.card (q.underlying : Multiset T) = q.maxSize) (x : T) :
    IsLowest q.maxSize (x ::ₘ all) (q.maybeReplaceLowest x).underlying := by
  unfold Holds at h
  unfold BoundedPriorityQueue.maybeReplaceLowest
  split
  · rename_i head hhead
    obtain ⟨hmem, hmax⟩ := List.max?_eq_some_iff.mp hhead
    split
    · rename_i hlt
      show IsLowest q.maxSize (x ::ₘ all) ((q.underlying.erase head ++ [x] : List T) : Multiset T)
      rw [← Multiset.coe_add, ← Multiset.coe_erase, Multiset.coe_singleton, add_comm,
        Multiset.singleton_add]
      exact h.cons_erase hcard (Multiset.mem_coe.mpr hmem)
        (fun a ha => hmax a (Multiset.mem_coe.mp ha)) hlt
    · rename_i hge
      exact h.cons_of_le hcard fun a ha => (hmax a (Multiset.mem_coe.mp ha)).trans (not_lt.mp hge)
  · -- an empty heap at `max_size`: `max_size` is `0`, nothing is kept
    rename_i hnone
    have hnil := List.max?_eq_none_iff.mp hnone
    exact h.cons_of_le hcard fun a ha => absurd (hnil ▸ Multiset.mem_coe.mp ha) List.not_mem_nil

/-- **`append` keeps the invariant**: with room, the element joins; at `max_size`,
`maybe_replace_lowest` decides. -/
theorem Holds.append {q : BoundedPriorityQueue T} {all : Multiset T} (h : q.Holds all) (x : T) :
    (q.append x).Holds (x ::ₘ all) := by
  unfold Holds
  rw [maxSize_append]
  unfold BoundedPriorityQueue.append
  split
  · -- room left: `push`
    rename_i hroom
    rw [← Multiset.coe_add, Multiset.coe_singleton, add_comm, ← Multiset.singleton_add,
      Multiset.singleton_add]
    exact IsLowest.cons_of_card_lt h (by simpa using hroom) x
  · -- full: the heap has `max_size` elements
    rename_i hfull
    have hcard : Multiset.card (q.underlying : Multiset T) = q.maxSize := by
      have := q.length_le
      simp only [Multiset.coe_card]
      omega
    exact h.maybeReplaceLowest hcard x

/-- **Appending a sequence keeps the invariant.** -/
theorem Holds.foldl_append :
    ∀ (l : List T) {q : BoundedPriorityQueue T} {all : Multiset T}, q.Holds all →
      (l.foldl BoundedPriorityQueue.append q).Holds (all + l) ∧
        (l.foldl BoundedPriorityQueue.append q).maxSize = q.maxSize
  | [], _, all, h => ⟨by simpa using h, rfl⟩
  | x :: l, q, all, h => by
      obtain ⟨hl, hsize⟩ := Holds.foldl_append l (h.append x)
      refine ⟨?_, hsize.trans (maxSize_append q x)⟩
      rw [List.foldl_cons]
      convert hl using 1
      rw [← Multiset.cons_coe, Multiset.add_cons, Multiset.cons_add]

/-- **`merge` keeps the invariant**: the lowest of the first queue's elements and of the
second queue's lowest are the lowest of both. -/
theorem Holds.merge {q other : BoundedPriorityQueue T} {all all' : Multiset T} (h : q.Holds all)
    (h' : other.Holds all') (hsize : other.maxSize = q.maxSize) :
    (q.merge other).Holds (all + all') ∧ (q.merge other).maxSize = q.maxSize := by
  obtain ⟨hfold, hmax⟩ := Holds.foldl_append other.underlying h
  refine ⟨?_, hmax⟩
  unfold Holds at hfold h' ⊢
  rw [hmax] at hfold
  show IsLowest (other.underlying.foldl BoundedPriorityQueue.append q).maxSize _ _
  rw [hmax]
  exact IsLowest.of_add (hsize ▸ h') hfold

/-- The vector of a queue: its elements, in ascending order. -/
theorem toVec_eq (q : BoundedPriorityQueue T) :
    q.toVec = q.underlying.mergeSort fun a b => decide (a ≤ b) := by
  refine List.Perm.eq_of_pairwise' (r := (· ≤ ·)) ?_ (List.pairwise_mergeSort' _ _) ?_
  · -- greatest first, reversed
    exact List.pairwise_reverse.mpr (List.pairwise_mergeSort' (fun a b => b ≤ a) q.underlying)
  · exact (List.reverse_perm _).trans
      ((List.mergeSort_perm _ _).trans (List.mergeSort_perm _ _).symm)

end BoundedPriorityQueue

namespace Actions

open BoundedPriorityQueue

variable {T : Type u} [LinearOrder T]

/-- `Rdd::reduce` on partitions: each partition reduced, then the partitions' results. -/
def rddReduce {β : Type u} (f : β → β → β) (partitions : List (List β)) : Option β :=
  Folds.reduce f (partitions.flatMap fun p => (Folds.reduce f p).toList)

/-- `first_k_func`: the queue of `num` of a partition. -/
def firstK (num : ℕ) (partition : List T) : BoundedPriorityQueue T :=
  partition.foldl append (new num)

/-- `Rdd::take_ordered`; `none` for `Error::Other`, when the reduce finds no queue. -/
def takeOrdered (partitions : List (List T)) (num : ℕ) : Option (List T) :=
  if num = 0 then some []
  else (rddReduce merge (partitions.map fun p => [firstK num p])).map toVec

/-- `Rdd::top`: `take_ordered` on the elements wrapped in `Reverse`, unwrapped. -/
def top (partitions : List (List T)) (num : ℕ) : Option (List T) :=
  (takeOrdered (partitions.map (List.map OrderDual.toDual)) num).map (List.map OrderDual.ofDual)

/-- **The reduce of the partitions' queues holds a lowest `num` of all elements.** -/
theorem holds_foldl_merge (num : ℕ) :
    ∀ (partitions : List (List T)) {q : BoundedPriorityQueue T} {all : Multiset T},
      q.Holds all → q.maxSize = num →
      ((partitions.map (firstK num)).foldl merge q).Holds (all + partitions.flatten) ∧
        ((partitions.map (firstK num)).foldl merge q).maxSize = num
  | [], _, all, h, hsize => ⟨by simpa using h, hsize⟩
  | p :: partitions, q, all, h, hsize => by
      obtain ⟨hp, hpsize⟩ := Holds.foldl_append p (holds_new (T := T) num)
      have hp' : (firstK num p).Holds p := by rwa [zero_add] at hp
      obtain ⟨hmerge, hmsize⟩ := h.merge hp' (hpsize.trans hsize.symm)
      obtain ⟨hrest, hrsize⟩ := holds_foldl_merge num partitions hmerge (hmsize.trans hsize)
      rw [List.map_cons, List.foldl_cons, List.flatten_cons, ← Multiset.coe_add, ← add_assoc]
      exact ⟨hrest, hrsize⟩

/-- **With at least one partition, `take_ordered` and `top` return the extreme elements**:
`take_ordered(num)` the `num` smallest in ascending order, and `top(num)` the `num` largest in
descending order, of all elements of all partitions. -/
theorem takeOrdered_eq (partitions : List (List T)) (hparts : partitions ≠ []) (num : ℕ) :
    takeOrdered partitions num =
      some ((partitions.flatten.mergeSort fun a b => decide (a ≤ b)).take num) := by
  unfold takeOrdered
  split_ifs with hnum
  · rw [hnum, List.take_zero]
  · obtain ⟨p, rest, rfl⟩ := List.exists_cons_of_ne_nil hparts
    -- each partition reduces to its one queue
    have hqueues : ((p :: rest).map fun p => [firstK num p]).flatMap
        (fun l => (Folds.reduce merge l).toList) = (p :: rest).map (firstK num) := by
      rw [List.flatMap_map]
      simp only [Folds.reduce_singleton, Option.toList_some]
      exact List.map_eq_flatMap.symm
    obtain ⟨hp, hpsize⟩ := Holds.foldl_append p (holds_new (T := T) num)
    obtain ⟨hq, hqsize⟩ := holds_foldl_merge num rest (zero_add (p : Multiset T) ▸ hp) hpsize
    unfold Holds at hq
    rw [hqsize, Multiset.coe_add, ← List.flatten_cons] at hq
    rw [rddReduce, hqueues, List.map_cons, Folds.reduce, Option.map_some, toVec_eq]
    exact congrArg some (IsLowest.mergeSort_eq hq)

/-- Sorting the elements wrapped in `Reverse` and unwrapping them sorts greatest first. -/
theorem map_ofDual_mergeSort (l : List T) :
    ((l.map OrderDual.toDual).mergeSort fun a b => decide (a ≤ b)).map OrderDual.ofDual =
      l.mergeSort fun a b => decide (b ≤ a) := by
  refine List.Perm.eq_of_pairwise' (r := fun a b => b ≤ a) ?_
    (List.pairwise_mergeSort' (fun a b => b ≤ a) l) ?_
  · exact List.pairwise_map.mpr (List.pairwise_mergeSort' (· ≤ ·) _)
  · refine ((List.mergeSort_perm _ _).map OrderDual.ofDual).trans ?_
    rw [List.map_map]
    simpa using (List.mergeSort_perm l fun a b => decide (b ≤ a)).symm

theorem top_eq (partitions : List (List T)) (hparts : partitions ≠ []) (num : ℕ) :
    top partitions num = some ((partitions.flatten.mergeSort fun a b => decide (b ≤ a)).take num) := by
  have hdual : partitions.map (List.map OrderDual.toDual) ≠ [] := by simpa using hparts
  rw [top, takeOrdered_eq _ hdual, Option.map_some, List.map_take, ← List.map_flatten,
    map_ofDual_mergeSort]

/-- **With at least one partition, `take_ordered` and `top` return the extreme elements**:
`take_ordered(num)` the `num` smallest in ascending order, and `top(num)` the `num` largest in
descending order, of all the elements of all partitions. -/
theorem takeOrdered_top (partitions : List (List T)) (hparts : partitions ≠ []) (num : ℕ) :
    takeOrdered partitions num =
        some ((partitions.flatten.mergeSort fun a b => decide (a ≤ b)).take num) ∧
      top partitions num = some ((partitions.flatten.mergeSort fun a b => decide (b ≤ a)).take num) :=
  ⟨takeOrdered_eq partitions hparts num, top_eq partitions hparts num⟩

theorem takeOrdered_top_of_two_partitions :
    ([[3, 1], [2]] : List (List ℕ)) ≠ [] ∧
      (takeOrdered [[3, 1], [2]] 2 =
          some ((([[3, 1], [2]] : List (List ℕ)).flatten.mergeSort fun a b => decide (a ≤ b)).take 2) ∧
        top [[3, 1], [2]] 2 =
          some ((([[3, 1], [2]] : List (List ℕ)).flatten.mergeSort fun a b => decide (b ≤ a)).take 2)) :=
  ⟨List.cons_ne_nil _ _, takeOrdered_top _ (List.cons_ne_nil _ _) 2⟩

/-- **With no partition, `take_ordered` and `top` fail**: the reduce finds no queue, and
`ok_or_else` turns that into `Error::Other`, where the smallest `num` of no element are
none. -/
theorem takeOrdered_no_partition :
    takeOrdered ([] : List (List ℕ)) 1 = none ∧ top ([] : List (List ℕ)) 1 = none :=
  ⟨rfl, rfl⟩

end Actions

end Flare
