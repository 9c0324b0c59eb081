import Mathlib
import Flare.Lib.KeyRuns

/-!
# Joins of keyed lists

What an equi-join is for, stated without an algorithm, and the facts a
cogroup-based join rests on.  A join of two keyed lists pairs every value of the
first with every value of the second under the same key; a cogroup holds, for a
key, the lists of its values on both sides, and its pairs are the products of
those lists.

## Main definitions

* `joinPairs l₁ l₂` — every value of `l₁` with every value of `l₂` under the
  same key.
* `groupPairs l` — every value of the first list of an entry with every value
  of its second list.
* `firstsAt k l`, `secondsAt k l` — the lists an entry list stores under `k` on
  either side, concatenated.

## Main results

* `count_joinPairs`, `count_groupPairs` — multiplicities of a pair on both sides:
  a product of multiplicities.
* `groupPairs_perm_joinPairs` — cogroups whose keys occur once and whose sides
  hold the two lists' values have exactly the join's pairs.
* `joinPairs_filter`, `perm_flatMap_range_filter` — a join splits along any
  partition of the keys.

## Design notes

Multiset equalities are proved through `List.perm_iff_count`; the value types
need no decidable equality of their own for the statements, and the proofs
take it classically.
-/

namespace KeyedList

universe u v w

variable {κ : Type u} {β : Type v} {γ : Type w}

/-! ### Pairs of cogroups -/

/-- The pairs of one cogroup entry: each value of its first list with each value
of its second. -/
def entryPairs (e : κ × (List β × List γ)) : List (κ × (β × γ)) :=
  e.2.1.flatMap fun v => e.2.2.map fun w => (e.1, (v, w))

/-- **The pairs of a cogroup list.** -/
def groupPairs (l : List (κ × (List β × List γ))) : List (κ × (β × γ)) :=
  l.flatMap entryPairs

@[simp] theorem groupPairs_nil : groupPairs ([] : List (κ × (List β × List γ))) = [] := rfl

@[simp] theorem groupPairs_cons (e : κ × (List β × List γ)) (l : List (κ × (List β × List γ))) :
    groupPairs (e :: l) = entryPairs e ++ groupPairs l := rfl

@[simp] theorem groupPairs_append (l₁ l₂ : List (κ × (List β × List γ))) :
    groupPairs (l₁ ++ l₂) = groupPairs l₁ ++ groupPairs l₂ := by
  simp [groupPairs]

/-- An entry with an empty side has no pairs. -/
theorem entryPairs_eq_nil {e : κ × (List β × List γ)} (h : e.2.1 = [] ∨ e.2.2 = []) :
    entryPairs e = [] := by
  rcases h with h | h <;> simp [entryPairs, h]

/-- Dropping entries with an empty side keeps the pairs. -/
theorem groupPairs_filter (p : κ × (List β × List γ) → Bool) :
    ∀ (l : List (κ × (List β × List γ))), (∀ e ∈ l, p e = false → e.2.1 = [] ∨ e.2.2 = []) →
      groupPairs (l.filter p) = groupPairs l
  | [], _ => rfl
  | e :: l, h => by
      have ih := groupPairs_filter p l fun e' he' => h e' (by simp [he'])
      by_cases hp : p e = true
      · rw [List.filter_cons_of_pos hp, groupPairs_cons, groupPairs_cons, ih]
      · rw [List.filter_cons_of_neg hp, groupPairs_cons,
          entryPairs_eq_nil (h e (by simp) (by simpa using hp)), List.nil_append, ih]

@[simp] theorem groupPairs_flatten (ls : List (List (κ × (List β × List γ)))) :
    groupPairs ls.flatten = ls.flatMap groupPairs := by
  induction ls with
  | nil => rfl
  | cons l ls ih => rw [List.flatten_cons, groupPairs_append, ih, List.flatMap_cons]

theorem groupPairs_flatMap {α : Type*} (l : List α) (f : α → List (κ × (List β × List γ))) :
    groupPairs (l.flatMap f) = l.flatMap fun x => groupPairs (f x) :=
  List.flatMap_assoc

/-- Cutting the first list of an entry into pieces keeps its pairs, in order. -/
theorem flatMap_entryPairs_left (k : κ) (w : List γ) (cs : List (List β)) :
    (cs.flatMap fun c => entryPairs (k, (c, w))) = entryPairs (k, (cs.flatten, w)) := by
  unfold entryPairs
  rw [← List.flatMap_id, List.flatMap_assoc]
  rfl

/-- Cutting the second list of an entry into pieces keeps its pairs, up to order. -/
theorem flatMap_entryPairs_right_perm (k : κ) (v : List β) :
    ∀ cs : List (List γ), (cs.flatMap fun c => entryPairs (k, (v, c))).Perm
      (entryPairs (k, (v, cs.flatten)))
  | [] => by simp [entryPairs]
  | c :: cs => by
      rw [List.flatMap_cons, List.flatten_cons]
      refine ((flatMap_entryPairs_right_perm k v cs).append_left _).trans ?_
      unfold entryPairs
      simp only [List.map_append]
      exact List.flatMap_append_perm v _ _

/-! ### The join -/

variable [DecidableEq κ]

/-- **The join of two keyed lists**: every value of `l₁` paired with every value
of `l₂` under the same key, in the order of `l₁` and then of `l₂`. -/
def joinPairs (l₁ : List (κ × β)) (l₂ : List (κ × γ)) : List (κ × (β × γ)) :=
  l₁.flatMap fun e => (valuesAt e.1 l₂).map fun w => (e.1, (e.2, w))

@[simp] theorem joinPairs_nil_left (l₂ : List (κ × γ)) : joinPairs ([] : List (κ × β)) l₂ = [] :=
  rfl

@[simp] theorem joinPairs_nil_right (l₁ : List (κ × β)) : joinPairs l₁ ([] : List (κ × γ)) = [] := by
  simp [joinPairs]

/-- The first lists stored under `k`, concatenated. -/
def firstsAt (k : κ) (l : List (κ × (List β × List γ))) : List β :=
  (valuesAt k (l.map fun e => (e.1, e.2.1))).flatten

/-- The second lists stored under `k`, concatenated. -/
def secondsAt (k : κ) (l : List (κ × (List β × List γ))) : List γ :=
  (valuesAt k (l.map fun e => (e.1, e.2.2))).flatten

/-- Two cogroup entries' lists appended side by side. -/
def appendSides (c b : List β × List γ) : List β × List γ := (c.1 ++ b.1, c.2 ++ b.2)

/-- The run fold that appends side by side keeps every first value of a key, in
order. -/
theorem firstsAt_foldRuns (k : κ) (l : List (κ × (List β × List γ))) :
    firstsAt k (foldRuns id appendSides l) = (valuesAt k (l.map fun e => (e.1, e.2.1))).flatten := by
  have hproj : (foldRuns id appendSides l).map (fun e => (e.1, e.2.1)) =
      foldRuns id (fun c b => c ++ id b) (l.map fun e => (e.1, e.2.1)) :=
    map_foldRuns id appendSides Prod.fst Prod.fst id (fun c b => c ++ id b) (fun _ => rfl)
      (fun _ _ => rfl) l
  rw [firstsAt, hproj, flatten_valuesAt_foldRuns, List.flatMap_id]

/-- The run fold that appends side by side keeps every second value of a key, in
order. -/
theorem secondsAt_foldRuns (k : κ) (l : List (κ × (List β × List γ))) :
    secondsAt k (foldRuns id appendSides l) = (valuesAt k (l.map fun e => (e.1, e.2.2))).flatten := by
  have hproj : (foldRuns id appendSides l).map (fun e => (e.1, e.2.2)) =
      foldRuns id (fun c b => c ++ id b) (l.map fun e => (e.1, e.2.2)) :=
    map_foldRuns id appendSides Prod.snd Prod.snd id (fun c b => c ++ id b) (fun _ => rfl)
      (fun _ _ => rfl) l
  rw [secondsAt, hproj, flatten_valuesAt_foldRuns, List.flatMap_id]

/-! ### Multiplicities -/

section Counts

variable [DecidableEq β] [DecidableEq γ]

theorem count_valuesAt (k : κ) (w : γ) :
    ∀ (l : List (κ × γ)), (valuesAt k l).count w = l.count (k, w)
  | [] => rfl
  | e :: l => by
      obtain ⟨k', w'⟩ := e
      rw [valuesAt_cons, List.count_cons, ← count_valuesAt k w l]
      by_cases hk : k' = k
      · subst hk
        by_cases hw : w' = w <;> simp [hw]
      · simp [hk]

/-- The pairs of one value with a list of values, all under one key. -/
theorem count_map_pair (k x : κ) (v v' : β) (w : γ) (l : List γ) :
    (l.map fun w' => (k, (v, w'))).count (x, (v', w)) =
      if k = x ∧ v = v' then l.count w else 0 := by
  induction l with
  | nil => split <;> rfl
  | cons w' l ih =>
      rw [List.map_cons, List.count_cons, ih, List.count_cons]
      by_cases h : k = x ∧ v = v'
      · obtain ⟨rfl, rfl⟩ := h
        by_cases hw : w' = w <;> simp [hw]
      · simp only [if_neg h, zero_add]
        have hne : ¬((k, (v, w')) == (x, (v', w))) = true := by
          simp only [beq_iff_eq, Prod.mk.injEq]
          exact fun h' => h ⟨h'.1, h'.2.1⟩
        simp [hne]

/-- **A pair occurs in a join** as often as its first value under its key in the
first list, times its second value under its key in the second list. -/
theorem count_joinPairs (l₂ : List (κ × γ)) (x : κ) (v : β) (w : γ) :
    ∀ (l₁ : List (κ × β)), (joinPairs l₁ l₂).count (x, (v, w)) = l₁.count (x, v) * l₂.count (x, w)
  | [] => by simp
  | e :: l₁ => by
      obtain ⟨k, v'⟩ := e
      have hcons : joinPairs ((k, v') :: l₁) l₂ =
          (valuesAt k l₂).map (fun w' => (k, (v', w'))) ++ joinPairs l₁ l₂ := rfl
      rw [hcons, List.count_append, count_map_pair, count_joinPairs l₂ x v w l₁, List.count_cons]
      by_cases h : k = x ∧ v' = v
      · obtain ⟨rfl, rfl⟩ := h
        rw [count_valuesAt]
        simp [Nat.add_mul, Nat.add_comm]
      · have hne : ¬((k, v') == (x, v)) = true := by
          simp only [beq_iff_eq, Prod.mk.injEq]
          exact h
        simp [h, hne]

theorem count_entryPairs (e : κ × (List β × List γ)) (x : κ) (v : β) (w : γ) :
    (entryPairs e).count (x, (v, w)) = if e.1 = x then e.2.1.count v * e.2.2.count w else 0 := by
  obtain ⟨k, vs, ws⟩ := e
  unfold entryPairs
  induction vs with
  | nil => split <;> simp
  | cons v' vs ih =>
      rw [List.flatMap_cons, List.count_append, count_map_pair, ih]
      by_cases hk : k = x
      · by_cases hv : v' = v
        · simp [hk, hv, Nat.add_mul, Nat.add_comm]
        · simp [hk, hv]
      · simp [hk]

/-- **A pair occurs in the cogroups** of distinct keys as often as its values
occur on the two sides of its key. -/
theorem count_groupPairs (x : κ) (v : β) (w : γ) :
    ∀ (l : List (κ × (List β × List γ))), (keys l).Nodup →
      (groupPairs l).count (x, (v, w)) = (firstsAt x l).count v * (secondsAt x l).count w
  | [], _ => by simp [firstsAt, secondsAt]
  | e :: l, hnodup => by
      rw [keys_cons, List.nodup_cons] at hnodup
      rw [groupPairs_cons, List.count_append, count_entryPairs, count_groupPairs x v w l hnodup.2]
      by_cases hk : e.1 = x
      · -- the key occurs nowhere else
        have hnot : x ∉ keys l := hk ▸ hnodup.1
        have hfst : valuesAt x (l.map fun e => (e.1, e.2.1)) = [] :=
          valuesAt_eq_nil_of_not_mem (by simpa [keys, Function.comp_def] using hnot)
        have hsnd : valuesAt x (l.map fun e => (e.1, e.2.2)) = [] :=
          valuesAt_eq_nil_of_not_mem (by simpa [keys, Function.comp_def] using hnot)
        simp [firstsAt, secondsAt, hk, hfst, hsnd]
      · simp [firstsAt, secondsAt, hk]

end Counts

/-- **Cogroups have the join's pairs**: when every key occurs once and the two
sides of every key hold, up to order, the values of `l₁` and of `l₂` under it,
the cogroups' pairs are the join's. -/
theorem groupPairs_perm_joinPairs {l : List (κ × (List β × List γ))} {l₁ : List (κ × β)}
    {l₂ : List (κ × γ)} (hnodup : (keys l).Nodup) (h₁ : ∀ k, (firstsAt k l).Perm (valuesAt k l₁))
    (h₂ : ∀ k, (secondsAt k l).Perm (valuesAt k l₂)) :
    (groupPairs l).Perm (joinPairs l₁ l₂) := by
  classical
  rw [List.perm_iff_count]
  rintro ⟨x, v, w⟩
  rw [count_groupPairs x v w l hnodup, count_joinPairs, (h₁ x).count_eq, (h₂ x).count_eq,
    count_valuesAt, count_valuesAt]

/-! ### Joins along a partition of the keys -/

/-- Joining the entries of one part of the keys gives the join's pairs of that
part. -/
theorem joinPairs_filter (q : κ → Bool) (l₁ : List (κ × β)) (l₂ : List (κ × γ)) :
    joinPairs (l₁.filter fun e => q e.1) (l₂.filter fun e => q e.1) =
      (joinPairs l₁ l₂).filter fun e => q e.1 := by
  have hcons : ∀ (e : κ × β) (l : List (κ × β)) (l' : List (κ × γ)), joinPairs (e :: l) l' =
      (valuesAt e.1 l').map (fun w => (e.1, (e.2, w))) ++ joinPairs l l' := fun _ _ _ => rfl
  induction l₁ with
  | nil => rfl
  | cons e l₁ ih =>
      -- every pair of `e` has the key of `e`
      have hkeys : ∀ x ∈ (valuesAt e.1 l₂).map (fun w => (e.1, (e.2, w))), x.1 = e.1 := by
        intro x hx
        obtain ⟨w, -, rfl⟩ := List.mem_map.mp hx
        rfl
      by_cases hq : q e.1 = true
      · rw [List.filter_cons_of_pos (p := fun e : κ × β => q e.1) hq, hcons, hcons,
          List.filter_append, ih, valuesAt_filter, if_pos hq]
        congr 1
        exact (List.filter_eq_self.mpr fun x hx => by rw [hkeys x hx]; exact hq).symm
      · have hnil : ((valuesAt e.1 l₂).map (fun w => (e.1, (e.2, w)))).filter
            (fun x => q x.1) = [] :=
          List.filter_eq_nil_iff.mpr fun x hx => by rw [hkeys x hx]; exact hq
        rw [List.filter_cons_of_neg (p := fun e : κ × β => q e.1) hq, ih, hcons, List.filter_append,
          hnil, List.nil_append]

section Parts

variable {α : Type*} [DecidableEq α] (f : α → ℕ) (l : List α)

/-- An element occurs in the parts of indices below `n` as often as in the list
when its index is below `n`, and not at all otherwise. -/
theorem count_flatMap_range_filter (x : α) :
    ∀ n, ((List.range n).flatMap fun i => l.filter fun y => f y = i).count x =
      if f x < n then l.count x else 0
  | 0 => by simp
  | n + 1 => by
      rw [List.range_succ, List.flatMap_append, List.count_append, count_flatMap_range_filter x n,
        List.flatMap_singleton]
      by_cases hx : f x = n
      · rw [List.count_filter (by simpa using hx), if_neg (by omega), if_pos (by omega), Nat.zero_add]
      · have hzero : (l.filter fun y => f y = n).count x = 0 :=
          List.count_eq_zero.mpr fun hmem => hx (by simpa using (List.mem_filter.mp hmem).2)
        rw [hzero]
        by_cases hlt : f x < n
        · rw [if_pos hlt, if_pos (by omega), Nat.add_zero]
        · rw [if_neg hlt, if_neg (by omega)]

end Parts

/-- Two disjoint parts of a list, side by side, are the part of their union. -/
theorem filter_append_filter_perm {α : Type*} (p q s : α → Bool) (l : List α)
    (hs : ∀ x, s x = (p x || q x)) (hdisj : ∀ x, p x = true → q x = false) :
    (l.filter p ++ l.filter q).Perm (l.filter s) := by
  have hp : (l.filter s).filter p = l.filter p := by
    rw [List.filter_filter]
    refine List.filter_congr fun x _ => ?_
    rw [hs x]
    cases hpx : p x <;> simp
  have hq : (l.filter s).filter (fun x => !p x) = l.filter q := by
    rw [List.filter_filter]
    refine List.filter_congr fun x _ => ?_
    rw [hs x]
    cases hpx : p x
    · simp
    · simp [hdisj x hpx]
  rw [← hp, ← hq]
  exact List.filter_append_perm p (l.filter s)

/-- A list is the concatenation of its parts along an index below `n`. -/
theorem perm_flatMap_range_filter {α : Type*} (f : α → ℕ) (n : ℕ) (l : List α)
    (hf : ∀ x ∈ l, f x < n) :
    ((List.range n).flatMap fun i => l.filter fun x => f x = i).Perm l := by
  classical
  rw [List.perm_iff_count]
  intro x
  rw [count_flatMap_range_filter]
  by_cases hx : x ∈ l
  · rw [if_pos (hf x hx)]
  · rw [List.count_eq_zero_of_not_mem hx]
    split <;> rfl

end KeyedList
