import Mathlib

/-!
# Runs of equal keys in association lists

A list of key-value pairs is read here as a sequence of *runs*: maximal blocks of
adjacent entries with the same key.  Folding every run into one entry is how a
sort-based shuffle aggregates: sort by key, then merge each entry into the last
one whenever the keys agree.  This file develops that fold and the facts a
shuffle proof needs from it.

## Main definitions

* `valuesAt k l` — the values stored under `k`, in list order.
* `runsPush init step acc e` — one step of the fold: extend the last run of `acc`
  with `e` if the keys agree, else open a new run.
* `foldRuns init step l` — the fold of the whole list.
* `bucketize idx n l` — the `n` buckets of `l` under the index function `idx`.

## Main results

* `mem_keys_foldRuns` — folding keeps exactly the keys of the input.
* `pairwise_lt_keys_foldRuns` — on a key-sorted list the fold has strictly
  increasing keys, so every key occurs once.
* `flatten_valuesAt_foldRuns` — for list-valued runs built by appending, the fold
  loses and duplicates no value.
* `bucketize_concat`, `bucketize_concat_modifyLast` — how pushing to the end of a
  list, or rewriting its last entry, acts on its buckets.

## Design notes

Every statement about the fold is proved for `l.foldl (runsPush init step) acc`
with an arbitrary accumulator, by induction on `l`.  The only facts about one step
are `runsPush_nil` and `runsPush_concat`, which split on the shape of the
accumulator; all later lemmas case on `List.eq_nil_or_concat'` and use those two.
-/

namespace KeyedList

universe u v w

variable {κ : Type u} {β : Type v} {γ : Type w}

/-! ### Keys and values -/

/-- The keys of an association list, in list order. -/
def keys (l : List (κ × β)) : List κ :=
  l.map Prod.fst

@[simp] theorem keys_nil : keys ([] : List (κ × β)) = [] := rfl

@[simp] theorem keys_cons (e : κ × β) (l : List (κ × β)) :
    keys (e :: l) = e.1 :: keys l := rfl

@[simp] theorem keys_append (l₁ l₂ : List (κ × β)) :
    keys (l₁ ++ l₂) = keys l₁ ++ keys l₂ := by
  simp [keys]

section Values

variable [DecidableEq κ]

/-- The values stored under key `k`, in list order. -/
def valuesAt (k : κ) (l : List (κ × β)) : List β :=
  (l.filter fun e => e.1 = k).map Prod.snd

@[simp] theorem valuesAt_nil (k : κ) : valuesAt k ([] : List (κ × β)) = [] := rfl

@[simp] theorem valuesAt_cons (k : κ) (e : κ × β) (l : List (κ × β)) :
    valuesAt k (e :: l) = if e.1 = k then e.2 :: valuesAt k l else valuesAt k l := by
  by_cases h : e.1 = k <;> simp [valuesAt, h]

@[simp] theorem valuesAt_append (k : κ) (l₁ l₂ : List (κ × β)) :
    valuesAt k (l₁ ++ l₂) = valuesAt k l₁ ++ valuesAt k l₂ := by
  simp [valuesAt, List.filter_append]

/-- A key that does not occur has no values. -/
theorem valuesAt_eq_nil_of_not_mem {k : κ} {l : List (κ × β)} (h : k ∉ keys l) :
    valuesAt k l = [] := by
  induction l with
  | nil => rfl
  | cons e l ih =>
      simp only [keys_cons, List.mem_cons, not_or] at h
      simp [Ne.symm h.1, ih h.2]

/-- Permuting the entries permutes the values of every key. -/
theorem Perm.valuesAt {l₁ l₂ : List (κ × β)} (h : l₁.Perm l₂) (k : κ) :
    (valuesAt k l₁).Perm (valuesAt k l₂) :=
  (h.filter _).map _

/-- Restricting to the entries whose key satisfies `p` keeps the values of the
keys that do, and drops the others. -/
theorem valuesAt_filter (p : κ → Bool) (k : κ) (l : List (κ × β)) :
    valuesAt k (l.filter fun e => p e.1) = if p k then valuesAt k l else [] := by
  induction l with
  | nil => split <;> rfl
  | cons e l ih =>
      by_cases hk : e.1 = k
      · subst hk
        by_cases hp : p e.1 <;> simp [hp, ih]
      · by_cases hp : p e.1 <;> simp [hp, hk, ih]

/-- In a list whose keys are pairwise distinct, the entry of a key carries all
of that key's values. -/
theorem valuesAt_eq_singleton {l : List (κ × β)} (hnodup : (keys l).Nodup)
    {k : κ} {b : β} (hmem : (k, b) ∈ l) : valuesAt k l = [b] := by
  induction l with
  | nil => simp at hmem
  | cons e l ih =>
      simp only [keys_cons, List.nodup_cons] at hnodup
      rcases List.mem_cons.mp hmem with heq | hmem
      · subst heq
        have hfresh : valuesAt k l = [] := valuesAt_eq_nil_of_not_mem hnodup.1
        simp [hfresh]
      · have hne : e.1 ≠ k := by
          rintro rfl
          exact hnodup.1 (List.mem_map.mpr ⟨_, hmem, rfl⟩)
        simp [hne, ih hnodup.2 hmem]

end Values

/-! ### One step of the run fold -/

section Runs

variable [DecidableEq κ]

/-- **One step of the run fold.**  An entry whose key equals the key of the last
entry of `acc` is folded into that entry with `step`; any other entry opens a
new run, its value turned into an accumulator by `init`. -/
def runsPush (init : β → γ) (step : γ → β → γ) (acc : List (κ × γ)) (e : κ × β) :
    List (κ × γ) :=
  match acc.getLast? with
  | some last =>
      if last.1 = e.1 then acc.modifyLast (fun p => (p.1, step p.2 e.2))
      else acc ++ [(e.1, init e.2)]
  | none => acc ++ [(e.1, init e.2)]

/-- **The run fold** of a whole list, from no runs. -/
def foldRuns (init : β → γ) (step : γ → β → γ) (l : List (κ × β)) : List (κ × γ) :=
  l.foldl (runsPush init step) []

variable (init : β → γ) (step : γ → β → γ)

@[simp] theorem runsPush_nil (e : κ × β) :
    runsPush init step [] e = [(e.1, init e.2)] := rfl

theorem runsPush_concat (acc : List (κ × γ)) (last : κ × γ) (e : κ × β) :
    runsPush init step (acc ++ [last]) e =
      if last.1 = e.1 then acc ++ [(last.1, step last.2 e.2)]
      else acc ++ [last, (e.1, init e.2)] := by
  simp [runsPush, List.modifyLast_concat]

/-- An entry whose key is not the last key opens a new run. -/
theorem runsPush_of_getLast?_ne (acc : List (κ × γ)) (e : κ × β)
    (hne : (keys acc).getLast? ≠ some e.1) :
    runsPush init step acc e = acc ++ [(e.1, init e.2)] := by
  rcases List.eq_nil_or_concat' acc with rfl | ⟨acc, last, rfl⟩
  · rfl
  · have hlast : last.1 ≠ e.1 := by
      intro heq
      apply hne
      simp [keys, List.getLast?_map, heq]
    rw [runsPush_concat, if_neg hlast]
    simp

@[simp] theorem foldRuns_nil : foldRuns init step ([] : List (κ × β)) = [] := rfl

/-- The keys after one step: unchanged when the entry extends the last run,
else the new key appended. -/
theorem keys_runsPush (acc : List (κ × γ)) (e : κ × β) :
    keys (runsPush init step acc e) =
      if (keys acc).getLast? = some e.1 then keys acc else keys acc ++ [e.1] := by
  rcases List.eq_nil_or_concat' acc with rfl | ⟨acc, last, rfl⟩
  · simp
  · rw [runsPush_concat]
    by_cases h : last.1 = e.1 <;> simp [h, keys, List.getLast?_map]

/-- Keys of the fold, from any accumulator. -/
theorem mem_keys_foldl_runsPush (k : κ) :
    ∀ (l : List (κ × β)) (acc : List (κ × γ)),
      k ∈ keys (l.foldl (runsPush init step) acc) ↔ k ∈ keys acc ∨ k ∈ keys l := by
  intro l
  induction l with
  | nil => simp
  | cons e l ih =>
      intro acc
      rw [List.foldl_cons, ih, keys_runsPush]
      split
      · rename_i hlast
        have hmem : e.1 ∈ keys acc := List.mem_of_getLast? hlast
        simp only [keys_cons, List.mem_cons]
        constructor
        · rintro (hacc | hl)
          · exact Or.inl hacc
          · exact Or.inr (Or.inr hl)
        · rintro (hacc | rfl | hl)
          · exact Or.inl hacc
          · exact Or.inl hmem
          · exact Or.inr hl
      · simp [or_assoc]

/-- **The fold keeps exactly the keys of its input.** -/
theorem mem_keys_foldRuns (k : κ) (l : List (κ × β)) :
    k ∈ keys (foldRuns init step l) ↔ k ∈ keys l := by
  simp [foldRuns, mem_keys_foldl_runsPush]

/-! ### Projections of the fold -/

section Map

variable {β' : Type*} {γ' : Type*} (f : γ → γ') (h : β → β') (init' : β' → γ')
  (step' : γ' → β' → γ') (hinit : ∀ b, f (init b) = init' (h b))
  (hstep : ∀ c b, f (step c b) = step' (f c) (h b))

include hinit hstep

theorem map_runsPush (acc : List (κ × γ)) (e : κ × β) :
    (runsPush init step acc e).map (fun x => (x.1, f x.2)) =
      runsPush init' step' (acc.map fun x => (x.1, f x.2)) (e.1, h e.2) := by
  rcases List.eq_nil_or_concat' acc with rfl | ⟨acc, last, rfl⟩
  · simp [hinit]
  · rw [runsPush_concat, List.map_append, List.map_singleton, runsPush_concat]
    by_cases hl : last.1 = e.1 <;> simp [hl, hinit, hstep]

/-- **A projection that commutes with `init` and `step` commutes with the fold.** -/
theorem map_foldRuns (l : List (κ × β)) :
    (foldRuns init step l).map (fun x => (x.1, f x.2)) =
      foldRuns init' step' (l.map fun x => (x.1, h x.2)) := by
  suffices hacc : ∀ acc : List (κ × γ),
      (l.foldl (runsPush init step) acc).map (fun x => (x.1, f x.2)) =
        (l.map fun x => (x.1, h x.2)).foldl (runsPush init' step') (acc.map fun x => (x.1, f x.2)) from
    hacc []
  induction l with
  | nil => intro acc; rfl
  | cons e l ih =>
      intro acc
      rw [List.foldl_cons, ih, List.map_cons, List.foldl_cons,
        map_runsPush init step f h init' step' hinit hstep]

end Map

end Runs

/-! ### Sorted input, strictly sorted output -/

section Sorted

variable [LinearOrder κ] (init : β → γ) (step : γ → β → γ)

/-- The last key of a strictly increasing key list bounds all of its keys. -/
theorem le_of_getLast?_of_pairwise_lt {ks : List κ} (hks : ks.Pairwise (· < ·))
    {last : κ} (hlast : ks.getLast? = some last) : ∀ a ∈ ks, a ≤ last := by
  rcases List.eq_nil_or_concat' ks with rfl | ⟨ks, b, rfl⟩
  · simp at hlast
  · simp only [List.getLast?_concat, Option.some.injEq] at hlast
    subst hlast
    intro a ha
    rcases List.mem_append.mp ha with ha | ha
    · exact le_of_lt (List.pairwise_append.mp hks |>.2.2 a ha _ (by simp))
    · simp at ha
      exact ha.le

/-- In a strictly increasing list bounded by `k`, the key `k`, when present, is
the last one. -/
theorem getLast?_eq_of_mem_of_pairwise_lt {ks : List κ} (hks : ks.Pairwise (· < ·))
    {k : κ} (hle : ∀ a ∈ ks, a ≤ k) (hk : k ∈ ks) : ks.getLast? = some k := by
  rcases List.eq_nil_or_concat' ks with rfl | ⟨ks, last, rfl⟩
  · simp at hk
  · rw [List.getLast?_concat]
    rcases List.mem_append.mp hk with hk | hk
    · -- an earlier `k` would sit below the last key, which is at most `k`
      have hlt : k < last := List.pairwise_append.mp hks |>.2.2 k hk last (by simp)
      exact absurd (hle last (by simp)) (not_le.mpr hlt)
    · simp at hk
      rw [hk]

/-- **Invariant of the fold on sorted input**: the accumulator stays strictly
sorted and below every key still to come. -/
theorem pairwise_lt_keys_foldl_runsPush :
    ∀ (l : List (κ × β)) (acc : List (κ × γ)),
      (keys acc).Pairwise (· < ·) →
      (∀ a ∈ keys acc, ∀ b ∈ keys l, a ≤ b) →
      (keys l).Pairwise (· ≤ ·) →
      (keys (l.foldl (runsPush init step) acc)).Pairwise (· < ·) := by
  intro l
  induction l with
  | nil => intro acc hacc _ _; simpa using hacc
  | cons e l ih =>
      intro acc hacc hbelow hsorted
      simp only [keys_cons, List.pairwise_cons] at hsorted
      rw [List.foldl_cons]
      have hbelow_e : ∀ a ∈ keys acc, a ≤ e.1 := fun a ha => hbelow a ha e.1 (by simp)
      apply ih _ _ _ hsorted.2
      · -- the new accumulator is still strictly sorted
        rw [keys_runsPush]
        split
        · exact hacc
        · rename_i hlast
          refine List.pairwise_append.mpr ⟨hacc, by simp, ?_⟩
          intro a ha b hb
          simp only [List.mem_singleton] at hb
          subst hb
          cases hget : (keys acc).getLast? with
          | none => simp_all
          | some last =>
              have hle : a ≤ last := le_of_getLast?_of_pairwise_lt hacc hget a ha
              have hlt : last < e.1 :=
                lt_of_le_of_ne (hbelow_e last (List.mem_of_getLast? hget))
                  (fun heq => hlast (by rw [hget, heq]))
              exact lt_of_le_of_lt hle hlt
      · -- and below every key still to come
        intro a ha b hb
        rw [keys_runsPush] at ha
        have hab : a ∈ keys acc ∨ a = e.1 := by
          split at ha
          · exact Or.inl ha
          · simpa using ha
        rcases hab with ha | rfl
        · exact hbelow a ha b (by simp [hb])
        · exact hsorted.1 b hb

/-- **On key-sorted input the fold has strictly increasing keys.** -/
theorem pairwise_lt_keys_foldRuns {l : List (κ × β)} (hsorted : (keys l).Pairwise (· ≤ ·)) :
    (keys (foldRuns init step l)).Pairwise (· < ·) :=
  pairwise_lt_keys_foldl_runsPush init step l [] (by simp) (by simp) hsorted

end Sorted

/-! ### Appending runs lose no value -/

section Append

variable [DecidableEq κ] {δ : Type w} (g : β → List δ)

/-- Values after one appending step. -/
theorem flatten_valuesAt_runsPush (k : κ) (acc : List (κ × List δ)) (e : κ × β) :
    (valuesAt k (runsPush g (fun c b => c ++ g b) acc e)).flatten =
      (valuesAt k acc).flatten ++ (if e.1 = k then g e.2 else []) := by
  rcases List.eq_nil_or_concat' acc with rfl | ⟨acc, last, rfl⟩
  · by_cases h : e.1 = k <;> simp [h]
  · rw [runsPush_concat]
    by_cases hl : last.1 = e.1
    · by_cases h : e.1 = k <;> simp [hl, h]
    · by_cases h : e.1 = k
      · have hlk : last.1 ≠ k := h ▸ hl
        simp [h, hlk]
      · simp [hl, h]

/-- **Appending runs lose and duplicate no value**: the values of every key,
flattened, are the images under `g` of that key's input values. -/
theorem flatten_valuesAt_foldRuns (k : κ) (l : List (κ × β)) :
    (valuesAt k (foldRuns g (fun c b => c ++ g b) l)).flatten = (valuesAt k l).flatMap g := by
  suffices h : ∀ acc : List (κ × List δ),
      (valuesAt k (l.foldl (runsPush g (fun c b => c ++ g b)) acc)).flatten =
        (valuesAt k acc).flatten ++ (valuesAt k l).flatMap g by
    simpa [foldRuns] using h []
  induction l with
  | nil => intro acc; simp
  | cons e l ih =>
      intro acc
      rw [List.foldl_cons, ih, flatten_valuesAt_runsPush]
      by_cases h : e.1 = k <;> simp [h]

end Append

/-! ### Buckets -/

section Buckets

/-- **The `n` buckets of a list** under the index function `idx`: bucket `b`
holds, in order, the entries whose key has index `b`. -/
def bucketize (idx : κ → ℕ) (n : ℕ) (l : List (κ × β)) : List (List (κ × β)) :=
  (List.range n).map fun b => l.filter fun e => idx e.1 = b

variable (idx : κ → ℕ) (n : ℕ)

@[simp] theorem length_bucketize (l : List (κ × β)) : (bucketize idx n l).length = n := by
  simp [bucketize]

theorem getElem_bucketize (l : List (κ × β)) (b : ℕ) (h : b < (bucketize idx n l).length) :
    (bucketize idx n l)[b] = l.filter fun e => idx e.1 = b := by
  simp [bucketize]

@[simp] theorem bucketize_nil : bucketize idx n ([] : List (κ × β)) = List.replicate n [] := by
  simp [bucketize, List.map_const']

/-- Pushing an entry to the list pushes it to the end of its bucket. -/
theorem bucketize_concat (l : List (κ × β)) (e : κ × β) :
    bucketize idx n (l ++ [e]) = (bucketize idx n l).modify (idx e.1) (· ++ [e]) := by
  apply List.ext_getElem (by simp)
  intro b h₁ h₂
  rw [List.getElem_modify, getElem_bucketize, getElem_bucketize, List.filter_append]
  by_cases hb : idx e.1 = b <;> simp [hb]

/-- Rewriting the last entry of the list, keeping its key, rewrites the last
entry of its bucket. -/
theorem bucketize_concat_modifyLast (l : List (κ × β)) (last : κ × β) (f : κ × β → κ × β)
    (hf : (f last).1 = last.1) :
    bucketize idx n (l ++ [f last]) =
      (bucketize idx n (l ++ [last])).modify (idx last.1) (List.modifyLast f) := by
  apply List.ext_getElem (by simp)
  intro b h₁ h₂
  rw [List.getElem_modify, getElem_bucketize, getElem_bucketize, List.filter_append,
    List.filter_append]
  by_cases hb : idx last.1 = b
  · simp [hb, hf, List.modifyLast_concat]
  · simp [hb, hf]

/-- In a strictly key-sorted list bounded by `k`, the last entry of `k`'s bucket
has key `k` exactly when the last entry of the list has. -/
theorem bucketize_getLast?_key_iff [LinearOrder κ] {acc : List (κ × β)} {k : κ}
    (hk : idx k < n) (hsorted : (keys acc).Pairwise (· < ·)) (hle : ∀ a ∈ keys acc, a ≤ k) :
    ((bucketize idx n acc).getD (idx k) []).getLast?.map Prod.fst = some k ↔
      (keys acc).getLast? = some k := by
  rw [List.getD_eq_getElem _ _ (by simpa using hk), getElem_bucketize]
  constructor
  · intro hbucket
    obtain ⟨e, he, hek⟩ := Option.map_eq_some_iff.mp hbucket
    have hmem : e ∈ acc := (List.mem_filter.mp (List.mem_of_getLast? he)).1
    apply getLast?_eq_of_mem_of_pairwise_lt hsorted hle
    exact hek ▸ List.mem_map_of_mem hmem
  · intro hlast
    rcases List.eq_nil_or_concat' acc with rfl | ⟨pre, x, rfl⟩
    · simp at hlast
    · have hx : x.1 = k := by simpa [keys, List.getLast?_map] using hlast
      simp [List.filter_append, hx]

end Buckets

end KeyedList
