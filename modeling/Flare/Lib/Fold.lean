import Mathlib

/-!
# Folds in two levels

A fold computed piece by piece and then over the pieces' results: the elements of each
piece folded, then the results folded.  This gives the fold of the concatenation when the
operation is associative with the initial value as a two-sided identity, or, for a fold
whose result type differs from the elements', when combining a partial result with a
piece's fold is folding that piece on from the partial result.  A reduce (a fold that
starts from the first element, and gives nothing for nothing) needs associativity only.

## Main definitions

* `Folds.reduce` — `Iterator::reduce`.

## Main results

* `Folds.foldl_map_foldl` — the two-level fold with a combining function.
* `Folds.foldl_flatten_of_identity` — the two-level fold of an associative operation with
  an identity.
* `Folds.reduce_flatMap` — the two-level reduce.
* `Folds.reduce_perm` — a reduce of a commutative operation ignores the order.
* `Folds.foldl_invariant`, `Folds.foldlM_invariant` — a property kept by every step of a
  fold, pure or in `Option`, holds of its result; `Folds.foldlM_eq_some_foldl` — a fold in
  `Option` whose steps cannot fail is the pure fold.
-/

namespace Folds

universe u v

variable {α : Type u} {β : Type v}

/-- **Folding the pieces' folds.**  When `comb u (xs.foldl seq e) = xs.foldl seq u`, folding
each piece from `e` and combining the results from `u` is folding the concatenation from
`u`. -/
theorem foldl_map_foldl (seq : β → α → β) (comb : β → β → β) (e : β)
    (hcomb : ∀ (u : β) (xs : List α), comb u (xs.foldl seq e) = xs.foldl seq u) :
    ∀ (L : List (List α)) (u : β), (L.map (List.foldl seq e)).foldl comb u = L.flatten.foldl seq u
  | [], _ => rfl
  | l :: L, u => by
      rw [List.map_cons, List.foldl_cons, hcomb, foldl_map_foldl seq comb e hcomb L,
        List.flatten_cons, List.foldl_append]

section Identity

variable (op : α → α → α) (e : α) [Std.Associative op] [Std.LawfulIdentity op e]

/-- Folding from `a` is `a` combined with the fold from the identity. -/
theorem foldl_eq_op_foldl (a : α) (l : List α) : l.foldl op a = op a (l.foldl op e) := by
  have hid : op a e = a := Std.LawfulRightIdentity.right_id a
  conv_lhs => rw [← hid]
  exact List.foldl_assoc

/-- **The two-level fold of an associative operation with an identity.** -/
theorem foldl_flatten_of_identity (L : List (List α)) :
    (L.map (List.foldl op e)).foldl op e = L.flatten.foldl op e :=
  foldl_map_foldl op op e (fun u xs => (foldl_eq_op_foldl op e u xs).symm) L e

end Identity

/-! ### Reduce -/

/-- `Iterator::reduce`: the first element folded with the rest; nothing for nothing. -/
def reduce (op : α → α → α) : List α → Option α
  | [] => none
  | x :: xs => some (xs.foldl op x)

variable (op : α → α → α)

@[simp] theorem reduce_nil : reduce op [] = none := rfl

@[simp] theorem reduce_singleton (x : α) : reduce op [x] = some x := rfl

theorem reduce_eq_none_iff {l : List α} : reduce op l = none ↔ l = [] := by
  cases l <;> simp [reduce]

/-- Reducing a reduce's result gives it back. -/
@[simp] theorem reduce_toList_reduce (l : List α) : reduce op (reduce op l).toList = reduce op l := by
  cases l <;> rfl

/-- A concatenation reduces to its two parts' reduces, merged. -/
theorem reduce_append [Std.Associative op] (xs ys : List α) :
    reduce op (xs ++ ys) = Option.merge op (reduce op xs) (reduce op ys) := by
  cases xs with
  | nil => cases ys <;> rfl
  | cons x xs =>
      cases ys with
      | nil => simp [reduce]
      | cons y ys =>
          -- the fold of the second part, started from the first part's result
          simp only [reduce, List.cons_append, List.foldl_append, List.foldl_cons, Option.merge]
          rw [List.foldl_assoc]

/-- **The two-level reduce**: reducing each piece, then the pieces' results, is reducing
the concatenation; an empty piece contributes nothing. -/
theorem reduce_flatMap [Std.Associative op] (L : List (List α)) :
    reduce op (L.flatMap fun l => (reduce op l).toList) = reduce op L.flatten := by
  induction L with
  | nil => rfl
  | cons l L ih =>
      rw [List.flatMap_cons, List.flatten_cons, reduce_append, reduce_append, ih,
        reduce_toList_reduce]

/-- **A reduce of a commutative operation ignores the order** of the list. -/
theorem reduce_perm [Std.Associative op] [Std.Commutative op] {l₁ l₂ : List α} (h : l₁.Perm l₂) :
    reduce op l₁ = reduce op l₂ := by
  have hassoc : ∀ a b c : α, op (op a b) c = op a (op b c) := Std.Associative.assoc
  have hcomm : ∀ a b : α, op a b = op b a := Std.Commutative.comm
  have hright : ∀ z x y : α, op (op z x) y = op (op z y) x := fun z x y => by
    rw [hassoc, hcomm x y, ← hassoc]
  induction h with
  | nil => rfl
  | cons x h _ => exact congrArg some (h.foldl_eq' (fun a _ b _ z => hright z a b) x)
  | swap x y l =>
      -- the two first elements start the fold in either order
      simp only [reduce, List.foldl_cons, hcomm x y]
  | trans _ _ ih₁ ih₂ => exact ih₁.trans ih₂

/-- A reduce of concatenations is the concatenation of the whole list. -/
theorem eq_flatten_of_reduce_append {L : List (List α)} {c : List α}
    (h : reduce (· ++ ·) L = some c) : c = L.flatten := by
  have happend : ∀ (L : List (List α)) (acc : List α), L.foldl (· ++ ·) acc = acc ++ L.flatten := by
    intro L
    induction L with
    | nil => simp
    | cons l' L ih => intro acc; simp [ih]
  cases L with
  | nil => cases h
  | cons l L =>
      cases h
      rw [happend, List.flatten_cons]

/-! ### Invariants of folds -/

section Invariant

variable {γ : Type*} (P : β → Prop)

/-- **An invariant of a fold**: kept by every step, it holds of the result. -/
theorem foldl_invariant (f : β → γ → β) (hf : ∀ b c, P b → P (f b c)) :
    ∀ (l : List γ) (b : β), P b → P (l.foldl f b)
  | [], _, hb => hb
  | c :: l, b, hb => foldl_invariant f hf l (f b c) (hf b c hb)

/-- **An invariant of a fold in `Option`, kept by the steps of the list's elements**: it holds
of what the fold returns. -/
theorem foldlM_invariant_of_mem (f : β → γ → Option β) :
    ∀ (l : List γ), (∀ b c b', c ∈ l → P b → f b c = some b' → P b') →
      ∀ (b b' : β), P b → l.foldlM f b = some b' → P b'
  | [], _, b, b', hb, h => by
      cases h
      exact hb
  | c :: l, hf, b, b', hb, h => by
      rw [List.foldlM_cons] at h
      obtain ⟨b₁, h₁, h₂⟩ := Option.bind_eq_some_iff.mp h
      exact foldlM_invariant_of_mem f l (fun b c b' hc => hf b c b' (List.mem_cons_of_mem _ hc))
        b₁ b' (hf b c b₁ List.mem_cons_self hb h₁) h₂

/-- **An invariant of a fold in `Option`**: kept by every step that succeeds, it holds of
what the fold returns. -/
theorem foldlM_invariant (f : β → γ → Option β) (hf : ∀ b c b', P b → f b c = some b' → P b') :
    ∀ (l : List γ) (b b' : β), P b → l.foldlM f b = some b' → P b' :=
  fun l => foldlM_invariant_of_mem P f l fun b c b' _ => hf b c b'

/-- **A fold in `Option` that never fails**: when every step from a state satisfying `P`
succeeds with the value of `g`, which keeps `P`, the fold is the pure fold of `g`. -/
theorem foldlM_eq_some_foldl (f : β → γ → Option β) (g : β → γ → β)
    (hf : ∀ b c, P b → f b c = some (g b c)) (hg : ∀ b c, P b → P (g b c)) :
    ∀ (l : List γ) (b : β), P b → l.foldlM f b = some (l.foldl g b)
  | [], _, _ => rfl
  | c :: l, b, hb => by
      rw [List.foldlM_cons, hf b c hb]
      exact foldlM_eq_some_foldl f g hf hg l (g b c) (hg b c hb)

end Invariant

end Folds
