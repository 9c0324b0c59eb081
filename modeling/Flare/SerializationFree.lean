import Mathlib

/-!
# The serialization-free copy of results out of the enclave

To move a result out of the enclave without serializing it, FLARE copies its
shape first (`serialization_free.rs`, duplicated in the enclave and the framework
crate): the enclave's `send` records, in traversal order, the length of every
`Vec` and `String` in `vec_buf` and the `Some`/`None` tag of some `Option`s in
`op_buf`; the framework's `recv` allocates a value of that shape; the enclave's
`clone_in_place` then copies the data into it (`get_encrypted_data`,
`step0_of_clone`, `step1_of_clone`).

## Main definitions

* `Shape` — the types `Construct` is implemented for, with their values
  `Shape.Val` and `Default` values `Shape.default`.
* `send`, `recv`, `needRecursive`, `cloneInPlace` — the four traversals.
* `received` — what `recv` rebuilds from a sketch, and `sameSketch`, the shape a
  sketch carries.

## Main results

* `recv_send` — read back from any buffer that holds what `send` wrote, `recv`
  rebuilds `received t v` and stops where `send` stopped.
* `sketch_round_trip` — the whole copy: `recv` consumes the slots `send` wrote,
  the allocated value has the sketch's shape, and `clone_in_place` makes it `v`.

## Design notes

The generic `impl<T: Default + Clone>` covers the leaves, modelled by `ℕ`; a
`String` is a leaf with a length.  The impls for 3- and 4-tuples run their
components in order exactly as nested pairs do, so `Shape.triple` and
`Shape.quad` are nested pairs.  The buffers are unbounded: a `SizeBuf` is modelled as large
enough for the value it records.
-/

namespace Flare

namespace SerializationFree

/-- The types with a `Construct` impl. -/
inductive Shape
  | leaf
  | string
  | vec (t : Shape)
  | option (t : Shape)
  | box (t : Shape)
  | pair (a b : Shape)
deriving DecidableEq, Repr

/-- `(A, B, C)`: its impl runs the three components in order. -/
def Shape.triple (a b c : Shape) : Shape := .pair a (.pair b c)

/-- `(A, B, C, D)`: its impl runs the four components in order. -/
def Shape.quad (a b c d : Shape) : Shape := .pair a (.pair b (.pair c d))

/-- The values of each shape. -/
@[reducible] def Shape.Val : Shape → Type
  | .leaf => ℕ
  | .string => String
  | .vec t => List t.Val
  | .option t => Option t.Val
  | .box t => t.Val
  | .pair a b => a.Val × b.Val

/-- `Default::default()` at each shape. -/
def Shape.default : (t : Shape) → t.Val
  | .leaf => (0 : ℕ)
  | .string => ""
  | .vec _ => ([] : List _)
  | .option _ => (none : Option _)
  | .box t => t.default
  | .pair a b => (a.default, b.default)

/-- `need_recursive`: a `Vec` or `String` always, an `Option` or `Box` when a
`Default` probe of its payload does, a tuple when one component does. -/
def needRecursive : (t : Shape) → t.Val → Bool
  | .leaf, _ => false
  | .string, _ => true
  | .vec _, _ => true
  | .option t, _ => needRecursive t t.default
  | .box t, _ => needRecursive t t.default
  | .pair a b, (x, y) => needRecursive a x || needRecursive b y

/-- The answer of `need_recursive` depends on the type only. -/
theorem needRecursive_eq_default : ∀ (t : Shape) (v : t.Val),
    needRecursive t v = needRecursive t t.default
  | .leaf, _ => rfl
  | .string, _ => rfl
  | .vec _, _ => rfl
  | .option _, _ => rfl
  | .box _, _ => rfl
  | .pair a b, (x, y) => by
      simp only [needRecursive, Shape.default, needRecursive_eq_default a x,
        needRecursive_eq_default b y]

/-! ### The sketch buffers -/

/-- `SizeBuf`: the recorded lengths and tags, as large as needed. -/
structure SizeBuf where
  vecBuf : ℕ → ℕ
  opBuf : ℕ → Bool

/-- `SizeBuf::new`: zeros and `false`s. -/
def SizeBuf.new : SizeBuf := ⟨fun _ => 0, fun _ => false⟩

/-- `Idx`: the cursors into the two buffers, advanced before each write. -/
structure Idx where
  vecIdx : ℕ
  opIdx : ℕ
deriving DecidableEq, Repr

/-- `Idx::new`. -/
def Idx.new : Idx := ⟨0, 0⟩

/-- `send` (enclave `serialization_free.rs`:70-306): the sketch of a value. -/
def send : (t : Shape) → t.Val → SizeBuf → Idx → SizeBuf × Idx
  | .leaf, _, buf, idx => (buf, idx)
  | .string, s, buf, idx =>
      let idx := { idx with vecIdx := idx.vecIdx + 1 }
      ({ buf with vecBuf := Function.update buf.vecBuf idx.vecIdx s.utf8ByteSize }, idx)
  | .vec t, xs, buf, idx =>
      let idx := { idx with vecIdx := idx.vecIdx + 1 }
      let buf := { buf with vecBuf := Function.update buf.vecBuf idx.vecIdx xs.length }
      if needRecursive t t.default then
        xs.foldl (fun acc x => send t x acc.1 acc.2) (buf, idx)
      else (buf, idx)
  | .option t, v, buf, idx =>
      if !needRecursive t t.default then (buf, idx)
      else
        let idx := { idx with opIdx := idx.opIdx + 1 }
        match v with
        | some x => send t x { buf with opBuf := Function.update buf.opBuf idx.opIdx true } idx
        | none => ({ buf with opBuf := Function.update buf.opBuf idx.opIdx false }, idx)
  | .box t, v, buf, idx => send t v buf idx
  | .pair a b, (x, y), buf, idx =>
      let (buf, idx) := send a x buf idx
      send b y buf idx

/-- `Vec::resize_with(len, Default::default)`. -/
def resizeWith {α : Type} (len : ℕ) (d : α) (l : List α) : List α :=
  l.take len ++ List.replicate (len - l.length) d

/-- `recv` (framework `serialization_free.rs`:80-438): the value is rebuilt from
the sketch in place; a `String` is allocated empty with the recorded capacity,
and an `Option` whose tag is `false` is left as it is. -/
def recv : (t : Shape) → t.Val → SizeBuf → Idx → t.Val × Idx
  | .leaf, w, _, idx => (w, idx)
  | .string, _, _, idx => ("", { idx with vecIdx := idx.vecIdx + 1 })
  | .vec t, ws, buf, idx =>
      let idx := { idx with vecIdx := idx.vecIdx + 1 }
      let ws := resizeWith (buf.vecBuf idx.vecIdx) t.default ws
      if needRecursive t t.default then
        ws.foldl (fun (acc : List t.Val × Idx) w => let r := recv t w buf acc.2; (acc.1 ++ [r.1], r.2))
          ([], idx)
      else (ws, idx)
  | .option t, w, buf, idx =>
      if !needRecursive (.option t) w then (w, idx)
      else
        let idx := { idx with opIdx := idx.opIdx + 1 }
        if buf.opBuf idx.opIdx then
          let r := recv t t.default buf idx
          (some r.1, r.2)
        else (w, idx)
  | .box t, w, buf, idx => recv t w buf idx
  | .pair a b, (x, y), buf, idx =>
      let (x, idx) := recv a x buf idx
      let (y, idx) := recv b y buf idx
      ((x, y), idx)

/-- `clone_in_place` (enclave copy): the data of `other` copied into `self`
along `self`'s shape.  `none` is a panic: `other.as_ref().unwrap()` on a `None`,
or `other[idx]` past the end of a shorter `Vec`. -/
def cloneInPlace : (t : Shape) → t.Val → t.Val → Option t.Val
  | .leaf, _, other => some other
  | .string, _, other => some other
  | .vec t, ws, other =>
      if needRecursive t t.default && t != .string then
        if ws.length ≤ other.length then (ws.zip other).mapM fun p => cloneInPlace t p.1 p.2
        else none
      else some other
  | .option t, w, other =>
      if needRecursive t t.default then
        match w, other with
        | some x, some y => (cloneInPlace t x y).map some
        | some _, none => none
        | none, _ => some none
      else some other
  | .box t, w, other => if needRecursive t t.default then cloneInPlace t w other else some other
  | .pair a b, (x, y), (x', y') =>
      (cloneInPlace a x x').bind fun x => (cloneInPlace b y y').map fun y => (x, y)

/-! ### What crosses the boundary -/

/-- The value `recv` rebuilds from the sketch of `v`: every `Vec` with `v`'s
length, every `Option` whose payload needs recursion with `v`'s tag; the rest
(leaf data, `String` contents, `Option`s whose payload needs none) is left at
its `Default`. -/
def received : (t : Shape) → t.Val → t.Val
  | .leaf, _ => Shape.default .leaf
  | .string, _ => ""
  | .vec t, xs =>
      if needRecursive t t.default then xs.map (received t) else List.replicate xs.length t.default
  | .option t, v => if needRecursive t t.default then v.map (received t) else none
  | .box t, v => received t v
  | .pair a b, (x, y) => (received a x, received b y)

/-- The shape a sketch carries: `w` and `v` agree on the length of every `Vec`
and on the tag of every `Option` whose payload needs recursion. -/
def sameSketch : (t : Shape) → t.Val → t.Val → Bool
  | .leaf, _, _ => true
  | .string, _, _ => true
  | .vec t, ws, vs => ws.length == vs.length && (ws.zip vs).all fun p => sameSketch t p.1 p.2
  | .option t, w, v =>
      if needRecursive t t.default then
        match w, v with
        | some x, some y => sameSketch t x y
        | none, none => true
        | _, _ => false
      else true
  | .box t, w, v => sameSketch t w v
  | .pair a b, (x, y), (x', y') => sameSketch a x x' && sameSketch b y y'

/-! ### Cursors only move forward -/

/-- A later state of the sketch: both cursors have moved forward, and nothing at
or below the earlier cursors was rewritten. -/
structure Extends (s s' : SizeBuf × Idx) : Prop where
  vec_le : s.2.vecIdx ≤ s'.2.vecIdx
  op_le : s.2.opIdx ≤ s'.2.opIdx
  vec_eq : ∀ k ≤ s.2.vecIdx, s'.1.vecBuf k = s.1.vecBuf k
  op_eq : ∀ k ≤ s.2.opIdx, s'.1.opBuf k = s.1.opBuf k

theorem Extends.refl (s : SizeBuf × Idx) : Extends s s :=
  ⟨le_rfl, le_rfl, fun _ _ => rfl, fun _ _ => rfl⟩

theorem Extends.trans {s₁ s₂ s₃ : SizeBuf × Idx} (h₁ : Extends s₁ s₂) (h₂ : Extends s₂ s₃) :
    Extends s₁ s₃ where
  vec_le := h₁.vec_le.trans h₂.vec_le
  op_le := h₁.op_le.trans h₂.op_le
  vec_eq k hk := (h₂.vec_eq k (hk.trans h₁.vec_le)).trans (h₁.vec_eq k hk)
  op_eq k hk := (h₂.op_eq k (hk.trans h₁.op_le)).trans (h₁.op_eq k hk)

/-- Steps that each move the sketch forward move it forward over a whole list. -/
theorem extends_foldl {α : Type} (f : SizeBuf × Idx → α → SizeBuf × Idx)
    (hf : ∀ s x, Extends s (f s x)) : ∀ (xs : List α) (s : SizeBuf × Idx), Extends s (xs.foldl f s)
  | [], s => Extends.refl s
  | x :: xs, s => (hf s x).trans (extends_foldl f hf xs (f s x))

/-- Recording a length in the next `vec_buf` slot moves the sketch forward. -/
theorem extends_setVec (buf : SizeBuf) (idx : Idx) (n : ℕ) :
    Extends (buf, idx) ({ buf with vecBuf := Function.update buf.vecBuf (idx.vecIdx + 1) n },
      { idx with vecIdx := idx.vecIdx + 1 }) where
  vec_le := Nat.le_succ _
  op_le := le_rfl
  vec_eq _ hk := Function.update_of_ne (Nat.ne_of_lt (Nat.lt_succ_of_le hk)) _ _
  op_eq _ _ := rfl

/-- Recording a tag in the next `op_buf` slot moves the sketch forward. -/
theorem extends_setOp (buf : SizeBuf) (idx : Idx) (b : Bool) :
    Extends (buf, idx) ({ buf with opBuf := Function.update buf.opBuf (idx.opIdx + 1) b },
      { idx with opIdx := idx.opIdx + 1 }) where
  vec_le := le_rfl
  op_le := Nat.le_succ _
  vec_eq _ _ := rfl
  op_eq _ hk := Function.update_of_ne (Nat.ne_of_lt (Nat.lt_succ_of_le hk)) _ _

/-- `send` only writes past its starting cursors. -/
theorem extends_send : ∀ (t : Shape) (v : t.Val) (buf : SizeBuf) (idx : Idx),
    Extends (buf, idx) (send t v buf idx)
  | .leaf, _, buf, idx => Extends.refl _
  | .string, s, buf, idx => extends_setVec buf idx _
  | .vec t, xs, buf, idx => by
      unfold send
      split
      · exact (extends_setVec buf idx _).trans
          (extends_foldl _ (fun s x => extends_send t x s.1 s.2) xs _)
      · exact extends_setVec buf idx _
  | .option t, v, buf, idx => by
      unfold send
      split
      · exact Extends.refl _
      · cases v with
        | some x => exact (extends_setOp buf idx true).trans (extends_send t x _ _)
        | none => exact extends_setOp buf idx false
  | .box t, v, buf, idx => extends_send t v buf idx
  | .pair a b, (x, y), buf, idx =>
      (extends_send a x buf idx).trans (extends_send b y _ _)

/-! ### Reading the sketch back -/

/-- A buffer `B` holds what was written between two states of the sketch. -/
def AgreeOn (B : SizeBuf) (s s' : SizeBuf × Idx) : Prop :=
  (∀ k, s.2.vecIdx < k → k ≤ s'.2.vecIdx → B.vecBuf k = s'.1.vecBuf k) ∧
    (∀ k, s.2.opIdx < k → k ≤ s'.2.opIdx → B.opBuf k = s'.1.opBuf k)

/-- What was written up to an intermediate state is still there at the end. -/
theorem AgreeOn.left {B : SizeBuf} {s₀ s₁ s₂ : SizeBuf × Idx} (h : AgreeOn B s₀ s₂)
    (h₁₂ : Extends s₁ s₂) : AgreeOn B s₀ s₁ :=
  ⟨fun k hlo hhi => (h.1 k hlo (hhi.trans h₁₂.vec_le)).trans (h₁₂.vec_eq k hhi),
    fun k hlo hhi => (h.2 k hlo (hhi.trans h₁₂.op_le)).trans (h₁₂.op_eq k hhi)⟩

/-- What was written after an intermediate state. -/
theorem AgreeOn.right {B : SizeBuf} {s₀ s₁ s₂ : SizeBuf × Idx} (h : AgreeOn B s₀ s₂)
    (h₀₁ : Extends s₀ s₁) : AgreeOn B s₁ s₂ :=
  ⟨fun k hlo hhi => h.1 k (lt_of_le_of_lt h₀₁.vec_le hlo) hhi,
    fun k hlo hhi => h.2 k (lt_of_le_of_lt h₀₁.op_le hlo) hhi⟩

theorem resizeWith_nil {α : Type} (len : ℕ) (d : α) : resizeWith len d [] = List.replicate len d := by
  simp [resizeWith]

section ReadBack

variable (B : SizeBuf)

/-- The elements of a `Vec`, read back one after the other from fresh defaults,
given that each element alone reads back. -/
theorem recv_foldl_send (t : Shape)
    (ih : ∀ (v : t.Val) (buf : SizeBuf) (idx : Idx), AgreeOn B (buf, idx) (send t v buf idx) →
      recv t t.default B idx = (received t v, (send t v buf idx).2)) :
    ∀ (xs : List t.Val) (s : SizeBuf × Idx) (acc : List t.Val),
      AgreeOn B s (xs.foldl (fun acc x => send t x acc.1 acc.2) s) →
      (List.replicate xs.length t.default).foldl
          (fun (acc : List t.Val × Idx) w => let r := recv t w B acc.2; (acc.1 ++ [r.1], r.2)) (acc, s.2) =
        (acc ++ xs.map (received t), (xs.foldl (fun acc x => send t x acc.1 acc.2) s).2)
  | [], s, acc, _ => by simp
  | x :: xs, s, acc, h => by
      -- the first element reads back from what it wrote; the rest from what follows
      have hrest := extends_foldl (fun acc x => send t x acc.1 acc.2)
        (fun s x => extends_send t x s.1 s.2) xs (send t x s.1 s.2)
      have hx := ih x s.1 s.2 (h.left hrest)
      simp only [List.length_cons, List.replicate_succ, List.foldl_cons, List.map_cons]
      rw [hx, recv_foldl_send t ih xs _ (acc ++ [received t x]) (h.right (extends_send t x s.1 s.2)),
        List.append_assoc, List.singleton_append]

/-- **Reading back the sketch.**  From any buffer that holds what `send t v`
wrote, `recv` on a `Default` value rebuilds `received t v` and leaves its
cursors where `send` left its own. -/
theorem recv_send : ∀ (t : Shape) (v : t.Val) (buf : SizeBuf) (idx : Idx),
    AgreeOn B (buf, idx) (send t v buf idx) →
      recv t t.default B idx = (received t v, (send t v buf idx).2)
  | .leaf, _, _, _, _ => rfl
  | .string, _, _, _, _ => rfl
  | .vec t, xs, buf, idx, h => by
      -- the sketch of a `Vec`: its length in the next slot, then its elements
      set header : SizeBuf × Idx :=
        ({ buf with vecBuf := Function.update buf.vecBuf (idx.vecIdx + 1) xs.length },
          { idx with vecIdx := idx.vecIdx + 1 })
      have hsend : send (.vec t) xs buf idx = if needRecursive t t.default then
          xs.foldl (fun acc x => send t x acc.1 acc.2) header else header := rfl
      have hrecv : recv (.vec t) (Shape.default (.vec t)) B idx = if needRecursive t t.default then
          (resizeWith (B.vecBuf (idx.vecIdx + 1)) t.default []).foldl
            (fun (acc : List t.Val × Idx) w => let r := recv t w B acc.2; (acc.1 ++ [r.1], r.2))
            ([], header.2)
          else (resizeWith (B.vecBuf (idx.vecIdx + 1)) t.default [], header.2) := rfl
      have hfold := extends_foldl (fun acc x => send t x acc.1 acc.2)
        (fun s x => extends_send t x s.1 s.2) xs header
      rw [hsend] at h ⊢
      rw [hrecv]
      -- the length slot is read before the elements
      have hlen : B.vecBuf (idx.vecIdx + 1) = xs.length := by
        split at h
        · rw [h.1 _ (Nat.lt_succ_self _) hfold.vec_le, hfold.vec_eq _ le_rfl]
          simp [header]
        · rw [h.1 _ (Nat.lt_succ_self _) le_rfl]
          simp [header]
      rw [hlen, resizeWith_nil]
      simp only [received]
      split
      · rename_i hrec
        rw [if_pos hrec] at h
        rw [recv_foldl_send B t (fun v buf idx => recv_send t v buf idx) xs header []
          (h.right (extends_setVec buf idx xs.length)), List.nil_append]
      · rfl
  | .option t, v, buf, idx, h => by
      by_cases hrec : needRecursive t t.default = true
      · -- the tag in the next slot, then the payload of a `Some`
        have hsetOp := extends_setOp buf idx (v.isSome)
        cases v with
        | some x =>
            have hsend : send (.option t) (some x) buf idx = send t x
                { buf with opBuf := Function.update buf.opBuf (idx.opIdx + 1) true }
                { idx with opIdx := idx.opIdx + 1 } := by
              simp [send, hrec]
            rw [hsend] at h ⊢
            have hx := extends_send t x { buf with opBuf := Function.update buf.opBuf (idx.opIdx + 1) true }
              { idx with opIdx := idx.opIdx + 1 }
            have htag : B.opBuf (idx.opIdx + 1) = true := by
              rw [h.2 _ (Nat.lt_succ_self _) hx.op_le, hx.op_eq _ le_rfl]
              simp
            have hrecv : recv (.option t) (Shape.default (.option t)) B idx =
                (some (recv t t.default B { idx with opIdx := idx.opIdx + 1 }).1,
                  (recv t t.default B { idx with opIdx := idx.opIdx + 1 }).2) := by
              simp [recv, needRecursive, hrec, htag]
            rw [hrecv, recv_send t x _ _ (h.right hsetOp)]
            simp [received, hrec]
        | none =>
            have hsend : send (.option t) none buf idx =
                ({ buf with opBuf := Function.update buf.opBuf (idx.opIdx + 1) false },
                  { idx with opIdx := idx.opIdx + 1 }) := by
              simp [send, hrec]
            rw [hsend] at h ⊢
            have htag : B.opBuf (idx.opIdx + 1) = false := by
              rw [h.2 _ (Nat.lt_succ_self _) le_rfl]
              simp
            simp [recv, needRecursive, hrec, htag, Shape.default, received]
      · -- a payload that needs no recursion: nothing is recorded
        simp [send, recv, needRecursive, hrec, Shape.default, received]
  | .box t, v, buf, idx, h => recv_send t v buf idx h
  | .pair a b, (x, y), buf, idx, h => by
      -- the first component reads back from what it wrote, the second from what follows
      have ha := recv_send a x buf idx (h.left (extends_send b y _ _))
      have hb := recv_send b y _ _ (h.right (extends_send a x buf idx))
      simp only [recv, send, Shape.default, received, ha, hb]

end ReadBack

/-! ### The shape and the copy -/

/-- A shape that needs no recursion carries no shape in its sketch. -/
theorem sameSketch_of_not_needRecursive : ∀ (t : Shape), needRecursive t t.default = false →
    ∀ w v : t.Val, sameSketch t w v = true
  | .leaf, _, _, _ => rfl
  | .option t, h, _, _ => by
      simp only [needRecursive] at h
      simp [sameSketch, h]
  | .box t, h, w, v => sameSketch_of_not_needRecursive t h w v
  | .pair a b, h, (x, y), (x', y') => by
      simp only [needRecursive, Shape.default, Bool.or_eq_false_iff] at h
      simp [sameSketch, sameSketch_of_not_needRecursive a h.1, sameSketch_of_not_needRecursive b h.2]

theorem zip_map_self {α : Type} (f : α → α) : ∀ xs : List α, (xs.map f).zip xs = xs.map fun x => (f x, x)
  | [] => rfl
  | x :: xs => by simp [zip_map_self f xs]

/-- What `recv` rebuilds has the shape the sketch carries. -/
theorem sameSketch_received : ∀ (t : Shape) (v : t.Val), sameSketch t (received t v) v = true
  | .leaf, _ => rfl
  | .string, _ => rfl
  | .vec t, xs => by
      simp only [received]
      split
      · -- the elements were rebuilt, each with its own shape
        simp only [sameSketch, List.length_map, beq_self_eq_true, zip_map_self, List.all_map,
          Bool.true_and, List.all_eq_true]
        exact fun x _ => sameSketch_received t x
      · -- the elements are defaults, and carry no shape
        rename_i hrec
        simp only [sameSketch, List.length_replicate, beq_self_eq_true, Bool.true_and,
          List.all_eq_true]
        exact fun p _ => sameSketch_of_not_needRecursive t (by simpa using hrec) p.1 p.2
  | .option t, v => by
      simp only [received, sameSketch]
      split
      · cases v with
        | some x => simpa using sameSketch_received t x
        | none => rfl
      · rfl
  | .box t, v => sameSketch_received t v
  | .pair a b, (x, y) => by
      simp [received, sameSketch, sameSketch_received a x, sameSketch_received b y]

theorem mapM_eq_some_self {α : Type} (f : α → Option α) :
    ∀ xs : List α, (∀ x ∈ xs, f x = some x) → xs.mapM f = some xs
  | [], _ => rfl
  | x :: xs, h => by
      simp only [List.mapM_cons, h x List.mem_cons_self, Option.bind_eq_bind, Option.bind_some,
        mapM_eq_some_self f xs fun y hy => h y (List.mem_cons_of_mem x hy), Option.pure_def]

/-- `clone_in_place` fills what `recv` rebuilt with the original's data. -/
theorem cloneInPlace_received : ∀ (t : Shape) (v : t.Val), cloneInPlace t (received t v) v = some v
  | .leaf, _ => rfl
  | .string, _ => rfl
  | .vec t, xs => by
      unfold cloneInPlace
      split
      · -- element by element: the rebuilt list has the original's length
        rename_i hrec
        have hnr : needRecursive t t.default = true := by simpa using (Bool.and_eq_true _ _).mp hrec |>.1
        simp only [received, hnr, if_true, List.length_map, le_refl, zip_map_self, List.mapM_map]
        exact mapM_eq_some_self _ xs fun x _ => cloneInPlace_received t x
      · rfl
  | .option t, v => by
      simp only [received, cloneInPlace]
      split
      · cases v with
        | some x => simp [cloneInPlace_received t x]
        | none => rfl
      · rfl
  | .box t, v => by
      simp only [received, cloneInPlace]
      split
      · exact cloneInPlace_received t v
      · rfl
  | .pair a b, (x, y) => by
      simp [received, cloneInPlace, cloneInPlace_received a x, cloneInPlace_received b y]

/-- **The serialization-free copy round trip.**  For every value of every
`Construct` type, with a `SizeBuf` large enough: the framework's `recv` on a
fresh `Default` value consumes exactly the slots the enclave's `send` wrote (the
two cursors end equal), the allocated value agrees with `v` on the length of
every `Vec` and the tag of every `Option` whose payload needs recursion, and
`clone_in_place` then turns it into `v`. -/
theorem sketch_round_trip (t : Shape) (v : t.Val) :
    (recv t t.default (send t v SizeBuf.new Idx.new).1 Idx.new).2 = (send t v SizeBuf.new Idx.new).2 ∧
      sameSketch t (recv t t.default (send t v SizeBuf.new Idx.new).1 Idx.new).1 v = true ∧
      cloneInPlace t (recv t t.default (send t v SizeBuf.new Idx.new).1 Idx.new).1 v = some v := by
  have hread := recv_send (send t v SizeBuf.new Idx.new).1 t v SizeBuf.new Idx.new
    ⟨fun _ _ _ => rfl, fun _ _ _ => rfl⟩
  rw [hread]
  exact ⟨rfl, sameSketch_received t v, cloneInPlace_received t v⟩

/-- An `Option<u8>` holding `Some(5)` arrives as `None`: its payload needs no
recursion, so `send` records no tag and `recv` leaves the `Default`. -/
theorem recv_option_leaf_drops_tag :
    (recv (.option .leaf) none (send (.option .leaf) (some 5) SizeBuf.new Idx.new).1 Idx.new).1 = none :=
  rfl

end SerializationFree

end Flare
