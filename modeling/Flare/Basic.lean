import Mathlib
import Flare.Lib.Slices

/-!
# Shared vocabulary of the enclave and the framework

Constants of `enclave/src/op/mod.rs`, the ciphertext model behind `ser_encrypt`,
`ser_decrypt`, `batch_encrypt` and `batch_decrypt`, the shuffle `Aggregator`
(`enclave/src/aggregator.rs`) and the `HashPartitioner`
(`enclave/src/partitioner.rs`).

## Design notes

**Ciphertexts.**  `ser_encrypt` serialises with `bincode` and encrypts with
AES-GCM under the enclave's fixed key and nonce; `ser_decrypt` inverts it and
panics only on a ciphertext it did not produce.  Nothing in the properties
proved here depends on the bytes, only on this round trip, so a ciphertext of a
value of type `α` is modelled as `ItemE α`, a sealed copy of the value.  The
type index records at which type the code decrypts: the source reads every
ciphertext back at the type it was written with, and a mismatch would not
typecheck here.

**Allocator switches.**  `create_enc`, `merge_enc` and `combine_enc` only toggle
the enclave allocator around `Vec::new`, `push` and `append`; the model writes
those list operations directly.
-/

namespace Flare

universe u v w

/-- `MAX_THREAD`: worker threads of one enclave call. -/
def maxThread : ℕ := 1

/-- `MAX_ENC_BL`: elements per encrypted chunk of `batch_encrypt`. -/
def maxEncBl : ℕ := 1024

theorem maxEncBl_pos : 0 < maxEncBl := by decide

/-! ### Ciphertexts -/

/-- A ciphertext produced by `ser_encrypt` from a value of type `α`. -/
structure ItemE (α : Type u) where
  plain : α
deriving DecidableEq, Repr

variable {α : Type u}

/-- `ser_encrypt`. -/
def serEncrypt (x : α) : ItemE α := ⟨x⟩

/-- `ser_decrypt`. -/
def serDecrypt (c : ItemE α) : α := c.plain

@[simp] theorem serDecrypt_serEncrypt (x : α) : serDecrypt (serEncrypt x) = x := rfl

/-- `batch_encrypt`: the data in chunks of `MAX_ENC_BL`, each chunk encrypted.  The
`is_enc_outside` flag only picks the allocator the result lives in. -/
def batchEncrypt (data : List α) : List (ItemE (List α)) :=
  (Slices.chunks maxEncBl data).map serEncrypt

/-- `batch_decrypt`: every chunk decrypted, the chunks concatenated. -/
def batchDecrypt (dataEnc : List (ItemE (List α))) : List α :=
  dataEnc.flatMap serDecrypt

@[simp] theorem batchDecrypt_nil : batchDecrypt ([] : List (ItemE (List α))) = [] := rfl

@[simp] theorem batchDecrypt_append (c₁ c₂ : List (ItemE (List α))) :
    batchDecrypt (c₁ ++ c₂) = batchDecrypt c₁ ++ batchDecrypt c₂ := by
  simp [batchDecrypt]

@[simp] theorem batchDecrypt_batchEncrypt (data : List α) :
    batchDecrypt (batchEncrypt data) = data := by
  simp [batchDecrypt, batchEncrypt, List.flatMap_map, serDecrypt_serEncrypt,
    List.flatMap_id', Slices.flatten_chunks maxEncBl_pos]

@[simp] theorem batchDecrypt_flatMap {β : Type v} (l : List β) (f : β → List (ItemE (List α))) :
    batchDecrypt (l.flatMap f) = l.flatMap fun x => batchDecrypt (f x) :=
  List.flatMap_assoc

/-- Data that fits one chunk is one ciphertext. -/
theorem batchEncrypt_of_length_le {data : List α} (hne : data ≠ []) (hlen : data.length ≤ maxEncBl) :
    batchEncrypt data = [serEncrypt data] := by
  rw [batchEncrypt, Slices.chunks_of_length_le maxEncBl_pos hne hlen, List.map_singleton]

@[simp] theorem batchEncrypt_nil : batchEncrypt ([] : List α) = [] := by
  simp [batchEncrypt]

/-! ### Aggregators -/

/-- `Aggregator`: the three closures of a combine-by-key, and the `is_default`
flag that selects the specialised branch of `do_shuffle_task_core`. -/
structure Aggregator (V : Type u) (C : Type v) where
  createCombiner : V → C
  mergeValue : C → V → C
  mergeCombiners : C → C → C
  isDefault : Bool

/-- `Aggregator::default()`: the values of a key collected in a vector. -/
def Aggregator.default (V : Type u) : Aggregator V (List V) where
  createCombiner v := [v]
  mergeValue buf v := buf ++ [v]
  mergeCombiners b1 b2 := b1 ++ b2
  isDefault := true

/-- An aggregator whose combiners do not depend on how the values of a key are bracketed:
`merge_combiners` is associative, and `merge_value` merges the value's one-value combiner.
A shuffle builds a key's combiner in pieces, on the map side and then across map outputs,
so only such an aggregator has a combiner that the values alone determine, up to their
order. -/
structure Aggregator.Lawful {V : Type u} {C : Type v} (agg : Aggregator V C) : Prop where
  assoc : ∀ a b c, agg.mergeCombiners (agg.mergeCombiners a b) c =
    agg.mergeCombiners a (agg.mergeCombiners b c)
  mergeValue_eq : ∀ c v, agg.mergeValue c v = agg.mergeCombiners c (agg.createCombiner v)

/-! ### Hash partitioner -/

/-- `HashPartitioner`: the key hash (the `DefaultHasher` digest of the key) and
the number of partitions. -/
structure HashPartitioner (K : Type u) where
  hash : K → UInt64
  partitions : ℕ

namespace HashPartitioner

variable {K : Type u}

/-- `get_partition`: `hash(key) as usize % self.partitions`. -/
def getPartition (p : HashPartitioner K) (k : K) : ℕ :=
  (p.hash k).toNat % p.partitions

/-- `set_num_of_partitions`. -/
def setNumOfPartitions (p : HashPartitioner K) (partitions : ℕ) : HashPartitioner K :=
  { p with partitions }

@[simp] theorem setNumOfPartitions_partitions (p : HashPartitioner K) (n : ℕ) :
    (p.setNumOfPartitions n).partitions = n := rfl

@[simp] theorem getPartition_setNumOfPartitions (p : HashPartitioner K) (n : ℕ) (k : K) :
    (p.setNumOfPartitions n).getPartition k = (p.hash k).toNat % n := rfl

theorem getPartition_lt (p : HashPartitioner K) (hpos : 0 < p.partitions) (k : K) :
    p.getPartition k < p.partitions :=
  Nat.mod_lt _ hpos

end HashPartitioner

end Flare
