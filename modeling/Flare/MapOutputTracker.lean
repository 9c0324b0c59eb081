import Mathlib
import Flare.Lib.Fold

/-!
# The map output tracker

`MapOutputTracker` (`map_output_tracker.rs`) keeps the shuffle server of each map output of each
shuffle: `server_uris[shuffle_id][map_id]`, `None` where the output is not registered.  The
scheduler registers a shuffle with one empty slot per map (`register_shuffle`).  It fills the
slots (`register_map_output`, `register_map_outputs`) and clears one on a fetch failure
(`unregister_map_output`).  A reduce task reads the servers with `get_server_uris` and asks the
server at position `i` of the answer for map output `i` (`ShuffleFetcher::secure_fetch`).

Every run of the calls keeps each shuffle's number of slots.  But two of the calls break the
alignment of positions and map ids.  `get_server_uris` answers only the registered servers,
dropping the empty slots, so a server moves to the position of an earlier empty slot.
`unregister_map_output` asks for the entry mutably while it still holds the entry's read guard;
`DashMap` then waits for the call itself, which never returns.

## Main definitions

* `MapOutputTracker` — the state: `server_uris` and `generation`.
* `Call`, `MapOutputTracker.step` — the calls that change the registry.
* `MapOutputTracker.serverLocs`, `MapOutputTracker.getServerUris` — the readers.

## Main results

* `Sized.step`, `sized_run` — every run keeps each shuffle's slots.
* `unregisterMapOutput_of_holds` — clearing a slot that holds its server never returns.
* `getServerUris_of_registered` — the answer is the registered servers in slot order.
* `registry_spec` — the three together.

## Design notes

`is_master` and `master_addr` only choose where the master's server runs, and `fetching` is
read by `get_server_uris` alone: it is an argument of that call.  A call that waits for another
task (the master's loop until a slot is registered, `get_server_uris` until another fetch is
done) reads the tracker as the other calls of the run leave it.
-/

namespace Flare

/-- The tracker's state: `server_uris`, `none` for a shuffle not registered, and `generation`,
which `unregister_map_output` moves on. -/
structure MapOutputTracker where
  serverUris : ℕ → Option (List (Option (List Char)))
  generation : ℕ

/-- The calls that change the tracker's registry. -/
inductive Call
  | registerShuffle (shuffleId numMaps : ℕ)
  | registerMapOutput (shuffleId mapId : ℕ) (serverUri : List Char)
  | registerMapOutputs (shuffleId : ℕ) (locs : List (Option (List Char)))
  | unregisterMapOutput (shuffleId mapId : ℕ) (serverUri : List Char)

/-- A call that gives a shuffle its slots gives it its number of them. -/
def Call.Fits (numMaps : ℕ → ℕ) : Call → Prop
  | .registerShuffle shuffleId m => m = numMaps shuffleId
  | .registerMapOutputs shuffleId locs => locs.length = numMaps shuffleId
  | _ => True

namespace MapOutputTracker

/-- `MapOutputTracker::new`: no shuffle, generation `0`. -/
def new : MapOutputTracker := ⟨fun _ => none, 0⟩

/-- The tracker with the slots of a shuffle replaced (`DashMap::insert`). -/
def setSlots (t : MapOutputTracker) (shuffleId : ℕ) (slots : List (Option (List Char))) :
    MapOutputTracker :=
  { t with serverUris := Function.update t.serverUris shuffleId (some slots) }

/-- `register_shuffle`: `num_maps` empty slots, unless the shuffle is registered. -/
def registerShuffle (t : MapOutputTracker) (shuffleId numMaps : ℕ) : MapOutputTracker :=
  if (t.serverUris shuffleId).isSome then t
  else t.setSlots shuffleId (List.replicate numMaps none)

/-- `register_map_output`: `none` where `get_mut(..).unwrap()` panics on a shuffle not
registered, or the index `map_id` is past its slots. -/
def registerMapOutput (t : MapOutputTracker) (shuffleId mapId : ℕ) (serverUri : List Char) :
    Option MapOutputTracker :=
  match t.serverUris shuffleId with
  | none => none
  | some slots =>
    if mapId < slots.length then some (t.setSlots shuffleId (slots.set mapId (some serverUri)))
    else none

/-- `register_map_outputs`: the slots replaced by `locs`. -/
def registerMapOutputs (t : MapOutputTracker) (shuffleId : ℕ) (locs : List (Option (List Char))) :
    MapOutputTracker :=
  t.setSlots shuffleId locs

/-- `unregister_map_output`.  A shuffle not registered is left alone.  `arr.get(map_id).unwrap()`
panics past the slots.  Where the slot holds `server_uri`, `get_mut` waits for the shard's
read guard, which `arr`, alive to the end of the `if let`, holds: the call never returns
(`none` for both).  Otherwise the generation moves on. -/
def unregisterMapOutput (t : MapOutputTracker) (shuffleId mapId : ℕ) (serverUri : List Char) :
    Option MapOutputTracker :=
  match t.serverUris shuffleId with
  | none => some t
  | some arr =>
    match arr[mapId]? with
    | none => none
    | some slot => if slot = some serverUri then none else some { t with generation := t.generation + 1 }

/-- A call, on the tracker; `none` where it panics or never returns. -/
def step (t : MapOutputTracker) : Call → Option MapOutputTracker
  | .registerShuffle shuffleId numMaps => some (t.registerShuffle shuffleId numMaps)
  | .registerMapOutput shuffleId mapId serverUri => t.registerMapOutput shuffleId mapId serverUri
  | .registerMapOutputs shuffleId locs => some (t.registerMapOutputs shuffleId locs)
  | .unregisterMapOutput shuffleId mapId serverUri => t.unregisterMapOutput shuffleId mapId serverUri

/-- The registered servers of a shuffle, in slot order: the answer of `get_server_uris` when it
reads the tracker. -/
def registeredServers (t : MapOutputTracker) (shuffleId : ℕ) : Option (List (List Char)) :=
  (t.serverUris shuffleId).map (List.filterMap id)

/-- The master's answer to a client (`server`), every slot unwrapped.  `none` where the
shuffle is not registered (`ShuffleIdNotFound`), where no slot is registered yet (the loop
waits), and where a slot is empty (`unwrap` panics). -/
def serverLocs (t : MapOutputTracker) (shuffleId : ℕ) : Option (List (List Char)) :=
  (t.serverUris shuffleId).bind fun slots =>
    if slots.all Option.isNone then none else slots.mapM id

/-- `get_server_uris`: the answer, and the tracker after it.  `fetching` says whether another
call is fetching the shuffle, and `fetched` is what `client` returns, `none` where it fails.
With a registered server the tracker answers itself.  Otherwise, it waits for the other fetch
and answers then; or it fetches, and stores what the master answers. -/
def getServerUris (t : MapOutputTracker) (fetching : Bool) (fetched : Option (List (List Char)))
    (shuffleId : ℕ) : Option (List (List Char) × MapOutputTracker) :=
  if ((t.serverUris shuffleId).bind fun slots => (slots.filterMap id).head?).isNone then
    if fetching then (registeredServers t shuffleId).map (·, t)
    else fetched.map fun fetched => (fetched, t.setSlots shuffleId (fetched.map some))
  else (registeredServers t shuffleId).map (·, t)

/-- The map outputs `secure_fetch` asks the servers for: the map id `index` from the server at
position `index` of the answer (`inputs_by_uri`, which groups these by server). -/
def fetchRequests (serverUris : List (List Char)) : List (List Char × ℕ) := serverUris.zipIdx

@[simp] theorem serverUris_setSlots (t : MapOutputTracker) (shuffleId : ℕ)
    (slots : List (Option (List Char))) :
    (t.setSlots shuffleId slots).serverUris = Function.update t.serverUris shuffleId (some slots) :=
  rfl

/-- When it returns, `unregister_map_output` leaves every slot as it was. -/
theorem serverUris_unregisterMapOutput {t t' : MapOutputTracker} {shuffleId mapId : ℕ}
    {serverUri : List Char} (h : t.unregisterMapOutput shuffleId mapId serverUri = some t') :
    t'.serverUris = t.serverUris := by
  unfold unregisterMapOutput at h
  split at h
  · cases h
    rfl
  · split at h
    · cases h
    · split_ifs at h
      cases h
      rfl

/-! ### Every run keeps the slots -/

section Sized

variable (numMaps : ℕ → ℕ)

/-- Every registered shuffle has its number of slots. -/
def Sized (t : MapOutputTracker) : Prop :=
  ∀ shuffleId slots, t.serverUris shuffleId = some slots → slots.length = numMaps shuffleId

variable {numMaps}

theorem Sized.setSlots {t : MapOutputTracker} (h : Sized numMaps t) {shuffleId : ℕ}
    {slots : List (Option (List Char))} (hslots : slots.length = numMaps shuffleId) :
    Sized numMaps (t.setSlots shuffleId slots) := by
  intro s v hv
  by_cases hs : s = shuffleId
  · subst hs
    rw [serverUris_setSlots, Function.update_self, Option.some.injEq] at hv
    rw [← hv, hslots]
  · rw [serverUris_setSlots, Function.update_of_ne hs] at hv
    exact h s v hv

/-- **A call keeps the slots**, one case per call: `register_map_output` sets a slot in range,
`unregister_map_output` changes no slot. -/
theorem Sized.step {t t' : MapOutputTracker} (h : Sized numMaps t) :
    ∀ (c : Call), c.Fits numMaps → t.step c = some t' → Sized numMaps t'
  | .registerShuffle shuffleId m, hfits, hstep => by
      cases hstep
      unfold registerShuffle
      split_ifs
      · exact h
      · exact h.setSlots (by rw [List.length_replicate]; exact hfits)
  | .registerMapOutput shuffleId mapId serverUri, _, hstep => by
      rw [MapOutputTracker.step, registerMapOutput] at hstep
      split at hstep
      · cases hstep
      · rename_i slots hslots
        split_ifs at hstep
        cases hstep
        exact h.setSlots (by rw [List.length_set]; exact h shuffleId slots hslots)
  | .registerMapOutputs shuffleId locs, hfits, hstep => by
      cases hstep
      exact h.setSlots hfits
  | .unregisterMapOutput shuffleId mapId serverUri, _, hstep => by
      intro s v hv
      rw [serverUris_unregisterMapOutput hstep] at hv
      exact h s v hv

/-- **Every run keeps the slots**: from a tracker whose shuffles have their number of slots,
every sequence of calls that gives a shuffle its number of slots, and returns, leaves every
registered shuffle with its number of slots. -/
theorem sized_run (calls : List Call) (hfits : ∀ c ∈ calls, c.Fits numMaps) {t t' : MapOutputTracker}
    (h : Sized numMaps t) (hrun : calls.foldlM step t = some t') : Sized numMaps t' :=
  Folds.foldlM_invariant_of_mem (Sized numMaps) step calls
    (fun _ c _ hc hs hstep => hs.step c (hfits c hc) hstep) t t' h hrun

end Sized

/-! ### The calls on one slot -/

/-- `register_map_output` sets its slot and no other. -/
theorem registerMapOutput_eq {t : MapOutputTracker} {shuffleId mapId : ℕ} {serverUri : List Char}
    {slots : List (Option (List Char))} (hslots : t.serverUris shuffleId = some slots)
    (hmap : mapId < slots.length) :
    t.registerMapOutput shuffleId mapId serverUri =
      some (t.setSlots shuffleId (slots.set mapId (some serverUri))) := by
  rw [registerMapOutput, hslots]
  exact if_pos hmap

/-- **Clearing a slot that holds its server never returns.** -/
theorem unregisterMapOutput_of_holds {t : MapOutputTracker} {shuffleId mapId : ℕ}
    {serverUri : List Char} {slots : List (Option (List Char))}
    (hslots : t.serverUris shuffleId = some slots) (hslot : slots[mapId]? = some (some serverUri)) :
    t.unregisterMapOutput shuffleId mapId serverUri = none := by
  rw [unregisterMapOutput, hslots]
  dsimp only
  rw [hslot]
  exact if_pos rfl

/-! ### The readers -/

/-- The registered servers of a list of slots are each slot's server exactly when no slot is
empty. -/
theorem map_some_filterMap_eq_iff :
    ∀ slots : List (Option (List Char)),
      (slots.filterMap id).map some = slots ↔ ∀ x ∈ slots, x.isSome
  | [] => by simp
  | none :: slots => by
      have hcons : (none :: slots).filterMap id = slots.filterMap id := rfl
      rw [hcons]
      constructor
      · -- an empty slot: the answer is shorter than the slots
        intro heq
        have hlen := congrArg List.length heq
        rw [List.length_map, List.length_cons] at hlen
        have := List.length_filterMap_le id slots
        omega
      · intro hall
        exact absurd (hall none List.mem_cons_self) (by decide)
  | some x :: slots => by
      have hcons : (some x :: slots).filterMap id = x :: slots.filterMap id := rfl
      rw [hcons, List.map_cons, List.cons.injEq, map_some_filterMap_eq_iff slots, List.forall_mem_cons]
      simp

/-- Unwrapping every slot succeeds only on slots that are all full. -/
theorem map_some_of_mapM_id_eq_some :
    ∀ {slots : List (Option (List Char))} {locs : List (List Char)},
      slots.mapM id = some locs → locs.map some = slots
  | [], _, h => by
      cases h
      rfl
  | x :: slots, locs, h => by
      rw [List.mapM_cons] at h
      obtain ⟨u, hu, h⟩ := Option.bind_eq_some_iff.mp h
      obtain ⟨rest, hrest, h⟩ := Option.bind_eq_some_iff.mp h
      cases h
      rw [List.map_cons, map_some_of_mapM_id_eq_some hrest]
      exact congrArg (· :: slots) hu.symm

/-- The master answers only when no slot is empty, with each slot's server. -/
theorem serverLocs_eq_some {t : MapOutputTracker} {shuffleId : ℕ} {locs : List (List Char)}
    (h : t.serverLocs shuffleId = some locs) :
    ∃ slots, t.serverUris shuffleId = some slots ∧ locs.map some = slots := by
  unfold serverLocs at h
  obtain ⟨slots, hslots, hlocs⟩ := Option.bind_eq_some_iff.mp h
  refine ⟨slots, hslots, ?_⟩
  split_ifs at hlocs
  exact map_some_of_mapM_id_eq_some hlocs

/-- **With a registered server, `get_server_uris` answers the registered servers in slot order**,
and leaves the tracker alone. -/
theorem getServerUris_of_registered (t : MapOutputTracker) (fetching : Bool)
    (fetched : Option (List (List Char))) {shuffleId : ℕ} {slots : List (Option (List Char))}
    (hslots : t.serverUris shuffleId = some slots) (hreg : ∃ x ∈ slots, x.isSome) :
    t.getServerUris fetching fetched shuffleId = some (slots.filterMap id, t) := by
  have hhead : (slots.filterMap id).head?.isSome := by
    obtain ⟨x, hx, hsome⟩ := hreg
    obtain ⟨u, rfl⟩ := Option.isSome_iff_exists.mp hsome
    rw [List.isSome_head?, Ne, List.filterMap_eq_nil_iff]
    exact fun hnone => Option.some_ne_none u (hnone _ hx)
  have hnot : ¬((slots.filterMap id).head?.isNone = true) := by
    rw [Option.isNone_iff_eq_none]
    exact Option.ne_none_iff_isSome.mpr hhead
  unfold getServerUris
  rw [hslots, Option.bind_some, if_neg hnot, registeredServers, hslots]
  rfl

/-- **What the registry and its readers do.**  Every run of the calls that give a shuffle its
number of slots keeps them.  Clearing a slot that holds its server never returns.  And where a
shuffle has a registered server, `get_server_uris` answers the registered servers in slot order,
which are each slot's server exactly when no slot is empty. -/
theorem registry_spec (numMaps : ℕ → ℕ) :
    (∀ (calls : List Call) (t t' : MapOutputTracker), (∀ c ∈ calls, c.Fits numMaps) →
        Sized numMaps t → calls.foldlM step t = some t' → Sized numMaps t') ∧
      (∀ (t : MapOutputTracker) shuffleId mapId serverUri slots,
        t.serverUris shuffleId = some slots → slots[mapId]? = some (some serverUri) →
          t.unregisterMapOutput shuffleId mapId serverUri = none) ∧
      ∀ (t : MapOutputTracker) fetching fetched shuffleId slots,
        t.serverUris shuffleId = some slots → (∃ x ∈ slots, x.isSome) →
          t.getServerUris fetching fetched shuffleId = some (slots.filterMap id, t) ∧
            ((slots.filterMap id).map some = slots ↔ ∀ x ∈ slots, x.isSome) :=
  ⟨fun calls _ _ hfits h hrun => sized_run calls hfits h hrun,
    fun _ _ _ _ _ hslots hslot => unregisterMapOutput_of_holds hslots hslot,
    fun t fetching fetched _ slots hslots hreg =>
      ⟨getServerUris_of_registered t fetching fetched hslots hreg, map_some_filterMap_eq_iff slots⟩⟩

/-- A shuffle of two maps whose first output has no server: `get_server_uris` answers one server
for two maps, the server of map `1` at position `0`, and the fetch asks it for map `0`. -/
theorem getServerUris_drops_empty_slot (fetching : Bool) (fetched : Option (List (List Char))) :
    (([.registerShuffle 0 2, .registerMapOutputs 0 [none, some ['a']]] : List Call).foldlM step
        new).bind (fun t => (t.getServerUris fetching fetched 0).map fun r => fetchRequests r.1) =
      some [(['a'], 0)] :=
  rfl

end MapOutputTracker

end Flare
