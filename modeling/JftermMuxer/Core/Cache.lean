import JftermMuxer.Core.Sticky
import JftermMuxer.Foundation.Transducer

/-!
# The prologue cache

{lit}`StickyState::serialize` in {lit}`core/src/sticky.rs` fills a cache behind a
shared reference, every setter empties it, and a clone takes it along.  Here any number
of states, all cloned from a new one or from each other, are called in any order, once
with the cached {lit}`serialize` and once with one that always builds.

Main results:

- Theorem {lit}`StickyState.pool_simulates`: the two pools answer every call alike and
  keep the same tracked fields.
- Theorem {lit}`StickyState.serialize_uncached`: along every sequence of calls a serialization is
  the one built from the current fields, and changes none of them.
-/

namespace JftermMuxer.Core

open Foundation

/-- A call of a setter. -/
inductive StickySetter where
  | setSgr (params : List UInt16)
  | setDecMode (code : UInt16) (on : Bool)
  | setScrollRegion (region : Option (UInt16 × UInt16))
  | setCwd (cwd : List UInt8)
  | setTitle (title : List UInt8)
deriving DecidableEq, Repr

/-- A call on one of the states of a pool. -/
inductive StickyCall where
  | set (setter : StickySetter)
  | serialize
  | clone
deriving DecidableEq, Repr

namespace StickyState

def set (s : StickyState) : StickySetter → StickyState
  | .setSgr params => s.setSgr params
  | .setDecMode code on => s.setDecMode code on
  | .setScrollRegion region => s.setScrollRegion region
  | .setCwd cwd => s.setCwd cwd
  | .setTitle title => s.setTitle title

/-- The serialization without a cache. -/
def serializeUncached (s : StickyState) : List UInt8 × StickyState := (s.buildSerialized, s)

/-! ## Pools -/

/-- Make a call on a state at an index of the pool: the pool after it, and the bytes
of a serialization.  A clone is a new state with the fields and the cache of the old
one. -/
def callOn (serialize : StickyState → List UInt8 × StickyState) (pool : List StickyState)
    (index : Nat) (s : StickyState) : StickyCall → List StickyState × List (List UInt8)
  | .set setter => (pool.set index (s.set setter), [])
  | .serialize => (pool.set index (serialize s).2, [(serialize s).1])
  | .clone => (pool ++ [s], [])

/-- Make a call on the state at an index; there is none to call past the end. -/
def poolAdvance (serialize : StickyState → List UInt8 × StickyState) (pool : List StickyState)
    (call : Nat × StickyCall) : List StickyState × List (List UInt8) :=
  match pool[call.1]? with
  | some s => callOn serialize pool call.1 s call.2
  | none => (pool, [])

/-- The states of a program that starts from one new state. -/
def poolMachine (serialize : StickyState → List UInt8 × StickyState) :
    Transducer (List StickyState) (Nat × StickyCall) (List UInt8) where
  init := [new]
  advance := poolAdvance serialize

/-! ## One call -/

/-- A setter drops the cache. -/
theorem cache_set (s : StickyState) (setter : StickySetter) : (s.set setter).cache = none := by
  cases setter with
  | setDecMode code on => cases on <;> rfl
  | _ => rfl

/-- A state without a cache is its own erasure. -/
theorem erase_of_cache_none {s : StickyState} (h : s.cache = none) : s.erase = s := by
  rw [erase, ← h]

/-- A state is coherent after a setter. -/
theorem coherent_set (s : StickyState) (setter : StickySetter) : (s.set setter).Coherent :=
  coherent_of_cache_none (s.cache_set setter)

/-- A setter does not read the cache. -/
theorem set_erase (s : StickyState) (setter : StickySetter) :
    s.erase.set setter = s.set setter := by
  cases setter with
  | setDecMode code on => cases on <;> rfl
  | _ => rfl

/-- Setters do not look at the cache. -/
theorem erase_set (s : StickyState) (setter : StickySetter) :
    (s.set setter).erase = s.erase.set setter := by
  rw [set_erase]
  exact erase_of_cache_none (s.cache_set setter)

/-- Nor does the serialization that is built. -/
theorem buildSerialized_erase (s : StickyState) : s.erase.buildSerialized = s.buildSerialized := rfl

/-- A serialization without a cache changes nothing. -/
theorem poolAdvance_serializeUncached (pool : List StickyState) (index : Nat) :
    (poolAdvance serializeUncached pool (index, .serialize)).1 = pool := by
  unfold poolAdvance
  cases hs : pool[index]? with
  | none => rfl
  | some s =>
      obtain ⟨hindex, hget⟩ := List.getElem?_eq_some_iff.mp hs
      simp only [callOn, serializeUncached]
      rw [← hget, List.set_getElem_self hindex]

/-- Two pools with the same tracked fields, the caches of the first coherent and those
of the second empty. -/
structure PoolMatches (pool uncached : List StickyState) : Prop where
  coherent : ∀ s ∈ pool, s.Coherent
  erased : uncached = pool.map erase

/-- Fresh states match. -/
theorem poolMatches_new : PoolMatches [new] [new] := by
  constructor
  · intro s hs
    rw [List.mem_singleton.mp hs]
    exact coherent_new
  · rfl

/-- A state put in a place of the pool. -/
theorem PoolMatches.set {pool uncached : List StickyState} (h : PoolMatches pool uncached)
    {s t : StickyState} (hs : s.Coherent) (ht : t = s.erase) (index : Nat) :
    PoolMatches (pool.set index s) (uncached.set index t) := by
  constructor
  · intro u hu
    rcases List.mem_or_eq_of_mem_set hu with hold | hnew
    · exact h.coherent u hold
    · rw [hnew]
      exact hs
  · rw [h.erased, ht, List.map_set]

/-- A state that joins the pool. -/
theorem PoolMatches.snoc {pool uncached : List StickyState} (h : PoolMatches pool uncached)
    {s : StickyState} (hs : s.Coherent) : PoolMatches (pool ++ [s]) (uncached ++ [s.erase]) := by
  constructor
  · intro u hu
    rcases List.mem_append.mp hu with hold | hnew
    · exact h.coherent u hold
    · rw [List.mem_singleton.mp hnew]
      exact hs
  · rw [h.erased, List.map_append, List.map_singleton]

/-- One call on a state of the pool, whatever it is. -/
theorem PoolMatches.callOn {pool uncached : List StickyState} (h : PoolMatches pool uncached)
    {s : StickyState} (hs : s.Coherent) (index : Nat) (call : StickyCall) :
    (callOn serialize pool index s call).2 =
        (callOn serializeUncached uncached index s.erase call).2 ∧
      PoolMatches (callOn serialize pool index s call).1
        (callOn serializeUncached uncached index s.erase call).1 := by
  cases call with
  | set setter =>
      refine ⟨rfl, ?_⟩
      exact h.set (s.coherent_set setter) (s.erase_set setter).symm index
  | serialize =>
      constructor
      · simp only [StickyState.callOn, serializeUncached]
        rw [serialize_eq hs, buildSerialized_erase]
      · exact h.set (coherent_serialize hs) (erase_serialize s).symm index
  | clone =>
      refine ⟨rfl, ?_⟩
      exact h.snoc hs

/-- A call on matching pools answers the same and leaves them matching. -/
theorem PoolMatches.advance {pool uncached : List StickyState} (h : PoolMatches pool uncached)
    (call : Nat × StickyCall) :
    (poolAdvance serialize pool call).2 = (poolAdvance serializeUncached uncached call).2 ∧
      PoolMatches (poolAdvance serialize pool call).1
        (poolAdvance serializeUncached uncached call).1 := by
  have hget : uncached[call.1]? = pool[call.1]?.map erase := by
    rw [h.erased, List.getElem?_map]
  unfold poolAdvance
  rw [hget]
  cases hs : pool[call.1]? with
  | none => exact ⟨rfl, h⟩
  | some s => exact h.callOn (h.coherent s (List.mem_of_getElem? hs)) call.1 call.2

/-! ## Sequences of calls -/

/-- The cache is invisible: both pools answer alike, call after call. -/
theorem pool_simulates (calls : List (Nat × StickyCall)) :
    (poolMachine serialize).outputs [new] calls =
        (poolMachine serializeUncached).outputs [new] calls ∧
      PoolMatches ((poolMachine serialize).stateAfter [new] calls)
        ((poolMachine serializeUncached).stateAfter [new] calls) :=
  (poolMachine serialize).run_simulates (poolMachine serializeUncached)
    (fun _ _ call h => h.advance call) poolMatches_new calls

/-- Along every sequence of setters, serializations and clones, on any of the states
that a new one has been cloned to, the bytes returned are those of an implementation
without a cache and so are the tracked fields; any state in existence serializes to
what is built from its fields, and keeps them. -/
theorem serialize_uncached (calls : List (Nat × StickyCall)) :
    let pool := (poolMachine serialize).stateAfter [new] calls
    (poolMachine serialize).outputs [new] calls =
        (poolMachine serializeUncached).outputs [new] calls ∧
    pool.map erase = (poolMachine serializeUncached).stateAfter [new] calls ∧
    (∀ s ∈ pool, s.serialize.1 = s.buildSerialized ∧ s.serialize.2.erase = s.erase) ∧
    ∀ index, ((poolMachine serialize).advance pool (index, .serialize)).1.map erase =
      pool.map erase := by
  dsimp only
  obtain ⟨houtputs, hmatches⟩ := pool_simulates calls
  refine ⟨houtputs, hmatches.erased.symm, ?_, ?_⟩
  · intro s hs
    exact ⟨serialize_eq (hmatches.coherent s hs), erase_serialize s⟩
  · intro index
    have hcall := (hmatches.advance (index, .serialize)).2.erased
    rw [poolAdvance_serializeUncached] at hcall
    rw [← hmatches.erased]
    exact hcall.symm

end StickyState

end JftermMuxer.Core
