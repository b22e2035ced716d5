import JftermMuxer.Foundation.Decimal

/-!
# Sticky terminal state

{lit}`core/src/sticky.rs`: the visual state that every chunk re-asserts, its
setters, and its cached serialization.

Main results:

- Theorem {lit}`StickyState.serialize_eq`: from a coherent cache the cached
  serialization is the one built from scratch.
- Theorems {lit}`StickyState.coherent_setSgr` to
  {lit}`StickyState.coherent_serialize`: every operation keeps the cache
  coherent.
-/

namespace JftermMuxer.Core

open Foundation

/-- The DEC private modes that are on: the keys of the source's ordered map,
which stores only {lit}`true` entries. -/
structure DecModes where
  keys : List UInt16
  sorted : keys.Pairwise (· < ·)
deriving DecidableEq

namespace DecModes

/-- No mode is on. -/
def empty : DecModes := ⟨[], List.Pairwise.nil⟩

/-- Insert into a strictly ascending list of keys. -/
def insertKey (code : UInt16) : List UInt16 → List UInt16
  | [] => [code]
  | key :: keys =>
      if code < key then code :: key :: keys
      else if code = key then key :: keys
      else key :: insertKey code keys

/-- The keys after an insertion. -/
theorem mem_insertKey {code x : UInt16} {keys : List UInt16} :
    x ∈ insertKey code keys ↔ x = code ∨ x ∈ keys := by
  induction keys with
  | nil => simp [insertKey]
  | cons key keys ih =>
      simp only [insertKey]
      split
      · simp
      · split
        · subst_vars
          simp
        · simp only [List.mem_cons, ih]
          tauto

/-- An insertion keeps the keys sorted. -/
theorem pairwise_insertKey {code : UInt16} {keys : List UInt16}
    (hsorted : keys.Pairwise (· < ·)) : (insertKey code keys).Pairwise (· < ·) := by
  induction keys with
  | nil => simp [insertKey]
  | cons key keys ih =>
      rw [List.pairwise_cons] at hsorted
      simp only [insertKey]
      split
      · rename_i hlt
        rw [List.pairwise_cons]
        refine ⟨?_, List.pairwise_cons.mpr hsorted⟩
        intro x hx
        rcases List.mem_cons.mp hx with rfl | hx
        · exact hlt
        · have hkey := hsorted.1 x hx
          grind
      · split
        · exact List.pairwise_cons.mpr hsorted
        · rename_i hnlt hne
          rw [List.pairwise_cons]
          refine ⟨?_, ih hsorted.2⟩
          intro x hx
          rcases mem_insertKey.mp hx with rfl | hx
          · grind
          · exact hsorted.1 x hx

/-- Switch a mode on. -/
def insert (m : DecModes) (code : UInt16) : DecModes :=
  ⟨insertKey code m.keys, pairwise_insertKey m.sorted⟩

/-- Switch a mode off. -/
def remove (m : DecModes) (code : UInt16) : DecModes :=
  ⟨m.keys.filter (· ≠ code), m.sorted.filter _⟩

/-- A code above every key goes to the end. -/
theorem insertKey_of_forall_lt {code : UInt16} {keys : List UInt16}
    (hlt : ∀ key ∈ keys, key < code) : insertKey code keys = keys ++ [code] := by
  induction keys with
  | nil => rfl
  | cons key keys ih =>
      have hkey := hlt key (by simp)
      have hnlt : ¬ code < key := by grind
      have hne : code ≠ key := by grind
      simp only [insertKey, if_neg hnlt, if_neg hne, List.cons_append]
      rw [ih (fun k hk => hlt k (List.mem_cons_of_mem key hk))]

end DecModes

/-- Visual terminal state that makes a chunk self-contained. -/
structure StickyState where
  sgr : List UInt16
  decModes : DecModes
  scrollRegion : Option (UInt16 × UInt16)
  cwd : Option (List UInt8)
  title : Option (List UInt8)
  cache : Option (List UInt8)
deriving DecidableEq

namespace StickyState

def new : StickyState := ⟨[], DecModes.empty, none, none, none, none⟩

/-- Drop the cached prologue. -/
def invalidate (s : StickyState) : StickyState := { s with cache := none }

def setSgr (s : StickyState) (params : List UInt16) : StickyState :=
  { s with sgr := params }.invalidate

def setDecMode (s : StickyState) (code : UInt16) (on : Bool) : StickyState :=
  if on then { s with decModes := s.decModes.insert code }.invalidate
  else { s with decModes := s.decModes.remove code }.invalidate

def setScrollRegion (s : StickyState) (region : Option (UInt16 × UInt16)) : StickyState :=
  { s with scrollRegion := region }.invalidate

def setCwd (s : StickyState) (cwd : List UInt8) : StickyState :=
  { s with cwd := some cwd }.invalidate

def setTitle (s : StickyState) (title : List UInt8) : StickyState :=
  { s with title := some title }.invalidate

/-- Decimal parameters joined by semicolons. -/
def joinParams (params : List UInt16) : List UInt8 :=
  List.intercalate [0x3B] (params.map fun p => decimal p.toNat)

/-- {lit}`ESC [ … m`, absent for the default rendition. -/
def sgrBytes (s : StickyState) : List UInt8 :=
  if s.sgr = [] then [] else [0x1B, 0x5B] ++ joinParams s.sgr ++ [0x6D]

/-- {lit}`ESC [ ? code h` for every mode, in ascending order. -/
def decModeBytes (s : StickyState) : List UInt8 :=
  (s.decModes.keys.map fun code => [0x1B, 0x5B, 0x3F] ++ decimal code.toNat ++ [0x68]).flatten

/-- {lit}`ESC [ top ; bottom r`. -/
def scrollRegionBytes (s : StickyState) : List UInt8 :=
  match s.scrollRegion with
  | none => []
  | some (top, bottom) =>
      [0x1B, 0x5B] ++ decimal top.toNat ++ [0x3B] ++ decimal bottom.toNat ++ [0x72]

/-- {lit}`ESC ] 7 ; cwd BEL`. -/
def cwdBytes (s : StickyState) : List UInt8 :=
  match s.cwd with
  | none => []
  | some cwd => [0x1B, 0x5D, 0x37, 0x3B] ++ cwd ++ [0x07]

/-- {lit}`ESC ] 2 ; title BEL`. -/
def titleBytes (s : StickyState) : List UInt8 :=
  match s.title with
  | none => []
  | some title => [0x1B, 0x5D, 0x32, 0x3B] ++ title ++ [0x07]

/-- Build the prologue from the tracked fields; it always begins with a full
SGR reset. -/
def buildSerialized (s : StickyState) : List UInt8 :=
  [0x1B, 0x5B, 0x30, 0x6D] ++ s.sgrBytes ++ s.decModeBytes ++ s.scrollRegionBytes ++
    s.cwdBytes ++ s.titleBytes

/-- The prologue, from the cache when it is filled; the state that comes back
has the cache filled. -/
def serialize (s : StickyState) : List UInt8 × StickyState :=
  match s.cache with
  | some cached => (cached, s)
  | none => (s.buildSerialized, { s with cache := some s.buildSerialized })

/-! ## Cache coherence -/

/-- A filled cache holds the prologue of the current fields. -/
def Coherent (s : StickyState) : Prop := ∀ cached, s.cache = some cached → cached = s.buildSerialized

/-- The tracked fields alone: the cache is emptied. -/
def erase (s : StickyState) : StickyState := { s with cache := none }

/-- Without a cache a state is coherent. -/
theorem coherent_of_cache_none {s : StickyState} (h : s.cache = none) : s.Coherent := by
  intro cached hcached
  rw [h] at hcached
  contradiction

/-- A fresh state is coherent. -/
theorem coherent_new : new.Coherent := coherent_of_cache_none rfl

/-- Setting the SGR list keeps the cache coherent. -/
theorem coherent_setSgr (s : StickyState) (params : List UInt16) : (s.setSgr params).Coherent :=
  coherent_of_cache_none rfl

/-- Setting a mode keeps the cache coherent. -/
theorem coherent_setDecMode (s : StickyState) (code : UInt16) (on : Bool) :
    (s.setDecMode code on).Coherent := by
  unfold setDecMode
  split <;> exact coherent_of_cache_none rfl

/-- Setting the scroll region keeps the cache coherent. -/
theorem coherent_setScrollRegion (s : StickyState) (region : Option (UInt16 × UInt16)) :
    (s.setScrollRegion region).Coherent :=
  coherent_of_cache_none rfl

/-- Setting the directory keeps the cache coherent. -/
theorem coherent_setCwd (s : StickyState) (cwd : List UInt8) : (s.setCwd cwd).Coherent :=
  coherent_of_cache_none rfl

/-- Setting the title keeps the cache coherent. -/
theorem coherent_setTitle (s : StickyState) (title : List UInt8) : (s.setTitle title).Coherent :=
  coherent_of_cache_none rfl

/-- A coherent cache answers what an uncached implementation would. -/
theorem serialize_eq {s : StickyState} (h : s.Coherent) : s.serialize.1 = s.buildSerialized := by
  unfold serialize
  split
  · rename_i cached hcached
    exact h cached hcached
  · rfl

/-- Serializing changes no tracked field. -/
@[simp] theorem erase_serialize (s : StickyState) : s.serialize.2.erase = s.erase := by
  unfold serialize
  split <;> rfl

/-- Serializing keeps the cache coherent. -/
theorem coherent_serialize {s : StickyState} (h : s.Coherent) : s.serialize.2.Coherent := by
  unfold serialize
  split
  · exact h
  · intro cached hcached
    simp only [Option.some.injEq] at hcached
    exact hcached.symm

end StickyState

end JftermMuxer.Core
