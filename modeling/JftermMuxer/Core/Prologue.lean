import JftermMuxer.Core.Scanner
import JftermMuxer.Vte.Sequences

/-!
# Parsing a prologue

The serialized sticky state is a sequence of complete CSI and OSC sequences, so
a parser in the ground state reads it back to the ground state.  This file
computes the callbacks it makes.

Main results:

- Theorem {lit}`run_buildSerialized`: a prologue leads from ground to ground
  through {lit}`prologueCallbacks`.
- Theorem {lit}`prologue_induct`: what the sequences of a prologue have in common, the
  prologue has.
- Theorem {lit}`isParamByte_of_mem_joinParams`: joined parameters are parameter
  bytes.
-/

namespace JftermMuxer.Core

open Foundation Vte

/-- No byte below 0x20: the bytes an OSC string can hold. -/
def Plain (bs : List UInt8) : Prop := ∀ b ∈ bs, 0x20 ≤ b

/-- The tracked directory and title are plain. -/
def PlainSticky (s : StickyState) : Prop :=
  (∀ cwd, s.cwd = some cwd → Plain cwd) ∧ (∀ title, s.title = some title → Plain title)

/-! ## Bytes of joined parameters -/

/-- Digits are parameter bytes. -/
theorem isParamByte_of_digit {b : UInt8} (h : 0x30 ≤ b ∧ b ≤ 0x39) : isParamByte b = true := by
  simp [isParamByte, isDigit, h.1, h.2]

/-- One value is written in decimal. -/
theorem joinParams_singleton (p : UInt16) : StickyState.joinParams [p] = decimal p.toNat := by
  simp [StickyState.joinParams, List.intercalate]

/-- Values are separated by semicolons. -/
theorem joinParams_cons (p q : UInt16) (ps : List UInt16) :
    StickyState.joinParams (p :: q :: ps) =
      decimal p.toNat ++ [0x3B] ++ StickyState.joinParams (q :: ps) := by
  simp [StickyState.joinParams, List.intercalate]

/-- The values written are parameter bytes. -/
theorem isParamByte_of_mem_joinParams {ps : List UInt16} {b : UInt8}
    (hb : b ∈ StickyState.joinParams ps) : isParamByte b = true := by
  induction ps with
  | nil => simp [StickyState.joinParams, List.intercalate] at hb
  | cons p ps ih =>
      cases ps with
      | nil =>
          rw [joinParams_singleton] at hb
          exact isParamByte_of_digit (isDigit_of_mem_decimal hb)
      | cons q ps =>
          rw [joinParams_cons] at hb
          simp only [List.mem_append, List.mem_singleton] at hb
          rcases hb with (hb | hb) | hb
          · exact isParamByte_of_digit (isDigit_of_mem_decimal hb)
          · subst hb
            rfl
          · exact ih hb

/-- Two numbers joined by a semicolon are parameter bytes. -/
theorem isParamByte_of_mem_pair {m n : Nat} {b : UInt8}
    (hb : b ∈ decimal m ++ [0x3B] ++ decimal n) : isParamByte b = true := by
  simp only [List.mem_append, List.mem_singleton] at hb
  rcases hb with (hb | hb) | hb
  · exact isParamByte_of_digit (isDigit_of_mem_decimal hb)
  · subst hb
    rfl
  · exact isParamByte_of_digit (isDigit_of_mem_decimal hb)

/-- A code and its text are plain. -/
theorem plain_prefixed {code : UInt8} (hcode : 0x20 ≤ code) {text : List UInt8}
    (htext : Plain text) : Plain ([code, 0x3B] ++ text) := by
  intro b hb
  simp only [List.mem_append, List.mem_cons, List.not_mem_nil, or_false] at hb
  rcases hb with (rfl | rfl) | hb
  · exact hcode
  · decide
  · exact htext b hb

/-- A property of words that the CSI sequences of a prologue and its two OSC strings
have, and that concatenation keeps, is a property of the prologue. -/
theorem prologue_induct {P : List UInt8 → Prop} {s : StickyState} (hnil : P [])
    (happend : ∀ as bs, P as → P bs → P (as ++ bs))
    (hcsi : ∀ w : List UInt8, (∀ b ∈ w, 0x20 ≤ b ∧ b < 0x80) → P (0x1B :: 0x5B :: w))
    (hcwd : ∀ cwd, s.cwd = some cwd → P ([0x1B, 0x5D, 0x37, 0x3B] ++ cwd ++ [0x07]))
    (htitle : ∀ title, s.title = some title → P ([0x1B, 0x5D, 0x32, 0x3B] ++ title ++ [0x07])) :
    P s.buildSerialized := by
  have hparam : ∀ b, isParamByte b = true → 0x20 ≤ b ∧ b < 0x80 := by
    intro b hb
    simp only [isParamByte, isDigit, Bool.or_eq_true, Bool.and_eq_true, decide_eq_true_eq,
      beq_iff_eq] at hb
    grind
  have hdigits : ∀ n, ∀ b ∈ decimal n, 0x20 ≤ b ∧ b < 0x80 :=
    fun n b hb => hparam b (isParamByte_of_digit (isDigit_of_mem_decimal hb))
  have hsgr : P s.sgrBytes := by
    unfold StickyState.sgrBytes
    split
    · exact hnil
    · have hparams : ∀ b ∈ StickyState.joinParams s.sgr, 0x20 ≤ b ∧ b < 0x80 :=
        fun b hb => hparam b (isParamByte_of_mem_joinParams hb)
      exact hcsi _ (List.forall_mem_append.mpr ⟨hparams, by simp⟩)
  have hmodes : P s.decModeBytes := by
    unfold StickyState.decModeBytes
    induction s.decModes.keys with
    | nil => exact hnil
    | cons code keys ih =>
        have hmode : ∀ b ∈ [0x3F] ++ (decimal code.toNat ++ [0x68]), 0x20 ≤ b ∧ b < 0x80 :=
          List.forall_mem_append.mpr ⟨by simp, List.forall_mem_append.mpr ⟨hdigits _, by simp⟩⟩
        rw [List.map_cons, List.flatten_cons]
        exact happend _ _ (hcsi _ hmode) ih
  have hregion : P s.scrollRegionBytes := by
    unfold StickyState.scrollRegionBytes
    split
    · exact hnil
    · rename_i top bottom hsome
      have hpair : ∀ b ∈ decimal top.toNat ++ [0x3B] ++ decimal bottom.toNat, 0x20 ≤ b ∧ b < 0x80 :=
        fun b hb => hparam b (isParamByte_of_mem_pair hb)
      exact hcsi _ (List.forall_mem_append.mpr ⟨hpair, by simp⟩)
  have hdirectory : P s.cwdBytes := by
    unfold StickyState.cwdBytes
    split
    · exact hnil
    · rename_i cwd hsome
      exact hcwd cwd hsome
  have hname : P s.titleBytes := by
    unfold StickyState.titleBytes
    split
    · exact hnil
    · rename_i title hsome
      exact htitle title hsome
  have hreset : P [0x1B, 0x5B, 0x30, 0x6D] := hcsi [0x30, 0x6D] (by simp)
  unfold StickyState.buildSerialized
  exact happend _ _ (happend _ _ (happend _ _ (happend _ _ (happend _ _ hreset hsgr) hmodes)
    hregion) hdirectory) hname

/-! ## Callbacks of a prologue -/

/-- The SGR part of a prologue. -/
def sgrCallbacks (s : StickyState) : List Callback :=
  if s.sgr = [] then [] else [csiCallback none (StickyState.joinParams s.sgr) [] 0x6D]

/-- The mode part of a prologue. -/
def decModeCallbacks (s : StickyState) : List Callback :=
  s.decModes.keys.map fun code => csiCallback (some 0x3F) (decimal code.toNat) [] 0x68

/-- The scroll region part of a prologue. -/
def scrollRegionCallbacks (s : StickyState) : List Callback :=
  match s.scrollRegion with
  | none => []
  | some (top, bottom) =>
      [csiCallback none (decimal top.toNat ++ [0x3B] ++ decimal bottom.toNat) [] 0x72]

/-- The directory part of a prologue. -/
def cwdCallbacks (s : StickyState) : List Callback :=
  match s.cwd with
  | none => []
  | some cwd => [.oscDispatch (oscFields ([0x37, 0x3B] ++ cwd)) true]

/-- The title part of a prologue. -/
def titleCallbacks (s : StickyState) : List Callback :=
  match s.title with
  | none => []
  | some title => [.oscDispatch (oscFields ([0x32, 0x3B] ++ title)) true]

/-- Everything a parser reports about a prologue. -/
def prologueCallbacks (s : StickyState) : List Callback :=
  [csiCallback none [0x30] [] 0x6D] ++ sgrCallbacks s ++ decModeCallbacks s ++
    scrollRegionCallbacks s ++ cwdCallbacks s ++ titleCallbacks s

private theorem run_sgrBytes (s : StickyState) :
    table.run (.ground []) s.sgrBytes = (.ground [], sgrCallbacks s) := by
  unfold StickyState.sgrBytes sgrCallbacks
  split
  · rfl
  · have hrun := run_csi_callback none (StickyState.joinParams s.sgr) [] 0x6D rfl (by simp)
      (fun b hb => isParamByte_of_mem_joinParams hb) (by simp)
    simpa using hrun

private theorem run_decModeBytes (s : StickyState) :
    table.run (.ground []) s.decModeBytes = (.ground [], decModeCallbacks s) := by
  unfold StickyState.decModeBytes decModeCallbacks
  induction s.decModes.keys with
  | nil => rfl
  | cons code keys ih =>
      have hrun := run_csi_callback (some 0x3F) (decimal code.toNat) [] 0x68 rfl
        (by simp [isPrivate])
        (fun b hb => isParamByte_of_digit (isDigit_of_mem_decimal hb)) (by simp)
      rw [List.map_cons, List.flatten_cons]
      have hword := run_ground_append hrun ih
      simpa using hword

private theorem run_scrollRegionBytes (s : StickyState) :
    table.run (.ground []) s.scrollRegionBytes = (.ground [], scrollRegionCallbacks s) := by
  cases hregion : s.scrollRegion with
  | none => simp [StickyState.scrollRegionBytes, scrollRegionCallbacks, hregion]
  | some region =>
      obtain ⟨top, bottom⟩ := region
      have hrun := run_csi_callback none (decimal top.toNat ++ [0x3B] ++ decimal bottom.toNat) [] 0x72
        rfl (by simp) (fun b hb => isParamByte_of_mem_pair hb) (by simp)
      simpa [StickyState.scrollRegionBytes, scrollRegionCallbacks, hregion] using hrun

private theorem run_osc_prefixed (code : UInt8) (hcode : 0x20 ≤ code) {text : List UInt8}
    (htext : Plain text) :
    table.run (.ground []) ([0x1B, 0x5D, code, 0x3B] ++ text ++ [0x07]) =
      (.ground [], [.oscDispatch (oscFields ([code, 0x3B] ++ text)) true]) := by
  simpa using run_osc_bel (plain_prefixed hcode htext)

/-- A prologue is read from ground to ground. -/
theorem run_buildSerialized {s : StickyState} (h : PlainSticky s) :
    table.run (.ground []) s.buildSerialized = (.ground [], prologueCallbacks s) := by
  have hcwd : table.run (.ground []) s.cwdBytes = (.ground [], cwdCallbacks s) := by
    cases hsome : s.cwd with
    | none => simp [StickyState.cwdBytes, cwdCallbacks, hsome]
    | some cwd =>
        simpa [StickyState.cwdBytes, cwdCallbacks, hsome] using
          run_osc_prefixed 0x37 (by decide) (h.1 cwd hsome)
  have htitle : table.run (.ground []) s.titleBytes = (.ground [], titleCallbacks s) := by
    cases hsome : s.title with
    | none => simp [StickyState.titleBytes, titleCallbacks, hsome]
    | some title =>
        simpa [StickyState.titleBytes, titleCallbacks, hsome] using
          run_osc_prefixed 0x32 (by decide) (h.2 title hsome)
  have hreset : table.run (.ground []) [0x1B, 0x5B, 0x30, 0x6D] =
      (.ground [], [csiCallback none [0x30] [] 0x6D]) := rfl
  unfold StickyState.buildSerialized prologueCallbacks
  exact run_ground_append (run_ground_append (run_ground_append (run_ground_append
    (run_ground_append hreset (run_sgrBytes s)) (run_decModeBytes s)) (run_scrollRegionBytes s))
    hcwd) htitle

end JftermMuxer.Core
