import JftermMuxer.Foundation.Decimal
import JftermMuxer.Vte.Table

/-!
# Complete sequences from ground to ground

How the state table reads one complete character, control, escape sequence,
CSI, OSC or DCS string, with the data it accumulates on the way.

Main results:

- Theorems {lit}`run_scalar`, {lit}`run_escape_body`, {lit}`run_csi_body`,
  {lit}`run_osc_body` and {lit}`run_dcs_body`: the run over each kind of
  sequence and the callbacks it makes.
- Theorem {lit}`head_oscFields`: the first field of an OSC payload is what
  precedes its first semicolon.
-/

namespace JftermMuxer.Vte

open Foundation

/-! ## Parameters and intermediates -/

/-- Bytes of a parameter list. -/
def isParamByte (b : UInt8) : Bool := isDigit b || b == 0x3A || b == 0x3B

/-- One byte of a parameter list. -/
def Seq.feedParam (s : Seq) (b : UInt8) : Seq :=
  if isDigit b then s.digit b else if b = 0x3A then s.subparam else s.nextParam

/-- Everything a CSI introducer collects before its final byte. -/
def csiSeq (marker : Option UInt8) (params intermediates : List UInt8) : Seq :=
  intermediates.foldl Seq.collect (params.foldl Seq.feedParam (marker.toList.foldl Seq.collect Seq.reset))

/-- The callback of a complete CSI sequence. -/
def csiCallback (marker : Option UInt8) (params intermediates : List UInt8) (final : UInt8) :
    Callback :=
  .csiDispatch (csiSeq marker params intermediates).finish.params.groups
    (csiSeq marker params intermediates).finish.intermediates
    (csiSeq marker params intermediates).finish.ignoring final

/-- Words that lead from ground to ground compose. -/
theorem run_ground_append {as bs : List UInt8} {xs ys : List Callback}
    (ha : table.run (.ground []) as = (.ground [], xs))
    (hb : table.run (.ground []) bs = (.ground [], ys)) :
    table.run (.ground []) (as ++ bs) = (.ground [], xs ++ ys) := by
  rw [Transducer.run_append, ha, hb]

/-- A parameter byte is a digit, a colon or a semicolon. -/
theorem isParamByte_cases {b : UInt8} (h : isParamByte b = true) :
    isC0 b = false ∧ isIntermediate b = false ∧
      (isDigit b = true ∨ isDigit b = false ∧ b = 0x3A ∨ isDigit b = false ∧ b = 0x3B) := by
  unfold isParamByte isDigit isC0 isIntermediate at *
  grind

/-- An intermediate byte is no control. -/
theorem isIntermediate_cases {b : UInt8} (h : isIntermediate b = true) : isC0 b = false := by
  unfold isIntermediate isC0 at *
  grind

/-- A final byte belongs to none of the earlier classes. -/
theorem isFinal_cases {b : UInt8} (h : isFinal b = true) :
    isC0 b = false ∧ isIntermediate b = false ∧ isDigit b = false ∧ b ≠ 0x3A ∧ b ≠ 0x3B ∧
      isPrivate b = false ∧ (decide (0x30 ≤ b) && decide (b ≤ 0x3F)) = false := by
  unfold isFinal isC0 isIntermediate isDigit isPrivate at *
  grind

/-- A private marker belongs to none of the other classes. -/
theorem isPrivate_cases {b : UInt8} (h : isPrivate b = true) :
    isC0 b = false ∧ isIntermediate b = false ∧ isDigit b = false ∧ b ≠ 0x3A ∧ b ≠ 0x3B := by
  unfold isPrivate isC0 isIntermediate isDigit at *
  grind

/-- States between the introducer of a CSI and its final byte, with the record
collected so far. -/
inductive CsiOpen : Seq → State → Prop where
  | entry : CsiOpen Seq.reset .csiEntry
  | param (s : Seq) : CsiOpen s (.csiParam s)
  | intermediate (s : Seq) : CsiOpen s (.csiIntermediate s)

/-- The open states that still accept parameters. -/
inductive CsiParams : Seq → State → Prop where
  | entry : CsiParams Seq.reset .csiEntry
  | param (s : Seq) : CsiParams s (.csiParam s)

/-- A sequence that may take parameters may take anything that comes later. -/
theorem CsiParams.isOpen {s : Seq} {q : State} (h : CsiParams s q) : CsiOpen s q := by
  cases h with
  | entry => exact .entry
  | param => exact .param s

/-- A parameter byte goes into the parameters. -/
theorem CsiParams.advance_param {s : Seq} {q : State} (h : CsiParams s q) {b : UInt8}
    (hb : isParamByte b = true) : advance q b = (.csiParam (s.feedParam b), []) := by
  obtain ⟨hc0, hint, hcases⟩ := isParamByte_cases hb
  cases h with
  | entry =>
      rcases hcases with hd | ⟨hd, rfl⟩ | ⟨hd, rfl⟩
      · simp [advance, advanceCsiEntry, Seq.feedParam, hc0, hint, hd]
      · rfl
      · rfl
  | param =>
      rcases hcases with hd | ⟨hd, rfl⟩ | ⟨hd, rfl⟩
      · simp [advance, advanceCsiParam, Seq.feedParam, hc0, hint, hd]
      · rfl
      · rfl

/-- An intermediate byte is collected. -/
theorem CsiOpen.advance_intermediate {s : Seq} {q : State} (h : CsiOpen s q) {b : UInt8}
    (hb : isIntermediate b = true) : advance q b = (.csiIntermediate (s.collect b), []) := by
  have hc0 := isIntermediate_cases hb
  cases h with
  | entry => simp [advance, advanceCsiEntry, hc0, hb]
  | param => simp [advance, advanceCsiParam, hc0, hb]
  | intermediate => simp [advance, advanceCsiIntermediate, hc0, hb]

/-- A final byte dispatches from every open state. -/
theorem CsiOpen.advance_final {s : Seq} {q : State} (h : CsiOpen s q) {b : UInt8}
    (hb : isFinal b = true) : advance q b = csiDispatch s b := by
  obtain ⟨hc0, hint, hdig, h3a, h3b, hpriv, hrange⟩ := isFinal_cases hb
  cases h with
  | entry => simp [advance, advanceCsiEntry, hc0, hint, hdig, h3a, h3b, hpriv, hb]
  | param => simp [advance, advanceCsiParam, hc0, hint, hdig, h3a, h3b, hpriv, hb]
  | intermediate =>
      simp only [advance, advanceCsiIntermediate, hc0, hint, hb, hrange]
      rfl

/-- Parameter bytes go into the parameters one by one, without a callback. -/
theorem CsiParams.run_params {s : Seq} {q : State} (h : CsiParams s q) {params : List UInt8}
    (hparams : ∀ b ∈ params, isParamByte b = true) :
    ∃ q', table.run q params = (q', []) ∧ CsiParams (params.foldl Seq.feedParam s) q' := by
  induction params generalizing s q with
  | nil => exact ⟨q, rfl, h⟩
  | cons b params ih =>
      have hstep := h.advance_param (hparams b (by simp))
      obtain ⟨q', hrun, hq'⟩ := ih (.param (s.feedParam b))
        (fun x hx => hparams x (List.mem_cons_of_mem b hx))
      refine ⟨q', ?_, hq'⟩
      rw [Transducer.run_cons, table_advance, hstep, hrun]
      rfl

/-- Intermediate bytes are collected one by one, without a callback. -/
theorem CsiOpen.run_intermediates {s : Seq} {q : State} (h : CsiOpen s q)
    {intermediates : List UInt8} (hint : ∀ b ∈ intermediates, isIntermediate b = true) :
    ∃ q', table.run q intermediates = (q', []) ∧
      CsiOpen (intermediates.foldl Seq.collect s) q' := by
  induction intermediates generalizing s q with
  | nil => exact ⟨q, rfl, h⟩
  | cons b intermediates ih =>
      have hstep := h.advance_intermediate (hint b (by simp))
      obtain ⟨q', hrun, hq'⟩ := ih (.intermediate (s.collect b))
        (fun x hx => hint x (List.mem_cons_of_mem b hx))
      refine ⟨q', ?_, hq'⟩
      rw [Transducer.run_cons, table_advance, hstep, hrun]
      rfl

/-- A CSI sequence up to its final byte makes no callback. -/
theorem run_csi_body (marker : Option UInt8) (hmarker : ∀ m ∈ marker, isPrivate m = true)
    {params intermediates : List UInt8} (hparams : ∀ b ∈ params, isParamByte b = true)
    (hint : ∀ b ∈ intermediates, isIntermediate b = true) :
    ∃ q, table.run (.ground []) ([0x1B, 0x5B] ++ (marker.toList ++ params ++ intermediates)) =
        (q, []) ∧
      CsiOpen (csiSeq marker params intermediates) q := by
  have hmark : ∃ q, table.run .csiEntry marker.toList = (q, []) ∧
      CsiParams (marker.toList.foldl Seq.collect Seq.reset) q := by
    cases marker with
    | none => exact ⟨.csiEntry, rfl, .entry⟩
    | some m =>
        have hm := hmarker m rfl
        obtain ⟨hc0, hi, hd, h3a, h3b⟩ := isPrivate_cases hm
        refine ⟨.csiParam (Seq.reset.collect m), ?_, .param _⟩
        simp [Transducer.run_cons, advance, advanceCsiEntry, hc0, hi, hd, h3a, h3b, hm]
  obtain ⟨q₁, hrun₁, hq₁⟩ := hmark
  obtain ⟨q₂, hrun₂, hq₂⟩ := hq₁.run_params hparams
  obtain ⟨q₃, hrun₃, hq₃⟩ := hq₂.isOpen.run_intermediates hint
  refine ⟨q₃, ?_, hq₃⟩
  have hintro : table.run (.ground []) [0x1B, 0x5B] = (.csiEntry, []) := rfl
  rw [Transducer.run_append, hintro, Transducer.run_append, Transducer.run_append, hrun₁, hrun₂,
    hrun₃]
  rfl

/-- A complete CSI sequence is one callback. -/
theorem run_csi_callback (marker : Option UInt8) (params intermediates : List UInt8)
    (final : UInt8) (hfinal : isFinal final = true)
    (hmarker : ∀ m ∈ marker, isPrivate m = true)
    (hparams : ∀ b ∈ params, isParamByte b = true)
    (hint : ∀ b ∈ intermediates, isIntermediate b = true) :
    table.run (.ground []) ([0x1B, 0x5B] ++ (marker.toList ++ params ++ intermediates ++ [final])) =
      (.ground [], [csiCallback marker params intermediates final]) := by
  obtain ⟨q, hrun, hopen⟩ := run_csi_body marker hmarker hparams hint
  rw [← List.append_assoc, Transducer.run_append, hrun, Transducer.run_cons, table_advance,
    hopen.advance_final hfinal]
  rfl

/-! ## The first parameter -/

/-- The value of the first parameter of a list: its leading digits. -/
def firstParam (params : List UInt8) : Nat := (params.takeWhile isDigit).foldl readDigit 0

/-- Intermediates leave the parameters alone. -/
theorem Seq.params_foldl_collect (s : Seq) (bs : List UInt8) :
    (bs.foldl Seq.collect s).params = s.params ∧ (bs.foldl Seq.collect s).param = s.param := by
  induction bs generalizing s with
  | nil => exact ⟨rfl, rfl⟩
  | cons b bs ih =>
      have hstep : (s.collect b).params = s.params ∧ (s.collect b).param = s.param := by
        unfold Seq.collect
        split <;> exact ⟨rfl, rfl⟩
      rw [List.foldl_cons, (ih (s.collect b)).1, (ih (s.collect b)).2, hstep.1, hstep.2]
      exact ⟨rfl, rfl⟩

private theorem first_feedParam {s : Seq} {v : UInt16} (h : s.params.first = some v) (b : UInt8) :
    (s.feedParam b).params.first = some v := by
  unfold Seq.feedParam
  split
  · unfold Seq.digit
    split <;> exact h
  · split
    · unfold Seq.subparam
      split
      · exact h
      · exact Params.first_extend h s.param
    · unfold Seq.nextParam
      split
      · exact h
      · exact Params.first_push h s.param

/-- Once stored, the first value stays. -/
theorem first_foldl {s : Seq} {v : UInt16} (h : s.params.first = some v)
    (params : List UInt8) : (params.foldl Seq.feedParam s).finish.params.first = some v := by
  induction params generalizing s with
  | nil =>
      rw [List.foldl_nil, Seq.finish]
      split
      · exact h
      · exact Params.first_push h s.param
  | cons b params ih => exact ih (first_feedParam h b)

private theorem first_empty_push (v : UInt16) : (Params.empty.push v).first = some v := rfl

private theorem first_empty_extend (v : UInt16) : (Params.empty.extend v).first = some v := rfl

private theorem first_finish_foldl {s : Seq} (hempty : s.params = Params.empty)
    {params : List UInt8} (h : ∀ b ∈ params, isParamByte b = true) :
    (params.foldl Seq.feedParam s).finish.params.first =
      some (UInt16.ofNat ((params.takeWhile isDigit).foldl readDigit s.param.toNat)) := by
  have hroom : ∀ t : Seq, t.params = Params.empty → t.params.isFull = false := by
    intro t ht
    rw [ht]
    rfl
  induction params generalizing s with
  | nil =>
      have hfinish : s.finish.params = Params.empty.push s.param := by
        rw [Seq.finish, hroom s hempty, ← hempty]
        rfl
      rw [List.foldl_nil, hfinish, first_empty_push]
      simp
  | cons b params ih =>
      obtain ⟨-, -, hcases⟩ := isParamByte_cases (h b (by simp))
      rcases hcases with hd | ⟨hd, rfl⟩ | ⟨hd, rfl⟩
      · -- a leading digit extends the value of the first parameter
        have hfeed : s.feedParam b =
            { s with param := UInt16.ofNat (readDigit s.param.toNat b) } := by
          rw [Seq.feedParam, if_pos hd, Seq.digit, hroom s hempty]
          rfl
        have hvalue : (UInt16.ofNat (readDigit s.param.toNat b)).toNat =
            readDigit s.param.toNat b := by
          have hle : readDigit s.param.toNat b ≤ 65535 := Nat.min_le_left _ _
          rw [UInt16.toNat_ofNat']
          omega
        have hrest := ih (s := { s with param := UInt16.ofNat (readDigit s.param.toNat b) }) hempty
          (fun x hx => h x (List.mem_cons_of_mem b hx))
        rw [List.foldl_cons, hfeed, hrest, hvalue, List.takeWhile_cons, hd]
        rfl
      · have hfeed : (s.feedParam 0x3A).params.first = some s.param := by
          have hparams : (s.feedParam 0x3A).params = Params.empty.extend s.param := by
            rw [Seq.feedParam, hd, Seq.subparam, hroom s hempty, ← hempty]
            rfl
          rw [hparams, first_empty_extend]
        rw [List.foldl_cons, first_foldl hfeed, List.takeWhile_cons, hd]
        simp
      · have hfeed : (s.feedParam 0x3B).params.first = some s.param := by
          have hparams : (s.feedParam 0x3B).params = Params.empty.push s.param := by
            rw [Seq.feedParam, hd, if_neg (by decide), if_neg (by decide), Seq.nextParam,
              hroom s hempty, ← hempty]
            rfl
          rw [hparams, first_empty_push]
        rw [List.foldl_cons, first_foldl hfeed, List.takeWhile_cons, hd]
        simp

/-- The first value a CSI is dispatched with is its first parameter. -/
theorem head_groups_csiSeq (marker : Option UInt8) {params : List UInt8}
    (hparams : ∀ b ∈ params, isParamByte b = true) (intermediates : List UInt8) :
    (csiSeq marker params intermediates).finish.params.groups[0]?.bind List.head? =
      some (UInt16.ofNat (firstParam params)) := by
  have hmarker := Seq.params_foldl_collect Seq.reset marker.toList
  have hfirst := first_finish_foldl hmarker.1 hparams
  have hint := Seq.params_foldl_collect
    (params.foldl Seq.feedParam (marker.toList.foldl Seq.collect Seq.reset)) intermediates
  have hfinish : (csiSeq marker params intermediates).finish.params =
      (params.foldl Seq.feedParam (marker.toList.foldl Seq.collect Seq.reset)).finish.params := by
    simp only [csiSeq, Seq.finish, hint.1, hint.2]
    split <;> rfl
  rw [hmarker.2] at hfirst
  rw [hfinish]
  exact Params.head_groups hfirst

/-! ## Escape sequences -/

/-- Final bytes that end an escape sequence at once: all but the introducers of
the string and CSI states. -/
def isEscFinal (b : UInt8) : Bool :=
  0x30 ≤ b && b ≤ 0x7E && b != 0x50 && b != 0x58 && b != 0x5B && b != 0x5D && b != 0x5E && b != 0x5F

/-- States between the ESC of an escape sequence and its final byte. -/
inductive EscOpen : Seq → State → Prop where
  | escape : EscOpen Seq.reset .escape
  | intermediate (s : Seq) : EscOpen s (.escapeIntermediate s)

/-- An intermediate byte behind ESC is collected. -/
theorem EscOpen.advance_intermediate {s : Seq} {q : State} (h : EscOpen s q) {b : UInt8}
    (hb : isIntermediate b = true) : advance q b = (.escapeIntermediate (s.collect b), []) := by
  have hc0 := isIntermediate_cases hb
  cases h with
  | escape => simp [advance, advanceEscape, hc0, hb]
  | intermediate => simp [advance, advanceEscapeIntermediate, hc0, hb]

/-- A final byte dispatches; right after the ESC the introducers are excluded. -/
theorem EscOpen.advance_final {s : Seq} {q : State} (h : EscOpen s q) {b : UInt8}
    (hlow : 0x30 ≤ b) (hhigh : b ≤ 0x7E) (hesc : q = .escape → isEscFinal b = true) :
    advance q b = (.ground [], [.escDispatch s.intermediates s.ignoring b]) := by
  cases h with
  | escape =>
      have hfinal := hesc rfl
      unfold isEscFinal at hfinal
      unfold advance advanceEscape isC0 isIntermediate
      grind [Seq.reset]
  | intermediate =>
      have hc0 : isC0 b = false := by
        unfold isC0
        grind
      have hi : isIntermediate b = false := by
        unfold isIntermediate
        grind
      simp [advance, advanceEscapeIntermediate, hc0, hi, hlow, hhigh]

/-- An escape sequence up to its final byte makes no callback. -/
theorem run_escape_body {intermediates : List UInt8}
    (hint : ∀ b ∈ intermediates, isIntermediate b = true) :
    ∃ q, table.run (.ground []) ([0x1B] ++ intermediates) = (q, []) ∧
      EscOpen (intermediates.foldl Seq.collect Seq.reset) q ∧
      (q = .escape → intermediates = []) := by
  have hrun : ∀ s q, EscOpen s q → ∀ bs : List UInt8, (∀ b ∈ bs, isIntermediate b = true) →
      ∃ q', table.run q bs = (q', []) ∧ EscOpen (bs.foldl Seq.collect s) q' ∧
        (q' = .escape → bs = []) := by
    intro s q h bs
    induction bs generalizing s q with
    | nil => exact fun _ => ⟨q, rfl, h, fun _ => rfl⟩
    | cons b bs ih =>
        intro hbs
        have hstep := h.advance_intermediate (hbs b (by simp))
        obtain ⟨q', hrun, hq', hesc⟩ := ih _ _ (.intermediate (s.collect b))
          (fun x hx => hbs x (List.mem_cons_of_mem b hx))
        refine ⟨q', ?_, hq', ?_⟩
        · rw [Transducer.run_cons, table_advance, hstep, hrun]
          rfl
        · intro hq
          have hnil := hesc hq
          subst hnil hq
          cases hrun
  obtain ⟨q, hq, hopen, hesc⟩ := hrun _ _ .escape intermediates hint
  refine ⟨q, ?_, hopen, hesc⟩
  have hintro : table.run (.ground []) [0x1B] = (.escape, []) := rfl
  rw [Transducer.run_append, hintro, hq]
  rfl

/-! ## OSC strings -/

/-- One payload byte of an OSC string. -/
def Osc.feed (o : Osc) (b : UInt8) : Osc := if b = 0x3B then o.putParam else o.put b

/-- The fields a payload is dispatched with. -/
def oscFields (payload : List UInt8) : List (List UInt8) :=
  (payload.foldl Osc.feed Osc.reset).dispatched

/-- The payload of an OSC string is collected without a callback. -/
theorem run_oscString (o : Osc) {payload : List UInt8} (h : ∀ b ∈ payload, 0x20 ≤ b) :
    table.run (.oscString o) payload = (.oscString (payload.foldl Osc.feed o), []) := by
  induction payload generalizing o with
  | nil => rfl
  | cons b payload ih =>
      have hb := h b (by simp)
      have hbel : b ≠ 0x07 := by grind
      have hc0 : isC0 b = false := by
        unfold isC0
        grind
      have hcan : isCancel b = false := by
        unfold isCancel
        grind
      have hesc : b ≠ 0x1B := by grind
      have hstep : advanceOscString o b = (.oscString (o.feed b), []) := by
        by_cases hsep : b = 0x3B
        · subst hsep
          rfl
        · simp [advanceOscString, hbel, hc0, hcan, hesc, Osc.feed, hsep]
      rw [Transducer.run_cons, table_advance, advance, hstep]
      rw [ih _ (fun x hx => h x (List.mem_cons_of_mem b hx))]
      rfl

/-- An OSC string up to its terminating byte makes no callback. -/
theorem run_osc_body {payload : List UInt8} (h : ∀ b ∈ payload, 0x20 ≤ b) :
    table.run (.ground []) ([0x1B, 0x5D] ++ payload) =
      (.oscString (payload.foldl Osc.feed Osc.reset), []) := by
  have hintro : table.run (.ground []) [0x1B, 0x5D] = (.oscString Osc.reset, []) := rfl
  rw [Transducer.run_append, hintro, run_oscString _ h]
  rfl

/-- A whole OSC string ended by a BEL dispatches its fields. -/
theorem run_osc_bel {payload : List UInt8} (h : ∀ b ∈ payload, 0x20 ≤ b) :
    table.run (.ground []) ([0x1B, 0x5D] ++ payload ++ [0x07]) =
      (.ground [], [.oscDispatch (oscFields payload) true]) := by
  rw [Transducer.run_append, run_osc_body h]
  rfl

/-- Bytes without semicolons extend the open field. -/
theorem foldl_feed_plain (o : Osc) {text : List UInt8} (h : 0x3B ∉ text) :
    text.foldl Osc.feed o = { o with current := o.current ++ text } := by
  induction text generalizing o with
  | nil => simp
  | cons b text ih =>
      simp only [List.mem_cons, not_or] at h
      have hfeed : o.feed b = o.put b := if_neg (fun hb => h.1 hb.symm)
      rw [List.foldl_cons, hfeed, ih _ h.2]
      simp [Osc.put]

private theorem getElem?_dispatched {o : Osc} {n : Nat} {field : List UInt8}
    (h : o.fields[n]? = some field) : o.dispatched[n]? = some field := by
  obtain ⟨hlt, -⟩ := List.getElem?_eq_some_iff.mp h
  unfold Osc.dispatched Osc.putParam
  split
  · exact h
  · rw [List.getElem?_append_left hlt]
    exact h

/-- A closed field is dispatched as it is. -/
theorem getElem?_dispatched_foldl {o : Osc} {n : Nat} {field : List UInt8}
    (h : o.fields[n]? = some field) (payload : List UInt8) :
    (payload.foldl Osc.feed o).dispatched[n]? = some field := by
  induction payload generalizing o with
  | nil => exact getElem?_dispatched h
  | cons b payload ih =>
      apply ih
      unfold Osc.feed
      split
      · exact getElem?_dispatched h
      · exact h

/-- The open field ends at the next semicolon. -/
theorem open_dispatched_foldl (fields : List (List UInt8)) (hroom : fields.length < maxOscParams)
    (current payload : List UInt8) :
    (payload.foldl Osc.feed ⟨fields, current⟩).dispatched[fields.length]? =
      some (current ++ payload.takeWhile (· ≠ 0x3B)) := by
  have hput : ∀ current, (⟨fields, current⟩ : Osc).putParam = ⟨fields ++ [current], []⟩ :=
    fun current => if_neg (by simp only; omega)
  induction payload generalizing current with
  | nil =>
      rw [List.foldl_nil, Osc.dispatched, hput]
      simp
  | cons b payload ih =>
      by_cases hb : b = 0x3B
      · have hfeed : (⟨fields, current⟩ : Osc).feed b = ⟨fields ++ [current], []⟩ := by
          rw [Osc.feed, if_pos hb, hput]
        have hclosed : (⟨fields ++ [current], []⟩ : Osc).fields[fields.length]? = some current := by
          simp
        rw [List.foldl_cons, hfeed, getElem?_dispatched_foldl hclosed]
        simp [hb]
      · have hfeed : (⟨fields, current⟩ : Osc).feed b = ⟨fields, current ++ [b]⟩ := by
          simp [Osc.feed, hb, Osc.put]
        rw [List.foldl_cons, hfeed, ih]
        simp [hb]

/-- The first field is the payload up to its first semicolon. -/
theorem head_oscFields (payload : List UInt8) :
    (oscFields payload).head? = some (payload.takeWhile (· ≠ 0x3B)) := by
  rw [List.head?_eq_getElem?]
  exact open_dispatched_foldl [] (by decide) [] payload

/-! ## DCS strings -/

/-- Parameter bytes of a DCS go into the parameters one by one. -/
theorem run_dcsParam (s : Seq) {params : List UInt8} (h : ∀ b ∈ params, isParamByte b = true) :
    table.run (.dcsParam s) params = (.dcsParam (params.foldl Seq.feedParam s), []) := by
  induction params generalizing s with
  | nil => rfl
  | cons b params ih =>
      have hb : advanceDcsParam s b = (.dcsParam (s.feedParam b), []) := by
        obtain ⟨hc0, hint, hcases⟩ := isParamByte_cases (h b (by simp))
        rcases hcases with hd | ⟨hd, rfl⟩ | ⟨hd, rfl⟩
        · simp [advanceDcsParam, Seq.feedParam, hc0, hint, hd]
        · rfl
        · rfl
      rw [Transducer.run_cons, table_advance, advance, hb]
      rw [ih _ (fun x hx => h x (List.mem_cons_of_mem b hx))]
      rfl

/-- The header of a DCS ends with the hook of its final byte. -/
theorem run_dcsEntry {final : UInt8} (hfinal : isFinal final = true) {params : List UInt8}
    (h : ∀ b ∈ params, isParamByte b = true) :
    table.run .dcsEntry (params ++ [final]) = hook (params.foldl Seq.feedParam Seq.reset) final := by
  obtain ⟨hc0, hi, hd, h3a, h3b, hp, -⟩ := isFinal_cases hfinal
  have hlast : ∀ s, advanceDcsParam s final = hook s final := by
    intro s
    simp [advanceDcsParam, hc0, hi, hd, h3a, h3b, hp, hfinal]
  cases params with
  | nil =>
      have hstep : advanceDcsEntry final = hook Seq.reset final := by
        simp [advanceDcsEntry, hc0, hi, hd, h3a, h3b, hp, hfinal]
      rw [List.nil_append, Transducer.run_cons, table_advance, advance, hstep]
      rfl
  | cons b params =>
      have hstep : advanceDcsEntry b = (.dcsParam (Seq.reset.feedParam b), []) := by
        obtain ⟨hc0, hint, hcases⟩ := isParamByte_cases (h b (by simp))
        rcases hcases with hd | ⟨hd, rfl⟩ | ⟨hd, rfl⟩
        · simp [advanceDcsEntry, Seq.feedParam, hc0, hint, hd]
        · rfl
        · rfl
      rw [List.cons_append, Transducer.run_cons, table_advance, advance, hstep]
      rw [Transducer.run_append, run_dcsParam _ (fun x hx => h x (List.mem_cons_of_mem b hx)),
        Transducer.run_cons, table_advance, advance, hlast]
      rfl

/-- The payload of a DCS is put through byte by byte. -/
theorem run_dcsPassthrough {payload : List UInt8} (h : ∀ b ∈ payload, 0x20 ≤ b ∧ b ≤ 0x7E) :
    table.run .dcsPassthrough payload = (.dcsPassthrough, payload.map Callback.put) := by
  induction payload with
  | nil => rfl
  | cons b payload ih =>
      have hb := h b (by simp)
      have hstep : advanceDcsPassthrough b = (.dcsPassthrough, [.put b]) := by
        simp [advanceDcsPassthrough, hb.1, hb.2]
      rw [Transducer.run_cons, table_advance, advance, hstep]
      rw [ih (fun x hx => h x (List.mem_cons_of_mem b hx))]
      rfl

/-- A DCS string up to the ESC that begins its terminator. -/
theorem run_dcs_body {final : UInt8} (hfinal : isFinal final = true) {params payload : List UInt8}
    (hparams : ∀ b ∈ params, isParamByte b = true)
    (hpayload : ∀ b ∈ payload, 0x20 ≤ b ∧ b ≤ 0x7E) :
    table.run (.ground []) ([0x1B, 0x50] ++ (params ++ [final] ++ payload)) =
      (.dcsPassthrough, (hook (params.foldl Seq.feedParam Seq.reset) final).2 ++
        payload.map Callback.put) := by
  have hintro : table.run (.ground []) [0x1B, 0x50] = (.dcsEntry, []) := rfl
  have hstate : (hook (params.foldl Seq.feedParam Seq.reset) final).1 = .dcsPassthrough := rfl
  rw [Transducer.run_append, hintro, Transducer.run_append, run_dcsEntry hfinal hparams, hstate,
    run_dcsPassthrough hpayload]
  rfl

/-! ## Characters -/

/-- Reading one byte of a character that is not its last. -/
theorem advanceGround_partial (buffer : List UInt8) (b : UInt8) (hne : buffer ≠ [])
    (hok : contOk buffer b = true) (hlen : buffer.length + 1 ≠ bufferWidth buffer) :
    advanceGround buffer b = (.ground (buffer ++ [b]), []) := by
  simp [advanceGround, hne, hok, hlen]

/-- Reading the last byte of a character. -/
theorem advanceGround_complete (buffer : List UInt8) (b : UInt8) (hne : buffer ≠ [])
    (hok : contOk buffer b = true) (hlen : buffer.length + 1 = bufferWidth buffer) :
    advanceGround buffer b = (.ground [], [.print (decodeChar (buffer ++ [b]))]) := by
  simp [advanceGround, hne, hok, hlen]

/-- A lead byte waits for its continuation bytes. -/
theorem advanceGround_lead {b : UInt8} (h : 2 ≤ leadWidth b) :
    advanceGround [] b = (.ground [b], []) := by
  have hhigh := leadWidth_high h
  simp only [advanceGround, if_true, advanceGroundFresh]
  grind

/-- A character waits in the buffer until its last byte prints it. -/
theorem run_scalar {bs : List UInt8} (h : IsScalar bs) (hprint : ∀ a, bs = [a] → 0x20 ≤ a) :
    ∃ body last, bs = body ++ [last] ∧ table.run (.ground []) body = (.ground body, []) ∧
      advance (.ground body) last = (.ground [], [.print (decodeChar bs)]) := by
  cases h with
  | @one a ha =>
      have hlow := hprint a rfl
      refine ⟨[], a, rfl, rfl, ?_⟩
      simp only [advance, advanceGround, if_true, advanceGroundFresh]
      grind
  | @two a b ha hb =>
      have hlead := advanceGround_lead (b := a) (by omega)
      refine ⟨[a], b, rfl, ?_, ?_⟩
      · simp [Transducer.run_cons, advance, hlead]
      · exact advanceGround_complete [a] b (by simp) hb (by simp [bufferWidth, ha])
  | @three a b c ha hb hc =>
      have hlead := advanceGround_lead (b := a) (by omega)
      have hmid := advanceGround_partial [a] b (by simp) hb (by simp [bufferWidth, ha])
      refine ⟨[a, b], c, rfl, ?_, ?_⟩
      · simp [Transducer.run_cons, advance, hlead, hmid]
      · exact advanceGround_complete [a, b] c (by simp) hc (by simp [bufferWidth, ha])
  | @four a b c d ha hb hc hd =>
      have hlead := advanceGround_lead (b := a) (by omega)
      have hsecond := advanceGround_partial [a] b (by simp) hb (by simp [bufferWidth, ha])
      have hthird := advanceGround_partial [a, b] c (by simp) hc (by simp [bufferWidth, ha])
      refine ⟨[a, b, c], d, rfl, ?_, ?_⟩
      · simp only [List.cons_append, List.nil_append] at hthird
        simp [Transducer.run_cons, advance, hlead, hsecond, hthird]
      · exact advanceGround_complete [a, b, c] d (by simp) hd (by simp [bufferWidth, ha])

end JftermMuxer.Vte
