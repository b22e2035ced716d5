import JftermMuxer.Daemon.Stream

/-!
# What a session says about its shell

Two statements a session makes once its shell is gone: the exit status that the
drain reports, and whether a command is running.  The status comes from a spin of
200 calls to `waitpid`, after which the drain settles for zero; the running flag is
computed in two places, one of which looks at the lifecycle and one of which does
not.

Main results:

- Theorem {lit}`Pty.reapLoop_spin` and {lit}`Pty.reapLoop_justified`: the spin ends
  empty-handed, or with an answer that says so.
- Theorem {lit}`Session.exitReal_iff`: a reported exit status is real iff the spin
  is not exhausted by a child that still runs.
- Theorem {lit}`World.runningAgrees_iff`: LIST and STATUS agree on the running flag
  unless the shell died in the middle of a marked command.
-/

namespace JftermMuxer.Daemon

/-! ## The exit status -/

/-- The status of a terminal answer of `waitpid`. -/
def WaitStatus.terminal : WaitStatus → Option Int
  | .exited code => some code
  | .signaled sig => some (128 + sig)
  | .running => none

/-- The calls account for an exit status: `waitpid` answered with it, or it is zero
and there was no child to wait for. -/
def Justifies (made : List Call) (status : Int) : Prop :=
  (∃ pid answer, .waitpid pid (.ok answer) ∈ made ∧ answer.terminal = some status) ∨
    (status = 0 ∧ ∃ pid, .waitpid pid (.error .echild) ∈ made)

/-- The next answers of `waitpid` all say that the child still runs. -/
def StillRunning (n : Nat) (waits : List (Except Errno WaitStatus)) : Prop :=
  ∀ answer ∈ waits.take n, answer = .ok .running

instance decidableStillRunning (n : Nat) (waits : List (Except Errno WaitStatus)) :
    Decidable (StillRunning n waits) :=
  inferInstanceAs (Decidable (∀ answer ∈ waits.take n, answer = .ok .running))

/-- Further calls take no justification away. -/
theorem Justifies.cons {made : List Call} {status : Int} (h : Justifies made status) (call : Call) :
    Justifies (made ++ [call]) status := by
  rcases h with ⟨pid, answer, hmem, hterminal⟩ | ⟨hzero, pid, hmem⟩
  · exact Or.inl ⟨pid, answer, List.mem_append_left _ hmem, hterminal⟩
  · exact Or.inr ⟨hzero, pid, List.mem_append_left _ hmem⟩

namespace Pty

/-- A spin over a child that still runs makes all its calls and learns nothing. -/
theorem reapLoop_spin (p : Pty) {n : Nat} {os : Os} (h : StillRunning n os.waits) :
    (p.reapLoop n os).1 = .ok none ∧
      (p.reapLoop n os).2.calls =
        List.replicate n (.waitpid p.child (.ok .running)) ++ os.calls := by
  induction n generalizing os with
  | zero => exact ⟨rfl, rfl⟩
  | succ n ih =>
      have hanswer : os.waits.headD (.ok .running) = .ok .running := by
        cases hwaits : os.waits with
        | nil => rfl
        | cons answer waits =>
            rw [hwaits] at h
            exact h answer (by simp)
      have hrest : StillRunning n os.waits.tail := by
        intro answer hmem
        cases hwaits : os.waits with
        | nil => simp [hwaits] at hmem
        | cons first waits =>
            rw [hwaits] at h hmem
            exact h answer (by simpa using Or.inr hmem)
      obtain ⟨hresult, hcalls⟩ := @ih { os with
        waits := os.waits.tail, calls := .waitpid p.child (.ok .running) :: os.calls } hrest
      rw [reapLoop]
      simp only [Os.waitpid, hanswer]
      refine ⟨hresult, ?_⟩
      rw [hcalls, List.replicate_succ', List.append_assoc]
      rfl

/-- A spin that gets another answer reports what the answer says, or fails. -/
theorem reapLoop_justified (p : Pty) {n : Nat} {os : Os} (h : ¬ StillRunning n os.waits)
    {reaped : Option Int} (hreaped : (p.reapLoop n os).1 = .ok reaped) :
    ∃ made, (p.reapLoop n os).2.calls = made ++ os.calls ∧ Justifies made (reaped.getD 0) := by
  induction n generalizing os with
  | zero => exact absurd (by simp [StillRunning]) h
  | succ n ih =>
      cases hwaits : os.waits with
      | nil =>
          rw [hwaits] at h
          exact absurd (by simp [StillRunning]) h
      | cons answer waits =>
          have hhead : os.waits.headD (.ok .running) = answer := by rw [hwaits]; rfl
          rw [reapLoop] at hreaped ⊢
          simp only [Os.waitpid, hhead] at hreaped ⊢
          rcases answer with e | status
          · cases e with
            | echild =>
                cases hreaped
                exact ⟨[.waitpid p.child (.error .echild)], rfl,
                  Or.inr ⟨rfl, p.child, List.mem_singleton.mpr rfl⟩⟩
            | eagain | eintr | eio | other code => cases hreaped
          · cases status with
            | exited code =>
                cases hreaped
                exact ⟨[.waitpid p.child (.ok (.exited code))], rfl,
                  Or.inl ⟨p.child, .exited code, List.mem_singleton.mpr rfl, rfl⟩⟩
            | signaled sig =>
                cases hreaped
                exact ⟨[.waitpid p.child (.ok (.signaled sig))], rfl,
                  Or.inl ⟨p.child, .signaled sig, List.mem_singleton.mpr rfl, rfl⟩⟩
            | running =>
                have hrest : ¬ StillRunning n os.waits.tail := by
                  intro hall
                  refine h ?_
                  intro answer hmem
                  rw [hwaits] at hmem hall
                  rcases List.mem_cons.mp hmem with rfl | hmem
                  · rfl
                  · exact hall answer hmem
                obtain ⟨made, hcalls, hmade⟩ := @ih { os with
                  waits := os.waits.tail, calls := .waitpid p.child (.ok .running) :: os.calls }
                  hrest hreaped
                refine ⟨made ++ [.waitpid p.child (.ok .running)], ?_, hmade.cons _⟩
                rw [hcalls, List.append_assoc]
                rfl

end Pty

namespace Session

/-- Whenever the drain declares the shell dead, its calls account for the status. -/
def ExitReal (s : Session) (os : Os) : Prop :=
  ∀ outcome s' os', s.drain os = (.ok outcome, s', os') → ∀ status, outcome.exit = some status →
    s'.lifecycle = .dead status ∧ ∃ made, os'.calls = made ++ os.calls ∧ Justifies made status

/-- The master has come to its end on a live session, and the child outlives the
spin. -/
def Outlives (s : Session) (os : Os) : Prop :=
  s.isDead = false ∧ (∃ drained, (s.pty.drain os).1 = .ok drained ∧ drained.eof = true) ∧
    StillRunning 200 os.waits

section Drain

variable {s : Session} {os after : Os} {drained : DrainResult}

/-- A drain that finds the end of the master reaps the child of a live session. -/
theorem drain_of_eof (hdrained : s.pty.drain os = (.ok drained, after)) (heof : drained.eof = true)
    (hlive : s.isDead = false) :
    s.drain os =
      match (s.feedOutput drained.bytes).pty.reapLoop 200 after with
      | (.error e, os) => (.error e, s.feedOutput drained.bytes, os)
      | (.ok reaped, os) =>
          (.ok ⟨drained.bytes, (s.feedOutput drained.bytes).engine.status, some (reaped.getD 0)⟩,
            { s.feedOutput drained.bytes with lifecycle := .dead (reaped.getD 0) }, os) := by
  have hfed : (s.feedOutput drained.bytes).isDead = false :=
    (isDead_feedOutput s drained.bytes).trans hlive
  rw [drain, hdrained]
  rcases hreaped : (s.feedOutput drained.bytes).pty.reapLoop 200 after with ⟨e | reaped, last⟩
  · simp [heof, hfed, Pty.reapBlocking, hreaped]
  · simp [heof, hfed, Pty.reapBlocking, hreaped]

/-- Any other drain declares nothing. -/
theorem drain_of_not_eof (hdrained : s.pty.drain os = (.ok drained, after))
    (hquiet : drained.eof = false ∨ s.isDead = true) :
    s.drain os = (.ok ⟨drained.bytes, (s.feedOutput drained.bytes).engine.status, none⟩,
      s.feedOutput drained.bytes, after) := by
  have hcond : (drained.eof && !(s.feedOutput drained.bytes).isDead) = false := by
    rw [isDead_feedOutput]
    rcases hquiet with hmore | hdead
    · rw [hmore, Bool.false_and]
    · rw [hdead, Bool.not_true, Bool.and_false]
  rw [drain, hdrained]
  simp only [hcond, Bool.false_eq_true, if_false]

/-- A child that outlives the spin is declared dead with a status of zero, and no
call says so. -/
theorem not_exitReal_of_spin (hdrained : s.pty.drain os = (.ok drained, after))
    (heof : drained.eof = true) (hlive : s.isDead = false) (hspin : StillRunning 200 after.waits)
    (hcalls : after.calls = os.calls) : ¬ s.ExitReal os := by
  intro hreal
  obtain ⟨hnone, hmade⟩ := (s.feedOutput drained.bytes).pty.reapLoop_spin hspin
  have hdrain := drain_of_eof hdrained heof hlive
  rcases hreap : (s.feedOutput drained.bytes).pty.reapLoop 200 after with ⟨result, last⟩
  rw [hreap] at hnone hmade hdrain
  dsimp only at hnone hmade
  subst hnone
  obtain ⟨-, made, hlast, hjust⟩ := hreal _ _ _ hdrain 0 rfl
  rw [hmade, hcalls] at hlast
  have hspun : made = List.replicate 200
      (.waitpid (s.feedOutput drained.bytes).pty.child (.ok .running)) :=
    (List.append_cancel_right hlast).symm
  rw [hspun] at hjust
  rcases hjust with ⟨pid, answer, hmem, hterminal⟩ | ⟨-, pid, hmem⟩
  · cases List.eq_of_mem_replicate hmem
    cases hterminal
  · cases List.eq_of_mem_replicate hmem

/-- A child that answers in time is declared dead with what it answered. -/
theorem exitReal_of_answer (hdrained : s.pty.drain os = (.ok drained, after))
    (heof : drained.eof = true) (hlive : s.isDead = false)
    (hanswer : ¬ StillRunning 200 after.waits) (hcalls : after.calls = os.calls) :
    s.ExitReal os := by
  intro outcome s' os' hresult status hexit
  rw [drain_of_eof hdrained heof hlive] at hresult
  rcases hreap : (s.feedOutput drained.bytes).pty.reapLoop 200 after with ⟨e | reaped, last⟩
  · rw [hreap] at hresult
    cases hresult
  · have hok : ((s.feedOutput drained.bytes).pty.reapLoop 200 after).1 = .ok reaped :=
      congrArg Prod.fst hreap
    obtain ⟨made, hmade, hjust⟩ := Pty.reapLoop_justified _ hanswer hok
    rw [hreap] at hresult hmade
    cases hresult
    cases hexit
    refine ⟨rfl, made, ?_, hjust⟩
    rw [← hcalls]
    exact hmade

end Drain

/-- The exit status is real iff the child does not outlive the spin. -/
theorem exitReal_iff (s : Session) (os : Os) : s.ExitReal os ↔ ¬ s.Outlives os := by
  have hcalls : (s.pty.drain os).2.calls = os.calls := rfl
  have hwaits : (s.pty.drain os).2.waits = os.waits := rfl
  rcases hdrained : s.pty.drain os with ⟨e | drained, after⟩
  · refine iff_of_true ?_ ?_
    · intro outcome s' os' hdrain
      rw [drain, hdrained] at hdrain
      cases hdrain
    · rintro ⟨-, ⟨drained, hok, -⟩, -⟩
      rw [hdrained] at hok
      cases hok
  · rw [hdrained] at hcalls hwaits
    dsimp only at hcalls hwaits
    by_cases hquiet : drained.eof = false ∨ s.isDead = true
    · refine iff_of_true ?_ ?_
      · intro outcome s' os' hresult status hexit
        rw [drain_of_not_eof hdrained hquiet] at hresult
        cases hresult
        cases hexit
      · rintro ⟨hlive, ⟨drained', hok, heof⟩, -⟩
        rw [hdrained] at hok
        cases hok
        rcases hquiet with hmore | hdead
        · rw [hmore] at heof
          cases heof
        · rw [hlive] at hdead
          cases hdead
    · rw [not_or, Bool.not_eq_false, Bool.not_eq_true] at hquiet
      obtain ⟨heof, hlive⟩ := hquiet
      by_cases hspin : StillRunning 200 after.waits
      · refine iff_of_false (not_exitReal_of_spin hdrained heof hlive hspin hcalls) ?_
        rw [not_not]
        refine ⟨hlive, ⟨drained, by rw [hdrained], heof⟩, ?_⟩
        rw [← hwaits]
        exact hspin
      · refine iff_of_true (exitReal_of_answer hdrained heof hlive hspin hcalls) ?_
        intro houtlives
        rw [hwaits] at hspin
        exact hspin houtlives.2.2

/-- A shell that closes its terminal and runs on for a second before it exits with
3. -/
def lingering : Os where
  reads := [.error .eio]
  waits := List.replicate 200 (.ok .running) ++ [.ok (.exited 3)]
  writes := []
  groups := []
  controls := []
  calls := []

/-- It is declared dead, with a status of zero, while it still runs. -/
theorem not_exitReal_lingering : ¬ ∀ (s : Session) (os : Os), s.ExitReal os := by
  intro h
  have hspin : StillRunning 200 lingering.waits := by
    intro answer hmem
    have htake : lingering.waits.take 200 = List.replicate 200 (.ok .running) :=
      List.take_left' List.length_replicate
    rw [htake] at hmem
    exact List.eq_of_mem_replicate hmem
  have hdrained : World.shell.pty.drain lingering =
      (.ok ⟨[], true⟩, { lingering with reads := [] }) := rfl
  exact not_exitReal_of_spin hdrained rfl rfl hspin rfl (h World.shell lingering)

end Session

/-! ## The running flag -/

namespace World

/-- The STATUS a client would get now and the entry of LIST say the same about
`running`. -/
def RunningAgrees (w : World) : Prop :=
  w.poll.effectiveStatus.running = (w.session.info w.os w.client.isSome).1.running

instance decidableRunningAgrees (w : World) : Decidable w.RunningAgrees :=
  inferInstanceAs (Decidable (_ = _))

/-- The shell is gone, its prompts are marked, and the last marker started a
command. -/
def DiedRunning (s : Session) : Prop :=
  s.isDead = true ∧ s.hasPromptMarking = true ∧ s.status.running = true

/-- After a poll a session runs by its marks, or by the poll. -/
theorem running_poll (w : World) :
    w.poll.effectiveStatus.running =
      if w.session.hasPromptMarking then w.session.status.running
      else (w.session.pollRunning w.os).1 :=
  rfl

/-- A reply says that a dead session does not run. -/
theorem running_info (w : World) :
    (w.session.info w.os w.client.isSome).1.running =
      if w.session.isDead then false
      else if w.session.hasPromptMarking then w.session.status.running
      else (w.session.pollRunning w.os).1 := by
  change (w.session.effectiveRunning w.os).1 = _
  unfold Session.effectiveRunning
  split
  · rfl
  · split
    · rfl
    · rfl

/-- LIST and STATUS agree on `running` unless the shell died in the middle of a
marked command. -/
theorem runningAgrees_iff (w : World) : w.RunningAgrees ↔ ¬ DiedRunning w.session := by
  rw [RunningAgrees, running_poll, running_info, DiedRunning]
  cases hdead : w.session.isDead with
  | false => simp
  | true =>
      have hpoll : (w.session.pollRunning w.os).1 = false := by
        rw [Session.pollRunning, hdead]
        rfl
      rw [hpoll]
      cases w.session.hasPromptMarking with
      | false => simp
      | true => simp

/-- A shell that marks the start of a command and dies in it. -/
def diesRunning : List Label :=
  [.asyncFdOk, .readable { Answers.none with
    reads := [.ok [0x1B, 0x5D, 0x31, 0x33, 0x33, 0x3B, 0x43, 0x07], .error .eio]
    waits := [.ok (.signaled 9)] }]

/-- STATUS says that a command is running, LIST that none is. -/
theorem not_runningAgrees_diesRunning :
    ¬ ∀ (opts : ServerOpts) (session : Session) (labels : List Label) (w : World),
      (machine opts).run (start session) labels = some w → w.RunningAgrees := by
  intro h
  have hsome : ((machine .default).run (start shell) diesRunning).isSome = true := by
    decide +kernel
  have hdisagrees : ∀ w ∈ (machine .default).run (start shell) diesRunning, ¬ w.RunningAgrees := by
    decide +kernel
  obtain ⟨w, hw⟩ := Option.isSome_iff_exists.mp hsome
  exact hdisagrees w hw (h .default shell diesRunning w hw)

end World

end JftermMuxer.Daemon
