import JftermMuxer.Daemon.Session

/-!
# The shell's process id after its reap

Once `waitpid` has answered with a terminal status the kernel may hand the
shell's process id to another process.  Every method of the session checks whether
the shell is dead before it signals or waits; the destructor of the PTY does not.

Main results:

- Theorem {lit}`Session.sound_perform`: in every sequence of operations a reaped
  process id is left alone, and a session that is not dead has not reaped.
- Theorem {lit}`Session.untouched_drop_iff`: with the drop at the end this holds
  iff nothing was reaped before it.
-/

namespace JftermMuxer.Daemon

namespace Call

/-- The call signals the process group or waits for the process. -/
def touches (pid : Pid) : Call → Bool
  | .write _ _ => false
  | .killpg p _ => p == pid
  | .waitpid p _ => p == pid

/-- The call was answered with a terminal status of the process. -/
def reaps (pid : Pid) : Call → Bool
  | .waitpid p (.ok (.exited _)) | .waitpid p (.ok (.signaled _)) => p == pid
  | .waitpid _ (.ok .running) | .waitpid _ (.error _) | .write _ _ | .killpg _ _ => false

/-- No call, newest first, touches the process after one that reaped it. -/
def Untouched (pid : Pid) : List Call → Prop
  | [] => True
  | call :: older =>
      (call.touches pid = true → ∀ earlier ∈ older, earlier.reaps pid = false) ∧
        Untouched pid older

/-- No call reaped the process. -/
def Unreaped (pid : Pid) (calls : List Call) : Prop := ∀ call ∈ calls, call.reaps pid = false

/-- What the guards rely on: a reaped process is left alone, and as long as the
session is not dead nothing was reaped. -/
structure Sound (pid : Pid) (dead : Bool) (calls : List Call) : Prop where
  untouched : Untouched pid calls
  unreaped : dead = false → Unreaped pid calls

variable {pid : Pid} {calls : List Call} {dead : Bool}

/-- A call that does not concern the process. -/
theorem Sound.aside (h : Sound pid dead calls) {call : Call} (hcall : call.touches pid = false)
    (hreaps : call.reaps pid = false) : Sound pid dead (call :: calls) := by
  refine ⟨⟨?_, h.untouched⟩, ?_⟩
  · intro htouches
    rw [hcall] at htouches
    cases htouches
  · intro hlive c hc
    rcases List.mem_cons.mp hc with rfl | hc
    · exact hreaps
    · exact h.unreaped hlive c hc

/-- A call about a process that was not reaped, and that does not reap it. -/
theorem Sound.touch (h : Sound pid false calls) {call : Call} (hreaps : call.reaps pid = false) :
    Sound pid false (call :: calls) := by
  refine ⟨⟨fun _ => h.unreaped rfl, h.untouched⟩, ?_⟩
  intro _ c hc
  rcases List.mem_cons.mp hc with rfl | hc
  · exact hreaps
  · exact h.unreaped rfl c hc

/-- The call that reaps a process makes the session dead. -/
theorem Sound.reap (h : Sound pid false calls) (call : Call) : Sound pid true (call :: calls) := by
  refine ⟨⟨fun _ => h.unreaped rfl, h.untouched⟩, ?_⟩
  intro hlive
  cases hlive

/-- Calls that were sound are sound once the session is dead. -/
theorem Sound.onceDead (h : Sound pid dead calls) : Sound pid true calls := by
  refine ⟨h.untouched, ?_⟩
  intro hlive
  cases hlive

end Call

/-- `waitpid` without a flag blocks until the child has ended; a script that has
run out answers that there is no child. -/
def Os.waitpidBlocking (os : Os) (pid : Pid) : Except Errno WaitStatus × Os :=
  let answer := os.waits.headD (.error .echild)
  (answer, { os with waits := os.waits.tail, calls := .waitpid pid answer :: os.calls })

/-- The destructor: kill the process group, then reap; both results are ignored. -/
def Pty.drop (p : Pty) (os : Os) : Os :=
  let os := (os.killpg p.child .sigkill).2
  (os.waitpidBlocking p.child).2

/-- The operations of a session that reach the kernel. -/
inductive SessionOp where
  | drain
  | writeInput (data : List UInt8)
  | resize (cols rows : UInt16)
  | pollRunning
  | hangup
  | kill
  | info (hasClient : Bool)
deriving DecidableEq, Repr

namespace Session

open Call

/-- One operation; its result is the caller's business. -/
def operate (s : Session) (os : Os) : SessionOp → Session × Os
  | .drain => (s.drain os).2
  | .writeInput data => (s, (s.writeInput os data).2)
  | .resize cols rows => (s.resize os cols rows).2
  | .pollRunning => (s, (s.pollRunning os).2)
  | .hangup => (s, (s.hangup os).2)
  | .kill => (s, (s.kill os).2)
  | .info hasClient => (s, (s.info os hasClient).2)

/-- Operations in order. -/
def perform (s : Session) (os : Os) : List SessionOp → Session × Os
  | [] => (s, os)
  | op :: ops =>
      let (s, os) := s.operate os op
      perform s os ops

/-- Dropping a session drops its PTY. -/
def drop (s : Session) (os : Os) : Os := s.pty.drop os

/-- Operations in order, and then the drop. -/
def lifetime (s : Session) (os : Os) (ops : List SessionOp) : Os :=
  let (s, os) := s.perform os ops
  s.drop os

/-! ## One operation -/

/-- Reaping ends the use of the pid. -/
theorem sound_reapLoop (p : Pty) (n : Nat) {os : Os} (h : Sound p.child false os.calls) :
    (∀ status, (p.reapLoop n os).1 = .ok status → Sound p.child true (p.reapLoop n os).2.calls) ∧
      (∀ e, (p.reapLoop n os).1 = .error e → Sound p.child false (p.reapLoop n os).2.calls) := by
  induction n generalizing os with
  | zero => exact ⟨fun _ _ => h.onceDead, by simp [Pty.reapLoop]⟩
  | succ n ih =>
      unfold Pty.reapLoop
      have hcalls : (os.waitpid p.child).2.calls =
          .waitpid p.child (os.waitpid p.child).1 :: os.calls := rfl
      rcases hanswer : os.waitpid p.child with ⟨answer, rest⟩
      rw [hanswer] at hcalls
      have hreaped : Sound p.child true rest.calls := by
        rw [hcalls]
        exact h.reap _
      rcases answer with e | status
      · have hfailed : Sound p.child false rest.calls := by
          rw [hcalls]
          exact h.touch rfl
        cases e with
        | echild => exact ⟨fun _ _ => hreaped, by simp⟩
        | eagain | eintr | eio | other _ => exact ⟨fun _ _ => hreaped, fun _ _ => hfailed⟩
      · cases status with
        | exited code => exact ⟨fun _ _ => hreaped, by simp⟩
        | signaled sig => exact ⟨fun _ _ => hreaped, by simp⟩
        | running =>
            refine ih ?_
            rw [hcalls]
            exact h.touch rfl

/-- A drain uses the pid only as long as it is the child's. -/
theorem sound_drain (s : Session) (os : Os) (h : Sound s.pty.child s.isDead os.calls) :
    (s.drain os).2.1.pty = s.pty ∧
      Sound s.pty.child (s.drain os).2.1.isDead (s.drain os).2.2.calls := by
  unfold drain
  have hread : (s.pty.drain os).2.calls = os.calls := rfl
  rcases hdrained : s.pty.drain os with ⟨_ | drained, rest⟩
  · rw [hdrained] at hread
    exact ⟨rfl, by rw [hread]; exact h⟩
  · rw [hdrained] at hread
    have hpty := pty_feedOutput s drained.bytes
    have hdead := isDead_feedOutput s drained.bytes
    by_cases heof : (drained.eof && !(s.feedOutput drained.bytes).isDead) = true
    · have hlive : s.isDead = false := by
        rw [Bool.and_eq_true, Bool.not_eq_true', hdead] at heof
        exact heof.2
      rw [hlive, ← hread] at h
      obtain ⟨hok, herror⟩ := sound_reapLoop s.pty 200 h
      change (∀ status, (s.pty.reapBlocking rest).1 = .ok status →
        Sound s.pty.child true (s.pty.reapBlocking rest).2.calls) at hok
      change (∀ e, (s.pty.reapBlocking rest).1 = .error e →
        Sound s.pty.child false (s.pty.reapBlocking rest).2.calls) at herror
      simp only [if_pos heof, hpty]
      rcases hreaped : s.pty.reapBlocking rest with ⟨e | status, after⟩
      · rw [hreaped] at herror
        exact ⟨hpty, by rw [hdead, hlive]; exact herror e rfl⟩
      · rw [hreaped] at hok
        exact ⟨rfl, hok status rfl⟩
    · simp only [if_neg heof]
      exact ⟨hpty, by rw [hdead, hread]; exact h⟩

/-- A guarded signal: nothing once the session is dead. -/
theorem sound_signal {s : Session} {os after : Os} (sig : Signal)
    (h : Sound s.pty.child s.isDead os.calls)
    (hdead : s.isDead = true → after.calls = os.calls)
    (hlive : s.isDead = false →
      after.calls = os.calls ∨ after.calls = .killpg s.pty.child sig :: os.calls) :
    Sound s.pty.child s.isDead after.calls := by
  cases hlife : s.isDead with
  | true =>
      rw [hdead hlife, ← hlife]
      exact h
  | false =>
      rw [hlife] at h
      rcases hlive hlife with hsame | hsent
      · rw [hsame]
        exact h
      · rw [hsent]
        exact h.touch rfl

/-- A resize uses the pid only as long as it is the child's. -/
theorem sound_resize (s : Session) (os : Os) (cols rows : UInt16)
    (h : Sound s.pty.child s.isDead os.calls) :
    Sound s.pty.child s.isDead (s.resize os cols rows).2.2.calls := by
  refine sound_signal .sigwinch h ?_ ?_
  · intro hdead
    have hstill : ({ s with size := winsize cols rows } : Session).isDead = true := hdead
    simp only [resize, if_pos hstill]
  · intro hlive
    have hstill : ¬ ({ s with size := winsize cols rows } : Session).isDead = true :=
      Bool.eq_false_iff.mp hlive
    simp only [resize, if_neg hstill]
    unfold Pty.resize Os.tiocswinsz
    cases os.controls.headD (.ok ()) with
    | error e => exact Or.inl rfl
    | ok u => exact Or.inr rfl

/-- Every operation leaves a reaped process alone. -/
theorem sound_operate (s : Session) (os : Os) (op : SessionOp)
    (h : Sound s.pty.child s.isDead os.calls) :
    (s.operate os op).1.pty = s.pty ∧
      Sound s.pty.child (s.operate os op).1.isDead (s.operate os op).2.calls := by
  cases op with
  | drain => exact sound_drain s os h
  | writeInput data =>
      refine ⟨rfl, ?_⟩
      simp only [operate, writeInput]
      split
      · exact h
      · have hwritten : ∀ answer, Sound s.pty.child s.isDead (.write data answer :: os.calls) :=
          fun answer => h.aside rfl rfl
        unfold Pty.writeInput Os.write
        cases os.writes.headD (.ok data.length) with
        | error e => exact hwritten _
        | ok n => exact hwritten _
  | resize cols rows =>
      refine ⟨s.pty_resize os cols rows, ?_⟩
      · change Sound s.pty.child (s.resize os cols rows).2.1.isDead _
        rw [isDead_resize]
        exact sound_resize s os cols rows h
  | pollRunning => exact ⟨rfl, by rw [operate, calls_pollRunning]; exact h⟩
  | hangup =>
      refine ⟨rfl, sound_signal .sighup h ?_ ?_⟩
      · intro hdead
        simp only [operate, hangup, if_pos hdead]
      · intro hlive
        simp only [operate, hangup, hlive]
        exact Or.inr rfl
  | kill =>
      refine ⟨rfl, sound_signal .sigkill h ?_ ?_⟩
      · intro hdead
        simp only [operate, kill, if_pos hdead]
      · intro hlive
        simp only [operate, kill, hlive]
        exact Or.inr rfl
  | info hasClient => exact ⟨rfl, by rw [operate, calls_info]; exact h⟩

/-! ## Sequences of operations -/

/-- What every operation keeps, a sequence of them keeps. -/
theorem sound_perform (s : Session) (os : Os) (ops : List SessionOp)
    (h : Sound s.pty.child s.isDead os.calls) :
    (s.perform os ops).1.pty = s.pty ∧
      Sound s.pty.child (s.perform os ops).1.isDead (s.perform os ops).2.calls := by
  induction ops generalizing s os with
  | nil => exact ⟨rfl, h⟩
  | cons op ops ih =>
      obtain ⟨hpty, hsound⟩ := sound_operate s os op h
      rw [← hpty] at hsound
      obtain ⟨hlater, hend⟩ := ih (s.operate os op).1 (s.operate os op).2 hsound
      rw [hpty] at hlater hend
      exact ⟨hlater, hend⟩

/-- For every sequence of operations on a session and every script of the kernel's
answers, ending with the session's drop: the process is left alone once it was
reaped iff it had not been reaped before the drop. -/
theorem untouched_drop_iff (s : Session) (os : Os) (ops : List SessionOp) :
    Untouched s.pty.child (s.lifetime { os with calls := [] } ops).calls ↔
      Unreaped s.pty.child (s.perform { os with calls := [] } ops).2.calls := by
  have hstart : Sound s.pty.child s.isDead ({ os with calls := [] } : Os).calls :=
    ⟨trivial, fun _ _ hcall => by cases hcall⟩
  obtain ⟨hpty, hsound⟩ := sound_perform s { os with calls := [] } ops hstart
  unfold lifetime
  rcases hperformed : s.perform { os with calls := [] } ops with ⟨t, after⟩
  rw [hperformed] at hpty hsound
  have hcalls : ∃ answer, (t.drop after).calls =
      .waitpid s.pty.child answer :: .killpg s.pty.child .sigkill :: after.calls := by
    refine ⟨after.waits.headD (.error .echild), ?_⟩
    rw [← hpty]
    rfl
  obtain ⟨answer, hdropped⟩ := hcalls
  simp only [hdropped]
  constructor
  · rintro ⟨-, hkill, -⟩
    exact hkill (by simp [touches])
  · intro hunreaped
    refine ⟨fun _ => ?_, fun _ => hunreaped, hsound.untouched⟩
    intro call hcall
    rcases List.mem_cons.mp hcall with rfl | hcall
    · rfl
    · exact hunreaped call hcall

/-- A session as `Session::open` returns it. -/
def opened : Session where
  id := "s1"
  argv := ["sh"]
  cwd := "/"
  pty := ⟨4242⟩
  engine := Core.ReplayEngine.new
  size := winsize 80 24
  createdAt := 0
  lifecycle := .live

/-- The shell exits, and the next drain reaps it. -/
def exits : Os := ⟨[.ok []], [.ok (.exited 0)], [], [], [], []⟩

/-- After the reap the drop kills the process group and waits for it again. -/
theorem killed_after_reap :
    (opened.lifetime exits [.drain]).calls =
        [.waitpid 4242 (.error .echild), .killpg 4242 .sigkill,
          .waitpid 4242 (.ok (.exited 0))] ∧
      ¬ Untouched opened.pty.child (opened.lifetime exits [.drain]).calls := by
  have hcalls : (opened.lifetime exits [.drain]).calls =
      [.waitpid 4242 (.error .echild), .killpg 4242 .sigkill, .waitpid 4242 (.ok (.exited 0))] := by
    decide +kernel
  refine ⟨hcalls, ?_⟩
  rw [hcalls]
  rintro ⟨-, hkill, -⟩
  cases hkill rfl (.waitpid 4242 (.ok (.exited 0))) (by simp)

end Session

end JftermMuxer.Daemon
