import JftermMuxer.Core.Scanner

/-!
# The PTY and the session

{lit}`jftermd/src/pty.rs` and {lit}`jftermd/src/session.rs`: one shell behind a
non-blocking PTY master, its replay engine and its lifecycle.  The kernel is a
script of answers, one list for each call the code makes, and a record of the
calls that touch the shell; a list that has run out answers as a kernel with
nothing to say does.

Main results:

- Theorem {lit}`Session.writeCalls_writeInput`: on a live session a payload is
  handed to one `write` call, whatever part of it the call takes.
- Theorems {lit}`Session.filter_calls_drain` and {lit}`Session.isDead_drain`: a
  drain makes no call but those that reap the shell, and a dead session stays dead.
-/

namespace JftermMuxer.Daemon

open JftermMuxer.Core

/-- The error numbers that the code tells apart. -/
inductive Errno where
  | eagain
  | eintr
  | eio
  | echild
  | other (code : Nat)
deriving DecidableEq, Repr

/-- What `waitpid` reports about the child. -/
inductive WaitStatus where
  | exited (code : Int)
  | signaled (sig : Nat)
  /-- `StillAlive`, `Stopped` or `Continued`. -/
  | running
deriving DecidableEq, Repr

inductive Signal where
  | sigwinch
  | sighup
  | sigkill
deriving DecidableEq, Repr

abbrev Pid := Nat

/-- The calls that reach the shell or reap it, with their answers. -/
inductive Call where
  | write (data : List UInt8) (answer : Except Errno Nat)
  | killpg (pid : Pid) (sig : Signal)
  | waitpid (pid : Pid) (answer : Except Errno WaitStatus)
deriving DecidableEq

def Call.isWrite : Call → Bool
  | .write _ _ => true
  | .killpg _ _ | .waitpid _ _ => false

/-- A signal that is meant to end the shell. -/
def Call.endsShell : Call → Bool
  | .killpg _ .sighup | .killpg _ .sigkill => true
  | .killpg _ .sigwinch | .write _ _ | .waitpid _ _ => false

/-- The kernel's answers to come, and the calls made so far, newest first. -/
structure Os where
  reads : List (Except Errno (List UInt8))
  waits : List (Except Errno WaitStatus)
  writes : List (Except Errno Nat)
  groups : List (Except Errno Pid)
  controls : List (Except Errno Unit)
  calls : List Call

namespace Os

/-- The `write` calls made so far, newest first. -/
def writeCalls (os : Os) : List Call := os.calls.filter Call.isWrite

/-- The signals meant to end the shell that were sent so far, newest first. -/
def endCalls (os : Os) : List Call := os.calls.filter Call.endsShell

/-- Write to the master: the whole payload is taken when nothing else is said. -/
def write (os : Os) (data : List UInt8) : Except Errno Nat × Os :=
  let answer := os.writes.headD (.ok data.length)
  (answer, { os with writes := os.writes.tail, calls := .write data answer :: os.calls })

/-- Reap without blocking. -/
def waitpid (os : Os) (pid : Pid) : Except Errno WaitStatus × Os :=
  let answer := os.waits.headD (.ok .running)
  (answer, { os with waits := os.waits.tail, calls := .waitpid pid answer :: os.calls })

def killpg (os : Os) (pid : Pid) (sig : Signal) : Except Errno Unit × Os :=
  (os.controls.headD (.ok ()),
    { os with controls := os.controls.tail, calls := .killpg pid sig :: os.calls })

/-- The window size ioctl. -/
def tiocswinsz (os : Os) : Except Errno Unit × Os :=
  (os.controls.headD (.ok ()), { os with controls := os.controls.tail })

/-- The foreground process group of the terminal. -/
def tcgetpgrp (os : Os) : Except Errno Pid × Os :=
  (os.groups.headD (.error .eio), { os with groups := os.groups.tail })

end Os

/-! ## The PTY -/

structure Winsize where
  wsRow : UInt16
  wsCol : UInt16
  wsXpixel : UInt16
  wsYpixel : UInt16
deriving DecidableEq, Repr

def winsize (cols rows : UInt16) : Winsize := ⟨rows, cols, 0, 0⟩

/-- Result of draining all output that is available now. -/
structure DrainResult where
  bytes : List UInt8
  eof : Bool
deriving DecidableEq, Repr

structure Pty where
  child : Pid
deriving DecidableEq, Repr

namespace Pty

/-- One `write`; the number of bytes it took is returned, not retried. -/
def writeInput (_ : Pty) (os : Os) (data : List UInt8) : Except Errno Nat × Os := os.write data

/-- The read loop of `drain`, over the answers of the master. -/
def drainLoop (bytes : List UInt8) :
    List (Except Errno (List UInt8)) → Except Errno DrainResult × List (Except Errno (List UInt8))
  | [] => (.ok ⟨bytes, false⟩, [])
  | .ok [] :: rest => (.ok ⟨bytes, true⟩, rest)
  | .ok (b :: bs) :: rest => drainLoop (bytes ++ b :: bs) rest
  | .error .eagain :: rest => (.ok ⟨bytes, false⟩, rest)
  | .error .eintr :: rest => drainLoop bytes rest
  | .error .eio :: rest => (.ok ⟨bytes, true⟩, rest)
  | .error e :: rest => (.error e, rest)

/-- Read all output available now, until `EAGAIN` or the end of the file. -/
def drain (_ : Pty) (os : Os) : Except Errno DrainResult × Os :=
  let (result, rest) := drainLoop [] os.reads
  (result, { os with reads := rest })

def sigwinch (p : Pty) (os : Os) : Except Errno Unit × Os := os.killpg p.child .sigwinch

/-- Apply a window size and signal it; no signal when the ioctl fails. -/
def resize (p : Pty) (os : Os) : Except Errno Unit × Os :=
  match os.tiocswinsz with
  | (.error e, os) => (.error e, os)
  | (.ok _, os) => p.sigwinch os

/-- A process group other than the shell's own has the terminal. -/
def foregroundBusy (p : Pty) (os : Os) : Except Errno Bool × Os :=
  match os.tcgetpgrp with
  | (.error e, os) => (.error e, os)
  | (.ok fg, os) => (.ok (fg != p.child), os)

def hangup (p : Pty) (os : Os) : Except Errno Unit × Os := os.killpg p.child .sighup

def kill (p : Pty) (os : Os) : Except Errno Unit × Os := os.killpg p.child .sigkill

/-- The bounded spin of `reap_blocking`. -/
def reapLoop (p : Pty) : Nat → Os → Except Errno (Option Int) × Os
  | 0, os => (.ok none, os)
  | n + 1, os =>
      match os.waitpid p.child with
      | (.ok (.exited code), os) => (.ok (some code), os)
      | (.ok (.signaled sig), os) => (.ok (some (128 + sig)), os)
      | (.ok .running, os) => reapLoop p n os
      | (.error .echild, os) => (.ok none, os)
      | (.error e, os) => (.error e, os)

/-- Wait for a terminal status, at most 200 times. -/
def reapBlocking (p : Pty) (os : Os) : Except Errno (Option Int) × Os := p.reapLoop 200 os

end Pty

/-! ## The session -/

/-- Whether the shell is still alive. -/
inductive Lifecycle where
  | live
  | dead (status : Int)
deriving DecidableEq, Repr

/-- What a drain produced. -/
structure DrainOutcome where
  data : List UInt8
  status : StatusSnapshot
  exit : Option Int
deriving DecidableEq, Repr

/-- The replay handed to an attaching client. -/
structure AttachReplay where
  data : List UInt8
  status : StatusSnapshot
deriving DecidableEq, Repr

/-- One entry of the answer to LIST. -/
structure SessionInfo where
  sessionId : String
  argv : List String
  cwd : String
  running : Bool
  hasClient : Bool
  createdAt : Nat
deriving DecidableEq, Repr

/-- One shell session. -/
structure Session where
  id : String
  argv : List String
  cwd : String
  pty : Pty
  engine : ReplayEngine
  size : Winsize
  createdAt : Nat
  lifecycle : Lifecycle

/-- What the client that opened the session chose: the id, the command and the
directory. -/
def SessionInfo.chosen (info : SessionInfo) : String × List String × String :=
  (info.sessionId, info.argv, info.cwd)

namespace Session

/-- What the client that opened the session chose: the id, the command and the
directory. -/
def chosen (s : Session) : String × List String × String := (s.id, s.argv, s.cwd)

/-- A fresh session around a spawned PTY. -/
def openSession (id : String) (argv : List String) (cwd : String) (cols rows : UInt16)
    (spawned : Except Errno Pty) (nowSecs : Nat) : Except Errno Session :=
  spawned.map fun pty =>
    { id, argv, cwd, pty, engine := ReplayEngine.new, size := winsize cols rows,
      createdAt := nowSecs, lifecycle := .live }

def isDead (s : Session) : Bool :=
  match s.lifecycle with
  | .live => false
  | .dead _ => true

/-- Feed the engine with drained output, if there is any. -/
def feedOutput (s : Session) (bytes : List UInt8) : Session :=
  if bytes.isEmpty then s else { s with engine := s.engine.feed bytes }

/-- Drain the PTY: feed the engine with the output and detect the exit.  When the
reap fails the engine has been fed already. -/
def drain (s : Session) (os : Os) : Except Errno DrainOutcome × Session × Os :=
  match s.pty.drain os with
  | (.error e, os) => (.error e, s, os)
  | (.ok drained, os) =>
      let s := s.feedOutput drained.bytes
      if drained.eof && !s.isDead then
        match s.pty.reapBlocking os with
        | (.error e, os) => (.error e, s, os)
        | (.ok reaped, os) =>
            let status := reaped.getD 0
            let s := { s with lifecycle := .dead status }
            (.ok ⟨drained.bytes, s.engine.status, some status⟩, s, os)
      else (.ok ⟨drained.bytes, s.engine.status, none⟩, s, os)

/-- Forward keystrokes to the shell; nothing once it is dead. -/
def writeInput (s : Session) (os : Os) (data : List UInt8) : Except Errno Unit × Os :=
  if s.isDead then (.ok (), os)
  else
    match s.pty.writeInput os data with
    | (.error e, os) => (.error e, os)
    | (.ok _, os) => (.ok (), os)

/-- Store the window size and signal the shell; only stored once it is dead. -/
def resize (s : Session) (os : Os) (cols rows : UInt16) : Except Errno Unit × Session × Os :=
  let s := { s with size := winsize cols rows }
  if s.isDead then (.ok (), s, os)
  else
    let (result, os) := s.pty.resize os
    (result, s, os)

/-- The replay for an attach; no wanted chunks means all of the scrollback. -/
def replayForAttach (s : Session) (wantChunks : Nat) : AttachReplay where
  data := if wantChunks = 0 then s.engine.replay else s.engine.replayCapped wantChunks
  status := s.engine.status

def status (s : Session) : StatusSnapshot := s.engine.status

def hasPromptMarking (s : Session) : Bool := s.engine.hasPromptMarking

/-- The fallback for shells that do not mark their prompts. -/
def pollRunning (s : Session) (os : Os) : Bool × Os :=
  if s.isDead then (false, os)
  else
    match s.pty.foregroundBusy os with
    | (.error _, os) => (false, os)
    | (.ok busy, os) => (busy, os)

def effectiveRunning (s : Session) (os : Os) : Bool × Os :=
  if s.isDead then (false, os)
  else if s.hasPromptMarking then (s.engine.status.running, os)
  else s.pollRunning os

def hangup (s : Session) (os : Os) : Except Errno Unit × Os :=
  if s.isDead then (.ok (), os) else s.pty.hangup os

def kill (s : Session) (os : Os) : Except Errno Unit × Os :=
  if s.isDead then (.ok (), os) else s.pty.kill os

/-- Snapshot for the answer to LIST. -/
def info (s : Session) (os : Os) (hasClient : Bool) : SessionInfo × Os :=
  let (running, os) := s.effectiveRunning os
  ({ sessionId := s.id, argv := s.argv, cwd := s.cwd, running, hasClient,
     createdAt := s.createdAt }, os)

/-! ## Writes and deaths -/

/-- Input is offered to the PTY of a live session in one write. -/
theorem writeCalls_writeInput (s : Session) (os : Os) (data : List UInt8) :
    (s.writeInput os data).2.writeCalls =
      if s.isDead then os.writeCalls
      else .write data (os.writes.headD (.ok data.length)) :: os.writeCalls := by
  unfold writeInput
  split
  · rfl
  · unfold Pty.writeInput Os.write
    cases os.writes.headD (.ok data.length) <;> rfl

/-- A write sends no signal. -/
theorem endCalls_writeInput (s : Session) (os : Os) (data : List UInt8) :
    (s.writeInput os data).2.endCalls = os.endCalls := by
  unfold writeInput
  split
  · rfl
  · unfold Pty.writeInput Os.write
    cases os.writes.headD (.ok data.length) <;> rfl

/-- A resize makes no call but the signal of the new size. -/
theorem filter_calls_resize {p : Call → Bool} (hp : ∀ pid, p (.killpg pid .sigwinch) = false)
    (s : Session) (os : Os) (cols rows : UInt16) :
    (s.resize os cols rows).2.2.calls.filter p = os.calls.filter p := by
  unfold resize
  simp only
  split
  · rfl
  · unfold Pty.resize Os.tiocswinsz
    cases os.controls.headD (.ok ()) with
    | error e => rfl
    | ok _ =>
        change (Call.killpg s.pty.child .sigwinch :: os.calls).filter p = _
        rw [List.filter_cons_of_neg (by simp [hp])]

/-- A resize writes nothing. -/
theorem writeCalls_resize (s : Session) (os : Os) (cols rows : UInt16) :
    (s.resize os cols rows).2.2.writeCalls = os.writeCalls :=
  s.filter_calls_resize (fun _ => rfl) os cols rows

/-- A poll of the foreground group makes no recorded call. -/
theorem calls_pollRunning (s : Session) (os : Os) : (s.pollRunning os).2.calls = os.calls := by
  unfold pollRunning
  split
  · rfl
  · unfold Pty.foregroundBusy Os.tcgetpgrp
    cases os.groups.headD (.error .eio) <;> rfl

/-- A poll of the foreground group writes nothing. -/
theorem writeCalls_pollRunning (s : Session) (os : Os) :
    (s.pollRunning os).2.writeCalls = os.writeCalls :=
  congrArg (List.filter Call.isWrite) (s.calls_pollRunning os)

/-- An Info makes no recorded call. -/
theorem calls_info (s : Session) (os : Os) (hasClient : Bool) :
    (s.info os hasClient).2.calls = os.calls := by
  change (s.effectiveRunning os).2.calls = os.calls
  unfold effectiveRunning
  split
  · rfl
  · split
    · rfl
    · exact calls_pollRunning s os

/-- An Info writes nothing. -/
theorem writeCalls_info (s : Session) (os : Os) (hasClient : Bool) :
    (s.info os hasClient).2.writeCalls = os.writeCalls :=
  congrArg (List.filter Call.isWrite) (s.calls_info os hasClient)

/-- A hangup writes nothing. -/
theorem writeCalls_hangup (s : Session) (os : Os) :
    (s.hangup os).2.writeCalls = os.writeCalls := by
  unfold hangup
  split <;> rfl

/-- A kill writes nothing. -/
theorem writeCalls_kill (s : Session) (os : Os) : (s.kill os).2.writeCalls = os.writeCalls := by
  unfold kill
  split <;> rfl

private theorem filter_calls_reapLoop {q : Call → Bool}
    (hq : ∀ pid answer, q (.waitpid pid answer) = false) (p : Pty) (n : Nat) (os : Os) :
    (p.reapLoop n os).2.calls.filter q = os.calls.filter q := by
  induction n generalizing os with
  | zero => rfl
  | succ n ih =>
      unfold Pty.reapLoop
      have hwait : (os.waitpid p.child).2.calls.filter q = os.calls.filter q :=
        List.filter_cons_of_neg (by simp [hq])
      rcases hanswer : os.waitpid p.child with ⟨answer, rest⟩
      rw [hanswer] at hwait
      rcases answer with e | status
      · cases e <;> exact hwait
      · cases status with
        | exited code => exact hwait
        | signaled sig => exact hwait
        | running => exact (ih rest).trans hwait

/-- Output does not change whether the session is dead. -/
theorem isDead_feedOutput (s : Session) (bytes : List UInt8) :
    (s.feedOutput bytes).isDead = s.isDead := by
  unfold feedOutput
  split <;> rfl

/-- A drain makes no call but those that reap the shell. -/
theorem filter_calls_drain {p : Call → Bool} (hp : ∀ pid answer, p (.waitpid pid answer) = false)
    (s : Session) (os : Os) : (s.drain os).2.2.calls.filter p = os.calls.filter p := by
  unfold drain
  have hread : (s.pty.drain os).2.calls.filter p = os.calls.filter p := rfl
  rcases hdrained : s.pty.drain os with ⟨_ | drained, rest⟩
  · rw [hdrained] at hread
    exact hread
  · rw [hdrained] at hread
    simp only
    split
    · have hreap := filter_calls_reapLoop hp (s.feedOutput drained.bytes).pty 200 rest
      change ((s.feedOutput drained.bytes).pty.reapBlocking rest).2.calls.filter p = _ at hreap
      rcases hreaped : (s.feedOutput drained.bytes).pty.reapBlocking rest with ⟨_ | reaped, after⟩
      · rw [hreaped] at hreap
        exact hreap.trans hread
      · rw [hreaped] at hreap
        exact hreap.trans hread
    · exact hread

/-- A drain writes nothing. -/
theorem writeCalls_drain (s : Session) (os : Os) :
    (s.drain os).2.2.writeCalls = os.writeCalls :=
  s.filter_calls_drain (fun _ _ => rfl) os

/-- Output leaves the PTY. -/
theorem pty_feedOutput (s : Session) (bytes : List UInt8) : (s.feedOutput bytes).pty = s.pty := by
  unfold feedOutput
  split <;> rfl

/-- A drain leaves what the client chose. -/
theorem chosen_drain (s : Session) (os : Os) : (s.drain os).2.1.chosen = s.chosen := by
  have hfed : ∀ bytes, (s.feedOutput bytes).chosen = s.chosen := by
    intro bytes
    unfold feedOutput
    split <;> rfl
  unfold drain
  rcases s.pty.drain os with ⟨_ | drained, rest⟩
  · rfl
  · simp only
    split
    · rcases (s.feedOutput drained.bytes).pty.reapBlocking rest with ⟨_ | reaped, after⟩
      · exact hfed drained.bytes
      · exact hfed drained.bytes
    · exact hfed drained.bytes

/-- A drain leaves the PTY. -/
theorem pty_drain (s : Session) (os : Os) : (s.drain os).2.1.pty = s.pty := by
  unfold drain
  rcases s.pty.drain os with ⟨_ | drained, rest⟩
  · rfl
  · simp only
    split
    · rcases (s.feedOutput drained.bytes).pty.reapBlocking rest with ⟨_ | reaped, after⟩
      · exact s.pty_feedOutput drained.bytes
      · exact s.pty_feedOutput drained.bytes
    · exact s.pty_feedOutput drained.bytes

/-- A dead session stays dead. -/
theorem isDead_drain (s : Session) (os : Os) (hdead : s.isDead = true) :
    (s.drain os).2.1.isDead = true := by
  unfold drain
  rcases s.pty.drain os with ⟨_ | drained, rest⟩
  · exact hdead
  · have hfed : (s.feedOutput drained.bytes).isDead = true :=
      (isDead_feedOutput s drained.bytes).trans hdead
    simp only [hfed, Bool.not_true, Bool.and_false, Bool.false_eq_true, if_false]

/-- A drain that reports an exit stores its status; any other leaves the lifecycle
as it was. -/
theorem lifecycle_drain (s : Session) (os : Os) :
    (∀ outcome, (s.drain os).1 = .ok outcome → ∀ code, outcome.exit = some code →
        s.isDead = false ∧ (s.drain os).2.1.lifecycle = .dead code) ∧
      ((∀ outcome, (s.drain os).1 = .ok outcome → outcome.exit = none) →
        (s.drain os).2.1.lifecycle = s.lifecycle) := by
  have hfed : ∀ bytes, (s.feedOutput bytes).lifecycle = s.lifecycle := by
    intro bytes
    unfold feedOutput
    split <;> rfl
  unfold drain
  rcases s.pty.drain os with ⟨_ | drained, rest⟩
  · exact ⟨by simp, fun _ => rfl⟩
  · by_cases heof : (drained.eof && !(s.feedOutput drained.bytes).isDead) = true
    · have hlive : s.isDead = false := by
        rw [Bool.and_eq_true, Bool.not_eq_true', isDead_feedOutput] at heof
        exact heof.2
      simp only [if_pos heof]
      rcases (s.feedOutput drained.bytes).pty.reapBlocking rest with ⟨_ | reaped, after⟩
      · exact ⟨by simp, fun _ => hfed drained.bytes⟩
      · constructor
        · intro outcome houtcome code hcode
          cases houtcome
          cases hcode
          exact ⟨hlive, rfl⟩
        · intro hnone
          cases hnone _ rfl
    · simp only [if_neg heof]
      constructor
      · intro outcome houtcome code hcode
        cases houtcome
        cases hcode
      · exact fun _ => hfed drained.bytes

/-- A resize leaves the lifecycle. -/
theorem lifecycle_resize (s : Session) (os : Os) (cols rows : UInt16) :
    (s.resize os cols rows).2.1.lifecycle = s.lifecycle := by
  unfold resize
  simp only
  split <;> rfl

/-- A resize leaves what the client chose. -/
theorem chosen_resize (s : Session) (os : Os) (cols rows : UInt16) :
    (s.resize os cols rows).2.1.chosen = s.chosen := by
  unfold resize
  simp only
  split <;> rfl

/-- A resize leaves the PTY. -/
theorem pty_resize (s : Session) (os : Os) (cols rows : UInt16) :
    (s.resize os cols rows).2.1.pty = s.pty := by
  unfold resize
  simp only
  split <;> rfl

/-- A resize leaves the engine. -/
theorem engine_resize (s : Session) (os : Os) (cols rows : UInt16) :
    (s.resize os cols rows).2.1.engine = s.engine := by
  unfold resize
  simp only
  split <;> rfl

/-- Output is fed to the engine. -/
theorem engine_feedOutput (s : Session) (bytes : List UInt8) :
    (s.feedOutput bytes).engine = s.engine.feed bytes := by
  unfold feedOutput
  cases bytes with
  | nil => rfl
  | cons b bs => rfl

/-- A drain that succeeds feeds the engine with what it reports. -/
theorem engine_drain {s session : Session} {os after : Os} {outcome : DrainOutcome}
    (h : s.drain os = (.ok outcome, session, after)) :
    session.engine = s.engine.feed outcome.data := by
  unfold drain at h
  rcases hread : s.pty.drain os with ⟨_ | drained, rest⟩
  · rw [hread] at h
    cases h
  · rw [hread] at h
    simp only at h
    split at h
    · rcases hreaped : (s.feedOutput drained.bytes).pty.reapBlocking rest with
        ⟨_ | reaped, last⟩
      · rw [hreaped] at h
        cases h
      · rw [hreaped] at h
        cases h
        exact s.engine_feedOutput drained.bytes
    · cases h
      exact s.engine_feedOutput drained.bytes

/-- A resize does not change whether the session is dead. -/
theorem isDead_resize (s : Session) (os : Os) (cols rows : UInt16) :
    (s.resize os cols rows).2.1.isDead = s.isDead := by
  unfold resize
  simp only
  split <;> rfl

end Session

end JftermMuxer.Daemon
