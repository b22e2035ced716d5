import JftermMuxer.Foundation.Descriptors
import JftermMuxer.Foundation.Machine
import Mathlib.Logic.Function.Basic

/-!
# Spawning shells side by side

{lit}`Pty::spawn` of {lit}`jftermd/src/pty.rs`, run by any number of threads of one
daemon.  The threads share the daemon's descriptor table; every child gets a copy
of it at its fork and works on that copy until its {lit}`exec`.  A step is one
system call, or one move of {lit}`SPAWN_LOCK`, so a schedule is any interleaving of
the threads, their children and the rest of the daemon.

{lit}`forkpty` opens the master and the slave without {lit}`O_CLOEXEC`, forks, and
closes the slave in the parent; its child closes the master and makes the slave its
standard descriptors.

Main results:

- Theorem {lit}`Spawns.Invariant.step`: every step keeps the daemon's table in
  agreement with the calls, and every slave with its own child.
- Theorem {lit}`Spawns.slave_confined`: in every run a slave is open only in its own
  child, and in the daemon only while its call is between opening and closing it.
- Theorem {lit}`Spawns.shell_descriptors`: what an exec'd shell has open of any pty,
  and exactly when it has another session's master.
-/

namespace JftermMuxer.Daemon

open JftermMuxer.Foundation

/-- The two ends of a pty. -/
inductive PtyEnd where
  | master
  | slave
deriving DecidableEq, Repr

/-- The descriptor on each end of a pty, and whether it closes on exec. -/
structure PtyEnds where
  master : Option (Nat × Bool)
  slave : Option (Nat × Bool)
deriving DecidableEq, Repr

namespace PtyEnds

def get (ends : PtyEnds) : PtyEnd → Option (Nat × Bool)
  | .master => ends.master
  | .slave => ends.slave

def set (ends : PtyEnds) (e : PtyEnd) (descriptor : Option (Nat × Bool)) : PtyEnds :=
  match e with
  | .master => { ends with master := descriptor }
  | .slave => { ends with slave := descriptor }

@[simp] theorem get_set (ends : PtyEnds) (e f : PtyEnd) (descriptor : Option (Nat × Bool)) :
    (ends.set e descriptor).get f = if f = e then descriptor else ends.get f := by
  cases e with
  | master =>
      cases f with
      | master => rfl
      | slave => rfl
  | slave =>
      cases f with
      | master => rfl
      | slave => rfl

end PtyEnds

/-- What a descriptor of the daemon or of a child refers to: an end of the pty of
one call of {lit}`spawn`, or anything else. -/
inductive OpenFile (Call : Type) where
  | pty (c : Call) (e : PtyEnd)
  | other (n : Nat)
deriving DecidableEq, Repr

/-- Where a call of {lit}`spawn` is, with the descriptors it works on. -/
inductive SpawnPhase where
  /-- The C strings are built, {lit}`SPAWN_LOCK` is to be taken. -/
  | waiting
  | locked
  /-- {lit}`forkpty` has opened the master. -/
  | opened (master : Nat)
  | paired (master slave : Nat)
  /-- The fork has answered in the parent, the slave is to be closed. -/
  | forked (master slave : Nat)
  /-- The fork has failed, both ends are to be closed. -/
  | unforked (master slave : Nat)
  | halfClosed (slave : Nat)
  /-- {lit}`forkpty` has returned in the parent, the guard is to be dropped. -/
  | parted (master : Nat)
  /-- {lit}`forkpty` has returned an error, the guard is to be dropped. -/
  | refused
  /-- The guard is dropped, {lit}`set_nonblocking` is next. -/
  | released (master : Nat)
  /-- {lit}`set_cloexec` is next. -/
  | nonblocking (master : Nat)
  /-- {lit}`await_own_process_group` has polled so often. -/
  | polling (master polls : Nat)
  /-- {lit}`spawn` has returned the {lit}`Pty`. -/
  | returned (master : Nat)
  | failed
  /-- The {lit}`Pty` is dropped. -/
  | dropped
deriving DecidableEq, Repr

namespace SpawnPhase

/-- The call holds {lit}`SPAWN_LOCK`. -/
def guarded : SpawnPhase → Bool
  | locked | opened _ | paired _ _ | forked _ _ | unforked _ _ | halfClosed _ | parted _
  | refused => true
  | waiting | released _ | nonblocking _ | polling _ _ | returned _ | failed | dropped => false

/-- The descriptors that the daemon has on the call's pty. -/
def ends : SpawnPhase → PtyEnds
  | waiting | locked | refused | failed | dropped => ⟨none, none⟩
  | opened m | parted m | released m | nonblocking m => ⟨some (m, false), none⟩
  | paired m s | forked m s | unforked m s => ⟨some (m, false), some (s, false)⟩
  | halfClosed s => ⟨none, some (s, false)⟩
  | polling m _ | returned m => ⟨some (m, true), none⟩

/-- The slave has been opened and is not closed yet. -/
def slaveHeld : SpawnPhase → Bool
  | paired _ _ | forked _ _ | unforked _ _ | halfClosed _ => true
  | waiting | locked | opened _ | parted _ | refused | released _ | nonblocking _ | polling _ _
  | returned _ | failed | dropped => false

/-- The slave is open under the lock only. -/
theorem guarded_of_slaveHeld {ph : SpawnPhase} (h : ph.slaveHeld = true) : ph.guarded = true := by
  cases ph with
  | paired _ _ | forked _ _ | unforked _ _ | halfClosed _ => rfl
  | waiting | locked | opened _ | parted _ | refused | released _ | nonblocking _ | polling _ _
  | returned _ | failed | dropped => cases h

/-- The lock is released and the master does not close on exec yet. -/
def exposed : SpawnPhase → Bool
  | released _ | nonblocking _ => true
  | waiting | locked | opened _ | paired _ _ | forked _ _ | unforked _ _ | halfClosed _
  | parted _ | refused | polling _ _ | returned _ | failed | dropped => false

/-- The call has not forked. -/
def childless : SpawnPhase → Bool
  | waiting | locked | opened _ | paired _ _ | unforked _ _ | halfClosed _ | refused => true
  | forked _ _ | parted _ | released _ | nonblocking _ | polling _ _ | returned _ | failed
  | dropped => false

end SpawnPhase

/-- Where a child is between its fork and its end. -/
inductive ChildStage where
  /-- A copy of the daemon, about to run {lit}`login_tty`. -/
  | forked (master slave : Nat)
  /-- {lit}`forkpty` has returned in the child. -/
  | loggedIn
  | execed
  | gone
deriving DecidableEq, Repr

/-- The child of a call: its descriptors, and whether it leads a process group. -/
structure Child (Call : Type) where
  stage : ChildStage
  leader : Bool
  table : Descriptors (OpenFile Call)
deriving DecidableEq, Repr

/-- A system call of a thread that runs {lit}`spawn`, or a move of its guard. -/
inductive CallMove where
  | lock
  | openMaster
  | openSlave
  | openFails
  | fork
  | forkFails
  | closeMaster
  | closeSlave
  | unlock
  | setNonblocking
  | setCloexec
  | fcntlFails
  | poll
  | drop
deriving DecidableEq, Repr

/-- A step of a child. -/
inductive ChildMove where
  /-- {lit}`login_tty`: a session of its own, the slave as standard descriptors. -/
  | login
  | exec
  /-- The child and all it has started end; before its {lit}`exec`, on an error. -/
  | exit
deriving DecidableEq, Repr

/-- A step of the daemon or of a child. -/
inductive SpawnStep (Call : Type) where
  | call (c : Call) (move : CallMove)
  | child (c : Call) (move : ChildMove)
  /-- Another part of the daemon opens a file. -/
  | openOther (n : Nat) (closeOnExec : Bool)
  /-- Another part of the daemon closes a file of its own. -/
  | closeOther (fd : Nat)
deriving DecidableEq, Repr

/-- The daemon's table, the lock, and where every call and every child is. -/
structure Spawns (Call : Type) where
  table : Descriptors (OpenFile Call)
  lock : Option Call
  phase : Call → SpawnPhase
  child : Call → Option (Child Call)

/-- {lit}`login_tty` in a child of {lit}`forkpty`: the master is closed, the slave
becomes the three standard descriptors. -/
def loginTty {Call : Type} (t : Descriptors (OpenFile Call)) (master slave : Nat) :
    Option (Descriptors (OpenFile Call)) := do
  let t ← (t.close master).dupOnto slave [0, 1, 2]
  return if 2 < slave then t.close slave else t

namespace Spawns

variable {Call : Type} [DecidableEq Call]

/-- Before the first call: the standard descriptors are open, and others may be. -/
def boot (others : List (Option (Nat × Bool))) : Spawns Call where
  table := ⟨List.replicate 3 (some ⟨.other 0, false⟩) ++
    others.map fun slot => slot.map fun file => ⟨.other file.1, file.2⟩⟩
  lock := none
  phase := fun _ => .waiting
  child := fun _ => none

def goto (s : Spawns Call) (c : Call) (ph : SpawnPhase) : Spawns Call :=
  { s with phase := Function.update s.phase c ph }

/-- {lit}`SPAWN_LOCK.lock()`: the call waits while another holds the lock. -/
def takeLock (s : Spawns Call) (c : Call) : Option (Spawns Call) :=
  match s.lock with
  | none => some { s.goto c .locked with lock := some c }
  | some _ => none

def dropLock (s : Spawns Call) (c : Call) (ph : SpawnPhase) : Spawns Call :=
  { s.goto c ph with lock := none }

/-- A file of the call's pty is opened at the lowest free descriptor. -/
def openPty (s : Spawns Call) (c : Call) (e : PtyEnd) (next : Nat → SpawnPhase) : Spawns Call :=
  { s with
    table := s.table.opened (.pty c e) false
    phase := Function.update s.phase c (next s.table.lowest) }

def closePty (s : Spawns Call) (c : Call) (fd : Nat) (ph : SpawnPhase) : Spawns Call :=
  { s with table := s.table.close fd, phase := Function.update s.phase c ph }

/-- The fork: the child gets a copy of the daemon's table. -/
def fork (s : Spawns Call) (c : Call) (master slave : Nat) : Spawns Call :=
  { s with
    phase := Function.update s.phase c (.forked master slave)
    child := Function.update s.child c (some ⟨.forked master slave, false, s.table⟩) }

def setCloexec (s : Spawns Call) (c : Call) (master : Nat) : Spawns Call :=
  { s with
    table := s.table.setCloseOnExec master
    phase := Function.update s.phase c (.polling master 0) }

/-- {lit}`getpgid` of the call's child answers the child itself. -/
def leads (s : Spawns Call) (c : Call) : Bool :=
  match s.child c with
  | some k => k.leader
  | none => false

/-- One round of {lit}`await_own_process_group`, which gives up after 200. -/
def poll (s : Spawns Call) (c : Call) (master polls : Nat) : Spawns Call :=
  if s.leads c then s.goto c (.returned master)
  else if polls + 1 < 200 then s.goto c (.polling master (polls + 1))
  else s.goto c (.returned master)

/-- A step of one call. -/
def callStep (s : Spawns Call) (c : Call) (move : CallMove) : Option (Spawns Call) :=
  match move, s.phase c with
  | .lock, .waiting => s.takeLock c
  | .openMaster, .locked => some (s.openPty c .master .opened)
  | .openFails, .locked => some (s.goto c .refused)
  | .openSlave, .opened m => some (s.openPty c .slave (.paired m))
  | .openFails, .opened m => some (s.closePty c m .refused)
  | .fork, .paired m sl => some (s.fork c m sl)
  | .forkFails, .paired m sl => some (s.goto c (.unforked m sl))
  | .closeMaster, .unforked m sl => some (s.closePty c m (.halfClosed sl))
  | .closeSlave, .halfClosed sl => some (s.closePty c sl .refused)
  | .closeSlave, .forked m sl => some (s.closePty c sl (.parted m))
  | .unlock, .parted m => some (s.dropLock c (.released m))
  | .unlock, .refused => some (s.dropLock c .failed)
  | .setNonblocking, .released m => some (s.goto c (.nonblocking m))
  | .fcntlFails, .released m => some (s.closePty c m .failed)
  | .setCloexec, .nonblocking m => some (s.setCloexec c m)
  | .fcntlFails, .nonblocking m => some (s.closePty c m .failed)
  | .poll, .polling m n => some (s.poll c m n)
  | .drop, .returned m => some (s.closePty c m .dropped)
  | _, _ => none

/-- A step of one child. -/
def childMove (k : Child Call) (move : ChildMove) : Option (Child Call) :=
  match move, k.stage with
  | .login, .forked m sl =>
      (loginTty k.table m sl).map fun table => { stage := .loggedIn, leader := true, table }
  | .exec, .loggedIn => some { k with stage := .execed, table := k.table.exec }
  | .exit, .forked _ _ | .exit, .loggedIn | .exit, .execed =>
      some { k with stage := .gone, table := .empty }
  | _, _ => none

def step (s : Spawns Call) : SpawnStep Call → Option (Spawns Call)
  | .call c move => s.callStep c move
  | .child c move =>
      match s.child c with
      | none => none
      | some k =>
          (childMove k move).map fun k => { s with child := Function.update s.child c (some k) }
  | .openOther n closeOnExec => some { s with table := s.table.opened (.other n) closeOnExec }
  | .closeOther fd =>
      -- The standard descriptors stay open.
      match s.table.get fd with
      | some ⟨.other _, _⟩ => if 2 < fd then some { s with table := s.table.close fd } else none
      | _ => none

/-- The daemon and the children as one machine. -/
def machine : Machine (Spawns Call) (SpawnStep Call) where
  step := step

/-! ## The invariant -/

omit [DecidableEq Call] in
/-- The standard descriptors are open, and on no pty. -/
def StdOpen (t : Descriptors (OpenFile Call)) : Prop :=
  ∀ fd, fd ≤ 2 → ∃ n b, t.get fd = some ⟨.other n, b⟩

/-- The copy of the daemon's table that a child gets: of the child's own pty it has
what the call had at the fork. -/
structure Copied (d : Call) (master slave : Nat) (t : Descriptors (OpenFile Call)) : Prop where
  std : StdOpen t
  own : ∀ e fd b, t.get fd = some ⟨.pty d e, b⟩ ↔
    (SpawnPhase.paired master slave).ends.get e = some (fd, b)

/-- The child's standard descriptors are its slave, and nothing else is on its own
pty. -/
structure OnSlave (d : Call) (t : Descriptors (OpenFile Call)) : Prop where
  std : ∀ fd, fd ≤ 2 → t.get fd = some ⟨.pty d .slave, false⟩
  own : ∀ e fd b, t.get fd = some ⟨.pty d e, b⟩ → fd ≤ 2

/-- What a child has open of its own pty. -/
def OwnEnds (d : Call) (k : Child Call) : Prop :=
  match k.stage with
  | .forked m sl => Copied d m sl k.table
  | .loggedIn => OnSlave d k.table
  | .execed => OnSlave d k.table ∧ ∀ fd x, k.table.get fd = some x → x.closeOnExec = false
  | .gone => ∀ fd, k.table.get fd = none

/-- The lock, the daemon's table and the calls agree; a child appears at its fork and
has nobody else's slave. -/
structure Invariant (s : Spawns Call) : Prop where
  lock_iff : ∀ c, s.lock = some c ↔ (s.phase c).guarded = true
  table_iff : ∀ c e fd b, s.table.get fd = some ⟨.pty c e, b⟩ ↔
    (s.phase c).ends.get e = some (fd, b)
  std : StdOpen s.table
  unborn : ∀ c, (s.phase c).childless = true → s.child c = none
  ends : ∀ d k, s.child d = some k → OwnEnds d k
  slaves : ∀ c d k, s.child d = some k → k.table.Holds (.pty c .slave) → c = d

namespace Invariant

variable {s : Spawns Call} {c : Call} {before ph : SpawnPhase}

/-- A move of one call that leaves every other call's descriptors alone. -/
theorem move (hinv : s.Invariant) (hc : s.phase c = before) {t : Descriptors (OpenFile Call)}
    {lock : Option Call}
    (hlock : ∀ d, lock = some d ↔ (Function.update s.phase c ph d).guarded = true)
    (hunborn : ph.childless = true → before.childless = true)
    (hself : ∀ e fd b, t.get fd = some ⟨.pty c e, b⟩ ↔ ph.ends.get e = some (fd, b))
    (hothers : ∀ d e fd b, d ≠ c →
      (t.get fd = some ⟨.pty d e, b⟩ ↔ s.table.get fd = some ⟨.pty d e, b⟩))
    (hstd : StdOpen t) :
    Invariant { s with table := t, lock := lock, phase := Function.update s.phase c ph } := by
  refine ⟨hlock, ?_, hstd, ?_, hinv.ends, hinv.slaves⟩
  · intro d e fd b
    by_cases hd : d = c
    · subst hd
      simp only [Function.update_self]
      exact hself e fd b
    · simp only [Function.update_of_ne hd]
      exact (hothers d e fd b hd).trans (hinv.table_iff d e fd b)
  · intro d hchildless
    by_cases hd : d = c
    · subst hd
      simp only [Function.update_self] at hchildless
      exact hinv.unborn d (hc ▸ hunborn hchildless)
    · simp only [Function.update_of_ne hd] at hchildless
      exact hinv.unborn d hchildless

omit [DecidableEq Call] in
/-- The descriptors that the daemon has on the call's pty. -/
theorem own_iff (hinv : s.Invariant) (hc : s.phase c = before) (e : PtyEnd) (fd : Nat) (b : Bool) :
    s.table.get fd = some ⟨.pty c e, b⟩ ↔ before.ends.get e = some (fd, b) := by
  rw [← hc]
  exact hinv.table_iff c e fd b

/-- A move that neither takes nor drops the lock. -/
theorem lock_update (hinv : s.Invariant) (hc : s.phase c = before)
    (hguarded : ph.guarded = before.guarded) (d : Call) :
    s.lock = some d ↔ (Function.update s.phase c ph d).guarded = true := by
  rw [hinv.lock_iff]
  by_cases hd : d = c
  · subst hd
    rw [Function.update_self, hguarded, hc]
  · rw [Function.update_of_ne hd]

/-- A move that touches no descriptor and not the lock. -/
theorem goto (hinv : s.Invariant) (hc : s.phase c = before)
    (hguarded : ph.guarded = before.guarded)
    (hunborn : ph.childless = true → before.childless = true) (hends : ph.ends = before.ends) :
    Invariant (s.goto c ph) := by
  refine hinv.move hc (hinv.lock_update hc hguarded) hunborn ?_ (fun _ _ _ _ _ => Iff.rfl)
    hinv.std
  intro e fd b
  rw [hends]
  exact hinv.own_iff hc e fd b

/-- A lock is taken only where nobody holds it. -/
theorem takeLock (hinv : s.Invariant) (hc : s.phase c = .waiting) {t : Spawns Call}
    (hstep : s.takeLock c = some t) : t.Invariant := by
  unfold Spawns.takeLock at hstep
  cases hlock : s.lock with
  | some d =>
      rw [hlock] at hstep
      cases hstep
  | none =>
      rw [hlock] at hstep
      cases hstep
      have hown := hinv.own_iff hc
      refine hinv.move hc ?_ (fun _ => rfl) hown (fun _ _ _ _ _ => Iff.rfl) hinv.std
      intro d
      by_cases hd : d = c
      · subst hd
        simp [SpawnPhase.guarded]
      · rw [Function.update_of_ne hd, ← hinv.lock_iff, hlock]
        simp [Ne.symm hd]

/-- Only the holder of the lock drops it. -/
theorem dropLock (hinv : s.Invariant) (hc : s.phase c = before) (hholder : before.guarded = true)
    (hguarded : ph.guarded = false) (hunborn : ph.childless = true → before.childless = true)
    (hends : ph.ends = before.ends) : Invariant (s.dropLock c ph) := by
  refine hinv.move hc ?_ hunborn ?_ (fun _ _ _ _ _ => Iff.rfl) hinv.std
  · intro d
    by_cases hd : d = c
    · subst hd
      simp [hguarded]
    · rw [Function.update_of_ne hd, ← hinv.lock_iff, (hinv.lock_iff c).mpr (hc ▸ hholder)]
      simp [Ne.symm hd]
  · intro e fd b
    rw [hends]
    exact hinv.own_iff hc e fd b

/-- A file is opened at a descriptor that was free. -/
theorem openPty (hinv : s.Invariant) (hc : s.phase c = before) {e : PtyEnd}
    {next : Nat → SpawnPhase} (hguarded : (next s.table.lowest).guarded = before.guarded)
    (hunborn : (next s.table.lowest).childless = true → before.childless = true)
    (hends : (next s.table.lowest).ends = before.ends.set e (some (s.table.lowest, false)))
    (hnone : before.ends.get e = none) : Invariant (s.openPty c e next) := by
  have hfree := s.table.get_lowest
  refine hinv.move hc (hinv.lock_update hc hguarded) hunborn ?_ ?_ ?_
  · intro f fd b
    have hown := hinv.own_iff hc f fd b
    rw [Descriptors.get_opened, hends, PtyEnds.get_set]
    by_cases hfd : fd = s.table.lowest
    · subst hfd
      rw [hfree] at hown
      by_cases hf : f = e
      · subst hf
        simp
      · rw [if_pos rfl, if_neg hf, ← hown]
        simp [Ne.symm hf]
    · rw [if_neg hfd, hown]
      by_cases hf : f = e
      · subst hf
        simp [hnone, Ne.symm hfd]
      · rw [if_neg hf]
  · intro d f fd b hd
    rw [Descriptors.get_opened]
    by_cases hfd : fd = s.table.lowest
    · subst hfd
      simp [hfree, Ne.symm hd]
    · rw [if_neg hfd]
  · intro fd hfd
    obtain ⟨n, b, hget⟩ := hinv.std fd hfd
    refine ⟨n, b, ?_⟩
    rw [Descriptors.get_opened, if_neg, hget]
    rintro rfl
    rw [hfree] at hget
    cases hget

omit [DecidableEq Call] in
/-- No end of a pty is a standard descriptor of the daemon. -/
theorem two_lt (hinv : s.Invariant) {e : PtyEnd} {fd : Nat} {b : Bool}
    (hget : s.table.get fd = some ⟨.pty c e, b⟩) {n : Nat} (hn : n ≤ 2) : n ≠ fd := by
  rintro rfl
  obtain ⟨m, b', hother⟩ := hinv.std n hn
  rw [hother] at hget
  cases hget

/-- A move that closes one end. -/
theorem closePty (hinv : s.Invariant) (hc : s.phase c = before) {e : PtyEnd} {m : Nat} {b₀ : Bool}
    (hend : before.ends.get e = some (m, b₀)) (hguarded : ph.guarded = before.guarded)
    (hunborn : ph.childless = true → before.childless = true)
    (hends : ph.ends = before.ends.set e none) : Invariant (s.closePty c m ph) := by
  have hopen : s.table.get m = some ⟨.pty c e, b₀⟩ := (hinv.own_iff hc e m b₀).mpr hend
  refine hinv.move hc (hinv.lock_update hc hguarded) hunborn ?_ ?_ ?_
  · intro f fd b
    have hown := hinv.own_iff hc f fd b
    rw [Descriptors.get_close, hends, PtyEnds.get_set]
    by_cases hf : f = e
    · subst hf
      rw [if_pos rfl]
      by_cases hfd : fd = m
      · simp [hfd]
      · rw [if_neg hfd, hown, hend]
        simp [Ne.symm hfd]
    · rw [if_neg hf, ← hown]
      by_cases hfd : fd = m
      · subst hfd
        simp [hopen, Ne.symm hf]
      · rw [if_neg hfd]
  · intro d f fd b hd
    rw [Descriptors.get_close]
    by_cases hfd : fd = m
    · subst hfd
      simp [hopen, Ne.symm hd]
    · rw [if_neg hfd]
  · intro fd hfd
    obtain ⟨n, b, hget⟩ := hinv.std fd hfd
    refine ⟨n, b, ?_⟩
    rw [Descriptors.get_close, if_neg (hinv.two_lt hopen hfd), hget]

/-- {lit}`set_cloexec` changes the flag of the master alone. -/
theorem setCloexec (hinv : s.Invariant) {m : Nat} (hc : s.phase c = .nonblocking m) :
    Invariant (s.setCloexec c m) := by
  have hopen : s.table.get m = some ⟨.pty c .master, false⟩ := (hinv.own_iff hc ..).mpr rfl
  refine hinv.move hc (hinv.lock_update hc rfl) (by simp [SpawnPhase.childless]) ?_ ?_ ?_
  · intro e fd b
    have hown := hinv.own_iff hc e fd b
    rw [Descriptors.get_setCloseOnExec]
    by_cases hfd : fd = m
    · subst hfd
      rw [if_pos rfl, hopen]
      cases e with
      | master => simp [SpawnPhase.ends, PtyEnds.get]
      | slave => simp [SpawnPhase.ends, PtyEnds.get]
    · rw [if_neg hfd, hown]
      cases e with
      | master => simp [SpawnPhase.ends, PtyEnds.get, Ne.symm hfd]
      | slave => simp [SpawnPhase.ends, PtyEnds.get]
  · intro d e fd b hd
    rw [Descriptors.get_setCloseOnExec]
    by_cases hfd : fd = m
    · subst hfd
      simp [hopen, Ne.symm hd]
    · rw [if_neg hfd]
  · intro fd hfd
    obtain ⟨n, b, hget⟩ := hinv.std fd hfd
    refine ⟨n, b, ?_⟩
    rw [Descriptors.get_setCloseOnExec, if_neg (hinv.two_lt hopen hfd), hget]

omit [DecidableEq Call] in
/-- A call that has its slave open holds the lock. -/
theorem slave_iff (hinv : s.Invariant) :
    s.table.Holds (.pty c .slave) ↔ (s.phase c).slaveHeld = true := by
  have hends : (∃ fd b, (s.phase c).ends.get .slave = some (fd, b)) ↔
      (s.phase c).slaveHeld = true := by
    cases s.phase c <;> simp [SpawnPhase.ends, PtyEnds.get, SpawnPhase.slaveHeld]
  rw [← hends]
  constructor
  · rintro ⟨fd, ⟨file, closes⟩, hget, rfl⟩
    exact ⟨fd, closes, (hinv.table_iff c .slave fd closes).mp hget⟩
  · rintro ⟨fd, closes, hslave⟩
    exact ⟨fd, ⟨_, closes⟩, (hinv.table_iff c .slave fd closes).mpr hslave, rfl⟩

omit [DecidableEq Call] in
/-- A slave that is open is open under its call's lock. -/
theorem guarded_of_slave (hinv : s.Invariant) (hholds : s.table.Holds (.pty c .slave)) :
    s.lock = some c := by
  rw [hinv.lock_iff]
  exact SpawnPhase.guarded_of_slaveHeld (hinv.slave_iff.mp hholds)

/-- A fork happens under the lock: no other call has a slave open. -/
theorem fork (hinv : s.Invariant) {m sl : Nat} (hc : s.phase c = .paired m sl) :
    Invariant (s.fork c m sl) := by
  have hforked : Invariant (s.goto c (.forked m sl)) :=
    hinv.goto hc rfl (by simp [SpawnPhase.childless]) rfl
  have hself : (s.fork c m sl).child c = some ⟨.forked m sl, false, s.table⟩ :=
    Function.update_self ..
  have hother : ∀ d, d ≠ c → (s.fork c m sl).child d = s.child d :=
    fun d hd => Function.update_of_ne hd ..
  refine ⟨hforked.lock_iff, hforked.table_iff, hforked.std, ?_, ?_, ?_⟩
  · intro d hchildless
    by_cases hd : d = c
    · subst hd
      simp [Spawns.fork, SpawnPhase.childless] at hchildless
    · rw [hother d hd]
      exact hforked.unborn d hchildless
  · intro d k hk
    by_cases hd : d = c
    · subst hd
      rw [hself] at hk
      cases hk
      exact ⟨hinv.std, hinv.own_iff hc⟩
    · rw [hother d hd] at hk
      exact hinv.ends d k hk
  · intro b d k hk hholds
    by_cases hd : d = c
    · subst hd
      rw [hself] at hk
      cases hk
      have hlock := hinv.guarded_of_slave hholds
      rw [(hinv.lock_iff d).mpr (by rw [hc]; rfl)] at hlock
      exact (Option.some.inj hlock).symm
    · rw [hother d hd] at hk
      exact hinv.slaves b d k hk hholds

end Invariant

/-! ## Children -/

omit [DecidableEq Call] in
/-- {lit}`login_tty` gives a child its slave as standard descriptors, closes the two it
came with, and changes no other. -/
theorem loginTty_eq_some {t : Descriptors (OpenFile Call)} {d : Call} {m sl : Nat}
    (hcopied : Copied d m sl t) :
    ∃ u, loginTty t m sl = some u ∧ ∀ fd, u.get fd =
      if fd ≤ 2 then some ⟨.pty d .slave, false⟩
      else if fd = m ∨ fd = sl then none else t.get fd := by
  have hmaster : t.get m = some ⟨.pty d .master, false⟩ := (hcopied.own _ _ _).mpr rfl
  have hslave : t.get sl = some ⟨.pty d .slave, false⟩ := (hcopied.own _ _ _).mpr rfl
  have hlarge : ∀ {e fd b}, t.get fd = some ⟨.pty d e, b⟩ → 2 < fd := by
    intro e fd b hget
    by_contra hle
    obtain ⟨n, b', hother⟩ := hcopied.std fd (by omega)
    rw [hother] at hget
    cases hget
  have hm := hlarge hmaster
  have hsl := hlarge hslave
  have hne : sl ≠ m := by
    rintro rfl
    rw [hmaster] at hslave
    cases hslave
  have hopen : (t.close m).get sl = some ⟨.pty d .slave, false⟩ := by
    rw [Descriptors.get_close, if_neg hne, hslave]
  obtain ⟨u, hdup, hget⟩ := Descriptors.dupOnto_of_open hopen [0, 1, 2]
  refine ⟨u.close sl, ?_, ?_⟩
  · rw [loginTty, hdup, Option.bind_eq_bind, Option.bind_some, if_pos hsl]
    rfl
  · intro fd
    rw [Descriptors.get_close, hget, Descriptors.get_close]
    by_cases hfd : fd ≤ 2
    · have hstd : fd ∈ [0, 1, 2] ∧ fd ≠ sl := by
        simp only [List.mem_cons, List.not_mem_nil, or_false]
        omega
      rw [if_neg hstd.2, if_pos hstd, if_pos hfd]
    · have hnot : ¬ (fd ∈ [0, 1, 2] ∧ fd ≠ sl) := by
        simp only [List.mem_cons, List.not_mem_nil, or_false]
        omega
      rw [if_neg hnot, if_neg hfd]
      by_cases hfdsl : fd = sl
      · simp [hfdsl]
      · simp [hfdsl]

omit [DecidableEq Call] in
/-- A step of a child: it logs in, it execs, or it is gone. -/
theorem childMove_cases {d : Call} {k l : Child Call} {move : ChildMove} (hends : OwnEnds d k)
    (hstep : childMove k move = some l) :
    (∃ m sl, k.stage = .forked m sl ∧ Copied d m sl k.table ∧ l.stage = .loggedIn ∧
      ∀ fd, l.table.get fd = if fd ≤ 2 then some ⟨.pty d .slave, false⟩
        else if fd = m ∨ fd = sl then none else k.table.get fd) ∨
    (k.stage = .loggedIn ∧ OnSlave d k.table ∧ l.stage = .execed ∧ l.table = k.table.exec) ∨
    (l.stage = .gone ∧ l.table = .empty) := by
  unfold childMove at hstep
  split at hstep
  case h_1 m sl hstage =>
      rw [OwnEnds, hstage] at hends
      obtain ⟨u, hlogin, hget⟩ := loginTty_eq_some hends
      rw [hlogin] at hstep
      cases hstep
      exact Or.inl ⟨m, sl, hstage, hends, rfl, hget⟩
  case h_2 hstage =>
      rw [OwnEnds, hstage] at hends
      cases hstep
      exact Or.inr (Or.inl ⟨hstage, hends, rfl, rfl⟩)
  case h_3 =>
      cases hstep
      exact Or.inr (Or.inr ⟨rfl, rfl⟩)
  case h_4 =>
      cases hstep
      exact Or.inr (Or.inr ⟨rfl, rfl⟩)
  case h_5 =>
      cases hstep
      exact Or.inr (Or.inr ⟨rfl, rfl⟩)
  case h_6 => cases hstep

omit [DecidableEq Call] in
/-- A child's move keeps its own ends as they should be. -/
theorem ownEnds_childMove {d : Call} {k l : Child Call} {move : ChildMove} (hends : OwnEnds d k)
    (hstep : childMove k move = some l) : OwnEnds d l := by
  rcases childMove_cases hends hstep with
    ⟨m, sl, -, hcopied, hstage, hget⟩ | ⟨-, hon, hstage, htable⟩ | ⟨hstage, htable⟩
  · rw [OwnEnds, hstage]
    constructor
    · intro fd hfd
      rw [hget, if_pos hfd]
    · intro e fd b hfd
      by_contra hlarge
      rw [hget, if_neg hlarge] at hfd
      split at hfd
      · cases hfd
      · rename_i hneither
        have hcopy := (hcopied.own e fd b).mp hfd
        cases e with
        | master =>
            cases hcopy
            exact hneither (Or.inl rfl)
        | slave =>
            cases hcopy
            exact hneither (Or.inr rfl)
  · rw [OwnEnds, hstage, htable]
    refine ⟨⟨?_, ?_⟩, ?_⟩
    · intro fd hfd
      rw [Descriptors.get_exec, hon.std fd hfd]
      rfl
    · intro e fd b hfd
      rw [Descriptors.get_exec, Option.filter_eq_some_iff] at hfd
      exact hon.own e fd b hfd.1
    · intro fd x hfd
      rw [Descriptors.get_exec, Option.filter_eq_some_iff] at hfd
      simpa using hfd.2
  · rw [OwnEnds, hstage, htable]
    exact fun fd => rfl

omit [DecidableEq Call] in
/-- A step of a child opens nothing new but the child's own slave. -/
theorem holds_childMove {c d : Call} {k l : Child Call} {move : ChildMove} (hends : OwnEnds d k)
    (hstep : childMove k move = some l) (hholds : l.table.Holds (.pty c .slave)) :
    c = d ∨ k.table.Holds (.pty c .slave) := by
  obtain ⟨fd, x, hx, hfile⟩ := hholds
  rcases childMove_cases hends hstep with
    ⟨m, sl, -, -, -, hget⟩ | ⟨-, -, -, htable⟩ | ⟨-, htable⟩
  · rw [hget] at hx
    split at hx
    · cases hx
      cases hfile
      exact Or.inl rfl
    · split at hx
      · cases hx
      · exact Or.inr ⟨fd, x, hx, hfile⟩
  · rw [htable, Descriptors.get_exec, Option.filter_eq_some_iff] at hx
    exact Or.inr ⟨fd, x, hx.1, hfile⟩
  · rw [htable] at hx
    cases hx

/-! ## Steps and runs -/

/-- Another part of the daemon closes files of its own only. -/
theorem closeOther_eq_some {s t : Spawns Call} {fd : Nat}
    (hstep : s.step (.closeOther fd) = some t) :
    ∃ n b, s.table.get fd = some ⟨.other n, b⟩ ∧ 2 < fd ∧
      t = { s with table := s.table.close fd } := by
  simp only [step] at hstep
  split at hstep
  · rename_i n b hget
    rw [Option.ite_none_right_eq_some, Option.some.injEq] at hstep
    exact ⟨n, b, hget, hstep.1, hstep.2.symm⟩
  · cases hstep

namespace Invariant

variable {s t : Spawns Call} {c : Call}

/-- A child's move keeps the invariant. -/
theorem child (hinv : s.Invariant) {k l : Child Call} {move : ChildMove} (hk : s.child c = some k)
    (hstep : childMove k move = some l) :
    Invariant { s with child := Function.update s.child c (some l) } := by
  have hends := hinv.ends c k hk
  refine ⟨hinv.lock_iff, hinv.table_iff, hinv.std, ?_, ?_, ?_⟩
  · intro d hchildless
    have hnone := hinv.unborn d hchildless
    have hd : d ≠ c := by
      rintro rfl
      rw [hk] at hnone
      cases hnone
    simp only [Function.update_of_ne hd]
    exact hnone
  · intro d j hj
    by_cases hd : d = c
    · subst hd
      simp only [Function.update_self, Option.some.injEq] at hj
      exact hj ▸ ownEnds_childMove hends hstep
    · simp only [Function.update_of_ne hd] at hj
      exact hinv.ends d j hj
  · intro b d j hj hholds
    by_cases hd : d = c
    · subst hd
      simp only [Function.update_self, Option.some.injEq] at hj
      subst hj
      rcases holds_childMove hends hstep hholds with hself | hbefore
      · exact hself
      · exact hinv.slaves b d k hk hbefore
    · simp only [Function.update_of_ne hd] at hj
      exact hinv.slaves b d j hj hholds

omit [DecidableEq Call] in
/-- The rest of the daemon changes no descriptor of a pty. -/
theorem others (hinv : s.Invariant) {t : Descriptors (OpenFile Call)}
    (hsame : ∀ c e fd b, t.get fd = some ⟨.pty c e, b⟩ ↔ s.table.get fd = some ⟨.pty c e, b⟩)
    (hstd : StdOpen t) : Invariant { s with table := t } :=
  ⟨hinv.lock_iff, fun c e fd b => (hsame c e fd b).trans (hinv.table_iff c e fd b), hstd,
    hinv.unborn, hinv.ends, hinv.slaves⟩

/-- A call's move keeps the invariant. -/
theorem call (hinv : s.Invariant) {move : CallMove} (hstep : s.callStep c move = some t) :
    t.Invariant := by
  unfold callStep at hstep
  split at hstep
  case h_1 hc => exact hinv.takeLock hc hstep
  all_goals cases hstep
  case h_2 hc => exact hinv.openPty hc rfl (fun _ => rfl) rfl rfl
  case h_3 hc => exact hinv.goto hc rfl (fun _ => rfl) rfl
  case h_4 m hc => exact hinv.openPty hc rfl (fun _ => rfl) rfl rfl
  case h_5 m hc => exact hinv.closePty (e := .master) hc rfl rfl (fun _ => rfl) rfl
  case h_6 m sl hc => exact hinv.fork hc
  case h_7 m sl hc => exact hinv.goto hc rfl (fun _ => rfl) rfl
  case h_8 m sl hc => exact hinv.closePty (e := .master) hc rfl rfl (fun _ => rfl) rfl
  case h_9 sl hc => exact hinv.closePty (e := .slave) hc rfl rfl (fun _ => rfl) rfl
  case h_10 m sl hc => exact hinv.closePty (e := .slave) hc rfl rfl id rfl
  case h_11 m hc => exact hinv.dropLock hc rfl rfl id rfl
  case h_12 hc => exact hinv.dropLock hc rfl rfl (fun _ => rfl) rfl
  case h_13 m hc => exact hinv.goto hc rfl id rfl
  case h_14 m hc => exact hinv.closePty (e := .master) hc rfl rfl id rfl
  case h_15 m hc => exact hinv.setCloexec hc
  case h_16 m hc => exact hinv.closePty (e := .master) hc rfl rfl id rfl
  case h_17 m n hc =>
      unfold Spawns.poll
      split
      · exact hinv.goto hc rfl id rfl
      · split
        · exact hinv.goto hc rfl id rfl
        · exact hinv.goto hc rfl id rfl
  case h_18 m hc => exact hinv.closePty (e := .master) hc rfl rfl id rfl

/-- Every step keeps the invariant. -/
theorem step (hinv : s.Invariant) {a : SpawnStep Call} (hstep : s.step a = some t) :
    t.Invariant := by
  cases a with
  | call c move => exact hinv.call hstep
  | child c move =>
      simp only [Spawns.step] at hstep
      cases hk : s.child c with
      | none =>
          rw [hk] at hstep
          cases hstep
      | some k =>
          rw [hk] at hstep
          simp only [Option.map_eq_some_iff] at hstep
          obtain ⟨l, hl, rfl⟩ := hstep
          exact hinv.child hk hl
  | openOther n closeOnExec =>
      cases hstep
      have hfree := s.table.get_lowest
      refine hinv.others ?_ ?_
      · intro c e fd b
        rw [Descriptors.get_opened]
        by_cases hfd : fd = s.table.lowest
        · subst hfd
          simp [hfree]
        · rw [if_neg hfd]
      · intro fd hfd
        obtain ⟨m, b, hget⟩ := hinv.std fd hfd
        refine ⟨m, b, ?_⟩
        rw [Descriptors.get_opened, if_neg, hget]
        rintro rfl
        rw [hfree] at hget
        cases hget
  | closeOther fd =>
      obtain ⟨n, b, hget, hlarge, rfl⟩ := closeOther_eq_some hstep
      refine hinv.others ?_ ?_
      · intro c e m b'
        rw [Descriptors.get_close]
        by_cases hm : m = fd
        · subst hm
          simp [hget]
        · rw [if_neg hm]
      · intro m hm
        rw [Descriptors.get_close, if_neg (by omega)]
        exact hinv.std m hm

end Invariant

omit [DecidableEq Call] in
/-- Before the first call the invariant holds. -/
theorem invariant_boot (others : List (Option (Nat × Bool))) :
    (boot others : Spawns Call).Invariant := by
  have hnone : ∀ (c : Call) e fd b, (boot others).table.get fd ≠ some ⟨.pty c e, b⟩ := by
    intro c e fd b hget
    have hmem := Descriptors.mem_of_get hget
    simp only [boot, List.mem_append, List.mem_replicate, List.mem_map, Option.map_eq_some_iff,
      Option.some.injEq, Descriptor.mk.injEq, reduceCtorEq, false_and, and_false,
      exists_false, or_self] at hmem
  refine ⟨?_, ?_, ?_, fun _ _ => rfl, ?_, ?_⟩
  · intro c
    simp [boot, SpawnPhase.guarded]
  · intro c e fd b
    refine iff_of_false (hnone c e fd b) ?_
    cases e with
    | master => simp [boot, SpawnPhase.ends, PtyEnds.get]
    | slave => simp [boot, SpawnPhase.ends, PtyEnds.get]
  · intro fd hfd
    rcases (by omega : fd = 0 ∨ fd = 1 ∨ fd = 2) with rfl | rfl | rfl
    · exact ⟨0, false, rfl⟩
    · exact ⟨0, false, rfl⟩
    · exact ⟨0, false, rfl⟩
  · intro d k hk
    cases hk
  · intro c d k hk
    cases hk

/-- The invariant holds in every run. -/
theorem invariant_run {others : List (Option (Nat × Bool))} {steps : List (SpawnStep Call)}
    {s : Spawns Call} (hrun : machine.run (boot others) steps = some s) : s.Invariant :=
  machine.run_induct (motive := Invariant) (fun _ _ _ hinv hstep => hinv.step hstep)
    (invariant_boot others) hrun

/-- Some process has the slave of the call's pty open, so a read of the master reports
no end of file. -/
def SlaveOpen (s : Spawns Call) (c : Call) : Prop :=
  s.table.Holds (.pty c .slave) ∨ ∃ d k, s.child d = some k ∧ k.table.Holds (.pty c .slave)

/-- In every interleaving of spawns: the daemon has a slave open exactly while its call is
between opening and closing it, all of that under the lock; a child has no slave but its
own, so a slave is closed everywhere once its call has closed it and its child has ended;
and a call that has failed, or whose {lit}`Pty` was dropped, leaves no descriptor
behind. -/
theorem slave_confined (others : List (Option (Nat × Bool))) (steps : List (SpawnStep Call))
    (s : Spawns Call) (hrun : machine.run (boot others) steps = some s) (c : Call) :
    (s.table.Holds (.pty c .slave) ↔ (s.phase c).slaveHeld = true) ∧
    (s.table.Holds (.pty c .slave) → s.lock = some c) ∧
    (∀ d k, s.child d = some k → k.table.Holds (.pty c .slave) → d = c) ∧
    ((s.phase c).slaveHeld = false → (∀ k, s.child c = some k → k.stage = .gone) →
      ¬ s.SlaveOpen c) ∧
    (s.phase c = .failed ∨ s.phase c = .dropped → ∀ e, ¬ s.table.Holds (.pty c e)) := by
  have hinv := invariant_run hrun
  have hown : ∀ d k, s.child d = some k → k.table.Holds (.pty c .slave) → d = c :=
    fun d k hk hholds => (hinv.slaves c d k hk hholds).symm
  refine ⟨hinv.slave_iff, hinv.guarded_of_slave, hown, ?_, ?_⟩
  · intro hclosed hgone hopen
    rcases hopen with hdaemon | ⟨d, k, hk, hholds⟩
    · rw [hinv.slave_iff, hclosed] at hdaemon
      cases hdaemon
    · obtain rfl := hown d k hk hholds
      have hends := hinv.ends d k hk
      rw [OwnEnds, hgone k hk] at hends
      obtain ⟨fd, x, hget, -⟩ := hholds
      rw [hends fd] at hget
      cases hget
  · rintro hover e ⟨fd, ⟨file, b⟩, hget, rfl⟩
    rw [hinv.table_iff] at hget
    rcases hover with hphase | hphase
    · rw [hphase] at hget
      cases e with
      | master => cases hget
      | slave => cases hget
    · rw [hphase] at hget
      cases e with
      | master => cases hget
      | slave => cases hget

/-- Two threads spawn: the second one forks while the first one's master is not close-on-exec
yet, and the first one's shell ends. -/
def sideBySide : List (SpawnStep Nat) :=
  [.call 0 .lock, .openOther 7 true, .call 0 .openMaster, .call 0 .openSlave, .call 0 .fork,
    .child 0 .login, .call 0 .closeSlave, .call 0 .unlock, .call 1 .lock, .call 1 .openMaster,
    .child 0 .exec, .call 1 .openSlave, .call 1 .fork, .call 0 .setNonblocking,
    .call 0 .setCloexec, .child 1 .login, .call 1 .closeSlave, .child 1 .exec, .call 0 .poll,
    .child 0 .exit]

/-- The first call's slave is closed everywhere. -/
theorem slave_confined_sideBySide :
    (machine.run (boot []) sideBySide).isSome = true ∧
      ∀ s ∈ machine.run (boot []) sideBySide, ¬ s.SlaveOpen 0 := by
  have hend : ∀ s ∈ machine.run (boot []) sideBySide,
      (s.phase 0).slaveHeld = false ∧ ∀ k ∈ s.child 0, k.stage = .gone := by decide
  refine ⟨by decide, ?_⟩
  intro s hs
  exact (slave_confined [] sideBySide s hs 0).2.2.2.1 (hend s hs).1 fun k hk => (hend s hs).2 k hk

/-! ## Masters of other sessions -/

/-- What one step does to a child: its fork, a move of its own, or nothing. -/
theorem child_step {s t : Spawns Call} {a : SpawnStep Call}
    (hstep : s.step a = some t) (d : Call) :
    (a = .call d .fork ∧ ∃ m sl, s.phase d = .paired m sl ∧
      t.child d = some ⟨.forked m sl, false, s.table⟩) ∨
    (a ≠ .call d .fork ∧ (t.child d = s.child d ∨
      ∃ k l move, s.child d = some k ∧ childMove k move = some l ∧ t.child d = some l)) := by
  cases a with
  | call c move =>
      simp only [step, callStep] at hstep
      split at hstep
      case h_6 m sl hc =>
          cases hstep
          by_cases hd : d = c
          · subst hd
            exact Or.inl ⟨rfl, m, sl, hc, Function.update_self ..⟩
          · refine Or.inr ⟨?_, Or.inl (Function.update_of_ne hd ..)⟩
            intro h
            cases h
            exact hd rfl
      case h_1 hc =>
          unfold takeLock at hstep
          split at hstep
          · cases hstep
            exact Or.inr ⟨by simp, Or.inl rfl⟩
          · cases hstep
      case h_17 m n hc =>
          cases hstep
          refine Or.inr ⟨by simp, Or.inl ?_⟩
          unfold poll
          split
          · rfl
          · split
            · rfl
            · rfl
      case h_19 => cases hstep
      all_goals
        cases hstep
        exact Or.inr ⟨by simp, Or.inl rfl⟩
  | child c move =>
      refine Or.inr ⟨by simp, ?_⟩
      simp only [step] at hstep
      cases hk : s.child c with
      | none =>
          rw [hk] at hstep
          cases hstep
      | some k =>
          rw [hk] at hstep
          simp only [Option.map_eq_some_iff] at hstep
          obtain ⟨l, hl, rfl⟩ := hstep
          by_cases hd : d = c
          · subst hd
            exact Or.inr ⟨k, l, move, hk, hl, Function.update_self ..⟩
          · exact Or.inl (Function.update_of_ne hd ..)
  | openOther n closeOnExec =>
      cases hstep
      exact Or.inr ⟨by simp, Or.inl rfl⟩
  | closeOther fd =>
      obtain ⟨n, b, -, -, rfl⟩ := closeOther_eq_some hstep
      exact Or.inr ⟨by simp, Or.inl rfl⟩

/-- The child has another session's master open, and it stays open on exec. -/
def Exposed (k : Child Call) (c : Call) : Prop :=
  ∃ fd, k.table.get fd = some ⟨.pty c .master, false⟩

omit [DecidableEq Call] in
/-- A child that goes on keeps what it has of other masters. -/
theorem exposed_childMove {c d : Call} {k l : Child Call} {move : ChildMove} (hne : c ≠ d)
    (hends : OwnEnds d k) (hstep : childMove k move = some l) (hon : l.stage ≠ .gone) :
    k.stage ≠ .gone ∧ (Exposed l c ↔ Exposed k c) := by
  rcases childMove_cases hends hstep with
    ⟨m, sl, hstage, hcopied, -, hget⟩ | ⟨hstage, -, -, htable⟩ | ⟨hgone, -⟩
  · refine ⟨by rw [hstage]; simp, exists_congr fun fd => ?_⟩
    rw [hget]
    by_cases hfd : fd ≤ 2
    · obtain ⟨n, b, hother⟩ := hcopied.std fd hfd
      rw [if_pos hfd, hother]
      simp
    · rw [if_neg hfd]
      by_cases hown : fd = m ∨ fd = sl
      · rw [if_pos hown]
        refine iff_of_false (by simp) ?_
        intro hmaster
        rcases hown with rfl | rfl
        · rw [(hcopied.own .master fd false).mpr rfl] at hmaster
          cases hmaster
          exact hne rfl
        · rw [(hcopied.own .slave fd false).mpr rfl] at hmaster
          cases hmaster
      · rw [if_neg hown]
  · refine ⟨by rw [hstage]; simp, exists_congr fun fd => ?_⟩
    rw [htable, Descriptors.get_exec, Option.filter_eq_some_iff]
    simp
  · exact absurd hgone hon

/-- A call forks while another's master is open, unlocked and not yet close-on-exec. -/
def ForksExposed (c d : Call) (s : Spawns Call) (a : SpawnStep Call) : Prop :=
  a = .call d .fork ∧ (s.phase c).exposed = true

/-- What a child has of another master, as long as it has not ended: it has it iff it
was forked while that master was exposed. -/
def Inherited (s : Spawns Call) (c d : Call) (forkedExposed : Prop) : Prop :=
  (s.child d = none → ¬ forkedExposed) ∧
    ∀ k, s.child d = some k → k.stage ≠ .gone → (Exposed k c ↔ forkedExposed)

omit [DecidableEq Call] in
/-- At a fork, the masters without close-on-exec that are not the forking call's own are
the exposed ones. -/
theorem exposed_fork {s : Spawns Call} (hinv : s.Invariant) {c d : Call} (hne : c ≠ d) {m sl : Nat}
    (hd : s.phase d = .paired m sl) {k : Child Call} (hk : k.table = s.table) :
    Exposed k c ↔ (s.phase c).exposed = true := by
  have hguarded : (s.phase c).guarded ≠ true := by
    intro hc
    have hlock := (hinv.lock_iff c).mpr hc
    rw [(hinv.lock_iff d).mpr (by rw [hd]; rfl)] at hlock
    exact hne (Option.some.inj hlock).symm
  unfold Exposed
  simp only [hk, hinv.table_iff]
  revert hguarded
  cases s.phase c <;> simp [SpawnPhase.guarded, SpawnPhase.ends, PtyEnds.get, SpawnPhase.exposed]

/-- A step makes a child inherit only where it forks an exposed master. -/
theorem inherited_step {s t : Spawns Call} {a : SpawnStep Call} {c d : Call} (hne : c ≠ d)
    (hinv : s.Invariant) {before : Prop} (hs : s.Inherited c d before) (hstep : s.step a = some t) :
    t.Inherited c d (before ∨ ForksExposed c d s a) := by
  rcases child_step hstep d with ⟨rfl, m, sl, hd, hchild⟩ | ⟨hnot, hchild⟩
  · have hnone := hs.1 (hinv.unborn d (by rw [hd]; rfl))
    refine ⟨?_, ?_⟩
    · rw [hchild]
      simp
    · intro k hk _
      rw [hchild, Option.some.injEq] at hk
      subst hk
      rw [exposed_fork hinv hne hd rfl]
      simp [hnone, ForksExposed]
  · have hsame : (before ∨ ForksExposed c d s a) ↔ before :=
      or_iff_left fun h => hnot h.1
    rcases hchild with hchild | ⟨k, l, move, hk, hl, hchild⟩
    · unfold Inherited
      rw [hsame, hchild]
      exact hs
    · refine ⟨by rw [hchild]; simp, ?_⟩
      intro j hj hon
      rw [hchild, Option.some.injEq] at hj
      subst hj
      obtain ⟨hbefore, hiff⟩ := exposed_childMove hne (hinv.ends d k hk) hl hon
      rw [hsame, hiff]
      exact hs.2 k hk hbefore

/-- In every run a child has another's master just when it was forked exposed. -/
theorem inherited_run {others : List (Option (Nat × Bool))} {steps : List (SpawnStep Call)}
    {s : Spawns Call} (hrun : machine.run (boot others) steps = some s) {c d : Call} (hne : c ≠ d) :
    s.Inherited c d (machine.Took (ForksExposed c d) (boot others) steps) := by
  have halong : machine.Along (fun _ _ => True) (boot others : Spawns Call) steps :=
    machine.along_iff_forall.mpr fun _ _ _ _ _ _ => trivial
  refine (machine.trail_induct (motive := fun steps (s : Spawns Call) => s.Invariant ∧
    s.Inherited c d (machine.Took (ForksExposed c d) (boot others) steps)) ?_ ?_ halong hrun).2
  · refine ⟨invariant_boot others, fun _ => machine.not_took_nil, ?_⟩
    intro k hk
    cases hk
  · rintro steps s a t hbefore ⟨hinv, hs⟩ - hstep
    refine ⟨hinv.step hstep, ?_⟩
    rw [machine.took_snoc hbefore]
    exact inherited_step hne hinv hs hstep

/-- In every interleaving of spawns, an exec'd shell has its own slave as standard
descriptors and nothing else of its own pty; of the other ptys it has no slave, and it
has a master iff it was forked after that master's call had dropped the lock and before
it had made the master close on exec. -/
theorem shell_descriptors (others : List (Option (Nat × Bool))) (steps : List (SpawnStep Call))
    (s : Spawns Call) (hrun : machine.run (boot others) steps = some s) (d : Call) (k : Child Call)
    (hk : s.child d = some k) (hexec : k.stage = .execed) :
    (∀ fd, fd ≤ 2 → k.table.get fd = some ⟨.pty d .slave, false⟩) ∧
    (∀ fd c e b, 2 < fd → k.table.get fd = some ⟨.pty c e, b⟩ → c ≠ d ∧ e = .master) ∧
    ∀ c, c ≠ d → (k.table.Holds (.pty c .master) ↔
      machine.Took (ForksExposed c d) (boot others) steps) := by
  have hinv := invariant_run hrun
  have hends := hinv.ends d k hk
  rw [OwnEnds, hexec] at hends
  obtain ⟨hon, hcloses⟩ := hends
  refine ⟨hon.std, ?_, ?_⟩
  · intro fd c e b hfd hget
    have hother : c ≠ d := by
      rintro rfl
      exact absurd (hon.own e fd b hget) (by omega)
    cases e with
    | master => exact ⟨hother, rfl⟩
    | slave => exact absurd (hinv.slaves c d k hk ⟨fd, _, hget, rfl⟩) hother
  · intro c hne
    rw [← (inherited_run hrun hne).2 k hk (by rw [hexec]; simp)]
    constructor
    · rintro ⟨fd, ⟨file, b⟩, hget, rfl⟩
      have hb : b = false := hcloses fd _ hget
      exact ⟨fd, hb ▸ hget⟩
    · rintro ⟨fd, hget⟩
      exact ⟨fd, _, hget, rfl⟩

/-- The second shell has inherited the first one's master. -/
theorem shell_descriptors_sideBySide :
    (machine.run (boot []) sideBySide).isSome = true ∧
      ∀ s ∈ machine.run (boot []) sideBySide, ∀ k ∈ s.child 1,
        k.table.get 4 = some ⟨.pty 0 .master, false⟩ ∧
        k.table.get 0 = some ⟨.pty 1 .slave, false⟩ ∧
        machine.Took (ForksExposed 0 1) (boot []) sideBySide := by
  have hend : ∀ s ∈ machine.run (boot []) sideBySide, ∀ k ∈ s.child 1,
      k.stage = .execed ∧ k.table.get 4 = some ⟨.pty 0 .master, false⟩ := by decide
  refine ⟨by decide, ?_⟩
  intro s hs k hk
  obtain ⟨hexec, hmaster⟩ := hend s hs k hk
  obtain ⟨hstd, -, hiff⟩ := shell_descriptors [] sideBySide s hs 1 k hk hexec
  exact ⟨hmaster, hstd 0 (by omega), (hiff 0 (by decide)).mp ⟨4, _, hmaster, rfl⟩⟩

end Spawns

end JftermMuxer.Daemon
