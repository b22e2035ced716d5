import JftermMuxer.Foundation.Machine
import Mathlib.Data.Fintype.Basic
import Mathlib.Logic.Function.Basic

/-!
# Becoming the daemon

Any number of processes run `main` against one lock path and one socket path.
Each takes `acquire_daemon`'s steps (open or create the lockfile, try the flock,
bind, unlink a stale socket and bind again), serves, and on a clean shutdown
removes the socket name, then the lock name, and then drops the flock.  A step
touches the shared names or the kernel's lock table once, so a schedule is any
interleaving of the processes' system calls.

An inode stands for the file itself, not for its number: a name that is created
again gets an inode that no process has open.

Main results:

- Theorem {lit}`invariant_step`: a step keeps every process that is on its way
  to serving on the inode that the lock path names, as long as the lock name is
  not removed under a process that has opened it and not yet tried its flock.
- Theorem {lit}`one_daemon`: in every run under that condition at most one
  process serves, and the socket path names its own listener.
-/

namespace JftermMuxer.Daemon

open JftermMuxer.Foundation

/-- The identity of a lockfile. -/
abbrev Inode := Nat

/-- What the socket path names: what `lstat` says about it, and the process whose
listener was bound to it. -/
structure SockNode (Pid : Type) where
  isSocket : Bool
  ownUid : Bool
  listener : Option Pid
deriving DecidableEq, Repr

/-- Where a process is in `main`, with the inode of the lockfile it has open. -/
inductive Phase where
  /-- At the head of `acquire_flock`'s loop, about to open the lock path. -/
  | starting
  /-- `try_flock` has opened the lockfile and has not tried its lock. -/
  | opened (i : Inode)
  /-- The flock answered `EAGAIN`; the deadline is checked next. -/
  | contended
  /-- The flock is held, the socket is to be bound. -/
  | locked (i : Inode)
  /-- `bind` answered `AddrInUse`. -/
  | inUse (i : Inode)
  /-- `lstat` found a socket of this user. -/
  | stale (i : Inode)
  /-- The stale name is gone, the socket is to be bound again. -/
  | unlinked (i : Inode)
  /-- The listener is bound, `set_cloexec` is next. -/
  | bound (i : Inode)
  /-- `acquire_daemon` has returned `Bound`. -/
  | serving (i : Inode)
  /-- The shutdown has removed the socket name. -/
  | socketRemoved (i : Inode)
  /-- The shutdown has removed the lock name, the flock is about to drop. -/
  | lockRemoved (i : Inode)
  /-- `main` gave up after its `chmod` failed; the socket name is removed. -/
  | abandoned (i : Inode)
  | exited
deriving DecidableEq, Repr

namespace Phase

/-- The inode whose flock the process holds. -/
def held : Phase → Option Inode
  | starting | opened _ | contended | exited => none
  | locked i | inUse i | stale i | unlinked i | bound i | serving i | socketRemoved i
  | lockRemoved i | abandoned i => some i

/-- The inode a process relies on while it is on its way to the end of its
service: the one it has opened, or locked, and not yet given up. -/
def relied : Phase → Option Inode
  | starting | contended | lockRemoved _ | abandoned _ | exited => none
  | opened i | locked i | inUse i | stale i | unlinked i | bound i | serving i
  | socketRemoved i => some i

/-- The process's listener is bound and its socket name is not yet removed. -/
def listening : Phase → Bool
  | bound _ | serving _ => true
  | _ => false

end Phase

/-- The shared names, the kernel's lock table and where every process is. -/
structure System (Pid : Type) where
  lockName : Option Inode
  nextInode : Inode
  locks : Inode → Option Pid
  sockName : Option (SockNode Pid)
  phase : Pid → Phase

/-- One system call of a process, or the answer it gets. -/
inductive Action where
  | openLock
  | flock
  | retry
  | giveUp
  | bind
  | lstat
  | unlink
  | setCloexec
  | chmodFails
  | removeSocket
  | removeLock
  | release
  /-- An error return, a panic or a crash: the descriptors are closed and the
  names stay. -/
  | fail
deriving DecidableEq, Repr

namespace System

variable {Pid : Type} [DecidableEq Pid]

/-- Before any process has started: a lockfile and a node at the socket path may
be left over from earlier daemons. -/
def boot (leftoverLock : Bool) (leftover : Option (SockNode Pid)) : System Pid where
  lockName := if leftoverLock then some 0 else none
  nextInode := 1
  locks := fun _ => none
  sockName := leftover
  phase := fun _ => .starting

/-- The process moves on to another phase. -/
def goto (s : System Pid) (p : Pid) (ph : Phase) : System Pid :=
  { s with phase := Function.update s.phase p ph }

/-- The process ends and the kernel drops the flock it holds. -/
def exit (s : System Pid) (p : Pid) : System Pid :=
  { s with
    phase := Function.update s.phase p .exited
    locks := match (s.phase p).held with
      | some i => Function.update s.locks i none
      | none => s.locks }

/-- `try_flock`, the open: it creates the lockfile if the name is absent. -/
def openLock (s : System Pid) (p : Pid) : System Pid :=
  match s.lockName with
  | some i => s.goto p (.opened i)
  | none =>
      { s with
        lockName := some s.nextInode
        nextInode := s.nextInode + 1
        phase := Function.update s.phase p (.opened s.nextInode) }

/-- `try_flock`, the lock: it succeeds iff nobody holds a lock on the inode. -/
def flock (s : System Pid) (p : Pid) (i : Inode) : System Pid :=
  match s.locks i with
  | none =>
      { s with
        locks := Function.update s.locks i (some p)
        phase := Function.update s.phase p (.locked i) }
  | some _ => s.goto p .contended

/-- `UnixListener::bind`: it creates the socket name or answers `AddrInUse`. -/
def bind (s : System Pid) (p : Pid) (i : Inode) (addrInUse : System Pid) : System Pid :=
  match s.sockName with
  | none =>
      { s with
        sockName := some { isSocket := true, ownUid := true, listener := some p }
        phase := Function.update s.phase p (.bound i) }
  | some _ => addrInUse

/-- `unlink_stale_socket`, the check: only a socket of this user may go. -/
def lstat (s : System Pid) (p : Pid) (i : Inode) : System Pid :=
  match s.sockName with
  | none => s.exit p
  | some node => if node.isSocket && node.ownUid then s.goto p (.stale i) else s.exit p

/-- `unlink_stale_socket`, the removal: an error when the name has gone. -/
def unlink (s : System Pid) (p : Pid) (i : Inode) : System Pid :=
  match s.sockName with
  | none => s.exit p
  | some _ => { s with sockName := none, phase := Function.update s.phase p (.unlinked i) }

/-- `main` removes the socket name, whatever it names, and ignores the result. -/
def removeSocket (s : System Pid) (p : Pid) (next : Phase) : System Pid :=
  { s with sockName := none, phase := Function.update s.phase p next }

/-- `main` removes the lock name, whatever it names, and ignores the result. -/
def removeLock (s : System Pid) (p : Pid) (i : Inode) : System Pid :=
  { s with lockName := none, phase := Function.update s.phase p (.lockRemoved i) }

/-- One step of one process. -/
def step (s : System Pid) (p : Pid) (a : Action) : Option (System Pid) :=
  match a, s.phase p with
  | .openLock, .starting => some (s.openLock p)
  | .flock, .opened i => some (s.flock p i)
  | .retry, .contended => some (s.goto p .starting)
  | .giveUp, .contended => some (s.exit p)
  | .bind, .locked i => some (s.bind p i (s.goto p (.inUse i)))
  | .lstat, .inUse i => some (s.lstat p i)
  | .unlink, .stale i => some (s.unlink p i)
  | .bind, .unlinked i => some (s.bind p i (s.exit p))
  | .setCloexec, .bound i => some (s.goto p (.serving i))
  | .chmodFails, .serving i => some (s.removeSocket p (.abandoned i))
  | .removeSocket, .serving i => some (s.removeSocket p (.socketRemoved i))
  | .removeLock, .socketRemoved i => some (s.removeLock p i)
  | .release, .lockRemoved _ => some (s.exit p)
  | .release, .abandoned _ => some (s.exit p)
  | .fail, _ => some (s.exit p)
  | _, _ => none

/-- The processes as one machine. -/
def machine : Machine (System Pid) (Pid × Action) where
  step s label := s.step label.1 label.2

/-- The process is in the serving phase: `acquire_daemon` has returned `Bound`
and the shutdown has removed nothing yet. -/
def Serving (s : System Pid) (p : Pid) : Prop := ∃ i, s.phase p = .serving i

/-- The process whose listener the socket path names. -/
def listenerAt (s : System Pid) : Option Pid := s.sockName.bind SockNode.listener

/-- One daemon at a time: at most one process serves, and the socket path names
the listener of a process that does. -/
def OneDaemon (s : System Pid) : Prop :=
  (∀ p q, s.Serving p → s.Serving q → p = q) ∧ ∀ p, s.Serving p → s.listenerAt = some p

/-- The lock name is not removed under another process that has opened the file
it names and has not tried its flock yet. -/
def LockUnopened (s : System Pid) (label : Pid × Action) : Prop :=
  label.2 = .removeLock →
    ∀ q, q ≠ label.1 → ∀ i ∈ s.lockName, s.phase q ≠ .opened i

/-! ## The invariant -/

/-- What holds in every state of a run that never removes the lock name under an
opener. -/
structure Invariant (s : System Pid) : Prop where
  /-- The lock table and the phases agree. -/
  locks_iff : ∀ i p, s.locks i = some p ↔ (s.phase p).held = some i
  /-- A process relies only on the file that the lock path names. -/
  current : ∀ p i, (s.phase p).relied = some i → s.lockName = some i
  /-- The socket path names the listener of a process that listens. -/
  named : ∀ p, (s.phase p).listening = true → s.listenerAt = some p

private theorem held_of_listening {ph : Phase} (h : ph.listening = true) :
    ∃ i, ph.held = some i ∧ ph.relied = some i := by
  cases ph with
  | bound i => exact ⟨i, rfl, rfl⟩
  | serving i => exact ⟨i, rfl, rfl⟩
  | starting | opened i | contended | locked i | inUse i | stale i | unlinked i
  | socketRemoved i | lockRemoved i | abandoned i | exited => cases h

private theorem held_of_relied {ph : Phase} {i : Inode} (h : ph.relied = some i) :
    ph = .opened i ∨ ph.held = some i := by
  cases ph with
  | opened j =>
      left
      rw [Option.some.inj h]
  | starting | contended | lockRemoved j | abandoned j | exited => cases h
  | locked j | inUse j | stale j | unlinked j | bound j | serving j | socketRemoved j =>
      right
      exact h

namespace Invariant

variable {s : System Pid}

omit [DecidableEq Pid] in
/-- Two processes that hold the flock of one inode are the same. -/
theorem holder_unique (hinv : s.Invariant) {p q : Pid} {i : Inode}
    (hp : (s.phase p).held = some i) (hq : (s.phase q).held = some i) : p = q := by
  have hpi := (hinv.locks_iff i p).mpr hp
  have hqi := (hinv.locks_iff i q).mpr hq
  rw [hpi] at hqi
  exact Option.some.inj hqi

omit [DecidableEq Pid] in
/-- While a process holds the flock of the file it relies on, nobody else
listens. -/
theorem not_listening (hinv : s.Invariant) {p q : Pid} {i : Inode}
    (hheld : (s.phase p).held = some i) (hrelied : (s.phase p).relied = some i) (hne : q ≠ p) :
    (s.phase q).listening ≠ true := by
  intro hq
  obtain ⟨j, hqheld, hqrelied⟩ := held_of_listening hq
  have hij : s.lockName = some i := hinv.current p i hrelied
  rw [hinv.current q j hqrelied] at hij
  cases hij
  exact hne (hinv.holder_unique hqheld hheld)

/-- A process that keeps its flock moves on, and may change the socket name if
nobody else listens. -/
theorem move (hinv : s.Invariant) {p : Pid} {ph : Phase} {sock : Option (SockNode Pid)}
    (hheld : ph.held = (s.phase p).held)
    (hrelied : ∀ i, ph.relied = some i → s.lockName = some i)
    (hself : ph.listening = true → sock.bind SockNode.listener = some p)
    (hothers : sock = s.sockName ∨ ∀ q, q ≠ p → (s.phase q).listening ≠ true) :
    Invariant { s with sockName := sock, phase := Function.update s.phase p ph } := by
  constructor
  · intro i q
    by_cases hq : q = p
    · subst hq
      simp only [Function.update_self, hheld]
      exact hinv.locks_iff i q
    · simp only [Function.update_of_ne hq]
      exact hinv.locks_iff i q
  · intro q i
    by_cases hq : q = p
    · subst hq
      simp only [Function.update_self]
      exact hrelied i
    · simp only [Function.update_of_ne hq]
      exact hinv.current q i
  · intro q
    by_cases hq : q = p
    · subst hq
      simp only [Function.update_self]
      exact hself
    · simp only [Function.update_of_ne hq]
      intro hlisten
      rcases hothers with hsock | hnone
      · subst hsock
        exact hinv.named q hlisten
      · exact absurd hlisten (hnone q hq)

/-- A move of one process that holds what it held. -/
theorem goto (hinv : s.Invariant) {p : Pid} {ph : Phase}
    (hheld : ph.held = (s.phase p).held)
    (hrelied : ∀ i, ph.relied = some i → s.lockName = some i)
    (hself : ph.listening = true → s.listenerAt = some p) : Invariant (s.goto p ph) :=
  hinv.move hheld hrelied hself (Or.inl rfl)

/-- An exit drops the flocks of the process and no other. -/
theorem locks_exit (hinv : s.Invariant) (p q : Pid) (i : Inode) :
    (s.exit p).locks i = some q ↔ s.locks i = some q ∧ q ≠ p := by
  unfold System.exit
  cases hheld : (s.phase p).held with
  | none =>
      refine ⟨fun h => ⟨h, ?_⟩, fun h => h.1⟩
      rintro rfl
      rw [(hinv.locks_iff i q).mp h] at hheld
      cases hheld
  | some j =>
      by_cases hij : i = j
      · subst hij
        have hp := (hinv.locks_iff i p).mpr hheld
        simp only [Function.update_self, reduceCtorEq, hp, Option.some.injEq, false_iff, not_and]
        exact fun h hne => hne h.symm
      · simp only [Function.update_of_ne hij]
        refine ⟨fun h => ⟨h, ?_⟩, fun h => h.1⟩
        rintro rfl
        rw [(hinv.locks_iff i q).mp h] at hheld
        exact hij (Option.some.inj hheld)

/-- An exit lets go of everything. -/
theorem exit (hinv : s.Invariant) (p : Pid) : Invariant (s.exit p) := by
  constructor
  · intro i q
    rw [hinv.locks_exit]
    by_cases hq : q = p
    · subst hq
      simp [System.exit, Phase.held]
    · rw [show (s.exit p).phase q = s.phase q from Function.update_of_ne hq ..,
        hinv.locks_iff]
      exact and_iff_left hq
  · intro q i
    by_cases hq : q = p
    · subst hq
      simp [System.exit, Phase.relied]
    · rw [show (s.exit p).phase q = s.phase q from Function.update_of_ne hq ..]
      exact hinv.current q i
  · intro q
    by_cases hq : q = p
    · subst hq
      simp [System.exit, Phase.listening]
    · rw [show (s.exit p).phase q = s.phase q from Function.update_of_ne hq ..]
      exact hinv.named q

/-- Opening the lock file locks nothing. -/
theorem openLock (hinv : s.Invariant) {p : Pid} (hp : s.phase p = .starting) :
    Invariant (s.openLock p) := by
  rw [System.openLock]
  cases hname : s.lockName with
  | some i =>
      refine hinv.goto (by rw [hp]; rfl) ?_ (by simp [Phase.listening])
      intro j hj
      cases hj
      exact hname
  | none =>
      -- No process relies on a file while the lock path names none.
      have hnone : ∀ q j, (s.phase q).relied ≠ some j := by
        intro q j hq
        have := hinv.current q j hq
        rw [hname] at this
        cases this
      constructor
      · intro i q
        by_cases hq : q = p
        · subst hq
          rw [hinv.locks_iff, hp]
          simp [Phase.held]
        · simp only [Function.update_of_ne hq]
          exact hinv.locks_iff i q
      · intro q i
        by_cases hq : q = p
        · subst hq
          simp [Phase.relied]
        · simp only [Function.update_of_ne hq]
          exact fun h => absurd h (hnone q i)
      · intro q
        by_cases hq : q = p
        · subst hq
          simp [Phase.listening]
        · simp only [Function.update_of_ne hq]
          exact hinv.named q

/-- A lock is taken only where nobody holds it. -/
theorem flock (hinv : s.Invariant) {p : Pid} {i : Inode} (hp : s.phase p = .opened i) :
    Invariant (s.flock p i) := by
  rw [System.flock]
  cases hlock : s.locks i with
  | some q =>
      exact hinv.goto (by rw [hp]; rfl) (by simp [Phase.relied]) (by simp [Phase.listening])
  | none =>
      have hfree : ∀ q, (s.phase q).held ≠ some i := by
        intro q hq
        rw [(hinv.locks_iff i q).mpr hq] at hlock
        cases hlock
      have hname : s.lockName = some i := hinv.current p i (by rw [hp]; rfl)
      constructor
      · intro j q
        by_cases hq : q = p
        · subst hq
          by_cases hj : j = i
          · subst hj
            simp [Phase.held]
          · simp only [Function.update_of_ne hj, Function.update_self]
            rw [hinv.locks_iff, hp]
            simp only [Phase.held, reduceCtorEq, Option.some.injEq, false_iff]
            exact fun h => hj h.symm
        · by_cases hj : j = i
          · subst hj
            simp only [Function.update_self, Function.update_of_ne hq, Option.some.injEq]
            exact ⟨fun h => absurd h.symm hq, fun h => absurd h (hfree q)⟩
          · simp only [Function.update_of_ne hj, Function.update_of_ne hq]
            exact hinv.locks_iff j q
      · intro q j
        by_cases hq : q = p
        · subst hq
          simp only [Function.update_self, Phase.relied, Option.some.injEq]
          rintro rfl
          exact hname
        · simp only [Function.update_of_ne hq]
          exact hinv.current q j
      · intro q
        by_cases hq : q = p
        · subst hq
          simp [Phase.listening]
        · simp only [Function.update_of_ne hq]
          exact hinv.named q

/-- Binding needs the flock of the file the process relies on: the new name then
takes nobody else's place. -/
theorem bind (hinv : s.Invariant) {p : Pid} {i : Inode} {addrInUse : System Pid}
    (hheld : (s.phase p).held = some i) (hrelied : (s.phase p).relied = some i)
    (hinUse : Invariant addrInUse) : Invariant (s.bind p i addrInUse) := by
  rw [System.bind]
  cases s.sockName with
  | some node => exact hinUse
  | none =>
      refine hinv.move hheld.symm ?_ (fun _ => rfl) (Or.inr ?_)
      · intro j hj
        cases hj
        exact hinv.current p i hrelied
      · intro q hq
        exact hinv.not_listening hheld hrelied hq

/-- Looking at the socket changes nothing. -/
theorem lstat (hinv : s.Invariant) {p : Pid} {i : Inode} (hp : s.phase p = .inUse i) :
    Invariant (s.lstat p i) := by
  rw [System.lstat]
  cases s.sockName with
  | none => exact hinv.exit p
  | some node =>
      simp only
      split
      · refine hinv.goto (by rw [hp]; rfl) ?_ (by simp [Phase.listening])
        intro j hj
        cases hj
        exact hinv.current p i (by rw [hp]; rfl)
      · exact hinv.exit p

/-- Removing the socket name needs the flock of the file the process relies on:
nobody else's listener loses its name. -/
theorem removeSocket (hinv : s.Invariant) {p : Pid} {i : Inode} {next : Phase}
    (hheld : (s.phase p).held = some i) (hrelied : (s.phase p).relied = some i)
    (hnext : next.held = some i) (hkeeps : ∀ j, next.relied = some j → j = i)
    (hquiet : next.listening = false) : Invariant (s.removeSocket p next) := by
  refine hinv.move (hnext.trans hheld.symm) ?_ ?_ (Or.inr ?_)
  · intro j hj
    rw [hkeeps j hj]
    exact hinv.current p i hrelied
  · intro h
    rw [hquiet] at h
    cases h
  · intro q hq
    exact hinv.not_listening hheld hrelied hq

/-- A stale socket is removed by whoever holds the lock. -/
theorem unlink (hinv : s.Invariant) {p : Pid} {i : Inode} (hp : s.phase p = .stale i) :
    Invariant (s.unlink p i) := by
  rw [System.unlink]
  cases s.sockName with
  | none => exact hinv.exit p
  | some node =>
      refine hinv.removeSocket (i := i) (by rw [hp]; rfl) (by rw [hp]; rfl) rfl ?_ rfl
      intro j hj
      exact (Option.some.inj hj).symm

/-- The lock name may go once nobody else has the file open without its lock: the
holder is then the only process that relies on it. -/
theorem removeLock (hinv : s.Invariant) {p : Pid} {i : Inode}
    (hp : s.phase p = .socketRemoved i)
    (hfree : ∀ q, q ≠ p → ∀ j ∈ s.lockName, s.phase q ≠ .opened j) :
    Invariant (s.removeLock p i) := by
  have hheld : (s.phase p).held = some i := by rw [hp]; rfl
  have hrelied : (s.phase p).relied = some i := by rw [hp]; rfl
  have hnone : ∀ q, q ≠ p → ∀ j, (s.phase q).relied ≠ some j := by
    intro q hq j hj
    have hname := hinv.current q j hj
    rcases held_of_relied hj with hopened | hlocked
    · exact hfree q hq j hname hopened
    · rw [hinv.current p i hrelied] at hname
      cases hname
      exact hq (hinv.holder_unique hlocked hheld)
  constructor
  · intro j q
    by_cases hq : q = p
    · subst hq
      rw [show (s.removeLock q i).phase q = .lockRemoved i from Function.update_self ..]
      exact (hinv.locks_iff j q).trans (by rw [hheld]; rfl)
    · rw [show (s.removeLock p i).phase q = s.phase q from Function.update_of_ne hq ..]
      exact hinv.locks_iff j q
  · intro q j
    by_cases hq : q = p
    · subst hq
      simp [System.removeLock, Phase.relied]
    · rw [show (s.removeLock p i).phase q = s.phase q from Function.update_of_ne hq ..]
      exact fun h => absurd h (hnone q hq j)
  · intro q
    by_cases hq : q = p
    · subst hq
      simp [System.removeLock, Phase.listening]
    · rw [show (s.removeLock p i).phase q = s.phase q from Function.update_of_ne hq ..]
      exact hinv.named q

/-- The invariant gives one daemon at a time. -/
theorem oneDaemon (hinv : s.Invariant) : s.OneDaemon := by
  constructor
  · rintro p q ⟨i, hp⟩ ⟨j, hq⟩
    by_contra hne
    have hlisten := hinv.not_listening (p := p) (q := q) (i := i) (by rw [hp]; rfl)
      (by rw [hp]; rfl) (Ne.symm hne)
    rw [hq] at hlisten
    exact hlisten rfl
  · rintro p ⟨i, hp⟩
    exact hinv.named p (by rw [hp]; rfl)

end Invariant

/-! ## Runs -/

omit [DecidableEq Pid] in
/-- Before any process has started nobody holds, relies on or listens at
anything. -/
theorem invariant_boot (leftoverLock : Bool) (leftover : Option (SockNode Pid)) :
    (boot leftoverLock leftover).Invariant := by
  constructor
  · intro i p
    simp [boot, Phase.held]
  · intro p i
    simp [boot, Phase.relied]
  · intro p
    simp [boot, Phase.listening]

/-- A step that does not remove the lock name under an opener keeps the
invariant. -/
theorem invariant_step {s t : System Pid} {p : Pid} {a : Action} (hinv : s.Invariant)
    (hok : s.LockUnopened (p, a)) (hstep : s.step p a = some t) : t.Invariant := by
  unfold step at hstep
  split at hstep
  all_goals cases hstep
  case h_1 hphase => exact hinv.openLock hphase
  case h_2 i hphase => exact hinv.flock hphase
  case h_3 hphase =>
      exact hinv.goto (by rw [hphase]; rfl) (by simp [Phase.relied]) (by simp [Phase.listening])
  case h_4 => exact hinv.exit p
  case h_5 i hphase =>
      have hrelied : (s.phase p).relied = some i := by rw [hphase]; rfl
      refine hinv.bind (by rw [hphase]; rfl) hrelied ?_
      refine hinv.goto (by rw [hphase]; rfl) ?_ (by simp [Phase.listening])
      intro j hj
      cases hj
      exact hinv.current p i hrelied
  case h_6 i hphase => exact hinv.lstat hphase
  case h_7 i hphase => exact hinv.unlink hphase
  case h_8 i hphase =>
      exact hinv.bind (by rw [hphase]; rfl) (by rw [hphase]; rfl) (hinv.exit p)
  case h_9 i hphase =>
      refine hinv.goto (by rw [hphase]; rfl) ?_ ?_
      · intro j hj
        cases hj
        exact hinv.current p i (by rw [hphase]; rfl)
      · intro _
        exact hinv.named p (by rw [hphase]; rfl)
  case h_10 i hphase =>
      exact hinv.removeSocket (by rw [hphase]; rfl) (by rw [hphase]; rfl) rfl
        (by simp [Phase.relied]) rfl
  case h_11 i hphase =>
      exact hinv.removeSocket (by rw [hphase]; rfl) (by rw [hphase]; rfl) rfl
        (by simp [Phase.relied]) rfl
  case h_12 i hphase => exact hinv.removeLock hphase (hok rfl)
  case h_13 => exact hinv.exit p
  case h_14 => exact hinv.exit p
  case h_15 => exact hinv.exit p

/-- For any processes in any interleaving: as long as the lock name is never
removed while another process has opened the file it names and not yet tried its
flock, at most one process serves in any state reached, and the socket path names
its own listener. -/
theorem one_daemon (leftoverLock : Bool) (leftover : Option (SockNode Pid))
    (schedule : List (Pid × Action)) (s : System Pid)
    (hok : machine.Along LockUnopened (boot leftoverLock leftover) schedule)
    (hrun : machine.run (boot leftoverLock leftover) schedule = some s) : s.OneDaemon :=
  (machine.along_induct (motive := Invariant)
    (fun _ _ _ hinv hok hstep => invariant_step hinv hok hstep)
    (invariant_boot leftoverLock leftover) hok hrun).oneDaemon

/-- One daemon serves and shuts down; the next opens the lockfile while the first
still holds it, waits, and takes over after a stale socket. -/
def handover : List (Fin 2 × Action) :=
  [(0, .openLock), (0, .flock), (0, .bind), (0, .lstat), (0, .unlink), (0, .bind),
    (0, .setCloexec), (1, .openLock), (1, .flock), (0, .removeSocket), (0, .removeLock),
    (1, .retry), (1, .openLock), (0, .release), (1, .flock), (1, .bind), (1, .setCloexec)]

instance (s : System (Fin 2)) (label : Fin 2 × Action) : Decidable (s.LockUnopened label) :=
  inferInstanceAs (Decidable (_ → ∀ q, q ≠ label.1 → ∀ i ∈ s.lockName, s.phase q ≠ .opened i))

/-- A leftover of an earlier daemon at both paths. -/
def leftovers : System (Fin 2) :=
  boot true (some { isSocket := true, ownUid := true, listener := none })

/-- The second daemon serves, and it is the only one. -/
theorem one_daemon_handover :
    (machine.run leftovers handover).isSome = true ∧
      ∀ s ∈ machine.run leftovers handover, s.Serving 1 ∧ s.OneDaemon := by
  refine ⟨by decide, ?_⟩
  intro s hs
  have hserving : ∀ s ∈ machine.run leftovers handover, s.phase 1 = .serving 1 := by decide
  exact ⟨⟨1, hserving s hs⟩, one_daemon _ _ handover s (by decide) hs⟩

/-- A process opens the lockfile before a departing daemon unlinks it and takes
its flock after the daemon has dropped it; a third process then creates the lock
path anew. -/
def unlinkedUnderOpener : List (Fin 3 × Action) :=
  [(0, .openLock), (0, .flock), (0, .bind), (0, .setCloexec), (1, .openLock),
    (0, .removeSocket), (0, .removeLock), (0, .release),
    (1, .flock), (1, .bind), (1, .setCloexec),
    (2, .openLock), (2, .flock), (2, .bind), (2, .lstat), (2, .unlink), (2, .bind),
    (2, .setCloexec)]

/-- Two processes serve at once, and the socket path no longer names the first
one's listener. -/
theorem two_daemons :
    ∃ s, machine.run (boot false none) unlinkedUnderOpener = some s ∧
      s.Serving 1 ∧ s.Serving 2 ∧ s.listenerAt = some 2 ∧ ¬ s.OneDaemon := by
  have hrun : (machine.run (boot false none) unlinkedUnderOpener).isSome = true := by decide
  have hend : ∀ s ∈ machine.run (boot false none) unlinkedUnderOpener,
      s.phase 1 = .serving 1 ∧ s.phase 2 = .serving 2 ∧ s.listenerAt = some 2 := by decide
  obtain ⟨s, hs⟩ := Option.isSome_iff_exists.mp hrun
  obtain ⟨hfirst, hsecond, hnames⟩ := hend s hs
  refine ⟨s, hs, ⟨1, hfirst⟩, ⟨2, hsecond⟩, hnames, ?_⟩
  intro hone
  have := hone.1 1 2 ⟨1, hfirst⟩ ⟨2, hsecond⟩
  exact absurd this (by decide)

end System

end JftermMuxer.Daemon
