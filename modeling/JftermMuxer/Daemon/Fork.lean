import JftermMuxer.Daemon.Launch
import JftermMuxer.Daemon.Session
import JftermMuxer.Foundation.Descriptors

/-!
# The double fork

{lit}`daemonize` of {lit}`jftermd/src/daemonize.rs`: the process sets its umask and forks,
the child becomes the leader of a new session and forks again, and the grandchild goes to
the root directory and puts {lit}`/dev/null` under the standard descriptors.  Parents exit
while their children run, so the three move in any order, system call by system call.  A
{lit}`fork` answers a number that no process, group or session has.

Main results:

- Theorem {lit}`redirectStd_get`: which descriptors a redirection changes, whatever the table
  is and whichever call fails.
- Theorem {lit}`Forks.family_step`: every step leaves the processes one of three families.
- Theorem {lit}`Forks.one_survivor`: in every run at most one process comes back from
  {lit}`daemonize`, and what a process is that comes back with success.
-/

namespace JftermMuxer.Daemon

open JftermMuxer.Foundation

/-! ## The standard descriptors -/

/-- An open file of the process: {lit}`/dev/null`, or one it was started with. -/
inductive StdFile (φ : Type) where
  | devNull
  | inherited (file : φ)
deriving DecidableEq, Repr

section Redirect

variable {φ : Type}

/-- The loop of {lit}`redirect_std_to_devnull`; {lit}`dup2` may fail for each target. -/
def dupLoop (source : Nat) (dupErrors : Nat → Option Errno) :
    List Nat → Descriptors φ → Option Errno × Descriptors φ
  | [], t => (none, t)
  | target :: targets, t =>
      if source = target then dupLoop source dupErrors targets t
      else
        match dupErrors target with
        | some e => (some e, t)
        | none =>
            match t.dup2 source target with
            | some t => dupLoop source dupErrors targets t
            | none => (some (.other 9), t)

/-- {lit}`redirect_std_to_devnull`, with the answers of its {lit}`open` and of its calls of
{lit}`dup2`. -/
def redirectStd (t : Descriptors (StdFile φ)) (openError : Option Errno)
    (dupErrors : Nat → Option Errno) : Option Errno × Descriptors (StdFile φ) :=
  match openError with
  | some e => (some e, t)
  | none =>
      let looped := dupLoop t.lowest dupErrors [0, 1, 2] (t.opened .devNull true)
      (looped.1, if 2 < t.lowest then looped.2.close t.lowest else looped.2)

/-- The loop puts an open source under some of the targets, in order, and under all of them
if it succeeds. -/
theorem dupLoop_eq {source : Nat} (dupErrors : Nat → Option Errno) (targets : List Nat)
    {t : Descriptors φ} {d : Descriptor φ} (hopen : t.get source = some d) :
    ∃ done rest, targets = done ++ rest ∧
      t.dupOnto source done = some (dupLoop source dupErrors targets t).2 ∧
      ((dupLoop source dupErrors targets t).1 = none → rest = []) := by
  induction targets generalizing t with
  | nil => exact ⟨[], [], rfl, rfl, fun _ => rfl⟩
  | cons target targets ih =>
      unfold dupLoop
      by_cases hsame : source = target
      · rw [if_pos hsame]
        obtain ⟨done, rest, rfl, hdone, hall⟩ := ih hopen
        refine ⟨target :: done, rest, rfl, ?_, hall⟩
        have hskip : t.dup2 source target = some t := by
          rw [Descriptors.dup2, hopen, Option.map_some, if_pos hsame]
        rw [Descriptors.dupOnto, List.foldlM_cons, hskip]
        exact hdone
      · rw [if_neg hsame]
        cases dupErrors target with
        | some e => exact ⟨[], target :: targets, rfl, rfl, fun h => by cases h⟩
        | none =>
            have hdup : t.dup2 source target =
                some (t.set target (some { d with closeOnExec := false })) := by
              rw [Descriptors.dup2, hopen, Option.map_some, if_neg hsame]
            have hstill : (t.set target (some { d with closeOnExec := false })).get source =
                some d := by
              rw [Descriptors.get_set, if_neg hsame, hopen]
            obtain ⟨done, rest, rfl, hdone, hall⟩ := ih hstill
            simp only [hdup]
            refine ⟨target :: done, rest, rfl, ?_, hall⟩
            rw [Descriptors.dupOnto, List.foldlM_cons, hdup]
            exact hdone

/-- Whatever descriptors are open and whichever call fails: those above the standard ones are
as before, each standard one is as before or stands for {lit}`/dev/null`, and with success
they all do; a standard descriptor that was closed before may be the one opened, and closes
on exec. -/
theorem redirectStd_get (t : Descriptors (StdFile φ)) (openError : Option Errno)
    (dupErrors : Nat → Option Errno) :
    (∀ fd, 2 < fd → (redirectStd t openError dupErrors).2.get fd = t.get fd) ∧
      (∀ fd, fd ≤ 2 → (redirectStd t openError dupErrors).2.get fd = t.get fd ∨
        ∃ b, (redirectStd t openError dupErrors).2.get fd = some ⟨.devNull, b⟩) ∧
      ((redirectStd t openError dupErrors).1 = none → ∀ fd, fd ≤ 2 →
        (redirectStd t openError dupErrors).2.get fd = some ⟨.devNull, fd == t.lowest⟩) := by
  cases openError with
  | some e => exact ⟨fun _ _ => rfl, fun _ _ => Or.inl rfl, fun h => by cases h⟩
  | none =>
      have hopen : (t.opened .devNull true).get t.lowest = some ⟨.devNull, true⟩ := by
        rw [Descriptors.get_opened, if_pos rfl]
      obtain ⟨done, rest, htargets, hdone, hall⟩ := dupLoop_eq dupErrors [0, 1, 2] hopen
      obtain ⟨u, hu, hget⟩ := Descriptors.dupOnto_of_open hopen done
      obtain rfl := Option.some.inj (hdone.symm.trans hu)
      have hlow : ∀ fd ∈ done, fd ≤ 2 := by
        intro fd hfd
        have hmem : fd ∈ [0, 1, 2] := htargets ▸ List.mem_append_left rest hfd
        simp only [List.mem_cons, List.not_mem_nil, or_false] at hmem
        omega
      have hresult : ∀ fd, (redirectStd t none dupErrors).2.get fd =
          if fd = t.lowest then (if 2 < t.lowest then none else some ⟨.devNull, true⟩)
          else if fd ∈ done then some ⟨.devNull, false⟩ else t.get fd := by
        intro fd
        unfold redirectStd
        simp only
        by_cases hfd : fd = t.lowest
        · rw [if_pos hfd]
          split
          · rw [Descriptors.get_close, if_pos hfd]
          · rw [hget, if_neg (fun h => h.2 hfd), hfd, hopen]
        · rw [if_neg hfd]
          have hchanged : (dupLoop t.lowest dupErrors [0, 1, 2] (t.opened .devNull true)).2.get fd =
              if fd ∈ done then some ⟨.devNull, false⟩ else t.get fd := by
            rw [hget, Descriptors.get_opened, if_neg hfd]
            exact if_congr (and_iff_left hfd) rfl rfl
          split
          · rw [Descriptors.get_close, if_neg hfd, hchanged]
          · exact hchanged
      refine ⟨?_, ?_, ?_⟩
      · intro fd hfd
        rw [hresult]
        by_cases hsource : fd = t.lowest
        · rw [if_pos hsource, if_pos (hsource ▸ hfd), hsource, t.get_lowest]
        · rw [if_neg hsource, if_neg fun h => absurd (hlow fd h) (by omega)]
      · intro fd hfd
        rw [hresult]
        by_cases hsource : fd = t.lowest
        · rw [if_pos hsource, if_neg (by omega)]
          exact Or.inr ⟨true, rfl⟩
        · rw [if_neg hsource]
          split
          · exact Or.inr ⟨false, rfl⟩
          · exact Or.inl rfl
      · intro hok fd hfd
        obtain rfl := hall hok
        rw [List.append_nil] at htargets
        subst htargets
        rw [hresult]
        by_cases hsource : fd = t.lowest
        · rw [if_pos hsource, if_neg (by omega), beq_iff_eq.mpr hsource]
        · rw [if_neg hsource, if_pos (by simp; omega), beq_eq_false_iff_ne.mpr hsource]

end Redirect

/-! ## The processes -/

/-- Where a process is in {lit}`daemonize`. -/
inductive ForkStage where
  | entering
  /-- About to fork for the first time. -/
  | forking
  /-- About to call {lit}`setsid`. -/
  | leading
  /-- About to fork for the second time. -/
  | reforking
  /-- About to go to the root directory. -/
  | moving
  | redirecting
  /-- {lit}`daemonize` has returned, with success or with an error. -/
  | returned (error : Option Errno)
  /-- A parent, about to exit. -/
  | parent
  /-- It has exited with status 0. -/
  | exited
deriving DecidableEq, Repr

structure Proc (φ : Type) where
  pid : Nat
  group : Nat
  session : Nat
  /-- The session has a controlling terminal. -/
  terminal : Bool
  umask : UInt32
  cwd : Path
  table : Descriptors (StdFile φ)
  stage : ForkStage
deriving DecidableEq, Repr

/-- A call of a process, with the kernel's answer. -/
inductive ForkMove where
  | umask
  | fork (child : Nat)
  | forkFails (e : Errno)
  | exit
  | setsid
  | chdir (error : Option Errno)
  | redirect (openError : Option Errno) (dupErrors : Nat → Option Errno)

namespace Proc

variable {φ : Type}

/-- {lit}`setsid`, which the leader of a group may not call. -/
def setsid (q : Proc φ) : Proc φ :=
  if q.group = q.pid then { q with stage := .returned (some (.other 1)) }
  else { q with session := q.pid, group := q.pid, terminal := false, stage := .reforking }

/-- A fork: the parent goes on to exit, the child to its next call. -/
def fork (q : Proc φ) (child : Nat) (next : ForkStage) : Proc φ × Option (Proc φ) :=
  ({ q with stage := .parent }, some { q with pid := child, stage := next })

/-- What a call does to its process, and the child it leaves. -/
def move (q : Proc φ) : ForkMove → Option (Proc φ × Option (Proc φ))
  | .umask =>
      if q.stage = .entering then some ({ q with umask := 0o077, stage := .forking }, none)
      else none
  | .fork child =>
      if q.stage = .forking then some (q.fork child .leading)
      else if q.stage = .reforking then some (q.fork child .moving)
      else none
  | .forkFails e =>
      if q.stage = .forking ∨ q.stage = .reforking then
        some ({ q with stage := .returned (some e) }, none)
      else none
  | .exit => if q.stage = .parent then some ({ q with stage := .exited }, none) else none
  | .setsid => if q.stage = .leading then some (q.setsid, none) else none
  | .chdir error =>
      if q.stage = .moving then
        match error with
        | some e => some ({ q with stage := .returned (some e) }, none)
        | none => some ({ q with cwd := [], stage := .redirecting }, none)
      else none
  | .redirect openError dupErrors =>
      if q.stage = .redirecting then
        let redirected := redirectStd q.table openError dupErrors
        some ({ q with table := redirected.2, stage := .returned redirected.1 }, none)
      else none

end Proc

/-- The processes of one launch, in the order of their births. -/
structure Forks (φ : Type) where
  procs : List (Proc φ)

namespace Forks

variable {φ : Type}

/-- No process, group or session has the number. -/
def fresh (s : Forks φ) (n : Nat) : Bool :=
  s.procs.all fun q => q.pid != n && q.group != n && q.session != n

/-- One call of the process at a place in the list. -/
def step (s : Forks φ) (label : Nat × ForkMove) : Option (Forks φ) :=
  s.procs[label.1]?.bind fun q =>
    (q.move label.2).bind fun moved =>
      if (moved.2.toList.all fun child => s.fresh child.pid) then
        some ⟨s.procs.set label.1 moved.1 ++ moved.2.toList⟩
      else none

def machine : Machine (Forks φ) (Nat × ForkMove) where
  step := step

end Forks

/-! ## The family -/

/-- A parent that is done or about to be. -/
def Leaving {φ : Type} (q : Proc φ) : Prop := q.stage = .parent ∨ q.stage = .exited

section Family

variable {φ : Type}

/-- The launcher before its child is born: it has its own group and session. -/
structure Alone (first q : Proc φ) : Prop where
  same : q = { first with umask := q.umask, stage := q.stage }
  stage : (q.stage = .entering ∧ q.umask = first.umask) ∨
    (q.umask = 0o077 ∧ (q.stage = .forking ∨ ∃ e, q.stage = .returned (some e)))

/-- The child of the launcher: in its parent's group, or the leader of its own session. -/
structure Middle (first q : Proc φ) : Prop where
  same : q = { first with
    pid := q.pid, group := q.group, session := q.session, terminal := q.terminal,
    umask := 0o077, stage := q.stage }
  born : q.pid ≠ first.pid ∧ q.pid ≠ first.group ∧ q.pid ≠ first.session
  stage : (q.stage = .leading ∧ q.group = first.group ∧ q.session = first.session) ∨
    (q.group = q.pid ∧ q.session = q.pid ∧ q.terminal = false ∧
      (q.stage = .reforking ∨ ∃ e, q.stage = .returned (some e)))

/-- The grandchild: a member of the session of its parent, the leader, and not the leader
itself. -/
structure Last (first : Proc φ) (leader : Nat) (q : Proc φ) : Prop where
  pid : q.pid ≠ leader
  group : q.group = leader
  session : q.session = leader
  terminal : q.terminal = false
  umask : q.umask = 0o077
  stage : (q.stage = .moving ∧ q.cwd = first.cwd ∧ q.table = first.table) ∨
    (q.stage = .redirecting ∧ q.cwd = [] ∧ q.table = first.table) ∨
    (∃ e, q.stage = .returned (some e)) ∨
    (q.stage = .returned none ∧ q.cwd = [] ∧
      ∃ openError dupErrors, (redirectStd first.table openError dupErrors).1 = none ∧
        q.table = (redirectStd first.table openError dupErrors).2)

/-- The processes that a launch can consist of. -/
inductive Family (first : Proc φ) : List (Proc φ) → Prop where
  | alone {q : Proc φ} (hq : Alone first q) : Family first [q]
  | two {p q : Proc φ} (hp : Leaving p) (hsame : p.pid = first.pid) (hq : Middle first q) :
      Family first [p, q]
  | three {p m q : Proc φ} (hp : Leaving p) (hsame : p.pid = first.pid) (hm : Leaving m)
      (hborn : m.pid ≠ first.pid ∧ m.pid ≠ first.group ∧ m.pid ≠ first.session)
      (hq : Last first m.pid q) : Family first [p, m, q]

/-! ## One call of each member -/

variable {first q q' : Proc φ} {child : Option (Proc φ)} {a : ForkMove}

/-- A parent does nothing but exit. -/
theorem Leaving.move (h : Leaving q) (hmove : q.move a = some (q', child)) :
    child = none ∧ Leaving q' ∧ q'.pid = q.pid := by
  rcases h with h | h
  · cases a with
    | exit =>
        simp only [Proc.move, if_pos h, Option.some.injEq, Prod.mk.injEq] at hmove
        obtain ⟨rfl, rfl⟩ := hmove
        exact ⟨rfl, Or.inr rfl, rfl⟩
    | umask | fork _ | forkFails _ | setsid | chdir _ | redirect _ _ => simp [Proc.move, h] at hmove
  · cases a with
    | umask | fork _ | forkFails _ | exit | setsid | chdir _ | redirect _ _ =>
        simp [Proc.move, h] at hmove

/-- What came back does nothing more here. -/
theorem move_returned {e : Option Errno} (h : q.stage = .returned e) : q.move a = none := by
  cases a with
  | umask | fork _ | forkFails _ | exit | setsid | chdir _ | redirect _ _ => simp [Proc.move, h]

/-- The launcher sets its umask and forks. -/
theorem Alone.move (h : Alone first q) (hmove : q.move a = some (q', child)) :
    (child = none ∧ Alone first q') ∨
      ∃ c, child = some c ∧ Leaving q' ∧ q'.pid = first.pid ∧
        (c.pid ≠ q.pid ∧ c.pid ≠ q.group ∧ c.pid ≠ q.session → Middle first c) := by
  obtain ⟨hsame, ⟨hstage, humask⟩ | ⟨humask, hstage | ⟨e, hstage⟩⟩⟩ := h
  · cases a with
    | umask =>
        simp only [Proc.move, if_pos hstage, Option.some.injEq, Prod.mk.injEq] at hmove
        obtain ⟨rfl, rfl⟩ := hmove
        exact Or.inl ⟨rfl, ⟨by rw [hsame], Or.inr ⟨rfl, Or.inl rfl⟩⟩⟩
    | fork _ | forkFails _ | exit | setsid | chdir _ | redirect _ _ =>
        simp [Proc.move, hstage] at hmove
  · cases a with
    | fork n =>
        simp only [Proc.move, if_pos hstage, Proc.fork, Option.some.injEq, Prod.mk.injEq] at hmove
        obtain ⟨rfl, rfl⟩ := hmove
        refine Or.inr ⟨_, rfl, Or.inl rfl, by rw [hsame], ?_⟩
        intro hfresh
        rw [hsame] at hfresh
        exact ⟨by rw [hsame, humask], hfresh, Or.inl ⟨rfl, by rw [hsame], by rw [hsame]⟩⟩
    | forkFails e =>
        simp only [Proc.move, hstage, true_or, if_true, Option.some.injEq, Prod.mk.injEq] at hmove
        obtain ⟨rfl, rfl⟩ := hmove
        exact Or.inl ⟨rfl, ⟨by rw [hsame], Or.inr ⟨humask, Or.inr ⟨e, rfl⟩⟩⟩⟩
    | umask | exit | setsid | chdir _ | redirect _ _ => simp [Proc.move, hstage] at hmove
  · rw [move_returned hstage] at hmove
    cases hmove

/-- The child leads its own session, which it may since it has a number of its own, and
forks. -/
theorem Middle.move (h : Middle first q) (hmove : q.move a = some (q', child)) :
    (child = none ∧ Middle first q') ∨
      ∃ c, child = some c ∧ Leaving q' ∧ q'.pid = q.pid ∧
        (c.pid ≠ q.pid → Last first q.pid c) := by
  obtain ⟨hsame, hborn, ⟨hstage, hgroup, hsession⟩ |
    ⟨hgroup, hsession, hterminal, hstage | ⟨e, hstage⟩⟩⟩ := h
  · cases a with
    | setsid =>
        simp only [Proc.move, if_pos hstage, Option.some.injEq, Prod.mk.injEq] at hmove
        obtain ⟨rfl, rfl⟩ := hmove
        have hmember : q.group ≠ q.pid := by
          rw [hgroup]
          exact Ne.symm hborn.2.1
        unfold Proc.setsid
        rw [if_neg hmember]
        exact Or.inl ⟨rfl, ⟨by rw [hsame], hborn, Or.inr ⟨rfl, rfl, rfl, Or.inl rfl⟩⟩⟩
    | umask | fork _ | forkFails _ | exit | chdir _ | redirect _ _ => simp [Proc.move, hstage] at hmove
  · cases a with
    | fork n =>
        simp only [Proc.move, hstage, reduceCtorEq, if_false, if_true, Proc.fork, Option.some.injEq,
          Prod.mk.injEq] at hmove
        obtain ⟨rfl, rfl⟩ := hmove
        refine Or.inr ⟨_, rfl, Or.inl rfl, rfl, ?_⟩
        intro hfresh
        refine ⟨hfresh, hgroup, hsession, hterminal, by rw [hsame], Or.inl ⟨rfl, ?_, ?_⟩⟩
        · rw [hsame]
        · rw [hsame]
    | forkFails e =>
        simp only [Proc.move, hstage, or_true, if_true, Option.some.injEq, Prod.mk.injEq] at hmove
        obtain ⟨rfl, rfl⟩ := hmove
        exact Or.inl ⟨rfl, ⟨by rw [hsame], hborn,
          Or.inr ⟨hgroup, hsession, hterminal, Or.inr ⟨e, rfl⟩⟩⟩⟩
    | umask | exit | setsid | chdir _ | redirect _ _ => simp [Proc.move, hstage] at hmove
  · rw [move_returned hstage] at hmove
    cases hmove

/-- The grandchild moves, redirects and comes back. -/
theorem Last.move {leader : Nat} (h : Last first leader q) (hmove : q.move a = some (q', child)) :
    child = none ∧ Last first leader q' := by
  obtain ⟨hpid, hgroup, hsession, hterminal, humask, ⟨hstage, hcwd, htable⟩ |
    ⟨hstage, hcwd, htable⟩ | ⟨e, hstage⟩ | ⟨hstage, -⟩⟩ := h
  · cases a with
    | chdir error =>
        simp only [Proc.move, if_pos hstage] at hmove
        cases error with
        | some e =>
            cases hmove
            exact ⟨rfl, hpid, hgroup, hsession, hterminal, humask, Or.inr (Or.inr (Or.inl ⟨e, rfl⟩))⟩
        | none =>
            cases hmove
            exact ⟨rfl, hpid, hgroup, hsession, hterminal, humask,
              Or.inr (Or.inl ⟨rfl, rfl, htable⟩)⟩
    | umask | fork _ | forkFails _ | exit | setsid | redirect _ _ => simp [Proc.move, hstage] at hmove
  · cases a with
    | redirect openError dupErrors =>
        simp only [Proc.move, if_pos hstage, Option.some.injEq, Prod.mk.injEq] at hmove
        obtain ⟨rfl, rfl⟩ := hmove
        refine ⟨rfl, hpid, hgroup, hsession, hterminal, humask, Or.inr (Or.inr ?_)⟩
        rw [htable]
        cases hresult : (redirectStd first.table openError dupErrors).1 with
        | some e => exact Or.inl ⟨e, rfl⟩
        | none => exact Or.inr ⟨rfl, hcwd, openError, dupErrors, hresult, rfl⟩
    | umask | fork _ | forkFails _ | exit | setsid | chdir _ => simp [Proc.move, hstage] at hmove
  · rw [move_returned hstage] at hmove
    cases hmove
  · rw [move_returned hstage] at hmove
    cases hmove

end Family

namespace Forks

variable {φ : Type} {s t : Forks φ} {first : Proc φ}

/-- A move of one process, taken apart. -/
theorem step_eq_some {label : Nat × ForkMove} (hstep : s.step label = some t) :
    ∃ q q' child, s.procs[label.1]? = some q ∧ q.move label.2 = some (q', child) ∧
      (∀ c, child = some c → ∀ r ∈ s.procs, c.pid ≠ r.pid ∧ c.pid ≠ r.group ∧ c.pid ≠ r.session) ∧
      t.procs = s.procs.set label.1 q' ++ child.toList := by
  unfold step at hstep
  obtain ⟨q, hq, hstep⟩ := Option.bind_eq_some_iff.mp hstep
  obtain ⟨⟨q', child⟩, hmove, hstep⟩ := Option.bind_eq_some_iff.mp hstep
  rw [Option.ite_none_right_eq_some, Option.some.injEq] at hstep
  obtain ⟨hfresh, rfl⟩ := hstep
  refine ⟨q, q', child, hq, hmove, ?_, rfl⟩
  rintro c rfl r hr
  simp only [Option.toList_some, List.all_cons, List.all_nil, Bool.and_true, fresh,
    List.all_eq_true, Bool.and_eq_true, bne_iff_ne] at hfresh
  obtain ⟨⟨hpid, hgroup⟩, hsession⟩ := hfresh r hr
  exact ⟨Ne.symm hpid, Ne.symm hgroup, Ne.symm hsession⟩

/-- Every step leaves the processes one of the three families. -/
theorem family_step {label : Nat × ForkMove} (hs : Family first s.procs)
    (hstep : s.step label = some t) : Family first t.procs := by
  obtain ⟨q, q', child, hq, hmove, hfresh, ht⟩ := step_eq_some hstep
  obtain ⟨i, a⟩ := label
  rw [ht]
  generalize s.procs = procs at hs hq hfresh
  cases hs with
  | alone halone =>
      cases i with
      | zero =>
          cases hq
          rcases halone.move hmove with ⟨rfl, hnext⟩ | ⟨c, rfl, hleaving, hpid, hchild⟩
          · exact .alone hnext
          · exact .two hleaving hpid (hchild (hfresh c rfl _ (List.mem_singleton_self _)))
      | succ i => cases hq
  | two hleaving hpid hmiddle =>
      cases i with
      | zero =>
          cases hq
          obtain ⟨rfl, hnext, hsame⟩ := hleaving.move hmove
          exact .two hnext (hsame.trans hpid) hmiddle
      | succ i =>
          cases i with
          | zero =>
              cases hq
              rcases hmiddle.move hmove with ⟨rfl, hnext⟩ | ⟨c, rfl, hgone, hsame, hchild⟩
              · exact .two hleaving hpid hnext
              · have hlast := hchild (hfresh c rfl _ (by simp)).1
                rw [← hsame] at hlast
                exact .three hleaving hpid hgone (hsame ▸ hmiddle.born) hlast
          | succ i => cases hq
  | three hleaving hpid hgone hborn hlast =>
      cases i with
      | zero =>
          cases hq
          obtain ⟨rfl, hnext, hsame⟩ := hleaving.move hmove
          exact .three hnext (hsame.trans hpid) hgone hborn hlast
      | succ i =>
          cases i with
          | zero =>
              cases hq
              obtain ⟨rfl, hnext, hsame⟩ := hgone.move hmove
              exact .three hleaving hpid hnext (by rw [hsame]; exact hborn) (by rw [hsame]; exact hlast)
          | succ i =>
              cases i with
              | zero =>
                  cases hq
                  obtain ⟨rfl, hnext⟩ := hlast.move hmove
                  exact .three hleaving hpid hgone hborn hnext
              | succ i => cases hq

/-! ## Main result -/

/-- A parent has not come back. -/
theorem not_returned_of_leaving {q : Proc φ} (h : Leaving q) {e : Option Errno}
    (hstage : q.stage = .returned e) : False := by
  rcases h with h | h
  · cases hstage.symm.trans h
  · cases hstage.symm.trans h

/-- Among the processes of a family all but one member are parents, unless none has come
back. -/
theorem leaving_of_returned (hs : Family first s.procs) {q r : Proc φ} (hq : q ∈ s.procs)
    (hr : r ∈ s.procs) {e : Option Errno} (hreturned : q.stage = .returned e) :
    r = q ∨ Leaving r := by
  generalize s.procs = procs at hs hq hr
  cases hs with
  | alone halone =>
      rw [List.mem_singleton.mp hq, List.mem_singleton.mp hr]
      exact Or.inl rfl
  | two hleaving hpid hmiddle =>
      simp only [List.mem_cons, List.not_mem_nil, or_false] at hq hr
      rcases hq with rfl | rfl
      · exact (not_returned_of_leaving hleaving hreturned).elim
      · rcases hr with rfl | rfl
        · exact Or.inr hleaving
        · exact Or.inl rfl
  | three hleaving hpid hgone hborn hlast =>
      simp only [List.mem_cons, List.not_mem_nil, or_false] at hq hr
      rcases hq with rfl | rfl | rfl
      · exact (not_returned_of_leaving hleaving hreturned).elim
      · exact (not_returned_of_leaving hgone hreturned).elim
      · rcases hr with rfl | rfl | rfl
        · exact Or.inr hleaving
        · exact Or.inr hgone
        · exact Or.inl rfl

/-- A member of a family is a parent, or the youngest. -/
theorem member_cases (hs : Family first s.procs) {q : Proc φ} (hq : q ∈ s.procs) :
    Leaving q ∨ Alone first q ∨ Middle first q ∨
      ∃ leader, leader ≠ first.session ∧ Last first leader q := by
  generalize s.procs = procs at hs hq
  cases hs with
  | alone halone =>
      rw [List.mem_singleton.mp hq]
      exact Or.inr (Or.inl halone)
  | two hleaving hpid hmiddle =>
      simp only [List.mem_cons, List.not_mem_nil, or_false] at hq
      rcases hq with rfl | rfl
      · exact Or.inl hleaving
      · exact Or.inr (Or.inr (Or.inl hmiddle))
  | three hleaving hpid hgone hborn hlast =>
      simp only [List.mem_cons, List.not_mem_nil, or_false] at hq
      rcases hq with rfl | rfl | rfl
      · exact Or.inl hleaving
      · exact Or.inl hgone
      · exact Or.inr (Or.inr (Or.inr ⟨_, hborn.2.2, hlast⟩))

/-- Who calls {lit}`setsid` leads no group. -/
theorem group_of_leading (hs : Family first s.procs) {q : Proc φ} (hq : q ∈ s.procs)
    (hstage : q.stage = .leading) : q.group ≠ q.pid := by
  rcases member_cases hs hq with hleaving | halone | hmiddle | ⟨leader, -, hlast⟩
  · rcases hleaving with h | h
    · cases hstage.symm.trans h
    · cases hstage.symm.trans h
  · rcases halone.stage with ⟨h, -⟩ | ⟨-, h | ⟨e, h⟩⟩
    · cases hstage.symm.trans h
    · cases hstage.symm.trans h
    · cases hstage.symm.trans h
  · rcases hmiddle.stage with ⟨-, hgroup, -⟩ | ⟨-, -, -, h | ⟨e, h⟩⟩
    · rw [hgroup]
      exact Ne.symm hmiddle.born.2.1
    · cases hstage.symm.trans h
    · cases hstage.symm.trans h
  · rw [hlast.group]
    exact Ne.symm hlast.pid

/-- A daemon: in a session that is new and that it does not lead, without a terminal, at the
root, with a strict umask, with {lit}`/dev/null` under the standard descriptors and every
other descriptor as it was at the start. -/
structure Daemonized (first q : Proc φ) : Prop where
  session : q.session ≠ q.pid ∧ q.session ≠ first.session
  group : q.group ≠ q.pid
  terminal : q.terminal = false
  umask : q.umask = 0o077
  cwd : q.cwd = []
  std : ∀ fd, fd ≤ 2 → q.table.get fd = some ⟨.devNull, fd == first.table.lowest⟩
  rest : ∀ fd, 2 < fd → q.table.get fd = first.table.get fd

/-- A process that comes back is daemonized. -/
theorem daemonized_of_returned (hs : Family first s.procs) {q : Proc φ} (hq : q ∈ s.procs)
    (hstage : q.stage = .returned none) : Daemonized first q := by
  rcases member_cases hs hq with hleaving | halone | hmiddle | ⟨leader, hleader, hlast⟩
  · exact (not_returned_of_leaving hleaving hstage).elim
  · rcases halone.stage with ⟨h, -⟩ | ⟨-, h | ⟨e, h⟩⟩
    · cases hstage.symm.trans h
    · cases hstage.symm.trans h
    · cases hstage.symm.trans h
  · rcases hmiddle.stage with ⟨h, -⟩ | ⟨-, -, -, h | ⟨e, h⟩⟩
    · cases hstage.symm.trans h
    · cases hstage.symm.trans h
    · cases hstage.symm.trans h
  · rcases hlast.stage with ⟨h, -⟩ | ⟨h, -⟩ | ⟨e, h⟩ | ⟨-, hcwd, openError, dupErrors, hok, htable⟩
    · cases hstage.symm.trans h
    · cases hstage.symm.trans h
    · cases hstage.symm.trans h
    · obtain ⟨hrest, -, hstd⟩ := redirectStd_get first.table openError dupErrors
      refine ⟨⟨?_, ?_⟩, ?_, hlast.terminal, hlast.umask, hcwd, ?_, ?_⟩
      · rw [hlast.session]
        exact Ne.symm hlast.pid
      · rw [hlast.session]
        exact hleader
      · rw [hlast.group]
        exact Ne.symm hlast.pid
      · rw [htable]
        exact hstd hok
      · rw [htable]
        exact hrest

/-- After the first fork the launcher only exits. -/
theorem launcher_leaving (hs : Family first s.procs) {q : Proc φ} (hq : q ∈ s.procs)
    (hchild : q.pid ≠ first.pid) : ∃ p ∈ s.procs, p.pid = first.pid ∧ Leaving p := by
  generalize s.procs = procs at hs hq
  cases hs with
  | alone halone =>
      rw [List.mem_singleton.mp hq, halone.same] at hchild
      exact absurd rfl hchild
  | two hleaving hpid hmiddle => exact ⟨_, List.mem_cons_self, hpid, hleaving⟩
  | three hleaving hpid hgone hborn hlast => exact ⟨_, List.mem_cons_self, hpid, hleaving⟩

/-- In every run of a launch, in whatever order its processes move and whichever calls fail:
at most one process comes back from {lit}`daemonize`, and the others are parents that exit
with status 0, so that an error after the first fork is not seen by whoever waits for the
launcher; nobody who calls {lit}`setsid` is refused as the leader of a group; and a process
that comes back with success is a daemon. -/
theorem one_survivor (first : Proc φ) (hfirst : first.stage = .entering)
    (labels : List (Nat × ForkMove)) (s : Forks φ)
    (hrun : machine.run ⟨[first]⟩ labels = some s) :
    (∀ q ∈ s.procs, ∀ e, q.stage = .returned e → ∀ r ∈ s.procs, r = q ∨ Leaving r) ∧
      (∀ q ∈ s.procs, q.pid ≠ first.pid → ∃ p ∈ s.procs, p.pid = first.pid ∧ Leaving p) ∧
      (∀ q ∈ s.procs, q.stage = .leading → q.group ≠ q.pid) ∧
      ∀ q ∈ s.procs, q.stage = .returned none → Daemonized first q := by
  have hs : Family first s.procs := by
    refine machine.run_induct (motive := fun s => Family first s.procs) ?_ ?_ hrun
    · exact fun _ _ _ hs hstep => family_step hs hstep
    · exact .alone ⟨rfl, Or.inl ⟨hfirst, rfl⟩⟩
  refine ⟨?_, fun q hq => launcher_leaving hs hq, fun q hq => group_of_leading hs hq,
    fun q hq => daemonized_of_returned hs hq⟩
  exact fun q hq e hreturned r hr => leaving_of_returned hs hq hr hreturned

/-- A launcher that leads its group, on a terminal, with its standard input closed. -/
def shellChild : Proc Nat where
  pid := 100
  group := 100
  session := 7
  terminal := true
  umask := 0o022
  cwd := ["home"]
  table := ⟨[none, some ⟨.inherited 1, false⟩, some ⟨.inherited 2, false⟩, some ⟨.inherited 3, true⟩]⟩
  stage := .entering

/-- The grandchild comes back, daemonized. -/
theorem one_survivor_shellChild :
    ∃ s, machine.run ⟨[shellChild]⟩ [(0, .umask), (0, .fork 101), (1, .setsid), (1, .fork 102),
        (2, .chdir none), (0, .exit), (2, .redirect none fun _ => none)] = some s ∧
      ∃ q ∈ s.procs, q.stage = .returned none ∧ Daemonized shellChild q := by
  have hsome : (machine.run ⟨[shellChild]⟩ [(0, .umask), (0, .fork 101), (1, .setsid),
      (1, .fork 102), (2, .chdir none), (0, .exit), (2, .redirect none fun _ => none)]).isSome =
      true := by
    decide +kernel
  have hlast : ∀ s ∈ machine.run ⟨[shellChild]⟩ [(0, .umask), (0, .fork 101), (1, .setsid),
      (1, .fork 102), (2, .chdir none), (0, .exit), (2, .redirect none fun _ => none)],
      ∃ q ∈ s.procs, q.stage = .returned none := by
    decide +kernel
  obtain ⟨s, hs⟩ := Option.isSome_iff_exists.mp hsome
  obtain ⟨q, hq, hstage⟩ := hlast s hs
  obtain ⟨-, -, -, hdaemon⟩ := one_survivor shellChild rfl _ s hs
  exact ⟨s, hs, q, hq, hstage, hdaemon q hq hstage⟩

end Forks

end JftermMuxer.Daemon
