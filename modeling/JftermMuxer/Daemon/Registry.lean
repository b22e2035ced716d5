import JftermMuxer.Foundation.Machine
import Mathlib.Data.List.AList

/-!
# The session registry

{lit}`jftermd/src/registry.rs`, with the tasks that {lit}`handle_session` spawns
around it: a bind of an unknown id inserts a handle and creates the task that
owns the other end of its channel, and that task removes the id on the way out,
whichever way out it takes.

Main results:

- Theorem {lit}`Registry.attachOrCreate_of_lookup`: a registered id is bound to
  its own channel, also when the cap is reached.
- Theorem {lit}`Sessions.invariant_step`: a step of any connection or task keeps
  handles and tasks in correspondence.
- Theorem {lit}`Sessions.registry_corresponds`: in every run the registry holds
  exactly the ids whose task has not removed itself.
-/

namespace JftermMuxer.Daemon

open JftermMuxer.Foundation

/-! ## The table -/

/-- A command channel; its sender is in the table, its receiver in one task. -/
abbrev ChannelId := Nat

/-- Hard cap on concurrently tracked sessions. -/
def maxSessions : Nat := 256

/-- The shared session table. -/
structure Registry where
  sessions : AList fun _ : String => ChannelId
  maxSessions : Nat

/-- Outcome of `attach_or_create`. -/
inductive Bind where
  | existing (cmdTx : ChannelId)
  | created (channel : ChannelId)
  | rejected
deriving DecidableEq, Repr

namespace Registry

def withMaxSessions (maxSessions : Nat) : Registry := ⟨∅, maxSessions⟩

def new : Registry := withMaxSessions Daemon.maxSessions

def len (r : Registry) : Nat := r.sessions.entries.length

def isEmpty (r : Registry) : Bool := r.len == 0

/-- If the id exists return its channel, else, under the cap, insert the sender of
a fresh one. -/
def attachOrCreate (r : Registry) (id : String) (fresh : ChannelId) : Bind × Registry :=
  match r.sessions.lookup id with
  | some tx => (.existing tx, r)
  | none =>
      if r.maxSessions ≤ r.len then (.rejected, r)
      else (.created fresh, { r with sessions := r.sessions.insert id fresh })

def remove (r : Registry) (id : String) : Registry := { r with sessions := r.sessions.erase id }

/-- A registered id is bound to its channel whatever the cap says. -/
theorem attachOrCreate_of_lookup {r : Registry} {id : String} {tx : ChannelId}
    (h : r.sessions.lookup id = some tx) (fresh : ChannelId) :
    r.attachOrCreate id fresh = (.existing tx, r) := by
  rw [attachOrCreate, h]

/-- What a bind does: nothing to the table, or one insertion under the cap. -/
theorem attachOrCreate_cases (r : Registry) (id : String) (fresh : ChannelId) :
    (∃ tx, r.attachOrCreate id fresh = (.existing tx, r)) ∨
      r.attachOrCreate id fresh = (.rejected, r) ∨
      r.sessions.lookup id = none ∧ r.len < r.maxSessions ∧
        r.attachOrCreate id fresh =
          (.created fresh, { r with sessions := r.sessions.insert id fresh }) := by
  unfold attachOrCreate
  cases hlookup : r.sessions.lookup id with
  | some tx => exact Or.inl ⟨tx, rfl⟩
  | none =>
      by_cases hfull : r.maxSessions ≤ r.len
      · exact Or.inr (Or.inl (by rw [if_pos hfull]))
      · exact Or.inr (Or.inr ⟨rfl, by omega, by rw [if_neg hfull]⟩)

/-- A new entry is one more. -/
theorem len_insert {r : Registry} {id : String} (h : r.sessions.lookup id = none)
    (tx : ChannelId) : len { r with sessions := r.sessions.insert id tx } = r.len + 1 := by
  have hnot : id ∉ r.sessions := by
    rw [← AList.lookup_isSome, h]
    exact Bool.false_ne_true
  unfold len
  rw [AList.entries_insert_of_notMem hnot, List.length_cons]

/-- A removal adds no entry. -/
theorem len_remove_le (r : Registry) (id : String) : (r.remove id).len ≤ r.len := by
  have hkeys : (r.remove id).sessions.keys.length ≤ r.sessions.keys.length := by
    change (r.sessions.erase id).keys.length ≤ _
    rw [AList.keys_erase]
    exact List.length_erase_le
  unfold AList.keys List.keys at hkeys
  rw [List.length_map, List.length_map] at hkeys
  exact hkeys

end Registry

/-! ## Tasks -/

/-- How far a `session_task` has come. -/
inductive SessionPhase where
  /-- `Session::open` is running. -/
  | opening
  /-- `actor_loop` is entered, the master is to be registered. -/
  | opened
  | looping
  /-- On the way out, before `remove`. -/
  | leaving
  /-- `remove` is executed, the receiver is still there. -/
  | removed
  | finished
deriving DecidableEq, Repr

/-- A `session_task` and the receiver it owns. -/
structure SessionTask where
  id : String
  cmdRx : ChannelId
  phase : SessionPhase
deriving DecidableEq, Repr

namespace SessionTask

/-- The task has not executed its `remove`. -/
def pending (t : SessionTask) : Bool :=
  match t.phase with
  | .opening | .opened | .looping | .leaving => true
  | .removed | .finished => false

end SessionTask

/-- An executed `remove`, with the handle it deleted. -/
structure Removal where
  task : Nat
  id : String
  deleted : Option ChannelId
deriving DecidableEq, Repr

/-- The registry, the tasks created so far, and the removals executed. -/
structure Sessions where
  registry : Registry
  created : Nat
  tasks : Nat → Option SessionTask
  removals : List Removal

/-- A step of a connection or of a task. -/
inductive SessionStep where
  /-- `handle_session` binds an id. -/
  | bind (id : String)
  | openOk (t : Nat)
  | openFailed (t : Nat)
  | openPanicked (t : Nat)
  | asyncFdOk (t : Nat)
  | asyncFdFailed (t : Nat)
  | actorEnded (t : Nat)
  | remove (t : Nat)
  | finish (t : Nat)
deriving DecidableEq, Repr

namespace Sessions

def start (maxSessions : Nat) : Sessions := ⟨.withMaxSessions maxSessions, 0, fun _ => none, []⟩

def setTask (s : Sessions) (t : Nat) (task : SessionTask) : Sessions :=
  { s with tasks := Function.update s.tasks t (some task) }

/-- A task moves from one phase to the next. -/
def advance (s : Sessions) (t : Nat) (old next : SessionPhase) : Option Sessions :=
  match s.tasks t with
  | none => none
  | some task => if task.phase = old then some (s.setTask t { task with phase := next }) else none

/-- `handle_session`: a created channel comes with the task that reads it. -/
def bind (s : Sessions) (id : String) : Sessions :=
  match s.registry.attachOrCreate id s.created with
  | (.created channel, registry) =>
      { s with
        registry := registry
        created := s.created + 1
        tasks := Function.update s.tasks s.created (some ⟨id, channel, .opening⟩) }
  | (_, registry) => { s with registry := registry }

/-- A task on its way out removes its id. -/
def remove (s : Sessions) (t : Nat) : Option Sessions :=
  match s.tasks t with
  | none => none
  | some task =>
      if task.phase = .leaving then
        some { s.setTask t { task with phase := .removed } with
          registry := s.registry.remove task.id
          removals := ⟨t, task.id, s.registry.sessions.lookup task.id⟩ :: s.removals }
      else none

def step (s : Sessions) : SessionStep → Option Sessions
  | .bind id => some (s.bind id)
  | .openOk t => s.advance t .opening .opened
  | .openFailed t => s.advance t .opening .leaving
  | .openPanicked t => s.advance t .opening .leaving
  | .asyncFdOk t => s.advance t .opened .looping
  | .asyncFdFailed t => s.advance t .opened .leaving
  | .actorEnded t => s.advance t .looping .leaving
  | .remove t => s.remove t
  | .finish t => s.advance t .removed .finished

/-- Connections and tasks as one machine. -/
def machine : Machine Sessions SessionStep where
  step := step

/-- A task for the id has been created and has not executed its `remove`. -/
def Pending (s : Sessions) (id : String) (t : Nat) : Prop :=
  ∃ task, s.tasks t = some task ∧ task.id = id ∧ task.pending = true

/-! ## What each step does -/

/-- A bind changes nothing, or creates a task under a new channel. -/
theorem bind_cases (s : Sessions) (id : String) :
    s.bind id = s ∨
      s.registry.sessions.lookup id = none ∧ s.registry.len < s.registry.maxSessions ∧
        s.bind id = { s with
          registry := { s.registry with sessions := s.registry.sessions.insert id s.created }
          created := s.created + 1
          tasks := Function.update s.tasks s.created (some ⟨id, s.created, .opening⟩) } := by
  unfold bind
  rcases s.registry.attachOrCreate_cases id s.created with ⟨tx, heq⟩ | heq | ⟨hnone, hroom, heq⟩
  · rw [heq]
    exact Or.inl rfl
  · rw [heq]
    exact Or.inl rfl
  · rw [heq]
    exact Or.inr ⟨hnone, hroom, rfl⟩

/-- A task goes on from the phase it is in. -/
theorem advance_eq_some {s u : Sessions} {t : Nat} {old next : SessionPhase}
    (h : s.advance t old next = some u) :
    ∃ task, s.tasks t = some task ∧ task.phase = old ∧
      u = s.setTask t { task with phase := next } := by
  unfold advance at h
  cases htask : s.tasks t with
  | none =>
      rw [htask] at h
      cases h
  | some task =>
      rw [htask] at h
      simp only [Option.ite_none_right_eq_some, Option.some.injEq] at h
      exact ⟨task, rfl, h.1, h.2.symm⟩

/-- A task that leaves removes the entry of its id. -/
theorem remove_eq_some {s u : Sessions} {t : Nat} (h : s.remove t = some u) :
    ∃ task, s.tasks t = some task ∧ task.phase = .leaving ∧
      u = { s.setTask t { task with phase := .removed } with
        registry := s.registry.remove task.id
        removals := ⟨t, task.id, s.registry.sessions.lookup task.id⟩ :: s.removals } := by
  unfold remove at h
  cases htask : s.tasks t with
  | none =>
      rw [htask] at h
      cases h
  | some task =>
      rw [htask] at h
      simp only [Option.ite_none_right_eq_some, Option.some.injEq] at h
      exact ⟨task, rfl, h.1, h.2.symm⟩

/-! ## The invariant -/

/-- What holds in every state of every run. -/
structure Invariant (s : Sessions) : Prop where
  capped : s.registry.len ≤ s.registry.maxSessions
  created_of_task : ∀ t task, s.tasks t = some task → t < s.created ∧ task.cmdRx = t
  /-- The table holds the sender of every pending task, and nothing else. -/
  lookup_iff : ∀ id tx, s.registry.sessions.lookup id = some tx ↔ s.Pending id tx
  /-- A task that has removed itself did so once and deleted its own handle. -/
  removals_eq : ∀ t, s.removals.filter (fun r => r.task = t) =
    match s.tasks t with
    | none => []
    | some task => if task.pending then [] else [⟨t, task.id, some task.cmdRx⟩]

/-- The empty table satisfies the invariant. -/
theorem invariant_start (maxSessions : Nat) : (start maxSessions).Invariant := by
  constructor
  · exact Nat.zero_le _
  · intro t task h
    cases h
  · intro id tx
    constructor
    · intro h
      cases h
    · rintro ⟨task, h, -⟩
      cases h
  · intro t
    rfl

/-- A task in another phase keeps its number and its channel. -/
theorem Invariant.created_setTask {s : Sessions} (hinv : s.Invariant) {t : Nat} {task : SessionTask}
    (htask : s.tasks t = some task) (next : SessionPhase) (q : Nat) (other : SessionTask)
    (hq : (s.setTask t { task with phase := next }).tasks q = some other) :
    q < s.created ∧ other.cmdRx = q := by
  by_cases hqt : q = t
  · subst hqt
    simp only [setTask, Function.update_self, Option.some.injEq] at hq
    subst hq
    exact hinv.created_of_task q task htask
  · simp only [setTask, Function.update_of_ne hqt] at hq
    exact hinv.created_of_task q other hq

/-- A task that moves on without its `remove` changes nothing of the
correspondence. -/
theorem invariant_advance {s u : Sessions} {t : Nat} {old next : SessionPhase}
    (hinv : s.Invariant) (hstep : s.advance t old next = some u)
    (hsame : ∀ id rx, SessionTask.pending ⟨id, rx, next⟩ = SessionTask.pending ⟨id, rx, old⟩) :
    u.Invariant := by
  obtain ⟨task, htask, hphase, rfl⟩ := advance_eq_some hstep
  have hpending : SessionTask.pending { task with phase := next } = task.pending := by
    rw [hsame task.id task.cmdRx, ← hphase]
  constructor
  · exact hinv.capped
  · exact hinv.created_setTask htask next
  · intro id tx
    refine (hinv.lookup_iff id tx).trans ?_
    by_cases hqt : tx = t
    · subst hqt
      simp [Pending, setTask, htask, hpending]
    · simp [Pending, setTask, Function.update_of_ne hqt]
  · intro q
    refine (hinv.removals_eq q).trans ?_
    by_cases hqt : q = t
    · subst hqt
      simp only [setTask, Function.update_self, htask, hpending]
    · simp only [setTask, Function.update_of_ne hqt]

/-- A bind creates at most one task, with the handle that names it. -/
theorem invariant_bind {s : Sessions} (hinv : s.Invariant) (id : String) :
    (s.bind id).Invariant := by
  have hfree : s.tasks s.created = none := by
    cases htask : s.tasks s.created with
    | none => rfl
    | some task => exact absurd (hinv.created_of_task _ task htask).1 (Nat.lt_irrefl _)
  rcases s.bind_cases id with hsame | ⟨hlookup, hroom, heq⟩
  · rw [hsame]
    exact hinv
  · rw [heq]
    constructor
    · change Registry.len { s.registry with sessions := s.registry.sessions.insert id s.created } ≤
        s.registry.maxSessions
      rw [Registry.len_insert hlookup]
      omega
    · intro t task ht
      by_cases hcreated : t = s.created
      · subst hcreated
        simp only [Function.update_self, Option.some.injEq] at ht
        subst ht
        exact ⟨Nat.lt_succ_self _, rfl⟩
      · simp only [Function.update_of_ne hcreated] at ht
        obtain ⟨hlt, hrx⟩ := hinv.created_of_task t task ht
        exact ⟨Nat.lt_succ_of_lt hlt, hrx⟩
    · intro other tx
      by_cases hother : other = id
      · subst hother
        simp only [AList.lookup_insert, Option.some.injEq]
        constructor
        · rintro rfl
          exact ⟨⟨other, s.created, .opening⟩, Function.update_self .., rfl, rfl⟩
        · rintro ⟨task, ht, hid, hpending⟩
          by_cases hcreated : tx = s.created
          · exact hcreated.symm
          · -- An older pending task would still have the id registered.
            simp only [Function.update_of_ne hcreated] at ht
            have hold := (hinv.lookup_iff other tx).mpr ⟨task, ht, hid, hpending⟩
            rw [hlookup] at hold
            cases hold
      · simp only [AList.lookup_insert_ne hother]
        refine (hinv.lookup_iff other tx).trans ?_
        by_cases hcreated : tx = s.created
        · subst hcreated
          simp [Pending, hfree, Ne.symm hother]
        · simp [Pending, Function.update_of_ne hcreated]
    · intro t
      refine (hinv.removals_eq t).trans ?_
      by_cases hcreated : t = s.created
      · subst hcreated
        simp [hfree, SessionTask.pending]
      · simp only [Function.update_of_ne hcreated]

/-- A `remove` deletes the handle of the task that executes it. -/
theorem invariant_remove {s u : Sessions} {t : Nat} (hinv : s.Invariant)
    (hstep : s.remove t = some u) : u.Invariant := by
  obtain ⟨task, htask, hphase, rfl⟩ := remove_eq_some hstep
  have hpending : task.pending = true := by
    unfold SessionTask.pending
    rw [hphase]
  have hlookup : s.registry.sessions.lookup task.id = some t :=
    (hinv.lookup_iff task.id t).mpr ⟨task, htask, rfl, hpending⟩
  have hrx := (hinv.created_of_task t task htask).2
  constructor
  · exact Nat.le_trans (s.registry.len_remove_le task.id) hinv.capped
  · exact hinv.created_setTask htask .removed
  · intro id tx
    by_cases hid : id = task.id
    · subst hid
      simp only [Registry.remove, AList.lookup_erase, reduceCtorEq, false_iff]
      rintro ⟨other, hother, hsame, hstill⟩
      by_cases hqt : tx = t
      · subst hqt
        simp only [setTask, Function.update_self, Option.some.injEq] at hother
        subst hother
        cases hstill
      · -- A second pending task for the id would have its own sender in the table.
        simp only [setTask, Function.update_of_ne hqt] at hother
        have hsecond := (hinv.lookup_iff task.id tx).mpr ⟨other, hother, hsame, hstill⟩
        rw [hlookup] at hsecond
        exact hqt (Option.some.inj hsecond).symm
    · simp only [Registry.remove, AList.lookup_erase_ne hid]
      refine (hinv.lookup_iff id tx).trans ?_
      by_cases hqt : tx = t
      · subst hqt
        simp [Pending, setTask, htask, Ne.symm hid]
      · simp [Pending, setTask, Function.update_of_ne hqt]
  · intro q
    by_cases hqt : q = t
    · subst hqt
      have hnone := hinv.removals_eq q
      rw [htask] at hnone
      simp only [hpending, if_true] at hnone
      simp [setTask, SessionTask.pending, hlookup, hrx, hnone]
    · have hkeep := hinv.removals_eq q
      simp only [setTask, Function.update_of_ne hqt]
      rw [List.filter_cons_of_neg (by simp [Ne.symm hqt])]
      exact hkeep

/-- Every step of every connection and task keeps the correspondence. -/
theorem invariant_step {s u : Sessions} {label : SessionStep} (hinv : s.Invariant)
    (hstep : s.step label = some u) : u.Invariant := by
  cases label with
  | bind id =>
      cases hstep
      exact invariant_bind hinv id
  | openOk t => exact invariant_advance hinv hstep fun _ _ => rfl
  | openFailed t => exact invariant_advance hinv hstep fun _ _ => rfl
  | openPanicked t => exact invariant_advance hinv hstep fun _ _ => rfl
  | asyncFdOk t => exact invariant_advance hinv hstep fun _ _ => rfl
  | asyncFdFailed t => exact invariant_advance hinv hstep fun _ _ => rfl
  | actorEnded t => exact invariant_advance hinv hstep fun _ _ => rfl
  | remove t => exact invariant_remove hinv hstep
  | finish t => exact invariant_advance hinv hstep fun _ _ => rfl

/-! ## Main result -/

/-- The registry and the tasks correspond. -/
structure Corresponds (s : Sessions) : Prop where
  capped : s.registry.len ≤ s.registry.maxSessions
  /-- An id is registered iff exactly one task for it has not executed its `remove`. -/
  registered_iff : ∀ id, (s.registry.sessions.lookup id).isSome = true ↔ ∃! t, s.Pending id t
  /-- The registered sender is paired with the receiver of that task. -/
  paired : ∀ id tx t task, s.registry.sessions.lookup id = some tx → s.tasks t = some task →
    task.id = id → task.pending = true → task.cmdRx = tx
  /-- A finished task has executed `remove` once, and that deleted its own handle. -/
  removed_once : ∀ t task, s.tasks t = some task → task.phase = .finished →
    s.removals.filter (fun r => r.task = t) = [⟨t, task.id, some task.cmdRx⟩]
  /-- A bind of a registered id returns its channel, whatever the cap says. -/
  existing : ∀ id tx, s.registry.sessions.lookup id = some tx →
    s.registry.attachOrCreate id s.created = (.existing tx, s.registry)
  /-- Different tasks own different channels, so no task can delete the handle of
  another. -/
  distinct : ∀ t u task other, s.tasks t = some task → s.tasks u = some other →
    task.cmdRx = other.cmdRx → t = u

/-- The invariant makes table and tasks correspond. -/
theorem Invariant.corresponds {s : Sessions} (hinv : s.Invariant) : s.Corresponds := by
  constructor
  · exact hinv.capped
  · intro id
    constructor
    · intro hsome
      obtain ⟨tx, hlookup⟩ := Option.isSome_iff_exists.mp hsome
      refine ⟨tx, (hinv.lookup_iff id tx).mp hlookup, ?_⟩
      intro t ht
      have hother := (hinv.lookup_iff id t).mpr ht
      rw [hlookup] at hother
      exact (Option.some.inj hother).symm
    · rintro ⟨t, ht, -⟩
      rw [(hinv.lookup_iff id t).mpr ht]
      rfl
  · intro id tx t task hlookup htask hid hpending
    have hown := (hinv.lookup_iff id t).mpr ⟨task, htask, hid, hpending⟩
    rw [hlookup] at hown
    rw [(hinv.created_of_task t task htask).2]
    exact (Option.some.inj hown).symm
  · intro t task htask hphase
    have hremoved := hinv.removals_eq t
    rw [htask] at hremoved
    have hdone : task.pending = false := by
      unfold SessionTask.pending
      rw [hphase]
    simp only [hdone, Bool.false_eq_true, if_false] at hremoved
    exact hremoved
  · intro id tx hlookup
    exact Registry.attachOrCreate_of_lookup hlookup s.created
  · intro t u task other htask hother hsame
    rw [← (hinv.created_of_task t task htask).2, hsame, (hinv.created_of_task u other hother).2]

/-- In every interleaving of any number of binds and task lifetimes, over any ids
and any cap, the registry holds at most the cap, exactly the ids of the tasks that
have not removed themselves, each with its own task's sender; every finished task
removed its own handle once; and a registered id is always bound. -/
theorem registry_corresponds (maxSessions : Nat) (labels : List SessionStep) (s : Sessions)
    (hrun : machine.run (start maxSessions) labels = some s) : s.Corresponds :=
  (machine.run_induct (motive := Invariant) (fun _ _ _ hinv hstep => invariant_step hinv hstep)
    (invariant_start maxSessions) hrun).corresponds

/-- A session is opened, ends and is opened again under the same id, at a cap of
one. -/
def reopened : List SessionStep :=
  [.bind "a", .openOk 0, .bind "a", .bind "b", .asyncFdOk 0, .actorEnded 0, .remove 0, .bind "a",
    .finish 0, .openFailed 1]

/-- The id is taken by the second task, and the table corresponds. -/
theorem registry_corresponds_reopened :
    ∃ s, machine.run (start 1) reopened = some s ∧
      s.registry.sessions.lookup "a" = some 1 ∧ s.created = 2 ∧ s.Corresponds := by
  have hsome : (machine.run (start 1) reopened).isSome = true := by decide +kernel
  have hend : ∀ s ∈ machine.run (start 1) reopened,
      s.registry.sessions.lookup "a" = some 1 ∧ s.created = 2 := by
    decide +kernel
  obtain ⟨s, hs⟩ := Option.isSome_iff_exists.mp hsome
  obtain ⟨hlookup, hcreated⟩ := hend s hs
  exact ⟨s, hs, hlookup, hcreated, registry_corresponds 1 reopened s hs⟩

end Sessions

end JftermMuxer.Daemon
