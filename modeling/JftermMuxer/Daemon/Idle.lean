import JftermMuxer.Daemon.Registry

/-!
# The idle watcher

{lit}`wait_until_idle` of {lit}`jftermd/src/server.rs` beside the registry it
watches, over discrete time.  A change of the table is announced by one
`notify_one`: inside the lock for an insertion, after it for a removal.  The
notifier wakes the watcher if it waits, and otherwise keeps one permit, however
many changes there were.

Main results:

- Theorem {lit}`Watch.returns_after_grace`: the watcher returns only after the
  registry has been empty for the whole grace, in every run in which no removal
  empties it between the two looks at the ends of that grace.
- Theorem {lit}`Watch.never_stuck`: the watcher never waits for a change that will
  not be announced, in every run in which no removal empties the registry before
  the watcher has seen a session.
-/

namespace JftermMuxer.Daemon

open JftermMuxer.Foundation

/-- How far `wait_until_idle` has come. -/
inductive WatcherAt where
  /-- The condition of the first loop. -/
  | first
  /-- The first loop, before `wait_for_change` is polled. -/
  | firstWait
  /-- The first loop, waiting for a notification. -/
  | firstParked
  /-- The first look of the second loop. -/
  | look
  | sleeping (deadline : Nat)
  /-- The second look, after the grace. -/
  | lookAgain
  | wait
  | parked
  | returned
deriving DecidableEq, Repr

namespace WatcherAt

/-- The watcher has not seen a session yet. -/
def inFirstLoop : WatcherAt → Bool
  | .first | .firstWait | .firstParked => true
  | .look | .sleeping _ | .lookAgain | .wait | .parked | .returned => false

/-- The watcher is between its two looks. -/
def inGrace : WatcherAt → Bool
  | .sleeping _ | .lookAgain => true
  | .first | .firstWait | .firstParked | .look | .wait | .parked | .returned => false

def isParked : WatcherAt → Bool
  | .firstParked | .parked => true
  | .first | .firstWait | .look | .sleeping _ | .lookAgain | .wait | .returned => false

end WatcherAt

/-- The registry, its notifier and the watcher. -/
structure Watch where
  registry : Registry
  /-- An insertion holds the lock until it has notified. -/
  locked : Bool
  /-- Removals that have still to notify. -/
  pending : Nat
  permit : Bool
  watcher : WatcherAt
  now : Nat

namespace Watch

/-- A daemon that has just started. -/
def start (maxSessions : Nat) : Watch where
  registry := Registry.withMaxSessions maxSessions
  locked := false
  pending := 0
  permit := false
  watcher := .first
  now := 0

/-- `Notify::notify_one`: wake the waiter, or keep a permit. -/
def notifyOne (s : Watch) : Watch :=
  match s.watcher with
  | .firstParked => { s with watcher := .first }
  | .parked => { s with watcher := .look }
  | _ => { s with permit := true }

inductive Label where
  /-- `attach_or_create`, up to its notification. -/
  | attachOrCreate (id : String) (fresh : ChannelId)
  | notifyCreated
  /-- `remove`, up to its notification. -/
  | remove (id : String)
  | notifyRemoved
  | elapse (ms : Nat)
  | watch
deriving DecidableEq, Repr

/-- The watcher takes a permit or parks. -/
def await (s : Watch) (resumed waiting : WatcherAt) : Watch :=
  if s.permit then { s with permit := false, watcher := resumed } else { s with watcher := waiting }

/-- One step of `wait_until_idle`.  A look takes the lock. -/
def watch (grace : Nat) (s : Watch) : Option Watch :=
  match s.watcher with
  | .first =>
      if s.locked then none
      else some { s with watcher := if s.registry.isEmpty then .firstWait else .look }
  | .firstWait => some (s.await .first .firstParked)
  | .firstParked => none
  | .look =>
      if s.locked then none
      else some { s with
        watcher := if s.registry.isEmpty then .sleeping (s.now + grace) else .wait }
  | .sleeping deadline => if deadline ≤ s.now then some { s with watcher := .lookAgain } else none
  | .lookAgain =>
      if s.locked then none
      else some { s with watcher := if s.registry.isEmpty then .returned else .wait }
  | .wait => some (s.await .look .parked)
  | .parked => none
  | .returned => none

def step (grace : Nat) (s : Watch) : Label → Option Watch
  | .attachOrCreate id fresh =>
      if s.locked then none
      else
        match s.registry.attachOrCreate id fresh with
        | (.created _, registry) => some { s with registry, locked := true }
        | (.existing _, registry) | (.rejected, registry) => some { s with registry }
  | .notifyCreated => if s.locked then some { s.notifyOne with locked := false } else none
  | .remove id =>
      if s.locked then none
      else some { s with registry := s.registry.remove id, pending := s.pending + 1 }
  | .notifyRemoved =>
      if 0 < s.pending then some { s.notifyOne with pending := s.pending - 1 } else none
  | .elapse ms => some { s with now := s.now + ms }
  | .watch => s.watch grace

/-- The daemon's table and its watcher as one machine. -/
def machine (grace : Nat) : Machine Watch Label where
  step := step grace

/-- A session is registered. -/
def Busy (s : Watch) : Prop := s.registry.isEmpty = false

/-- No session is registered. -/
def Vacant (s : Watch) : Prop := s.registry.isEmpty = true

instance (s : Watch) : Decidable s.Busy := inferInstanceAs (Decidable (_ = _))

instance (s : Watch) : Decidable s.Vacant := inferInstanceAs (Decidable (_ = _))

/-- The step removes the last session. -/
def Empties (s : Watch) : Label → Prop
  | .remove id => s.Busy ∧ (s.registry.remove id).isEmpty = true
  | _ => False

instance decidableEmpties (s : Watch) : (label : Label) → Decidable (s.Empties label)
  | .remove id => inferInstanceAs (Decidable (s.Busy ∧ (s.registry.remove id).isEmpty = true))
  | .attachOrCreate _ _ | .notifyCreated | .notifyRemoved | .elapse _ | .watch =>
      inferInstanceAs (Decidable False)

variable {grace maxSessions : Nat} {s t : Watch} {labels : List Label} {label : Label}

/-- A busy registry is not vacant. -/
theorem not_vacant_of_busy (h : s.Busy) : ¬ s.Vacant := by
  unfold Busy at h
  unfold Vacant
  rw [h]
  exact Bool.false_ne_true

/-- A registry that is not vacant is busy. -/
theorem busy_of_not_vacant (h : ¬ s.Vacant) : s.Busy := Bool.eq_false_iff.mpr h

/-! ## What a step does -/

/-- A bind changes nothing, or it inserts a session and holds the lock. -/
theorem step_attachOrCreate {id : String} {fresh : ChannelId}
    (h : s.step grace (.attachOrCreate id fresh) = some t) :
    t = s ∨ ∃ registry, registry.isEmpty = false ∧ t = { s with registry, locked := true } := by
  unfold step at h
  by_cases hlocked : s.locked = true
  · simp only [if_pos hlocked] at h
    cases h
  · simp only [if_neg hlocked] at h
    rcases hbind : s.registry.attachOrCreate id fresh with ⟨bind, registry⟩
    rw [hbind] at h
    unfold Registry.attachOrCreate at hbind
    cases hlookup : s.registry.sessions.lookup id with
    | some tx =>
        rw [hlookup] at hbind
        cases hbind
        cases h
        exact Or.inl rfl
    | none =>
        rw [hlookup] at hbind
        simp only at hbind
        split at hbind
        · cases hbind
          cases h
          exact Or.inl rfl
        · cases hbind
          cases h
          refine Or.inr ⟨_, ?_, rfl⟩
          unfold Registry.isEmpty
          rw [Registry.len_insert hlookup]
          simp

/-- The notification leaves the table alone and moves the watcher on if it waits. -/
theorem notifyOne_cases (s : Watch) :
    (s.watcher = .firstParked ∧ s.notifyOne = { s with watcher := .first }) ∨
      (s.watcher = .parked ∧ s.notifyOne = { s with watcher := .look }) ∨
      (s.watcher.isParked = false ∧ s.notifyOne = { s with permit := true }) := by
  unfold notifyOne
  cases s.watcher with
  | firstParked => exact Or.inl ⟨rfl, rfl⟩
  | parked => exact Or.inr (Or.inl ⟨rfl, rfl⟩)
  | first | firstWait | look | sleeping _ | lookAgain | wait | returned =>
      exact Or.inr (Or.inr ⟨rfl, rfl⟩)

/-- Everything the watcher can do. -/
inductive Moves (grace : Nat) (s : Watch) : WatcherAt → Bool → WatcherAt → Prop
  | firstEmpty (h : s.Vacant) : Moves grace s .first s.permit .firstWait
  | firstSeen (h : s.Busy) : Moves grace s .first s.permit .look
  | firstResume (h : s.permit = true) : Moves grace s .firstWait false .first
  | firstPark (h : s.permit = false) : Moves grace s .firstWait s.permit .firstParked
  | lookEmpty (h : s.Vacant) : Moves grace s .look s.permit (.sleeping (s.now + grace))
  | lookBusy (h : s.Busy) : Moves grace s .look s.permit .wait
  | wake (deadline : Nat) (h : deadline ≤ s.now) :
      Moves grace s (.sleeping deadline) s.permit .lookAgain
  | again (h : s.Vacant) : Moves grace s .lookAgain s.permit .returned
  | againBusy (h : s.Busy) : Moves grace s .lookAgain s.permit .wait
  | resume (h : s.permit = true) : Moves grace s .wait false .look
  | park (h : s.permit = false) : Moves grace s .wait s.permit .parked

/-- A step of the watcher changes its position and the permit only. -/
theorem watch_cases (h : s.watch grace = some t) :
    ∃ permit watcher, Moves grace s s.watcher permit watcher ∧
      t = { s with permit, watcher } := by
  have hlook : ∀ (p q : WatcherAt), (s.Vacant → Moves grace s s.watcher s.permit p) →
      (s.Busy → Moves grace s s.watcher s.permit q) →
      (if s.locked then none
        else some { s with watcher := if s.registry.isEmpty then p else q }) = some t →
      ∃ permit watcher, Moves grace s s.watcher permit watcher ∧ t = { s with permit, watcher } := by
    intro p q hp hq hsome
    split at hsome
    · cases hsome
    · cases hsome
      by_cases hvacant : s.registry.isEmpty = true
      · exact ⟨s.permit, p, hp hvacant, by rw [if_pos hvacant]⟩
      · exact ⟨s.permit, q, hq (busy_of_not_vacant hvacant), by rw [if_neg hvacant]⟩
  have hawait : ∀ (p q : WatcherAt), (s.permit = true → Moves grace s s.watcher false p) →
      (s.permit = false → Moves grace s s.watcher s.permit q) → some (s.await p q) = some t →
      ∃ permit watcher, Moves grace s s.watcher permit watcher ∧ t = { s with permit, watcher } := by
    intro p q hp hq hsome
    cases hsome
    unfold await
    by_cases hpermit : s.permit = true
    · exact ⟨false, p, hp hpermit, by rw [if_pos hpermit]⟩
    · exact ⟨s.permit, q, hq (Bool.eq_false_iff.mpr hpermit), by rw [if_neg hpermit]⟩
  unfold watch at h
  cases hat : s.watcher with
  | first =>
      rw [hat] at h hlook
      exact hlook _ _ .firstEmpty .firstSeen h
  | firstWait =>
      rw [hat] at h hawait
      exact hawait _ _ .firstResume .firstPark h
  | firstParked =>
      rw [hat] at h
      cases h
  | look =>
      rw [hat] at h hlook
      exact hlook _ _ .lookEmpty .lookBusy h
  | sleeping deadline =>
      rw [hat] at h
      simp only at h
      split at h
      · rename_i hdue
        cases h
        exact ⟨s.permit, .lookAgain, .wake deadline hdue, rfl⟩
      · cases h
  | lookAgain =>
      rw [hat] at h hlook
      exact hlook _ _ .again .againBusy h
  | wait =>
      rw [hat] at h hawait
      exact hawait _ _ .resume .park h
  | parked =>
      rw [hat] at h
      cases h
  | returned =>
      rw [hat] at h
      cases h

/-- Everything a step can be. -/
theorem step_cases (h : s.step grace label = some t) :
    (t = s) ∨
      (∃ registry, registry.isEmpty = false ∧ t = { s with registry, locked := true }) ∨
      (s.locked = true ∧ t = { s.notifyOne with locked := false }) ∨
      (∃ id, label = .remove id ∧ s.locked = false ∧
        t = { s with registry := s.registry.remove id, pending := s.pending + 1 }) ∨
      (0 < s.pending ∧ t = { s.notifyOne with pending := s.pending - 1 }) ∨
      (∃ ms, t = { s with now := s.now + ms }) ∨
      (label = .watch ∧ ∃ permit watcher, Moves grace s s.watcher permit watcher ∧
        t = { s with permit, watcher }) := by
  cases label with
  | attachOrCreate id fresh =>
      rcases step_attachOrCreate h with hsame | hcreated
      · exact Or.inl hsame
      · exact Or.inr (Or.inl hcreated)
  | notifyCreated =>
      simp only [step] at h
      split at h
      · rename_i hlocked
        cases h
        exact Or.inr (Or.inr (Or.inl ⟨hlocked, rfl⟩))
      · cases h
  | remove id =>
      simp only [step] at h
      split at h
      · cases h
      · rename_i hlocked
        cases h
        exact Or.inr (Or.inr (Or.inr (Or.inl ⟨id, rfl, Bool.eq_false_iff.mpr hlocked, rfl⟩)))
  | notifyRemoved =>
      simp only [step] at h
      split at h
      · rename_i hpending
        cases h
        exact Or.inr (Or.inr (Or.inr (Or.inr (Or.inl ⟨hpending, rfl⟩))))
      · cases h
  | elapse ms =>
      cases h
      exact Or.inr (Or.inr (Or.inr (Or.inr (Or.inr (Or.inl ⟨ms, rfl⟩)))))
  | watch =>
      exact Or.inr (Or.inr (Or.inr (Or.inr (Or.inr (Or.inr ⟨rfl, watch_cases h⟩)))))

/-- A table that a removal does not empty was empty before it if it is after. -/
theorem vacant_of_not_empties {id : String} (h : ¬ s.Empties (.remove id))
    (hvacant : (s.registry.remove id).isEmpty = true) : s.Vacant := by
  by_contra hbusy
  exact h ⟨busy_of_not_vacant hbusy, hvacant⟩

/-! ## The grace -/

/-- No removal empties the registry between the watcher's two looks. -/
def GraceKept (s : Watch) (label : Label) : Prop := s.watcher.inGrace = true → ¬ s.Empties label

instance (s : Watch) (label : Label) : Decidable (s.GraceKept label) :=
  inferInstanceAs (Decidable (_ → _))

/-- What the watcher knows in such a run: it has seen a session once it is in its
second loop, and if the table is empty between its two looks then it has been empty
since the first. -/
structure Watched (grace maxSessions : Nat) (labels : List Label) (s : Watch) : Prop where
  seen : s.watcher.inFirstLoop = false → (machine grace).Sometime Busy (start maxSessions) labels
  asleep : ∀ deadline, s.watcher = .sleeping deadline → s.Vacant →
    (machine grace).Since (fun u => u.now + grace ≤ deadline) Vacant (start maxSessions) labels
  again : s.watcher = .lookAgain → s.Vacant →
    (machine grace).Since (fun u => u.now + grace ≤ s.now) Vacant (start maxSessions) labels

/-- Outside the grace there is only the first loop to speak of. -/
theorem watched_awake (hawake : s.watcher.inGrace = false)
    (hseen : s.watcher.inFirstLoop = false →
      (machine grace).Sometime Busy (start maxSessions) labels) :
    Watched grace maxSessions labels s := by
  refine ⟨hseen, ?_, ?_⟩
  · intro deadline hsleep
    rw [hsleep] at hawake
    cases hawake
  · intro hagain
    rw [hagain] at hawake
    cases hawake

/-- The watcher stays where it is, or leaves its wait, and an empty table was empty
before the step. -/
theorem Watched.stay (hw : Watched grace maxSessions labels s)
    (hrun : (machine grace).run (start maxSessions) labels = some s)
    (hstep : (machine grace).step s label = some t) (hnow : s.now ≤ t.now)
    (hwatcher : t.watcher = s.watcher ∨ (s.watcher = .firstParked ∧ t.watcher = .first) ∨
      (s.watcher = .parked ∧ t.watcher = .look))
    (hvacant : s.watcher.inGrace = true → t.Vacant → s.Vacant) :
    Watched grace maxSessions (labels ++ [label]) t := by
  have hsnoc := (machine grace).run_snoc_eq_some.mpr ⟨s, hrun, hstep⟩
  have hseen : s.watcher.inFirstLoop = false →
      (machine grace).Sometime Busy (start maxSessions) (labels ++ [label]) := by
    intro h
    exact ((machine grace).sometime_snoc hsnoc).mpr (Or.inl (hw.seen h))
  rcases hwatcher with hsame | ⟨hfrom, hto⟩ | ⟨hfrom, hto⟩
  · refine ⟨?_, ?_, ?_⟩
    · rw [hsame]
      exact hseen
    · intro deadline hsleep hempty
      rw [hsame] at hsleep
      have hbefore := hvacant (by rw [hsleep]; rfl) hempty
      exact (machine grace).since_snoc (hw.asleep deadline hsleep hbefore) hrun hstep hempty
    · intro hagain hempty
      rw [hsame] at hagain
      have hbefore := hvacant (by rw [hagain]; rfl) hempty
      have hsince := (hw.again hagain hbefore).mono
        (R := fun u => u.now + grace ≤ t.now) fun u hu => Nat.le_trans hu hnow
      exact (machine grace).since_snoc hsince hrun hstep hempty
  · refine watched_awake (by rw [hto]; rfl) ?_
    rw [hto]
    exact fun h => absurd h Bool.noConfusion
  · exact watched_awake (by rw [hto]; rfl) (fun _ => hseen (by rw [hfrom]; rfl))

/-- The watcher's own steps. -/
theorem Watched.watch (hw : Watched grace maxSessions labels s)
    (hrun : (machine grace).run (start maxSessions) labels = some s) {permit : Bool}
    {watcher : WatcherAt} (hmoves : Moves grace s s.watcher permit watcher)
    (hstep : (machine grace).step s label = some { s with permit, watcher }) :
    Watched grace maxSessions (labels ++ [label]) { s with permit, watcher } := by
  have hsnoc := (machine grace).run_snoc_eq_some.mpr ⟨s, hrun, hstep⟩
  have hseen : (machine grace).Sometime Busy (start maxSessions) labels →
      (machine grace).Sometime Busy (start maxSessions) (labels ++ [label]) :=
    fun h => ((machine grace).sometime_snoc hsnoc).mpr (Or.inl h)
  generalize hat : s.watcher = position at hmoves
  have hbefore : position.inFirstLoop = false →
      (machine grace).Sometime Busy (start maxSessions) (labels ++ [label]) := by
    intro h
    exact hseen (hw.seen (by rw [hat]; exact h))
  cases hmoves with
  | firstEmpty _ | firstResume _ | firstPark _ =>
      exact watched_awake rfl (fun h => absurd h Bool.noConfusion)
  | firstSeen hbusy =>
      exact watched_awake rfl (fun _ => hseen (Machine.Sometime.here hrun hbusy))
  | lookEmpty hvacant =>
      refine ⟨fun _ => hbefore rfl, ?_, ?_⟩
      · intro deadline hdeadline hempty
        cases hdeadline
        have hhere := Machine.Since.here (M := machine grace)
          (P := fun u => u.now + grace ≤ s.now + grace) hrun (Nat.le_refl _) hvacant
        exact (machine grace).since_snoc hhere hrun hstep hempty
      · intro h
        cases h
  | wake deadline hdue =>
      refine ⟨fun _ => hbefore rfl, ?_, ?_⟩
      · intro _ h
        cases h
      · intro _ hempty
        have hsince := (hw.asleep deadline hat hempty).mono
          (R := fun u => u.now + grace ≤ s.now) fun u hu => Nat.le_trans hu hdue
        exact (machine grace).since_snoc hsince hrun hstep hempty
  | lookBusy _ | again _ | againBusy _ | resume _ | park _ =>
      exact watched_awake rfl (fun _ => hbefore rfl)

/-- A notification moves the watcher on where it is parked. -/
theorem notifyOne_watcher (s : Watch) :
    s.notifyOne.watcher = s.watcher ∨ (s.watcher = .firstParked ∧ s.notifyOne.watcher = .first) ∨
      (s.watcher = .parked ∧ s.notifyOne.watcher = .look) := by
  rcases notifyOne_cases s with ⟨hat, heq⟩ | ⟨hat, heq⟩ | ⟨-, heq⟩
  · exact Or.inr (Or.inl ⟨hat, by rw [heq]⟩)
  · exact Or.inr (Or.inr ⟨hat, by rw [heq]⟩)
  · exact Or.inl (by rw [heq])

/-- A notification touches nothing else. -/
theorem notifyOne_table (s : Watch) :
    s.notifyOne.registry = s.registry ∧ s.notifyOne.now = s.now ∧
      s.notifyOne.pending = s.pending ∧ s.notifyOne.locked = s.locked := by
  rcases notifyOne_cases s with ⟨-, heq⟩ | ⟨-, heq⟩ | ⟨-, heq⟩
  · exact ⟨by rw [heq], by rw [heq], by rw [heq], by rw [heq]⟩
  · exact ⟨by rw [heq], by rw [heq], by rw [heq], by rw [heq]⟩
  · exact ⟨by rw [heq], by rw [heq], by rw [heq], by rw [heq]⟩

/-- A step that keeps the grace keeps the watch. -/
theorem watched_step (hrun : (machine grace).run (start maxSessions) labels = some s)
    (hw : Watched grace maxSessions labels s) (hok : s.GraceKept label)
    (hstep : (machine grace).step s label = some t) :
    Watched grace maxSessions (labels ++ [label]) t := by
  obtain ⟨hregistry, hnow, -, -⟩ := notifyOne_table s
  rcases step_cases hstep with rfl | ⟨registry, hbusy, rfl⟩ | ⟨-, rfl⟩ | ⟨id, rfl, -, rfl⟩ |
    ⟨-, rfl⟩ | ⟨ms, rfl⟩ | ⟨-, permit, watcher, hmoves, rfl⟩
  · exact hw.stay hrun hstep (Nat.le_refl _) (Or.inl rfl) (fun _ => id)
  · exact hw.stay hrun hstep (Nat.le_refl _) (Or.inl rfl)
      (fun _ hvacant => absurd hvacant (not_vacant_of_busy hbusy))
  · refine hw.stay hrun hstep (Nat.le_of_eq hnow.symm) (notifyOne_watcher s) ?_
    intro _ hvacant
    change s.notifyOne.registry.isEmpty = true at hvacant
    rw [hregistry] at hvacant
    exact hvacant
  · exact hw.stay hrun hstep (Nat.le_refl _) (Or.inl rfl)
      (fun hgrace hvacant => vacant_of_not_empties (hok hgrace) hvacant)
  · refine hw.stay hrun hstep (Nat.le_of_eq hnow.symm) (notifyOne_watcher s) ?_
    intro _ hvacant
    change s.notifyOne.registry.isEmpty = true at hvacant
    rw [hregistry] at hvacant
    exact hvacant
  · exact hw.stay hrun hstep (Nat.le_add_right _ _) (Or.inl rfl) (fun _ => id)
  · exact hw.watch hrun hmoves hstep

/-- Only the second look returns, and it returns on an empty table. -/
theorem returned_cases (hstep : (machine grace).step s label = some t)
    (hbefore : s.watcher ≠ .returned) (hreturned : t.watcher = .returned) :
    s.watcher = .lookAgain ∧ s.Vacant := by
  have hnotified : s.notifyOne.watcher ≠ .returned := by
    rcases notifyOne_watcher s with h | ⟨-, h⟩ | ⟨-, h⟩
    · rw [h]
      exact hbefore
    · rw [h]
      simp
    · rw [h]
      simp
  rcases step_cases hstep with rfl | ⟨registry, -, rfl⟩ | ⟨-, rfl⟩ | ⟨id, -, -, rfl⟩ |
    ⟨-, rfl⟩ | ⟨ms, rfl⟩ | ⟨-, permit, watcher, hmoves, rfl⟩
  · exact absurd hreturned hbefore
  · exact absurd hreturned hbefore
  · exact absurd hreturned hnotified
  · exact absurd hreturned hbefore
  · exact absurd hreturned hnotified
  · exact absurd hreturned hbefore
  · change watcher = .returned at hreturned
    subst hreturned
    generalize hat : s.watcher = position at hmoves
    cases hmoves with
    | again hvacant => exact ⟨rfl, hvacant⟩

/-- In every run in which no removal empties the registry between the watcher's two
looks: when `wait_until_idle` returns, a session has been registered, and from some
state at least the grace ago on the registry has been empty in every state. -/
theorem returns_after_grace (grace maxSessions : Nat) (labels : List Label) (w v : Watch)
    (label : Label) (hrun : (machine grace).run (start maxSessions) labels = some w)
    (halong : (machine grace).Along GraceKept (start maxSessions) labels)
    (hstep : (machine grace).step w label = some v) (hbefore : w.watcher ≠ .returned)
    (hreturned : v.watcher = .returned) :
    (machine grace).Sometime Busy (start maxSessions) labels ∧
      (machine grace).Since (fun u => u.now + grace ≤ w.now) Vacant (start maxSessions) labels := by
  have hstart : Watched grace maxSessions [] (start maxSessions) :=
    watched_awake rfl (fun h => absurd h Bool.noConfusion)
  have hw : Watched grace maxSessions labels w :=
    (machine grace).trail_induct (motive := Watched grace maxSessions) hstart
      (fun _ _ _ _ hrun hw hok hstep => watched_step hrun hw hok hstep) halong hrun
  obtain ⟨hagain, hvacant⟩ := returned_cases hstep hbefore hreturned
  exact ⟨hw.seen (by rw [hagain]; rfl), hw.again hagain hvacant⟩

/-- A session comes and goes, and the daemon is idle for the grace. -/
def idleDay : List Label :=
  [.attachOrCreate "a" 0, .notifyCreated, .watch, .elapse 40, .remove "a", .watch, .notifyRemoved,
    .elapse 10, .watch]

/-- The watcher returns after ten idle milliseconds. -/
theorem returns_after_grace_idleDay :
    ∃ w v, (machine 10).run (start 256) idleDay = some w ∧
      (machine 10).step w .watch = some v ∧ v.watcher = .returned ∧
      (machine 10).Since (fun u => u.now + 10 ≤ w.now) Vacant (start 256) idleDay := by
  have hsome : ((machine 10).run (start 256) (idleDay ++ [.watch])).isSome = true := by
    decide +kernel
  have hend : ∀ v ∈ (machine 10).run (start 256) (idleDay ++ [.watch]),
      v.watcher = .returned := by
    decide +kernel
  have hstill : ∀ w ∈ (machine 10).run (start 256) idleDay, w.watcher ≠ .returned := by
    decide +kernel
  obtain ⟨v, hv⟩ := Option.isSome_iff_exists.mp hsome
  obtain ⟨w, hw, hstep⟩ := (machine 10).run_snoc_eq_some.mp hv
  exact ⟨w, v, hw, hstep, hend v hv,
    (returns_after_grace 10 256 idleDay w v .watch hw (by decide +kernel) hstep (hstill w hw)
      (hend v hv)).2⟩

/-- Another session comes and goes within the grace. -/
def shortVisit : List Label :=
  [.attachOrCreate "a" 0, .notifyCreated, .watch, .remove "a", .watch, .notifyRemoved,
    .elapse 5, .attachOrCreate "b" 1, .notifyCreated, .remove "b", .notifyRemoved, .elapse 5, .watch]

/-- The watcher returns although a session was registered half the grace ago. -/
theorem returns_within_grace :
    ∃ w v, (machine 10).run (start 256) shortVisit = some w ∧
      (machine 10).step w .watch = some v ∧ w.watcher ≠ .returned ∧ v.watcher = .returned ∧
      w.now = 10 ∧
      ¬ (machine 10).Since (fun u => u.now + 10 ≤ w.now) Vacant (start 256) shortVisit := by
  have hsome : ((machine 10).run (start 256) (shortVisit ++ [.watch])).isSome = true := by
    decide +kernel
  have hend : ∀ v ∈ (machine 10).run (start 256) (shortVisit ++ [.watch]),
      v.watcher = .returned := by
    decide +kernel
  have hstill : ∀ w ∈ (machine 10).run (start 256) shortVisit,
      w.watcher ≠ .returned ∧ w.now = 10 := by
    decide +kernel
  have hnever : ¬ (machine 10).Since (fun u => u.now + 10 ≤ 10) Vacant (start 256) shortVisit := by
    decide +kernel
  obtain ⟨v, hv⟩ := Option.isSome_iff_exists.mp hsome
  obtain ⟨w, hw, hstep⟩ := (machine 10).run_snoc_eq_some.mp hv
  obtain ⟨hnot, hnow⟩ := hstill w hw
  refine ⟨w, v, hw, hstep, hnot, hend v hv, hnow, ?_⟩
  rw [hnow]
  exact hnever

/-! ## Lost notifications -/

/-- No removal empties the registry while the watcher is in its first loop. -/
def FirstKept (s : Watch) (label : Label) : Prop :=
  s.watcher.inFirstLoop = true → ¬ s.Empties label

instance (s : Watch) (label : Label) : Decidable (s.FirstKept label) :=
  inferInstanceAs (Decidable (_ → _))

/-- The watcher waits on an empty table and nothing will wake it, although a session
has been registered. -/
structure Stuck (grace maxSessions : Nat) (labels : List Label) (s : Watch) : Prop where
  registered : (machine grace).Sometime Busy (start maxSessions) labels
  vacant : s.Vacant
  unlocked : s.locked = false
  announced : s.pending = 0
  spent : s.permit = false
  parked : s.watcher.isParked = true

/-- What the watcher waits for is announced: a locked table is not empty; in the
first loop an empty table has never had a session; and if the watcher waits, or is
about to, in its second loop on an empty table, a removal has still to notify or a
permit is kept. -/
structure Announced (grace maxSessions : Nat) (labels : List Label) (s : Watch) : Prop where
  locked : s.locked = true → s.Busy
  fresh : s.watcher.inFirstLoop = true → s.Vacant →
    ¬ (machine grace).Sometime Busy (start maxSessions) labels
  waiting : s.watcher = .wait → s.Vacant → s.permit = true ∨ 0 < s.pending
  parked : s.watcher = .parked → s.Vacant → 0 < s.pending

/-- Outside its waits there is only the first loop to speak of. -/
theorem announced_awake (hlocked : s.locked = true → s.Busy)
    (hfresh : s.watcher.inFirstLoop = true → s.Vacant →
      ¬ (machine grace).Sometime Busy (start maxSessions) labels)
    (hwait : s.watcher ≠ .wait) (hparked : s.watcher ≠ .parked) :
    Announced grace maxSessions labels s :=
  ⟨hlocked, hfresh, fun h => absurd h hwait, fun h => absurd h hparked⟩

/-- On a table that is not empty there is nothing to announce. -/
theorem announced_busy (h : s.Busy) : Announced grace maxSessions labels s :=
  ⟨fun _ => h, fun _ hvacant => absurd hvacant (not_vacant_of_busy h),
    fun _ hvacant => absurd hvacant (not_vacant_of_busy h),
    fun _ hvacant => absurd hvacant (not_vacant_of_busy h)⟩

/-- The watcher's own steps. -/
theorem Announced.watch (hw : Announced grace maxSessions labels s) {permit : Bool}
    {watcher : WatcherAt} (hmoves : Moves grace s s.watcher permit watcher)
    (hfresh : s.watcher.inFirstLoop = true → s.Vacant →
      ¬ (machine grace).Sometime Busy (start maxSessions) (labels ++ [label])) :
    Announced grace maxSessions (labels ++ [label]) { s with permit, watcher } := by
  generalize hat : s.watcher = position at hmoves
  rw [hat] at hfresh
  cases hmoves with
  | firstEmpty _ | firstResume _ | firstPark _ =>
      exact announced_awake hw.locked (fun _ => hfresh rfl) (by simp) (by simp)
  | firstSeen _ | lookEmpty _ | wake _ _ | again _ | resume _ =>
      exact announced_awake hw.locked (fun h => absurd h Bool.noConfusion) (by simp) (by simp)
  | lookBusy hbusy => exact announced_busy hbusy
  | againBusy hbusy => exact announced_busy hbusy
  | park hspent =>
      refine ⟨hw.locked, fun h => absurd h Bool.noConfusion, fun h => ?_, ?_⟩
      · cases h
      · intro _ hvacant
        rcases hw.waiting hat hvacant with hpermit | hpending
        · rw [hspent] at hpermit
          cases hpermit
        · exact hpending

/-- A notification that follows a removal. -/
theorem Announced.notifyRemoved (hw : Announced grace maxSessions labels s)
    (hfresh : s.watcher.inFirstLoop = true → s.Vacant →
      ¬ (machine grace).Sometime Busy (start maxSessions) (labels ++ [label])) :
    Announced grace maxSessions (labels ++ [label])
      { s.notifyOne with pending := s.pending - 1 } := by
  rcases notifyOne_cases s with ⟨hat, heq⟩ | ⟨hat, heq⟩ | ⟨hat, heq⟩
  · rw [heq]
    exact announced_awake hw.locked (fun _ => hfresh (by rw [hat]; rfl)) (by simp) (by simp)
  · rw [heq]
    exact announced_awake hw.locked (fun h => absurd h Bool.noConfusion) (by simp) (by simp)
  · rw [heq]
    refine ⟨hw.locked, hfresh, fun _ _ => Or.inl rfl, ?_⟩
    intro hparked
    change s.watcher = .parked at hparked
    rw [hparked] at hat
    cases hat

/-- A step in order keeps every change announced. -/
theorem announced_step (hrun : (machine grace).run (start maxSessions) labels = some s)
    (hw : Announced grace maxSessions labels s) (hok : s.FirstKept label)
    (hstep : (machine grace).step s label = some t) :
    Announced grace maxSessions (labels ++ [label]) t := by
  have hsnoc := (machine grace).run_snoc_eq_some.mpr ⟨s, hrun, hstep⟩
  -- In the first loop nothing was registered before the step, and the step registers nothing.
  have hfresh : t.Vacant → s.watcher.inFirstLoop = true → s.Vacant →
      ¬ (machine grace).Sometime Busy (start maxSessions) (labels ++ [label]) := by
    intro hstill hfirst hvacant hbusy
    rcases ((machine grace).sometime_snoc hsnoc).mp hbusy with hbefore | hnow
    · exact hw.fresh hfirst hvacant hbefore
    · exact not_vacant_of_busy hnow hstill
  have hregistry := (notifyOne_table s).1
  rcases step_cases hstep with rfl | ⟨registry, hbusy, rfl⟩ | ⟨hlocked, rfl⟩ |
    ⟨id, rfl, hunlocked, rfl⟩ | ⟨-, rfl⟩ | ⟨ms, rfl⟩ | ⟨-, permit, watcher, hmoves, rfl⟩
  · exact ⟨hw.locked, fun hfirst hvacant => hfresh hvacant hfirst hvacant, hw.waiting, hw.parked⟩
  · exact announced_busy hbusy
  · refine announced_busy ?_
    change s.notifyOne.registry.isEmpty = false
    rw [hregistry]
    exact hw.locked hlocked
  · refine ⟨fun h => ?_, ?_, fun _ _ => Or.inr (Nat.succ_pos _), fun _ _ => Nat.succ_pos _⟩
    · change s.locked = true at h
      rw [hunlocked] at h
      cases h
    · intro hfirst hvacant
      exact hfresh hvacant hfirst (vacant_of_not_empties (hok hfirst) hvacant)
  · refine hw.notifyRemoved fun hfirst hvacant => hfresh ?_ hfirst hvacant
    change s.notifyOne.registry.isEmpty = true
    rw [hregistry]
    exact hvacant
  · exact ⟨hw.locked, fun hfirst hvacant => hfresh hvacant hfirst hvacant, hw.waiting, hw.parked⟩
  · exact hw.watch hmoves fun hfirst hvacant => hfresh hvacant hfirst hvacant

/-- In every run in which no removal empties the registry before the watcher has seen
a session, no state is stuck. -/
theorem never_stuck (grace maxSessions : Nat) (labels : List Label) (w : Watch)
    (hrun : (machine grace).run (start maxSessions) labels = some w)
    (halong : (machine grace).Along FirstKept (start maxSessions) labels) :
    ¬ Stuck grace maxSessions labels w := by
  have hstart : Announced grace maxSessions [] (start maxSessions) := by
    refine announced_awake (fun h => absurd h Bool.noConfusion) ?_ (by simp [start])
      (by simp [start])
    intro _ hvacant hbusy
    exact not_vacant_of_busy ((machine grace).sometime_nil.mp hbusy) hvacant
  have hw : Announced grace maxSessions labels w :=
    (machine grace).trail_induct (motive := Announced grace maxSessions) hstart
      (fun _ _ _ _ hrun hw hok hstep => announced_step hrun hw hok hstep) halong hrun
  intro hstuck
  have hparked := hstuck.parked
  cases hat : w.watcher with
  | firstParked => exact hw.fresh (by rw [hat]; rfl) hstuck.vacant hstuck.registered
  | parked =>
      have hpending := hw.parked hat hstuck.vacant
      rw [hstuck.announced] at hpending
      exact Nat.lt_irrefl 0 hpending
  | first | firstWait | look | sleeping _ | lookAgain | wait | returned =>
      rw [hat] at hparked
      cases hparked

/-- The watcher sees a session, and then the session goes. -/
def seenSession : List Label :=
  [.watch, .watch, .attachOrCreate "a" 0, .notifyCreated, .watch, .watch, .watch, .remove "a",
    .notifyRemoved]

/-- The watcher looks at the empty registry. -/
theorem never_stuck_seenSession :
    ∃ w, (machine 10).run (start 256) seenSession = some w ∧ w.watcher = .look ∧ w.Vacant ∧
      ¬ Stuck 10 256 seenSession w := by
  have hsome : ((machine 10).run (start 256) seenSession).isSome = true := by decide +kernel
  have hend : ∀ w ∈ (machine 10).run (start 256) seenSession, w.watcher = .look ∧ w.Vacant := by
    decide +kernel
  obtain ⟨w, hw⟩ := Option.isSome_iff_exists.mp hsome
  obtain ⟨hlook, hvacant⟩ := hend w hw
  exact ⟨w, hw, hlook, hvacant, never_stuck 10 256 seenSession w hw (by decide +kernel)⟩

/-- A session is created and removed before the watcher looks, as when its open fails
at once. -/
def unseenSession : List Label :=
  [.watch, .watch, .attachOrCreate "a" 0, .notifyCreated, .remove "a", .notifyRemoved, .watch,
    .watch, .watch, .watch]

/-- The watcher waits for ever on the empty registry. -/
theorem stuck_after_unseenSession :
    ∃ w, (machine 10).run (start 256) unseenSession = some w ∧ Stuck 10 256 unseenSession w := by
  have hsome : ((machine 10).run (start 256) unseenSession).isSome = true := by decide +kernel
  have hend : ∀ w ∈ (machine 10).run (start 256) unseenSession,
      w.Vacant ∧ w.locked = false ∧ w.pending = 0 ∧ w.permit = false ∧
        w.watcher.isParked = true := by
    decide +kernel
  have hregistered : (machine 10).Sometime Busy (start 256) unseenSession := by decide +kernel
  obtain ⟨w, hw⟩ := Option.isSome_iff_exists.mp hsome
  obtain ⟨hvacant, hunlocked, hannounced, hspent, hparked⟩ := hend w hw
  exact ⟨w, hw, hregistered, hvacant, hunlocked, hannounced, hspent, hparked⟩

end Watch

end JftermMuxer.Daemon
