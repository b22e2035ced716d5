import JftermMuxer.Daemon.Registry
import JftermMuxer.Daemon.Session

/-!
# The answer to LIST

{lit}`collect_sessions` of {lit}`jftermd/src/server.rs`.  Every registered actor
is asked first; the replies are then awaited one after the other, in the order of
the handles, by a future that a single timeout cancels.

Main results:

- Theorem {lit}`collectSessions_eq`: the answer is what has arrived up to the
  first reply that has not.
- Theorem {lit}`mem_answeredInTime`: each of these replies comes from the actor behind
  a handle.
- Theorem {lit}`collectSessions_complete_iff`: the answer holds every reply that
  has arrived exactly if no awaited reply stands before an arrived one.
-/

namespace JftermMuxer.Daemon

/-! ## Handles -/

/-- All pairs of the table, in some order: the iteration of a hash map promises none. -/
def Registry.Handles (r : Registry) (handles : List (String × ChannelId)) : Prop :=
  handles.Perm (r.sessions.entries.map fun e => (e.1, e.2))

/-! ## Replies -/

/-- The receiving end of the one-shot reply of an `Info` command, with the time at
which it resolves. -/
inductive ReplyRx where
  /-- The actor keeps the sender and does not use it. -/
  | silent
  /-- The actor drops the sender unused. -/
  | dropped (time : Nat)
  | answered (time : Nat) (info : SessionInfo)
deriving DecidableEq

namespace ReplyRx

/-- The reply, if it has arrived. -/
def repliedBy (now : Nat) : ReplyRx → Option SessionInfo
  | .silent | .dropped _ => none
  | .answered time info => if time ≤ now then some info else none

/-- Awaiting the receiver does not return yet. -/
def pendingAt (now : Nat) : ReplyRx → Bool
  | .silent => true
  | .dropped time => decide (now < time)
  | .answered time _ => decide (now < time)

/-- A reply that is still awaited has not arrived. -/
theorem repliedBy_of_pendingAt {now : Nat} {rx : ReplyRx} (h : rx.pendingAt now = true) :
    rx.repliedBy now = none := by
  cases rx with
  | silent => rfl
  | dropped time => rfl
  | answered time info =>
      have hlate : now < time := of_decide_eq_true h
      exact if_neg (by omega)

/-- What has resolved stays resolved. -/
theorem pendingAt_mono {now later : Nat} (hle : now ≤ later) {rx : ReplyRx}
    (h : rx.pendingAt now = false) : rx.pendingAt later = false := by
  cases rx with
  | silent => cases h
  | dropped time =>
      have htime : ¬ now < time := of_decide_eq_false h
      exact decide_eq_false (by omega)
  | answered time info =>
      have htime : ¬ now < time := of_decide_eq_false h
      exact decide_eq_false (by omega)

/-- A reply does not change once it is there. -/
theorem repliedBy_mono {now later : Nat} (hle : now ≤ later) {rx : ReplyRx}
    (h : rx.pendingAt now = false) : rx.repliedBy later = rx.repliedBy now := by
  cases rx with
  | silent => cases h
  | dropped time => rfl
  | answered time info =>
      have htime : ¬ now < time := of_decide_eq_false h
      have hnow : time ≤ now := by omega
      have hlater : time ≤ later := by omega
      simp only [repliedBy, if_pos hnow, if_pos hlater]

end ReplyRx

/-! ## The collection -/

/-- What an actor does with `Info`: its send fails, or there is a reply to await. -/
abbrev InfoReplies := ChannelId → Option ReplyRx

/-- One poll of the collecting future: it goes on to the first receiver that is not
resolved, and pushes the replies on the way. -/
def pollReplies (now : Nat) : List ReplyRx → List SessionInfo → List ReplyRx × List SessionInfo
  | [], out => ([], out)
  | rx :: rxs, out =>
      if rx.pendingAt now then (rx :: rxs, out)
      else
        match rx.repliedBy now with
        | some info => pollReplies now rxs (out ++ [info])
        | none => pollReplies now rxs out

/-- The collecting future under its timeout: it is polled at each wakeup, the last
time when the deadline fires, and what it has pushed by then is the answer. -/
def collectSessions (replies : InfoReplies) (handles : List (String × ChannelId))
    (wakeups : List Nat) (deadline : Nat) : List SessionInfo :=
  let rxs := handles.filterMap fun h => replies h.2
  ((wakeups ++ [deadline]).foldl (fun s now => pollReplies now s.1 s.2) (rxs, [])).2

/-- A poll takes the replies up to the first one that is awaited. -/
theorem pollReplies_eq (now : Nat) (rxs : List ReplyRx) (out : List SessionInfo) :
    pollReplies now rxs out =
      (rxs.dropWhile fun rx => !rx.pendingAt now,
        out ++ (rxs.takeWhile fun rx => !rx.pendingAt now).filterMap (ReplyRx.repliedBy now)) := by
  induction rxs generalizing out with
  | nil => simp [pollReplies]
  | cons rx rxs ih =>
      cases hpending : rx.pendingAt now with
      | true => simp [pollReplies, hpending]
      | false =>
          cases hreply : rx.repliedBy now with
          | none => simp [pollReplies, hpending, hreply, ih]
          | some info => simp [pollReplies, hpending, hreply, ih]

/-- An earlier poll takes nothing away from a later one. -/
theorem pollReplies_later {now later : Nat} (hle : now ≤ later) (rxs : List ReplyRx)
    (out : List SessionInfo) :
    (pollReplies later (pollReplies now rxs out).1 (pollReplies now rxs out).2) =
      pollReplies later rxs out := by
  induction rxs generalizing out with
  | nil => simp [pollReplies]
  | cons rx rxs ih =>
      cases hpending : rx.pendingAt now with
      | true => simp [pollReplies, hpending]
      | false =>
          have hlater := ReplyRx.pendingAt_mono hle hpending
          have hsame := ReplyRx.repliedBy_mono hle hpending
          cases hreply : rx.repliedBy now with
          | none => simp [pollReplies, hpending, hlater, hsame, hreply, ih]
          | some info => simp [pollReplies, hpending, hlater, hsame, hreply, ih]

/-- A poll that is no later than the one before finds nothing more. -/
theorem pollReplies_earlier {now later : Nat} (hle : now ≤ later) (rxs : List ReplyRx)
    (out : List SessionInfo) :
    (pollReplies now (pollReplies later rxs out).1 (pollReplies later rxs out).2) =
      pollReplies later rxs out := by
  induction rxs generalizing out with
  | nil => simp [pollReplies]
  | cons rx rxs ih =>
      cases hpending : rx.pendingAt later with
      | true =>
          have hbefore : rx.pendingAt now = true := by
            rw [← Bool.not_eq_false]
            intro hresolved
            rw [ReplyRx.pendingAt_mono hle hresolved] at hpending
            cases hpending
          simp [pollReplies, hpending, hbefore]
      | false =>
          cases hreply : rx.repliedBy later with
          | none => simp [pollReplies, hpending, hreply, ih]
          | some info => simp [pollReplies, hpending, hreply, ih]

/-- The latest time at which the collecting future is polled. -/
def lastPoll (wakeups : List Nat) (deadline : Nat) : Nat := wakeups.foldr max deadline

/-- Wakeups that come in time leave the deadline the last poll. -/
theorem lastPoll_eq {wakeups : List Nat} {deadline : Nat} (h : ∀ now ∈ wakeups, now ≤ deadline) :
    lastPoll wakeups deadline = deadline := by
  induction wakeups with
  | nil => rfl
  | cons now wakeups ih =>
      have hrest := ih fun t ht => h t (List.mem_cons_of_mem now ht)
      have hnow : now ≤ deadline := h now List.mem_cons_self
      rw [lastPoll, List.foldr_cons, ← lastPoll, hrest, Nat.max_eq_right hnow]

/-- All polls together find what the latest one finds. -/
theorem foldl_pollReplies (wakeups : List Nat) (deadline : Nat)
    (s : List ReplyRx × List SessionInfo) :
    (wakeups ++ [deadline]).foldl (fun s now => pollReplies now s.1 s.2) s =
      pollReplies (lastPoll wakeups deadline) s.1 s.2 := by
  induction wakeups generalizing s with
  | nil => rfl
  | cons now wakeups ih =>
      rw [List.cons_append, List.foldl_cons, ih, lastPoll, lastPoll, List.foldr_cons, ← lastPoll]
      rcases Nat.le_total now (lastPoll wakeups deadline) with hle | hle
      · rw [pollReplies_later hle, Nat.max_eq_right hle]
      · rw [pollReplies_earlier hle, Nat.max_eq_left hle]

/-- The answer: what has arrived at the last poll, up to the first reply that has not. -/
theorem collectSessions_eq (replies : InfoReplies) (handles : List (String × ChannelId))
    (wakeups : List Nat) (deadline : Nat) :
    collectSessions replies handles wakeups deadline =
      ((handles.filterMap fun h => replies h.2).takeWhile fun rx =>
        !rx.pendingAt (lastPoll wakeups deadline)).filterMap
          (ReplyRx.repliedBy (lastPoll wakeups deadline)) := by
  simp only [collectSessions, foldl_pollReplies]
  rw [pollReplies_eq, List.nil_append]

/-- The replies that have arrived by a time, up to the first one that has not, each with
the channel of its actor. -/
def answeredInTime (replies : InfoReplies) (handles : List (String × ChannelId)) (now : Nat) :
    List (ChannelId × SessionInfo) :=
  ((handles.filterMap fun h => (replies h.2).map (h.2, ·)).takeWhile fun r =>
      !r.2.pendingAt now).filterMap fun r => (r.2.repliedBy now).map (r.1, ·)

/-- The answer lists what these replies say. -/
theorem collectSessions_eq_answeredInTime (replies : InfoReplies)
    (handles : List (String × ChannelId)) (wakeups : List Nat) (deadline : Nat) :
    collectSessions replies handles wakeups deadline =
      (answeredInTime replies handles (lastPoll wakeups deadline)).map Prod.snd := by
  have htagged : (handles.filterMap fun h => replies h.2) =
      (handles.filterMap fun h => (replies h.2).map (h.2, ·)).map Prod.snd := by
    rw [List.map_filterMap]
    simp [Function.comp_def]
  rw [collectSessions_eq, htagged, List.takeWhile_map, List.filterMap_map,
    answeredInTime, List.map_filterMap]
  simp [Function.comp_def]

/-- Each of them was sent by the actor behind a handle. -/
theorem mem_answeredInTime {replies : InfoReplies} {handles : List (String × ChannelId)}
    {now : Nat} {r : ChannelId × SessionInfo} (h : r ∈ answeredInTime replies handles now) :
    ∃ handle ∈ handles, handle.2 = r.1 ∧ ∃ time, replies r.1 = some (.answered time r.2) := by
  obtain ⟨⟨tx, rx⟩, hmem, hreply⟩ := List.mem_filterMap.mp h
  obtain ⟨handle, hhandle, htagged⟩ :=
    List.mem_filterMap.mp ((List.takeWhile_sublist _).subset hmem)
  obtain ⟨rx', hrx, heq⟩ := Option.map_eq_some_iff.mp htagged
  cases heq
  obtain ⟨info, hinfo, rfl⟩ := Option.map_eq_some_iff.mp hreply
  refine ⟨handle, hhandle, rfl, ?_⟩
  cases rx with
  | silent | dropped _ => cases hinfo
  | answered time answer =>
      simp only [ReplyRx.repliedBy, Option.ite_none_right_eq_some, Option.some.injEq] at hinfo
      exact ⟨time, by rw [← hinfo.2]; exact hrx⟩

/-! ## Which replies are lost -/

/-- The replies of the registered actors that have arrived by a time. -/
def arrived (r : Registry) (replies : InfoReplies) (now : Nat) : List SessionInfo :=
  r.sessions.entries.filterMap fun e => (replies e.2).bind (ReplyRx.repliedBy now)

/-- The actor has taken the command and its reply is still awaited. -/
def Awaited (replies : InfoReplies) (now : Nat) (tx : ChannelId) : Prop :=
  ∃ rx, replies tx = some rx ∧ rx.pendingAt now = true

/-- The actor's reply has arrived. -/
def Replied (replies : InfoReplies) (now : Nat) (tx : ChannelId) : Prop :=
  ∃ rx info, replies tx = some rx ∧ rx.repliedBy now = some info

private theorem arrived_perm {r : Registry} {handles : List (String × ChannelId)}
    (h : r.Handles handles) (replies : InfoReplies) (now : Nat) :
    (arrived r replies now).Perm
      ((handles.filterMap fun h => replies h.2).filterMap (ReplyRx.repliedBy now)) := by
  have hperm := (h.filterMap fun h => replies h.2).filterMap (ReplyRx.repliedBy now)
  rw [List.filterMap_map] at hperm
  have harrived : arrived r replies now =
      (r.sessions.entries.filterMap ((fun h => replies h.2) ∘ fun e => (e.1, e.2))).filterMap
        (ReplyRx.repliedBy now) := by
    rw [List.filterMap_filterMap]
    rfl
  rw [harrived]
  exact hperm.symm

private theorem takeWhile_perm_iff (now : Nat) (rxs : List ReplyRx) :
    ((rxs.takeWhile fun rx => !rx.pendingAt now).filterMap (ReplyRx.repliedBy now)).Perm
        (rxs.filterMap (ReplyRx.repliedBy now)) ↔
      rxs.Pairwise fun a b => a.pendingAt now = true → b.repliedBy now = none := by
  induction rxs with
  | nil => simp
  | cons rx rxs ih =>
      rw [List.pairwise_cons]
      cases hpending : rx.pendingAt now with
      | true =>
          have hnone := ReplyRx.repliedBy_of_pendingAt hpending
          have htake : ((rx :: rxs).takeWhile fun rx => !rx.pendingAt now) = [] := by
            simp [hpending]
          rw [htake, List.filterMap_nil, List.nil_perm, List.filterMap_cons_none hnone,
            List.filterMap_eq_nil_iff]
          constructor
          · intro hall
            refine ⟨fun b hb _ => hall b hb, ?_⟩
            exact List.pairwise_of_forall_mem_list fun a _ b hb _ => hall b hb
          · intro hall b hb
            exact hall.1 b hb rfl
      | false =>
          have htake : ((rx :: rxs).takeWhile fun rx => !rx.pendingAt now) =
              rx :: rxs.takeWhile fun rx => !rx.pendingAt now := by
            simp [hpending]
          rw [htake]
          cases hreply : rx.repliedBy now with
          | none =>
              rw [List.filterMap_cons_none hreply, List.filterMap_cons_none hreply, ih]
              simp
          | some info =>
              rw [List.filterMap_cons_some hreply, List.filterMap_cons_some hreply,
                List.perm_cons, ih]
              simp

/-- The answer to LIST is the replies that have arrived when the deadline fires, each
once, exactly if in the order of the handles no awaited reply stands before an
arrived one. -/
theorem collectSessions_complete_iff (r : Registry) (handles : List (String × ChannelId))
    (hhandles : r.Handles handles) (replies : InfoReplies) (wakeups : List Nat) (deadline : Nat)
    (hwakeups : ∀ now ∈ wakeups, now ≤ deadline) :
    (collectSessions replies handles wakeups deadline).Perm (arrived r replies deadline) ↔
      handles.Pairwise fun a b =>
        Awaited replies deadline a.2 → ¬ Replied replies deadline b.2 := by
  rw [collectSessions_eq, lastPoll_eq hwakeups,
    List.Perm.congr_right (arrived_perm hhandles replies deadline), takeWhile_perm_iff,
    List.pairwise_filterMap]
  apply List.Pairwise.iff
  intro a b
  constructor
  · rintro h ⟨rx, hrx, hpending⟩ ⟨rx', info, hrx', hreply⟩
    have hnone := h rx hrx rx' hrx' hpending
    rw [hreply] at hnone
    cases hnone
  · intro h rx hrx rx' hrx' hpending
    cases hreply : rx'.repliedBy deadline with
    | none => rfl
    | some info => exact absurd ⟨rx', info, hrx', hreply⟩ (h ⟨rx, hrx, hpending⟩)

private def infoOf (id : String) : SessionInfo := ⟨id, ["sh"], "/", false, false, 0⟩

private def twoSessions : Registry :=
  ((Registry.new.attachOrCreate "a" 0).2.attachOrCreate "b" 1).2

/-- The first actor hangs, the second has answered after ten milliseconds. -/
private def firstHangs : InfoReplies
  | 0 => some .silent
  | _ => some (.answered 10 (infoOf "b"))

/-- The actors answer one after the other, long before the deadline. -/
private def bothAnswer : InfoReplies
  | 0 => some (.answered 20 (infoOf "a"))
  | _ => some (.answered 10 (infoOf "b"))

/-- Both replies are listed, whatever the order of the handles. -/
theorem collectSessions_complete_bothAnswer :
    (collectSessions bothAnswer [("b", 1), ("a", 0)] [10, 20] 1000).Perm
      (arrived twoSessions bothAnswer 1000) := by
  have hhandles : twoSessions.Handles [("b", 1), ("a", 0)] := by
    unfold Registry.Handles
    decide
  have hwakeups : ∀ now ∈ [10, 20], now ≤ 1000 := by decide
  apply (collectSessions_complete_iff _ _ hhandles _ _ _ hwakeups).mpr
  have hnone : ∀ tx, ¬ Awaited bothAnswer 1000 tx := by
    rintro tx ⟨rx, hrx, hpending⟩
    unfold bothAnswer at hrx
    split at hrx <;> cases hrx <;> cases hpending
  exact List.pairwise_of_forall fun a b h => absurd h (hnone a.2)

/-- One hanging actor hides the session listed after it, whose answer has been there
for most of the second. -/
theorem collectSessions_loses_answered :
    twoSessions.Handles [("a", 0), ("b", 1)] ∧
      arrived twoSessions firstHangs 1000 = [infoOf "b"] ∧
      ¬ (collectSessions firstHangs [("a", 0), ("b", 1)] [10] 1000).Perm
        (arrived twoSessions firstHangs 1000) := by
  refine ⟨?_, rfl, ?_⟩
  · unfold Registry.Handles
    decide
  · decide

end JftermMuxer.Daemon
