import JftermMuxer.Daemon.Attach
import JftermMuxer.Daemon.Binding

/-!
# Whether a viewer is attached

SESSIONS tells of each session whether a client is bound to it.  The actor of
{lit}`jftermd/src/server.rs` learns that its client has gone only from a live push
that fails, so a client whose connection has ended is counted until the shell next
writes something.

Main results:

- Theorem {lit}`World.ghost_persists`: a client that is bound and gone stays so until a
  frame is pushed to it, somebody else attaches, or the task ends.
- Theorem {lit}`World.hasClientTruthful_iff`: in every run, every answer that a viewer is
  attached is given while it is exactly if every departure of the bound client is
  noticed before the next answer.
-/

namespace JftermMuxer.Daemon

open JftermMuxer.Foundation

/-- An answer that says that a viewer is attached. -/
def Event.claimsViewer : Event → Bool
  | .answered info => info.hasClient
  | .delivered _ | .received _ | .attached _ _ | .drained _ _ | .sent _ _ _ _ | .signalled _
  | .elapsed _ => false

namespace World

open Event

variable {opts : ServerOpts} {w v t : World} {c : ClientId}

/-! ## What is claimed -/

/-- The step takes an `Info` command. -/
@[reducible] def TakesInfo (w : World) : Label → Prop
  | .command _ => w.phase = .running ∧ w.queue.head? = some .info
  | .asyncFdOk | .asyncFdFailed | .send _ | .dropSenders | .writer _ | .elapse _ | .readable _
  | .readableError | .grace | .kill _ | .tick _ | .remove | .finish => False

instance decidableTakesInfo (w : World) : DecidablePred w.TakesInfo := Label.decidable _

/-- The answer to an `Info` says that a viewer is attached only while the receiver of the
bound client's queue exists. -/
def HasClientTruthful (opts : ServerOpts) (w : World) (label : Label) : Prop :=
  w.TakesInfo label → ∀ v ∈ w.step opts label, ∀ e ∈ v.history.head?, e.claimsViewer = true →
    ∃ c ∈ w.client, (w.outQueues c).closed = false

instance decidableHasClientTruthful (opts : ServerOpts) (w : World) (label : Label) :
    Decidable (w.HasClientTruthful opts label) :=
  inferInstanceAs (Decidable (w.TakesInfo label → ∀ v ∈ w.step opts label,
    ∀ e ∈ v.history.head?, e.claimsViewer = true → ∃ c ∈ w.client, (w.outQueues c).closed = false))

/-- The client is bound, and the receiver of its queue is gone. -/
def Ghost (c : ClientId) (w : World) : Prop := w.client = some c ∧ (w.outQueues c).closed = true

/-- Between two states a live frame was pushed to the client, or somebody attached. -/
def Stirred (c : ClientId) (w v : World) : Prop :=
  ∃ es, v.history = es ++ w.history ∧
    ((∃ f ok, .sent c f .live ok ∈ es) ∨ ∃ d replay, .attached d replay ∈ es)

/-- Whenever the bound client's receiver goes, or an attach binds a client whose receiver
has gone, a frame is pushed to that client or another one attaches before the next `Info`
is taken. -/
def DeparturesNoticed (opts : ServerOpts) (s : World) (labels : List Label) : Prop :=
  ∀ before label between last after u v t c,
    labels = before ++ label :: (between ++ last :: after) →
    (machine opts).run s before = some u → u.step opts label = some v →
    (machine opts).run v between = some t → ¬ Ghost c u → Ghost c v → TakesInfo t last →
    Stirred c v t

/-- What the step answers. -/
theorem takesInfo_head {label : Label} (htakes : w.TakesInfo label)
    (hstep : w.step opts label = some v) :
    ∃ info, v.history.head? = some (.answered info) ∧ info.hasClient = w.client.isSome := by
  cases label with
  | command a =>
      obtain ⟨-, hhead⟩ := htakes
      obtain ⟨-, ⟨hempty, -⟩ | ⟨cmd, rest, hqueue, rfl⟩⟩ := command_eq_some hstep
      · rw [hempty] at hhead
        cases hhead
      · rw [hqueue, List.head?_cons, Option.some.injEq] at hhead
        subst hhead
        exact ⟨_, rfl, rfl⟩
  | asyncFdOk | asyncFdFailed | send _ | dropSenders | writer _ | elapse _ | readable _
  | readableError | grace | kill _ | tick _ | remove | finish => exact htakes.elim

/-! ## A ghost persists -/

/-- An actor that runs at the end has run all the time. -/
theorem running_of_run {labels : List Label} (hrun : (machine opts).run w labels = some v)
    (hphase : v.phase = .running) : w.phase = .running := by
  by_contra hleft
  have hstays := (machine opts).run_induct (motive := fun x => x.phase ≠ .running)
    (fun x label y hx hstep hy => hx (running_of_step hstep hy)) hleft hrun
  exact hstays hphase

/-- The history only grows. -/
theorem history_run {labels : List Label} (hrun : (machine opts).run w labels = some v) :
    w.history <:+ v.history :=
  (machine opts).run_induct (motive := fun x => w.history <:+ x.history)
    (fun _ _ _ hx hstep => hx.trans (history_step hstep)) (List.suffix_refl _) hrun

/-- What stirs a part of a run stirs the whole. -/
theorem Stirred.of_step {label : Label} {labels : List Label} (hstep : w.step opts label = some v)
    (hrun : (machine opts).run v labels = some t) (h : Stirred c w v ∨ Stirred c v t) :
    Stirred c w t := by
  obtain ⟨es, hes⟩ := history_step hstep
  obtain ⟨fs, hfs⟩ := history_run hrun
  have hwhole : t.history = (fs ++ es) ++ w.history := by
    rw [← hfs, ← hes, List.append_assoc]
  refine ⟨fs ++ es, hwhole, ?_⟩
  rcases h with ⟨es', hes', hstirred⟩ | ⟨fs', hfs', hstirred⟩
  · rw [hes', List.append_cancel_right_eq] at hes
    subst hes
    rcases hstirred with ⟨f, ok, hmem⟩ | ⟨d, replay, hmem⟩
    · exact Or.inl ⟨f, ok, List.mem_append_right fs hmem⟩
    · exact Or.inr ⟨d, replay, List.mem_append_right fs hmem⟩
  · rw [hfs', List.append_cancel_right_eq] at hfs
    subst hfs
    rcases hstirred with ⟨f, ok, hmem⟩ | ⟨d, replay, hmem⟩
    · exact Or.inl ⟨f, ok, List.mem_append_left es hmem⟩
    · exact Or.inr ⟨d, replay, List.mem_append_left es hmem⟩

private theorem stirred_onAttach (opts : ServerOpts) (w : World) (a : Answers) (req : AttachRequest)
    (rest : List SessionCommand) (c : ClientId) :
    Stirred c w (((w.answer a).receive (.attach req) rest).onAttach opts req) := by
  obtain ⟨u, hu⟩ := onAttach_eq opts w a req rest
  obtain ⟨es, replay, hhistory, -⟩ := handshake_addressed opts u req
  refine ⟨es ++ [.attached req.outTx replay, .received (.attach req)], ?_, Or.inr ⟨req.outTx, replay, ?_⟩⟩
  · rw [hu.history, hhistory, hu.before, List.append_assoc]
    rfl
  · exact List.mem_append_right es List.mem_cons_self

/-- A client that is bound and gone stays so until a frame is pushed to it, somebody
attaches, or the task ends. -/
theorem ghost_persists {label : Label} (hw : Ghost c w) (hstep : w.step opts label = some v) :
    Ghost c v ∨ Stirred c w v ∨ v.phase = .finished := by
  rcases step_binding hstep with ⟨es, hes⟩ | ⟨a, req, rest, -, -, -, rfl⟩ | ⟨-, rfl⟩
  · rcases hes.client with hsame | hnone
    · exact Or.inl ⟨hsame.trans hw.1, hes.closed c hw.2⟩
    · obtain ⟨f, ok, hmem⟩ := hes.dropped c hw.1 hnone
      exact Or.inr (Or.inl ⟨es, hes.history, Or.inl ⟨f, ok, hmem⟩⟩)
  · exact Or.inr (Or.inl (stirred_onAttach opts w a req rest c))
  · exact Or.inr (Or.inr rfl)

/-- A ghost that nothing stirs is still there when the actor is next in its loop. -/
theorem ghost_run {labels : List Label} (hw : Ghost c w)
    (hrun : (machine opts).run w labels = some t) (hphase : t.phase = .running)
    (hquiet : ¬ Stirred c w t) : Ghost c t := by
  induction labels generalizing w with
  | nil =>
      rw [Machine.run_nil, Option.some.injEq] at hrun
      exact hrun ▸ hw
  | cons label labels ih =>
      obtain ⟨v, hv, hrest⟩ := (machine opts).run_cons_eq_some.mp hrun
      have hnext : Ghost c v := by
        rcases ghost_persists hw hv with hghost | hstirred | hfinished
        · exact hghost
        · exact absurd (Stirred.of_step hv hrest (Or.inl hstirred)) hquiet
        · have hrunning := running_of_run hrest hphase
          rw [hfinished] at hrunning
          cases hrunning
      exact ih hnext hrest fun hstirred => hquiet (Stirred.of_step hv hrest (Or.inr hstirred))

/-! ## A ghost is undisturbed -/

/-- Nothing is pushed to a client that is gone and stays bound, and nobody attaches. -/
theorem ghost_undisturbed {label : Label} (hfeed : ∀ c, Feed opts c w) (hintroduced : Introduced w)
    (hw : Ghost c w) (hv : Ghost c v) (hstep : w.step opts label = some v) : ¬ Stirred c w v := by
  rintro ⟨fs, hfs, hstirred⟩
  rcases step_binding hstep with ⟨es, hes⟩ | ⟨a, req, rest, -, -, hqueue, rfl⟩ | ⟨-, rfl⟩
  · rw [hes.history, List.append_cancel_right_eq] at hfs
    subst hfs
    rcases hstirred with ⟨f, ok, hmem⟩ | ⟨d, replay, hmem⟩
    · cases ok with
      | true =>
          have hopen := hes.taken c f hmem
          rw [hw.2] at hopen
          cases hopen
      | false =>
          have hnone := hes.failed c f hmem
          rw [hv.1] at hnone
          cases hnone
    · exact hes.ordinary _ hmem
  · obtain ⟨u, hu⟩ := onAttach_eq opts w a req rest
    have hsame : req.outTx = c := Option.some.inj (hu.client.symm.trans hv.1)
    have hpending : w.queue.countP (attaches c) ≠ 0 := by
      rw [hqueue, List.countP_cons, if_pos (by simp [attaches, hsame])]
      exact Nat.succ_ne_zero _
    exact ((hfeed c).pending hpending).2 (hintroduced.bound c hw.1)
  · cases hv.1

/-- While a departed client is bound nothing stirs it. -/
theorem ghost_undisturbed_run {labels : List Label} (hfeed : ∀ c, Feed opts c w)
    (hintroduced : Introduced w) (halways : (machine opts).Always (Ghost c) w labels)
    (hrun : (machine opts).run w labels = some t) : ¬ Stirred c w t := by
  induction labels generalizing w with
  | nil =>
      rw [Machine.run_nil, Option.some.injEq] at hrun
      subst hrun
      rintro ⟨es, hes, hstirred⟩
      rw [List.self_eq_append_left] at hes
      subst hes
      rcases hstirred with ⟨f, ok, hmem⟩ | ⟨d, replay, hmem⟩
      · cases hmem
      · cases hmem
  | cons label labels ih =>
      obtain ⟨v, hv, hrest⟩ := (machine opts).run_cons_eq_some.mp hrun
      obtain ⟨hw, hlater⟩ := (machine opts).always_cons.mp halways
      have hvghost : Ghost c v := hlater v hv [] labels v rfl rfl
      have hfirst := ghost_undisturbed hfeed hintroduced hw hvghost hv
      have hsecond := ih (fun d => (kept_feed opts d).step (hfeed d) hv)
        (introduced_step hintroduced hv) (hlater v hv) hrest
      rintro ⟨gs, hgs, hstirred⟩
      obtain ⟨es, hes⟩ := history_step hv
      obtain ⟨fs, hfs⟩ := history_run hrest
      rw [← hfs, ← hes, ← List.append_assoc, List.append_cancel_right_eq] at hgs
      subst hgs
      rcases hstirred with ⟨f, ok, hmem⟩ | ⟨d, replay, hmem⟩
      · rcases List.mem_append.mp hmem with hmem | hmem
        · exact hsecond ⟨fs, hfs.symm, Or.inl ⟨f, ok, hmem⟩⟩
        · exact hfirst ⟨es, hes.symm, Or.inl ⟨f, ok, hmem⟩⟩
      · rcases List.mem_append.mp hmem with hmem | hmem
        · exact hsecond ⟨fs, hfs.symm, Or.inr ⟨d, replay, hmem⟩⟩
        · exact hfirst ⟨es, hes.symm, Or.inr ⟨d, replay, hmem⟩⟩

/-! ## Every run -/

private theorem feed_run {session : Session} {labels : List Label}
    (hrun : (machine opts).run (start session) labels = some w) :
    (∀ c, Feed opts c w) ∧ Introduced w := by
  constructor
  · exact fun c => (kept_feed opts c).run (feed_start opts c session) hrun
  · exact (machine opts).run_induct (motive := Introduced)
      (fun _ _ _ hx hstep => introduced_step hx hstep) (introduced_start session) hrun

/-- In every run, every answer that a viewer is attached is given while it is exactly if
every departure of the bound client is noticed before the next answer. -/
theorem hasClientTruthful_iff (opts : ServerOpts) (session : Session) (labels : List Label)
    (w : World) (hrun : (machine opts).run (start session) labels = some w) :
    (machine opts).Along (HasClientTruthful opts) (start session) labels ↔
      DeparturesNoticed opts (start session) labels := by
  rw [Machine.along_iff_forall]
  constructor
  · rintro htruthful before label between last after u v t c rfl hu hv ht - hghost htakes
    by_contra hquiet
    have hthere : (machine opts).run (start session) (before ++ label :: between) = some t := by
      rw [Machine.run_append, hu]
      exact (machine opts).run_cons_eq_some.mpr ⟨v, hv, ht⟩
    have hphase : t.phase = .running := by
      cases last with
      | command a => exact htakes.1
      | asyncFdOk | asyncFdFailed | send _ | dropSenders | writer _ | elapse _ | readable _
      | readableError | grace | kill _ | tick _ | remove | finish => exact htakes.elim
    have hstill := ghost_run hghost ht hphase hquiet
    have hsplit : before ++ label :: (between ++ last :: after) =
        (before ++ label :: between) ++ last :: after := by simp
    rw [hsplit, Machine.run_append, hthere, Option.bind_some, Machine.run_cons_eq_some] at hrun
    obtain ⟨x, hx, -⟩ := hrun
    obtain ⟨info, hhead, hinfo⟩ := takesInfo_head htakes hx
    have hclaims : info.hasClient = true := by
      rw [hinfo, hstill.1]
      rfl
    obtain ⟨d, hd, hopen⟩ :=
      htruthful _ last after t hsplit hthere htakes x hx _ hhead hclaims
    rw [hstill.1] at hd
    cases hd
    rw [hstill.2] at hopen
    cases hopen
  · rintro hnoticed before last after t rfl ht htakes v hv e he hclaims
    obtain ⟨info, hhead, hinfo⟩ := takesInfo_head htakes hv
    rw [hhead] at he
    cases he
    have hbound : t.client.isSome = true := hinfo.symm.trans hclaims
    obtain ⟨c, hc⟩ := Option.isSome_iff_exists.mp hbound
    refine ⟨c, hc, ?_⟩
    cases hclosed : (t.outQueues c).closed with
    | false => rfl
    | true =>
        have hstart : ¬ Ghost c (start session) := by
          rintro ⟨hnone, -⟩
          cases hnone
        obtain ⟨first, label, between, u, x, rfl, hu, hx, hlast, hbefore, halways⟩ :=
          (machine opts).exists_entry hstart ht ⟨hc, hclosed⟩
        have hghost : Ghost c x := halways [] between x rfl rfl
        have hreached : (machine opts).run (start session) (first ++ [label]) = some x :=
          (machine opts).run_snoc_eq_some.mpr ⟨u, hu, hx⟩
        obtain ⟨hfeed, hintroduced⟩ := feed_run hreached
        have hstirred := hnoticed first label between last after u x t c (by simp) hu hx hlast
          hbefore hghost htakes
        exact absurd hstirred (ghost_undisturbed_run hfeed hintroduced halways hlast)

/-- The session is listed after a takeover. -/
def listedAfterTakeover : List Label := takeover ++ [.send .info, .command .none]

/-- The takeover notices the departure. -/
theorem departuresNoticed_listedAfterTakeover :
    ∃ w, (machine .default).run (start shell) listedAfterTakeover = some w ∧
      DeparturesNoticed .default (start shell) listedAfterTakeover := by
  have hsome : ((machine .default).run (start shell) listedAfterTakeover).isSome = true := by
    decide +kernel
  have htruthful : (machine .default).Along (HasClientTruthful .default) (start shell)
      listedAfterTakeover := by
    decide +kernel
  obtain ⟨w, hw⟩ := Option.isSome_iff_exists.mp hsome
  exact ⟨w, hw, (hasClientTruthful_iff .default shell listedAfterTakeover w hw).mp htruthful⟩

/-- A client attaches and its connection ends; then the session is listed. -/
def listedAfterDeparture : List Label :=
  [.asyncFdOk, .send (.attach ⟨0, 80, 24, 0⟩), .command .none, .writer (.close 0),
    .send .info, .command .none]

/-- The answer speaks of a client that has gone. -/
theorem not_hasClientTruthful_listedAfterDeparture :
    ∃ w, (machine .default).run (start shell) listedAfterDeparture = some w ∧
      w.history.head? = some (.answered ⟨"s", ["sh"], "/", false, true, 0⟩) ∧
      w.client = some 0 ∧ (w.outQueues 0).closed = true ∧
      ¬ (machine .default).Along (HasClientTruthful .default) (start shell)
        listedAfterDeparture := by
  have hsome : ((machine .default).run (start shell) listedAfterDeparture).isSome = true := by
    decide +kernel
  have hstate : ∀ w ∈ (machine .default).run (start shell) listedAfterDeparture,
      w.history.head? = some (.answered ⟨"s", ["sh"], "/", false, true, 0⟩) ∧
        w.client = some 0 ∧ (w.outQueues 0).closed = true := by
    decide +kernel
  have hfalse : ¬ (machine .default).Along (HasClientTruthful .default) (start shell)
      listedAfterDeparture := by
    decide +kernel
  obtain ⟨w, hw⟩ := Option.isSome_iff_exists.mp hsome
  obtain ⟨hanswer, hclient, hclosed⟩ := hstate w hw
  exact ⟨w, hw, hanswer, hclient, hclosed, hfalse⟩

end World

end JftermMuxer.Daemon
