import Mathlib.Data.List.Induction
import Mathlib.Data.Option.Basic

/-!
# Machines with labelled steps

A machine takes one labelled step at a time; a label that is not enabled in a
state has no successor there.  Several parties that interleave are one machine
whose labels say who moves, so a list of labels is a schedule, and a statement
about every list is a statement about every interleaving.

Main results:

- Theorem {lit}`Machine.run_append`: a run over a concatenation is the run over
  the first part continued by the run over the second.
- Theorem {lit}`Machine.run_induct`: what every enabled step preserves holds
  after every run.
- Theorem {lit}`Machine.along_induct`: the same for runs whose steps all meet a
  condition on the state before the step.
- Theorem {lit}`Machine.good_iff_along`: when exactly the steps that fail a
  condition spoil a state, and for good, a run ends in a good state iff all its
  steps met the condition.
- Theorem {lit}`Machine.always_iff_along`: when exactly the steps that fail a
  condition lead to a bad state, all states of a run are good iff all its steps met
  the condition.
- Theorem {lit}`Machine.exists_entry`: a run that has come into a predicate has a last
  step into it.
- Theorem {lit}`Machine.trail_induct`: an invariant that speaks of the run so far.
- Theorems {lit}`Machine.sometime_snoc`, {lit}`Machine.since_snoc` and
  {lit}`Machine.took_snoc`: how one more step extends what a run has met, has kept
  and has done.
-/

namespace JftermMuxer.Foundation

/-- A machine whose enabled steps are functions of the state and the label. -/
structure Machine (σ α : Type) where
  step : σ → α → Option σ

namespace Machine

variable {σ α : Type} (M : Machine σ α)

/-- Take the labelled steps in order; no result as soon as one is not enabled. -/
def run : σ → List α → Option σ
  | s, [] => some s
  | s, a :: as => (M.step s a).bind fun t => run t as

/-- Every step of the schedule meets a condition on the state it starts in. -/
def Along (ok : σ → α → Prop) : σ → List α → Prop
  | _, [] => True
  | s, a :: as => ok s a ∧ ∀ t ∈ M.step s a, Along ok t as

instance decidableAlong (ok : σ → α → Prop) [∀ s a, Decidable (ok s a)] :
    ∀ (s : σ) (as : List α), Decidable (M.Along ok s as)
  | _, [] => inferInstanceAs (Decidable True)
  | s, a :: as =>
      have := fun t => decidableAlong ok t as
      inferInstanceAs (Decidable (ok s a ∧ ∀ t ∈ M.step s a, M.Along ok t as))

@[simp] theorem run_nil (s : σ) : M.run s [] = some s := rfl

/-- A run takes its first step first. -/
theorem run_cons (s : σ) (a : α) (as : List α) :
    M.run s (a :: as) = (M.step s a).bind fun t => M.run t as :=
  rfl

/-- A run that starts with a step is that step and a run from its successor. -/
theorem run_cons_eq_some {s u : σ} {a : α} {as : List α} :
    M.run s (a :: as) = some u ↔ ∃ t, M.step s a = some t ∧ M.run t as = some u := by
  rw [run_cons, Option.bind_eq_some_iff]

/-- Runs compose over concatenation. -/
theorem run_append (s : σ) (as bs : List α) :
    M.run s (as ++ bs) = (M.run s as).bind fun t => M.run t bs := by
  induction as generalizing s with
  | nil => rfl
  | cons a as ih =>
      rw [List.cons_append, run_cons, run_cons, Option.bind_assoc]
      exact congrArg _ (funext ih)

/-- The invariant rule for conditional runs: what every enabled step that meets
the condition preserves holds after every run whose steps all meet it. -/
theorem along_induct {ok : σ → α → Prop} {motive : σ → Prop}
    (hstep : ∀ s a t, motive s → ok s a → M.step s a = some t → motive t)
    {s t : σ} (hs : motive s) {as : List α} (hok : M.Along ok s as)
    (hrun : M.run s as = some t) : motive t := by
  induction as generalizing s with
  | nil =>
      rw [run_nil, Option.some.injEq] at hrun
      exact hrun ▸ hs
  | cons a as ih =>
      obtain ⟨u, hu, hrest⟩ := M.run_cons_eq_some.mp hrun
      exact ih (hstep s a u hs hok.1 hu) (hok.2 u hu) hrest

/-- The invariant rule: what every enabled step preserves, every run preserves. -/
theorem run_induct {motive : σ → Prop}
    (hstep : ∀ s a t, motive s → M.step s a = some t → motive t)
    {s t : σ} (hs : motive s) {as : List α} (hrun : M.run s as = some t) : motive t := by
  induction as generalizing s with
  | nil =>
      rw [run_nil, Option.some.injEq] at hrun
      exact hrun ▸ hs
  | cons a as ih =>
      obtain ⟨u, hu, hrest⟩ := M.run_cons_eq_some.mp hrun
      exact ih (hstep s a u hs hu) hrest

/-! ## Growing histories -/

/-- Two moves that put only such events in front of a history do so together. -/
theorem grows_trans {ε : Type} {P : ε → Prop} {xs ys zs : List ε}
    (hxy : ∃ es, ys = es ++ xs ∧ ∀ e ∈ es, P e) (hyz : ∃ es, zs = es ++ ys ∧ ∀ e ∈ es, P e) :
    ∃ es, zs = es ++ xs ∧ ∀ e ∈ es, P e := by
  obtain ⟨es, hes, hfirst⟩ := hxy
  obtain ⟨fs, hfs, hsecond⟩ := hyz
  refine ⟨fs ++ es, by rw [hfs, hes, List.append_assoc], ?_⟩
  intro e he
  rcases List.mem_append.mp he with he | he
  · exact hsecond e he
  · exact hfirst e he

/-! ## What a run has met and kept -/

/-- A run takes its last step last. -/
theorem run_snoc_eq_some {s u : σ} {as : List α} {a : α} :
    M.run s (as ++ [a]) = some u ↔ ∃ t, M.run s as = some t ∧ M.step t a = some u := by
  rw [run_append, Option.bind_eq_some_iff]
  refine exists_congr fun t => and_congr_right fun _ => ?_
  rw [run_cons_eq_some]
  simp

/-- A condition holds along two runs in a row iff it holds along each. -/
theorem along_append (ok : σ → α → Prop) (s : σ) (as bs : List α) :
    M.Along ok s (as ++ bs) ↔ M.Along ok s as ∧ ∀ t ∈ M.run s as, M.Along ok t bs := by
  induction as generalizing s with
  | nil => simp [Along]
  | cons a as ih =>
      rw [List.cons_append, Along, Along, and_assoc]
      refine and_congr_right fun _ => ?_
      constructor
      · intro h
        constructor
        · exact fun t ht => ((ih t).mp (h t ht)).1
        · intro u hu
          obtain ⟨t, ht, hrest⟩ := M.run_cons_eq_some.mp hu
          exact ((ih t).mp (h t ht)).2 u hrest
      · rintro ⟨hfirst, hrest⟩ t ht
        refine (ih t).mpr ⟨hfirst t ht, ?_⟩
        exact fun u hu => hrest u (M.run_cons_eq_some.mpr ⟨t, ht, hu⟩)

/-- The invariant rule for what holds of a run and its last state together. -/
theorem trail_induct {ok : σ → α → Prop} {s : σ} {motive : List α → σ → Prop}
    (hstart : motive [] s)
    (hstep : ∀ as t a u, M.run s as = some t → motive as t → ok t a → M.step t a = some u →
      motive (as ++ [a]) u)
    {as : List α} {t : σ} (hok : M.Along ok s as) (hrun : M.run s as = some t) : motive as t := by
  induction as using List.reverseRecOn generalizing t with
  | nil =>
      rw [run_nil, Option.some.injEq] at hrun
      exact hrun ▸ hstart
  | append_singleton as a ih =>
      obtain ⟨u, hu, hlast⟩ := M.run_snoc_eq_some.mp hrun
      obtain ⟨hbefore, hcondition⟩ := (M.along_append ok s as [a]).mp hok
      exact hstep as u a t hu (ih hbefore hu) (hcondition u hu).1 hlast

/-- Some state of the run met the predicate. -/
def Sometime (P : σ → Prop) (s : σ) (as : List α) : Prop :=
  ∃ before after u, as = before ++ after ∧ M.run s before = some u ∧ P u

/-- From some state of the run on that met `P`, every state met `Q`. -/
def Since (P Q : σ → Prop) (s : σ) (as : List α) : Prop :=
  ∃ before after u, as = before ++ after ∧ M.run s before = some u ∧ P u ∧
    M.Along (fun t _ => Q t) u after ∧ ∀ t ∈ M.run u after, Q t

/-- The only state of an empty run is its start. -/
theorem sometime_nil {P : σ → Prop} {s : σ} : M.Sometime P s [] ↔ P s := by
  constructor
  · rintro ⟨before, after, u, hsplit, hrun, hu⟩
    rw [(List.append_eq_nil_iff.mp hsplit.symm).1, run_nil, Option.some.injEq] at hrun
    exact hrun ▸ hu
  · exact fun h => ⟨[], [], s, rfl, rfl, h⟩

/-- The last state of a run is one of its states. -/
theorem Sometime.here {M : Machine σ α} {P : σ → Prop} {s t : σ} {as : List α}
    (hrun : M.run s as = some t) (h : P t) : M.Sometime P s as :=
  ⟨as, [], t, (List.append_nil as).symm, hrun, h⟩

/-- One more step: a state met before, or the one reached. -/
theorem sometime_snoc {P : σ → Prop} {s u : σ} {as : List α} {a : α}
    (hrun : M.run s (as ++ [a]) = some u) :
    M.Sometime P s (as ++ [a]) ↔ M.Sometime P s as ∨ P u := by
  constructor
  · rintro ⟨before, after, v, hsplit, hv, hP⟩
    rcases List.eq_nil_or_concat after with rfl | ⟨after, b, rfl⟩
    · rw [List.append_nil] at hsplit
      rw [← hsplit, hrun, Option.some.injEq] at hv
      exact Or.inr (hv ▸ hP)
    · rw [List.concat_eq_append, ← List.append_assoc] at hsplit
      exact Or.inl ⟨before, after, v, (List.append_inj' hsplit rfl).1, hv, hP⟩
  · rintro (⟨before, after, v, hsplit, hv, hP⟩ | hu)
    · exact ⟨before, after ++ [a], v, by rw [hsplit, List.append_assoc], hv, hP⟩
    · exact Sometime.here hrun hu

/-- The state in between may be the last one. -/
theorem Since.here {M : Machine σ α} {P Q : σ → Prop} {s t : σ} {as : List α}
    (hrun : M.run s as = some t) (hP : P t) (hQ : Q t) : M.Since P Q s as := by
  refine ⟨as, [], t, (List.append_nil as).symm, hrun, hP, trivial, ?_⟩
  intro u hu
  rw [run_nil] at hu
  cases hu
  exact hQ

/-- One more step into a state that meets `Q`. -/
theorem since_snoc {P Q : σ → Prop} {s t u : σ} {as : List α} {a : α}
    (h : M.Since P Q s as) (hrun : M.run s as = some t) (hstep : M.step t a = some u)
    (hQ : Q u) : M.Since P Q s (as ++ [a]) := by
  obtain ⟨before, after, v, rfl, hv, hP, halong, hlast⟩ := h
  have hrest : M.run v after = some t := by
    rw [run_append, hv] at hrun
    exact hrun
  refine ⟨before, after ++ [a], v, by rw [List.append_assoc], hv, hP, ?_, ?_⟩
  · rw [along_append]
    refine ⟨halong, ?_⟩
    intro x hx
    exact ⟨hlast x hx, fun _ _ => trivial⟩
  · intro x hx
    obtain ⟨y, hy, hxstep⟩ := M.run_snoc_eq_some.mp hx
    rw [hrest] at hy
    cases hy
    rw [hstep] at hxstep
    cases hxstep
    exact hQ

/-- The condition on the state in between may be weakened. -/
theorem Since.mono {M : Machine σ α} {P R Q : σ → Prop} {s : σ} {as : List α}
    (h : M.Since P Q s as) (hP : ∀ t, P t → R t) : M.Since R Q s as := by
  obtain ⟨before, after, u, hsplit, hrun, hu, halong, hlast⟩ := h
  exact ⟨before, after, u, hsplit, hrun, hP u hu, halong, hlast⟩

/-- The states of a run are those after its initial parts. -/
theorem sometime_iff_take {P : σ → Prop} {s : σ} {as : List α} :
    M.Sometime P s as ↔ ∃ n : Fin (as.length + 1), ∃ u ∈ M.run s (as.take n), P u := by
  constructor
  · rintro ⟨before, after, u, rfl, hrun, hu⟩
    have hlength : before.length < (before ++ after).length + 1 := by
      rw [List.length_append]
      omega
    exact ⟨⟨before.length, hlength⟩, u, by rw [List.take_left]; exact hrun, hu⟩
  · rintro ⟨n, u, hrun, hu⟩
    exact ⟨as.take n, as.drop n, u, (List.take_append_drop n as).symm, hrun, hu⟩

/-- The state in between is found among the run's prefixes. -/
theorem since_iff_take {P Q : σ → Prop} {s : σ} {as : List α} :
    M.Since P Q s as ↔ ∃ n : Fin (as.length + 1), ∃ u ∈ M.run s (as.take n), P u ∧
      M.Along (fun t _ => Q t) u (as.drop n) ∧ ∀ t ∈ M.run u (as.drop n), Q t := by
  constructor
  · rintro ⟨before, after, u, rfl, hrun, hu⟩
    have hlength : before.length < (before ++ after).length + 1 := by
      rw [List.length_append]
      omega
    refine ⟨⟨before.length, hlength⟩, u, by rw [List.take_left]; exact hrun, ?_⟩
    rw [List.drop_left]
    exact hu
  · rintro ⟨n, u, hrun, hu⟩
    exact ⟨as.take n, as.drop n, u, (List.take_append_drop n as).symm, hrun, hu⟩

/-- Some step of the run was taken from a state where the predicate held of both. -/
def Took (P : σ → α → Prop) (s : σ) (as : List α) : Prop :=
  ∃ before a after t, as = before ++ a :: after ∧ M.run s before = some t ∧ P t a

/-- An empty run takes no step. -/
theorem not_took_nil {P : σ → α → Prop} {s : σ} : ¬ M.Took P s [] := by
  rintro ⟨before, a, after, t, hsplit, -⟩
  simp at hsplit

/-- The steps of a longer run are the earlier ones and the last one. -/
theorem took_snoc {P : σ → α → Prop} {s t : σ} {as : List α} {a : α}
    (hrun : M.run s as = some t) : M.Took P s (as ++ [a]) ↔ M.Took P s as ∨ P t a := by
  constructor
  · rintro ⟨before, b, after, u, hsplit, hbefore, hP⟩
    rcases List.eq_nil_or_concat after with rfl | ⟨rest, last, rfl⟩
    · obtain ⟨rfl, hlast⟩ := List.append_inj' hsplit rfl
      cases hlast
      rw [hrun, Option.some.injEq] at hbefore
      exact Or.inr (hbefore ▸ hP)
    · rw [List.concat_eq_append, ← List.cons_append, ← List.append_assoc] at hsplit
      obtain ⟨rfl, -⟩ := List.append_inj' hsplit rfl
      exact Or.inl ⟨before, b, rest, u, rfl, hbefore, hP⟩
  · rintro (⟨before, b, after, u, rfl, hbefore, hP⟩ | hP)
    · exact ⟨before, b, after ++ [a], u, by rw [List.append_assoc, List.cons_append], hbefore, hP⟩
    · exact ⟨as, a, [], t, rfl, hrun, hP⟩

instance decidableSometime (P : σ → Prop) [DecidablePred P] (s : σ) (as : List α) :
    Decidable (M.Sometime P s as) :=
  decidable_of_iff _ M.sometime_iff_take.symm

instance decidableSince (P Q : σ → Prop) [DecidablePred P] [DecidablePred Q] (s : σ)
    (as : List α) : Decidable (M.Since P Q s as) :=
  decidable_of_iff _ M.since_iff_take.symm

/-! ## Exact conditions -/

/-- A step that fails the condition spoils a state for good, and no other step
spoils one: a run ends in a good state iff all its steps met the condition. -/
theorem good_iff_along {ok : σ → α → Prop} {motive good : σ → Prop}
    (hstep : ∀ s a t, motive s → M.step s a = some t → motive t)
    (hgood : ∀ s a t, motive s → good s → M.step s a = some t → (good t ↔ ok s a))
    (hbad : ∀ s a t, motive s → ¬ good s → M.step s a = some t → ¬ good t)
    {s t : σ} (hs : motive s) (hfine : good s) {as : List α} (hrun : M.run s as = some t) :
    good t ↔ M.Along ok s as := by
  induction as generalizing s with
  | nil =>
      rw [run_nil, Option.some.injEq] at hrun
      exact iff_of_true (hrun ▸ hfine) trivial
  | cons a as ih =>
      obtain ⟨u, hu, hrest⟩ := M.run_cons_eq_some.mp hrun
      have hmotive := hstep s a u hs hu
      have hfirst := hgood s a u hs hfine hu
      by_cases hok : ok s a
      · rw [ih hmotive (hfirst.mpr hok) hrest]
        constructor
        · intro hlater
          refine ⟨hok, ?_⟩
          intro v hv
          rw [hu] at hv
          cases hv
          exact hlater
        · exact fun halong => halong.2 u hu
      · have hspoilt : ¬ good t :=
          M.run_induct (motive := fun v => motive v ∧ ¬ good v)
            (fun v b v' hv hb => ⟨hstep v b v' hv.1 hb, hbad v b v' hv.1 hv.2 hb⟩)
            ⟨hmotive, mt hfirst.mp hok⟩ hrest |>.2
        exact iff_of_false hspoilt fun halong => hok halong.1

/-- Every state of the run meets the predicate. -/
def Always (P : σ → Prop) (s : σ) (as : List α) : Prop :=
  ∀ before after u, as = before ++ after → M.run s before = some u → P u

/-- A predicate holds in every state iff it holds in the first one and in every later one.
-/
theorem always_cons {P : σ → Prop} {s : σ} {a : α} {as : List α} :
    M.Always P s (a :: as) ↔ P s ∧ ∀ t ∈ M.step s a, M.Always P t as := by
  constructor
  · intro h
    refine ⟨h [] (a :: as) s rfl rfl, ?_⟩
    intro t ht before after u hsplit hrun
    refine h (a :: before) after u (by rw [hsplit, List.cons_append]) ?_
    exact M.run_cons_eq_some.mpr ⟨t, ht, hrun⟩
  · rintro ⟨hfirst, hrest⟩ before after u hsplit hrun
    cases before with
    | nil =>
        rw [run_nil, Option.some.injEq] at hrun
        exact hrun ▸ hfirst
    | cons b before =>
        rw [List.cons_append, List.cons.injEq] at hsplit
        obtain ⟨rfl, hsplit⟩ := hsplit
        obtain ⟨t, ht, hlater⟩ := M.run_cons_eq_some.mp hrun
        exact hrest t ht before after u hsplit hlater

/-- One more state that satisfies the predicate. -/
theorem Always.snoc {M : Machine σ α} {P : σ → Prop} {s t : σ} {as : List α} {a : α}
    (h : M.Always P s as) (hrun : M.run s (as ++ [a]) = some t) (ht : P t) :
    M.Always P s (as ++ [a]) := by
  intro before after u hsplit hbefore
  rcases List.eq_nil_or_concat after with rfl | ⟨after, b, rfl⟩
  · rw [List.append_nil] at hsplit
    rw [← hsplit, hrun, Option.some.injEq] at hbefore
    exact hbefore ▸ ht
  · rw [List.concat_eq_append, ← List.append_assoc] at hsplit
    have has : as = before ++ after := (List.append_inj' hsplit rfl).1
    exact h before after u has hbefore

/-- A run that ends in a predicate and starts outside it has a last step into it. -/
theorem exists_entry {P : σ → Prop} {s t : σ} {as : List α} (hs : ¬ P s)
    (hrun : M.run s as = some t) (ht : P t) :
    ∃ before a after u v, as = before ++ a :: after ∧ M.run s before = some u ∧
      M.step u a = some v ∧ M.run v after = some t ∧ ¬ P u ∧ M.Always P v after := by
  induction as using List.reverseRecOn generalizing t with
  | nil =>
      rw [run_nil, Option.some.injEq] at hrun
      exact absurd (hrun ▸ ht) hs
  | append_singleton as a ih =>
      obtain ⟨x, hx, hlast⟩ := M.run_snoc_eq_some.mp hrun
      by_cases hPx : P x
      · obtain ⟨before, b, after, u, v, rfl, hu, hv, hafter, hPu, halways⟩ := ih hx hPx
        have hlonger : M.run v (after ++ [a]) = some t := M.run_snoc_eq_some.mpr ⟨x, hafter, hlast⟩
        refine ⟨before, b, after ++ [a], u, v, ?_, hu, hv, hlonger, hPu, halways.snoc hlonger ht⟩
        rw [List.append_assoc, List.cons_append]
      · refine ⟨as, a, [], x, t, rfl, hx, hlast, rfl, hPx, ?_⟩
        intro before after u hsplit hbefore
        rw [(List.append_eq_nil_iff.mp hsplit.symm).1, run_nil, Option.some.injEq] at hbefore
        exact hbefore ▸ ht

/-- What every step of a schedule meets, stated at each position. -/
theorem along_iff_forall {ok : σ → α → Prop} {s : σ} {as : List α} :
    M.Along ok s as ↔
      ∀ before a after t, as = before ++ a :: after → M.run s before = some t → ok t a := by
  constructor
  · rintro h before a after t rfl hrun
    exact (((M.along_append ok s before (a :: after)).mp h).2 t hrun).1
  · intro h
    induction as generalizing s with
    | nil => trivial
    | cons a as ih =>
        refine ⟨h [] a as s rfl rfl, ?_⟩
        intro t ht
        apply ih
        rintro before b after u rfl hrun
        exact h (a :: before) b after u rfl (M.run_cons_eq_some.mpr ⟨t, ht, hrun⟩)

/-- A step from a fine state leads to a fine one if it meets the condition and to one
that is not good if it does not: all states of a run are good iff all its steps meet
the condition. -/
theorem always_iff_along {ok : σ → α → Prop} {fine good : σ → Prop}
    (hgood : ∀ s, fine s → good s)
    (hfine : ∀ s a t, fine s → M.step s a = some t → ok s a → fine t)
    (hbad : ∀ s a t, fine s → M.step s a = some t → ¬ ok s a → ¬ good t)
    {s t : σ} (hs : fine s) {as : List α} (hrun : M.run s as = some t) :
    M.Always good s as ↔ M.Along ok s as := by
  induction as generalizing s with
  | nil =>
      refine iff_of_true ?_ trivial
      intro before after u hsplit hbefore
      rw [(List.append_eq_nil_iff.mp hsplit.symm).1, run_nil, Option.some.injEq] at hbefore
      exact hbefore ▸ hgood s hs
  | cons a as ih =>
      obtain ⟨u, hu, hrest⟩ := M.run_cons_eq_some.mp hrun
      have hhere : ∀ {P : σ → Prop}, (∀ t ∈ M.step s a, P t) ↔ P u := by
        intro P
        rw [hu]
        constructor
        · exact fun h => h u rfl
        · intro h t ht
          cases ht
          exact h
      rw [always_cons, Along, hhere, hhere]
      by_cases hok : ok s a
      · rw [ih (hfine s a u hs hu hok) hrest]
        exact and_congr_left' (iff_of_true (hgood s hs) hok)
      · refine iff_of_false ?_ fun h => hok h.1
        rintro ⟨-, halways⟩
        exact hbad s a u hs hu hok (halways [] as u rfl rfl)

end Machine

end JftermMuxer.Foundation
