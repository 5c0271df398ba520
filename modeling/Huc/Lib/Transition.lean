import Mathlib.Tactic

set_option relaxedAutoImplicit false
set_option autoImplicit false

/-!
# Runs of partial transition functions

A system of several parties is given here by one partial function
`step : σ → α → Option σ`: in the state `s` the action `a` is enabled when `step s a` is
some state, and then leads there. A *run* is a list of actions; every interleaving of the
parties' actions is such a list, so a property of all interleavings is a property of all runs.

## Main definitions

* `Transition.run` — the state a list of actions leads to, if all of them are enabled in turn.
* `Transition.Along` — every step of a run is taken from a state that meets a guard.
* `Transition.Always` — every state of a run has a property.
* `Transition.Latched` — an event that sets a latch has happened and none that resets it since.

## Main results

* `Transition.run_append` — runs compose.
* `Transition.invariant_of_run` — what every step keeps, every run keeps.
* `Transition.invariant_of_run_along` — the same for runs whose steps all meet a guard.
* `Transition.always_of_along` — what the steps meeting a guard keep holds in every state of a run.
* `Transition.invariant_of_run_always` — the invariant rule under a property of all states.
* `Transition.always_iff_along` — when a property holds all along a run, for steps that break it
  exactly when they fail a guard.
* `Transition.exists_run_of_rank` — where a rank can always be lowered, the goal is reached.
* `Transition.exists_run_of_rank_run` — the same where runs lower the rank.
* `Transition.history_of_run` — what a run adds to a list that records its actions.
* `Transition.run_project` — runs of a system map to runs of a system it refines, up to
  stuttering.
* `Transition.run_image` — runs of a system are runs of one whose steps match its own.
* `Transition.map_run_of_invariant` — two systems with the same steps have the same runs.
* `Transition.map_run_of_along` — the same for runs whose steps all meet a guard.
* `Transition.run_lift` — runs of a system lift to runs of one that records its history.
* `Transition.latch_iff` — a set/reset latch records exactly whether it is latched.
-/

namespace Transition

variable {σ α τ β : Type*} {step : σ → α → Option σ}

/-- The state reached from `s` by performing the actions in order, or `none` when one of them
is not enabled at its turn. -/
def run (step : σ → α → Option σ) : σ → List α → Option σ
  | s, [] => some s
  | s, a :: as => (step s a).bind fun t => run step t as

/-- The empty run stays where it is. -/
@[simp] lemma run_nil (s : σ) : run step s [] = some s := rfl

/-- A run of one action is a step. -/
@[simp] lemma run_singleton (s : σ) (a : α) : run step s [a] = step s a := by
  simp [run]

/-- A run of `a :: as` is a step `a` followed by a run of `as`. -/
lemma run_cons {s u : σ} {a : α} {as : List α} :
    run step s (a :: as) = some u ↔ ∃ t, step s a = some t ∧ run step t as = some u := by
  simp [run, Option.bind_eq_some_iff]

/-- A run of `as ++ bs` is a run of `as` followed by a run of `bs`. -/
lemma run_append {s u : σ} {as bs : List α} :
    run step s (as ++ bs) = some u ↔ ∃ t, run step s as = some t ∧ run step t bs = some u := by
  induction as generalizing s with
  | nil => simp
  | cons a as ih =>
    rw [List.cons_append, run_cons]
    constructor
    · rintro ⟨t, hst, hrun⟩
      obtain ⟨t', ht', hu⟩ := ih.mp hrun
      exact ⟨t', run_cons.mpr ⟨t, hst, ht'⟩, hu⟩
    · rintro ⟨t', hrun, hu⟩
      obtain ⟨t, hst, ht'⟩ := run_cons.mp hrun
      exact ⟨t, hst, ih.mpr ⟨t', ht', hu⟩⟩

/-- Two runs in a row are a run. -/
lemma run_trans {s t u : σ} {as bs : List α} (h₁ : run step s as = some t)
    (h₂ : run step t bs = some u) : run step s (as ++ bs) = some u :=
  run_append.mpr ⟨t, h₁, h₂⟩

/-- Where every action is enabled, every list of actions is a run. -/
lemma exists_run_of_enabled (h : ∀ s a, ∃ t, step s a = some t) (s : σ) (as : List α) :
    ∃ t, run step s as = some t := by
  induction as generalizing s with
  | nil => exact ⟨s, rfl⟩
  | cons a as ih =>
    obtain ⟨t, ht⟩ := h s a
    obtain ⟨u, hu⟩ := ih t
    exact ⟨u, run_cons.mpr ⟨t, ht, hu⟩⟩

/-- **The invariant rule**: a property that every step keeps holds at the end of every run that
starts with it. -/
theorem invariant_of_run {I : σ → Prop} (hstep : ∀ s a t, I s → step s a = some t → I t)
    {s t : σ} {as : List α} (hs : I s) (h : run step s as = some t) : I t := by
  induction as generalizing s with
  | nil =>
    obtain rfl : s = t := by simpa using h
    exact hs
  | cons a as ih =>
    obtain ⟨u, hsu, hut⟩ := run_cons.mp h
    exact ih (hstep s a u hs hsu) hut

/-- Every step of the run of `as` from `s` is taken from a state that meets the guard `G` for
the action taken there. -/
def Along (step : σ → α → Option σ) (G : σ → α → Prop) : σ → List α → Prop
  | _, [] => True
  | s, a :: as => G s a ∧ ∀ t, step s a = some t → Along step G t as

/-- A run of `a :: as` meets the guard if its first step does and the rest does from there. -/
lemma Along.cons {G : σ → α → Prop} {s u : σ} {a : α} {as : List α} (ha : G s a)
    (hstep : step s a = some u) (has : Along step G u as) : Along step G s (a :: as) :=
  ⟨ha, fun t ht => by rwa [Option.some.inj (ht.symm.trans hstep)]⟩

/-- The guard along `a :: as` is the guard of the step `a` and the guard along `as` from there. -/
lemma along_cons {G : σ → α → Prop} {s u : σ} {a : α} {as : List α} (hstep : step s a = some u) :
    Along step G s (a :: as) ↔ G s a ∧ Along step G u as :=
  ⟨fun h => ⟨h.1, h.2 u hstep⟩, fun h => Along.cons h.1 hstep h.2⟩

/-- A guard that does not look at the state is met along a run exactly if all actions meet it. -/
lemma along_iff_forall {P : α → Prop} {s u : σ} {as : List α} (hrun : run step s as = some u) :
    Along step (fun _ a => P a) s as ↔ ∀ a ∈ as, P a := by
  induction as generalizing s with
  | nil => simp [Along]
  | cons a as ih =>
    obtain ⟨t, hst, hrest⟩ := run_cons.mp hrun
    rw [along_cons hst, ih hrest, List.forall_mem_cons]

/-- Actions that meet the guard in every state meet it along every run. -/
lemma along_of_forall {G : σ → α → Prop} {as : List α} (h : ∀ a ∈ as, ∀ s, G s a) (s : σ) :
    Along step G s as := by
  induction as generalizing s with
  | nil => trivial
  | cons a as ih =>
    exact ⟨h a List.mem_cons_self s, fun t _ => ih (fun b hb => h b (List.mem_cons_of_mem a hb)) t⟩

/-- Two runs in a row that meet the guard are a run that meets it. -/
lemma Along.append {G : σ → α → Prop} {s t : σ} {as bs : List α} (has : Along step G s as)
    (hrun : run step s as = some t) (hbs : Along step G t bs) : Along step G s (as ++ bs) := by
  induction as generalizing s with
  | nil =>
    obtain rfl : s = t := by simpa using hrun
    exact hbs
  | cons a as ih =>
    obtain ⟨u, hsu, hut⟩ := run_cons.mp hrun
    exact Along.cons has.1 hsu (ih (has.2 u hsu) hut)

/-- A guard and a property of all actions are a guard. -/
lemma Along.and_forall {G : σ → α → Prop} {P : α → Prop} {s : σ} {as : List α}
    (has : Along step G s as) (hP : ∀ a ∈ as, P a) : Along step (fun s a => G s a ∧ P a) s as := by
  induction as generalizing s with
  | nil => trivial
  | cons a as ih =>
    exact ⟨⟨has.1, hP a List.mem_cons_self⟩, fun t ht =>
      ih (has.2 t ht) fun b hb => hP b (List.mem_cons_of_mem a hb)⟩

/-- **The guarded invariant rule**: a property that every step meeting the guard keeps holds at
the end of every run whose steps all meet it. -/
theorem invariant_of_run_along {I : σ → Prop} {G : σ → α → Prop}
    (hstep : ∀ s a t, I s → G s a → step s a = some t → I t)
    {s t : σ} {as : List α} (hs : I s) (hG : Along step G s as) (h : run step s as = some t) :
    I t := by
  induction as generalizing s with
  | nil =>
    obtain rfl : s = t := by simpa using h
    exact hs
  | cons a as ih =>
    obtain ⟨u, hsu, hut⟩ := run_cons.mp h
    exact ih (hstep s a u hs hG.1 hsu) (hG.2 u hsu) hut

/-! ## Properties of all states of a run -/

/-- Every state of the run of `as` from `s`, its first and its last one included, has the
property. -/
def Always (step : σ → α → Option σ) (P : σ → Prop) (s : σ) (as : List α) : Prop :=
  ∀ bs t, bs <+: as → run step s bs = some t → P t

/-- The states of a run of `a :: as` are the first one and those of the run of `as`. -/
lemma always_cons {P : σ → Prop} {s t : σ} {a : α} {as : List α} (hstep : step s a = some t) :
    Always step P s (a :: as) ↔ P s ∧ Always step P t as := by
  constructor
  · intro h
    refine ⟨h [] s List.nil_prefix rfl, ?_⟩
    intro bs u hbs hrun
    exact h (a :: bs) u (List.cons_prefix_cons.mpr ⟨rfl, hbs⟩) (run_cons.mpr ⟨t, hstep, hrun⟩)
  · rintro ⟨hs, h⟩ bs u hbs hrun
    cases bs with
    | nil =>
      obtain rfl : s = u := by simpa using hrun
      exact hs
    | cons b bs =>
      obtain ⟨rfl, hpre⟩ := List.cons_prefix_cons.mp hbs
      obtain ⟨t', hstep', hrun'⟩ := run_cons.mp hrun
      obtain rfl : t = t' := Option.some.inj (hstep.symm.trans hstep')
      exact h bs u hpre hrun'

/-- The states of the first part of a run are states of the run. -/
lemma Always.left {P : σ → Prop} {s : σ} {as bs : List α} (h : Always step P s (as ++ bs)) :
    Always step P s as :=
  fun cs t hcs hrun => h cs t (hcs.trans (List.prefix_append as bs)) hrun

/-- The states of the second part of a run are states of the run. -/
lemma Always.right {P : σ → Prop} {s t : σ} {as bs : List α} (h : Always step P s (as ++ bs))
    (hrun : run step s as = some t) : Always step P t bs :=
  fun cs u hcs hcsrun =>
    h (as ++ cs) u ((List.prefix_append_right_inj as).mpr hcs) (run_trans hrun hcsrun)

/-- A property of all states may be weakened. -/
lemma Always.imp {P Q : σ → Prop} {s : σ} {as : List α} (h : Always step P s as)
    (hPQ : ∀ t, P t → Q t) : Always step Q s as :=
  fun bs t hbs hrun => hPQ t (h bs t hbs hrun)

/-- A prefix of a run meets the guard that the run meets. -/
lemma Along.of_prefix {G : σ → α → Prop} {s : σ} {as bs : List α} (has : Along step G s as)
    (hbs : bs <+: as) : Along step G s bs := by
  induction bs generalizing s as with
  | nil => trivial
  | cons b bs ih =>
    obtain ⟨cs, rfl⟩ := hbs
    exact ⟨has.1, fun t ht => ih (has.2 t ht) (List.prefix_append bs cs)⟩

/-- **The guarded invariant rule for all states.** -/
theorem always_of_along {I : σ → Prop} {G : σ → α → Prop}
    (hstep : ∀ s a t, I s → G s a → step s a = some t → I t) {s : σ} {as : List α} (hs : I s)
    (hG : Along step G s as) : Always step I s as :=
  fun _ _ hbs hrun => invariant_of_run_along hstep hs (hG.of_prefix hbs) hrun

/-- **The invariant rule under a property of all states**: what every step into a state with the
property keeps holds at the end of a run all of whose states have the property. -/
theorem invariant_of_run_always {I P : σ → Prop}
    (hstep : ∀ s a t, I s → P t → step s a = some t → I t) {s u : σ} {as : List α} (hs : I s)
    (hP : Always step P s as) (hrun : run step s as = some u) : I u := by
  induction as generalizing s with
  | nil =>
    obtain rfl : s = u := by simpa using hrun
    exact hs
  | cons a as ih =>
    obtain ⟨t, hst, hrest⟩ := run_cons.mp hrun
    obtain ⟨-, hP⟩ := (always_cons hst).mp hP
    exact ih (hstep s a t hs (hP [] t List.nil_prefix rfl) hst) hP hrest

/-- **When a property holds all along a run**: if the steps that meet the guard keep an invariant
that gives the property, and a step that fails the guard in such a state loses the property, then
the property holds in every state of a run exactly if all its steps meet the guard.

**Proof sketch.** Up to the first step that fails the guard the invariant holds, and that step
leads to a state without the property. -/
theorem always_iff_along {I P : σ → Prop} {G : σ → α → Prop}
    (hstep : ∀ s a t, I s → G s a → step s a = some t → I t) (hP : ∀ s, I s → P s)
    (hbad : ∀ s a t, I s → step s a = some t → P t → G s a) {s u : σ} {as : List α} (hs : I s)
    (hrun : run step s as = some u) : Always step P s as ↔ Along step G s as := by
  constructor
  · intro h
    induction as generalizing s with
    | nil => trivial
    | cons a as ih =>
      obtain ⟨t, hst, hrun⟩ := run_cons.mp hrun
      obtain ⟨-, h⟩ := (always_cons hst).mp h
      have ha : G s a := hbad s a t hs hst (h [] t List.nil_prefix rfl)
      exact Along.cons ha hst (ih (hstep s a t hs ha hst) hrun h)
  · intro hG bs t hbs hrun
    exact hP t (always_of_along hstep hs hG bs t hbs hrun)

/-! ## Progress -/

/-- **The progress rule**: if in every ranked state short of the goal an action of a given kind is
enabled and lowers the rank, such actions lead from every ranked state to the goal. -/
theorem exists_run_of_rank {I : ℕ → σ → Prop} {G : σ → Prop} {A : α → Prop}
    (h : ∀ k s, I k s → ¬G s → ∃ a t j, A a ∧ step s a = some t ∧ j < k ∧ I j t) {k : ℕ} {s : σ}
    (hs : I k s) : ∃ as t, (∀ a ∈ as, A a) ∧ run step s as = some t ∧ G t := by
  induction k using Nat.strong_induction_on generalizing s with
  | _ k ih =>
    by_cases hG : G s
    · exact ⟨[], s, by simp, rfl, hG⟩
    · obtain ⟨a, t, j, ha, hst, hj, ht⟩ := h k s hs hG
      obtain ⟨as, u, has, hrun, hu⟩ := ih j hj ht
      exact ⟨a :: as, u, List.forall_mem_cons.mpr ⟨ha, has⟩, run_cons.mpr ⟨t, hst, hrun⟩, hu⟩

/-- **The progress rule for runs**: if from every ranked state short of the goal actions of a given
kind lead to a state of a lower rank, such actions lead from every ranked state to a ranked state
that is the goal. -/
theorem exists_run_of_rank_run {I : ℕ → σ → Prop} {G : σ → Prop} {A : α → Prop}
    (h : ∀ k s, I k s → ¬G s →
      ∃ as t j, (∀ a ∈ as, A a) ∧ run step s as = some t ∧ j < k ∧ I j t) {k : ℕ} {s : σ}
    (hs : I k s) :
    ∃ as t, (∀ a ∈ as, A a) ∧ run step s as = some t ∧ G t ∧ ∃ j, I j t := by
  induction k using Nat.strong_induction_on generalizing s with
  | _ k ih =>
    by_cases hG : G s
    · exact ⟨[], s, by simp, rfl, hG, k, hs⟩
    · obtain ⟨as, t, j, has, hst, hj, ht⟩ := h k s hs hG
      obtain ⟨bs, u, hbs, hrun, hu⟩ := ih j hj ht
      exact ⟨as ++ bs, u, fun a ha => (List.mem_append.mp ha).elim (has a) (hbs a),
        run_trans hst hrun, hu⟩

/-! ## History -/

/-- **The history rule**: a list to which every step adds what its action stands for, if anything,
has had added to it what the actions of a run stand for. -/
theorem history_of_run {f : σ → List β} {g : α → Option β}
    (hstep : ∀ s a t, step s a = some t → f t = f s ++ (g a).toList) {s t : σ} {as : List α}
    (h : run step s as = some t) : f t = f s ++ as.filterMap g := by
  induction as generalizing s with
  | nil =>
    obtain rfl : s = t := by simpa using h
    simp
  | cons a as ih =>
    obtain ⟨u, hsu, hut⟩ := run_cons.mp h
    rw [ih hut, hstep s a u hsu, List.append_assoc]
    cases hg : g a with
    | none => rw [List.filterMap_cons_none hg, Option.toList_none, List.nil_append]
    | some b => rw [List.filterMap_cons_some hg, Option.toList_some, List.singleton_append]

/-! ## Two systems -/

/-- **Projection of runs**: if every step of a system either leaves its image under `f`
unchanged or is a step of a second system there, every run projects to a run of the second. -/
theorem run_project {step' : τ → β → Option τ} (f : σ → τ)
    (hsim : ∀ s a t, step s a = some t → f t = f s ∨ ∃ b, step' (f s) b = some (f t))
    {s t : σ} {as : List α} (h : run step s as = some t) :
    ∃ bs, run step' (f s) bs = some (f t) := by
  induction as generalizing s with
  | nil =>
    obtain rfl : s = t := by simpa using h
    exact ⟨[], rfl⟩
  | cons a as ih =>
    obtain ⟨u, hsu, hut⟩ := run_cons.mp h
    obtain ⟨bs, hbs⟩ := ih hut
    rcases hsim s a u hsu with heq | ⟨b, hb⟩
    · exact ⟨bs, by rw [← heq]; exact hbs⟩
    · exact ⟨b :: bs, run_cons.mpr ⟨f u, hb, hbs⟩⟩

/-- **Images of runs**: if every step of a system is, under `f` on states and `g` on actions, a step
of a second system, every run is a run of the second. -/
theorem run_image {step' : τ → β → Option τ} (f : σ → τ) (g : α → β)
    (hsim : ∀ s a t, step s a = some t → step' (f s) (g a) = some (f t))
    {s t : σ} {as : List α} (h : run step s as = some t) :
    run step' (f s) (as.map g) = some (f t) := by
  induction as generalizing s with
  | nil =>
    obtain rfl : s = t := by simpa using h
    rfl
  | cons a as ih =>
    obtain ⟨u, hsu, hut⟩ := run_cons.mp h
    exact run_cons.mpr ⟨f u, hsim s a u hsu, ih hut⟩

/-- **Lifting of runs**: a system that takes the same actions as a second one and projects to it
has a run over every run of the second. Such a system may keep variables of its own about the
history. -/
theorem run_lift {step' : τ → α → Option τ} (f : σ → τ)
    (hlift : ∀ s a t, step' (f s) a = some t → ∃ s', step s a = some s' ∧ f s' = t)
    {s : σ} {t : τ} {as : List α} (h : run step' (f s) as = some t) :
    ∃ s', run step s as = some s' ∧ f s' = t := by
  induction as generalizing s with
  | nil =>
    obtain rfl : f s = t := by simpa using h
    exact ⟨s, rfl, rfl⟩
  | cons a as ih =>
    obtain ⟨u, hu, hrest⟩ := run_cons.mp h
    obtain ⟨s₁, hs₁, rfl⟩ := hlift s a u hu
    obtain ⟨s', hs', hf⟩ := ih hrest
    exact ⟨s', run_cons.mpr ⟨s₁, hs₁, hs'⟩, hf⟩

/-- **Equal runs**: if, as long as an invariant holds, every step of a system is under `f` the step
of a second one, or is enabled in neither, the two have the same runs. -/
theorem map_run_of_invariant {step' : τ → α → Option τ} {I : σ → Prop} (f : σ → τ)
    (hstep : ∀ s a, I s → (step s a).map f = step' (f s) a)
    (hinv : ∀ s a t, I s → step s a = some t → I t) {s : σ} (hs : I s) (as : List α) :
    (run step s as).map f = run step' (f s) as := by
  induction as generalizing s with
  | nil => rfl
  | cons a as ih =>
    rw [run, run, ← hstep s a hs]
    cases hu : step s a with
    | none => rfl
    | some u => exact ih (hinv s a u hs hu)

/-- **Equal runs under a guard**: the same for runs whose steps all meet a guard. -/
theorem map_run_of_along {step' : τ → α → Option τ} {G : σ → α → Prop} (f : σ → τ)
    (hstep : ∀ s a, G s a → (step s a).map f = step' (f s) a) {s : σ} {as : List α}
    (hG : Along step G s as) : (run step s as).map f = run step' (f s) as := by
  induction as generalizing s with
  | nil => rfl
  | cons a as ih =>
    rw [run, run, ← hstep s a hG.1]
    cases hu : step s a with
    | none => rfl
    | some u => exact ih (hG.2 u hu)

/-- **Simulation of runs**: if every step of a system from a related state is matched by a run of a
second system to a related state, every run is. -/
theorem exists_run_of_simulation {step' : τ → β → Option τ} {R : σ → τ → Prop}
    (hsim : ∀ s t a s', R s t → step s a = some s' → ∃ bs t', run step' t bs = some t' ∧ R s' t')
    {s s' : σ} {t : τ} {as : List α} (hR : R s t) (h : run step s as = some s') :
    ∃ bs t', run step' t bs = some t' ∧ R s' t' := by
  induction as generalizing s t with
  | nil =>
    obtain rfl : s = s' := by simpa using h
    exact ⟨[], t, rfl, hR⟩
  | cons a as ih =>
    obtain ⟨u, hu, hrest⟩ := run_cons.mp h
    obtain ⟨bs, t₁, hbs, hR₁⟩ := hsim s t a u hR hu
    obtain ⟨cs, t', hcs, hR'⟩ := ih hR₁ hrest
    exact ⟨bs ++ cs, t', run_trans hbs hcs, hR'⟩

/-! ## Set/reset latches -/

/-- Some event of the history sets the latch and no later one resets it. -/
def Latched (sets resets : α → Bool) (as : List α) : Prop :=
  ∃ before a after, as = before ++ a :: after ∧ sets a = true ∧ ∀ b ∈ after, resets b = false

/-- The value of a latch after a history, from the value `v`: an event first sets, then resets. -/
def latch (sets resets : α → Bool) (v : Bool) (as : List α) : Bool :=
  as.foldl (fun v a => (v || sets a) && !resets a) v

/-- A latch is on exactly if it was on and never reset, or is latched by the history, for events
that do not set and reset at once.

**Proof sketch.** Induction on the history. The first event either leaves the latch on, and then
only the rest matters, or is itself the setting event that the rest does not undo. -/
lemma latch_eq_true_iff {sets resets : α → Bool} {as : List α}
    (hex : ∀ a ∈ as, sets a = true → resets a = false) (v : Bool) :
    latch sets resets v as = true ↔
      (v = true ∧ ∀ a ∈ as, resets a = false) ∨ Latched sets resets as := by
  induction as generalizing v with
  | nil => simp [latch, Latched]
  | cons a as ih =>
    have hstep : latch sets resets v (a :: as) =
        latch sets resets ((v || sets a) && !resets a) as := rfl
    have hcons : Latched sets resets (a :: as) ↔
        (sets a = true ∧ ∀ b ∈ as, resets b = false) ∨ Latched sets resets as := by
      constructor
      · rintro ⟨before, b, after, heq, hb, hafter⟩
        cases before with
        | nil =>
          obtain ⟨rfl, rfl⟩ : a = b ∧ as = after := by simpa using heq
          exact Or.inl ⟨hb, hafter⟩
        | cons c before =>
          obtain ⟨-, rfl⟩ : a = c ∧ as = before ++ b :: after := by simpa using heq
          exact Or.inr ⟨before, b, after, rfl, hb, hafter⟩
      · rintro (⟨ha, hafter⟩ | ⟨before, b, after, rfl, hb, hafter⟩)
        · exact ⟨[], a, as, rfl, ha, hafter⟩
        · exact ⟨a :: before, b, after, rfl, hb, hafter⟩
    have hset := hex a List.mem_cons_self
    rw [hstep, ih fun b hb => hex b (List.mem_cons_of_mem a hb), hcons]
    simp only [Bool.and_eq_true, Bool.or_eq_true, Bool.not_eq_true', List.forall_mem_cons]
    tauto

/-- **A latch that starts off records whether its history latches it.** -/
theorem latch_iff {sets resets : α → Bool} {as : List α}
    (hex : ∀ a ∈ as, sets a = true → resets a = false) :
    latch sets resets false as = true ↔ Latched sets resets as := by
  rw [latch_eq_true_iff hex]
  simp

end Transition
