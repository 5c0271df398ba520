import Huc.Lib.Transition
import Huc.Message

set_option relaxedAutoImplicit false
set_option autoImplicit false

/-!
# The loader children of the daemon

For every program it receives, the main loop of `guestend/daemon.c` forks a child that loads the
program and polls its map for ever. The parent keeps the pid of the last child in `child_pid` and
kills that child once the next one has been forked, so that only the newest program runs.

The variable `child_pid` has a second meaning: a failed `fork` sets it to `-1`. The child that was
running then is forgotten, and no later message kills it. Here the parent is followed through any
sequence of messages, and this is shown to be the only way to leave an old child behind.

## Main definitions

* `Huc.MainState` — the parent's `child_pid`, with the children forked and those killed.
* `Huc.MainMsg`, `Huc.mainStep` — the main loop's reaction to a message.
* `Huc.MainState.OneLoader` — no loader but `child_pid` is left running.

## Main results

* `Huc.oneLoader_iff` — at most one loader runs exactly while no `fork` fails after one has
  succeeded.
* `Huc.oneLoader_fork_fails` — a run that forgets a child.
-/

namespace Huc

open Transition

/-! ## The main loop -/

/-- What `fork` returns to the parent. -/
inductive ForkOutcome
  | failed
  | child (pid : ℤ)
  deriving DecidableEq

/-- A message that `recv_bytecode` has returned, by its type, with the outcome of the `fork` it
leads to. -/
structure MainMsg where
  type : Byte
  fork : ForkOutcome
  deriving DecidableEq

/-- The parent's variable `child_pid`, the pids that `fork` has returned to it, and those it has
sent `SIGKILL` to. -/
structure MainState where
  childPid : ℤ
  forked : List ℤ
  killed : List ℤ
  deriving DecidableEq

/-- Before the first message. -/
def MainState.start : MainState := ⟨-1, [], []⟩

/-- The branches of the `PROGRAM_INJECTION` case that the parent takes after `fork`. A pid is
positive, and not that of an earlier child: the parent never waits for its children. -/
def MainState.injected (s : MainState) : ForkOutcome → Option MainState
  | .failed => some { s with childPid := -1 }
  | .child pid =>
    if 0 < pid ∧ pid ∉ s.forked then
      some
        { childPid := pid
          forked := s.forked ++ [pid]
          killed := if s.childPid ≠ -1 then s.killed ++ [s.childPid] else s.killed }
    else none

/-- The switch of the main loop, in the parent. -/
def mainStep (s : MainState) (m : MainMsg) : Option MainState :=
  if m.type = MsgType.programInjection.code then s.injected m.fork else some s

/-- The loader children that were forked and not killed. -/
def MainState.running (s : MainState) : List ℤ := s.forked.filter fun pid => pid ∉ s.killed

/-- No loader but `child_pid` is left running. -/
def MainState.OneLoader (s : MainState) : Prop := ∀ pid ∈ s.running, pid = s.childPid

instance (s : MainState) : Decidable s.OneLoader :=
  inferInstanceAs (Decidable (∀ pid ∈ s.running, pid = s.childPid))

namespace MainMsg

/-- The message makes the parent fork a child. -/
def Forks (m : MainMsg) : Prop :=
  m.type = MsgType.programInjection.code ∧ m.fork ≠ .failed

/-- The message makes the parent call `fork`, which fails. -/
def ForkFails (m : MainMsg) : Prop :=
  m.type = MsgType.programInjection.code ∧ m.fork = .failed

end MainMsg

/-! ## One message -/

/-- A pid is running if it was forked and not killed. -/
@[simp] lemma mem_running {s : MainState} {pid : ℤ} :
    pid ∈ s.running ↔ pid ∈ s.forked ∧ pid ∉ s.killed := by
  simp [MainState.running]

/-- **What a message does to the parent**: it is of another type, or `fork` fails, or a child is
forked and the one before it killed. -/
lemma mainStep_cases {s t : MainState} {m : MainMsg} (h : mainStep s m = some t) :
    (¬m.Forks ∧ ¬m.ForkFails ∧ t = s) ∨
    (m.ForkFails ∧ t = { s with childPid := -1 }) ∨
    (m.Forks ∧ ∃ pid, 0 < pid ∧ pid ∉ s.forked ∧
      t = ⟨pid, s.forked ++ [pid],
        if s.childPid ≠ -1 then s.killed ++ [s.childPid] else s.killed⟩) := by
  unfold mainStep at h
  by_cases htype : m.type = MsgType.programInjection.code
  · rw [if_pos htype] at h
    cases hf : m.fork with
    | failed =>
      rw [hf] at h
      exact Or.inr (Or.inl ⟨⟨htype, hf⟩, (Option.some.inj h).symm⟩)
    | child pid =>
      rw [hf, MainState.injected] at h
      by_cases hpid : 0 < pid ∧ pid ∉ s.forked
      · rw [if_pos hpid] at h
        refine Or.inr (Or.inr ⟨⟨htype, by rw [hf]; simp⟩, pid, hpid.1, hpid.2, ?_⟩)
        exact (Option.some.inj h).symm
      · rw [if_neg hpid] at h
        exact absurd h (by simp)
  · rw [if_neg htype] at h
    exact Or.inl ⟨fun hm => htype hm.1, fun hm => htype hm.1, (Option.some.inj h).symm⟩

/-- The invariant of the parent while it has forgotten no child: the one it tracks is running, and
no other is. -/
structure MainInv (s : MainState) : Prop where
  one : s.OneLoader
  tracked : s.childPid ≠ -1 → s.childPid ∈ s.running
  positive : ∀ pid ∈ s.forked, 0 < pid
  killed : ∀ pid ∈ s.killed, pid ∈ s.forked

/-- The parent starts without children. -/
lemma mainInv_start : MainInv MainState.start where
  one pid hpid := by simp [MainState.running, MainState.start] at hpid
  tracked h := absurd rfl h
  positive pid hpid := absurd hpid List.not_mem_nil
  killed pid hpid := absurd hpid List.not_mem_nil

/-- A `fork` that fails finds no child tracked. -/
def NoneTracked (s : MainState) (m : MainMsg) : Prop := m.ForkFails → s.childPid = -1

/-- **A fork keeps the invariant**: the child before, if there is one, is the only one running, and
is killed.

**Proof sketch.** A child that runs after the round is the new one, or ran before and is not the
tracked one; but the tracked one was the only one that ran. A child that was killed was forked
before, so that the new one is not among them. -/
lemma MainInv.fork {s : MainState} (h : MainInv s) {pid : ℤ} (hpos : 0 < pid)
    (hnew : pid ∉ s.forked) :
    MainInv ⟨pid, s.forked ++ [pid],
      if s.childPid ≠ -1 then s.killed ++ [s.childPid] else s.killed⟩ := by
  have htracked : s.childPid ≠ -1 → s.childPid ∈ s.forked := fun hne =>
    (mem_running.mp (h.tracked hne)).1
  have hkilled : ∀ p, (p ∈ if s.childPid ≠ -1 then s.killed ++ [s.childPid] else s.killed) ↔
      p ∈ s.killed ∨ s.childPid ≠ -1 ∧ p = s.childPid := by
    intro p
    by_cases hc : s.childPid = -1
    · simp [hc]
    · simp [hc]
  have hfresh : pid ∉ if s.childPid ≠ -1 then s.killed ++ [s.childPid] else s.killed := by
    rw [hkilled]
    rintro (hk | ⟨hne, rfl⟩)
    · exact hnew (h.killed pid hk)
    · exact hnew (htracked hne)
  refine ⟨?_, fun _ => mem_running.mpr ⟨by simp, hfresh⟩, ?_, ?_⟩
  · intro p hp
    obtain ⟨hforked, hlive⟩ := mem_running.mp hp
    simp only [hkilled, not_or] at hlive
    rcases List.mem_append.mp hforked with hold | hlast
    · -- an older child would be the one tracked, which has just been killed
      have hp' := h.one p (mem_running.mpr ⟨hold, hlive.1⟩)
      have hne : s.childPid ≠ -1 := by
        have := h.positive p hold
        omega
      exact absurd ⟨hne, hp'⟩ hlive.2
    · exact List.mem_singleton.mp hlast
  · intro p hp
    rcases List.mem_append.mp hp with hold | hlast
    · exact h.positive p hold
    · rw [List.mem_singleton.mp hlast]
      exact hpos
  · intro p hp
    rcases (hkilled p).mp hp with hk | ⟨hne, rfl⟩
    · exact List.mem_append_left [pid] (h.killed p hk)
    · exact List.mem_append_left [pid] (htracked hne)

/-- A message keeps the invariant unless its `fork` fails while a child is tracked. -/
lemma mainStep_inv {s t : MainState} {m : MainMsg} (h : MainInv s) (hm : NoneTracked s m)
    (hstep : mainStep s m = some t) : MainInv t := by
  rcases mainStep_cases hstep with ⟨-, -, rfl⟩ | ⟨hfail, rfl⟩ | ⟨-, pid, hpos, hnew, rfl⟩
  · exact h
  · have hnone := hm hfail
    refine ⟨fun pid hpid => (h.one pid hpid).trans hnone, fun hne => absurd rfl hne, h.positive,
      h.killed⟩
  · exact h.fork hpos hnew

/-- A `fork` that fails while a child is tracked leaves that child behind. -/
lemma noneTracked_of_oneLoader {s t : MainState} {m : MainMsg} (h : MainInv s)
    (hstep : mainStep s m = some t) (ht : t.OneLoader) : NoneTracked s m := by
  intro hfail
  by_contra hne
  rcases mainStep_cases hstep with ⟨-, hcon, -⟩ | ⟨-, rfl⟩ | ⟨hfork, -⟩
  · exact hcon hfail
  · exact hne (ht s.childPid (h.tracked hne))
  · exact hfork.2 hfail.2

/-! ## All messages -/

/-- Along a run a `fork` fails only with no child tracked exactly if none fails after one has
succeeded.

**Proof sketch.** Induction on the messages. A child is tracked from the first success on, as long
as no `fork` fails. -/
lemma along_noneTracked_iff {s u : MainState} (ms : List MainMsg)
    (hrun : run mainStep s ms = some u) :
    Along mainStep NoneTracked s ms ↔
      (s.childPid ≠ -1 → ∀ m ∈ ms, ¬m.ForkFails) ∧
        ms.Pairwise fun m m' => ¬(m.Forks ∧ m'.ForkFails) := by
  induction ms generalizing s with
  | nil => simp [Along]
  | cons m ms ih =>
    obtain ⟨t, hst, hrest⟩ := run_cons.mp hrun
    rw [along_cons hst, ih hrest, List.pairwise_cons]
    rcases mainStep_cases hst with ⟨hfork, hfail, rfl⟩ | ⟨hfail, rfl⟩ | ⟨hfork, pid, hpos, -, rfl⟩
    · simp only [NoneTracked, hfail, hfork, List.forall_mem_cons, false_and, not_false_eq_true,
        implies_true, true_and, false_implies]
    · have hfork : ¬m.Forks := fun h => h.2 hfail.2
      simp only [NoneTracked, hfail, hfork, List.forall_mem_cons, false_and, not_false_eq_true,
        implies_true, true_and, not_true_eq_false, ne_eq, false_implies, true_implies, imp_false,
        not_not]
    · have hfail : ¬m.ForkFails := fun h => hfork.2 h.2
      have hpid : pid ≠ -1 := by omega
      simp only [NoneTracked, hfail, hfork, List.forall_mem_cons, not_false_eq_true,
        true_and, ne_eq, hpid, false_implies, true_implies]
      constructor
      · rintro ⟨hall, hpair⟩
        exact ⟨fun _ => hall, hall, hpair⟩
      · rintro ⟨-, hall, hpair⟩
        exact ⟨hall, hpair⟩

/-- **At most one loader runs exactly while no `fork` fails after one has succeeded**: for every
sequence of messages and outcomes of `fork`, after each message every child that was forked and not
killed is `child_pid`, if and only if no failure of `fork` comes after a success.

**Proof sketch.** A failure without a child tracked forgets nothing, and a success kills the one
child running; so the invariant holds along such a run. A failure while a child is tracked leaves
that child running with `child_pid = -1`. -/
theorem oneLoader_iff (ms : List MainMsg) {s : MainState}
    (hrun : run mainStep MainState.start ms = some s) :
    Always mainStep MainState.OneLoader MainState.start ms ↔
      ms.Pairwise fun m m' => ¬(m.Forks ∧ m'.ForkFails) := by
  have halong := along_noneTracked_iff ms hrun
  rw [always_iff_along (fun _ _ _ h hm hst => mainStep_inv h hm hst) (fun _ h => h.one)
    (fun _ _ _ h hst ht => noneTracked_of_oneLoader h hst ht) mainInv_start hrun, halong]
  exact and_iff_right fun h => absurd rfl h

/-- The message that injects a program, with the outcome of the `fork` it leads to. -/
def injection (fork : ForkOutcome) : MainMsg := ⟨MsgType.programInjection.code, fork⟩

/-- A failed `fork` before two that succeed: one loader runs at a time. -/
theorem oneLoader_iff_three :
    ∃ s, run mainStep MainState.start
        [injection .failed, injection (.child 100), injection (.child 101)] = some s ∧
      Always mainStep MainState.OneLoader MainState.start
        [injection .failed, injection (.child 100), injection (.child 101)] := by
  refine ⟨⟨101, [100, 101], [100]⟩, by decide, ?_⟩
  refine (@oneLoader_iff _ ⟨101, [100, 101], [100]⟩ (by decide)).mpr ?_
  simp [MainMsg.Forks, MainMsg.ForkFails, injection]

/-- **A forgotten child**: the second `fork` fails, the third succeeds, and two loaders run. -/
theorem oneLoader_fork_fails :
    ∃ s, run mainStep MainState.start
        [injection (.child 100), injection .failed, injection (.child 101)] = some s ∧
      s.running = [100, 101] ∧ ¬s.OneLoader :=
  ⟨⟨101, [100, 101], []⟩, by decide, by decide, by decide⟩

end Huc
