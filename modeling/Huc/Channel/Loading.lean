import Huc.Channel.Saving

set_option relaxedAutoImplicit false
set_option autoImplicit false

/-!
# Loaders next to the saving parent

`Huc.mainRound` takes a round of the daemon's main loop as one step. In the program the loader
children run next to it: the parent goes back to `recv_bytecode` as soon as it has forked, and a
child reads `/tmp/bytecode` when it gets to it. By then the parent may have truncated the file for
the next program and written part of that. Nothing keeps the two apart but the kill at the end of
the round.

Here the accesses of the parent to the file, the `fork` and the `kill` are single steps, and every
child that is alive may read any part of the file between any two of them. A child whose
`load_bpf_file` fails ends by itself.

## Main definitions

* `Huc.Loading`, `Huc.loadingStep` — the parent and its children, one access at a time.
* `Huc.Loading.alive` — the children that were neither killed nor have ended by themselves.
* `Huc.Loading.settled` — the children as they are once the pending `kill` has been made.
* `Huc.LoadingInv`, `Huc.SoundInv` — the invariants, in general and with no call failing.

## Main results

* `Huc.run_mainStep_of_loading` — the children are those of the main loop.
* `Huc.exists_run_of_mainRound` — a round of the main loop is a run of the parent's accesses.
* `Huc.loads_newer` — from which programs the bytes come that a child reads.
* `Huc.survivor_loads_own` — the child that is left has read its own program.
* `Huc.injection_completes` — a round that has begun can be brought to its end.

## Design

How a child reads the file is not fixed: it may ask for any number of bytes at any offset, as often
as it likes. Its descriptor and that of the parent are of one file, which `fopen` truncates in
place. `fwrite` and `fclose` let the bytes reach the file in order and in any portions; after a
failure the rest is lost. When `load_bpf_file` fails is not fixed either: a child may end at any
time. The parent never waits for its children, so that a `kill` finds the pid of one that has ended
still taken, and changes nothing.
-/

namespace Huc

open Transition

/-! ## The accesses -/

/-- A read of a file: the offset, the number of bytes asked for, and the bytes delivered. -/
structure FileRead where
  offset : ℕ
  asked : ℕ
  bytes : List Byte
  deriving DecidableEq

/-- The read has delivered what a file with this content has there. -/
def FileRead.Of (r : FileRead) (file : List Byte) : Prop :=
  r.bytes = (file.drop r.offset).take r.asked

/-- Where the parent is in its loop: in `recv_bytecode`; before `fopen`, with the payload to save;
with the file open and `k` bytes of the payload in it; before `fork`; before `kill`, with the pid
that `fork` has returned. -/
inductive ParentPc
  | waiting
  | opening (p : List Byte)
  | writing (p : List Byte) (k : ℕ)
  | forking
  | killing (pid : ℤ)
  deriving DecidableEq

/-- The parent's side of the state is `/tmp/bytecode`, its position in the loop and its children;
every child has the list of the reads it has made, and some have ended by themselves. The rest is
history: the payloads that the parent has received, the contents that the file was opened for, and
for every child the number of the content that the file was last opened for when it was forked. -/
structure Loading where
  saved : Option (List Byte)
  pc : ParentPc
  main : MainState
  loads : ℤ → List FileRead
  exited : List ℤ
  received : List (List Byte)
  programs : List (List Byte)
  base : ℤ → ℕ

/-- Before the first message. There may be a file of an earlier daemon. -/
def Loading.start (saved : Option (List Byte)) : Loading where
  saved := saved
  pc := .waiting
  main := .start
  loads _ := []
  exited := []
  received := []
  programs := saved.toList
  base _ := 0

/-- The children that run: those forked that were not killed and have not ended by themselves. -/
def Loading.alive (s : Loading) : List ℤ := s.main.running.filter fun pid => pid ∉ s.exited

/-- A child runs if it was forked, not killed, and has not ended by itself. -/
@[simp] lemma mem_alive {s : Loading} {pid : ℤ} :
    pid ∈ s.alive ↔ pid ∈ s.main.running ∧ pid ∉ s.exited := by
  simp [Loading.alive]

/-- The accesses. -/
inductive LoadAct
  /-- `recv_bytecode` returns an injection with this payload. -/
  | receive (p : List Byte)
  /-- `fopen` truncates the file, or fails. -/
  | fopen (ok : Bool)
  /-- The next `n` bytes of the payload reach the file. -/
  | write (n : ℕ)
  /-- `fclose` succeeds. -/
  | close
  /-- `fwrite` or `fclose` fails. -/
  | lose
  /-- `fork` returns to the parent. -/
  | fork (outcome : ForkOutcome)
  /-- The parent kills the child before, if it tracks one, and tracks the new one. -/
  | kill
  /-- A child asks for `n` bytes of the file at the offset `off`. -/
  | read (pid : ℤ) (off n : ℕ)
  /-- A child ends by itself: its `load_bpf_file` has failed. -/
  | exit (pid : ℤ)
  deriving DecidableEq

namespace LoadAct

/-- The access is one of the parent. -/
def ofParent : LoadAct → Prop
  | .read .. => False
  | .exit _ => False
  | _ => True

/-- The access is a call of `save_bytecode` that fails, or a `fork` that fails. -/
def Fails : LoadAct → Prop
  | .fopen ok => ok = false
  | .lose => True
  | .fork outcome => outcome = .failed
  | _ => False

instance : (a : LoadAct) → Decidable a.Fails
  | .fopen ok => inferInstanceAs (Decidable (ok = false))
  | .lose => inferInstanceAs (Decidable True)
  | .fork outcome => inferInstanceAs (Decidable (outcome = .failed))
  | .receive _ | .write _ | .close | .kill | .read .. | .exit _ => inferInstanceAs (Decidable False)

end LoadAct

/-- The parent after the `kill`: `child_pid` is the new child, and the one before it is killed. -/
def MainState.tracking (s : MainState) (pid : ℤ) : MainState where
  childPid := pid
  forked := s.forked
  killed := if s.childPid ≠ -1 then s.killed ++ [s.childPid] else s.killed

/-- One access. -/
def loadingStep (s : Loading) : LoadAct → Option Loading
  | .receive p =>
    if s.pc = .waiting then some { s with pc := .opening p, received := s.received ++ [p] }
    else none
  | .fopen ok =>
    match s.pc with
    | .opening p =>
      if ok then
        some { s with saved := some [], pc := .writing p 0, programs := s.programs ++ [p] }
      else some { s with pc := .forking }
    | _ => none
  | .write n =>
    match s.pc with
    | .writing p k =>
      if k + n ≤ p.length then
        some { s with saved := some (p.take (k + n)), pc := .writing p (k + n) }
      else none
    | _ => none
  | .close =>
    match s.pc with
    | .writing p k => if k = p.length then some { s with pc := .forking } else none
    | _ => none
  | .lose =>
    match s.pc with
    | .writing _ _ => some { s with pc := .forking }
    | _ => none
  | .fork outcome =>
    if s.pc = .forking then
      match outcome with
      | .failed => some { s with pc := .waiting, main := { s.main with childPid := -1 } }
      | .child pid =>
        if 0 < pid ∧ pid ∉ s.main.forked then
          some { s with
            pc := .killing pid
            main := { s.main with forked := s.main.forked ++ [pid] }
            base := Function.update s.base pid (s.programs.length - 1) }
        else none
    else none
  | .kill =>
    match s.pc with
    | .killing pid => some { s with pc := .waiting, main := s.main.tracking pid }
    | _ => none
  | .read pid off n =>
    if pid ∈ s.alive then
      s.saved.map fun file => { s with
        loads := Function.update s.loads pid
          (s.loads pid ++ [⟨off, n, (file.drop off).take n⟩]) }
    else none
  | .exit pid => if pid ∈ s.alive then some { s with exited := s.exited ++ [pid] } else none

section Steps

variable {s t : Loading}

/-- `recv_bytecode` returns to a parent that waits. -/
lemma loadingStep_receive {p : List Byte} (h : loadingStep s (.receive p) = some t) :
    s.pc = .waiting ∧ t = { s with pc := .opening p, received := s.received ++ [p] } := by
  simp only [loadingStep] at h
  split_ifs at h with hpc
  exact ⟨hpc, (Option.some.inj h).symm⟩

/-- `fopen` truncates the file or leaves it. -/
lemma loadingStep_fopen {ok : Bool} (h : loadingStep s (.fopen ok) = some t) :
    ∃ p, s.pc = .opening p ∧
      (ok = true ∧
        t = { s with saved := some [], pc := .writing p 0, programs := s.programs ++ [p] } ∨
      ok = false ∧ t = { s with pc := .forking }) := by
  simp only [loadingStep] at h
  split at h
  · next p hpc =>
    refine ⟨p, hpc, ?_⟩
    cases ok with
    | true => exact Or.inl ⟨rfl, (Option.some.inj h).symm⟩
    | false => exact Or.inr ⟨rfl, (Option.some.inj h).symm⟩
  · exact absurd h (by simp)

/-- Bytes are added at the end of the file. -/
lemma loadingStep_write {n : ℕ} (h : loadingStep s (.write n) = some t) :
    ∃ p k, s.pc = .writing p k ∧ k + n ≤ p.length ∧
      t = { s with saved := some (p.take (k + n)), pc := .writing p (k + n) } := by
  simp only [loadingStep] at h
  split at h
  · next p k hpc =>
    split_ifs at h with hle
    exact ⟨p, k, hpc, hle, (Option.some.inj h).symm⟩
  · exact absurd h (by simp)

/-- `fclose` succeeds when all bytes have reached the file. -/
lemma loadingStep_close (h : loadingStep s .close = some t) :
    ∃ p, s.pc = .writing p p.length ∧ t = { s with pc := .forking } := by
  simp only [loadingStep] at h
  split at h
  · next p k hpc =>
    split_ifs at h with hk
    exact ⟨p, hk ▸ hpc, (Option.some.inj h).symm⟩
  · exact absurd h (by simp)

/-- A call that fails leaves the file as it is. -/
lemma loadingStep_lose (h : loadingStep s .lose = some t) :
    ∃ p k, s.pc = .writing p k ∧ t = { s with pc := .forking } := by
  simp only [loadingStep] at h
  split at h
  · next p k hpc => exact ⟨p, k, hpc, (Option.some.inj h).symm⟩
  · exact absurd h (by simp)

/-- `fork` makes a new child or none. -/
lemma loadingStep_fork {outcome : ForkOutcome} (h : loadingStep s (.fork outcome) = some t) :
    s.pc = .forking ∧
      (outcome = .failed ∧
        t = { s with pc := .waiting, main := { s.main with childPid := -1 } } ∨
      ∃ pid, outcome = .child pid ∧ 0 < pid ∧ pid ∉ s.main.forked ∧
        t = { s with
          pc := .killing pid
          main := { s.main with forked := s.main.forked ++ [pid] }
          base := Function.update s.base pid (s.programs.length - 1) }) := by
  simp only [loadingStep] at h
  split_ifs at h with hpc
  refine ⟨hpc, ?_⟩
  cases outcome with
  | failed => exact Or.inl ⟨rfl, (Option.some.inj h).symm⟩
  | child pid =>
    simp only at h
    split_ifs at h with hpid
    exact Or.inr ⟨pid, rfl, hpid.1, hpid.2, (Option.some.inj h).symm⟩

/-- The kill ends the round. -/
lemma loadingStep_kill (h : loadingStep s .kill = some t) :
    ∃ pid, s.pc = .killing pid ∧ t = { s with pc := .waiting, main := s.main.tracking pid } := by
  simp only [loadingStep] at h
  split at h
  · next pid hpc => exact ⟨pid, hpc, (Option.some.inj h).symm⟩
  · exact absurd h (by simp)

/-- A child that is alive reads the file as it is. -/
lemma loadingStep_read {pid : ℤ} {off n : ℕ} (h : loadingStep s (.read pid off n) = some t) :
    pid ∈ s.alive ∧ ∃ file r, s.saved = some file ∧ FileRead.Of r file ∧
      t = { s with loads := Function.update s.loads pid (s.loads pid ++ [r]) } := by
  simp only [loadingStep] at h
  split_ifs at h with hpid
  obtain ⟨file, hfile, rfl⟩ := Option.map_eq_some_iff.mp h
  exact ⟨hpid, file, ⟨off, n, (file.drop off).take n⟩, hfile, rfl, rfl⟩

/-- A child that is alive ends. -/
lemma loadingStep_exit {pid : ℤ} (h : loadingStep s (.exit pid) = some t) :
    pid ∈ s.alive ∧ t = { s with exited := s.exited ++ [pid] } := by
  simp only [loadingStep] at h
  split_ifs at h with hpid
  exact ⟨hpid, (Option.some.inj h).symm⟩

end Steps

/-! ## The children and the main loop -/

/-- The children as they are once the pending `kill` has been made. -/
def Loading.settled (s : Loading) : MainState :=
  match s.pc with
  | .killing pid => s.main.tracking pid
  | _ => s.main

/-- Without a `kill` pending the children are settled. -/
lemma Loading.settled_of_ne {s : Loading} (h : ∀ pid, s.pc ≠ .killing pid) :
    s.settled = s.main := by
  unfold Loading.settled
  split
  · next pid hpc => exact absurd hpc (h pid)
  · rfl

/-- The child that `fork` has returned is the next one tracked. -/
lemma Loading.settled_of_killing {s : Loading} {pid : ℤ} (h : s.pc = .killing pid) :
    s.settled = s.main.tracking pid := by
  rw [Loading.settled, h]

/-- A `fork` with the `kill` after it is the reaction of the main loop. -/
lemma injected_child {m : MainState} {pid : ℤ} (hpos : 0 < pid) (hnew : pid ∉ m.forked) :
    m.injected (.child pid) =
      some (MainState.tracking { m with forked := m.forked ++ [pid] } pid) := by
  rw [MainState.injected, if_pos ⟨hpos, hnew⟩]
  rfl

/-- A child that runs is the one that will be tracked, or the one about to be killed. -/
lemma Loading.mem_running_settled {s : Loading} {pid : ℤ} (h : pid ∈ s.main.running) :
    pid ∈ s.settled.running ∨ (∃ q, s.pc = .killing q) ∧ pid = s.main.childPid := by
  by_cases hpc : ∃ q, s.pc = .killing q
  · obtain ⟨q, hq⟩ := hpc
    obtain ⟨hforked, hlive⟩ := mem_running.mp h
    by_cases hold : pid = s.main.childPid
    · exact Or.inr ⟨⟨q, hq⟩, hold⟩
    · left
      rw [Loading.settled_of_killing hq, mem_running]
      refine ⟨hforked, fun hk => ?_⟩
      simp only [MainState.tracking] at hk
      split_ifs at hk
      · rcases List.mem_append.mp hk with hk | hk
        · exact hlive hk
        · exact hold (List.mem_singleton.mp hk)
      · exact hlive hk
  · left
    rw [Loading.settled_of_ne fun q hq => hpc ⟨q, hq⟩]
    exact h

/-- **The settled children are those of the main loop**: an access leaves them, or the loop takes an
injection with the outcome of `fork`.

**Proof sketch.** By the access. The parent's position before and after it is known, and the
children are settled in the same way at both, except at `fork`, which is where the main loop takes
the injection. -/
lemma settled_of_loadingStep {s t : Loading} {a : LoadAct} (h : loadingStep s a = some t) :
    (t.settled = s.settled ∧ ∀ f, a ≠ .fork f) ∨
      ∃ f, a = .fork f ∧ s.settled.injected f = some t.settled := by
  cases a with
  | receive p =>
    obtain ⟨hpc, rfl⟩ := loadingStep_receive h
    refine Or.inl ⟨?_, by simp⟩
    rw [Loading.settled, Loading.settled, hpc]
  | fopen ok =>
    obtain ⟨p, hpc, ⟨-, rfl⟩ | ⟨-, rfl⟩⟩ := loadingStep_fopen h
    · refine Or.inl ⟨?_, by simp⟩
      rw [Loading.settled, Loading.settled, hpc]
    · refine Or.inl ⟨?_, by simp⟩
      rw [Loading.settled, Loading.settled, hpc]
  | write n =>
    obtain ⟨p, k, hpc, -, rfl⟩ := loadingStep_write h
    refine Or.inl ⟨?_, by simp⟩
    rw [Loading.settled, Loading.settled, hpc]
  | close =>
    obtain ⟨p, hpc, rfl⟩ := loadingStep_close h
    refine Or.inl ⟨?_, by simp⟩
    rw [Loading.settled, Loading.settled, hpc]
  | lose =>
    obtain ⟨p, k, hpc, rfl⟩ := loadingStep_lose h
    refine Or.inl ⟨?_, by simp⟩
    rw [Loading.settled, Loading.settled, hpc]
  | fork f =>
    refine Or.inr ⟨f, rfl, ?_⟩
    obtain ⟨hpc, ⟨rfl, rfl⟩ | ⟨pid, rfl, hpos, hnew, rfl⟩⟩ := loadingStep_fork h
    · rw [Loading.settled, Loading.settled, hpc]
      rfl
    · rw [Loading.settled, Loading.settled, hpc]
      exact injected_child hpos hnew
  | kill =>
    obtain ⟨pid, hpc, rfl⟩ := loadingStep_kill h
    refine Or.inl ⟨?_, by simp⟩
    rw [Loading.settled, Loading.settled, hpc]
  | read pid off n =>
    obtain ⟨-, file, r, -, -, rfl⟩ := loadingStep_read h
    exact Or.inl ⟨rfl, by simp⟩
  | exit pid =>
    obtain ⟨-, rfl⟩ := loadingStep_exit h
    exact Or.inl ⟨rfl, by simp⟩

/-- **The children are those of the main loop**: every run of the accesses is, at its forks, a run
of the loop over injections. -/
theorem run_mainStep_of_loading {saved : Option (List Byte)} {as : List LoadAct} {s : Loading}
    (hrun : run loadingStep (Loading.start saved) as = some s) :
    ∃ ms, run mainStep MainState.start ms = some s.settled := by
  refine run_project (τ := MainState) Loading.settled (fun s a t hstep => ?_) hrun
  rcases settled_of_loadingStep hstep with ⟨heq, -⟩ | ⟨f, -, hf⟩
  · exact Or.inl heq
  · exact Or.inr ⟨injection f, (if_pos rfl).trans hf⟩

/-! ## What the children read -/

/-- The reads come, one after the other, from contents that the file was opened for or from a
beginning of these, from later and later ones, and none from before number `base`. -/
def ReadsFrom (programs : List (List Byte)) (base : ℕ) (rs : List FileRead) : Prop :=
  ∃ js : List ℕ, js.Pairwise (· ≤ ·) ∧ (∀ j ∈ js, base ≤ j) ∧
    List.Forall₂ (fun j r => ∃ p c, programs[j]? = some p ∧ c <+: p ∧ FileRead.Of r c) js rs

namespace ReadsFrom

variable {programs : List (List Byte)} {base : ℕ} {rs : List FileRead}

/-- No read comes from anywhere. -/
lemma nil : ReadsFrom programs base [] :=
  ⟨[], List.Pairwise.nil, fun _ hj => absurd hj List.not_mem_nil, List.Forall₂.nil⟩

/-- The contents of before stay in the history. -/
lemma mono (h : ReadsFrom programs base rs) (p : List Byte) :
    ReadsFrom (programs ++ [p]) base rs := by
  obtain ⟨js, hsorted, hbase, hreads⟩ := h
  refine ⟨js, hsorted, hbase, hreads.imp ?_⟩
  rintro j r ⟨q, c, hq, hc, hr⟩
  refine ⟨q, c, ?_, hc, hr⟩
  rw [List.getElem?_append_left (List.getElem?_eq_some_iff.mp hq).1]
  exact hq

/-- Another read, of the content that the file was opened for last. -/
lemma snoc (h : ReadsFrom programs base rs) (hbase : base ≤ programs.length - 1) {p c : List Byte}
    {r : FileRead} (hp : programs.getLast? = some p) (hc : c <+: p) (hr : r.Of c) :
    ReadsFrom programs base (rs ++ [r]) := by
  obtain ⟨js, hsorted, hjs, hreads⟩ := h
  have hlt : ∀ j ∈ js, j < programs.length := by
    intro j hj
    obtain ⟨i, hi, rfl⟩ := List.mem_iff_getElem.mp hj
    obtain ⟨q, c', hq, -, -⟩ := hreads.get hi (hreads.length_eq ▸ hi)
    exact (List.getElem?_eq_some_iff.mp hq).1
  refine ⟨js ++ [programs.length - 1], ?_, ?_, ?_⟩
  · refine List.pairwise_append.mpr ⟨hsorted, List.pairwise_singleton _ _, ?_⟩
    intro j hj i hi
    have := hlt j hj
    rw [List.mem_singleton.mp hi]
    omega
  · intro j hj
    rcases List.mem_append.mp hj with hj | hj
    · exact hjs j hj
    · rw [List.mem_singleton.mp hj]
      exact hbase
  · refine List.rel_append hreads (List.Forall₂.cons ⟨p, c, ?_, hc, hr⟩ List.Forall₂.nil)
    rw [← List.getLast?_eq_getElem?]
    exact hp

end ReadsFrom

/-- **The invariant of all runs.** The file holds a beginning of what it was opened for last, and
the reads are in order. -/
structure LoadingInv (s : Loading) : Prop where
  file : ∀ c, s.saved = some c → ∃ p, s.programs.getLast? = some p ∧ c <+: p
  writing : ∀ p k, s.pc = .writing p k →
    s.programs.getLast? = some p ∧ s.saved = some (p.take k) ∧ k ≤ p.length
  base : ∀ pid, s.base pid ≤ s.programs.length - 1
  reads : ∀ pid, ReadsFrom s.programs (s.base pid) (s.loads pid)
  fresh : ∀ pid ∉ s.main.forked, s.loads pid = []

/-- A run starts with the file of an earlier daemon, and nothing has been read. -/
lemma loadingInv_start (saved : Option (List Byte)) : LoadingInv (Loading.start saved) where
  file c hc := by
    obtain rfl : saved = some c := hc
    exact ⟨c, rfl, List.prefix_refl c⟩
  writing p k hpc := by simp [Loading.start] at hpc
  base pid := Nat.zero_le _
  reads pid := ReadsFrom.nil
  fresh pid _ := rfl

section Invariant

variable {s t : Loading}

/-- An access that leaves file, children and reads alone, and does not open the file. -/
lemma LoadingInv.keep (h : LoadingInv s) (hsaved : t.saved = s.saved)
    (hprograms : t.programs = s.programs) (hbase : t.base = s.base) (hloads : t.loads = s.loads)
    (hforked : t.main.forked = s.main.forked) (hpc : ∀ p k, t.pc ≠ .writing p k) :
    LoadingInv t where
  file c hc := by
    rw [hprograms]
    exact h.file c (hsaved ▸ hc)
  writing p k hw := absurd hw (hpc p k)
  base pid := by
    rw [hbase, hprograms]
    exact h.base pid
  reads pid := by
    rw [hbase, hprograms, hloads]
    exact h.reads pid
  fresh pid hpid := by
    rw [hloads]
    exact h.fresh pid (hforked ▸ hpid)

/-- **Every access keeps the invariant.**

**Proof sketch.** By the access. Opening the file begins a new program with an empty file, and each
write makes the file a longer prefix of it. A new child has the last program as its base and has
read nothing. A read delivers a chunk of the last program, which is not older than the base of any
child. The other accesses change nothing the invariant speaks of. -/
lemma loadingStep_inv {a : LoadAct} (h : LoadingInv s) (hstep : loadingStep s a = some t) :
    LoadingInv t := by
  cases a with
  | receive p =>
    obtain ⟨-, rfl⟩ := loadingStep_receive hstep
    exact h.keep rfl rfl rfl rfl rfl (by simp)
  | fopen ok =>
    obtain ⟨p, hpc, ⟨-, rfl⟩ | ⟨-, rfl⟩⟩ := loadingStep_fopen hstep
    · refine ⟨?_, ?_, fun pid => ?_, fun pid => (h.reads pid).mono p, h.fresh⟩
      · intro c hc
        obtain rfl : [] = c := Option.some.inj hc
        exact ⟨p, List.getLast?_concat, List.nil_prefix⟩
      · intro q k hq
        obtain ⟨rfl, rfl⟩ := ParentPc.writing.inj hq
        exact ⟨List.getLast?_concat, rfl, Nat.zero_le _⟩
      · have hbase := h.base pid
        simp only [List.length_append, List.length_singleton]
        omega
    · exact h.keep rfl rfl rfl rfl rfl (by simp)
  | write n =>
    obtain ⟨p, k, hpc, hle, rfl⟩ := loadingStep_write hstep
    obtain ⟨hlast, -⟩ := h.writing p k hpc
    refine ⟨?_, ?_, h.base, h.reads, h.fresh⟩
    · intro c hc
      obtain rfl : p.take (k + n) = c := Option.some.inj hc
      exact ⟨p, hlast, List.take_prefix _ p⟩
    · intro q j hq
      obtain ⟨rfl, rfl⟩ := ParentPc.writing.inj hq
      exact ⟨hlast, rfl, hle⟩
  | close =>
    obtain ⟨p, hpc, rfl⟩ := loadingStep_close hstep
    exact h.keep rfl rfl rfl rfl rfl (by simp)
  | lose =>
    obtain ⟨p, k, hpc, rfl⟩ := loadingStep_lose hstep
    exact h.keep rfl rfl rfl rfl rfl (by simp)
  | fork f =>
    obtain ⟨hpc, ⟨rfl, rfl⟩ | ⟨pid, rfl, hpos, hnew, rfl⟩⟩ := loadingStep_fork hstep
    · exact h.keep rfl rfl rfl rfl rfl (by simp)
    · refine ⟨h.file, by simp, fun q => ?_, fun q => ?_, fun q hq => ?_⟩
      · change Function.update s.base pid (s.programs.length - 1) q ≤ s.programs.length - 1
        by_cases hq : q = pid
        · subst hq
          rw [Function.update_self]
        · rw [Function.update_of_ne hq]
          exact h.base q
      · change ReadsFrom s.programs (Function.update s.base pid (s.programs.length - 1) q)
          (s.loads q)
        by_cases hq : q = pid
        · -- the new child has read nothing yet
          subst hq
          rw [h.fresh q hnew]
          exact ReadsFrom.nil
        · rw [Function.update_of_ne hq]
          exact h.reads q
      · exact h.fresh q fun hold => hq (List.mem_append_left [pid] hold)
  | kill =>
    obtain ⟨pid, hpc, rfl⟩ := loadingStep_kill hstep
    exact h.keep rfl rfl rfl rfl rfl (by simp)
  | read pid off n =>
    obtain ⟨halive, file, r, hfile, hr, rfl⟩ := loadingStep_read hstep
    obtain ⟨p, hlast, hpre⟩ := h.file file hfile
    refine ⟨h.file, h.writing, h.base, fun q => ?_, fun q hq => ?_⟩
    · change ReadsFrom s.programs (s.base q) (Function.update s.loads pid (s.loads pid ++ [r]) q)
      by_cases hqp : q = pid
      · subst hqp
        rw [Function.update_self]
        exact (h.reads q).snoc (h.base q) hlast hpre hr
      · rw [Function.update_of_ne hqp]
        exact h.reads q
    · have hqp : q ≠ pid := by
        rintro rfl
        exact hq (mem_running.mp (mem_alive.mp halive).1).1
      change Function.update s.loads pid (s.loads pid ++ [r]) q = []
      rw [Function.update_of_ne hqp]
      exact h.fresh q hq
  | exit pid =>
    obtain ⟨-, rfl⟩ := loadingStep_exit hstep
    exact ⟨h.file, h.writing, h.base, h.reads, h.fresh⟩

end Invariant

/-- **From which programs a child reads.** In every interleaving of the parent's accesses with the
reads of the children, whatever fails: each read of a child delivers what a beginning of one of the
programs has there that the file was opened for, never one from before the child was forked, and
later reads never an earlier program. -/
theorem loads_newer {saved : Option (List Byte)} {as : List LoadAct} {s : Loading}
    (hrun : run loadingStep (Loading.start saved) as = some s) (pid : ℤ) :
    ReadsFrom s.programs (s.base pid) (s.loads pid) :=
  (invariant_of_run (fun _ _ _ h hstep => loadingStep_inv h hstep) (loadingInv_start saved)
    hrun).reads pid

/-- A program is received, saved and given to a new child, which reads its first byte; the next
program is on its way into the file when the child goes on. -/
def tornLoad : List LoadAct :=
  [.receive [1, 2], .fopen true, .write 2, .close, .fork (.child 100), .read 100 0 1, .kill,
    .receive [3, 4], .fopen true, .write 1, .read 100 1 1, .write 1, .read 100 1 1]

/-- The child reads the first byte of the one program, then nothing, then the second byte of the
other. -/
theorem loads_newer_torn :
    ∃ s, run loadingStep (Loading.start none) tornLoad = some s ∧
      s.loads 100 = [⟨0, 1, [1]⟩, ⟨1, 1, []⟩, ⟨1, 1, [4]⟩] ∧
      ReadsFrom s.programs (s.base 100) (s.loads 100) := by
  have hvals : (run loadingStep (Loading.start none) tornLoad).map (fun s => s.loads 100) =
      some [⟨0, 1, [1]⟩, ⟨1, 1, []⟩, ⟨1, 1, [4]⟩] := by decide
  obtain ⟨s, hrun, hs⟩ := Option.map_eq_some_iff.mp hvals
  exact ⟨s, hrun, hs, loads_newer hrun 100⟩

/-! ## Runs in which no call fails -/

/-- The parent is between `fopen` and `fork`. -/
def ParentPc.Saving : ParentPc → Prop
  | .writing _ _ | .forking => True
  | _ => False

/-- **The invariant while nothing fails.** The children that were forked before the file was opened
last are older than its content; and the one that is tracked, outside of a save, was forked for this
content and has read nothing else. -/
structure SoundInv (saved : Option (List Byte)) (s : Loading) : Prop extends LoadingInv s where
  main : MainInv s.settled
  history : (∀ p, s.pc ≠ .opening p) → s.programs = saved.toList ++ s.received
  opening : ∀ p, s.pc = .opening p → s.programs ++ [p] = saved.toList ++ s.received
  whole : (∀ p k, s.pc ≠ .writing p k) → s.saved = s.programs.getLast?
  forked : ∀ pid ∈ s.main.forked, s.base pid < s.programs.length
  older : s.pc.Saving → s.programs ≠ [] ∧ ∀ pid ∈ s.main.forked, s.base pid + 1 < s.programs.length
  tracked : ¬s.pc.Saving → s.settled.childPid ≠ -1 →
    s.base s.settled.childPid + 1 = s.programs.length
  loader : ¬s.pc.Saving → (∀ p, s.pc ≠ .opening p) → s.received ≠ [] → s.settled.childPid ≠ -1
  own : ∀ pid, s.base pid + 1 = s.programs.length →
    ∀ r ∈ s.loads pid, ∃ p, s.programs.getLast? = some p ∧ r.Of p

/-- Nothing is tracked, and nothing has been read. -/
lemma soundInv_start (saved : Option (List Byte)) : SoundInv saved (Loading.start saved) where
  toLoadingInv := loadingInv_start saved
  main := mainInv_start
  history _ := (List.append_nil _).symm
  opening p hpc := by simp [Loading.start] at hpc
  whole _ := by cases saved <;> rfl
  forked pid hpid := absurd hpid List.not_mem_nil
  older h := absurd h id
  tracked _ h := absurd rfl h
  loader _ _ h := absurd rfl h
  own pid _ r hr := absurd hr List.not_mem_nil

section Sound

variable {saved : Option (List Byte)} {s t : Loading}

/-- The file is opened: every child is older than the content that it will get.

**Proof sketch.** The children that were forked have the programs before as their bases, and none of
them is the new one; so the clauses about the children of the last program speak of none. -/
lemma SoundInv.open (h : SoundInv saved s) {p : List Byte} (hpc : s.pc = .opening p)
    (hstep : loadingStep s (.fopen true) = some t)
    (ht : t = { s with saved := some [], pc := .writing p 0, programs := s.programs ++ [p] }) :
    SoundInv saved t := by
  have hinv := loadingStep_inv h.toLoadingInv hstep
  have hsettled : s.settled = s.main := Loading.settled_of_ne fun pid => by simp [hpc]
  subst ht
  refine ⟨hinv, hsettled ▸ h.main, fun _ => h.opening p hpc, by simp, ?_, ?_, ?_, ?_, ?_, ?_⟩
  · exact fun hne => absurd rfl (hne p 0)
  · intro pid hpid
    have := h.forked pid hpid
    simp only [List.length_append, List.length_singleton]
    omega
  · refine fun _ => ⟨by simp, fun pid hpid => ?_⟩
    have := h.forked pid hpid
    simp only [List.length_append, List.length_singleton]
    omega
  · exact fun hsave => absurd trivial hsave
  · exact fun hsave => absurd trivial hsave
  · intro pid hbase r hr
    simp only [List.length_append, List.length_singleton] at hbase
    -- a child that was forked has an earlier base
    have hnew : pid ∉ s.main.forked := fun hpid => by
      have := h.forked pid hpid
      omega
    rw [h.fresh pid hnew] at hr
    exact absurd hr List.not_mem_nil

/-- The round ends with a new child for the content of the file.

**Proof sketch.** The new child has the last program as its base, which the file holds, and has read
nothing; the bases of the others stay as they are. The settled children are those of the main loop
after its round (`MainInv.fork`). -/
lemma SoundInv.fork (h : SoundInv saved s) (hpc : s.pc = .forking) {pid : ℤ} (hpos : 0 < pid)
    (hnew : pid ∉ s.main.forked) (hstep : loadingStep s (.fork (.child pid)) = some t)
    (ht : t = { s with
      pc := .killing pid
      main := { s.main with forked := s.main.forked ++ [pid] }
      base := Function.update s.base pid (s.programs.length - 1) }) :
    SoundInv saved t := by
  have hinv := loadingStep_inv h.toLoadingInv hstep
  have hsettled : s.settled = s.main := Loading.settled_of_ne fun q => by simp [hpc]
  obtain ⟨hprograms, hold⟩ := h.older (by rw [hpc]; trivial)
  have hlen := List.length_pos_iff.mpr hprograms
  have hbase : ∀ q ∈ s.main.forked, Function.update s.base pid (s.programs.length - 1) q =
      s.base q := fun q hq =>
    Function.update_of_ne (fun heq : q = pid => hnew (heq ▸ hq)) _ _
  subst ht
  refine ⟨hinv, ?_, fun _ => h.history (by simp [hpc]), by simp,
    fun _ => h.whole (by simp [hpc]), ?_, fun hsave => absurd hsave id, ?_, ?_, ?_⟩
  · exact (hsettled ▸ h.main).fork hpos hnew
  · intro q hq
    change Function.update s.base pid (s.programs.length - 1) q < s.programs.length
    rcases List.mem_append.mp hq with hq | hq
    · rw [hbase q hq]
      exact h.forked q hq
    · rw [List.mem_singleton.mp hq, Function.update_self]
      omega
  · intro _ _
    change Function.update s.base pid (s.programs.length - 1) pid + 1 = s.programs.length
    rw [Function.update_self]
    omega
  · intro _ _ _
    change pid ≠ -1
    omega
  · intro q hq r hr
    change Function.update s.base pid (s.programs.length - 1) q + 1 = s.programs.length at hq
    change r ∈ s.loads q at hr
    by_cases hmem : q ∈ s.main.forked
    · rw [hbase q hmem] at hq
      exact h.own q hq r hr
    · rw [h.fresh q hmem] at hr
      exact absurd hr List.not_mem_nil

/-- A child reads: outside of a save it finds what the file was opened for. -/
lemma SoundInv.read (h : SoundInv saved s) {pid : ℤ} {off n : ℕ}
    (hstep : loadingStep s (.read pid off n) = some t) : SoundInv saved t := by
  have hinv := loadingStep_inv h.toLoadingInv hstep
  obtain ⟨halive, file, r, hfile, hr, rfl⟩ := loadingStep_read hstep
  refine ⟨hinv, h.main, h.history, h.opening, h.whole, h.forked, h.older, h.tracked, h.loader, ?_⟩
  intro q hq r' hr'
  change r' ∈ Function.update s.loads pid (s.loads pid ++ [r]) q at hr'
  by_cases hqp : q = pid
  · subst hqp
    rw [Function.update_self] at hr'
    rcases List.mem_append.mp hr' with hr' | hr'
    · exact h.own q hq r' hr'
    · have hsave : ¬s.pc.Saving := fun hsave => by
        have := (h.older hsave).2 q (mem_running.mp (mem_alive.mp halive).1).1
        change s.base q + 1 = s.programs.length at hq
        omega
      have hwhole := h.whole fun p k hpc => hsave (by rw [hpc]; trivial)
      rw [List.mem_singleton.mp hr']
      exact ⟨file, hwhole ▸ hfile, hr⟩
  · rw [Function.update_of_ne hqp] at hr'
    exact h.own q hq r' hr'

/-- **Every access that does not fail keeps the invariant.**

**Proof sketch.** By the access. A failing `save_bytecode` and a failing `fork` are excluded. The
file is whole again when it is closed, since it is opened, written and closed for one program;
opening it and `fork` are the two lemmas before; the other accesses leave the settled children as
they are. -/
lemma soundInv_step {a : LoadAct} (h : SoundInv saved s) (hok : ¬a.Fails)
    (hstep : loadingStep s a = some t) : SoundInv saved t := by
  have hinv := loadingStep_inv h.toLoadingInv hstep
  have hsettled := settled_of_loadingStep hstep
  cases a with
  | receive p =>
    obtain ⟨hpc, rfl⟩ := loadingStep_receive hstep
    have hsame : _ = s.settled := (hsettled.resolve_right (by simp)).1
    have hidle : ¬s.pc.Saving := by
      rw [hpc]
      exact id
    refine ⟨hinv, hsame ▸ h.main, fun hne => absurd rfl (hne p), ?_,
      fun _ => h.whole (by simp [hpc]), h.forked, fun hsave => absurd hsave id,
      fun _ => hsame ▸ h.tracked hidle, fun _ hne => absurd rfl (hne p), h.own⟩
    intro q hq
    obtain rfl : p = q := ParentPc.opening.inj hq
    change s.programs ++ [p] = saved.toList ++ (s.received ++ [p])
    rw [h.history (by simp [hpc]), List.append_assoc]
  | fopen ok =>
    obtain ⟨p, hpc, ⟨rfl, ht⟩ | ⟨rfl, -⟩⟩ := loadingStep_fopen hstep
    · exact h.open hpc hstep ht
    · exact absurd rfl hok
  | write n =>
    obtain ⟨p, k, hpc, -, rfl⟩ := loadingStep_write hstep
    have hsame : _ = s.settled := (hsettled.resolve_right (by simp)).1
    have hsave : s.pc.Saving := by
      rw [hpc]
      trivial
    exact ⟨hinv, hsame ▸ h.main, fun _ => h.history (by simp [hpc]), by simp,
      fun hne => absurd rfl (hne p (k + n)), h.forked, fun _ => h.older hsave,
      fun hidle => absurd trivial hidle, fun hidle => absurd trivial hidle, h.own⟩
  | close =>
    obtain ⟨p, hpc, rfl⟩ := loadingStep_close hstep
    have hsame : _ = s.settled := (hsettled.resolve_right (by simp)).1
    have hsave : s.pc.Saving := by
      rw [hpc]
      trivial
    obtain ⟨hlast, hfile, -⟩ := h.writing p p.length hpc
    refine ⟨hinv, hsame ▸ h.main, fun _ => h.history (by simp [hpc]), by simp, fun _ => ?_,
      h.forked, fun _ => h.older hsave, fun hidle => absurd trivial hidle,
      fun hidle => absurd trivial hidle, h.own⟩
    change s.saved = s.programs.getLast?
    rw [hfile, hlast, List.take_length]
  | lose => exact absurd trivial hok
  | fork f =>
    obtain ⟨hpc, ⟨rfl, -⟩ | ⟨pid, rfl, hpos, hnew, ht⟩⟩ := loadingStep_fork hstep
    · exact absurd rfl hok
    · exact h.fork hpc hpos hnew hstep ht
  | kill =>
    obtain ⟨pid, hpc, rfl⟩ := loadingStep_kill hstep
    have hsame : _ = s.settled := (hsettled.resolve_right (by simp)).1
    have hidle : ¬s.pc.Saving := by
      rw [hpc]
      exact id
    exact ⟨hinv, hsame ▸ h.main, fun _ => h.history (by simp [hpc]), by simp,
      fun _ => h.whole (by simp [hpc]), h.forked, fun hsave => absurd hsave id,
      fun _ => hsame ▸ h.tracked hidle, fun _ _ => hsame ▸ h.loader hidle (by simp [hpc]), h.own⟩
  | read pid off n => exact h.read hstep
  | exit pid =>
    obtain ⟨-, rfl⟩ := loadingStep_exit hstep
    exact ⟨hinv, h.main, h.history, h.opening, h.whole, h.forked, h.older, h.tracked, h.loader,
      h.own⟩

end Sound

/-- Runs in which nothing fails keep the invariant. -/
lemma soundInv_run {saved : Option (List Byte)} {as : List LoadAct} {s : Loading}
    (hrun : run loadingStep (Loading.start saved) as = some s) (hok : ∀ a ∈ as, ¬a.Fails) :
    SoundInv saved s :=
  invariant_of_run_along (fun _ _ _ h ha hst => soundInv_step h ha hst) (soundInv_start saved)
    ((along_iff_forall hrun).mpr hok) hrun

/-- What holds when the parent waits again: the loader of the last program is the only child that
can be left.

**Proof sketch.** Outside of a save the tracked child is the only one not killed, and it was forked
for what the file was opened for last, which is the last program received. -/
lemma SoundInv.of_waiting {saved : Option (List Byte)} {s : Loading} (h : SoundInv saved s)
    (hpc : s.pc = .waiting) {p : List Byte} (hp : s.received.getLast? = some p) :
    s.saved = some p ∧ (∀ pid, pid ∈ s.alive ↔ pid = s.main.childPid ∧ pid ∉ s.exited) ∧
      ∀ r ∈ s.loads s.main.childPid, r.Of p := by
  have hidle : ¬s.pc.Saving := by
    rw [hpc]
    exact id
  have hsettled : s.settled = s.main := Loading.settled_of_ne fun pid => by simp [hpc]
  have hne : s.received ≠ [] := by
    rintro hnil
    rw [hnil] at hp
    exact absurd hp (by simp)
  have hlast : s.programs.getLast? = some p := by
    rw [h.history (by simp [hpc]), List.getLast?_append_of_ne_nil _ hne]
    exact hp
  have hmain := h.main
  have htracked := h.loader hidle (by simp [hpc]) hne
  have hbase := h.tracked hidle htracked
  rw [hsettled] at hmain htracked hbase
  refine ⟨(h.whole (by simp [hpc])).trans hlast, fun pid => ?_, ?_⟩
  · rw [mem_alive, and_congr_left_iff]
    refine fun _ => ⟨hmain.one pid, ?_⟩
    rintro rfl
    exact hmain.tracked htracked
  · intro r hr
    obtain ⟨q, hq, hof⟩ := h.own s.main.childPid hbase r hr
    obtain rfl : q = p := Option.some.inj (hq.symm.trans hlast)
    exact hof

/-- **The child that is left has read its own program.** In every interleaving in which no call of
`save_bytecode` and no `fork` fails, whichever children end by themselves: no child runs but the one
tracked and, between `fork` and `kill`, the new one; and whenever the parent waits, the child for
the last program received is the only one that runs, if it has not ended by itself, every read it
has made has delivered what this program has there, and the file holds this program.

**Proof sketch.** While a program is on its way into the file every child that runs was forked for
an earlier one, and the kill at the end of the round leaves none of those (`SoundInv`). -/
theorem survivor_loads_own {saved : Option (List Byte)} {as : List LoadAct} {s : Loading}
    (hrun : run loadingStep (Loading.start saved) as = some s) (hok : ∀ a ∈ as, ¬a.Fails) :
    (∀ pid ∈ s.alive, pid = s.main.childPid ∨ s.pc = .killing pid) ∧
      (s.pc = .waiting → ∀ p, s.received.getLast? = some p →
        s.saved = some p ∧ (∀ pid, pid ∈ s.alive ↔ pid = s.main.childPid ∧ pid ∉ s.exited) ∧
          ∀ r ∈ s.loads s.main.childPid, r.Of p) := by
  have h := soundInv_run hrun hok
  refine ⟨fun pid hpid => ?_, fun hpc p hp => h.of_waiting hpc hp⟩
  rcases s.mem_running_settled (mem_alive.mp hpid).1 with hsettled | ⟨-, rfl⟩
  · have htracked := h.main.one pid hsettled
    by_cases hpc : ∃ q, s.pc = .killing q
    · obtain ⟨q, hq⟩ := hpc
      rw [Loading.settled_of_killing hq] at htracked
      obtain rfl : pid = q := htracked
      exact Or.inr hq
    · rw [Loading.settled_of_ne fun q hq => hpc ⟨q, hq⟩] at htracked
      exact Or.inl htracked
  · exact Or.inl rfl

/-- Three programs one after the other. The first child reads from the first two and ends by itself,
the second child is killed, and the third reads its own program. -/
def threeLoads : List LoadAct :=
  [.receive [1, 2], .fopen true, .write 2, .close, .fork (.child 100), .kill, .read 100 0 1,
    .receive [3, 4], .fopen true, .write 1, .read 100 1 1, .exit 100, .write 1, .close,
    .fork (.child 101), .read 101 0 2, .kill, .receive [5], .fopen true, .write 1, .close,
    .fork (.child 102), .read 102 0 2, .kill]

/-- The third child is left; and when it ends too, none is. -/
theorem survivor_loads_own_three :
    ∃ s t, run loadingStep (Loading.start none) threeLoads = some s ∧
      s.loads 102 = [⟨0, 2, [5]⟩] ∧ s.exited = [100] ∧ s.main.childPid = 102 ∧
      (∀ pid, pid ∈ s.alive ↔ pid = s.main.childPid ∧ pid ∉ s.exited) ∧
      run loadingStep (Loading.start none) (threeLoads ++ [.exit 102]) = some t ∧
      t.alive = [] ∧ ∀ pid, pid ∈ t.alive ↔ pid = t.main.childPid ∧ pid ∉ t.exited := by
  have hvals : (run loadingStep (Loading.start none) threeLoads).map
      (fun s => (s.pc, s.received, s.loads 102, s.exited, s.main.childPid)) =
        some (.waiting, [[1, 2], [3, 4], [5]], [⟨0, 2, [5]⟩], [100], 102) := by decide
  have hvals' : (run loadingStep (Loading.start none) (threeLoads ++ [.exit 102])).map
      (fun s => (s.pc, s.received, s.alive)) =
        some (.waiting, [[1, 2], [3, 4], [5]], []) := by decide
  obtain ⟨s, hrun, hs⟩ := Option.map_eq_some_iff.mp hvals
  obtain ⟨t, hrun', ht⟩ := Option.map_eq_some_iff.mp hvals'
  simp only [Prod.mk.injEq] at hs ht
  obtain ⟨hpc, hreceived, hloads, hexited, hchild⟩ := hs
  obtain ⟨hpc', hreceived', halive⟩ := ht
  have hlast : s.received.getLast? = some [5] := by rw [hreceived, List.getLast?_cons_cons]; rfl
  have hlast' : t.received.getLast? = some [5] := by rw [hreceived', List.getLast?_cons_cons]; rfl
  exact ⟨s, t, hrun, hloads, hexited, hchild,
    ((survivor_loads_own hrun (by decide)).2 hpc [5] hlast).2.1, hrun', halive,
    ((survivor_loads_own hrun' (by decide)).2 hpc' [5] hlast').2.1⟩

/-! ## The end of a round -/

/-- The parent alone can end the round, without a failure; no child ends by that. -/
def Loading.Finishes (s : Loading) : Prop :=
  ∃ as t, (∀ a ∈ as, a.ofParent ∧ ¬a.Fails) ∧ run loadingStep s as = some t ∧
    t.pc = .waiting ∧ t.received = s.received ∧ t.exited = s.exited

namespace Loading.Finishes

variable {s t : Loading}

/-- An access brings the end of the round closer. -/
lemma of_step {a : LoadAct} (hstep : loadingStep s a = some t) (ha : a.ofParent ∧ ¬a.Fails)
    (hreceived : t.received = s.received) (hexited : t.exited = s.exited) (h : t.Finishes) :
    s.Finishes := by
  obtain ⟨as, u, has, hrun, hpc, hu, hu'⟩ := h
  exact ⟨a :: as, u, List.forall_mem_cons.mpr ⟨ha, has⟩, run_cons.mpr ⟨t, hstep, hrun⟩, hpc,
    hu.trans hreceived, hu'.trans hexited⟩

/-- A parent that waits has ended its round. -/
lemma of_waiting (hpc : s.pc = .waiting) : s.Finishes :=
  ⟨[], s, fun _ ha => absurd ha List.not_mem_nil, rfl, hpc, rfl, rfl⟩

/-- The `kill` is the last access of the round. -/
lemma of_killing {pid : ℤ} (hpc : s.pc = .killing pid) : s.Finishes := by
  have hkill : loadingStep s .kill =
      some { s with pc := .waiting, main := s.main.tracking pid } := by
    simp only [loadingStep, hpc]
  exact of_step hkill ⟨trivial, id⟩ rfl rfl (of_waiting rfl)

/-- There is a pid for another child. -/
lemma of_forking (hpc : s.pc = .forking) : s.Finishes := by
  obtain ⟨pid, hpos, hnew⟩ := (Set.Ioi_infinite (0 : ℤ)).exists_notMem_finset s.main.forked.toFinset
  rw [List.mem_toFinset] at hnew
  have hfork : loadingStep s (.fork (.child pid)) = some { s with
      pc := .killing pid
      main := { s.main with forked := s.main.forked ++ [pid] }
      base := Function.update s.base pid (s.programs.length - 1) } := by
    rw [loadingStep, if_pos hpc]
    exact if_pos ⟨hpos, hnew⟩
  exact of_step hfork ⟨trivial, nofun⟩ rfl rfl (of_killing rfl)

/-- A whole file can be closed. -/
lemma of_whole {p : List Byte} (hpc : s.pc = .writing p p.length) : s.Finishes := by
  have hclose : loadingStep s .close = some { s with pc := .forking } := by
    simp only [loadingStep, hpc, if_true]
  exact of_step hclose ⟨trivial, id⟩ rfl rfl (of_forking rfl)

/-- The rest of the payload can be written in one go. -/
lemma of_writing {p : List Byte} {k : ℕ} (hk : k ≤ p.length) (hpc : s.pc = .writing p k) :
    s.Finishes := by
  have hall : k + (p.length - k) = p.length := Nat.add_sub_cancel' hk
  have hwrite : loadingStep s (.write (p.length - k)) = some { s with
      saved := some (p.take p.length)
      pc := .writing p p.length } := by
    simp only [loadingStep, hpc, hall, le_refl, if_true]
  exact of_step hwrite ⟨trivial, id⟩ rfl rfl (of_whole rfl)

/-- The file can be opened. -/
lemma of_opening {p : List Byte} (hpc : s.pc = .opening p) : s.Finishes := by
  have hopen : loadingStep s (.fopen true) = some { s with
      saved := some []
      pc := .writing p 0
      programs := s.programs ++ [p] } := by
    simp only [loadingStep, hpc, if_true]
  exact of_step hopen ⟨trivial, nofun⟩ rfl rfl (of_writing (Nat.zero_le _) rfl)

end Loading.Finishes

/-- Every round can be ended. -/
lemma LoadingInv.finishes {s : Loading} (h : LoadingInv s) : s.Finishes := by
  cases hpc : s.pc with
  | waiting => exact .of_waiting hpc
  | opening p => exact .of_opening hpc
  | writing p k => exact .of_writing (h.writing p k hpc).2.2 hpc
  | forking => exact .of_forking hpc
  | killing pid => exact .of_killing hpc

/-- **A round can always be brought to its end.** From every state of every run in which no call of
`save_bytecode` and no `fork` has failed, accesses of the parent alone, none of which fails, lead to
a state in which it waits, no message has come in and no child has ended by itself in between, and
the loader of the last program received is the only child that runs, unless it had ended before, and
finds this program in the file.

**Proof sketch.** From each position there is an access to the next one (`Loading.Finishes`), and
what then holds is the invariant of such runs. -/
theorem injection_completes {saved : Option (List Byte)} {as : List LoadAct} {s : Loading}
    (hrun : run loadingStep (Loading.start saved) as = some s) (hok : ∀ a ∈ as, ¬a.Fails) :
    ∃ bs t, (∀ b ∈ bs, b.ofParent ∧ ¬b.Fails) ∧ run loadingStep s bs = some t ∧
      t.pc = .waiting ∧ t.received = s.received ∧ t.exited = s.exited ∧
      ∀ p, s.received.getLast? = some p →
        t.saved = some p ∧ ∀ pid, pid ∈ t.alive ↔ pid = t.main.childPid ∧ pid ∉ t.exited := by
  obtain ⟨bs, t, hbs, hrun', hpc, hreceived, hexited⟩ :=
    (soundInv_run hrun hok).toLoadingInv.finishes
  have hall : ∀ a ∈ as ++ bs, ¬a.Fails := by
    intro a ha
    rcases List.mem_append.mp ha with ha | ha
    · exact hok a ha
    · exact (hbs a ha).2
  refine ⟨bs, t, hbs, hrun', hpc, hreceived, hexited, fun p hp => ?_⟩
  obtain ⟨hfile, halive, -⟩ :=
    (soundInv_run (run_trans hrun hrun') hall).of_waiting hpc (hreceived ▸ hp)
  exact ⟨hfile, halive⟩

/-- In the middle of a save the round is brought to its end. -/
theorem injection_completes_one :
    ∃ s bs t, run loadingStep (Loading.start none)
        [.receive [1, 2], .fopen true, .write 1] = some s ∧
      run loadingStep s bs = some t ∧ t.pc = .waiting ∧ t.saved = some [1, 2] := by
  obtain ⟨s, hrun⟩ : ∃ s, run loadingStep (Loading.start none)
      [.receive [1, 2], .fopen true, .write 1] = some s := ⟨_, rfl⟩
  obtain ⟨bs, t, -, hrun', hpc, -, -, hall⟩ := injection_completes hrun (by decide)
  have hreceived : s.received = [[1, 2]] := by
    obtain rfl := Option.some.inj hrun
    rfl
  refine ⟨s, bs, t, hrun, hrun', hpc, (hall [1, 2] ?_).1⟩
  rw [hreceived]
  rfl

/-! ## Rounds as single steps -/

/-- What `save_bytecode` leaves: the file as it was, if it could not be opened, or a beginning of
what was to be written, and all of it if no call fails. -/
lemma saveBytecode_cases {c : SaveCalls} {saved : Option (List Byte)} {buf : Option ByteMem}
    {len : ℕ} {r : ℤ × Option (List Byte)} (h : c.saveBytecode saved buf len = some r) :
    c.Fails len ∧ r.2 = saved ∨
      ∃ (p : List Byte) (k : ℕ), k ≤ p.length ∧ r.2 = some (p.take k) ∧
        (¬c.Fails len → k = p.length) := by
  unfold SaveCalls.saveBytecode at h
  by_cases hopen : c.fopen = true
  · right
    rw [if_pos hopen] at h
    obtain ⟨data, -, hdata⟩ := Option.map_eq_some_iff.mp h
    have hkept : some (data.take c.kept) = some (data.take (min c.kept data.length)) := by
      rw [List.take_eq_take_min]
    have hwhole : some data = some (data.take data.length) := by rw [List.take_length]
    split_ifs at hdata with htaken hclose
    · subst hdata
      have hfails : c.Fails len := Or.inr (Or.inl (by omega))
      exact ⟨data, _, Nat.min_le_right _ _, hkept, fun hok => absurd hfails hok⟩
    · subst hdata
      exact ⟨data, _, le_refl _, hwhole, fun _ => rfl⟩
    · subst hdata
      have hfails : c.Fails len := Or.inr (Or.inr (by simpa using hclose))
      exact ⟨data, _, Nat.min_le_right _ _, hkept, fun hok => absurd hfails hok⟩
  · rw [if_neg hopen] at h
    exact Or.inl ⟨Or.inl (by simpa using hopen), (congrArg Prod.snd (Option.some.inj h)).symm⟩

/-- The state between two rounds, as the model of whole rounds has it. -/
structure Loading.Between (d : Daemon) (s : Loading) : Prop where
  pc : s.pc = .waiting
  saved : s.saved = d.saved
  main : s.main = d.main

/-- In the round no call of `save_bytecode` and no `fork` fails. -/
def Iteration.Saves (i : Iteration) : Prop :=
  i.Injects → ¬i.save.Fails i.header.payloadLen.toNat ∧ i.fork ≠ .failed

section Rounds

variable {d d' : Daemon} {s : Loading}

/-- The accesses of a `save_bytecode`, whatever its outcome, where `F` says that a call fails. -/
lemma exists_run_of_save {saved : Option (List Byte)} {F : Prop} (hpc : s.pc = .waiting)
    (hsaved : F ∧ saved = s.saved ∨ ∃ (p : List Byte) (k : ℕ), k ≤ p.length ∧
      saved = some (p.take k) ∧ (¬F → k = p.length)) :
    ∃ as t, (¬F → ∀ a ∈ as, ¬a.Fails) ∧ run loadingStep s as = some t ∧ t.pc = .forking ∧
      t.saved = saved ∧ t.main = s.main := by
  rcases hsaved with ⟨hF, rfl⟩ | ⟨p, k, hk, rfl, hwhole⟩
  · refine ⟨[.receive [], .fopen false],
      { s with pc := .forking, received := s.received ++ [[]] }, fun hok => absurd hF hok, ?_, rfl,
      rfl, rfl⟩
    simp [run, loadingStep, hpc]
  · refine ⟨[.receive p, .fopen true, .write k, if k = p.length then .close else .lose],
      { s with
        saved := some (p.take k)
        pc := .forking
        received := s.received ++ [p]
        programs := s.programs ++ [p] }, fun hok => ?_, ?_, rfl, rfl, rfl⟩
    · rw [if_pos (hwhole hok)]
      simp [LoadAct.Fails]
    · by_cases hall : k = p.length
      · simp [run, loadingStep, hpc, hall]
      · simp [run, loadingStep, hpc, hk, hall]

/-- The `fork`, and the `kill` if there is a new child. -/
lemma exists_run_of_injected {f : ForkOutcome} {m : MainState} (hpc : s.pc = .forking)
    (h : s.main.injected f = some m) :
    ∃ as t, (f ≠ .failed → ∀ a ∈ as, ¬a.Fails) ∧ run loadingStep s as = some t ∧ t.pc = .waiting ∧
      t.saved = s.saved ∧ t.main = m := by
  cases f with
  | failed =>
    refine ⟨[.fork .failed], { s with pc := .waiting, main := { s.main with childPid := -1 } },
      fun hok => absurd rfl hok, ?_, rfl, rfl, Option.some.inj h⟩
    rw [run_singleton, loadingStep, if_pos hpc]
  | child pid =>
    obtain ⟨hpos, hnew⟩ : 0 < pid ∧ pid ∉ s.main.forked := by
      by_contra hpid
      rw [MainState.injected, if_neg hpid] at h
      exact absurd h (by simp)
    rw [injected_child hpos hnew] at h
    refine ⟨[.fork (.child pid), .kill], { s with
      pc := .waiting
      main := MainState.tracking { s.main with forked := s.main.forked ++ [pid] } pid
      base := Function.update s.base pid (s.programs.length - 1) },
      by simp [LoadAct.Fails], ?_, rfl, rfl, Option.some.inj h⟩
    simp [run, loadingStep, hpc, hpos, hnew]

/-- **A round of the main loop is a run of the accesses.** -/
lemma exists_run_of_round {i : Iteration} (hs : s.Between d) (h : mainRound d i = some d') :
    ∃ as t, (i.Saves → ∀ a ∈ as, ¬a.Fails) ∧ run loadingStep s as = some t ∧ t.Between d' := by
  rcases mainRound_cases h with ⟨-, rfl⟩ | ⟨hinj, mymsg, r, -, -, hsave, hsaved, hfork⟩
  · exact ⟨[], s, by simp, rfl, hs⟩
  · have hcases := saveBytecode_cases hsave
    rw [← hs.saved] at hcases
    obtain ⟨as, u, has, hrun, hpc, hu, hmain⟩ := exists_run_of_save hs.pc hcases
    rw [← hs.main, ← hmain] at hfork
    obtain ⟨bs, t, hbs, hrun', hpc', ht, hmain'⟩ := exists_run_of_injected hpc hfork
    refine ⟨as ++ bs, t, fun hok a ha => ?_, run_trans hrun hrun', hpc',
      ht.trans (hu.trans hsaved.symm), hmain'⟩
    rcases List.mem_append.mp ha with ha | ha
    · exact has (hok hinj).1 a ha
    · exact hbs (hok hinj).2 a ha

/-- **The rounds of the main loop are runs of the accesses**, in which no child reads: they lead to
the same file and the same children, and if nothing fails in the rounds, no access fails. -/
theorem exists_run_of_mainRound {is : List Iteration} (hs : s.Between d)
    (hrun : run mainRound d is = some d') :
    ∃ as t, ((∀ i ∈ is, i.Saves) → ∀ a ∈ as, ¬a.Fails) ∧ run loadingStep s as = some t ∧
      t.Between d' := by
  induction is generalizing d s with
  | nil =>
    obtain rfl : d = d' := by simpa using hrun
    exact ⟨[], s, by simp, rfl, hs⟩
  | cons i is ih =>
    obtain ⟨d₁, hround, hrest⟩ := run_cons.mp hrun
    obtain ⟨as, u, has, hrun₁, hu⟩ := exists_run_of_round hs hround
    obtain ⟨bs, t, hbs, hrun₂, ht⟩ := ih hu hrest
    refine ⟨as ++ bs, t, fun hok a ha => ?_, run_trans hrun₁ hrun₂, ht⟩
    rcases List.mem_append.mp ha with ha | ha
    · exact has (hok i List.mem_cons_self) a ha
    · exact hbs (fun j hj => hok j (List.mem_cons_of_mem i hj)) a ha

end Rounds

end Huc
