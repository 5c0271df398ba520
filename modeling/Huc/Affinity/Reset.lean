import Huc.Affinity.Binding
import Huc.Host.PinOnSame
import Huc.Newdev.Basic

set_option relaxedAutoImplicit false
set_option autoImplicit false

/-!
# `PIN_ON_SAME` and `RESET`

Two messages rebind all vCPUs at once: `PIN_ON_SAME` is to leave them on the physical CPU 0 alone,
`RESET` is to give them all physical CPUs back. Both devices carry the same code for them. The set
for `PIN_ON_SAME` is a block of memory from `CPU_ALLOC`, which does not clear it, with CPU 0 added.
The set for `RESET` is the constant `0xFFFFFFFF`, half as wide as the set that is passed.

## Main definitions

* `Huc.onlineScheduler` — a host with `P` CPUs.
* `Huc.AllBound` — the affinity of all vCPUs.

## Main results

* `Huc.allBound_iff` — what binding all vCPUs to one set leads to.
* `Huc.pin_reset_iff` — when the two messages do what the host's tools rely on.
-/

namespace Huc

/-- A host with the CPUs `0, …, P - 1` online, whose `sched_setaffinity` binds a thread to the
online part of the set, if there is one. -/
def onlineScheduler (P : ℕ) : Scheduler :=
  ⟨Finset.range P, fun _ set => decide (cpus set ∩ Finset.range P).Nonempty⟩

/-- Every vCPU may run on exactly the CPUs in `S`. -/
def AllBound {env : HostEnv} (vs : VCPUs env) (affinity : ℤ → Finset ℕ) (S : Finset ℕ) : Prop :=
  ∀ i < env.nVCPU, affinity (vs.threadId i) = S

section Bound

variable {env : HostEnv} {vs : VCPUs env} {P : ℕ} {set : BitVec 64}

/-- **Binding all vCPUs to one set** leaves them on its online part. -/
lemma allBound_iff (hset : (cpus set ∩ Finset.range P).Nonempty) (affinity : ℤ → Finset ℕ)
    (S : Finset ℕ) :
    AllBound vs ((bindVCPUs env.nVCPU (fun _ => true) set).foldl (rebind vs (onlineScheduler P))
        affinity) S ↔ env.nVCPU = 0 ∨ cpus set ∩ Finset.range P = S := by
  have hbound : ∀ i < env.nVCPU,
      (bindVCPUs env.nVCPU (fun _ => true) set).foldl (rebind vs (onlineScheduler P)) affinity
        (vs.threadId i) = cpus set ∩ Finset.range P := by
    intro i hi
    rw [foldl_rebind_bindVCPUs _ _ affinity le_rfl, if_pos ⟨i, hi, rfl, rfl⟩]
    exact if_pos (decide_eq_true hset)
  constructor
  · intro h
    rcases Nat.eq_zero_or_pos env.nVCPU with hn | hn
    · exact Or.inl hn
    · exact Or.inr ((hbound 0 hn).symm.trans (h 0 hn))
  · rintro (hn | rfl) i hi
    · omega
    · exact hbound i hi

/-- With CPU 0 added to a set, its online part is CPU 0 alone exactly if none of the other online
CPUs is in the set.

**Proof sketch.** A bit other than bit 0 that is set below `P` would be a second member of the
online part. Without one, a member is CPU 0, which is online because `P` is positive. -/
lemma cpus_or_one_inter_eq_iff (hP : 0 < P) (set : BitVec 64) :
    cpus (set ||| 1#64) ∩ Finset.range P = {0} ↔
      ∀ j, 1 ≤ j → j < P → set.getLsbD j = false := by
  have hone : ∀ j, (1#64).getLsbD j = true ↔ j = 0 := by
    intro j
    rw [BitVec.getLsbD_one]
    simp
  constructor
  · intro h j hj hjP
    rw [Bool.eq_false_iff]
    intro hbit
    have hmem : j ∈ cpus (set ||| 1#64) ∩ Finset.range P := by
      simp [hbit, hjP]
    rw [h, Finset.mem_singleton] at hmem
    omega
  · intro h
    ext j
    rw [Finset.mem_inter, mem_cpus, Finset.mem_range, Finset.mem_singleton, BitVec.getLsbD_or,
      Bool.or_eq_true, hone]
    constructor
    · rintro ⟨hbit | hj, hjP⟩
      · by_contra hj
        rw [h j (by omega) hjP] at hbit
        exact Bool.false_ne_true hbit
      · exact hj
    · rintro rfl
      exact ⟨Or.inr rfl, hP⟩

/-- The CPUs of the constant of `RESET`. -/
lemma cpus_resetMask : cpus 0xFFFFFFFF#64 = Finset.range 32 := by
  decide +kernel

/-- The online part of the constant of `RESET` is all online CPUs exactly if they are at most 32. -/
lemma cpus_resetMask_inter_eq_iff :
    cpus 0xFFFFFFFF#64 ∩ Finset.range P = Finset.range P ↔ P ≤ 32 := by
  rw [cpus_resetMask, Finset.inter_eq_right, Finset.range_subset_range]

end Bound

/-! ## The two messages -/

/-- The older device makes the same calls. -/
lemma newdevReceive_effects (env : NewdevEnv) (s : NewdevState) (dev : HucState) (m : HucMsg) :
    (newdevReceive env s m).2 = (receive env.toHostEnv dev m).2 :=
  newdevDispatch_effects env (by rw [header_newdevStore, header_store])

/-- What the host's tools rely on, for the calls that the two messages lead to: after `PIN_ON_SAME`
every vCPU may run on CPU 0 alone, and after `RESET` on all CPUs. -/
def PinsAndResets {env : HostEnv} (vs : VCPUs env) (P : ℕ) (affinity : ℤ → Finset ℕ)
    (pinned unpinned : List Effect) : Prop :=
  AllBound vs (pinned.foldl (rebind vs (onlineScheduler P)) affinity) {0} ∧
    AllBound vs (unpinned.foldl (rebind vs (onlineScheduler P)) affinity) (Finset.range P)

/-- **When `PIN_ON_SAME` and `RESET` do what the host's tools rely on**: in both devices, for any
number of vCPUs, any host with at least one CPU, any affinities before and any content of the memory
that `CPU_ALLOC` returns, if and only if there is no vCPU at all, or that memory names no online CPU
but 0 and there are at most 32 CPUs.

**Proof sketch.** Both messages bind all vCPUs to one set, whose online part is read off. -/
theorem pin_reset_iff {env : NewdevEnv} (vs : VCPUs env.toHostEnv) {P : ℕ} (hP : 0 < P)
    (dev : HucState) (newdev : NewdevState) (affinity : ℤ → Finset ℕ) {pin reset : HucMsg}
    (hpin : pin.type = MsgType.pinOnSame.code) (hreset : reset.type = MsgType.reset.code) :
    (PinsAndResets vs P affinity (receive env.toHostEnv dev pin).2
        (receive env.toHostEnv dev reset).2 ↔
      env.nVCPU = 0 ∨ (∀ j, 1 ≤ j → j < P → env.cpuAlloc.getLsbD j = false) ∧ P ≤ 32) ∧
    (PinsAndResets vs P affinity (newdevReceive env newdev pin).2
        (newdevReceive env newdev reset).2 ↔
      env.nVCPU = 0 ∨ (∀ j, 1 ≤ j → j < P → env.cpuAlloc.getLsbD j = false) ∧ P ≤ 32) := by
  have hzero : (cpus (env.cpuAlloc ||| 1#64) ∩ Finset.range P).Nonempty := ⟨0, by simp [hP]⟩
  have hzero' : (cpus 0xFFFFFFFF#64 ∩ Finset.range P).Nonempty :=
    ⟨0, by rw [cpus_resetMask]; simp [hP]⟩
  have hiff : PinsAndResets vs P affinity (receive env.toHostEnv dev pin).2
        (receive env.toHostEnv dev reset).2 ↔
      env.nVCPU = 0 ∨ (∀ j, 1 ≤ j → j < P → env.cpuAlloc.getLsbD j = false) ∧ P ≤ 32 := by
    rw [PinsAndResets, receive_pinOnSame dev hpin, receive_reset dev hreset, allBound_iff hzero,
      allBound_iff hzero', cpus_or_one_inter_eq_iff hP, cpus_resetMask_inter_eq_iff, or_and_left]
  refine ⟨hiff, ?_⟩
  rw [newdevReceive_effects env newdev dev pin, newdevReceive_effects env newdev dev reset]
  exact hiff

/-- Two vCPUs, and memory that happens to be clear. -/
theorem pin_reset_four :
    PinsAndResets twoVCPUs 4 (fun _ => {2}) (receive ⟨2, 0⟩ restState pinMsg).2
      (receive ⟨2, 0⟩ restState resetMsg).2 :=
  (@pin_reset_iff ⟨⟨2, 0⟩, 4⟩ twoVCPUs 4 (by decide) restState
    ⟨fun _ => 0, fun _ => 0, 0, false, false, 3, 4⟩ (fun _ => {2}) pinMsg resetMsg rfl rfl).1.mpr
    (Or.inr ⟨fun j _ _ => BitVec.getLsbD_zero, by decide⟩)

/-- Two vCPUs, for memory with the content 6. -/
def twoVCPUsDirty : VCPUs ⟨2, 6⟩ := ⟨twoVCPUs.threadId, twoVCPUs.inj⟩

/-- **Neither message does what it is for**: with the memory holding 6, `PIN_ON_SAME` leaves vCPU 0
on the CPUs 0, 1 and 2; and on a host with 40 CPUs `RESET` leaves it on 32 of them. -/
theorem pin_reset_fails :
    ((receive ⟨2, 6⟩ restState pinMsg).2.foldl (rebind twoVCPUsDirty (onlineScheduler 4))
        (fun _ => {3})) 100 = {0, 1, 2} ∧
      ((receive ⟨2, 6⟩ restState resetMsg).2.foldl (rebind twoVCPUsDirty (onlineScheduler 40))
        (fun _ => {3})) 100 = Finset.range 32 ∧
      ¬PinsAndResets twoVCPUsDirty 4 (fun _ => {3}) (receive ⟨2, 6⟩ restState pinMsg).2
        (receive ⟨2, 6⟩ restState resetMsg).2 ∧
      ¬PinsAndResets twoVCPUsDirty 40 (fun _ => {3}) (receive ⟨2, 6⟩ restState pinMsg).2
        (receive ⟨2, 6⟩ restState resetMsg).2 := by
  have hpin : ((receive ⟨2, 6⟩ restState pinMsg).2.foldl (rebind twoVCPUsDirty (onlineScheduler 4))
      (fun _ => {3})) 100 = {0, 1, 2} := by
    decide +kernel
  have hreset : ((receive ⟨2, 6⟩ restState resetMsg).2.foldl
      (rebind twoVCPUsDirty (onlineScheduler 40)) (fun _ => {3})) 100 = Finset.range 32 := by
    decide +kernel
  refine ⟨hpin, hreset, ?_, ?_⟩
  · rintro ⟨hall, -⟩
    have h0 := hall 0 (by decide)
    exact absurd (hpin.symm.trans h0) (by decide)
  · rintro ⟨-, hall⟩
    have h0 := hall 0 (by decide)
    exact absurd (hreset.symm.trans h0) (by decide)

end Huc
