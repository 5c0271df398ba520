import Huc.Lib.Pointwise
import Huc.Device.Interrupt
import Huc.Guest.Basic
import Huc.Affinity.Basic

set_option relaxedAutoImplicit false
set_option autoImplicit false

/-!
# Binding of vCPUs

What becomes of an affinity mask on the host. The loader child submits it through the driver's
`ioctl`, the device takes it from word 3 of BAR1, and its loop over the vCPUs calls
`sched_setaffinity` for the thread of each vCPU whose bit is set. A `RESET` message runs the same
loop for all vCPUs.

The commands act on each vCPU separately: what a vCPU is bound to depends on the commands that
address it and on nothing else. The masks on the other hand do not all arrive: map, daemon and
device handle sets of 64 CPUs, but the driver copies the mask as an `int`, so that the upper half is
lost.

## Main definitions

* `Huc.cpus` — the CPUs of a mask.
* `Huc.maskBytes` — a mask in the memory of the daemon.
* `Huc.VCPUs`, `Huc.Scheduler` — the threads of the vCPUs, and the host's `sched_setaffinity`.
* `Huc.Host`, `Huc.hostStep` — the device with the affinities of the threads.

## Main results

* `Huc.mask_reaches_host_iff` — the masks that arrive unchanged.
* `Huc.affinity_local` — the commands act on each vCPU separately.
-/

namespace Huc

open Transition

/-- The CPUs of a set as `CPU_ISSET_S(i, SET_SIZE, set)` finds them, with `SET_SIZE` for 64 CPUs. -/
def cpus (set : BitVec 64) : Finset ℕ := (Finset.range 64).filter fun i => set.getLsbD i

/-- Membership of a CPU in a set. -/
@[simp] lemma mem_cpus {set : BitVec 64} {i : ℕ} : i ∈ cpus set ↔ set.getLsbD i = true := by
  simp only [cpus, Finset.mem_filter, Finset.mem_range, and_iff_right_iff_imp]
  intro hi
  by_contra hge
  rw [BitVec.getLsbD_of_ge set i (by omega)] at hi
  exact absurd hi (by decide)

/-- A set is determined by its CPUs. -/
lemma cpus_inj {v w : BitVec 64} : cpus v = cpus w ↔ v = w := by
  constructor
  · intro h
    apply BitVec.eq_of_getLsbD_eq
    intro i _
    rw [Bool.eq_iff_iff, ← mem_cpus, ← mem_cpus, h]
  · rintro rfl
    rfl

/-- The loop over the vCPUs binds a vCPU exactly if there is one and it is to be bound. -/
lemma mem_bindVCPUs {n : ℕ} {bound : ℕ → Bool} {set set' : BitVec 64} {i : ℕ} :
    Effect.schedSetaffinity i set' ∈ bindVCPUs n bound set ↔
      i < n ∧ bound i = true ∧ set' = set := by
  simp only [bindVCPUs, List.mem_map, List.mem_filter, List.mem_range,
    Effect.schedSetaffinity.injEq]
  constructor
  · rintro ⟨j, ⟨hj, hb⟩, rfl, rfl⟩
    exact ⟨hj, hb, rfl⟩
  · rintro ⟨hi, hb, rfl⟩
    exact ⟨i, ⟨hi, hb⟩, rfl, rfl⟩

/-! ## From the map to the device -/

/-- The variable `value` of the daemon in memory: eight bytes, the lowest one first. -/
def maskBytes (v : Mask) : ByteMem := fun i => v.extractLsb' (8 * i) 8

/-- The first word of a mask in memory is its lower half. -/
lemma word_maskBytes (v : Mask) : (maskBytes v).word 0 = v.setWidth 32 :=
  (leWord_extractLsb' v).trans (BitVec.setWidth_eq_extractLsb' (by omega)).symm

/-- The half of a mask that is copied is the mask exactly if the other half is empty. -/
lemma setWidth_setWidth_eq_iff (v : Mask) :
    (v.setWidth 32).setWidth 64 = v ↔ v.toNat < 2 ^ 32 := by
  rw [← BitVec.toNat_inj, BitVec.toNat_setWidth, BitVec.toNat_setWidth]
  have := v.isLt
  omega

/-- **Which masks arrive**: a mask that `bpf_prog1` stores is submitted by the next drain, and the
`ioctl` that submits it binds exactly the vCPUs in the mask, and binds them to exactly the CPUs in
the mask, whatever the number of vCPUs and the state of the device, if and only if no CPU from 32 on
is in the mask.

**Proof sketch.** The driver copies the lower half. A CPU in the upper half would, with a vCPU of
that number, have to be tested in the set, and it is in no set that the driver writes. -/
theorem mask_reaches_host_iff (m : CpuMap) (hroom : m.top < 63) (value v : Mask)
    (hv : v ≠ 0#64) :
    (bpfProg1 m v).slot (m.top + 1) = v ∧
    (m.top + 1, v) ∈ (drain ⟨bpfProg1 m v, value, 0, []⟩).submitted ∧
    ((∀ (env : HostEnv) (dev : HucState) (i : ℕ) (set : BitVec 64),
      Effect.schedSetaffinity i set ∈
          (hucIoctl env dev ioctlSchedSetaffinity (maskBytes v) true).effects ↔
        i < env.nVCPU ∧ i ∈ cpus v ∧ cpus set = cpus v) ↔ v.toNat < 2 ^ 32) := by
  have hslot : (bpfProg1 m v).slot (m.top + 1) = v := by
    rw [slot_bpfProg1 m v hroom, if_pos rfl]
  refine ⟨hslot, ?_, ?_⟩
  · have hcount : (bpfProg1 m v).slot 0 ≠ 0#64 := by
      have htop := top_bpfProg1 m v hroom
      intro h0
      rw [CpuMap.top, h0, BitVec.toNat_ofNat] at htop
      omega
    rw [(drain_of_count ⟨bpfProg1 m v, value, 0, []⟩ rfl hcount).1]
    apply List.mem_cons_of_mem
    have hmem := @mem_scanned (bpfProg1 m v) (m.top + 1) 63 (by omega) (by omega)
      (by rw [hslot]; exact hv)
    rwa [hslot] at hmem
  · simp only [hucIoctl_setaffinity, word_maskBytes, mem_bindVCPUs, cpus_inj, mem_cpus]
    rw [← setWidth_setWidth_eq_iff]
    constructor
    · intro h
      obtain ⟨j, hj⟩ : ∃ j, v.getLsbD j = true := by
        by_contra hnone
        apply hv
        apply BitVec.eq_of_getLsbD_eq
        intro i _
        rw [BitVec.getLsbD_zero]
        exact Bool.eq_false_iff.mpr fun hi => hnone ⟨i, hi⟩
      -- a vCPU of a number in the mask is bound, and the set it is bound to is the one written
      exact ((h ⟨j + 1, 0⟩ restState j v).mpr ⟨Nat.lt_succ_self j, hj, rfl⟩).2.2.symm
    · intro h env dev i set
      rw [h]

/-- The mask of CPUs 0, 2 and 31, pushed on the fresh map, arrives. -/
theorem mask_reaches_host_three :
    (1, 0x80000005#64) ∈ (drain ⟨bpfProg1 .zero 0x80000005#64, 0, 0, []⟩).submitted ∧
    Effect.schedSetaffinity 2 0x80000005#64 ∈
      (hucIoctl ⟨4, 0⟩ restState ioctlSchedSetaffinity (maskBytes 0x80000005#64) true).effects := by
  obtain ⟨-, hsub, harrives⟩ :=
    mask_reaches_host_iff .zero (by decide) 0#64 0x80000005#64 (by decide)
  refine ⟨hsub, (harrives.mpr (by decide) ⟨4, 0⟩ restState 2 0x80000005#64).mpr ?_⟩
  exact ⟨by decide, by decide, rfl⟩

/-- **Half of a mask is lost**: of the CPUs 0 and 32 only CPU 0 arrives, and vCPU 32 is not
bound. -/
theorem mask_halved :
    cpus 0x100000001#64 = {0, 32} ∧
      (hucIoctl ⟨64, 0⟩ restState ioctlSchedSetaffinity
        (maskBytes 0x100000001#64) true).effects = [.schedSetaffinity 0 1#64] ∧
      cpus 1#64 = {0} := by
  refine ⟨by decide, ?_, by decide⟩
  rw [hucIoctl_setaffinity, word_maskBytes]
  decide

/-! ## The threads of the vCPUs -/

/-- The threads of the vCPUs: each vCPU has a thread of its own, as QEMU starts them under KVM. -/
structure VCPUs (env : HostEnv) where
  threadId : ℕ → ℤ
  inj : ∀ i < env.nVCPU, ∀ j < env.nVCPU, threadId i = threadId j → i = j

/-- The host's `sched_setaffinity`: the CPUs that are online, and for which threads and sets it
succeeds. -/
structure Scheduler where
  online : Finset ℕ
  succeeds : ℤ → BitVec 64 → Bool

/-- The affinity of a thread after `sched_setaffinity(tid, SET_SIZE, set)`. -/
def Scheduler.bind (sch : Scheduler) (set : BitVec 64) (tid : ℤ) (old : Finset ℕ) : Finset ℕ :=
  if sch.succeeds tid set then cpus set ∩ sch.online else old

/-- The device, and the affinity of every thread. -/
structure Host where
  dev : HucState
  affinity : ℤ → Finset ℕ

/-- The affinities after a call out of the device. -/
def rebind {env : HostEnv} (vs : VCPUs env) (sch : Scheduler) (affinity : ℤ → Finset ℕ) :
    Effect → ℤ → Finset ℕ
  | .schedSetaffinity i set =>
    Function.update affinity (vs.threadId i) (sch.bind set (vs.threadId i)
      (affinity (vs.threadId i)))
  | _ => affinity

/-- One operation on the device, with what it does to the threads. -/
def hostStep {env : HostEnv} (vs : VCPUs env) (sch : Scheduler) (h : Host) (op : DeviceOp) :
    Option Host :=
  (deviceStep env h.dev op).map fun dev =>
    ⟨dev, (deviceEffects env h.dev op).foldl (rebind vs sch) h.affinity⟩

namespace DeviceOp

/-- The operation is an affinity command: a write to word 3, or a `RESET` message. -/
def Binds : DeviceOp → Prop
  | bufWrite addr _ => bufIndex addr = 3
  | message m => m.type = MsgType.reset.code
  | _ => False

/-- The affinity command addresses vCPU `i`. -/
def addresses (i : ℕ) : DeviceOp → Bool
  | bufWrite _ val => val.getLsbD i
  | _ => true

/-- The set that the affinity command binds vCPUs to. -/
def cpuSet : DeviceOp → BitVec 64
  | bufWrite _ val => val
  | _ => 0xFFFFFFFF#64

end DeviceOp

section Locality

variable {env : HostEnv} {vs : VCPUs env} {sch : Scheduler}

/-- **Every affinity command is a loop over the vCPUs.** -/
lemma deviceStep_of_binds {s : HucState} {op : DeviceOp} (h : op.Binds) :
    ∃ dev, deviceStep env s op = some dev ∧
      deviceEffects env s op = bindVCPUs env.nVCPU (fun i => op.addresses i) op.cpuSet := by
  cases op with
  | bufWrite addr val =>
    refine ⟨_, rfl, ?_⟩
    rw [deviceEffects, bufmmioWrite_three h]
    rfl
  | message m =>
    refine ⟨_, rfl, ?_⟩
    exact receive_reset s h
  | ioWrite addr val => exact absurd h id
  | bufRead addr => exact absurd h id

/-- The command addresses a vCPU that runs in the thread. -/
def Touches (vs : VCPUs env) (op : DeviceOp) (tid : ℤ) : Prop :=
  ∃ i < env.nVCPU, vs.threadId i = tid ∧ op.addresses i = true

instance (vs : VCPUs env) (op : DeviceOp) (tid : ℤ) : Decidable (Touches vs op tid) :=
  inferInstanceAs (Decidable (∃ i < env.nVCPU, _ ∧ _))

/-- The thread of a vCPU is touched exactly by the commands that address the vCPU. -/
lemma touches_threadId {op : DeviceOp} {i : ℕ} (hi : i < env.nVCPU) :
    Touches vs op (vs.threadId i) ↔ op.addresses i = true := by
  constructor
  · rintro ⟨j, hj, heq, hop⟩
    obtain rfl := vs.inj j hj i hi heq
    exact hop
  · intro hop
    exact ⟨i, hi, rfl, hop⟩

/-- The loop over the first `n` vCPUs binds the threads of those that are to be bound.

**Proof sketch.** Induction on `n`: the last vCPU runs in a thread of its own, which the loop has
not reached before. -/
lemma foldl_rebind_bindVCPUs (bound : ℕ → Bool) (set : BitVec 64) (affinity : ℤ → Finset ℕ) {n : ℕ}
    (hn : n ≤ env.nVCPU) (tid : ℤ) :
    (bindVCPUs n bound set).foldl (rebind vs sch) affinity tid =
      if ∃ i < n, vs.threadId i = tid ∧ bound i = true then sch.bind set tid (affinity tid)
      else affinity tid := by
  induction n with
  | zero => simp [bindVCPUs]
  | succ n ih =>
    have hsplit : bindVCPUs (n + 1) bound set =
        bindVCPUs n bound set ++ if bound n then [.schedSetaffinity n set] else [] := by
      simp only [bindVCPUs, List.range_succ, List.filter_append, List.map_append]
      congr 1
      by_cases hb : bound n <;> simp [hb]
    have ih := ih (by omega)
    rw [hsplit, List.foldl_append]
    simp only [Nat.exists_lt_succ_right]
    by_cases hb : bound n = true
    · rw [if_pos hb]
      by_cases htid : vs.threadId n = tid
      · have hbefore : ¬∃ i < n, vs.threadId i = tid ∧ bound i = true := by
          rintro ⟨i, hi, heq, -⟩
          have := vs.inj i (by omega) n (by omega) (heq.trans htid.symm)
          omega
        rw [if_neg hbefore] at ih
        rw [if_pos (Or.inr ⟨htid, hb⟩)]
        simp only [List.foldl_cons, List.foldl_nil, rebind, htid, Function.update_self, ih]
      · simp only [List.foldl_cons, List.foldl_nil, rebind]
        rw [Function.update_of_ne (Ne.symm htid), ih]
        simp only [htid, false_and, or_false]
    · rw [if_neg hb, List.foldl_nil, ih]
      simp only [hb, Bool.false_eq_true, and_false, or_false]

/-- **An affinity command acts on each thread separately.** -/
lemma hostStep_of_binds {h : Host} {op : DeviceOp} (hop : op.Binds) :
    ∃ dev, hostStep vs sch h op = some ⟨dev, Pointwise.step (Touches vs)
      (fun op => sch.bind op.cpuSet) h.affinity op⟩ := by
  obtain ⟨dev, hdev, heff⟩ := @deviceStep_of_binds env h.dev op hop
  refine ⟨dev, ?_⟩
  rw [hostStep, hdev, heff, Option.map_some]
  congr 2
  funext tid
  rw [foldl_rebind_bindVCPUs _ _ h.affinity le_rfl]
  rfl

/-- The affinities after a sequence of commands. -/
lemma run_hostStep_of_binds {h : Host} {ops : List DeviceOp} (hops : ∀ op ∈ ops, op.Binds) :
    ∃ dev, run (hostStep vs sch) h ops = some ⟨dev, ops.foldl (Pointwise.step (Touches vs)
      (fun op => sch.bind op.cpuSet)) h.affinity⟩ := by
  induction ops generalizing h with
  | nil => exact ⟨h.dev, rfl⟩
  | cons op ops ih =>
    obtain ⟨dev, hstep⟩ := @hostStep_of_binds _ vs sch h op (hops op List.mem_cons_self)
    obtain ⟨dev', hrun⟩ := @ih
      ⟨dev, Pointwise.step (Touches vs) (fun op => sch.bind op.cpuSet) h.affinity op⟩
      fun op' hop' => hops op' (List.mem_cons_of_mem op hop')
    exact ⟨dev', run_cons.mpr ⟨_, hstep, hrun⟩⟩

/-- A write to word 3 leaves the device as it is. -/
lemma deviceStep_bufWrite_three {s : HucState} {addr : BitVec 64} (val : BitVec 64)
    (h : bufIndex addr = 3) : deviceStep env s (.bufWrite addr val) = some s := by
  rw [deviceStep, bufmmioWrite_three h]

/-- The host after a write to word 3. -/
lemma hostStep_bufWrite_three {h : Host} {addr : BitVec 64} (val : BitVec 64)
    (hidx : bufIndex addr = 3) :
    hostStep vs sch h (.bufWrite addr val) = some ⟨h.dev, Pointwise.step (Touches vs)
      (fun op => sch.bind op.cpuSet) h.affinity (.bufWrite addr val)⟩ := by
  obtain ⟨dev, hstep⟩ := @hostStep_of_binds _ vs sch h (.bufWrite addr val) hidx
  have hdev : dev = h.dev := by
    rw [hostStep, deviceStep_bufWrite_three val hidx, Option.map_some] at hstep
    exact (congrArg Host.dev (Option.some.inj hstep)).symm
  rw [hstep, hdev]

end Locality

/-- **Affinity commands act on each vCPU separately**: for any number of vCPUs, any affinities to
start from and any behaviour of `sched_setaffinity`, the affinity of vCPU `i` after any sequence of
writes to word 3 and of `RESET` messages is the one after the commands alone that address it; a
write whose bit `i` is clear leaves it as it is; and writes with disjoint masks commute.

**Proof sketch.** A command is a loop over the vCPUs, each of which runs in a thread of its own; so
it acts on the affinities of the threads as a command on independent cells
(`Pointwise.foldl_step_filter`, `Pointwise.step_comm`). -/
theorem affinity_local {env : HostEnv} (vs : VCPUs env) (sch : Scheduler) (h : Host)
    (ops : List DeviceOp) (hops : ∀ op ∈ ops, op.Binds) {i : ℕ} (hi : i < env.nVCPU) :
    (∃ t u, run (hostStep vs sch) h ops = some t ∧
      run (hostStep vs sch) h (ops.filter fun op => op.addresses i) = some u ∧
      t.affinity (vs.threadId i) = u.affinity (vs.threadId i)) ∧
    (∀ addr val t, bufIndex addr = 3 → val.getLsbD i = false →
      hostStep vs sch h (.bufWrite addr val) = some t →
      t.affinity (vs.threadId i) = h.affinity (vs.threadId i)) ∧
    ∀ addr addr' val val', bufIndex addr = 3 → bufIndex addr' = 3 → val &&& val' = 0#64 →
      run (hostStep vs sch) h [.bufWrite addr val, .bufWrite addr' val'] =
        run (hostStep vs sch) h [.bufWrite addr' val', .bufWrite addr val] := by
  refine ⟨?_, ?_, ?_⟩
  · obtain ⟨dev, hrun⟩ := @run_hostStep_of_binds _ vs sch h ops hops
    obtain ⟨dev', hrun'⟩ := @run_hostStep_of_binds _ vs sch h
      (ops.filter fun op => op.addresses i) fun op hop => hops op (List.mem_of_mem_filter hop)
    refine ⟨_, _, hrun, hrun', ?_⟩
    have hfilter : (ops.filter fun op => op.addresses i) =
        ops.filter fun op => Touches vs op (vs.threadId i) := by
      apply List.filter_congr
      intro op _
      rw [Bool.eq_iff_iff, decide_eq_true_iff, touches_threadId hi]
    rw [hfilter]
    exact Pointwise.foldl_step_filter ops h.affinity (vs.threadId i)
  · intro addr val t hidx hbit hstep
    rw [hostStep_bufWrite_three val hidx] at hstep
    obtain rfl := Option.some.inj hstep
    have hnot : ¬Touches vs (.bufWrite addr val) (vs.threadId i) := by
      rw [touches_threadId hi, DeviceOp.addresses, hbit]
      exact Bool.false_ne_true
    exact if_neg hnot
  · intro addr addr' val val' hidx hidx' hdisj
    have htouch : ∀ tid, ¬(Touches vs (.bufWrite addr val) tid ∧
        Touches vs (.bufWrite addr' val') tid) := by
      rintro tid ⟨⟨j, hj, rfl, hval⟩, hval'⟩
      rw [touches_threadId hj] at hval'
      have hbit : (val &&& val').getLsbD j = true := by
        rw [BitVec.getLsbD_and]
        exact Bool.and_eq_true_iff.mpr ⟨hval, hval'⟩
      rw [hdisj, BitVec.getLsbD_zero] at hbit
      exact Bool.false_ne_true hbit
    simp only [run, hostStep_bufWrite_three val hidx, hostStep_bufWrite_three val' hidx',
      Option.bind_some]
    rw [Pointwise.step_comm htouch]

/-- Two vCPUs in the threads 100 and 101. -/
def twoVCPUs : VCPUs ⟨2, 0⟩ := ⟨fun i => 100 + i, fun _ _ _ _ h => by omega⟩

/-- Four CPUs online, and every set with one of them accepted. -/
def fourCPUs : Scheduler := ⟨{0, 1, 2, 3}, fun _ set => (cpus set ∩ {0, 1, 2, 3}).Nonempty⟩

/-- The threads of two vCPUs, bound to all CPUs. -/
def unboundHost : Host := ⟨restState, fun _ => {0, 1, 2, 3}⟩

/-- A write for vCPU 0 after one for vCPU 1: vCPU 1 keeps what its own write has made of it. -/
theorem affinity_local_two :
    ∃ t, run (hostStep twoVCPUs fourCPUs) unboundHost
        [.bufWrite 12#64 2#64, .bufWrite 12#64 5#64] = some t ∧
      t.affinity 101 = {1} := by
  obtain ⟨⟨t, u, ht, hu, heq⟩, -, -⟩ := @affinity_local ⟨2, 0⟩ twoVCPUs fourCPUs unboundHost
    [.bufWrite 12#64 2#64, .bufWrite 12#64 5#64] (by
      intro op hop
      fin_cases hop <;> exact (by decide : bufIndex 12#64 = 3)) 1 (by decide)
  refine ⟨t, ht, heq.trans ?_⟩
  have hu' : some u = hostStep twoVCPUs fourCPUs unboundHost (.bufWrite 12#64 2#64) := hu.symm
  rw [hostStep_bufWrite_three 2#64 (by decide)] at hu'
  obtain rfl := Option.some.inj hu'
  decide

end Huc
