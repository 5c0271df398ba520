import Huc.Affinity.Stack
import Huc.Lib.Transition

set_option relaxedAutoImplicit false
set_option autoImplicit false

/-!
# Recording during a drain

The probe runs in the kernel whenever some process changes its affinity, so it can run between any
two accesses of the daemon to the map. Here the polling loop of the daemon is split into its single
lookups, submissions and updates, and a run of the probe may come between any two of them.

The daemon resets the counter at the end of a drain without looking at it again. A mask recorded
behind the scan stays in its slot, and the pushes after the reset start again at slot 1 and may
overwrite it before the next drain reaches it; a mask recorded into the slot the daemon has just
submitted is erased by the daemon's own update. Both happen only when the probe writes to a slot
that is not empty, and this is the only way to lose a mask.

## Main definitions

* `Huc.DrainPc`, `Huc.RaceState` — where the daemon is, and the shared state.
* `Huc.RaceAct`, `Huc.raceStep` — a run of the probe, or the daemon's next access.
* `Huc.FreshSlot` — the probe finds the slot it writes to empty.
* `Huc.RaceInv` — every recorded mask is in the map or submitted, counted with multiplicity.

## Main results

* `Huc.run_daemon_drain` — the daemon's accesses, undisturbed, are a drain.
* `Huc.mask_kept_of_freshSlot` — no mask is lost while the probe only writes to empty slots.
* `Huc.mask_lost_behind_scan` — a run that loses a mask.
* `Huc.record_loses_mask` — a push onto a mask that is not yet submitted loses it.
-/

namespace Huc

open Transition

/-- The next access of the daemon's polling loop. -/
inductive DrainPc
  /-- The lookup of the counter. -/
  | poll
  /-- The lookup of slot `i`. -/
  | scan (i : ℕ)
  /-- The submission of what was found in slot `i`. -/
  | submit (i : ℕ)
  /-- The update that clears slot `i`. -/
  | clear (i : ℕ)
  /-- The update of the counter after the loop. -/
  | reset
  deriving DecidableEq

/-- Where the daemon goes after the iteration for the loop index `i`. -/
def DrainPc.next (i : ℕ) : DrainPc := if i ≤ 1 then .reset else .scan (i - 1)

/-- The shared map and the daemon's variables, the daemon's position, and the masks recorded by
accepted pushes. -/
structure RaceState extends Drain where
  pc : DrainPc
  accepted : List Mask

/-- Before the first poll of a fresh map. -/
def RaceState.start : RaceState := ⟨Drain.start, .poll, []⟩

/-- The daemon's next access. -/
def daemonStep (s : RaceState) : RaceState :=
  match s.pc with
  | .poll =>
    let value := lookupElem s.map s.index s.value
    { s with value := value, pc := if value ≠ 0#64 then .scan maxCpu else .poll }
  | .scan i =>
    let value := lookupElem s.map i s.value
    { s with value := value, pc := if value ≠ 0#64 then .submit i else .next i }
  | .submit i =>
    { s with
      submitted := s.submitted ++ [(i, s.value)]
      value := 0#64
      index := i
      pc := .clear i }
  | .clear i => { s with map := s.map.set s.index s.value, pc := .next i }
  | .reset => { s with index := 0, map := s.map.set 0 s.value, pc := .poll }

/-- A run of the probe. A push is accepted when there is room. -/
def recordStep (s : RaceState) (mask : Mask) : RaceState :=
  { s with
    map := bpfProg1 s.map mask
    accepted := if s.map.top < 63 then s.accepted ++ [mask] else s.accepted }

/-- A run of the probe, or the daemon's next access. -/
inductive RaceAct
  | record (mask : Mask)
  | daemon
  deriving DecidableEq

/-- One step of the two programs. -/
def raceStep (s : RaceState) : RaceAct → Option RaceState
  | .record mask => some (recordStep s mask)
  | .daemon => some (daemonStep s)

/-! ## The undisturbed daemon -/

/-- The iteration for slot `i`, undisturbed, is the loop body `scanSlot`. -/
lemma run_daemon_scanSlot (d : Drain) (acc : List Mask) (i : ℕ) :
    ∃ n, run raceStep ⟨d, .scan i, acc⟩ (List.replicate n .daemon) =
      some ⟨scanSlot i d, .next i, acc⟩ := by
  by_cases h : lookupElem d.map i d.value = 0#64
  · refine ⟨1, ?_⟩
    simp [raceStep, daemonStep, scanSlot, h]
  · refine ⟨3, ?_⟩
    simp [run, List.replicate, raceStep, daemonStep, scanSlot, h]

/-- The loop over the slots `i, …, 1`, undisturbed, is `scan`. -/
lemma run_daemon_scan (d : Drain) (acc : List Mask) (i : ℕ) :
    ∃ n, run raceStep ⟨d, .scan (i + 1), acc⟩ (List.replicate n .daemon) =
      some ⟨scan (i + 1) d, .reset, acc⟩ := by
  induction i generalizing d with
  | zero => exact run_daemon_scanSlot d acc 1
  | succ i ih =>
    obtain ⟨n₁, h₁⟩ := run_daemon_scanSlot d acc (i + 2)
    obtain ⟨n₂, h₂⟩ := ih (scanSlot (i + 2) d)
    refine ⟨n₁ + n₂, ?_⟩
    rw [← List.replicate_append_replicate]
    exact run_trans h₁ h₂

/-- **The daemon's accesses, undisturbed, are a drain.** -/
theorem run_daemon_drain (d : Drain) (acc : List Mask) :
    ∃ n, run raceStep ⟨d, .poll, acc⟩ (List.replicate n .daemon) = some ⟨drain d, .poll, acc⟩ := by
  by_cases h : lookupElem d.map d.index d.value = 0#64
  · refine ⟨1, ?_⟩
    simp [raceStep, daemonStep, drain, h]
  · obtain ⟨n, hn⟩ :=
      run_daemon_scan { d with value := lookupElem d.map d.index d.value } acc 63
    have hpoll : run raceStep ⟨d, .poll, acc⟩ [.daemon] =
        some ⟨{ d with value := lookupElem d.map d.index d.value }, .scan maxCpu, acc⟩ := by
      simp [raceStep, daemonStep, h]
    have hreset : ∀ e : Drain, run raceStep ⟨e, .reset, acc⟩ [.daemon] =
        some ⟨{ e with index := 0, map := e.map.set 0 e.value }, .poll, acc⟩ := by
      intro e
      simp [raceStep, daemonStep]
    refine ⟨1 + n + 1, ?_⟩
    rw [← List.replicate_append_replicate, ← List.replicate_append_replicate]
    refine run_trans (run_trans hpoll hn) ((hreset _).trans ?_)
    simp only [drain, ne_eq, h, not_false_eq_true, if_true]
    rfl

/-! ## The invariant -/

/-- What holds of the daemon's variables at each of its accesses. -/
def DrainPc.Ok (pc : DrainPc) (d : Drain) : Prop :=
  match pc with
  | .poll => d.index = 0
  | .scan i => 1 ≤ i ∧ i ≤ maxCpu
  | .submit i => 1 ≤ i ∧ i ≤ maxCpu ∧ d.value ≠ 0#64 ∧ (i < maxEntries → d.map.slot i = d.value)
  | .clear i => 1 ≤ i ∧ i ≤ maxCpu ∧ d.value = 0#64 ∧ d.index = i ∧
      (i < maxEntries → d.map.slot i ≠ 0#64)
  | .reset => d.value = 0#64

/-- The masks that were submitted and are still in their slot. -/
def RaceState.pending (s : RaceState) : List Mask :=
  match s.pc with
  | .clear i => if i < maxEntries then [s.map.slot i] else []
  | _ => []

/-- The masks submitted from a slot of the map, leaving out the spurious submission at `MAX_CPU`. -/
def RaceState.fromSlots (s : RaceState) : List Mask :=
  (s.submitted.filter fun p => p.1 < maxEntries).map Prod.snd

/-- **Nothing is lost or duplicated**: every non-zero mask was recorded as often as it is in the
map or was submitted from there, a mask that is both counting once. -/
structure RaceInv (s : RaceState) : Prop where
  top_le : s.map.top ≤ 63
  pc_ok : s.pc.Ok s.toDrain
  balance : ∀ v ≠ 0#64,
    s.map.count v + s.fromSlots.count v = s.accepted.count v + s.pending.count v

/-- An accepted push finds the slot it writes to empty. -/
def FreshSlot (s : RaceState) : RaceAct → Prop
  | .record _ => s.map.top < 63 → s.map.slot (s.map.top + 1) = 0#64
  | .daemon => True

/-- Nothing is recorded, submitted or stored at the start. -/
lemma raceInv_start : RaceInv RaceState.start where
  top_le := by decide
  pc_ok := rfl
  balance v hv := by
    have hcount : CpuMap.zero.count v = 0 := by
      by_contra hne
      obtain ⟨i, -, hi, hslot⟩ := ArrayMap.exists_slot_of_count_pos (Nat.pos_of_ne_zero hne)
      exact hv (hslot.symm.trans (ArrayMap.slot_const 0#64 hi))
    simpa [RaceState.start, Drain.start, RaceState.fromSlots, RaceState.pending] using hcount

/-- The next iteration, or the reset, can follow once `value` is zero. -/
lemma next_ok {i : ℕ} {d : Drain} (hi : i ≤ maxCpu) (hval : d.value = 0#64) :
    (DrainPc.next i).Ok d := by
  unfold DrainPc.next
  split_ifs with h
  · exact hval
  · exact ⟨by omega, by omega⟩

/-- Nothing is pending between two iterations. -/
lemma pending_next (d : Drain) (i : ℕ) (acc : List Mask) :
    RaceState.pending ⟨d, .next i, acc⟩ = [] := by
  unfold DrainPc.next
  split_ifs <;> rfl

/-- What a submission adds to the masks submitted from a slot. -/
lemma fromSlots_submit (d : Drain) (pc : DrainPc) (acc : List Mask) (i : ℕ) (v : Mask) :
    RaceState.fromSlots ⟨{ d with submitted := d.submitted ++ [(i, v)] }, pc, acc⟩ =
      RaceState.fromSlots ⟨d, pc, acc⟩ ++ if i < maxEntries then [v] else [] := by
  by_cases h : i < maxEntries <;> simp [RaceState.fromSlots, h]

/-- **Every access of the daemon keeps the invariant.**

**Proof sketch.** A lookup changes no count. A submission adds one mask to the submitted ones and
makes it pending; the update after it takes the same mask out of the map and out of the pending
ones. At `MAX_CPU` neither touches a slot. -/
lemma daemonStep_inv {s : RaceState} (h : RaceInv s) : RaceInv (daemonStep s) := by
  obtain ⟨d, pc, acc⟩ := s
  obtain ⟨htop, hok, hbal⟩ := h
  cases pc with
  | poll =>
    have hidx : d.index = 0 := hok
    have hpc : (if lookupElem d.map d.index d.value ≠ 0#64 then DrainPc.scan maxCpu
        else DrainPc.poll).Ok { d with value := lookupElem d.map d.index d.value } := by
      split_ifs
      · exact ⟨by decide, le_rfl⟩
      · exact hidx
    refine ⟨htop, hpc, ?_⟩
    intro v hv
    have hpend : RaceState.pending (daemonStep ⟨d, .poll, acc⟩) = [] := by
      simp only [daemonStep]
      split_ifs <;> rfl
    rw [hpend]
    exact hbal v hv
  | scan i =>
    obtain ⟨h₁, hi⟩ := hok
    by_cases h0 : lookupElem d.map i d.value = 0#64
    · have hstep : daemonStep ⟨d, .scan i, acc⟩ = ⟨{ d with value := 0#64 }, .next i, acc⟩ := by
        simp [daemonStep, h0]
      rw [hstep]
      refine ⟨htop, next_ok hi rfl, ?_⟩
      intro v hv
      rw [pending_next]
      exact hbal v hv
    · have hstep : daemonStep ⟨d, .scan i, acc⟩ =
          ⟨{ d with value := lookupElem d.map i d.value }, .submit i, acc⟩ := by
        simp [daemonStep, h0]
      rw [hstep]
      exact ⟨htop, ⟨h₁, hi, h0, fun hlt => (lookupElem_of_lt d.map d.value hlt).symm⟩, hbal⟩
  | submit i =>
    obtain ⟨h₁, hi, hval, hslot⟩ := hok
    refine ⟨htop, ⟨h₁, hi, rfl, rfl, fun hlt => (hslot hlt).symm ▸ hval⟩, ?_⟩
    intro v hv
    have hsub : RaceState.fromSlots (daemonStep ⟨d, .submit i, acc⟩) =
        RaceState.fromSlots ⟨d, .submit i, acc⟩ ++ if i < maxEntries then [d.value] else [] :=
      fromSlots_submit d _ acc i d.value
    have hpend : RaceState.pending (daemonStep ⟨d, .submit i, acc⟩) =
        if i < maxEntries then [d.value] else [] := by
      simp only [daemonStep, RaceState.pending]
      by_cases hlt : i < maxEntries
      · rw [if_pos hlt, if_pos hlt, hslot hlt]
      · rw [if_neg hlt, if_neg hlt]
    have hbal' := hbal v hv
    simp only [RaceState.pending, List.count_nil] at hbal'
    rw [hsub, hpend, List.count_append, ← Nat.add_assoc]
    exact congrArg (· + _) hbal'
  | clear i =>
    obtain ⟨h₁, hi, hval, hidx, -⟩ := hok
    change d.value = 0#64 at hval
    change d.index = i at hidx
    have hstep : daemonStep ⟨d, .clear i, acc⟩ =
        ⟨{ d with map := d.map.set i 0#64 }, .next i, acc⟩ := by
      simp only [daemonStep, hidx, hval]
    rw [hstep]
    refine ⟨?_, next_ok hi hval, fun v hv => ?_⟩
    · rw [CpuMap.top, ArrayMap.slot_set_of_ne _ _ (by omega)]
      exact htop
    · rw [pending_next]
      have hbal' := hbal v hv
      by_cases hlt : i < maxEntries
      · have hset := ArrayMap.count_set d.map 0#64 v h₁ hlt
        rw [if_neg (Ne.symm hv)] at hset
        simp only [RaceState.pending, if_pos hlt, List.count_singleton, beq_iff_eq] at hbal'
        simp only [RaceState.fromSlots, List.count_nil] at hbal' ⊢
        omega
      · simp only [ArrayMap.set_of_ge d.map 0#64 (not_lt.mp hlt)]
        simpa only [RaceState.pending, if_neg hlt, RaceState.fromSlots] using hbal'
  | reset =>
    refine ⟨?_, rfl, fun v hv => ?_⟩
    · have hval : d.value = 0#64 := hok
      simp only [daemonStep, CpuMap.top, hval]
      rw [ArrayMap.slot_set_self _ _ (by decide : 0 < maxEntries)]
      decide
    · have hcount := ArrayMap.count_set_zero d.map d.value v
      have hbal' := hbal v hv
      simp only [daemonStep, RaceState.fromSlots, RaceState.pending] at hbal' ⊢
      omega

/-- How a push changes the number of slots that hold a mask. -/
lemma count_bpfProg1 (m : CpuMap) (mask v : Mask) (h : m.top < 63) :
    (bpfProg1 m mask).count v + (if m.slot (m.top + 1) = v then 1 else 0) =
      m.count v + (if mask = v then 1 else 0) := by
  have hset := ArrayMap.count_set (m.set 0 (BitVec.ofNat 64 (m.top + 1))) mask v
    (show 1 ≤ m.top + 1 by omega) (show m.top + 1 < maxEntries by simp only [maxEntries]; omega)
  rw [← bpfProg1_of_top_lt m mask h, ArrayMap.slot_set_of_ne m _ (by omega),
    ArrayMap.count_set_zero] at hset
  exact hset

/-- **A push into an empty slot keeps the invariant.**

**Proof sketch.** The slots the daemon is about to submit or to clear are not empty, so the push
goes to another one and what is pending stays as it is. -/
lemma recordStep_inv {s : RaceState} {mask : Mask} (h : RaceInv s)
    (hfresh : FreshSlot s (.record mask)) : RaceInv (recordStep s mask) := by
  obtain ⟨d, pc, acc⟩ := s
  obtain ⟨htop, hok, hbal⟩ := h
  rcases Nat.lt_or_ge d.map.top 63 with hlt | hge
  · have hslot : d.map.slot (d.map.top + 1) = 0#64 := hfresh hlt
    have hstep : recordStep ⟨d, pc, acc⟩ mask =
        ⟨{ d with map := bpfProg1 d.map mask }, pc, acc ++ [mask]⟩ := by
      simp only [recordStep, if_pos hlt]
    -- a slot that is not empty, other than the counter, is not the one written
    have hother : ∀ i, 1 ≤ i → d.map.slot i ≠ 0#64 →
        (bpfProg1 d.map mask).slot i = d.map.slot i := by
      intro i h₁ hne
      rw [slot_bpfProg1 _ _ hlt, if_neg (fun heq : i = d.map.top + 1 => hne (heq ▸ hslot)),
        if_neg (by omega)]
    have hcount : ∀ v ≠ 0#64, (bpfProg1 d.map mask).count v =
        d.map.count v + [mask].count v := by
      intro v hv
      have := count_bpfProg1 d.map mask v hlt
      rw [hslot, if_neg (Ne.symm hv)] at this
      simp only [List.count_singleton, beq_iff_eq]
      omega
    rw [hstep]
    refine ⟨by rw [top_bpfProg1 _ _ hlt]; omega, ?_, fun v hv => ?_⟩
    · cases pc with
      | poll => exact hok
      | scan i => exact hok
      | submit i =>
        obtain ⟨h₁, hi, hval, hi'⟩ := hok
        exact ⟨h₁, hi, hval, fun hlt' =>
          (hother i h₁ ((hi' hlt').symm ▸ hval)).trans (hi' hlt')⟩
      | clear i =>
        obtain ⟨h₁, hi, hval, hidx, hi'⟩ := hok
        exact ⟨h₁, hi, hval, hidx, fun hlt' => (hother i h₁ (hi' hlt')).symm ▸ hi' hlt'⟩
      | reset => exact hok
    · have hpend : RaceState.pending
          ⟨{ d with map := bpfProg1 d.map mask }, pc, acc ++ [mask]⟩ =
          RaceState.pending ⟨d, pc, acc⟩ := by
        cases pc with
        | clear i =>
          obtain ⟨h₁, -, -, -, hi'⟩ := hok
          simp only [RaceState.pending]
          split_ifs with hlt'
          · rw [hother i h₁ (hi' hlt')]
          · rfl
        | _ => rfl
      have hbal' := hbal v hv
      rw [hpend, hcount v hv, List.count_append]
      simp only [RaceState.fromSlots] at hbal' ⊢
      omega
  · have hfull : d.map.top = 63 := le_antisymm htop hge
    have hstep : recordStep ⟨d, pc, acc⟩ mask = ⟨d, pc, acc⟩ := by
      simp only [recordStep, bpfProg1_of_top_eq d.map mask hfull, hfull, lt_self_iff_false,
        if_false]
    rw [hstep]
    exact ⟨htop, hok, hbal⟩

/-- Every step that meets `FreshSlot` keeps the invariant. -/
lemma raceStep_inv {s t : RaceState} {a : RaceAct} (h : RaceInv s) (hfresh : FreshSlot s a)
    (hstep : raceStep s a = some t) : RaceInv t := by
  cases a with
  | record mask =>
    obtain rfl : recordStep s mask = t := by simpa [raceStep] using hstep
    exact recordStep_inv h hfresh
  | daemon =>
    obtain rfl : daemonStep s = t := by simpa [raceStep] using hstep
    exact daemonStep_inv h

/-! ## Kept and lost masks -/

/-- **No mask is lost while the probe only writes to empty slots**: in every state reached by such
a run, each non-zero mask was submitted or is in the map at least as often as it was recorded, so
it is still stored in some slot or has been submitted.

**Proof sketch.** The invariant holds along the run; its balance gives the first part, and a mask
that was recorded is then counted in the map or among the submissions. -/
theorem mask_kept_of_freshSlot {acts : List RaceAct} {s : RaceState}
    (hfresh : Along raceStep FreshSlot RaceState.start acts)
    (hrun : run raceStep RaceState.start acts = some s) (v : Mask) (hv : v ≠ 0#64) :
    s.accepted.count v ≤ s.map.count v + (s.submitted.map Prod.snd).count v ∧
      (v ∈ s.accepted →
        (∃ i, 1 ≤ i ∧ i < maxEntries ∧ s.map.slot i = v) ∨ v ∈ s.submitted.map Prod.snd) := by
  have hinv : RaceInv s :=
    invariant_of_run_along (fun _ _ _ => raceStep_inv) raceInv_start hfresh hrun
  have hbal := hinv.balance v hv
  have hsub : s.fromSlots.count v ≤ (s.submitted.map Prod.snd).count v :=
    (List.filter_sublist.map Prod.snd).count_le v
  refine ⟨by omega, ?_⟩
  intro hmem
  have hpos : 0 < s.accepted.count v := List.count_pos_iff.mpr hmem
  rcases Nat.eq_zero_or_pos (s.map.count v) with h0 | h0
  · exact Or.inr (List.count_pos_iff.mp (by omega))
  · exact Or.inl (ArrayMap.exists_slot_of_count_pos h0)

/-- Two masks recorded, the second one after the daemon has started to scan for the first. -/
theorem mask_kept_of_freshSlot_two :
    ∃ s, run raceStep RaceState.start [.record 6#64, .daemon, .daemon, .record 5#64] = some s ∧
      s.accepted = [6#64, 5#64] ∧
      ((∃ i, 1 ≤ i ∧ i < maxEntries ∧ s.map.slot i = 5#64) ∨
        5#64 ∈ s.submitted.map Prod.snd) := by
  have hfresh : Along raceStep FreshSlot RaceState.start
      [.record 6#64, .daemon, .daemon, .record 5#64] :=
    Along.cons (fun _ => by decide) rfl (Along.cons trivial rfl (Along.cons trivial rfl
      (Along.cons (fun _ => by decide) rfl trivial)))
  exact ⟨_, rfl, by decide, (mask_kept_of_freshSlot hfresh rfl 5#64 (by decide)).2 (by decide)⟩

/-- A mask recorded behind the scan, and two more after the counter is reset. -/
def behindScan : List RaceAct :=
  .record 0xa1#64 :: List.replicate 66 .daemon ++ .record 0xb2#64 :: List.replicate 4 .daemon ++
    [.record 0xc3#64, .record 0xd4#64]

/-- **A mask is lost.** The drain for the first mask has passed slot 2 when the second mask is
recorded there; the counter is then reset, and the fourth push overwrites slot 2 before any drain
has read it. -/
theorem mask_lost_behind_scan :
    ∃ s, run raceStep RaceState.start behindScan = some s ∧ 0xb2#64 ∈ s.accepted ∧
      ¬((∃ i, i < maxEntries ∧ s.map.slot i = 0xb2#64) ∨ 0xb2#64 ∈ s.submitted.map Prod.snd) := by
  refine ⟨(run raceStep RaceState.start behindScan).get (by decide +kernel),
    (Option.some_get _).symm, ?_⟩
  decide +kernel

/-- A mask was recorded more often than it is in the map or was submitted. -/
def RaceState.Lost (s : RaceState) : Prop :=
  ∃ v ≠ 0#64, s.map.count v + s.fromSlots.count v < s.accepted.count v

/-- **Every other push loses a mask**: when nothing is lost yet and the probe records a mask in a
slot that is not empty, a mask is lost at once or with the daemon's next access.

**Proof sketch.** Unless the daemon is about to clear a slot, the overwritten mask is missing at
once. If it is about to clear the very slot written, its update erases the new mask; if another
one, the overwritten mask is missing after the update. -/
theorem record_loses_mask {s : RaceState} {mask : Mask} (h : RaceInv s) (hmask : mask ≠ 0#64)
    (hocc : ¬FreshSlot s (.record mask)) :
    (recordStep s mask).Lost ∨ (daemonStep (recordStep s mask)).Lost := by
  obtain ⟨d, pc, acc⟩ := s
  obtain ⟨htop, hok, hbal⟩ := h
  obtain ⟨hlt, hne⟩ : d.map.top < 63 ∧ d.map.slot (d.map.top + 1) ≠ 0#64 := by
    simpa [FreshSlot] using hocc
  have hstep : recordStep ⟨d, pc, acc⟩ mask =
      ⟨{ d with map := bpfProg1 d.map mask }, pc, acc ++ [mask]⟩ := by
    simp only [recordStep, if_pos hlt]
  have hcount := fun v => count_bpfProg1 d.map mask v hlt
  rw [hstep]
  by_cases hpend : RaceState.pending ⟨d, pc, acc⟩ = []
  · refine Or.inl ⟨d.map.slot (d.map.top + 1), hne, ?_⟩
    have hv := hcount (d.map.slot (d.map.top + 1))
    have hbal' := hbal _ hne
    rw [if_pos rfl] at hv
    rw [hpend, List.count_nil] at hbal'
    simp only [RaceState.fromSlots, List.count_append, List.count_singleton, beq_iff_eq]
      at hbal' ⊢
    omega
  · obtain ⟨i, rfl⟩ : ∃ i, pc = .clear i := by
      cases pc with
      | clear i => exact ⟨i, rfl⟩
      | _ => exact absurd rfl hpend
    obtain ⟨h₁, hi, hval, hidx, -⟩ := hok
    change d.value = 0#64 at hval
    change d.index = i at hidx
    have hi' : i < maxEntries := by
      by_contra hge
      exact hpend (by simp only [RaceState.pending, if_neg hge])
    have hclear : ∀ v ≠ 0#64, ((bpfProg1 d.map mask).set i 0#64).count v +
        (if (bpfProg1 d.map mask).slot i = v then 1 else 0) = (bpfProg1 d.map mask).count v := by
      intro v hv
      have := ArrayMap.count_set (bpfProg1 d.map mask) 0#64 v h₁ hi'
      rwa [if_neg (Ne.symm hv)] at this
    have hslot := slot_bpfProg1 d.map mask hlt i
    simp only [RaceState.pending, if_pos hi', RaceState.fromSlots, List.count_singleton,
      beq_iff_eq] at hbal
    refine Or.inr ?_
    by_cases heq : i = d.map.top + 1
    · refine ⟨mask, hmask, ?_⟩
      have hv := hcount mask
      have hc := hclear mask hmask
      have hbal' := hbal mask hmask
      rw [if_pos rfl, ← heq] at hv
      rw [hslot, if_pos heq, if_pos rfl] at hc
      simp only [daemonStep, hval, hidx, RaceState.fromSlots, List.count_append,
        List.count_singleton, beq_self_eq_true, if_true]
      omega
    · refine ⟨d.map.slot (d.map.top + 1), hne, ?_⟩
      have hv := hcount (d.map.slot (d.map.top + 1))
      have hc := hclear _ hne
      have hbal' := hbal _ hne
      rw [if_pos rfl] at hv
      rw [hslot, if_neg heq, if_neg (show i ≠ 0 by omega)] at hc
      simp only [daemonStep, hval, hidx, RaceState.fromSlots, List.count_append,
        List.count_singleton, beq_iff_eq]
      omega

end Huc
