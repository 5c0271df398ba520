import Huc.Affinity.Basic
import Huc.Lib.Transition

set_option relaxedAutoImplicit false
set_option autoImplicit false

/-!
# Concurrent recording

The probe `bpf_prog1` runs on every CPU on which some process changes its affinity, and these runs
overlap. Only the increment of the counter is atomic. The capacity check before it and the re-read
of the counter after it, which gives the slot, are accesses of their own, so another run of the
probe can come between any two of the four. Here the runs of the probe are numbered, and a step
names the run that makes its next access.

A slot is a run's own exactly if no other run increments the counter between the increment and the
re-read of that run, and the counter stays in range exactly if no run increments it past the last
index: two runs that both read 62 in the check both increment.

## Main definitions

* `Huc.RecorderPc`, `Huc.Recorders` — where each run of the probe is, and the shared map.
* `Huc.recorderStep` — the next access of a run.
* `Huc.Recorders.Separate` — the slots that were written hold the masks of their only writers.
* `Huc.Recorders.AloneInAdd` — an increment that keeps the slots apart.

## Main results

* `Huc.run_recorder_alone` — a run of the probe without others is `bpfProg1`.
* `Huc.separate_iff_aloneInAdd` — when concurrent runs of the probe get slots of their own.
* `Huc.recorders_collide` — two runs of the probe that store into one slot.
-/

namespace Huc

open Transition

/-- The next access of a run of the probe, with its variable `index` once it is read again. -/
inductive RecorderPc
  /-- `*top == MAX_ENTRIES - 1`. -/
  | check
  /-- `__sync_fetch_and_add(top, 1)`. -/
  | add
  /-- `index = *top`. -/
  | reread
  /-- `bpf_map_update_elem(&cpuindex_mask_maps, &index, &cpu_set, 0)`. -/
  | store (index : BitVec 32)
  /-- The run has returned from the check. -/
  | skipped
  /-- The run has returned after its update. -/
  | stored (index : BitVec 32)
  deriving DecidableEq

/-- The slot a run has chosen. -/
@[grind]
def RecorderPc.index : RecorderPc → Option ℕ
  | .store index => some index.toNat
  | .stored index => some index.toNat
  | _ => none

/-- The shared map and the position of every run of the probe. A run that has not started is at its
first access. -/
structure Recorders where
  map : CpuMap
  pc : ℕ → RecorderPc

/-- Before all runs of the probe. -/
def Recorders.start (m : CpuMap) : Recorders := ⟨m, fun _ => .check⟩

/-- The run `r` moves on to `pc`. -/
def Recorders.goto (s : Recorders) (r : ℕ) (pc : RecorderPc) : Recorders :=
  { s with pc := Function.update s.pc r pc }

/-- The next access of the run `r`, which records the mask `masks r`. -/
def recorderStep (masks : ℕ → Mask) (s : Recorders) (r : ℕ) : Option Recorders :=
  match s.pc r with
  | .check =>
    (s.map.lookup 0).map fun top =>
      if top = BitVec.ofNat 64 (maxEntries - 1) then s.goto r .skipped else s.goto r .add
  | .add =>
    (s.map.lookup 0).map fun top =>
      Recorders.goto { s with map := s.map.set 0 (top + 1#64) } r .reread
  | .reread => (s.map.lookup 0).map fun top => s.goto r (.store (top.setWidth 32))
  | .store index =>
    some (Recorders.goto { s with map := s.map.set index.toNat (masks r) } r (.stored index))
  | .skipped => none
  | .stored _ => none

/-- No run of the probe is in the middle. -/
def Recorders.Finished (s : Recorders) : Prop :=
  ∀ r, s.pc r = .check ∨ s.pc r = .skipped ∨ ∃ i, s.pc r = .stored i

/-- Every run that stored a mask finds it in the slot it chose, which no other run wrote. -/
def Recorders.Separate (masks : ℕ → Mask) (s : Recorders) : Prop :=
  ∀ r i, s.pc r = .stored i →
    s.map.lookup i.toNat = some (masks r) ∧ ∀ q, s.pc q = .stored i → q = r

/-- The counter is in range, and once all runs have finished their slots are separate. -/
def Recorders.Recorded (masks : ℕ → Mask) (s : Recorders) : Prop :=
  s.map.top ≤ 63 ∧ (s.Finished → s.Separate masks)

/-- If the run `r` is about to increment the counter, there is room, and no other run is between its
increment and its re-read. -/
def Recorders.AloneInAdd (s : Recorders) (r : ℕ) : Prop :=
  s.pc r = .add → s.map.top < 63 ∧ ∀ q, s.pc q ≠ .reread

variable {masks : ℕ → Mask} {s t : Recorders} {q r : ℕ}

/-- The positions after the run `r` has moved on. -/
lemma Recorders.goto_pc (s : Recorders) (q r : ℕ) (pc : RecorderPc) :
    (s.goto r pc).pc q = if q = r then pc else s.pc q := by
  simp [Recorders.goto, Function.update_apply]

/-- The position of the run that moves on. -/
@[simp] lemma Recorders.goto_pc_self (s : Recorders) (r : ℕ) (pc : RecorderPc) :
    (s.goto r pc).pc r = pc := by
  simp [Recorders.goto]

/-- The positions of the other runs. -/
lemma Recorders.goto_pc_of_ne (s : Recorders) (pc : RecorderPc) (h : q ≠ r) :
    (s.goto r pc).pc q = s.pc q := by
  simp [Recorders.goto, h]

/-- A run that moves on does not change the map. -/
@[simp] lemma Recorders.goto_map (s : Recorders) (r : ℕ) (pc : RecorderPc) :
    (s.goto r pc).map = s.map := rfl

/-- The check lets a run on unless the counter is at the last index. -/
lemma recorderStep_check (h : s.pc r = .check) :
    recorderStep masks s r = some (if s.map.slot 0 = BitVec.ofNat 64 (maxEntries - 1) then
      s.goto r .skipped else s.goto r .add) := by
  simp [recorderStep, h, ArrayMap.lookup_of_lt s.map (by decide : 0 < maxEntries)]

/-- The increment of the counter. -/
lemma recorderStep_add (h : s.pc r = .add) :
    recorderStep masks s r = some (Recorders.goto
      { s with map := s.map.set 0 (s.map.slot 0 + 1#64) } r .reread) := by
  simp [recorderStep, h, ArrayMap.lookup_of_lt s.map (by decide : 0 < maxEntries)]

/-- The choice of a slot. -/
lemma recorderStep_reread (h : s.pc r = .reread) :
    recorderStep masks s r = some (s.goto r (.store ((s.map.slot 0).setWidth 32))) := by
  simp [recorderStep, h, ArrayMap.lookup_of_lt s.map (by decide : 0 < maxEntries)]

/-- The update of the chosen slot. -/
lemma recorderStep_store {i : BitVec 32} (h : s.pc r = .store i) :
    recorderStep masks s r = some (Recorders.goto
      { s with map := s.map.set i.toNat (masks r) } r (.stored i)) := by
  simp [recorderStep, h]

/-- **What a step of a run of the probe does.**

**Proof sketch.** By the position of the run, with one equation for each access. -/
lemma recorderStep_cases (h : recorderStep masks s r = some t) :
    (s.pc r = .check ∧ ∃ pc, (pc = .skipped ∨ pc = .add) ∧ t = s.goto r pc) ∨
      (s.pc r = .add ∧
        t = Recorders.goto { s with map := s.map.set 0 (s.map.slot 0 + 1#64) } r .reread) ∨
      (s.pc r = .reread ∧ t = s.goto r (.store ((s.map.slot 0).setWidth 32))) ∨
      ∃ i, s.pc r = .store i ∧
        t = Recorders.goto { s with map := s.map.set i.toNat (masks r) } r (.stored i) := by
  cases hpc : s.pc r with
  | check =>
    rw [recorderStep_check hpc, Option.some.injEq] at h
    refine Or.inl ⟨rfl, ?_⟩
    split_ifs at h
    · exact ⟨.skipped, Or.inl rfl, h.symm⟩
    · exact ⟨.add, Or.inr rfl, h.symm⟩
  | add =>
    rw [recorderStep_add hpc, Option.some.injEq] at h
    exact Or.inr (Or.inl ⟨rfl, h.symm⟩)
  | reread =>
    rw [recorderStep_reread hpc, Option.some.injEq] at h
    exact Or.inr (Or.inr (Or.inl ⟨rfl, h.symm⟩))
  | store i =>
    rw [recorderStep_store hpc, Option.some.injEq] at h
    exact Or.inr (Or.inr (Or.inr ⟨i, rfl, h.symm⟩))
  | skipped => simp [recorderStep, hpc] at h
  | stored i => simp [recorderStep, hpc] at h

/-! ## The counter -/

/-- The increment of a counter in range. -/
lemma top_set_zero (m : CpuMap) (h : m.top ≤ 63) :
    CpuMap.top (m.set 0 (m.slot 0 + 1#64)) = m.top + 1 := by
  have hnat : (m.slot 0).toNat ≤ 63 := h
  rw [CpuMap.top, ArrayMap.slot_set_self m _ (by decide : 0 < maxEntries), BitVec.toNat_add]
  simp only [CpuMap.top, BitVec.toNat_ofNat]
  omega

/-- An update of another slot keeps the counter. -/
lemma top_set_of_pos (m : CpuMap) (v : Mask) {i : ℕ} (h : 1 ≤ i) :
    CpuMap.top (m.set i v) = m.top := by
  rw [CpuMap.top, CpuMap.top, ArrayMap.slot_set_of_ne m v (by omega)]

/-- The index a run reads from a counter in range is the counter. -/
lemma index_reread (m : CpuMap) (h : m.top ≤ 63) :
    (RecorderPc.store ((m.slot 0).setWidth 32)).index = some m.top := by
  have hnat : (m.slot 0).toNat ≤ 63 := h
  simp only [RecorderPc.index, BitVec.toNat_setWidth, CpuMap.top, Option.some.injEq]
  omega

/-! ## One run of the probe -/

/-- **A run of the probe without others is `bpfProg1`**: its accesses in a row leave the map as the
probe run alone does. -/
theorem run_recorder_alone (hpc : s.pc r = .check) :
    ∃ n t, run (recorderStep masks) s (List.replicate n r) = some t ∧
      t.map = bpfProg1 s.map (masks r) := by
  have hlookup : s.map.lookup 0 = some (s.map.slot 0) :=
    ArrayMap.lookup_of_lt s.map (by decide)
  by_cases htop : s.map.slot 0 = BitVec.ofNat 64 (maxEntries - 1)
  · refine ⟨1, s.goto r .skipped, ?_, ?_⟩
    · simp [recorderStep_check hpc, htop]
    · simp [bpfProg1, hlookup, htop]
  · have hcheck : recorderStep masks s r = some (s.goto r .add) := by
      simp [recorderStep_check hpc, htop]
    refine ⟨4, _, run_cons.mpr ⟨_, hcheck, run_cons.mpr ⟨_, recorderStep_add (by simp),
      run_cons.mpr ⟨_, recorderStep_reread (by simp),
        run_cons.mpr ⟨_, recorderStep_store (Recorders.goto_pc_self _ _ _), rfl⟩⟩⟩⟩, ?_⟩
    simp [bpfProg1, hlookup, htop, ArrayMap.slot_set_self s.map _ (by decide : 0 < maxEntries)]

/-! ## Runs that increment alone -/

/-- The slots chosen so far are different and in range, and below the slot that a run between its
increment and its re-read is going to choose, if there is one. -/
structure Recorders.Numbered (masks : ℕ → Mask) (s : Recorders) : Prop where
  top_le : s.map.top ≤ 63
  reread_unique : ∀ q r, s.pc q = .reread → s.pc r = .reread → q = r
  reread_pos : ∀ r, s.pc r = .reread → 1 ≤ s.map.top
  index_range : ∀ r i, (s.pc r).index = some i → 1 ≤ i ∧ i ≤ s.map.top
  index_lt : ∀ q r i, s.pc q = .reread → (s.pc r).index = some i → i < s.map.top
  index_inj : ∀ q r i, (s.pc q).index = some i → (s.pc r).index = some i → q = r
  stored : ∀ r i, s.pc r = .stored i → s.map.slot i.toNat = masks r

/-- At the start no slot is chosen. -/
lemma Recorders.Numbered.start {m : CpuMap} (h : m.top ≤ 63) :
    (Recorders.start m).Numbered masks where
  top_le := h
  reread_unique := by simp [Recorders.start]
  reread_pos := by simp [Recorders.start]
  index_range := by simp [Recorders.start, RecorderPc.index]
  index_lt := by simp [Recorders.start]
  index_inj := by simp [Recorders.start, RecorderPc.index]
  stored := by simp [Recorders.start]

/-- A run that returns from the check or goes on to the increment chooses no slot. -/
lemma Recorders.Numbered.check {pc : RecorderPc} (h : s.Numbered masks)
    (hskip : pc = .skipped ∨ pc = .add) : (s.goto r pc).Numbered masks := by
  obtain ⟨htop, huniq, hpos, hrange, hlt, hinj, hstored⟩ := h
  have hpc : pc ≠ .reread ∧ pc.index = none ∧ ∀ i, pc ≠ .stored i := by
    rcases hskip with rfl | rfl <;> simp [RecorderPc.index]
  -- the run `r` has no slot and waits for none, and nothing changes for the others
  constructor <;> simp only [Recorders.goto_pc, Recorders.goto_map] <;> grind

/-- An increment while no run is between its increment and its re-read: the slots chosen so far are
below the new counter. -/
lemma Recorders.Numbered.add (h : s.Numbered masks) (hroom : s.map.top < 63)
    (halone : ∀ q, s.pc q ≠ .reread) :
    (Recorders.goto { s with map := s.map.set 0 (s.map.slot 0 + 1#64) } r .reread).Numbered
      masks := by
  obtain ⟨htop, -, -, hrange, -, hinj, hstored⟩ := h
  have htop' := top_set_zero s.map htop
  constructor <;> simp only [Recorders.goto_pc, Recorders.goto_map, htop']
  case stored =>
    intro q i hq
    have hq' : s.pc q = .stored i := by grind
    have hpos := (hrange q i.toNat (by rw [hq', RecorderPc.index])).1
    rw [ArrayMap.slot_set_of_ne s.map _ (by omega)]
    exact hstored q i hq'
  all_goals grind

/-- The run that incremented alone chooses the slot of the new counter, which no other run has. -/
lemma Recorders.Numbered.reread (h : s.Numbered masks) (hpc : s.pc r = .reread) :
    (s.goto r (.store ((s.map.slot 0).setWidth 32))).Numbered masks := by
  obtain ⟨htop, huniq, hpos, hrange, hlt, hinj, hstored⟩ := h
  have hidx := index_reread s.map htop
  constructor <;> simp only [Recorders.goto_pc, Recorders.goto_map]
  case index_inj =>
    intro q q' i hq hq'
    have hne := fun p (hp : (s.pc p).index = some i) => (hlt r p i hpc hp).ne
    grind
  all_goals grind

/-- A run writes to the slot it has chosen and to no other. -/
lemma Recorders.Numbered.store {i : BitVec 32} (h : s.Numbered masks) (hpc : s.pc r = .store i) :
    (Recorders.goto { s with map := s.map.set i.toNat (masks r) } r (.stored i)).Numbered
      masks := by
  obtain ⟨htop, huniq, hpos, hrange, hlt, hinj, hstored⟩ := h
  have hidx : (s.pc r).index = some i.toNat := by rw [hpc, RecorderPc.index]
  have hidx' : (RecorderPc.stored i).index = some i.toNat := rfl
  obtain ⟨hi, hi'⟩ := hrange r i.toNat hidx
  have htop' := top_set_of_pos s.map (masks r) hi
  constructor <;> simp only [Recorders.goto_pc, Recorders.goto_map, htop']
  case stored =>
    intro q j hq
    by_cases hqr : q = r
    · obtain rfl : i = j := by simpa [hqr] using hq
      rw [hqr, ArrayMap.slot_set_self s.map _ (by simp only [maxEntries]; omega)]
    · rw [if_neg hqr] at hq
      have hij : j.toNat ≠ i.toNat := by
        intro heq
        exact hqr (hinj q r i.toNat (by rw [hq, RecorderPc.index, heq]) hidx)
      rw [ArrayMap.slot_set_of_ne s.map _ hij]
      exact hstored q j hq
  all_goals grind

/-- **Steps whose increments are alone keep the slots apart.** -/
lemma numbered_of_recorderStep (h : s.Numbered masks) (halone : s.AloneInAdd r)
    (hstep : recorderStep masks s r = some t) : t.Numbered masks := by
  obtain ⟨-, pc, hpc, rfl⟩ | ⟨hpc, rfl⟩ | ⟨hpc, rfl⟩ | ⟨i, hpc, rfl⟩ := recorderStep_cases hstep
  · exact h.check hpc
  · exact h.add (halone hpc).1 (halone hpc).2
  · exact h.reread hpc
  · exact h.store hpc

/-- Different slots that hold the masks of their runs are separate. -/
lemma Recorders.Numbered.recorded (h : s.Numbered masks) : s.Recorded masks := by
  refine ⟨h.top_le, ?_⟩
  intro _ r i hr
  have hidx : (s.pc r).index = some i.toNat := by rw [hr, RecorderPc.index]
  have hlt : i.toNat < maxEntries := by
    have := (h.index_range r _ hidx).2.trans h.top_le
    simp only [maxEntries]
    omega
  refine ⟨?_, ?_⟩
  · rw [ArrayMap.lookup_of_lt s.map hlt, h.stored r i hr]
  · intro q hq
    exact h.index_inj q r i.toNat (by rw [hq, RecorderPc.index]) hidx

/-! ## Increments that are not alone -/

/-- Two runs have chosen the same slot or are going to. -/
def Recorders.Colliding (s : Recorders) : Prop :=
  ∃ q r, q ≠ r ∧
    (s.pc q = .reread ∧ s.pc r = .reread ∨
      s.pc q = .reread ∧ (s.pc r).index = some s.map.top ∨
      ∃ i, (s.pc q).index = some i ∧ (s.pc r).index = some i)

/-- The counter is in range, and no run chooses the slot of the counter itself. -/
structure Recorders.Ranged (s : Recorders) : Prop where
  top_le : s.map.top ≤ 63
  reread_pos : ∀ r, s.pc r = .reread → 1 ≤ s.map.top
  index_pos : ∀ r i, (s.pc r).index = some i → 1 ≤ i

/-- At the start no slot is chosen. -/
lemma Recorders.Ranged.start {m : CpuMap} (h : m.top ≤ 63) : (Recorders.start m).Ranged where
  top_le := h
  reread_pos := by simp [Recorders.start]
  index_pos := by simp [Recorders.start, RecorderPc.index]

/-- **What a step of a run of the probe does to the counter and the choices**, for a counter in
range: it increments the counter, or chooses the slot of the counter, or changes neither. -/
lemma Recorders.Ranged.step_cases (h : s.Ranged) (hstep : recorderStep masks s r = some t) :
    ∃ pc, (∀ q, t.pc q = if q = r then pc else s.pc q) ∧
      (s.pc r = .add ∧ pc = .reread ∧ t.map.top = s.map.top + 1 ∨
        s.pc r = .reread ∧ pc.index = some s.map.top ∧ pc ≠ .reread ∧ t.map.top = s.map.top ∨
        s.pc r ≠ .reread ∧ pc.index = (s.pc r).index ∧ pc ≠ .reread ∧ t.map.top = s.map.top) := by
  obtain ⟨hr, pc, hpc, rfl⟩ | ⟨hr, rfl⟩ | ⟨hr, rfl⟩ | ⟨i, hr, rfl⟩ := recorderStep_cases hstep
  · refine ⟨pc, fun q => Recorders.goto_pc s q r pc, Or.inr (Or.inr ?_)⟩
    rcases hpc with rfl | rfl <;> simp [RecorderPc.index, hr]
  · exact ⟨_, fun q => Recorders.goto_pc _ q r _,
      Or.inl ⟨hr, rfl, top_set_zero s.map h.top_le⟩⟩
  · exact ⟨_, fun q => Recorders.goto_pc _ q r _,
      Or.inr (Or.inl ⟨hr, index_reread s.map h.top_le, by simp, rfl⟩)⟩
  · refine ⟨_, fun q => Recorders.goto_pc _ q r _, Or.inr (Or.inr ?_)⟩
    have hi := h.index_pos r i.toNat (by rw [hr, RecorderPc.index])
    exact ⟨by simp [hr], by rw [hr]; rfl, by simp, top_set_of_pos s.map _ hi⟩

/-- A step that leaves the counter in range keeps the slot of the counter out of reach. -/
lemma ranged_of_recorderStep (h : s.Ranged) (ht : t.map.top ≤ 63)
    (hstep : recorderStep masks s r = some t) : t.Ranged := by
  obtain ⟨pc, hpc, hcases⟩ := h.step_cases hstep
  obtain ⟨htop, hreread, hindex⟩ := h
  refine ⟨ht, ?_, ?_⟩
  · intro q hq
    rw [hpc] at hq
    grind
  · intro q i hq
    rw [hpc] at hq
    grind

/-- **Colliding runs stay colliding.**

**Proof sketch.** A run that increments the counter between another run's increment and its re-read
goes to choose the same slot as the other. A run that re-reads the counter chooses its slot, which
is also that of every other run that has not re-read it yet. -/
lemma colliding_of_recorderStep (h : s.Ranged) (hc : s.Colliding)
    (hstep : recorderStep masks s r = some t) : t.Colliding := by
  obtain ⟨pc, hpc, hcases⟩ := h.step_cases hstep
  obtain ⟨q, q', hne, hc⟩ := hc
  rcases hcases with ⟨hr, rfl, htop⟩ | ⟨hr, hchosen, -, htop⟩ | ⟨hr, hsame, -, htop⟩
  · rcases hc with ⟨hq, hq'⟩ | ⟨hq, hq'⟩ | ⟨i, hq, hq'⟩
    · exact ⟨q, q', hne, Or.inl ⟨by grind, by grind⟩⟩
    · exact ⟨q, r, by grind, Or.inl ⟨by grind, by grind⟩⟩
    · exact ⟨q, q', hne, Or.inr (Or.inr ⟨i, by grind, by grind⟩)⟩
  · rcases hc with ⟨hq, hq'⟩ | ⟨hq, hq'⟩ | ⟨i, hq, hq'⟩
    · by_cases hqr : q = r
      · exact ⟨q', q, hne.symm, Or.inr (Or.inl ⟨by grind, by grind⟩)⟩
      · by_cases hqr' : q' = r
        · exact ⟨q, q', hne, Or.inr (Or.inl ⟨by grind, by grind⟩)⟩
        · exact ⟨q, q', hne, Or.inl ⟨by grind, by grind⟩⟩
    · by_cases hqr : q = r
      · exact ⟨q, q', hne, Or.inr (Or.inr ⟨s.map.top, by grind, by grind⟩)⟩
      · exact ⟨q, q', hne, Or.inr (Or.inl ⟨by grind, by grind⟩)⟩
    · exact ⟨q, q', hne, Or.inr (Or.inr ⟨i, by grind, by grind⟩)⟩
  · have hkeep : ∀ p, (t.pc p).index = (s.pc p).index := by grind
    have hreread : ∀ p, s.pc p = .reread → t.pc p = .reread := by grind
    refine ⟨q, q', hne, ?_⟩
    rw [hkeep, hkeep, htop]
    exact hc.imp (And.imp (hreread q) (hreread q')) (Or.imp_left (And.imp_left (hreread q)))

/-- Once colliding runs have finished, their slot is not separate. -/
lemma not_separate_of_colliding (hc : s.Colliding) (hfin : s.Finished) : ¬s.Separate masks := by
  intro hsep
  have hstored : ∀ r i, (s.pc r).index = some i → ∃ j, s.pc r = .stored j ∧ j.toNat = i := by
    intro r i hi
    rcases hfin r with hr | hr | ⟨j, hr⟩ <;> simp only [hr, RecorderPc.index] at hi
    · contradiction
    · contradiction
    · exact ⟨j, hr, Option.some.inj hi⟩
  have hreread : ∀ r, s.pc r ≠ .reread := by
    intro r heq
    rcases hfin r with hr | hr | ⟨j, hr⟩ <;> simp [hr] at heq
  obtain ⟨q, r, hne, ⟨hq, -⟩ | ⟨hq, -⟩ | ⟨i, hq, hr⟩⟩ := hc
  · exact hreread q hq
  · exact hreread q hq
  · obtain ⟨j, hj, rfl⟩ := hstored q i hq
    obtain ⟨j', hj', heq⟩ := hstored r _ hr
    obtain rfl : j' = j := BitVec.eq_of_toNat_eq heq
    exact hne ((hsep r j' hj').2 q hj)

/-- An increment that is not alone takes the counter out of range or makes runs collide. -/
lemma aloneInAdd_of_recorderStep (h : s.map.top ≤ 63) (hstep : recorderStep masks s r = some t)
    (htop : t.map.top ≤ 63) (hc : ¬t.Colliding) : s.AloneInAdd r := by
  intro hr
  rw [recorderStep_add hr, Option.some.injEq] at hstep
  subst hstep
  refine ⟨?_, ?_⟩
  · have := top_set_zero s.map h
    rw [Recorders.goto_map, this] at htop
    omega
  · intro q hq
    have hqr : q ≠ r := by
      rintro rfl
      rw [hr] at hq
      contradiction
    exact hc ⟨q, r, hqr, Or.inl ⟨by rw [Recorders.goto_pc_of_ne _ _ hqr]; exact hq, by simp⟩⟩

/-- Runs that increment alone do not collide. -/
lemma Recorders.Numbered.not_colliding (h : s.Numbered masks) : ¬s.Colliding := by
  rintro ⟨q, r, hne, ⟨hq, hr⟩ | ⟨hq, hr⟩ | ⟨i, hq, hr⟩⟩
  · exact hne (h.reread_unique q r hq hr)
  · exact (h.index_lt q r _ hq hr).ne rfl
  · exact hne (h.index_inj q r i hq hr)

/-! ## When the slots are separate -/

/-- A run of the probe that takes no step has not started. -/
lemma pc_of_not_mem {acts : List ℕ} (hrun : run (recorderStep masks) s acts = some t)
    (hr : r ∉ acts) : t.pc r = s.pc r := by
  induction acts generalizing s with
  | nil =>
    obtain rfl : s = t := by simpa using hrun
    rfl
  | cons a acts ih =>
    obtain ⟨u, hstep, hrest⟩ := run_cons.mp hrun
    rw [List.mem_cons, not_or] at hr
    rw [ih hrest hr.2]
    obtain ⟨-, pc, -, rfl⟩ | ⟨-, rfl⟩ | ⟨-, rfl⟩ | ⟨i, -, rfl⟩ := recorderStep_cases hstep <;>
      simp [Recorders.goto_pc, hr.1]

/-- All runs of the probe have finished once those that took a step have. -/
lemma finished_of_forall_mem {m : CpuMap} {acts : List ℕ}
    (hrun : run (recorderStep masks) (Recorders.start m) acts = some s)
    (h : ∀ r ∈ acts, s.pc r = .skipped ∨ ∃ i, s.pc r = .stored i) : s.Finished := by
  intro r
  by_cases hr : r ∈ acts
  · exact Or.inr (h r hr)
  · exact Or.inl (pc_of_not_mem hrun hr)

/-- In a run that ends with all runs of the probe finished, none collide on the way if the slots are
separate at the end. -/
lemma always_not_colliding {m : CpuMap} (hm : m.top ≤ 63) {acts : List ℕ}
    (hrun : run (recorderStep masks) (Recorders.start m) acts = some s) (hfin : s.Finished)
    (h : Always (recorderStep masks) (Recorders.Recorded masks) (Recorders.start m) acts) :
    Always (recorderStep masks) (fun t => t.map.top ≤ 63 ∧ ¬t.Colliding) (Recorders.start m)
      acts := by
  rintro as t ⟨bs, rfl⟩ has
  have htop : Always (recorderStep masks) (fun t => t.map.top ≤ 63) (Recorders.start m)
      (as ++ bs) := h.imp fun _ ht => ht.1
  refine ⟨htop as t (List.prefix_append as bs) has, ?_⟩
  intro hc
  have hranged : t.Ranged :=
    invariant_of_run_always (fun _ _ _ => ranged_of_recorderStep) (Recorders.Ranged.start hm)
      htop.left has
  obtain ⟨t', ht', hbs⟩ := run_append.mp hrun
  obtain rfl : t = t' := Option.some.inj (has.symm.trans ht')
  obtain ⟨-, hcs⟩ : s.Ranged ∧ s.Colliding :=
    invariant_of_run_always (I := fun t => t.Ranged ∧ t.Colliding)
      (fun _ _ _ hI ht hstep =>
        ⟨ranged_of_recorderStep hI.1 ht hstep, colliding_of_recorderStep hI.1 hI.2 hstep⟩)
      ⟨hranged, hc⟩ (htop.right has) hbs
  exact not_separate_of_colliding hcs hfin ((h _ s List.prefix_rfl hrun).2 hfin)

/-- **When concurrent runs of the probe get slots of their own**: if every increment is made while
there is room and no other run is between its increment and its re-read, the counter never leaves
its range and, whenever all runs have finished, every run that passed the check finds its mask in a
slot that no other run wrote. In a run of the system that ends with all runs of the probe finished,
this is the only way.

**Proof sketch.** Increments that are alone keep the chosen slots different (`Numbered`). One that
is not takes the counter out of range, or makes two runs collide, and they stay colliding until
both have written to the same slot. -/
theorem separate_iff_aloneInAdd (masks : ℕ → Mask) (m : CpuMap) (hm : m.top ≤ 63) (acts : List ℕ)
    (s : Recorders) (hrun : run (recorderStep masks) (Recorders.start m) acts = some s) :
    (Along (recorderStep masks) Recorders.AloneInAdd (Recorders.start m) acts →
        Always (recorderStep masks) (Recorders.Recorded masks) (Recorders.start m) acts) ∧
      (s.Finished →
        Always (recorderStep masks) (Recorders.Recorded masks) (Recorders.start m) acts →
        Along (recorderStep masks) Recorders.AloneInAdd (Recorders.start m) acts) := by
  constructor
  · intro halone
    have hnum : Always (recorderStep masks) (Recorders.Numbered masks) (Recorders.start m) acts :=
      always_of_along (fun _ _ _ h halone hstep => numbered_of_recorderStep h halone hstep)
        (Recorders.Numbered.start hm) halone
    exact hnum.imp fun _ ht => ht.recorded
  · intro hfin h
    refine (always_iff_along (fun _ _ _ h halone hstep => numbered_of_recorderStep h halone hstep)
      ?_ ?_ (Recorders.Numbered.start hm) hrun).mp (always_not_colliding hm hrun hfin h)
    · intro s hs
      exact ⟨hs.top_le, hs.not_colliding⟩
    · intro s r t hs hstep ht
      exact aloneInAdd_of_recorderStep hs.top_le hstep ht.1 ht.2

/-- A run of the probe on an empty map. -/
theorem separate_iff_aloneInAdd_one :
    Always (recorderStep fun _ => 6#64) (Recorders.Recorded fun _ => 6#64)
      (Recorders.start CpuMap.zero) [0, 0, 0, 0] := by
  have hsome : (run (recorderStep fun _ => 6#64) (Recorders.start CpuMap.zero)
      [0, 0, 0, 0]).isSome := by decide +kernel
  have hrun := (Option.some_get hsome).symm
  refine (separate_iff_aloneInAdd _ CpuMap.zero (by decide) _ _ hrun).1 ?_
  have hcheck : (Recorders.start CpuMap.zero).pc 0 = .check := rfl
  refine Along.cons (by simp [Recorders.AloneInAdd, hcheck]) (recorderStep_check hcheck) ?_
  rw [if_neg (by decide)]
  refine Along.cons ?_ (recorderStep_add (by simp)) (Along.cons (by simp [Recorders.AloneInAdd])
    (recorderStep_reread (by simp)) (Along.cons (by simp [Recorders.AloneInAdd])
      (recorderStep_store (Recorders.goto_pc_self _ _ _)) trivial))
  intro _
  refine ⟨by decide, ?_⟩
  intro q hq
  rw [Recorders.goto_pc] at hq
  split_ifs at hq
  contradiction

/-- Different masks for the first two runs. -/
def twoMasks (r : ℕ) : Mask := if r = 0 then 0xa1#64 else 0xb2#64

/-- The steps of two runs of the probe, each of which increments the counter before the other reads
it again. -/
def bothIncrement : List ℕ := [0, 1, 0, 1, 0, 1, 0, 1]

/-- **Two runs of the probe store into one slot**: on an empty map both choose slot 2, and the mask
of the first is overwritten. -/
theorem recorders_collide :
    ∃ s, CpuMap.zero.top ≤ 63 ∧
      run (recorderStep twoMasks) (Recorders.start CpuMap.zero) bothIncrement = some s ∧
      s.Finished ∧ ¬s.Separate twoMasks := by
  have hpcs : (run (recorderStep twoMasks) (Recorders.start CpuMap.zero) bothIncrement).map
      (fun s => (s.pc 0, s.pc 1)) = some (.stored 2, .stored 2) := by decide +kernel
  obtain ⟨s, hrun, hs⟩ := Option.map_eq_some_iff.mp hpcs
  obtain ⟨h₀, h₁⟩ : s.pc 0 = .stored 2 ∧ s.pc 1 = .stored 2 := by simpa using hs
  refine ⟨s, by decide, hrun, finished_of_forall_mem hrun ?_, ?_⟩
  · intro r hr
    have hr' : r = 0 ∨ r = 1 := by
      simp [bothIncrement] at hr
      omega
    rcases hr' with rfl | rfl
    · exact Or.inr ⟨2, h₀⟩
    · exact Or.inr ⟨2, h₁⟩
  · intro hsep
    have := (hsep 0 2 h₀).2 1 h₁
    contradiction

/-- Two runs that both read 62 in the check take the counter out of range. -/
example : ∃ s, run (recorderStep twoMasks) (Recorders.start (CpuMap.zero.set 0 62#64))
    [0, 1, 0, 1] = some s ∧ s.map.top = 64 :=
  ⟨_, rfl, by decide⟩

end Huc
