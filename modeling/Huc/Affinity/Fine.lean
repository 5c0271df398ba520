import Huc.Affinity.Once
import Huc.Affinity.Recorders
import Huc.Affinity.Order

set_option relaxedAutoImplicit false
set_option autoImplicit false

/-!
# Probes, daemon and host together

`Huc.raceStep` lets the single accesses of the daemon interleave with whole runs of the probe, and
`Huc.recorderStep` the single accesses of the probe with each other. Here all of them interleave:
between any two accesses of the daemon any number of runs of the probe may make any of theirs, and
the submissions reach the host, where they rebind the threads of the vCPUs.

Much goes wrong then. Two runs may choose one slot; a run may choose its slot before the daemon
resets the counter and write to it after, behind the scan of a later drain; a run that reads the
counter again after the reset writes its mask over the counter. What stays true is that a value
submitted from a slot is the mask of some run of the probe that has stored it there, and that no run
is submitted twice. So the affinity of a vCPU is always one that some run has asked for, unless it
is the counter's doing.

## Main definitions

* `Huc.FineState`, `Huc.fineStep` — the single accesses of the probes and of the daemon.
* `Huc.FineTrace`, `Huc.FineInv` — the run behind every mask, and the invariant.
* `Huc.PinState`, `Huc.pinStep` — the same with the host.

## Main results

* `Huc.fineTraceStep_inv` — every access keeps the invariant.
* `Huc.fine_submitted_once` — the submissions from the slots come from different runs.
* `Huc.pin_process` — the host has processed what was submitted.
* `Huc.pin_sound` — where the affinity of a vCPU comes from.
-/

namespace Huc

open Transition

/-! ## All accesses -/

/-- The map with the daemon as in `RaceState`, and the position of every run of the probe. -/
structure FineState extends RaceState where
  recorder : ℕ → RecorderPc

/-- Before the first poll of a fresh map. -/
def FineState.start : FineState := ⟨RaceState.start, fun _ => .check⟩

/-- The next access of the run `r` of the probe, or of the daemon. -/
inductive FineAct
  | recorder (r : ℕ)
  | daemon
  deriving DecidableEq

/-- The probes' side of the state. -/
def FineState.recorders (s : FineState) : Recorders := ⟨s.map, s.recorder⟩

/-- One access, where the run `r` of the probe records the mask `masks r`. -/
def fineStep (masks : ℕ → Mask) (s : FineState) : FineAct → Option FineState
  | .recorder r =>
    (recorderStep masks s.recorders r).map fun u => { s with map := u.map, recorder := u.pc }
  | .daemon => some { s with toRaceState := daemonStep s.toRaceState }

/-! ## The run behind every mask -/

/-- The system; for every slot the run of the probe that has written it last; the run that the
daemon's variable `value` came from; and the runs that the submissions from the slots came from. -/
structure FineTrace where
  fine : FineState
  origin : ℕ → ℕ
  held : ℕ
  sources : List ℕ

/-- Before the first poll of a fresh map. -/
def FineTrace.start : FineTrace := ⟨FineState.start, fun _ => 0, 0, []⟩

/-- One access, with the history it makes. -/
def fineTraceStep (masks : ℕ → Mask) (g : FineTrace) (a : FineAct) : Option FineTrace :=
  (fineStep masks g.fine a).map fun s =>
    match a with
    | .recorder r =>
      { g with
        fine := s
        origin := match g.fine.recorder r with
          | .store index => Function.update g.origin index.toNat r
          | _ => g.origin }
    | .daemon =>
      { g with
        fine := s
        held := match g.fine.pc with
          | .scan i => g.origin i
          | _ => g.held
        sources := match g.fine.pc with
          | .submit i => if i < maxEntries then g.sources ++ [g.held] else g.sources
          | _ => g.sources }

/-- The history does not influence the system. -/
lemma fineTraceStep_fine (masks : ℕ → Mask) (g : FineTrace) (a : FineAct) (t : FineState)
    (h : fineStep masks g.fine a = some t) :
    ∃ g', fineTraceStep masks g a = some g' ∧ g'.fine = t := by
  rw [fineTraceStep, h]
  cases a with
  | recorder r => exact ⟨_, rfl, rfl⟩
  | daemon => exact ⟨_, rfl, rfl⟩

/-- The run `r` of the probe has stored its mask in slot `i`. -/
def FineState.StoredAt (s : FineState) (r i : ℕ) : Prop :=
  ∃ index, s.recorder r = .stored index ∧ index.toNat = i

/-- A run of the probe stores once. -/
lemma FineState.StoredAt.unique {s : FineState} {r i j : ℕ} (hi : s.StoredAt r i)
    (hj : s.StoredAt r j) : i = j := by
  obtain ⟨index, hpc, rfl⟩ := hi
  obtain ⟨index', hpc', rfl⟩ := hj
  rw [RecorderPc.stored.inj (hpc.symm.trans hpc')]

/-- **The invariant.** A slot that is not empty holds the mask of the run that has written it last,
the submitted masks are those of different runs, and only a slot about to be cleared may hold the
mask of a run that was submitted. -/
structure FineInv (masks : ℕ → Mask) (g : FineTrace) : Prop where
  pc_ok : g.fine.pc.Bounded g.fine.toDrain
  slots : ∀ i, g.fine.map.Occupied i →
    g.fine.StoredAt (g.origin i) i ∧ g.fine.map.slot i = masks (g.origin i)
  sources : List.Forall₂ (fun r v => (∃ i, 1 ≤ i ∧ i < maxEntries ∧ g.fine.StoredAt r i) ∧
    v = masks r) g.sources g.fine.fromSlots
  nodup : g.sources.Nodup
  fresh : ∀ i, g.fine.map.Occupied i → g.origin i ∈ g.sources → g.fine.pc = .clear i
  held : ∀ i, g.fine.pc = .submit i → i < maxEntries →
    g.fine.StoredAt g.held i ∧ g.fine.value = masks g.held ∧ g.held ∉ g.sources

/-- Nothing is stored or submitted at the start. -/
lemma fineInv_start (masks : ℕ → Mask) : FineInv masks FineTrace.start where
  pc_ok := trivial
  slots i h := absurd (ArrayMap.slot_const 0#64 h.2.1) h.2.2
  sources := List.Forall₂.nil
  nodup := List.nodup_nil
  fresh i _ h := absurd h List.not_mem_nil
  held i h _ := absurd h (by simp [FineTrace.start, FineState.start, RaceState.start])

section Steps

variable {masks : ℕ → Mask} {g g' : FineTrace}

/-- The runs that were submitted have stored their masks. -/
lemma FineInv.stored_of_mem (h : FineInv masks g) {r : ℕ} (hr : r ∈ g.sources) :
    ∃ i, g.fine.StoredAt r i := by
  obtain ⟨k, hk, rfl⟩ := List.getElem_of_mem hr
  have hlen := h.sources.length_eq
  obtain ⟨⟨i, -, -, hi⟩, -⟩ := h.sources.get hk (by omega)
  exact ⟨i, hi⟩

/-- What a run of the probe does to the positions: those that have stored stay where they are. -/
lemma storedAt_of_recorderStep {s : FineState} {u : Recorders} {q r i : ℕ}
    (hstep : recorderStep masks s.recorders r = some u) (h : s.StoredAt q i) :
    FineState.StoredAt { s with map := u.map, recorder := u.pc } q i := by
  obtain ⟨index, hpc, hi⟩ := h
  refine ⟨index, ?_, hi⟩
  have hne : q ≠ r := by
    rintro rfl
    simp [recorderStep, FineState.recorders, hpc] at hstep
  rcases recorderStep_cases hstep with ⟨-, pc, -, rfl⟩ | ⟨-, rfl⟩ | ⟨-, rfl⟩ | ⟨j, -, rfl⟩ <;>
    exact (Recorders.goto_pc_of_ne _ _ hne).trans hpc

/-- An access of the probe other than its store keeps the invariant: no slot but the counter
changes. -/
lemma FineInv.keep (h : FineInv masks g) {u : Recorders} {r : ℕ}
    (hstep : recorderStep masks g.fine.recorders r = some u)
    (hslot : ∀ i, 1 ≤ i → u.map.slot i = g.fine.map.slot i) :
    FineInv masks { g with fine := { g.fine with map := u.map, recorder := u.pc } } := by
  have hocc : ∀ {i}, u.map.Occupied i → g.fine.map.Occupied i := by
    rintro i ⟨h₁, hlt, hne⟩
    exact ⟨h₁, hlt, hslot i h₁ ▸ hne⟩
  refine
    { pc_ok := ?_
      slots := fun i hi => ?_
      sources := ?_
      nodup := h.nodup
      fresh := fun i hi hmem => h.fresh i (hocc hi) hmem
      held := fun i hpc hlt => ?_ }
  · have hpc := h.pc_ok
    unfold DrainPc.Bounded at hpc ⊢
    exact hpc
  · obtain ⟨hstored, hval⟩ := h.slots i (hocc hi)
    exact ⟨storedAt_of_recorderStep hstep hstored, (hslot i hi.1).trans hval⟩
  · refine h.sources.imp fun r v hr => ?_
    obtain ⟨⟨i, h₁, hlt, hi⟩, hv⟩ := hr
    exact ⟨⟨i, h₁, hlt, storedAt_of_recorderStep hstep hi⟩, hv⟩
  · obtain ⟨hstored, hval, hnot⟩ := h.held i hpc hlt
    exact ⟨storedAt_of_recorderStep hstep hstored, hval, hnot⟩

/-- **The store of a run of the probe keeps the invariant**: the run has not been submitted, since
it had not stored before.

**Proof sketch.** A slot that is not empty after the store is the one written or was not empty
before, with the same mask. The slot written belongs to the run now, and no submission comes from a
run that had not stored; every other clause is about runs that have stored, which they still
have. -/
lemma FineInv.store (h : FineInv masks g) {r : ℕ} {index : BitVec 32}
    (hpc : g.fine.recorder r = .store index) :
    FineInv masks
      { g with
        fine := { g.fine with
          map := g.fine.map.set index.toNat (masks r)
          recorder := Function.update g.fine.recorder r (.stored index) }
        origin := Function.update g.origin index.toNat r } := by
  have hstep : recorderStep masks g.fine.recorders r = some
      ⟨g.fine.map.set index.toNat (masks r), Function.update g.fine.recorder r (.stored index)⟩ :=
    recorderStep_store hpc
  have hnot : r ∉ g.sources := by
    intro hmem
    obtain ⟨i, index', hpc', -⟩ := h.stored_of_mem hmem
    rw [hpc] at hpc'
    contradiction
  have hkeep := fun {q i} => storedAt_of_recorderStep (q := q) (i := i) hstep
  -- a slot that is not empty is the one written, or holds the same mask as before
  have hcase : ∀ i, CpuMap.Occupied (g.fine.map.set index.toNat (masks r)) i →
      i = index.toNat ∨ i ≠ index.toNat ∧ g.fine.map.Occupied i ∧
        (g.fine.map.set index.toNat (masks r)).slot i = g.fine.map.slot i := by
    rintro i ⟨h₁, hlt, hne⟩
    by_cases hi : i = index.toNat
    · exact Or.inl hi
    · have hslot := ArrayMap.slot_set_of_ne g.fine.map (masks r) hi
      exact Or.inr ⟨hi, ⟨h₁, hlt, hslot ▸ hne⟩, hslot⟩
  refine
    { pc_ok := ?_
      slots := fun i hi => ?_
      sources := ?_
      nodup := h.nodup
      fresh := fun i hi hmem => ?_
      held := fun i hpc' hlt => ?_ }
  · have hpc' := h.pc_ok
    unfold DrainPc.Bounded at hpc' ⊢
    exact hpc'
  · dsimp only at hi ⊢
    rcases hcase i hi with rfl | ⟨hne, hocc, hslot⟩
    · rw [Function.update_self]
      exact ⟨⟨index, Function.update_self _ _ _, rfl⟩, ArrayMap.slot_set_self _ _ hi.2.1⟩
    · rw [Function.update_of_ne hne, hslot]
      exact ⟨hkeep (h.slots i hocc).1, (h.slots i hocc).2⟩
  · refine h.sources.imp fun q v hq => ?_
    obtain ⟨⟨i, h₁, hlt, hi⟩, hv⟩ := hq
    exact ⟨⟨i, h₁, hlt, hkeep hi⟩, hv⟩
  · dsimp only at hi hmem
    rcases hcase i hi with rfl | ⟨hne, hocc, -⟩
    · rw [Function.update_self] at hmem
      exact absurd hmem hnot
    · rw [Function.update_of_ne hne] at hmem
      exact h.fresh i hocc hmem
  · obtain ⟨hstored, hval, hnot'⟩ := h.held i hpc' hlt
    exact ⟨hkeep hstored, hval, hnot'⟩

/-- **Every access of a run of the probe keeps the invariant.** -/
lemma FineInv.recorder (h : FineInv masks g) {r : ℕ}
    (hstep : fineTraceStep masks g (.recorder r) = some g') : FineInv masks g' := by
  rw [fineTraceStep, Option.map_eq_some_iff] at hstep
  obtain ⟨s, hs, rfl⟩ := hstep
  obtain ⟨u, hu, rfl⟩ := Option.map_eq_some_iff.mp hs
  have hset : ∀ v i, 1 ≤ i → (g.fine.map.set 0 v).slot i = g.fine.map.slot i := fun v i hi =>
    ArrayMap.slot_set_of_ne _ _ (by omega)
  rcases recorderStep_cases hu with ⟨hpc, pc, -, rfl⟩ | ⟨hpc, rfl⟩ | ⟨hpc, rfl⟩ | ⟨index, hpc, rfl⟩
  · change g.fine.recorder r = _ at hpc
    simp only [hpc]
    exact h.keep hu fun _ _ => rfl
  · change g.fine.recorder r = _ at hpc
    simp only [hpc]
    exact h.keep hu (hset _)
  · change g.fine.recorder r = _ at hpc
    simp only [hpc]
    exact h.keep hu fun _ _ => rfl
  · change g.fine.recorder r = _ at hpc
    simp only [hpc]
    exact h.store hpc

/-- **A lookup keeps the invariant**: the mask found is that of the run that has written the slot,
which was not submitted yet.

**Proof sketch.** If the slot is empty the daemon goes on with a zero in hand. Otherwise the slot is
in the table and not empty, so that the invariant names the run that stored the mask; it was not
submitted, since a submitted run is in a slot only between its submission and the update that clears
it. -/
lemma FineInv.scan (h : FineInv masks g) {i : ℕ} (hpc : g.fine.pc = .scan i)
    (hstep : fineTraceStep masks g .daemon = some g') : FineInv masks g' := by
  obtain ⟨⟨⟨d, pc, acc⟩, rec⟩, origin, held, sources⟩ := g
  obtain rfl : pc = .scan i := hpc
  obtain rfl := Option.some.inj hstep
  obtain ⟨h₁, hi⟩ := h.pc_ok
  have hfresh : ∀ j, d.map.Occupied j → origin j ∉ sources := fun j hj hmem =>
    absurd (h.fresh j hj hmem) (by simp)
  by_cases h0 : lookupElem d.map i d.value = 0#64
  · have hrace : daemonStep ⟨d, .scan i, acc⟩ = ⟨{ d with value := 0#64 }, .next i, acc⟩ := by
      simp [daemonStep, h0]
    obtain ⟨hok, hsubmit, -⟩ := @next_bounded i { d with value := 0#64 } hi rfl
    simp only [hrace]
    exact ⟨hok, h.slots, h.sources, h.nodup, fun j hj hmem => absurd hmem (hfresh j hj),
      fun j hj => absurd hj (hsubmit j)⟩
  · have hrace : daemonStep ⟨d, .scan i, acc⟩ =
        ⟨{ d with value := lookupElem d.map i d.value }, .submit i, acc⟩ := by
      simp [daemonStep, h0]
    simp only [hrace]
    refine ⟨⟨h₁, hi⟩, h.slots, h.sources, h.nodup, fun j hj hmem => absurd hmem (hfresh j hj), ?_⟩
    intro j hj hlt
    obtain rfl : i = j := DrainPc.submit.inj hj
    have hslot := lookupElem_of_lt d.map d.value hlt
    have hocc : d.map.Occupied i := ⟨h₁, hlt, hslot ▸ h0⟩
    obtain ⟨hstored, hval⟩ := h.slots i hocc
    exact ⟨hstored, hslot.trans hval, hfresh i hocc⟩

/-- **A submission keeps the invariant**: its run becomes one that was submitted, and can only be in
the slot that is cleared next.

**Proof sketch.** At an index in the table the mask in hand has a run that was not submitted, which
is added to the submitted ones. A slot that holds its mask is the one just read, since a run stores
once. At the index `MAX_CPU` nothing from a slot is submitted. -/
lemma FineInv.submit (h : FineInv masks g) {i : ℕ} (hpc : g.fine.pc = .submit i)
    (hstep : fineTraceStep masks g .daemon = some g') : FineInv masks g' := by
  obtain ⟨⟨⟨d, pc, acc⟩, rec⟩, origin, held, sources⟩ := g
  obtain rfl : pc = .submit i := hpc
  obtain rfl := Option.some.inj hstep
  obtain ⟨h₁, hi⟩ := h.pc_ok
  have hrace : daemonStep ⟨d, .submit i, acc⟩ =
      ⟨⟨d.map, 0#64, i, d.submitted ++ [(i, d.value)]⟩, .clear i, acc⟩ := rfl
  have hfrom : RaceState.fromSlots (daemonStep ⟨d, .submit i, acc⟩) =
      RaceState.fromSlots ⟨d, .submit i, acc⟩ ++ if i < maxEntries then [d.value] else [] :=
    fromSlots_submit d _ acc i d.value
  have hfresh : ∀ j, d.map.Occupied j → origin j ∉ sources := fun j hj hmem =>
    absurd (h.fresh j hj hmem) (by simp)
  have hok : (DrainPc.clear i).Bounded ⟨d.map, 0#64, i, d.submitted ++ [(i, d.value)]⟩ :=
    ⟨h₁, hi, rfl, rfl⟩
  by_cases hlt : i < maxEntries
  · obtain ⟨hstored, hval, hnot⟩ := h.held i rfl hlt
    rw [if_pos hlt] at hfrom
    simp only [if_pos hlt]
    refine ⟨hok, h.slots, ?_, ?_, ?_, fun j hj => absurd hj (by simp [hrace])⟩
    · simp only [hfrom]
      exact List.rel_append h.sources
        (List.Forall₂.cons ⟨⟨i, h₁, hlt, hstored⟩, hval⟩ List.Forall₂.nil)
    · exact List.nodup_append'.mpr ⟨h.nodup, List.nodup_singleton held, by simpa using hnot⟩
    · intro j hj hmem
      rcases List.mem_append.mp hmem with hold | hlast
      · exact absurd hold (hfresh j hj)
      · -- the run submitted has stored once, so the slot that holds its mask is this one
        have hstored' : FineState.StoredAt _ (origin j) j := (h.slots j hj).1
        rw [show origin j = held from List.mem_singleton.mp hlast] at hstored'
        rw [hstored'.unique hstored]
        rfl
  · rw [if_neg hlt, List.append_nil] at hfrom
    simp only [if_neg hlt]
    refine ⟨hok, h.slots, ?_, h.nodup, fun j hj hmem => absurd hmem (hfresh j hj),
      fun j hj => absurd hj (by simp [hrace])⟩
    simp only [hfrom]
    exact h.sources

/-- **The update that clears a slot keeps the invariant**: the run that was submitted last is in no
slot any more. -/
lemma FineInv.clear (h : FineInv masks g) {i : ℕ} (hpc : g.fine.pc = .clear i)
    (hstep : fineTraceStep masks g .daemon = some g') : FineInv masks g' := by
  obtain ⟨⟨⟨d, pc, acc⟩, rec⟩, origin, held, sources⟩ := g
  obtain rfl : pc = .clear i := hpc
  obtain rfl := Option.some.inj hstep
  obtain ⟨h₁, hi, hval, hidx⟩ := h.pc_ok
  change d.value = 0#64 at hval
  change d.index = i at hidx
  have hrace : daemonStep ⟨d, .clear i, acc⟩ =
      ⟨{ d with map := d.map.set i 0#64 }, .next i, acc⟩ := by
    simp only [daemonStep, hidx, hval]
  obtain ⟨hok, hsubmit, -⟩ := @next_bounded i { d with map := d.map.set i 0#64 } hi hval
  simp only [hrace]
  refine ⟨hok, fun j hj => ?_, h.sources, h.nodup, fun j hj hmem => ?_,
    fun j hj => absurd hj (hsubmit j)⟩
  · obtain ⟨hocc, hslot, -⟩ := occupied_set_zero hj
    exact ⟨(h.slots j hocc).1, hslot.trans (h.slots j hocc).2⟩
  · obtain ⟨hocc, -, hne⟩ := occupied_set_zero hj
    exact absurd (DrainPc.clear.inj (h.fresh j hocc hmem)).symm hne

/-- The poll keeps the invariant. -/
lemma FineInv.poll (h : FineInv masks g) (hpc : g.fine.pc = .poll)
    (hstep : fineTraceStep masks g .daemon = some g') : FineInv masks g' := by
  obtain ⟨⟨⟨d, pc, acc⟩, rec⟩, origin, held, sources⟩ := g
  obtain rfl : pc = .poll := hpc
  obtain rfl := Option.some.inj hstep
  have hfresh : ∀ j, d.map.Occupied j → origin j ∉ sources := fun j hj hmem =>
    absurd (h.fresh j hj hmem) (by simp)
  have hpc' : (daemonStep ⟨d, .poll, acc⟩).pc = .scan maxCpu ∨
      (daemonStep ⟨d, .poll, acc⟩).pc = .poll := by
    simp only [daemonStep]
    split_ifs
    · exact Or.inl rfl
    · exact Or.inr rfl
  refine ⟨?_, h.slots, h.sources, h.nodup, fun j hj hmem => absurd hmem (hfresh j hj), ?_⟩
  · dsimp only
    rcases hpc' with hscan | hpoll
    · rw [hscan]
      exact ⟨by decide, le_rfl⟩
    · rw [hpoll]
      trivial
  · intro j hj
    rcases hpc' with hscan | hpoll
    · exact absurd (hscan.symm.trans hj) (by simp)
    · exact absurd (hpoll.symm.trans hj) (by simp)

/-- The reset of the counter keeps the invariant: no slot changes. -/
lemma FineInv.reset (h : FineInv masks g) (hpc : g.fine.pc = .reset)
    (hstep : fineTraceStep masks g .daemon = some g') : FineInv masks g' := by
  obtain ⟨⟨⟨d, pc, acc⟩, rec⟩, origin, held, sources⟩ := g
  obtain rfl : pc = .reset := hpc
  obtain rfl := Option.some.inj hstep
  have hval : d.value = 0#64 := h.pc_ok
  have hslot : ∀ {j}, CpuMap.Occupied (d.map.set 0 d.value) j →
      d.map.Occupied j ∧ (d.map.set 0 d.value).slot j = d.map.slot j := by
    intro j hj
    rw [hval] at hj ⊢
    obtain ⟨hocc, heq, -⟩ := occupied_set_zero hj
    exact ⟨hocc, heq⟩
  refine ⟨trivial, fun j hj => ?_, h.sources, h.nodup, fun j hj hmem => ?_,
    fun j hj => absurd hj (by simp [daemonStep])⟩
  · obtain ⟨hocc, heq⟩ := hslot hj
    exact ⟨(h.slots j hocc).1, heq.trans (h.slots j hocc).2⟩
  · exact absurd (h.fresh j (hslot hj).1 hmem) (by simp)

/-- **Every access keeps the invariant.** -/
lemma fineTraceStep_inv {a : FineAct} (h : FineInv masks g)
    (hstep : fineTraceStep masks g a = some g') : FineInv masks g' := by
  cases a with
  | recorder r => exact h.recorder hstep
  | daemon =>
    cases hpc : g.fine.pc with
    | poll => exact h.poll hpc hstep
    | scan i => exact h.scan hpc hstep
    | submit i => exact h.submit hpc hstep
    | clear i => exact h.clear hpc hstep
    | reset => exact h.reset hpc hstep

end Steps

/-- Only a submission of the daemon submits. -/
lemma fineStep_submitted {masks : ℕ → Mask} {s t : FineState} {a : FineAct}
    (hstep : fineStep masks s a = some t) :
    t.submitted = s.submitted ∧ (∀ i, a = .daemon → s.pc ≠ .submit i) ∨
      ∃ i, a = .daemon ∧ s.pc = .submit i ∧ t.submitted = s.submitted ++ [(i, s.value)] := by
  cases a with
  | recorder r =>
    obtain ⟨u, -, rfl⟩ := Option.map_eq_some_iff.mp hstep
    exact Or.inl ⟨rfl, by simp⟩
  | daemon =>
    obtain rfl := Option.some.inj hstep
    obtain ⟨⟨d, pc, acc⟩, rec⟩ := s
    cases pc with
    | submit i => exact Or.inr ⟨i, rfl, rfl, rfl⟩
    | poll | scan i | clear i | reset => exact Or.inl ⟨rfl, by simp⟩

/-- Every run can be followed with its history, and the daemon submits at no loop index past
`MAX_CPU`. -/
lemma exists_fineTrace {masks : ℕ → Mask} {acts : List FineAct} {s : FineState}
    (hrun : run (fineStep masks) FineState.start acts = some s) :
    ∃ g, g.fine = s ∧ FineInv masks g ∧ ∀ p ∈ s.submitted, p.1 ≤ maxCpu := by
  obtain ⟨g, hg, rfl⟩ := @run_lift _ _ _ (fineTraceStep masks) (fineStep masks) FineTrace.fine
    (fineTraceStep_fine masks) .start _ _ hrun
  refine ⟨g, rfl, invariant_of_run
    (I := fun g : FineTrace => FineInv masks g ∧ ∀ p ∈ g.fine.submitted, p.1 ≤ maxCpu)
    (fun g a g' h hstep => ⟨fineTraceStep_inv h.1 hstep, fun p hp => ?_⟩)
    ⟨fineInv_start masks, fun p hp => absurd hp List.not_mem_nil⟩ hg⟩
  have hfine : fineStep masks g.fine a = some g'.fine := by
    obtain ⟨t, ht, rfl⟩ := Option.map_eq_some_iff.mp hstep
    rw [ht]
    cases a <;> rfl
  rcases fineStep_submitted hfine with ⟨hsub, -⟩ | ⟨i, -, hpc, hsub⟩
  · rw [hsub] at hp
    exact h.2 p hp
  · rw [hsub] at hp
    rcases List.mem_append.mp hp with hp | hp
    · exact h.2 p hp
    · rw [List.mem_singleton.mp hp]
      have hok := h.1.pc_ok
      rw [hpc] at hok
      exact hok.2

/-- **No run of the probe is submitted twice, whatever the accesses interleave**: in every
interleaving of the single accesses of any number of runs of the probe and of the daemon from the
fresh map, the submissions made for the slots 1 to 63 come from different runs, each of which has
stored the mask submitted in a slot of the map. -/
theorem fine_submitted_once {masks : ℕ → Mask} {acts : List FineAct} {s : FineState}
    (hrun : run (fineStep masks) FineState.start acts = some s) :
    ∃ recorder : Fin s.fromSlots.length → ℕ, Function.Injective recorder ∧
      ∀ k, s.fromSlots.get k = masks (recorder k) ∧
        ∃ i, 1 ≤ i ∧ i < maxEntries ∧ s.StoredAt (recorder k) i := by
  obtain ⟨g, rfl, hinv, -⟩ := exists_fineTrace hrun
  have hlen := hinv.sources.length_eq
  refine ⟨fun k => g.sources[(k : ℕ)], ?_, fun k => ?_⟩
  · intro k k' heq
    apply Fin.ext
    exact (List.Nodup.getElem_inj_iff hinv.nodup).mp heq
  · have hget := hinv.sources.get (show (k : ℕ) < g.sources.length by omega) k.isLt
    exact ⟨hget.2, hget.1⟩

/-- Two runs of the probe that both choose slot 2, and the drain that follows. -/
def collideAndDrain : List FineAct :=
  bothIncrement.map .recorder ++ List.replicate 70 .daemon

/-- Of two runs that have stored into one slot, the second one is submitted. -/
theorem fine_submitted_once_two :
    ∃ s, run (fineStep twoMasks) FineState.start collideAndDrain = some s ∧
      s.fromSlots = [0xb2#64] ∧
      ∃ recorder : Fin s.fromSlots.length → ℕ, Function.Injective recorder ∧
        ∀ k, s.fromSlots.get k = twoMasks (recorder k) := by
  have hvals : (run (fineStep twoMasks) FineState.start collideAndDrain).map
      (fun s => s.fromSlots) = some [0xb2#64] := by decide +kernel
  obtain ⟨s, hrun, hs⟩ := Option.map_eq_some_iff.mp hvals
  obtain ⟨recorder, hinj, hall⟩ := fine_submitted_once hrun
  exact ⟨s, hrun, hs, recorder, hinj, fun k => (hall k).1⟩

/-! ## The host -/

/-- The accesses in the guest, and the host behind the device. -/
structure PinState where
  fine : FineState
  host : Host

section Pin

variable {env : HostEnv} (vs : VCPUs env) (sch : Scheduler) (masks : ℕ → Mask)

/-- One access in the guest; a submission of the daemon goes through the driver's `ioctl` to the
device before it returns. -/
def pinStep (s : PinState) (a : FineAct) : Option PinState :=
  (fineStep masks s.fine a).bind fun f =>
    match a, s.fine.pc with
    | .daemon, .submit _ =>
      (hostStep vs sch s.host (affinityRequest s.fine.value)).map fun h => ⟨f, h⟩
    | _, _ => some ⟨f, s.host⟩

variable {vs sch masks}

/-- A step of the system is an access in the guest. -/
lemma pinStep_fine {s t : PinState} {a : FineAct} (hstep : pinStep vs sch masks s a = some t) :
    fineStep masks s.fine a = some t.fine := by
  obtain ⟨f, hf, hrest⟩ := Option.bind_eq_some_iff.mp hstep
  rw [hf]
  split at hrest
  · obtain ⟨h, -, rfl⟩ := Option.map_eq_some_iff.mp hrest
    rfl
  · rw [← Option.some.inj hrest]

/-- **What a step does to the host**: it submits a value, which the host processes, or it submits
nothing and the host stays as it is. -/
lemma pinStep_host {s t : PinState} {a : FineAct} (hstep : pinStep vs sch masks s a = some t) :
    (t.fine.submitted = s.fine.submitted ∧ t.host = s.host) ∨
      ∃ i v, t.fine.submitted = s.fine.submitted ++ [(i, v)] ∧
        hostStep vs sch s.host (affinityRequest v) = some t.host := by
  obtain ⟨f, hf, hrest⟩ := Option.bind_eq_some_iff.mp hstep
  rcases fineStep_submitted hf with ⟨hsub, hnot⟩ | ⟨i, rfl, hpc, hsub⟩
  · split at hrest
    · rename_i i hpc
      exact absurd hpc (hnot i rfl)
    · obtain rfl := Option.some.inj hrest
      exact Or.inl ⟨hsub, rfl⟩
  · rw [hpc] at hrest
    obtain ⟨h, hh, rfl⟩ := Option.map_eq_some_iff.mp hrest
    exact Or.inr ⟨i, _, hsub, hh⟩

/-- **The host has processed what was submitted**, in every state of every interleaving. -/
lemma pin_process {h₀ : Host} {acts : List FineAct} {s : PinState}
    (hrun : run (pinStep vs sch masks) ⟨FineState.start, h₀⟩ acts = some s) :
    process vs sch h₀ (s.fine.submitted.map Prod.snd) = some s.host := by
  refine invariant_of_run
    (I := fun s : PinState => process vs sch h₀ (s.fine.submitted.map Prod.snd) = some s.host)
    (fun s a t hs hstep => ?_) rfl hrun
  rcases pinStep_host hstep with ⟨hsub, hhost⟩ | ⟨i, v, hsub, hhost⟩
  · rw [hsub, hhost]
    exact hs
  · rw [hsub, List.map_append, process, List.map_append]
    exact run_trans hs ((run_singleton _ _).trans hhost)

end Pin

/-- A value submitted is submitted from a slot or past the last one. -/
lemma mem_fromSlots_or {s : RaceState} {v : Mask} (h : v ∈ s.submitted.map Prod.snd) :
    v ∈ s.fromSlots ∨ ∃ i ≥ maxEntries, (i, v) ∈ s.submitted := by
  obtain ⟨⟨i, w⟩, hmem, rfl⟩ := List.mem_map.mp h
  rcases Nat.lt_or_ge i maxEntries with hlt | hge
  · refine Or.inl (List.mem_map.mpr ⟨(i, w), List.mem_filter.mpr ⟨hmem, ?_⟩, rfl⟩)
    exact decide_eq_true hlt
  · exact Or.inr ⟨i, hge, hmem⟩

/-- **Where the affinity of a vCPU comes from.** In every state of every interleaving of the probes'
and the daemon's single accesses, each vCPU has the affinity it had at the start, or the online part
of the lower half of a mask that addresses it and that `sched_setaffinity` has accepted; and this
mask was stored in a slot by some run of the probe, or was submitted at the loop index `MAX_CPU`,
which is no slot and where the daemon submits what its variable holds.

**Proof sketch.** The affinity of a vCPU is that of the last submitted mask that rebinds it. This
mask was submitted at the loop index `MAX_CPU`, or it is among the masks that come from slots, and
the invariant names for each of these the run that stored it. -/
theorem pin_sound {env : HostEnv} (vs : VCPUs env) (sch : Scheduler) {masks : ℕ → Mask} {h₀ : Host}
    {acts : List FineAct} {s : PinState}
    (hrun : run (pinStep vs sch masks) ⟨FineState.start, h₀⟩ acts = some s) :
    ∀ i < env.nVCPU, s.host.affinity (vs.threadId i) = h₀.affinity (vs.threadId i) ∨
      ∃ v, rebound vs sch i v = some (s.host.affinity (vs.threadId i)) ∧
        ((∃ r j, 1 ≤ j ∧ j < maxEntries ∧ s.fine.StoredAt r j ∧ masks r = v) ∨
          (maxCpu, v) ∈ s.fine.submitted) := by
  intro i hi
  obtain ⟨t, ht, hspec⟩ := @process_spec env vs sch h₀ (s.fine.submitted.map Prod.snd)
  obtain rfl := Option.some.inj (ht.symm.trans (pin_process hrun))
  have hfine : run (fineStep masks) FineState.start acts = some s.fine := by
    have himage := @run_image _ _ _ _ (pinStep vs sch masks) (fineStep masks) PinState.fine id
      (fun _ _ _ hstep => pinStep_fine hstep) _ _ _ hrun
    rwa [List.map_id] at himage
  obtain ⟨g, hg, hinv, hle⟩ := exists_fineTrace hfine
  rw [hspec i hi]
  rcases hlast : ((s.fine.submitted.map Prod.snd).filterMap (rebound vs sch i)).getLast? with _ | x
  · exact Or.inl rfl
  · obtain ⟨v, hv, hx⟩ := List.mem_filterMap.mp (List.mem_of_getLast? hlast)
    refine Or.inr ⟨v, hx, ?_⟩
    rcases mem_fromSlots_or hv with hslot | ⟨j, hj, hmem⟩
    · left
      rw [← hg] at hslot ⊢
      obtain ⟨k, hk, rfl⟩ := List.getElem_of_mem hslot
      have hlen := hinv.sources.length_eq
      obtain ⟨⟨j, h₁, hlt, hstored⟩, hval⟩ := hinv.sources.get (show k < _ by omega) hk
      exact ⟨_, j, h₁, hlt, hstored, hval.symm⟩
    · right
      obtain rfl : j = maxCpu := le_antisymm (hle _ hmem) hj
      exact hmem

/-- Two runs of the probe that both choose slot 2, and the drain that follows, with two vCPUs. -/
theorem pin_sound_two :
    ∃ s, run (pinStep twoVCPUs fourCPUs fun r => if r = 0 then 1#64 else 3#64)
        ⟨FineState.start, unboundHost⟩ collideAndDrain = some s ∧
      s.host.affinity 101 = {0, 1} ∧
      ∀ i : ℕ, i < 2 → s.host.affinity (100 + i) = {0, 1, 2, 3} ∨
        ∃ v, rebound twoVCPUs fourCPUs i v = some (s.host.affinity (100 + i)) ∧
          ((∃ r j, 1 ≤ j ∧ j < maxEntries ∧ s.fine.StoredAt r j ∧
            (if r = 0 then 1#64 else 3#64) = v) ∨ (maxCpu, v) ∈ s.fine.submitted) := by
  have hvals : (run (pinStep twoVCPUs fourCPUs fun r => if r = 0 then 1#64 else 3#64)
      ⟨FineState.start, unboundHost⟩ collideAndDrain).map (fun s => s.host.affinity 101) =
        some {0, 1} := by decide +kernel
  obtain ⟨s, hrun, hs⟩ := Option.map_eq_some_iff.mp hvals
  exact ⟨s, hrun, hs, pin_sound twoVCPUs fourCPUs hrun⟩

end Huc
