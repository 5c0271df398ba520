import Huc.Affinity.Race

set_option relaxedAutoImplicit false
set_option autoImplicit false

/-!
# No mask is submitted twice

Reading a slot, submitting what was read and clearing the slot are three steps, and the probe may
write to the slot between any two of them. A mask may be lost that way, but none is submitted twice:
what a slot holds after it has been cleared was recorded later.

The argument names the push behind every mask. The run is followed together with variables that
record, for every slot, which accepted push has written it last, and for every submission, which
push the submitted mask came from. A push that was submitted is in a slot only between the
submission and the update that clears this slot.

## Main definitions

* `Huc.TracedState`, `Huc.tracedStep` — the two programs with the history of every mask.
* `Huc.TracedInv` — the invariant.

## Main results

* `Huc.tracedStep_inv` — every access keeps the invariant.
* `Huc.submitted_once` — the submissions from the slots come from different pushes.
-/

namespace Huc

open Transition

/-! ## History variables -/

/-- The state of the two programs; for every slot the number of the accepted push that has written
it last; the push that the daemon's variable `value` came from; and the pushes that the submissions
from the slots came from. -/
structure TracedState where
  race : RaceState
  origin : ℕ → ℕ
  held : ℕ
  sources : List ℕ

/-- Before the first poll of a fresh map. -/
def TracedState.start : TracedState := ⟨RaceState.start, fun _ => 0, 0, []⟩

/-- A run of the probe, or the daemon's next access, with the history it makes. -/
def tracedStep (g : TracedState) : RaceAct → Option TracedState
  | .record mask =>
    some
      { g with
        race := recordStep g.race mask
        origin := if g.race.map.top < 63 then
          Function.update g.origin (g.race.map.top + 1) g.race.accepted.length else g.origin }
  | .daemon =>
    some
      { g with
        race := daemonStep g.race
        held := match g.race.pc with
          | .scan i => g.origin i
          | _ => g.held
        sources := match g.race.pc with
          | .submit i => if i < maxEntries then g.sources ++ [g.held] else g.sources
          | _ => g.sources }

/-- The history does not influence the programs. -/
lemma tracedStep_race (g : TracedState) (a : RaceAct) (t : RaceState)
    (h : raceStep g.race a = some t) : ∃ g', tracedStep g a = some g' ∧ g'.race = t := by
  cases a with
  | record mask => exact ⟨_, rfl, Option.some.inj h⟩
  | daemon => exact ⟨_, rfl, Option.some.inj h⟩

/-- The sources of submissions are only added to. -/
lemma sources_grow (g : TracedState) (a : RaceAct) (g' : TracedState)
    (h : tracedStep g a = some g') : g.sources <+: g'.sources := by
  cases a with
  | record mask =>
    obtain rfl := Option.some.inj h
    exact List.prefix_rfl
  | daemon =>
    obtain rfl := Option.some.inj h
    dsimp only
    cases g.race.pc with
    | submit i =>
      dsimp only
      split_ifs
      · exact List.prefix_append _ _
      · exact List.prefix_rfl
    | _ => exact List.prefix_rfl

/-! ## The invariant -/

/-- Slot `i` holds a mask. -/
def CpuMap.Occupied (m : CpuMap) (i : ℕ) : Prop := 1 ≤ i ∧ i < maxEntries ∧ m.slot i ≠ 0#64

/-- What the daemon's variables hold at each of its accesses, whatever the probe does. -/
def DrainPc.Bounded (pc : DrainPc) (d : Drain) : Prop :=
  match pc with
  | .poll => True
  | .scan i => 1 ≤ i ∧ i ≤ maxCpu
  | .submit i => 1 ≤ i ∧ i ≤ maxCpu
  | .clear i => 1 ≤ i ∧ i ≤ maxCpu ∧ d.value = 0#64 ∧ d.index = i
  | .reset => d.value = 0#64

/-- **The invariant.** The masks in the slots and the submitted masks are those of their pushes, all
these pushes are different, and only a slot about to be cleared may hold a push that was
submitted. -/
structure TracedInv (g : TracedState) : Prop where
  top_le : g.race.map.top ≤ 63
  pc_ok : g.race.pc.Bounded g.race.toDrain
  slots : ∀ i, g.race.map.Occupied i → g.race.accepted[g.origin i]? = some (g.race.map.slot i)
  distinct : ∀ i j, g.race.map.Occupied i → g.race.map.Occupied j → g.origin i = g.origin j → i = j
  sources : List.Forall₂ (fun n v => g.race.accepted[n]? = some v) g.sources g.race.fromSlots
  nodup : g.sources.Nodup
  fresh : ∀ i, g.race.map.Occupied i → g.origin i ∈ g.sources → g.race.pc = .clear i
  held : ∀ i, g.race.pc = .submit i → i < maxEntries →
    g.race.accepted[g.held]? = some g.race.value ∧ g.held ∉ g.sources ∧
      ∀ j, g.race.map.Occupied j → g.origin j = g.held → j = i

/-- Nothing is stored or submitted at the start. -/
lemma tracedInv_start : TracedInv TracedState.start where
  top_le := by decide
  pc_ok := trivial
  slots i h := absurd (ArrayMap.slot_const 0#64 h.2.1) h.2.2
  distinct i _ h _ _ := absurd (ArrayMap.slot_const 0#64 h.2.1) h.2.2
  sources := List.Forall₂.nil
  nodup := List.nodup_nil
  fresh i _ h := absurd h List.not_mem_nil
  held i h _ := absurd h (by simp [TracedState.start, RaceState.start])

section Steps

variable {g : TracedState}

/-- The sources of submissions are accepted pushes. -/
lemma TracedInv.lt_of_mem_sources (h : TracedInv g) {n : ℕ} (hn : n ∈ g.sources) :
    n < g.race.accepted.length := by
  obtain ⟨k, hk, rfl⟩ := List.getElem_of_mem hn
  have hlen := h.sources.length_eq
  have hget := h.sources.get hk (by omega)
  exact (List.getElem?_eq_some_iff.mp hget).1

/-- The masks in the slots were accepted. -/
lemma TracedInv.origin_lt (h : TracedInv g) {i : ℕ} (hi : g.race.map.Occupied i) :
    g.origin i < g.race.accepted.length :=
  (List.getElem?_eq_some_iff.mp (h.slots i hi)).1

/-- After a push, a slot that holds a mask is the one written or held the same mask before. -/
lemma occupied_bpfProg1 {m : CpuMap} {mask : Mask} (htop : m.top < 63) {i : ℕ}
    (h : (bpfProg1 m mask).Occupied i) :
    i = m.top + 1 ∨ i ≠ m.top + 1 ∧ m.Occupied i ∧ (bpfProg1 m mask).slot i = m.slot i := by
  obtain ⟨h₁, hlt, hne⟩ := h
  by_cases hi : i = m.top + 1
  · exact Or.inl hi
  · have hslot : (bpfProg1 m mask).slot i = m.slot i := by
      rw [slot_bpfProg1 m mask htop, if_neg hi, if_neg (by omega)]
    exact Or.inr ⟨hi, ⟨h₁, hlt, hslot ▸ hne⟩, hslot⟩

/-- **A push keeps the invariant**: its number is new.

**Proof sketch.** The slot written gets the number of the push, which is greater than all numbers
in use; the other slots keep theirs. -/
lemma TracedInv.record (h : TracedInv g) (mask : Mask) {g' : TracedState}
    (hstep : tracedStep g (.record mask) = some g') : TracedInv g' := by
  obtain rfl := Option.some.inj hstep
  rcases Nat.lt_or_ge g.race.map.top 63 with htop | hge
  · have hrace : recordStep g.race mask =
        { g.race with
          map := bpfProg1 g.race.map mask
          accepted := g.race.accepted ++ [mask] } := by
      simp only [recordStep, if_pos htop]
    simp only [hrace, if_pos htop]
    have hget : ∀ {n : ℕ} {v : Mask}, g.race.accepted[n]? = some v →
        (g.race.accepted ++ [mask])[n]? = some v := by
      intro n v hn
      rw [List.getElem?_append_left (List.getElem?_eq_some_iff.mp hn).1]
      exact hn
    refine ⟨by rw [top_bpfProg1 _ _ htop]; omega, ?_, ?_, ?_, ?_, h.nodup, ?_, ?_⟩
    · have hpc := h.pc_ok
      unfold DrainPc.Bounded at hpc ⊢
      exact hpc
    · intro i hi
      rcases occupied_bpfProg1 htop hi with rfl | ⟨hne, hocc, hslot⟩
      · simp only [Function.update_self, slot_bpfProg1 _ _ htop, if_true]
        rw [List.getElem?_append_right le_rfl, Nat.sub_self]
        rfl
      · simp only [Function.update_of_ne hne, hslot]
        exact hget (h.slots i hocc)
    · intro i j hi hj heq
      rcases occupied_bpfProg1 htop hi with rfl | ⟨hne, hocc, -⟩
      · rcases occupied_bpfProg1 htop hj with rfl | ⟨hne', hocc', -⟩
        · rfl
        · have hlt := h.origin_lt hocc'
          simp only [Function.update_self, Function.update_of_ne hne'] at heq
          omega
      · have hlt := h.origin_lt hocc
        rcases occupied_bpfProg1 htop hj with rfl | ⟨hne', hocc', -⟩
        · simp only [Function.update_self, Function.update_of_ne hne] at heq
          omega
        · simp only [Function.update_of_ne hne, Function.update_of_ne hne'] at heq
          exact h.distinct i j hocc hocc' heq
    · exact h.sources.imp fun _ _ hn => hget hn
    · intro i hi hmem
      rcases occupied_bpfProg1 htop hi with rfl | ⟨hne, hocc, -⟩
      · simp only [Function.update_self] at hmem
        exact absurd (h.lt_of_mem_sources hmem) (lt_irrefl _)
      · simp only [Function.update_of_ne hne] at hmem
        exact h.fresh i hocc hmem
    · intro i hpc hlt
      obtain ⟨hval, hnot, huniq⟩ := h.held i hpc hlt
      refine ⟨hget hval, hnot, ?_⟩
      intro j hj heq
      rcases occupied_bpfProg1 htop hj with rfl | ⟨hne, hocc, -⟩
      · have hlt' := (List.getElem?_eq_some_iff.mp hval).1
        simp only [Function.update_self] at heq
        omega
      · simp only [Function.update_of_ne hne] at heq
        exact huniq j hocc heq
  · have hfull : g.race.map.top = 63 := le_antisymm h.top_le hge
    have hrace : recordStep g.race mask = g.race := by
      simp only [recordStep, bpfProg1_of_top_eq _ mask hfull, hfull, lt_self_iff_false, if_false]
    simp only [hrace, if_neg (not_lt.mpr hge)]
    exact h

/-- The masks in use stay in use and no others come into use when a slot is cleared. -/
lemma occupied_set_zero {m : CpuMap} {i j : ℕ} (h : CpuMap.Occupied (m.set i 0#64) j) :
    m.Occupied j ∧ (m.set i 0#64).slot j = m.slot j ∧ j ≠ i := by
  obtain ⟨h₁, hlt, hne⟩ := h
  have hji : j ≠ i := by
    rintro rfl
    exact hne (ArrayMap.slot_set_self m 0#64 hlt)
  have hslot := ArrayMap.slot_set_of_ne m 0#64 hji
  exact ⟨⟨h₁, hlt, hslot ▸ hne⟩, hslot, hji⟩

/-- After an iteration without a mask the daemon is at the next one, or at the reset. -/
lemma next_bounded {i : ℕ} {d : Drain} (hi : i ≤ maxCpu) (hval : d.value = 0#64) :
    (DrainPc.next i).Bounded d ∧ (∀ j, DrainPc.next i ≠ .submit j) ∧
      ∀ j, DrainPc.next i ≠ .clear j := by
  unfold DrainPc.next
  split_ifs with h
  · exact ⟨hval, by simp, by simp⟩
  · exact ⟨⟨by omega, by omega⟩, by simp, by simp⟩

/-- **A lookup keeps the invariant**: the mask found comes from the push that has written the slot,
which was not submitted yet.

**Proof sketch.** As for the single accesses: the slot is empty and a zero goes on, or it is not
empty and its push, which no other slot holds, was not submitted yet. -/
lemma TracedInv.scan (h : TracedInv g) {i : ℕ} (hpc : g.race.pc = .scan i) {g' : TracedState}
    (hstep : tracedStep g .daemon = some g') : TracedInv g' := by
  obtain ⟨⟨d, pc, acc⟩, origin, held, sources⟩ := g
  obtain rfl : pc = .scan i := hpc
  obtain rfl := Option.some.inj hstep
  obtain ⟨h₁, hi⟩ := h.pc_ok
  have hfresh : ∀ j, d.map.Occupied j → origin j ∉ sources := fun j hj hmem =>
    absurd (h.fresh j hj hmem) (by simp)
  by_cases h0 : lookupElem d.map i d.value = 0#64
  · have hrace : daemonStep ⟨d, .scan i, acc⟩ = ⟨{ d with value := 0#64 }, .next i, acc⟩ := by
      simp [daemonStep, h0]
    obtain ⟨hok, hsubmit, -⟩ := @next_bounded i { d with value := 0#64 } hi rfl
    simp only [hrace]
    exact ⟨h.top_le, hok, h.slots, h.distinct, h.sources, h.nodup,
      fun j hj hmem => absurd hmem (hfresh j hj), fun j hj => absurd hj (hsubmit j)⟩
  · have hrace : daemonStep ⟨d, .scan i, acc⟩ =
        ⟨{ d with value := lookupElem d.map i d.value }, .submit i, acc⟩ := by
      simp [daemonStep, h0]
    simp only [hrace]
    refine ⟨h.top_le, ⟨h₁, hi⟩, h.slots, h.distinct, h.sources, h.nodup,
      fun j hj hmem => absurd hmem (hfresh j hj), ?_⟩
    intro j hj hlt
    obtain rfl : i = j := DrainPc.submit.inj hj
    have hocc : d.map.Occupied i := ⟨h₁, hlt, lookupElem_of_lt d.map d.value hlt ▸ h0⟩
    refine ⟨?_, hfresh i hocc, fun k hk heq => h.distinct k i hk hocc heq⟩
    show acc[origin i]? = some (lookupElem d.map i d.value)
    rw [lookupElem_of_lt d.map d.value hlt]
    exact h.slots i hocc

/-- **A submission keeps the invariant**: its push becomes one that was submitted, and can only be
in the slot that is cleared next.

**Proof sketch.** At an index in the table the push in hand was not submitted, and is added to the
submitted ones; it is in no slot but the one just read. At the index `MAX_CPU` nothing from a slot
is submitted. -/
lemma TracedInv.submit (h : TracedInv g) {i : ℕ} (hpc : g.race.pc = .submit i) {g' : TracedState}
    (hstep : tracedStep g .daemon = some g') : TracedInv g' := by
  obtain ⟨⟨d, pc, acc⟩, origin, held, sources⟩ := g
  obtain rfl : pc = .submit i := hpc
  obtain rfl := Option.some.inj hstep
  obtain ⟨h₁, hi⟩ := h.pc_ok
  have hrace : daemonStep ⟨d, .submit i, acc⟩ =
      ⟨⟨d.map, 0#64, i, d.submitted ++ [(i, d.value)]⟩, .clear i, acc⟩ := rfl
  have hfrom : RaceState.fromSlots (daemonStep ⟨d, .submit i, acc⟩) =
      RaceState.fromSlots ⟨d, .submit i, acc⟩ ++ if i < maxEntries then [d.value] else [] :=
    fromSlots_submit d _ acc i d.value
  have hfresh : ∀ j, d.map.Occupied j → origin j ∉ sources := fun j hj hmem =>
    absurd (h.fresh j hj hmem) (by simp)
  have hok : (DrainPc.clear i).Bounded ⟨d.map, 0#64, i, d.submitted ++ [(i, d.value)]⟩ :=
    ⟨h₁, hi, rfl, rfl⟩
  by_cases hlt : i < maxEntries
  · obtain ⟨hval, hnot, huniq⟩ := h.held i rfl hlt
    rw [if_pos hlt] at hfrom
    simp only [if_pos hlt]
    refine ⟨h.top_le, hok, h.slots, h.distinct, ?_, ?_, ?_, fun j hj => absurd hj (by simp [hrace])⟩
    · simp only [hfrom]
      exact List.rel_append h.sources (List.Forall₂.cons hval List.Forall₂.nil)
    · exact List.nodup_append'.mpr ⟨h.nodup, List.nodup_singleton held, by simpa using hnot⟩
    · intro j hj hmem
      rcases List.mem_append.mp hmem with hold | hlast
      · exact absurd hold (hfresh j hj)
      · rw [huniq j hj (List.mem_singleton.mp hlast)]
        rfl
  · rw [if_neg hlt, List.append_nil] at hfrom
    simp only [if_neg hlt]
    refine ⟨h.top_le, hok, h.slots, h.distinct, ?_, h.nodup,
      fun j hj hmem => absurd hmem (hfresh j hj), fun j hj => absurd hj (by simp [hrace])⟩
    simp only [hfrom]
    exact h.sources

/-- **The update that clears a slot keeps the invariant**: the push that was submitted last is in no
slot any more.

**Proof sketch.** The variables hold a zero and the index of the slot just read, so that this slot
is emptied. What is left in the others was there before, and a push that was submitted was in the
emptied slot only. -/
lemma TracedInv.clear (h : TracedInv g) {i : ℕ} (hpc : g.race.pc = .clear i) {g' : TracedState}
    (hstep : tracedStep g .daemon = some g') : TracedInv g' := by
  obtain ⟨⟨d, pc, acc⟩, origin, held, sources⟩ := g
  obtain rfl : pc = .clear i := hpc
  obtain rfl := Option.some.inj hstep
  obtain ⟨h₁, hi, hval, hidx⟩ := h.pc_ok
  change d.value = 0#64 at hval
  change d.index = i at hidx
  have hrace : daemonStep ⟨d, .clear i, acc⟩ =
      ⟨{ d with map := d.map.set i 0#64 }, .next i, acc⟩ := by
    simp only [daemonStep, hidx, hval]
  obtain ⟨hok, hsubmit, -⟩ := @next_bounded i { d with map := d.map.set i 0#64 } hi hval
  simp only [hrace]
  refine ⟨?_, hok, ?_, ?_, h.sources, h.nodup, ?_, fun j hj => absurd hj (hsubmit j)⟩
  · show CpuMap.top (d.map.set i 0#64) ≤ 63
    rw [CpuMap.top, ArrayMap.slot_set_of_ne _ _ (by omega)]
    exact h.top_le
  · intro j hj
    obtain ⟨hocc, hslot, -⟩ := occupied_set_zero hj
    show acc[origin j]? = some ((d.map.set i 0#64).slot j)
    rw [hslot]
    exact h.slots j hocc
  · intro j k hj hk heq
    exact h.distinct j k (occupied_set_zero hj).1 (occupied_set_zero hk).1 heq
  · intro j hj hmem
    obtain ⟨hocc, -, hne⟩ := occupied_set_zero hj
    exact absurd (DrainPc.clear.inj (h.fresh j hocc hmem)).symm hne

/-- **Every access of the daemon keeps the invariant.**

**Proof sketch.** The accesses to the slots are the lemmas before. A poll changes no slot, and
begins a scan or not; the reset of the counter writes a zero to slot 0, which is no slot of a
mask. -/
lemma TracedInv.daemon (h : TracedInv g) {g' : TracedState}
    (hstep : tracedStep g .daemon = some g') : TracedInv g' := by
  cases hpc : g.race.pc with
  | scan i => exact h.scan hpc hstep
  | submit i => exact h.submit hpc hstep
  | clear i => exact h.clear hpc hstep
  | poll =>
    obtain ⟨⟨d, pc, acc⟩, origin, held, sources⟩ := g
    obtain rfl : pc = .poll := hpc
    obtain rfl := Option.some.inj hstep
    have hfresh : ∀ j, d.map.Occupied j → origin j ∉ sources := fun j hj hmem =>
      absurd (h.fresh j hj hmem) (by simp)
    have hpc' : (daemonStep ⟨d, .poll, acc⟩).pc = .scan maxCpu ∨
        (daemonStep ⟨d, .poll, acc⟩).pc = .poll := by
      simp only [daemonStep]
      split_ifs
      · exact Or.inl rfl
      · exact Or.inr rfl
    refine ⟨h.top_le, ?_, h.slots, h.distinct, h.sources, h.nodup,
      fun j hj hmem => absurd hmem (hfresh j hj), ?_⟩
    · dsimp only
      rcases hpc' with hscan | hpoll
      · rw [hscan]
        exact ⟨by decide, le_rfl⟩
      · rw [hpoll]
        trivial
    · intro j hj
      rcases hpc' with hscan | hpoll
      · exact absurd (hscan.symm.trans hj) (by simp)
      · exact absurd (hpoll.symm.trans hj) (by simp)
  | reset =>
    obtain ⟨⟨d, pc, acc⟩, origin, held, sources⟩ := g
    obtain rfl : pc = .reset := hpc
    obtain rfl := Option.some.inj hstep
    have hval : d.value = 0#64 := h.pc_ok
    have hslot : ∀ {j}, CpuMap.Occupied (d.map.set 0 d.value) j →
        d.map.Occupied j ∧ (d.map.set 0 d.value).slot j = d.map.slot j := by
      intro j hj
      rw [hval] at hj ⊢
      obtain ⟨hocc, heq, -⟩ := occupied_set_zero hj
      exact ⟨hocc, heq⟩
    refine ⟨?_, trivial, ?_, ?_, h.sources, h.nodup, ?_, fun j hj =>
      absurd hj (by simp [daemonStep])⟩
    · show CpuMap.top (d.map.set 0 d.value) ≤ 63
      rw [CpuMap.top, hval, ArrayMap.slot_set_self _ _ (by decide : 0 < maxEntries)]
      decide
    · intro j hj
      obtain ⟨hocc, heq⟩ := hslot hj
      show acc[origin j]? = some ((d.map.set 0 d.value).slot j)
      rw [heq]
      exact h.slots j hocc
    · intro j k hj hk heq
      exact h.distinct j k (hslot hj).1 (hslot hk).1 heq
    · intro j hj hmem
      exact absurd (h.fresh j (hslot hj).1 hmem) (by simp)

/-- **Every step keeps the invariant.** -/
lemma tracedStep_inv {g' : TracedState} {a : RaceAct} (h : TracedInv g)
    (hstep : tracedStep g a = some g') : TracedInv g' := by
  cases a with
  | record mask => exact h.record mask hstep
  | daemon => exact h.daemon hstep

end Steps

/-! ## Submissions and pushes -/

/-- **No mask is submitted twice**: in every interleaving from the fresh map, the submissions made
for the slots 1 to 63 come from different accepted pushes, each of the mask submitted; and whenever
a submission has been made, its push had been accepted.

**Proof sketch.** Follow the run with the history variables. The pushes they name for the
submissions are different by the invariant; those named at an earlier time are the first of them,
and were accepted by then. -/
theorem submitted_once {acts : List RaceAct} {s : RaceState}
    (hrun : run raceStep RaceState.start acts = some s) :
    ∃ push : Fin s.fromSlots.length → Fin s.accepted.length, Function.Injective push ∧
      (∀ k, s.accepted.get (push k) = s.fromSlots.get k) ∧
      ∀ before t, before <+: acts → run raceStep RaceState.start before = some t →
        ∀ k : Fin s.fromSlots.length, (k : ℕ) < t.fromSlots.length →
          (push k : ℕ) < t.accepted.length := by
  have htraced : ∀ {before t}, run raceStep RaceState.start before = some t →
      ∃ g, run tracedStep TracedState.start before = some g ∧ g.race = t ∧ TracedInv g := by
    intro before t h
    obtain ⟨g, hg, hrace⟩ :=
      @run_lift _ _ _ tracedStep raceStep TracedState.race tracedStep_race .start _ _ h
    exact ⟨g, hg, hrace, invariant_of_run (fun _ _ _ => tracedStep_inv) tracedInv_start hg⟩
  obtain ⟨g, hg, rfl, hinv⟩ := htraced hrun
  have hlen := hinv.sources.length_eq
  have hget : ∀ k (hk : k < g.race.fromSlots.length),
      ∃ hlt : g.sources[k] < g.race.accepted.length,
        g.race.accepted[g.sources[k]] = g.race.fromSlots[k] := fun k hk =>
    List.getElem?_eq_some_iff.mp (hinv.sources.get (by omega) hk)
  refine ⟨fun k => ⟨g.sources[(k : ℕ)], (hget k k.isLt).1⟩, ?_, ?_, ?_⟩
  · intro k k' heq
    apply Fin.ext
    exact (List.Nodup.getElem_inj_iff hinv.nodup).mp (congrArg Fin.val heq)
  · intro k
    exact (hget k k.isLt).2
  · intro before t hbefore ht k hk
    obtain ⟨g₀, hg₀, rfl, hinv₀⟩ := htraced ht
    obtain ⟨after, rfl⟩ := hbefore
    obtain ⟨g₁, hg₁, hrest⟩ := run_append.mp hg
    obtain rfl : g₀ = g₁ := Option.some.inj (hg₀.symm.trans hg₁)
    have hpre : g₀.sources <+: g.sources := @invariant_of_run _ _ _
      (fun g' => g₀.sources <+: g'.sources)
      (fun _ _ _ hpre hstep => hpre.trans (sources_grow _ _ _ hstep)) _ _ _ List.prefix_rfl hrest
    have hlen₀ := hinv₀.sources.length_eq
    have hk₀ : (k : ℕ) < g₀.sources.length := by omega
    show g.sources[(k : ℕ)] < g₀.race.accepted.length
    rw [← hpre.getElem hk₀]
    exact hinv₀.lt_of_mem_sources (List.getElem_mem hk₀)

/-- Two pushes of one mask, and the drain that submits both. -/
def twoPushes : List RaceAct :=
  .record 6#64 :: .record 6#64 :: List.replicate 70 .daemon

/-- The two submissions of the same mask come from the two pushes of it. -/
theorem submitted_once_two :
    ∃ s, run raceStep RaceState.start twoPushes = some s ∧ s.fromSlots = [6#64, 6#64] ∧
      ∃ push : Fin s.fromSlots.length → Fin s.accepted.length, Function.Injective push := by
  have hrun : run raceStep RaceState.start twoPushes =
      some ((run raceStep RaceState.start twoPushes).get (by decide +kernel)) :=
    (Option.some_get _).symm
  obtain ⟨push, hinj, -⟩ := submitted_once hrun
  exact ⟨_, hrun, by decide +kernel, push, hinj⟩

end Huc
