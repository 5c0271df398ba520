import Huc.Spscq.SlotMap

set_option relaxedAutoImplicit false
set_option autoImplicit false

/-!
# Which slot maps the queue needs

The queue is a FIFO if its slot map is injective. Here the converse: if two positions of a queue of
at least four slots have the same slot, calls that do not even overlap make `lq_read` return a value
out of order. With two slots the queue never holds more than one value, and every map will do.

For the slot map that `main` sets up this gives exactly the lengths at which the queue works.

## Main definitions

* `Huc.Quiet` — no call is in progress.
* `Huc.QueueCall`, `Huc.callAccesses` — whole calls, one after the other.
* `Huc.IsFifo` — the values taken are the first ones written, in every run.

## Main results

* `Huc.run_writeCall`, `Huc.run_readCall` — what a whole call does.
* `Huc.outOfOrder_of_eq` — two positions with the same slot.
* `Huc.isFifo_of_injOn`, `Huc.outOfOrder_of_not_injOn` — the slot maps that the queue needs.
* `Huc.isFifo_qslotmap_iff` — the lengths at which the queue of `main` is a FIFO.
-/

namespace Huc

open Transition

/-- The values taken are the first ones written, in every run on a queue of zeroed memory. -/
def IsFifo (map : ℕ → ℕ) (blq : Blq) : Prop :=
  ∀ as t, run (queueStep map) (QueueState.start blq) as = some t → t.taken <+: t.written

/-- A call of one side. -/
inductive QueueCall
  | lqWrite (m : Ptr)
  | lqRead

/-- The accesses of a call that finds room, or a value. -/
def QueueCall.accesses : QueueCall → List QueueAct
  | .lqWrite m => [.lqWrite m, .producer, .producer, .producer]
  | .lqRead => [.consumer, .consumer, .consumer, .consumer]

/-- The accesses of such calls one after the other. -/
def callAccesses (calls : List QueueCall) : List QueueAct := calls.flatMap QueueCall.accesses

/-- Whole calls, none of which overlaps another, already take a value out of order. -/
def OutOfOrder (map : ℕ → ℕ) (blq : Blq) : Prop :=
  ∃ calls t, run (queueStep map) (QueueState.start blq) (callAccesses calls) = some t ∧
    ¬t.taken <+: t.written

/-- Such a queue is no FIFO. -/
lemma OutOfOrder.not_isFifo {map : ℕ → ℕ} {blq : Blq} (h : OutOfOrder map blq) :
    ¬IsFifo map blq := by
  obtain ⟨calls, t, hrun, hnot⟩ := h
  exact fun hfifo => hnot (hfifo _ t hrun)

/-- Neither side is inside a call, `c` values have been written and `r` taken. -/
structure Quiet (n c r : ℕ) (s : QueueState) : Prop where
  writer : s.writer = .idle
  reader : s.reader = .loadRead
  mask : s.blq.qmask.toNat = n - 1
  write_eq : s.blq.write.toNat = c % n
  read_eq : s.blq.read.toNat = r % n

/-! ## Whole calls -/

section Calls

variable {n k c r : ℕ} {map : ℕ → ℕ} {s : QueueState} {m : Ptr}

/-- **A call of `lq_write`** with room for the value: it is stored in the slot of the next position.

**Proof sketch.** The four accesses in turn. -/
lemma run_writeCall (hn : n = 2 ^ k) (hlt : n < 2 ^ 32) (h : Quiet n c r s) (hle : r ≤ c)
    (hroom : c + 1 < r + n) (hm : m ≠ 0#64) :
    ∃ t, run (queueStep map) s (QueueCall.lqWrite m).accesses = some t ∧ Quiet n (c + 1) r t ∧
      t.written = s.written ++ [m] ∧ t.readReturns = s.readReturns ∧
      t.blq.q = Function.update s.blq.q (map (c % n)) m := by
  have hnext := toNat_succ_and_mask hn hlt h.mask h.write_eq
  have hne : (s.blq.write + 1#32) &&& s.blq.qmask ≠ s.blq.read := by
    intro heq
    rw [heq, h.read_eq] at hnext
    have := eq_of_mod_eq (show r ≤ c + 1 by omega) (by omega) hnext
    omega
  have hstart : queueStep map s (.lqWrite m) =
      some { s with writer := .loadRead m s.blq.write } := by
    simp only [queueStep, startWrite, h.writer, if_pos hm]
  refine ⟨_, run_cons.mpr ⟨_, hstart, run_cons.mpr ⟨_, if_neg hne, rfl⟩⟩, ?_, rfl, rfl, ?_⟩
  · exact ⟨rfl, h.reader, h.mask, hnext, h.read_eq⟩
  · rw [← h.write_eq]

/-- **A call of `lq_read`** on a queue that is not empty: it returns what is in the slot of the
first position. -/
lemma run_readCall (hn : n = 2 ^ k) (hlt : n < 2 ^ 32) (h : Quiet n c r s) (hlt' : r < c)
    (hle : c < r + n) :
    ∃ t, run (queueStep map) s QueueCall.lqRead.accesses = some t ∧ Quiet n c (r + 1) t ∧
      t.written = s.written ∧ t.readReturns = s.readReturns ++ [s.blq.q (map (r % n))] ∧
      t.blq.q = s.blq.q := by
  have hne : s.blq.read ≠ s.blq.write := by
    intro heq
    have hnat := congrArg BitVec.toNat heq
    rw [h.read_eq, h.write_eq] at hnat
    have := eq_of_mod_eq hlt'.le hle hnat
    omega
  have hstart : queueStep map s .consumer = some { s with reader := .loadWrite s.blq.read } := by
    simp only [queueStep, readerStep, h.reader]
  have hload : queueStep map { s with reader := .loadWrite s.blq.read } .consumer =
      some { s with reader := .loadSlot s.blq.read } :=
    congrArg some (if_neg hne)
  refine ⟨_, run_cons.mpr ⟨_, hstart, run_cons.mpr ⟨_, hload, rfl⟩⟩, ?_, rfl, ?_, rfl⟩
  · exact ⟨h.writer, rfl, h.mask, h.write_eq, toNat_succ_and_mask hn hlt h.mask h.read_eq⟩
  · rw [← h.read_eq]
    rfl

/-- One more call after the others. -/
lemma run_concat_call {calls : List QueueCall} {call : QueueCall} {t u : QueueState}
    (h : run (queueStep map) s (callAccesses calls) = some t)
    (hcall : run (queueStep map) t call.accesses = some u) :
    run (queueStep map) s (callAccesses (calls ++ [call])) = some u := by
  rw [callAccesses, List.flatMap_append, List.flatMap_singleton]
  exact run_trans h hcall

end Calls

/-! ## Two positions with the same slot -/

section Collision

variable {n k c r d : ℕ} {map : ℕ → ℕ} {s : QueueState} {m : Ptr}

/-- Several calls of `lq_write` with the same value: it is in the slot of the last position. -/
lemma run_writeCalls (hn : n = 2 ^ k) (hlt : n < 2 ^ 32) (h : Quiet n c r s) (hle : r ≤ c)
    (hroom : c + d < r + n) (hm : m ≠ 0#64) :
    ∃ calls t, run (queueStep map) s (callAccesses calls) = some t ∧ Quiet n (c + d) r t ∧
      t.written = s.written ++ List.replicate d m ∧ t.readReturns = s.readReturns ∧
      (0 < d → t.blq.q (map ((c + d - 1) % n)) = m) := by
  induction d with
  | zero => exact ⟨[], s, rfl, h, by simp, rfl, fun hpos => absurd hpos (lt_irrefl 0)⟩
  | succ d ih =>
    obtain ⟨calls, t, hrun, ht, hwritten, hreturns, -⟩ := ih (by omega)
    obtain ⟨u, hcall, hu, hwritten', hreturns', hq⟩ :=
      @run_writeCall n k (c + d) r map t m hn hlt ht (by omega) (by omega) hm
    refine ⟨_, u, run_concat_call hrun hcall, hu, ?_, hreturns'.trans hreturns, fun _ => ?_⟩
    · rw [hwritten', hwritten, List.append_assoc, ← List.replicate_succ']
    · rw [hq, show c + (d + 1) - 1 = c + d by omega, Function.update_self]

/-- Values that go through the queue one at a time. -/
lemma run_rounds (hn : n = 2 ^ k) (h2 : 2 ≤ n) (hlt : n < 2 ^ 32) (h : Quiet n 0 0 s)
    (hnil : s.written = [] ∧ s.readReturns = []) (hm : m ≠ 0#64) (a : ℕ) :
    ∃ calls t, run (queueStep map) s (callAccesses calls) = some t ∧ Quiet n a a t ∧
      t.written = List.replicate a m ∧ t.readReturns = List.replicate a m := by
  induction a with
  | zero => exact ⟨[], s, rfl, h, hnil.1, hnil.2⟩
  | succ a ih =>
    obtain ⟨calls, t, hrun, ht, hwritten, hreturns⟩ := ih
    obtain ⟨u, hcall, hu, hwritten', hreturns', hq⟩ :=
      @run_writeCall n k a a map t m hn hlt ht le_rfl (by omega) hm
    obtain ⟨v, hcall', hv, hwritten'', hreturns'', -⟩ :=
      @run_readCall n k (a + 1) a map u hn hlt hu (by omega) (by omega)
    refine ⟨_, v, run_concat_call (run_concat_call hrun hcall) hcall', hv, ?_, ?_⟩
    · rw [hwritten'', hwritten', hwritten, ← List.replicate_succ']
    · rw [hreturns'', hreturns', hreturns, hq, Function.update_self, ← List.replicate_succ']

/-- **Two positions with the same slot**: fewer than `n - 1` apart, they are in the queue at the
same time, and the later value is taken in place of the earlier one.

**Proof sketch.** Values go through the queue one at a time until the first of the two positions is
the next one. Then that position and the ones up to the second are written, the first with another
value than the rest, and one value is taken. -/
lemma outOfOrder_of_eq {blq : Blq} {qlen : Word} (hinit : blqInit Blq.zero qlen = some blq) {a : ℕ}
    (hd : 0 < d) (hroom : d + 1 < qlen.toNat)
    (heq : map (a % qlen.toNat) = map ((a + d) % qlen.toNat)) : OutOfOrder map blq := by
  obtain ⟨⟨k, hpow⟩, h2, rfl⟩ := blqInit_eq_some hinit
  have hstart : Quiet qlen.toNat 0 0
      (QueueState.start { Blq.zero with qlen := qlen, qmask := qlen - 1#32 }) :=
    ⟨rfl, rfl, toNat_sub_one (by omega), (Nat.zero_mod _).symm, (Nat.zero_mod _).symm⟩
  obtain ⟨rounds, s, hrun, hs, hwritten, hreturns⟩ :=
    @run_rounds _ k map _ 1#64 hpow h2 qlen.isLt hstart ⟨rfl, rfl⟩ (by decide) a
  obtain ⟨t, hcall, ht, hwritten', hreturns', -⟩ :=
    @run_writeCall _ k a a map s 1#64 hpow qlen.isLt hs le_rfl (by omega) (by decide)
  obtain ⟨writes, u, hrun', hu, hwritten'', hreturns'', hq⟩ :=
    @run_writeCalls _ k (a + 1) a d map t 2#64 hpow qlen.isLt ht (by omega) (by omega) (by decide)
  obtain ⟨v, hcall', -, hwritten₃, hreturns₃, -⟩ :=
    @run_readCall _ k (a + 1 + d) a map u hpow qlen.isLt hu (by omega) (by omega)
  have hlast : u.blq.q (map (a % qlen.toNat)) = 2#64 := by
    rw [heq, show a + d = a + 1 + d - 1 by omega]
    exact hq hd
  have htaken : v.taken = List.replicate a 1#64 ++ [2#64] := by
    rw [QueueState.taken, hreturns₃, hreturns'', hreturns', hreturns, hlast, List.filter_append]
    simp
  have hrun'' : run (queueStep map)
      (QueueState.start { Blq.zero with qlen := qlen, qmask := qlen - 1#32 })
      (callAccesses (rounds ++ [.lqWrite 1#64] ++ writes)) = some u := by
    rw [callAccesses, List.flatMap_append]
    exact run_trans (run_concat_call hrun hcall) hrun'
  refine ⟨_, v, run_concat_call hrun'' hcall', fun hprefix => ?_⟩
  rw [htaken, hwritten₃, hwritten'', hwritten', hwritten, List.append_assoc,
    List.prefix_append_right_inj, List.singleton_append, List.cons_prefix_cons] at hprefix
  exact absurd hprefix.1 (by decide)

/-- **A slot map that is not injective will not do** for a queue of at least four slots.

**Proof sketch.** Two different positions have a distance below `n - 1` one way or the other around
the circle (`outOfOrder_of_eq`). -/
lemma outOfOrder_of_not_injOn {blq : Blq} {qlen : Word} (hinit : blqInit Blq.zero qlen = some blq)
    (h4 : 4 ≤ qlen.toNat) (hnot : ¬Set.InjOn map (Set.Iio qlen.toNat)) : OutOfOrder map blq := by
  by_contra hordered
  refine hnot fun i hi j hj heq => ?_
  by_contra hne
  wlog hij : i < j generalizing i j
  · exact this j hj i hi heq.symm (Ne.symm hne) (by omega)
  rw [Set.mem_Iio] at hi hj
  by_cases hclose : j - i + 1 < qlen.toNat
  · refine hordered (outOfOrder_of_eq hinit (a := i) (by omega : 0 < j - i) hclose ?_)
    rw [Nat.add_sub_cancel' hij.le, Nat.mod_eq_of_lt hi, Nat.mod_eq_of_lt hj, heq]
  · -- the first and the last position follow one another around the circle
    refine hordered (outOfOrder_of_eq hinit (a := j) Nat.one_pos (by omega) ?_)
    rw [show j + 1 = qlen.toNat by omega, Nat.mod_self, Nat.mod_eq_of_lt hj,
      show 0 = i by omega, heq]

/-- **A slot map that is injective on the positions** and keeps them below the length makes a
FIFO. -/
lemma isFifo_of_injOn {blq : Blq} {qlen : Word} (hinit : blqInit Blq.zero qlen = some blq)
    (hmap : Set.MapsTo map (Set.Iio qlen.toNat) (Set.Iio qlen.toNat))
    (hinj : Set.InjOn map (Set.Iio qlen.toNat)) : IsFifo map blq := by
  obtain ⟨⟨k, hpow⟩, -, -⟩ := blqInit_eq_some hinit
  intro as t hrun
  have hinv : QueueInv qlen.toNat map t := invariant_of_run (fun _ _ _ hinv hstep =>
    @queueStep_inv _ _ ⟨map, fun _ hi => hmap hi, fun _ hi _ hj heq => hinj hi hj heq⟩ _ _ hpow
      qlen.isLt _ hinv hstep) (queueInv_start hinit _) hrun
  exact hinv.taken_prefix

end Collision

/-! ## The slot map of `main` -/

section Main

variable {shuffles : Shuffles} {shuffle : Bool} {qlen : Word} {k : ℕ}

/-- The entries of the table are positions of the queue. -/
lemma mapsTo_qslotmap (hpow : qlen.toNat = 2 ^ k) (h2 : 2 ≤ qlen.toNat) :
    Set.MapsTo (qslotmap shuffles qlen shuffle) (Set.Iio qlen.toNat) (Set.Iio qlen.toNat) := by
  rcases Nat.lt_or_ge 65536 qlen.toNat with hlarge | hlen
  · intro i _
    exact lt_trans (BitVec.isLt _) hlarge
  · by_cases hline : shuffle = true ∧ qlen.toNat < 8
    · intro i _
      rw [hline.1, qslotmap_true_of_lt hline.2, Set.mem_Iio]
      omega
    · exact (isPermutation_qslotmap shuffles hpow h2 hlen
        fun htrue => by_contra fun hlt => hline ⟨htrue, by omega⟩).mapsTo

/-- A table that is injective is a permutation. -/
lemma injOn_qslotmap_iff (hpow : qlen.toNat = 2 ^ k) (h2 : 2 ≤ qlen.toNat) :
    Set.InjOn (qslotmap shuffles qlen shuffle) (Set.Iio qlen.toNat) ↔
      IsPermutation (qslotmap shuffles qlen shuffle) qlen.toNat := by
  have hmaps := @mapsTo_qslotmap shuffles shuffle qlen k hpow h2
  refine ⟨fun hinj => ⟨hmaps, hinj, ?_⟩, fun hperm => hperm.injOn⟩
  rw [← Finset.coe_range] at hmaps hinj ⊢
  exact Finset.surjOn_of_injOn_of_card_le _ hmaps hinj le_rfl

/-- **The lengths at which the queue of `main` is a FIFO**: for every length from 4 on that
`blq_init` accepts and every outcome of the shuffles, the values taken are the first ones written in
every run exactly if the length is at most 65536, and at least 8 if the slots are shuffled; at every
other length calls that do not overlap already take a value out of order.

**Proof sketch.** In these cases the table is a permutation. A longer table has two equal entries of
16 bits, and a shuffled one that is shorter than a cache line holds zeros only. -/
theorem isFifo_qslotmap_iff (shuffles : Shuffles) {blq : Blq}
    (hinit : blqInit Blq.zero qlen = some blq) (h4 : 4 ≤ qlen.toNat) (shuffle : Bool) :
    (IsFifo (qslotmap shuffles qlen shuffle) blq ↔
      qlen.toNat ≤ 65536 ∧ (shuffle = true → 8 ≤ qlen.toNat)) ∧
    (¬(qlen.toNat ≤ 65536 ∧ (shuffle = true → 8 ≤ qlen.toNat)) →
      OutOfOrder (qslotmap shuffles qlen shuffle) blq) := by
  obtain ⟨⟨k, hpow⟩, h2, -⟩ := blqInit_eq_some hinit
  have hiff : Set.InjOn (qslotmap shuffles qlen shuffle) (Set.Iio qlen.toNat) ↔
      qlen.toNat ≤ 65536 ∧ (shuffle = true → 8 ≤ qlen.toNat) := by
    rw [injOn_qslotmap_iff hpow h2]
    cases shuffle with
    | false => simp [isPermutation_false_iff]
    | true => rw [isPermutation_true_iff hpow h2, and_comm]; simp
  have hout : ¬(qlen.toNat ≤ 65536 ∧ (shuffle = true → 8 ≤ qlen.toNat)) →
      OutOfOrder (qslotmap shuffles qlen shuffle) blq := fun hnot =>
    outOfOrder_of_not_injOn hinit h4 fun hinj => hnot (hiff.mp hinj)
  refine ⟨⟨fun hfifo => ?_, fun hcond => ?_⟩, hout⟩
  · by_contra hnot
    exact (hout hnot).not_isFifo hfifo
  · exact isFifo_of_injOn hinit (mapsTo_qslotmap hpow h2) (hiff.mpr hcond)

end Main

/-- Shuffled, a queue of four slots takes values out of order. -/
theorem isFifo_qslotmap_four :
    ∃ blq, blqInit Blq.zero 4#32 = some blq ∧ IsFifo (qslotmap reversed 4#32 false) blq ∧
      OutOfOrder (qslotmap reversed 4#32 true) blq := by
  obtain ⟨blq, hinit⟩ : ∃ blq, blqInit Blq.zero 4#32 = some blq :=
    ⟨_, blqInit_of_pow Blq.zero (k := 2) rfl (by decide) (by decide)⟩
  exact ⟨blq, hinit, (isFifo_qslotmap_iff reversed hinit (by decide) false).1.mpr (by decide),
    (isFifo_qslotmap_iff reversed hinit (by decide) true).2 (by decide)⟩

end Huc
