import Huc.Affinity.Basic
import Mathlib.Data.List.DropRight
import Mathlib.Data.List.GetD
import Mathlib.Data.Multiset.Basic

set_option relaxedAutoImplicit false
set_option autoImplicit false

/-!
# The mask map as a bounded stack

When runs of the probe and drains do not overlap, the map is a stack of at most 63 masks: the
probe pushes, a full stack ignores pushes, and a drain empties it. The map is related to a list
of masks (`Huc.Represents`), and every operation to the list operation it implements.

A drain of a non-empty stack submits more than the stack holds, however. The loop over the slots
starts at `MAX_CPU`, one past the last entry; the lookup there fails, its result is not checked,
and the variable still holds the counter.

## Main definitions

* `Huc.Represents` — the map holds a list of masks.
* `Huc.MapEvent`, `Huc.mapStep` — a run of the probe or a drain.
* `Huc.sinceDrain` — the masks recorded since the last drain.

## Main results

* `Huc.Represents.push`, `Huc.Represents.drain` — the operations on the represented list.
* `Huc.map_boundedStack` — the state of the map after any run.
* `Huc.drain_submits_count` — what one drain submits.
-/

namespace Huc

/-! ## The represented list -/

/-- The map holds the masks `l` from slot 1 on, their number in slot 0, and zeros above. -/
structure Represents (m : CpuMap) (l : List Mask) : Prop where
  length_le : l.length ≤ 63
  slot_zero : m.slot 0 = BitVec.ofNat 64 l.length
  slot_succ : ∀ i < 63, m.slot (i + 1) = l.getD i 0#64

/-- A push on a stack of at most 63 masks: the masks past the 63rd are dropped. -/
def pushMask (l : List Mask) (v : Mask) : List Mask := (l ++ [v]).take 63

namespace Represents

variable {m : CpuMap} {l : List Mask}

/-- The counter is the number of masks. -/
lemma top_eq (h : Represents m l) : m.top = l.length := by
  have := h.length_le
  rw [CpuMap.top, h.slot_zero, BitVec.toNat_ofNat]
  omega

/-- The zeroed map represents the empty stack. -/
lemma zero : Represents CpuMap.zero [] where
  length_le := by simp
  slot_zero := ArrayMap.slot_const 0#64 (by decide : 0 < maxEntries)
  slot_succ i hi := by
    rw [List.getD_nil]
    exact ArrayMap.slot_const 0#64 (by simp only [maxEntries]; omega)

/-- A map with all entries zero represents the empty stack. -/
lemma of_slot_eq_zero (h : ∀ i < maxEntries, m.slot i = 0#64) : Represents m [] where
  length_le := by simp
  slot_zero := h 0 (by decide)
  slot_succ i hi := by
    rw [List.getD_nil]
    exact h (i + 1) (by simp only [maxEntries]; omega)

/-- **The probe pushes.** -/
lemma push (h : Represents m l) (v : Mask) : Represents (bpfProg1 m v) (pushMask l v) := by
  have hle := h.length_le
  rcases Nat.lt_or_ge l.length 63 with hlt | hge
  · -- there is room: the mask goes to the slot after the last one
    have htop : m.top < 63 := by rw [h.top_eq]; exact hlt
    have hpush : pushMask l v = l ++ [v] := List.take_of_length_le (by simp; omega)
    rw [hpush]
    refine ⟨by simp; omega, ?_, fun i hi => ?_⟩
    · rw [slot_bpfProg1 m v htop, if_neg (by omega), if_pos rfl, h.top_eq]
      simp
    · rw [slot_bpfProg1 m v htop, h.top_eq, if_neg (show i + 1 ≠ 0 by omega)]
      by_cases hi' : i = l.length
      · rw [if_pos (by omega), hi']
        simp
      · rw [if_neg (by omega), h.slot_succ i hi]
        rcases Nat.lt_or_ge i l.length with hil | hil
        · simp [List.getD, List.getElem?_append_left hil]
        · rw [List.getD_eq_default _ _ hil, List.getD_eq_default _ _ (by simp; omega)]
  · have hfull : m.top = 63 := by rw [h.top_eq]; omega
    have hpush : pushMask l v = l := List.take_left' (by omega)
    rw [hpush, bpfProg1_of_top_eq m v hfull]
    exact h

/-- **A drain empties.** -/
lemma drain {d : Drain} (h : Represents d.map l) (hidx : d.index = 0) :
    Represents (drain d).map [] ∧ (Huc.drain d).index = 0 := by
  by_cases h0 : d.map.slot 0 = 0#64
  · rw [drain_of_count_eq_zero d hidx h0]
    refine ⟨?_, hidx⟩
    have hlen : l.length = 0 := by
      have hnat := congrArg BitVec.toNat (h.slot_zero.symm.trans h0)
      have := h.length_le
      rw [BitVec.toNat_ofNat, BitVec.toNat_ofNat] at hnat
      omega
    rw [List.eq_nil_of_length_eq_zero hlen] at h
    exact h
  · obtain ⟨-, hzero, hidx'⟩ := drain_of_count d hidx h0
    exact ⟨of_slot_eq_zero hzero, hidx'⟩

/-- The slots up to the counter hold the stack in order. -/
lemma map_slot (h : Represents m l) : (List.range' 1 l.length).map m.slot = l := by
  have hle := h.length_le
  apply List.ext_getElem
  · simp
  · intro i h₁ h₂
    rw [List.getElem_map, List.getElem_range', Nat.one_mul, Nat.add_comm, h.slot_succ i (by omega)]
    exact (List.getElem_eq_getD 0#64).symm

/-- The slots above the counter are zero. -/
lemma slot_of_lt (h : Represents m l) {i : ℕ} (hi : l.length < i) (hi' : i < maxEntries) :
    m.slot i = 0#64 := by
  simp only [maxEntries] at hi'
  obtain ⟨j, rfl⟩ : ∃ j, i = j + 1 := ⟨i - 1, by omega⟩
  rw [h.slot_succ j (by omega), List.getD_eq_default _ _ (by omega)]

end Represents

/-! ## Runs of probes and drains -/

/-- A complete run of the probe, or a complete drain. -/
inductive MapEvent
  | record (mask : Mask)
  | drain
  deriving DecidableEq

/-- The mask an event records. -/
def MapEvent.mask? : MapEvent → Option Mask
  | .record mask => some mask
  | .drain => none

/-- One event on the map and the daemon's variables. -/
def mapStep (d : Drain) : MapEvent → Drain
  | .record mask => { d with map := bpfProg1 d.map mask }
  | .drain => drain d

/-- The daemon before its first poll of a fresh map. -/
def Drain.start : Drain := ⟨CpuMap.zero, 0#64, 0, []⟩

/-- The masks recorded since the last drain. -/
def sinceDrain (es : List MapEvent) : List Mask :=
  (es.rtakeWhile fun e => e.mask?.isSome).filterMap MapEvent.mask?

/-- **The map represents the first 63 masks since the last drain.**

**Proof sketch.** Induction on the events from the end: a record pushes one more mask, a drain
leaves the empty stack, which is what `sinceDrain` starts from. -/
lemma represents_sinceDrain (es : List MapEvent) :
    Represents (es.foldl mapStep Drain.start).map ((sinceDrain es).take 63) ∧
      (es.foldl mapStep Drain.start).index = 0 := by
  induction es using List.reverseRecOn with
  | nil => exact ⟨Represents.zero, rfl⟩
  | append_singleton es e ih =>
    obtain ⟨ihr, ihi⟩ := ih
    rw [List.foldl_append, List.foldl_cons, List.foldl_nil]
    cases e with
    | record mask =>
      have hsince : sinceDrain (es ++ [.record mask]) = sinceDrain es ++ [mask] := by
        simp [sinceDrain, MapEvent.mask?]
      have htake : (sinceDrain es ++ [mask]).take 63 =
          pushMask ((sinceDrain es).take 63) mask := by
        rw [pushMask, List.take_append, List.take_append, List.take_take]
        congr 1
        rcases Nat.lt_or_ge (sinceDrain es).length 63 with h | h
        · rw [List.take_of_length_le h.le]
        · rw [Nat.sub_eq_zero_of_le h, List.length_take_of_le h]
      rw [hsince, htake]
      exact ⟨ihr.push mask, ihi⟩
    | drain =>
      have hsince : sinceDrain (es ++ [.drain]) = [] := by
        simp [sinceDrain, MapEvent.mask?]
      rw [hsince]
      exact ihr.drain ihi

/-- **The map is a bounded stack.** After any run of probes and drains from the zeroed map, the
counter is some `t ≤ 63`, the slots `1..t` hold in order the first `t` masks recorded since the
last drain, and these are all of them unless `t = 63`; every slot above is zero; a run of the probe
with `t = 63` leaves the whole map as it is; and a drain with `t > 0` zeroes all 64 entries. -/
theorem map_boundedStack (es : List MapEvent) :
    ∃ t ≤ 63, (es.foldl mapStep Drain.start).map.slot 0 = BitVec.ofNat 64 t ∧
      (List.range' 1 t).map (es.foldl mapStep Drain.start).map.slot = (sinceDrain es).take t ∧
      t = min 63 (sinceDrain es).length ∧
      (∀ i, t < i → i < maxEntries → (es.foldl mapStep Drain.start).map.slot i = 0#64) ∧
      (t = 63 → ∀ mask, bpfProg1 (es.foldl mapStep Drain.start).map mask =
        (es.foldl mapStep Drain.start).map) ∧
      (0 < t → ∀ i < maxEntries, (drain (es.foldl mapStep Drain.start)).map.slot i = 0#64) := by
  obtain ⟨hrep, hidx⟩ := represents_sinceDrain es
  have hlen : ((sinceDrain es).take 63).length = min 63 (sinceDrain es).length := List.length_take
  have htake : (sinceDrain es).take ((sinceDrain es).take 63).length = (sinceDrain es).take 63 := by
    rw [hlen, ← List.take_eq_take_min]
  refine ⟨((sinceDrain es).take 63).length, hrep.length_le, hrep.slot_zero, ?_, hlen, ?_, ?_, ?_⟩
  · rw [hrep.map_slot, htake]
  · exact fun i hi hi' => hrep.slot_of_lt hi hi'
  · intro hfull mask
    exact bpfProg1_of_top_eq _ mask (hrep.top_eq.trans hfull)
  · intro hpos
    refine (drain_of_count _ hidx fun h0 => ?_).2.1
    have hnat := congrArg BitVec.toNat (hrep.slot_zero.symm.trans h0)
    have := hrep.length_le
    rw [BitVec.toNat_ofNat, BitVec.toNat_ofNat] at hnat
    omega

/-! ## What a drain submits -/

/-- The values submitted from the slots `k, …, 1` are the non-zero ones, last slot first. -/
lemma map_snd_scanned (m : CpuMap) (k : ℕ) :
    (scanned m k).map Prod.snd =
      (((List.range' 1 k).map m.slot).filter fun v => v ≠ 0#64).reverse := by
  induction k with
  | zero => rfl
  | succ k ih =>
    rw [List.range'_1_concat, List.map_append, List.filter_append, List.reverse_append, scanned,
      Nat.add_comm 1 k]
    by_cases h : m.slot (k + 1) = 0#64
    · simp [h, ih]
    · simp [h, ih]

/-- Zero slots above `t` are not submitted. -/
lemma filter_map_slot_range' (m : CpuMap) {t : ℕ} (ht : t ≤ 63)
    (habove : ∀ i, t < i → i < maxEntries → m.slot i = 0#64) :
    ((List.range' 1 63).map m.slot).filter (fun v => v ≠ 0#64) =
      ((List.range' 1 t).map m.slot).filter fun v => v ≠ 0#64 := by
  have hsplit : List.range' 1 63 = List.range' 1 t ++ List.range' (1 + t) (63 - t) := by
    rw [List.range'_append_1]
    congr 1
    omega
  have hnil : ((List.range' (1 + t) (63 - t)).map m.slot).filter (fun v => v ≠ 0#64) = [] := by
    rw [List.filter_eq_nil_iff]
    intro v hv
    obtain ⟨i, hi, rfl⟩ := List.mem_map.mp hv
    rw [List.mem_range'_1] at hi
    rw [habove i (by omega) (by simp only [maxEntries]; omega)]
    simp
  rw [hsplit, List.map_append, List.filter_append, hnil, List.append_nil]

/-- **A drain submits the counter too.** For every map with counter `t` between 1 and 63 and zeros
above slot `t`, one undisturbed drain submits the non-zero masks of the slots `1..t` and, besides,
the number `t`; so what it submits is never just those masks.

**Proof sketch.** By `drain_of_count` the submissions are the counter, from the failing lookup at
`MAX_CPU`, and the non-zero masks of the slots 63 to 1, of which those above `t` are none. The two
multisets differ in size. -/
theorem drain_submits_count (m : CpuMap) (value : Mask) (t : ℕ) (ht₁ : 1 ≤ t) (ht : t ≤ 63)
    (htop : m.slot 0 = BitVec.ofNat 64 t)
    (habove : ∀ i, t < i → i < maxEntries → m.slot i = 0#64) :
    ((drain ⟨m, value, 0, []⟩).submitted.map Prod.snd : Multiset Mask) =
        BitVec.ofNat 64 t ::ₘ
          (((List.range' 1 t).map m.slot).filter fun v => v ≠ 0#64 : Multiset Mask) ∧
      ((drain ⟨m, value, 0, []⟩).submitted.map Prod.snd : Multiset Mask) ≠
          (((List.range' 1 t).map m.slot).filter fun v => v ≠ 0#64 : Multiset Mask) := by
  have hne : m.slot 0 ≠ 0#64 := by
    intro h0
    have hnat := congrArg BitVec.toNat (htop.symm.trans h0)
    rw [BitVec.toNat_ofNat, BitVec.toNat_ofNat] at hnat
    omega
  obtain ⟨hsub, -, -⟩ := drain_of_count ⟨m, value, 0, []⟩ rfl hne
  have heq : ((drain ⟨m, value, 0, []⟩).submitted.map Prod.snd : Multiset Mask) =
      BitVec.ofNat 64 t ::ₘ
        (((List.range' 1 t).map m.slot).filter fun v => v ≠ 0#64 : Multiset Mask) := by
    rw [hsub, List.nil_append, List.map_cons, ← Multiset.cons_coe, map_snd_scanned,
      filter_map_slot_range' m ht habove, Multiset.coe_reverse, htop]
  refine ⟨heq, ?_⟩
  intro h
  have hcard := congrArg Multiset.card (heq.symm.trans h)
  rw [Multiset.card_cons] at hcard
  omega

/-- A map with the mask 6 in slot 1, for closed examples. -/
def oneMaskMap : CpuMap := bpfProg1 CpuMap.zero 6#64

/-- With one recorded mask, 6, the drain submits 1 and 6. -/
theorem drain_submits_count_one :
    ((drain ⟨oneMaskMap, 0#64, 0, []⟩).submitted.map Prod.snd : Multiset Mask) =
        BitVec.ofNat 64 1 ::ₘ
          (((List.range' 1 1).map oneMaskMap.slot).filter fun v => v ≠ 0#64 : Multiset Mask) ∧
      ((drain ⟨oneMaskMap, 0#64, 0, []⟩).submitted.map Prod.snd : Multiset Mask) ≠
          (((List.range' 1 1).map oneMaskMap.slot).filter fun v => v ≠ 0#64 : Multiset Mask) :=
  drain_submits_count oneMaskMap 0#64 1 le_rfl (by decide) (by decide) fun i hi hi' => by
    have htop : CpuMap.zero.top = 0 := by decide
    rw [oneMaskMap, slot_bpfProg1 _ _ (by decide), htop, if_neg (by omega), if_neg (by omega)]
    exact ArrayMap.slot_const 0#64 hi'

/-- The recorded masks of `oneMaskMap` are 6 alone, but the drain submits 1 before it. -/
theorem drain_oneMaskMap :
    (drain ⟨oneMaskMap, 0#64, 0, []⟩).submitted.map Prod.snd = [1#64, 6#64] ∧
      ((List.range' 1 1).map oneMaskMap.slot).filter (fun v => v ≠ 0#64) = [6#64] ∧
      ((drain ⟨oneMaskMap, 0#64, 0, []⟩).submitted.map Prod.snd : Multiset Mask) ≠
        (((List.range' 1 1).map oneMaskMap.slot).filter fun v => v ≠ 0#64 : Multiset Mask) := by
  decide +kernel

end Huc
