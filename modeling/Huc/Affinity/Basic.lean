import Huc.Lib.ArrayMap
import Mathlib.Data.BitVec

set_option relaxedAutoImplicit false
set_option autoImplicit false

/-!
# Recording and draining of affinity masks

Two programs of the guest share the BPF array map `cpuindex_mask_maps`. The probe `bpf_prog1` of
`guestend/bytecode.c`, attached to the kernel's `sched_setaffinity`, pushes every new mask: entry 0
counts, the entries above hold the masks. The loader child of `guestend/daemon.c` polls the map and
drains it, submitting each non-zero mask to the driver and clearing its slot.

## Main definitions

* `Huc.CpuMap` — the shared map.
* `Huc.bpfProg1` — the probe.
* `Huc.Drain`, `Huc.scan`, `Huc.drain` — one pass of the daemon's polling loop.

## Main results

* `Huc.slot_bpfProg1` — what one run of the probe does to the map.
* `Huc.scan_spec` — what the daemon's loop over the slots submits and leaves behind.
* `Huc.drain_of_count` — what a drain does when the counter is not zero.
-/

namespace Huc

/-- A CPU mask, the value type of the map. -/
abbrev Mask := BitVec 64

/-- `MAX_ENTRIES` of `bytecode.c`. -/
def maxEntries : ℕ := 64

/-- `MAX_CPU` of `daemon.c`, where the daemon's loop over the slots starts. -/
def maxCpu : ℕ := 64

/-- `cpuindex_mask_maps`. -/
abbrev CpuMap := ArrayMap maxEntries Mask

/-- The map as it is created, with all entries zero. -/
def CpuMap.zero : CpuMap := ArrayMap.const maxEntries 0#64

/-! ## The probe -/

/-- `bpf_prog1`, run alone, for the mask `cpuSet` read from the probed call. The counter is
compared with the last index before it is incremented, and the incremented value is the index. -/
def bpfProg1 (m : CpuMap) (cpuSet : Mask) : CpuMap :=
  match m.lookup 0 with
  | none => m
  | some top =>
    if top = BitVec.ofNat 64 (maxEntries - 1) then m
    else
      let m := m.set 0 (top + 1#64)
      let index : BitVec 32 := (top + 1#64).setWidth 32
      m.set index.toNat cpuSet

/-- The counter of the map. -/
def CpuMap.top (m : CpuMap) : ℕ := (m.slot 0).toNat

/-- With a full map the probe does nothing. -/
lemma bpfProg1_of_top_eq (m : CpuMap) (cpuSet : Mask) (h : m.top = 63) :
    bpfProg1 m cpuSet = m := by
  have htop : m.slot 0 = BitVec.ofNat 64 (maxEntries - 1) := by
    apply BitVec.eq_of_toNat_eq
    rw [show (m.slot 0).toNat = 63 from h]
    rfl
  rw [bpfProg1, ArrayMap.lookup_of_lt m (by decide : 0 < maxEntries)]
  simp only [htop, if_true]

/-- With room left the probe increments the counter and stores the mask at the new index.

**Proof sketch.** Neither the 64-bit increment nor the narrowing of the index to 32 bits loses
anything for a counter below 63. -/
lemma bpfProg1_of_top_lt (m : CpuMap) (cpuSet : Mask) (h : m.top < 63) :
    bpfProg1 m cpuSet = (m.set 0 (BitVec.ofNat 64 (m.top + 1))).set (m.top + 1) cpuSet := by
  have hnat : (m.slot 0).toNat < 63 := h
  have hne : m.slot 0 ≠ BitVec.ofNat 64 (maxEntries - 1) := by
    intro heq
    rw [heq] at hnat
    exact absurd hnat (by decide)
  have hinc : m.slot 0 + 1#64 = BitVec.ofNat 64 (m.top + 1) := by
    apply BitVec.eq_of_toNat_eq
    simp only [BitVec.toNat_add, BitVec.toNat_ofNat, CpuMap.top]
  have hidx : ((BitVec.ofNat 64 (m.top + 1)).setWidth 32).toNat = m.top + 1 := by
    simp only [BitVec.toNat_setWidth, BitVec.toNat_ofNat]
    omega
  rw [bpfProg1, ArrayMap.lookup_of_lt m (by decide : 0 < maxEntries)]
  simp only [if_neg hne, hinc, hidx]

/-- **What the probe does to each entry** of a map with room left. -/
lemma slot_bpfProg1 (m : CpuMap) (cpuSet : Mask) (h : m.top < 63) (i : ℕ) :
    (bpfProg1 m cpuSet).slot i =
      if i = m.top + 1 then cpuSet
      else if i = 0 then BitVec.ofNat 64 (m.top + 1) else m.slot i := by
  rw [bpfProg1_of_top_lt m cpuSet h,
    ArrayMap.slot_set _ _ (show m.top + 1 < maxEntries by simp only [maxEntries]; omega),
    ArrayMap.slot_set _ _ (by decide : 0 < maxEntries)]

/-- The probe counts the mask it stores. -/
lemma top_bpfProg1 (m : CpuMap) (cpuSet : Mask) (h : m.top < 63) :
    (bpfProg1 m cpuSet).top = m.top + 1 := by
  rw [CpuMap.top, slot_bpfProg1 m cpuSet h, if_neg (by omega), if_pos rfl, BitVec.toNat_ofNat]
  omega

/-! ## The drain -/

/-- The variables of the daemon's polling loop, with the shared map and a record of the values
submitted through `ioctl(IOCTL_SCHED_SETAFFINITY)`, each with the loop index it was submitted at. -/
structure Drain where
  map : CpuMap
  value : Mask
  index : ℕ
  submitted : List (ℕ × Mask)

/-- `bpf_map_lookup_elem(map_fd[0], &key, &value)`, whose result is not checked: the variable
`value` keeps its content when the lookup fails. -/
def lookupElem (m : CpuMap) (key : ℕ) (value : Mask) : Mask := (m.lookup key).getD value

/-- The body of the loop over the slots, for the loop index `i`. -/
def scanSlot (i : ℕ) (d : Drain) : Drain :=
  let value := lookupElem d.map i d.value
  if value ≠ 0#64 then
    { map := d.map.set i 0#64
      value := 0#64
      index := i
      submitted := d.submitted ++ [(i, value)] }
  else { d with value := value }

/-- The loop `for (i = …; i > 0; i--)` over the slots. -/
def scan : ℕ → Drain → Drain
  | 0, d => d
  | i + 1, d => scan i (scanSlot (i + 1) d)

/-- One pass of the polling loop: read the counter and, if it is not zero, scan the slots from
`MAX_CPU` down and write the counter back. -/
def drain (d : Drain) : Drain :=
  let value := lookupElem d.map d.index d.value
  if value ≠ 0#64 then
    let d := scan maxCpu { d with value := value }
    { d with index := 0, map := d.map.set 0 d.value }
  else { d with value := value }

/-- A lookup in range reads the slot. -/
lemma lookupElem_of_lt (m : CpuMap) {key : ℕ} (value : Mask) (h : key < maxEntries) :
    lookupElem m key value = m.slot key := by
  rw [lookupElem, ArrayMap.lookup_of_lt m h, Option.getD_some]

/-- A lookup past the end leaves the variable as it is. -/
lemma lookupElem_of_ge (m : CpuMap) {key : ℕ} (value : Mask) (h : maxEntries ≤ key) :
    lookupElem m key value = value := by
  rw [lookupElem, ArrayMap.lookup_of_ge m h, Option.getD_none]

/-- What the scan submits from the slots `k, …, 1`: the non-zero ones, from the top down. -/
def scanned (m : CpuMap) : ℕ → List (ℕ × Mask)
  | 0 => []
  | k + 1 => if m.slot (k + 1) ≠ 0#64 then (k + 1, m.slot (k + 1)) :: scanned m k else scanned m k

/-- What is submitted from the slots `k, …, 1` depends on these slots only. -/
lemma scanned_congr {m m' : CpuMap} (k : ℕ) (h : ∀ i, 1 ≤ i → i ≤ k → m.slot i = m'.slot i) :
    scanned m k = scanned m' k := by
  induction k with
  | zero => rfl
  | succ k ih =>
    rw [scanned, scanned, h (k + 1) (by omega) le_rfl, ih fun i h₁ h₂ => h i h₁ (by omega)]

/-- A non-zero slot from `1` to `k` is submitted. -/
lemma mem_scanned {m : CpuMap} {i k : ℕ} (h₁ : 1 ≤ i) (hk : i ≤ k) (hne : m.slot i ≠ 0#64) :
    (i, m.slot i) ∈ scanned m k := by
  induction k with
  | zero => omega
  | succ k ih =>
    rw [scanned]
    rcases Nat.lt_or_ge k i with hlt | hge
    · obtain rfl : i = k + 1 := by omega
      rw [if_pos hne]
      exact List.mem_cons_self
    · split_ifs
      · exact List.mem_cons_of_mem _ (ih hge)
      · exact ih hge

/-- The loop body on a slot of the map: the slot and the variable end up zero, the other slots are
unchanged, and a non-zero mask is submitted. -/
lemma scanSlot_spec {i : ℕ} (d : Drain) (h : i < maxEntries) :
    (scanSlot i d).value = 0#64 ∧ (scanSlot i d).map = d.map.set i 0#64 ∧
      (scanSlot i d).submitted =
        d.submitted ++ (if d.map.slot i ≠ 0#64 then [(i, d.map.slot i)] else []) := by
  simp only [scanSlot, lookupElem_of_lt d.map d.value h]
  by_cases h0 : d.map.slot i = 0#64
  · have hset : d.map.set i 0#64 = d.map := by
      refine ArrayMap.ext_slot fun j _ => ?_
      rw [ArrayMap.slot_set d.map _ h]
      split_ifs with hj
      · rw [hj, h0]
      · rfl
    simp [h0, hset]
  · simp [h0]

/-- **The scan of the slots `k, …, 1`** submits the non-zero masks there from the top down, zeroes
these slots, leaves all others, and leaves zero in the variable `value`.

**Proof sketch.** Induction on `k`: the body handles slot `k` (`scanSlot_spec`), which the lower
slots do not see (`scanned_congr`). -/
lemma scan_spec {k : ℕ} (d : Drain) (h : k < maxEntries) :
    (scan k d).submitted = d.submitted ++ scanned d.map k ∧
      (∀ i, (scan k d).map.slot i = if 1 ≤ i ∧ i ≤ k then 0#64 else d.map.slot i) ∧
      (0 < k → (scan k d).value = 0#64) := by
  induction k generalizing d with
  | zero =>
    refine ⟨by simp [scan, scanned], fun i => ?_, fun h0 => absurd h0 (Nat.lt_irrefl 0)⟩
    rw [if_neg (by omega)]
    rfl
  | succ k ih =>
    obtain ⟨hval, hmap, hsub⟩ := scanSlot_spec d h
    obtain ⟨ihsub, ihmap, ihval⟩ := ih (scanSlot (k + 1) d) (by omega)
    have hlow : ∀ i, i ≤ k → (scanSlot (k + 1) d).map.slot i = d.map.slot i := by
      intro i hi
      rw [hmap, ArrayMap.slot_set_of_ne _ _ (by omega)]
    refine ⟨?_, fun i => ?_, fun _ => ?_⟩
    · rw [scan, ihsub, hsub, scanned_congr k fun i _ hi => hlow i hi, List.append_assoc, scanned]
      congr 1
      split_ifs <;> rfl
    · rw [scan, ihmap i]
      by_cases hi : 1 ≤ i ∧ i ≤ k
      · rw [if_pos hi, if_pos ⟨hi.1, by omega⟩]
      · rw [if_neg hi, hmap, ArrayMap.slot_set _ _ h]
        by_cases hik : i = k + 1
        · rw [if_pos hik, if_pos (by omega)]
        · rw [if_neg hik, if_neg (by omega)]
    · rw [scan]
      cases k with
      | zero => exact hval
      | succ k => exact ihval (by omega)

/-- The first iteration of the scan starts past the end of the map: the lookup and the update
fail, and the counter still in `value` is submitted. -/
lemma scanSlot_maxCpu (d : Drain) (h : d.value ≠ 0#64) :
    (scanSlot maxCpu d).map = d.map ∧
      (scanSlot maxCpu d).submitted = d.submitted ++ [(maxCpu, d.value)] := by
  have hge : maxEntries ≤ maxCpu := le_rfl
  simp only [scanSlot, lookupElem_of_ge d.map d.value hge, ne_eq, h, not_false_eq_true, if_true]
  exact ⟨ArrayMap.set_of_ge d.map _ hge, trivial⟩

/-- **A drain of a map whose counter is not zero**: it submits the counter, then the non-zero
masks from slot 63 down, and leaves every entry of the map zero. -/
lemma drain_of_count (d : Drain) (hidx : d.index = 0) (h : d.map.slot 0 ≠ 0#64) :
    (drain d).submitted =
        d.submitted ++ (maxCpu, d.map.slot 0) :: scanned d.map 63 ∧
      (∀ i < maxEntries, (drain d).map.slot i = 0#64) ∧ (drain d).index = 0 := by
  have hval : lookupElem d.map d.index d.value = d.map.slot 0 := by
    rw [hidx, lookupElem_of_lt d.map d.value (by decide)]
  obtain ⟨hmap, hsub⟩ := scanSlot_maxCpu { d with value := d.map.slot 0 } h
  obtain ⟨scsub, scmap, scval⟩ := scan_spec (scanSlot maxCpu { d with value := d.map.slot 0 })
    (by decide : 63 < maxEntries)
  have hscan : scan maxCpu { d with value := d.map.slot 0 } =
      scan 63 (scanSlot maxCpu { d with value := d.map.slot 0 }) := rfl
  simp only [drain, hval, ne_eq, h, not_false_eq_true, if_true, hscan, and_true]
  constructor
  · rw [scsub, hsub, hmap, List.append_assoc]
    rfl
  · intro i hi
    rw [ArrayMap.slot_set _ _ (by decide : 0 < maxEntries), scval (by omega), scmap i]
    simp only [maxEntries] at hi
    by_cases h0 : i = 0
    · rw [if_pos h0]
    · rw [if_neg h0, if_pos (by omega)]

/-- A drain of a map whose counter is zero changes nothing but the variable. -/
lemma drain_of_count_eq_zero (d : Drain) (hidx : d.index = 0) (h : d.map.slot 0 = 0#64) :
    drain d = { d with value := 0#64 } := by
  have hval : lookupElem d.map d.index d.value = 0#64 := by
    rw [hidx, lookupElem_of_lt d.map d.value (by decide), h]
  simp [drain, hval]

end Huc
