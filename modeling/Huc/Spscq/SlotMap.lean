import Huc.Lib.Blocks
import Huc.Spscq.Queue
import Mathlib.Data.List.GetD

set_option relaxedAutoImplicit false
set_option autoImplicit false

/-!
# The slot map

`qslotmap_init` of `guestend/simplified-spscq/spscq.cpp` fills the table that remaps the slots of
the queue. Without shuffle it stores the identity. With shuffle it permutes the cache lines of the
queue, and within each line its slots; the outcome of each call of `std::shuffle` is some
permutation of what it is given, and nothing else is assumed of it. The entries have 16 bits, and a
queue shorter than a cache line has no line to fill.

The queue needs a table that keeps the positions below its length there and distinct.

## Main definitions

* `Huc.Shuffle`, `Huc.Shuffles` — the outcomes of the calls of `std::shuffle`.
* `Huc.qslotmapInit` — the table.
* `Huc.IsPermutation` — the table is a permutation of the positions below the length.

## Main results

* `Huc.image_qslotmap_block` — a cache line is mapped onto a cache line.
* `Huc.qslotmap_permutation_iff` — the lengths for which the table is a permutation.
* `Huc.queueInv_of_qslotmap` — the queue with its table.
-/

namespace Huc

open Set Blocks Transition

/-! ## The initialisation -/

/-- `K`: the number of entries of a cache line, of 64 bytes, each a `uintptr_t`. -/
def entriesPerLine : ℕ := 64 / 8

/-- `unsigned short`. -/
abbrev Slot := BitVec 16

/-- The outcome of a call of `std::shuffle`. -/
structure Shuffle (α : Type*) where
  toFun : List α → List α
  perm : ∀ l, (toFun l).Perm l

/-- The outcomes of all calls: one for the cache lines, and one for the slots of each line `j`. -/
structure Shuffles where
  lines : Shuffle Slot
  slots : ℕ → Shuffle Slot

/-- The vector `v`: a permutation of the first slots of the `lines` cache lines. -/
def lineStarts (shuffles : Shuffles) (lines : ℕ) : List Slot :=
  shuffles.lines.toFun ((List.range lines).map fun i => BitVec.ofNat 16 (entriesPerLine * i))

/-- The vector `u` for line `j`: a permutation of the slots from `start` on. -/
def lineSlots (shuffles : Shuffles) (j : ℕ) (start : Slot) : List Slot :=
  (shuffles.slots j).toFun
    ((List.range entriesPerLine).map fun i => BitVec.ofNat 16 (start.toNat + i))

/-- `qslotmap_init`. -/
def qslotmapInit (shuffles : Shuffles) (qslotmap : ℕ → Slot) (qlen : Word) (shuffle : Bool) :
    ℕ → Slot :=
  if !shuffle then fill qslotmap 0 qlen.toNat fun i => BitVec.ofNat 16 i
  else
    let v := lineStarts shuffles (qlen.toNat / entriesPerLine)
    fillBlocks qslotmap entriesPerLine (qlen.toNat / entriesPerLine) fun j i =>
      (lineSlots shuffles j (v.getD j 0)).getD i 0

/-- The table of a queue in zeroed memory. -/
def qslotmap (shuffles : Shuffles) (qlen : Word) (shuffle : Bool) (i : ℕ) : ℕ :=
  (qslotmapInit shuffles (fun _ => 0) qlen shuffle i).toNat

/-- The table is a permutation of the positions below `n`. -/
def IsPermutation (map : ℕ → ℕ) (n : ℕ) : Prop := BijOn map (Iio n) (Iio n)

/-! ## The vectors -/

section Vectors

variable {shuffles : Shuffles}

/-- A slot below `2 ^ 16`. -/
lemma toNat_slot {y : ℕ} (h : y < 65536) : (BitVec.ofNat 16 y : Slot).toNat = y := by
  rw [BitVec.toNat_ofNat, Nat.mod_eq_of_lt h]

/-- An entry is a member. -/
lemma getD_mem_of_lt {α : Type*} {l : List α} {i : ℕ} (h : i < l.length) (d : α) :
    l.getD i d ∈ l := by
  rw [List.getD_eq_getElem l d h]
  exact List.getElem_mem h

/-- A member is an entry. -/
lemma exists_getD_of_mem {α : Type*} {l : List α} {x : α} (h : x ∈ l) (d : α) :
    ∃ i < l.length, l.getD i d = x := by
  obtain ⟨i, hi, rfl⟩ := List.mem_iff_getElem.mp h
  exact ⟨i, hi, List.getD_eq_getElem l d hi⟩

/-- The length of `v`. -/
lemma length_lineStarts (lines : ℕ) : (lineStarts shuffles lines).length = lines := by
  rw [lineStarts, (shuffles.lines.perm _).length_eq, List.length_map, List.length_range]

/-- The length of `u`. -/
lemma length_lineSlots (j : ℕ) (start : Slot) :
    (lineSlots shuffles j start).length = entriesPerLine := by
  rw [lineSlots, ((shuffles.slots j).perm _).length_eq, List.length_map, List.length_range]

/-- The members of `v`, as long as the slots have 16 bits. -/
lemma mem_lineStarts {lines : ℕ} (h : lines * entriesPerLine ≤ 65536) {x : Slot} :
    x ∈ lineStarts shuffles lines ↔ ∃ g < lines, g * entriesPerLine = x.toNat := by
  rw [lineStarts, (shuffles.lines.perm _).mem_iff, List.mem_map]
  refine exists_congr fun g => ?_
  rw [List.mem_range]
  refine and_congr_right fun hg => ?_
  have hend := end_le entriesPerLine hg
  have hpos : 0 < entriesPerLine := by decide
  rw [← BitVec.toNat_inj, Nat.mul_comm, toNat_slot (by omega)]

/-- The members of `u`, as long as the slots have 16 bits. -/
lemma mem_lineSlots {j : ℕ} {start : Slot} (h : start.toNat + entriesPerLine ≤ 65536) {x : Slot} :
    x ∈ lineSlots shuffles j start ↔ start.toNat ≤ x.toNat ∧ x.toNat < start.toNat + entriesPerLine
    := by
  rw [lineSlots, ((shuffles.slots j).perm _).mem_iff, List.mem_map]
  constructor
  · rintro ⟨i, hi, rfl⟩
    rw [List.mem_range] at hi
    rw [toNat_slot (by omega)]
    omega
  · rintro ⟨hle, hlt⟩
    refine ⟨x.toNat - start.toNat, List.mem_range.mpr (by omega), ?_⟩
    rw [Nat.add_sub_cancel' hle, BitVec.ofNat_toNat, BitVec.setWidth_eq]

end Vectors

/-! ## The table -/

section Table

variable {shuffles : Shuffles} {qlen : Word}

/-- Without shuffle. -/
lemma qslotmap_false {i : ℕ} (h : i < qlen.toNat) : qslotmap shuffles qlen false i = i % 65536 := by
  have hfill := @fill_of_lt Slot (fun _ => 0) 0 qlen.toNat i (fun i => BitVec.ofNat 16 i) h
  rw [Nat.zero_add] at hfill
  exact (congrArg BitVec.toNat hfill).trans (BitVec.toNat_ofNat i 16)

/-- **With shuffle**: slot `i` of line `j`. -/
lemma qslotmap_true {j i : ℕ} (hj : j < qlen.toNat / entriesPerLine) (hi : i < entriesPerLine) :
    qslotmap shuffles qlen true (j * entriesPerLine + i) =
      ((lineSlots shuffles j
        ((lineStarts shuffles (qlen.toNat / entriesPerLine)).getD j 0)).getD i 0).toNat := by
  have hfill := @fillBlocks_apply Slot (fun _ => 0) entriesPerLine (qlen.toNat / entriesPerLine) j i
    (fun j i => (lineSlots shuffles j
      ((lineStarts shuffles (qlen.toNat / entriesPerLine)).getD j 0)).getD i 0) hj hi
  exact congrArg BitVec.toNat hfill

/-- Line `j` is mapped onto the line that starts at the `j`-th entry of `v`.

**Proof sketch.** The entries of line `j` are those of the shuffled vector of its slots, which has
every slot of the line it starts at, and no other. -/
lemma image_qslotmap {j g : ℕ} (hj : j < qlen.toNat / entriesPerLine)
    (hlen : qlen.toNat ≤ 65536) (hg : g < qlen.toNat / entriesPerLine)
    (hstart : g * entriesPerLine =
      ((lineStarts shuffles (qlen.toNat / entriesPerLine)).getD j 0).toNat) :
    qslotmap shuffles qlen true '' block entriesPerLine j = block entriesPerLine g := by
  have hend := end_le entriesPerLine hg
  have hdiv := Nat.div_mul_le_self qlen.toNat entriesPerLine
  rw [image_block]
  ext y
  constructor
  · rintro ⟨i, hi, rfl⟩
    rw [qslotmap_true hj hi]
    have hmem := getD_mem_of_lt (l := lineSlots shuffles j
      ((lineStarts shuffles (qlen.toNat / entriesPerLine)).getD j 0)) (by rwa [length_lineSlots]) 0
    rw [mem_lineSlots (by omega), ← hstart] at hmem
    exact hmem
  · rintro ⟨hle, hlt⟩
    have hy : (BitVec.ofNat 16 y).toNat = y := toNat_slot (by omega)
    have hmem : BitVec.ofNat 16 y ∈ lineSlots shuffles j
        ((lineStarts shuffles (qlen.toNat / entriesPerLine)).getD j 0) := by
      rw [mem_lineSlots (by omega), ← hstart, hy]
      exact ⟨hle, hlt⟩
    obtain ⟨i, hi, hget⟩ := exists_getD_of_mem hmem 0
    rw [length_lineSlots] at hi
    exact ⟨i, hi, by rw [qslotmap_true hj hi, hget, hy]⟩

/-- **A cache line is mapped onto a cache line.** -/
lemma image_qslotmap_block (hlen : qlen.toNat ≤ 65536) {j : ℕ}
    (hj : j < qlen.toNat / entriesPerLine) :
    ∃ g < qlen.toNat / entriesPerLine,
      qslotmap shuffles qlen true '' block entriesPerLine j = block entriesPerLine g := by
  have hdiv := Nat.div_mul_le_self qlen.toNat entriesPerLine
  have hmem := getD_mem_of_lt (l := lineStarts shuffles (qlen.toNat / entriesPerLine))
    (by rwa [length_lineStarts]) 0
  obtain ⟨g, hg, hstart⟩ := (mem_lineStarts (by omega)).mp hmem
  exact ⟨g, hg, image_qslotmap hj hlen hg hstart⟩

/-- Every cache line is reached. -/
lemma exists_image_qslotmap_eq (hlen : qlen.toNat ≤ 65536) {g : ℕ}
    (hg : g < qlen.toNat / entriesPerLine) :
    ∃ j < qlen.toNat / entriesPerLine,
      qslotmap shuffles qlen true '' block entriesPerLine j = block entriesPerLine g := by
  have hend := end_le entriesPerLine hg
  have hpos : 0 < entriesPerLine := by decide
  have hdiv := Nat.div_mul_le_self qlen.toNat entriesPerLine
  have hstart : (BitVec.ofNat 16 (g * entriesPerLine)).toNat = g * entriesPerLine :=
    toNat_slot (by omega)
  have hmem : BitVec.ofNat 16 (g * entriesPerLine) ∈
      lineStarts shuffles (qlen.toNat / entriesPerLine) :=
    (mem_lineStarts (by omega)).mpr ⟨g, hg, hstart.symm⟩
  obtain ⟨j, hj, hget⟩ := exists_getD_of_mem hmem 0
  rw [length_lineStarts] at hj
  exact ⟨j, hj, image_qslotmap hj hlen hg (by rw [hget, hstart])⟩

/-- A queue shorter than a cache line has no line to fill. -/
lemma qslotmap_true_of_lt (h : qlen.toNat < 8) (i : ℕ) : qslotmap shuffles qlen true i = 0 := by
  have hlines : qlen.toNat / entriesPerLine = 0 := Nat.div_eq_of_lt h
  rw [qslotmap, qslotmapInit, Bool.not_true, if_neg Bool.false_ne_true, hlines]
  rfl

/-! ## The lengths for which it is a permutation -/

/-- A permutation by 16-bit slots is one of at most 65536 positions. -/
lemma le_of_isPermutation {shuffle : Bool}
    (h : IsPermutation (qslotmap shuffles qlen shuffle) qlen.toNat) : qlen.toNat ≤ 65536 := by
  by_contra hlt
  obtain ⟨i, -, hi⟩ := h.surjOn (show qlen.toNat - 1 ∈ Iio qlen.toNat from by
    rw [mem_Iio]
    omega)
  have hslot := (qslotmapInit shuffles (fun _ => 0) qlen shuffle i).isLt
  rw [qslotmap] at hi
  omega

/-- **Without shuffle** the table is a permutation of up to 65536 positions. -/
lemma isPermutation_false_iff :
    IsPermutation (qslotmap shuffles qlen false) qlen.toNat ↔ qlen.toNat ≤ 65536 := by
  refine ⟨le_of_isPermutation, fun hlen => (bijOn_id _).congr fun i hi => ?_⟩
  rw [mem_Iio] at hi
  rw [qslotmap_false hi, Nat.mod_eq_of_lt (by omega)]
  rfl

/-- **With shuffle** there must also be a cache line.

**Proof sketch.** Every line is mapped onto a line and every line is reached, and a power of two
from 8 on leaves no slot outside of a line. A shorter queue has all its entries zero. -/
lemma isPermutation_true_iff {k : ℕ} (hpow : qlen.toNat = 2 ^ k) (h2 : 2 ≤ qlen.toNat) :
    IsPermutation (qslotmap shuffles qlen true) qlen.toNat ↔
      8 ≤ qlen.toNat ∧ qlen.toNat ≤ 65536 := by
  constructor
  · intro h
    refine ⟨?_, le_of_isPermutation h⟩
    by_contra hlt
    have heq : qslotmap shuffles qlen true 0 = qslotmap shuffles qlen true 1 := by
      rw [qslotmap_true_of_lt (by omega), qslotmap_true_of_lt (by omega)]
    have h0 : 0 < qlen.toNat := by omega
    have h1 : 1 < qlen.toNat := by omega
    exact Nat.zero_ne_one (h.injOn h0 h1 heq)
  · rintro ⟨h8, hlen⟩
    have hk : 3 ≤ k := by
      rw [hpow] at h8
      exact (Nat.pow_le_pow_iff_right (by decide : 1 < 2)).mp h8
    have hdvd : entriesPerLine ∣ qlen.toNat := hpow ▸ Nat.pow_dvd_pow 2 hk
    have h := bijOn_of_blocks (by decide) (fun _ hj => image_qslotmap_block hlen hj)
      (fun _ hg => @exists_image_qslotmap_eq shuffles _ hlen _ hg)
    rwa [Nat.div_mul_cancel hdvd] at h

end Table

/-- **The slot map is a permutation exactly where the queue needs it**: in zeroed memory and for
every length that is a power of two from 2 on, without shuffle exactly up to the length 65536, and
with shuffle, whatever each shuffle makes of its vector, exactly from 8 to 65536; in that case every
cache line is mapped onto a cache line.

**Proof sketch.** Without shuffle entry `i` is `i` modulo `2 ^ 16`. With shuffle every line is
mapped onto the line whose start has come to its place in `v`, because `u` holds the slots of that
line in some order. -/
theorem qslotmap_permutation_iff (shuffles : Shuffles) {qlen : Word} {k : ℕ}
    (hpow : qlen.toNat = 2 ^ k) (h2 : 2 ≤ qlen.toNat) :
    (IsPermutation (qslotmap shuffles qlen false) qlen.toNat ↔ qlen.toNat ≤ 65536) ∧
    (IsPermutation (qslotmap shuffles qlen true) qlen.toNat ↔
      8 ≤ qlen.toNat ∧ qlen.toNat ≤ 65536) ∧
    (8 ≤ qlen.toNat → qlen.toNat ≤ 65536 → ∀ j < qlen.toNat / entriesPerLine,
      ∃ g < qlen.toNat / entriesPerLine,
        qslotmap shuffles qlen true '' block entriesPerLine j = block entriesPerLine g) :=
  ⟨isPermutation_false_iff, isPermutation_true_iff hpow h2,
    fun _ hlen _ hj => image_qslotmap_block hlen hj⟩

/-- Every shuffle reverses its vector. -/
def reversed : Shuffles :=
  ⟨⟨List.reverse, List.reverse_perm⟩, fun _ => ⟨List.reverse, List.reverse_perm⟩⟩

/-- A queue of two cache lines. -/
theorem qslotmap_permutation_sixteen :
    IsPermutation (qslotmap reversed 16#32 false) 16 ∧
    IsPermutation (qslotmap reversed 16#32 true) 16 ∧
    ∃ g < 2, qslotmap reversed 16#32 true '' block entriesPerLine 0 = block entriesPerLine g := by
  obtain ⟨hfalse, htrue, hlines⟩ :=
    @qslotmap_permutation_iff reversed 16#32 4 rfl (Nat.le_of_ble_eq_true rfl)
  have h8 : 8 ≤ (16#32).toNat := Nat.le_of_ble_eq_true rfl
  have hlen : (16#32).toNat ≤ 65536 := Nat.le_of_ble_eq_true rfl
  exact ⟨hfalse.mpr hlen, htrue.mpr ⟨h8, hlen⟩, hlines h8 hlen 0 Nat.two_pos⟩

/-! ## The queue with its table -/

/-- The table that `main` sets up is a permutation for a length that the slots can count, and at
least a cache line if it is shuffled. -/
lemma isPermutation_qslotmap (shuffles : Shuffles) {qlen : Word} {k : ℕ}
    (hpow : qlen.toNat = 2 ^ k) (h2 : 2 ≤ qlen.toNat) (hlen : qlen.toNat ≤ 65536) {shuffle : Bool}
    (hshuffle : shuffle = true → 8 ≤ qlen.toNat) :
    IsPermutation (qslotmap shuffles qlen shuffle) qlen.toNat := by
  cases shuffle with
  | false => exact isPermutation_false_iff.mpr hlen
  | true => exact (isPermutation_true_iff hpow h2).mpr ⟨hshuffle rfl, hlen⟩

/-- A permutation is what the queue asks of its slot map. -/
def IsPermutation.toSlotMap {map : ℕ → ℕ} {n : ℕ} (h : IsPermutation map n) : SlotMap n :=
  ⟨map, fun _ hi => h.mapsTo hi, fun _ hi _ hj heq => h.injOn hi hj heq⟩

/-- **The queue with the table that `main` sets up**, for a length that `blq_init` accepts and the
slots can count, and at least a cache line if it is shuffled: every run keeps the invariant. -/
theorem queueInv_of_qslotmap {blq : Blq} {qlen : Word} (h : blqInit Blq.zero qlen = some blq)
    (hlen : qlen.toNat ≤ 65536) {shuffle : Bool} (hshuffle : shuffle = true → 8 ≤ qlen.toNat)
    (shuffles : Shuffles) {as : List QueueAct} {t : QueueState}
    (hrun : run (queueStep (qslotmap shuffles qlen shuffle)) (QueueState.start blq) as = some t) :
    QueueInv qlen.toNat (qslotmap shuffles qlen shuffle) t := by
  obtain ⟨⟨k, hpow⟩, h2, -⟩ := blqInit_eq_some h
  have hperm := isPermutation_qslotmap shuffles hpow h2 hlen hshuffle
  exact invariant_of_run (fun _ _ _ hinv hstep =>
      @queueStep_inv _ _ hperm.toSlotMap _ _ hpow qlen.isLt _ hinv hstep)
    (queueInv_start h _) hrun

end Huc
