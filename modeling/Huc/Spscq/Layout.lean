import Huc.Lib.Alignment
import Huc.Spscq.Queue

set_option relaxedAutoImplicit false
set_option autoImplicit false

/-!
# The queue in memory

`Huc.Blq` is the queue as a record. In memory, `struct Blq` of `guestend/simplified-spscq/spscq.h`
is a header of 640 bytes, spread over blocks of `SPSCQ_ALIGN_SIZE` bytes by alignment, with the
slots behind it; `blq_create` allocates `blq_size(qlen)` bytes for it, and the slot map is a table
of 16-bit entries elsewhere. Here `lq_write` and `lq_read` are loads and stores at addresses. They
have the same runs as on the record, they stay inside the allocation, and what the alignment is
there for holds: no cache line is stored to by both sides.

## Main definitions

* `Huc.blqOffsets`, `Huc.blqSize` — the layout of `struct Blq`, and `blq_size`.
* `Huc.QueuePlace` — the addresses of the queue and of the slot map.
* `Huc.blqCreate`, `Huc.blqFree` — `blq_create`, and what `blq_free` frees.
* `Huc.IndexInv` — the invariant of the indices, for every slot map.
* `Huc.MemQueue`, `Huc.memQueueStep` — the accesses of both sides on byte memory.

## Main results

* `Huc.blqAt_blqCreate` — a created queue is an initialised one.
* `Huc.queueStep_indexInv` — every access keeps the indices below the length.
* `Huc.memAccesses_ok` — what one step does on the record, and where its accesses go.
* `Huc.memQueue_run` — the runs on memory are the runs on the record.
* `Huc.memQueue_inBounds` — where the accesses go in every run.
-/

namespace Huc

open Transition Alignment

/-! ## The layout -/

/-- `SPSCQ_ALIGN_SIZE`. -/
def spscqAlignSize : ℕ := 128

/-- The members of `struct Blq` with size and alignment: `write_priv`, `read_shadow`, `write`,
`read_priv`, `write_shadow`, `read`, `qlen`, `qmask` and `q[0]`. -/
def blqMembers : List (ℕ × ℕ) :=
  [(4, spscqAlignSize), (4, 4), (4, spscqAlignSize), (4, spscqAlignSize), (4, 4),
    (4, spscqAlignSize), (4, spscqAlignSize), (4, 4), (0, spscqAlignSize)]

/-- The offsets of the members. -/
def blqOffsets : List ℕ := offsets 0 blqMembers

/-- `offsetof(struct Blq, write)`. -/
def offsetWrite : ℕ := blqOffsets.getD 2 0

/-- `offsetof(struct Blq, read)`. -/
def offsetRead : ℕ := blqOffsets.getD 5 0

/-- `offsetof(struct Blq, qlen)`. -/
def offsetQlen : ℕ := blqOffsets.getD 6 0

/-- `offsetof(struct Blq, qmask)`. -/
def offsetQmask : ℕ := blqOffsets.getD 7 0

/-- `offsetof(struct Blq, q)`. -/
def offsetQ : ℕ := blqOffsets.getD 8 0

/-- `SPSCQ_ALIGNED_SIZE`. -/
def spscqAlignedSize (sz : BitVec 64) : BitVec 64 := (sz + 127#64) &&& ~~~127#64

/-- `blq_size`, for a length passed as `int`. -/
def blqSize (qlen : Word) : BitVec 64 :=
  spscqAlignedSize (BitVec.ofNat 64 (structSize blqMembers) + qlen.signExtend 64 * 8#64)

/-- Each of the two indices is in a block of its own, and so are the two constants and the slots. -/
lemma blqOffsets_eq : blqOffsets = [0, 4, 128, 256, 260, 384, 512, 516, 640] := by decide

@[simp] lemma offsetWrite_eq : offsetWrite = 128 := by decide
@[simp] lemma offsetRead_eq : offsetRead = 384 := by decide
@[simp] lemma offsetQlen_eq : offsetQlen = 512 := by decide
@[simp] lemma offsetQmask_eq : offsetQmask = 516 := by decide
@[simp] lemma offsetQ_eq : offsetQ = 640 := by decide

/-- **The size of a queue**: the header and eight bytes for each slot, aligned. -/
lemma toNat_blqSize {qlen : Word} (h : qlen.toNat < 2 ^ 31) :
    (blqSize qlen).toNat = alignUp (640 + 8 * qlen.toNat) 128 := by
  have hstruct : structSize blqMembers = 640 := by decide
  have hmsb : qlen.msb = false := BitVec.msb_eq_false_iff_two_mul_lt.mpr (by omega)
  have hsz : (BitVec.ofNat 64 (structSize blqMembers) + qlen.signExtend 64 * 8#64).toNat =
      640 + 8 * qlen.toNat := by
    rw [hstruct, BitVec.signExtend_eq_setWidth_of_msb_false hmsb, BitVec.toNat_add,
      BitVec.toNat_mul, BitVec.toNat_setWidth, BitVec.toNat_ofNat, BitVec.toNat_ofNat]
    omega
  have halign := @toNat_add_and_not 64 7
    (BitVec.ofNat 64 (structSize blqMembers) + qlen.signExtend 64 * 8#64) 127#64 (by decide)
    (by decide) (by omega)
  rwa [hsz] at halign

/-- An accepted length is positive as an `int`. -/
lemma lt_of_blqInit {blq blq' : Blq} {qlen : Word} (h : blqInit blq qlen = some blq') :
    qlen.toNat < 2 ^ 31 := by
  unfold blqInit at h
  split_ifs at h with hc
  simp only [Bool.or_eq_true, not_or, Bool.not_eq_true] at hc
  have hle : (2#32).toInt ≤ qlen.toInt := by
    rw [BitVec.slt, decide_eq_false_iff_not, not_lt] at hc
    exact hc.1
  rw [show (2#32).toInt = 2 by decide, BitVec.toInt_eq_toNat_cond] at hle
  split_ifs at hle <;> omega

/-- The slots of an accepted queue are inside its allocation. -/
lemma le_blqSize {blq blq' : Blq} {qlen : Word} (h : blqInit blq qlen = some blq') :
    640 + 8 * qlen.toNat ≤ (blqSize qlen).toNat := by
  rw [toNat_blqSize (lt_of_blqInit h)]
  exact le_alignUp (by decide)

/-! ## The queue in memory -/

/-- Where the queue and the slot map are: the queue at an address that `szalloc` may return, the
table of the slot map apart from it. -/
structure QueuePlace (qlen : Word) where
  blq : ℕ
  smap : ℕ
  blq_aligned : spscqAlignSize ∣ blq
  smap_aligned : 2 ∣ smap
  apart : blq + (blqSize qlen).toNat ≤ smap ∨ smap + 2 * qlen.toNat ≤ blq

section Place

variable {qlen : Word} (p : QueuePlace qlen)

/-- The address of slot `i` of the queue. -/
def QueuePlace.slot (i : ℕ) : ℕ := p.blq + offsetQ + 8 * i

/-- The address of entry `i` of the slot map. -/
def QueuePlace.entry (i : ℕ) : ℕ := p.smap + 2 * i

/-- The queue in memory as a record. -/
def blqAt (mem : ByteMem) : Blq where
  write := mem.word (p.blq + offsetWrite)
  read := mem.word (p.blq + offsetRead)
  qlen := mem.word (p.blq + offsetQlen)
  qmask := mem.word (p.blq + offsetQmask)
  q i := if i < qlen.toNat then mem.dword (p.slot i) else 0#64

/-- `blq_create`: `szalloc` zeroes the allocation, and `blq_init` checks the length and stores the
two constants. -/
def blqCreate (mem : ByteMem) : Option ByteMem :=
  let mem := mem.write p.blq (List.replicate (blqSize qlen).toNat 0#8)
  if qlen.slt 2#32 || !isPowerOfTwo qlen then none
  else
    some ((mem.write (p.blq + offsetQlen) (leBytes qlen)).write (p.blq + offsetQmask)
      (leBytes (qlen - 1#32)))

/-- `blq_free`, with the size it passes to `sfree`: the header is zeroed before the length in it is
read. -/
def blqFree (mem : ByteMem) : ByteMem × BitVec 64 :=
  let mem := mem.write p.blq (List.replicate (structSize blqMembers) 0#8)
  (mem, blqSize (mem.word (p.blq + offsetQlen)))

/-- **A queue is freed with the size of an empty one**, whatever its length. -/
lemma blqFree_size (mem : ByteMem) : (blqFree p mem).2 = 640#64 := by
  have hstruct : structSize blqMembers = 640 := by decide
  rw [blqFree, offsetQlen_eq, ByteMem.word_write_replicate _ (by omega) (by omega)]
  exact (by decide : blqSize 0#32 = 640#64)

/-- A store to `q->write` on the record. -/
lemma blqAt_write_write (mem : ByteMem) (w : Word) :
    blqAt p (mem.write (p.blq + offsetWrite) (leBytes w)) = { blqAt p mem with write := w } := by
  simp only [blqAt, QueuePlace.slot, offsetWrite_eq, offsetRead_eq, offsetQlen_eq, offsetQmask_eq,
    offsetQ_eq, ByteMem.word_write_self, Blq.mk.injEq, true_and]
  refine ⟨?_, ?_, ?_, ?_⟩
  · exact ByteMem.word_write_of_disjoint _ _ (Or.inr (by rw [length_leBytes]; omega))
  · exact ByteMem.word_write_of_disjoint _ _ (Or.inr (by rw [length_leBytes]; omega))
  · exact ByteMem.word_write_of_disjoint _ _ (Or.inr (by rw [length_leBytes]; omega))
  · funext i
    rw [ByteMem.dword_write_of_disjoint _ _ (Or.inr (by rw [length_leBytes]; omega))]

/-- A store to `q->read` on the record. -/
lemma blqAt_write_read (mem : ByteMem) (w : Word) :
    blqAt p (mem.write (p.blq + offsetRead) (leBytes w)) = { blqAt p mem with read := w } := by
  simp only [blqAt, QueuePlace.slot, offsetWrite_eq, offsetRead_eq, offsetQlen_eq, offsetQmask_eq,
    offsetQ_eq, ByteMem.word_write_self, Blq.mk.injEq, true_and]
  refine ⟨?_, ?_, ?_, ?_⟩
  · exact ByteMem.word_write_of_disjoint _ _ (Or.inl (by omega))
  · exact ByteMem.word_write_of_disjoint _ _ (Or.inr (by rw [length_leBytes]; omega))
  · exact ByteMem.word_write_of_disjoint _ _ (Or.inr (by rw [length_leBytes]; omega))
  · funext i
    rw [ByteMem.dword_write_of_disjoint _ _ (Or.inr (by rw [length_leBytes]; omega))]

/-- A store to a slot on the record. -/
lemma blqAt_write_slot (mem : ByteMem) {j : ℕ} (hj : j < qlen.toNat) (m : Ptr) :
    blqAt p (mem.write (p.slot j) (leBytes64 m)) =
      { blqAt p mem with q := Function.update (blqAt p mem).q j m } := by
  have hword : ∀ a ≤ 636,
      (mem.write (p.slot j) (leBytes64 m)).word (p.blq + a) = mem.word (p.blq + a) := by
    intro a ha
    refine ByteMem.word_write_of_disjoint _ _ (Or.inl ?_)
    rw [QueuePlace.slot, offsetQ_eq]
    omega
  simp only [blqAt, offsetWrite_eq, offsetRead_eq, offsetQlen_eq, offsetQmask_eq,
    hword 128 (by omega), hword 384 (by omega), hword 512 (by omega), hword 516 (by omega),
    Blq.mk.injEq, true_and]
  funext i
  by_cases hij : i = j
  · rw [hij, Function.update_self, if_pos hj, ByteMem.dword_write_self]
  · rw [Function.update_of_ne hij, ByteMem.dword_write_of_disjoint]
    rw [length_leBytes64, QueuePlace.slot, QueuePlace.slot]
    omega

/-- The record depends on the bytes of the queue only. -/
lemma blqAt_congr {p : QueuePlace qlen} {mem mem' : ByteMem}
    (hsize : 640 + 8 * qlen.toNat ≤ (blqSize qlen).toNat)
    (h : ∀ y, p.blq ≤ y → y < p.blq + (blqSize qlen).toNat → mem y = mem' y) :
    blqAt p mem = blqAt p mem' := by
  have hword : ∀ a ≤ 636, mem.word (p.blq + a) = mem'.word (p.blq + a) := fun a ha =>
    ByteMem.word_congr fun y hy hy' => h y (by omega) (by omega)
  simp only [blqAt, QueuePlace.slot, offsetWrite_eq, offsetRead_eq, offsetQlen_eq, offsetQmask_eq,
    offsetQ_eq, hword 128 (by omega), hword 384 (by omega), hword 512 (by omega),
    hword 516 (by omega), Blq.mk.injEq, true_and]
  funext i
  split_ifs with hi
  · exact ByteMem.dword_congr fun y hy hy' => h y (by omega) (by omega)
  · rfl

/-- **A created queue is an initialised one**, and nothing outside the allocation has changed.

**Proof sketch.** The allocation is zeroed first, and then only the two constants are stored, which
no other member and no slot overlaps. -/
lemma blqAt_blqCreate {mem mem' : ByteMem} {p : QueuePlace qlen} (h : blqCreate p mem = some mem') :
    blqInit Blq.zero qlen = some (blqAt p mem') ∧
      ∀ x, x < p.blq ∨ p.blq + (blqSize qlen).toNat ≤ x → mem' x = mem x := by
  unfold blqCreate at h
  split_ifs at h with hc
  obtain rfl := Option.some.inj h
  have hinit : blqInit Blq.zero qlen =
      some { Blq.zero with qlen := qlen, qmask := qlen - 1#32 } := if_neg hc
  have hle := le_blqSize hinit
  have hword : ∀ a, a + 4 ≤ (blqSize qlen).toNat →
      ByteMem.word (mem.write p.blq (List.replicate (blqSize qlen).toNat 0#8)) (p.blq + a) =
        0#32 :=
    fun a ha => ByteMem.word_write_replicate _ (by omega) (by omega)
  constructor
  · rw [hinit]
    simp only [blqAt, QueuePlace.slot, offsetWrite_eq, offsetRead_eq, offsetQlen_eq,
      offsetQmask_eq, offsetQ_eq, Option.some.injEq, Blq.zero, Blq.mk.injEq]
    refine ⟨?_, ?_, ?_, ?_, ?_⟩
    · rw [ByteMem.word_write_of_disjoint _ _ (Or.inl (by omega)),
        ByteMem.word_write_of_disjoint _ _ (Or.inl (by omega)), hword _ (by omega)]
    · rw [ByteMem.word_write_of_disjoint _ _ (Or.inl (by omega)),
        ByteMem.word_write_of_disjoint _ _ (Or.inl (by omega)), hword _ (by omega)]
    · rw [ByteMem.word_write_of_disjoint _ _ (Or.inl (by omega)), ByteMem.word_write_self]
    · rw [ByteMem.word_write_self]
    · funext i
      split_ifs with hi
      · rw [ByteMem.dword_write_of_disjoint _ _ (Or.inr (by rw [length_leBytes]; omega)),
          ByteMem.dword_write_of_disjoint _ _ (Or.inr (by rw [length_leBytes]; omega)),
          ByteMem.dword, Nat.add_assoc, Nat.add_assoc, hword _ (by omega), Nat.add_assoc,
          hword _ (by omega)]
        rfl
      · rfl
  · intro x hx
    rcases hx with hlt | hge
    · rw [ByteMem.write_apply_of_lt _ _ (by omega), ByteMem.write_apply_of_lt _ _ (by omega),
        ByteMem.write_apply_of_lt _ _ hlt]
    · rw [ByteMem.write_apply_of_ge _ _ (by rw [length_leBytes, offsetQmask_eq]; omega),
        ByteMem.write_apply_of_ge _ _ (by rw [length_leBytes, offsetQlen_eq]; omega),
        ByteMem.write_apply_of_ge _ _ (by rwa [List.length_replicate])]

end Place

/-! ## The indices -/

/-- The indices that a call of `lq_write` in progress holds. -/
def LqWrite.indices : LqWrite → List Word
  | .idle => []
  | .loadRead _ write => [write]
  | .storeSlot _ write next => [write, next]
  | .storeWrite _ next => [next]

/-- The indices that a call of `lq_read` in progress holds. -/
def LqRead.indices : LqRead → List Word
  | .loadRead => []
  | .loadWrite read => [read]
  | .loadSlot read => [read]
  | .storeRead read _ => [read]

/-- The indices in the queue and in the two calls. -/
def QueueState.indices (s : QueueState) : List Word :=
  s.blq.write :: s.blq.read :: (s.writer.indices ++ s.reader.indices)

/-- **The invariant of the indices**: they are below the length. Unlike `QueueInv` it says nothing
of the values, and so it holds whatever the slot map is. -/
structure IndexInv (n : ℕ) (s : QueueState) : Prop where
  mask : s.blq.qmask.toNat < n
  lt : ∀ i ∈ s.indices, i.toNat < n

section Indices

variable {smap : ℕ → ℕ} {n : ℕ} {s t : QueueState}

/-- An index is one of the queue or one that a call in progress holds. -/
lemma QueueState.mem_indices {i : Word} : i ∈ s.indices ↔
    i = s.blq.write ∨ i = s.blq.read ∨ i ∈ s.writer.indices ∨ i ∈ s.reader.indices := by
  rw [QueueState.indices, List.mem_cons, List.mem_cons, List.mem_append]

/-- A masked number is at most the mask. -/
lemma toNat_and_lt (x : Word) {mask : Word} (h : mask.toNat < n) : (x &&& mask).toNat < n := by
  rw [BitVec.toNat_and]
  exact Nat.lt_of_le_of_lt Nat.and_le_right h

/-- The start of a call of `lq_write` copies an index. -/
lemma indices_startWrite {m : Ptr} (hstep : startWrite s m = some t) :
    t.blq.qmask = s.blq.qmask ∧ ∀ i ∈ t.indices, i ∈ s.indices := by
  obtain ⟨-, rfl⟩ := startWrite_cases hstep
  refine ⟨rfl, fun i hi => ?_⟩
  simp only [QueueState.mem_indices, LqWrite.indices, List.mem_cons,
    List.not_mem_nil, or_false] at hi ⊢
  tauto

/-- An access of `lq_write` copies indices, or masks the next one.

**Proof sketch.** By the access. Only the load of `q->read` makes an index that was not there, and
masks it. -/
lemma indices_writerStep (hstep : writerStep smap s = some t) :
    t.blq.qmask = s.blq.qmask ∧
      ∀ i ∈ t.indices, i ∈ s.indices ∨ ∃ x, i = x &&& s.blq.qmask := by
  unfold writerStep at hstep
  cases hw : s.writer with
  | idle => simp [hw] at hstep
  | loadRead m write =>
    simp only [hw] at hstep
    split_ifs at hstep
    · obtain rfl := Option.some.inj hstep
      refine ⟨rfl, fun i hi => Or.inl ?_⟩
      simp only [QueueState.mem_indices, hw, LqWrite.indices, List.mem_cons,
        List.not_mem_nil, false_or, or_false] at hi ⊢
      tauto
    · obtain rfl := Option.some.inj hstep
      refine ⟨rfl, fun i hi => ?_⟩
      simp only [QueueState.mem_indices, hw, LqWrite.indices, List.mem_cons,
        List.not_mem_nil, or_false] at hi ⊢
      rcases hi with hi | hi | (hi | rfl) | hi
      · exact Or.inl (Or.inl hi)
      · exact Or.inl (Or.inr (Or.inl hi))
      · exact Or.inl (Or.inr (Or.inr (Or.inl hi)))
      · exact Or.inr ⟨_, rfl⟩
      · exact Or.inl (Or.inr (Or.inr (Or.inr hi)))
  | storeSlot m write next =>
    simp only [hw] at hstep
    obtain rfl := Option.some.inj hstep
    refine ⟨rfl, fun i hi => Or.inl ?_⟩
    simp only [QueueState.mem_indices, hw, LqWrite.indices, List.mem_cons,
      List.not_mem_nil, or_false] at hi ⊢
    tauto
  | storeWrite m next =>
    simp only [hw] at hstep
    obtain rfl := Option.some.inj hstep
    refine ⟨rfl, fun i hi => Or.inl ?_⟩
    simp only [QueueState.mem_indices, hw, LqWrite.indices, List.mem_cons,
      List.not_mem_nil, false_or, or_false] at hi ⊢
    tauto

/-- An access of `lq_read` copies indices, or masks the next one.

**Proof sketch.** By the access. Only the store to `q->read` makes an index that was not there, and
masks it. -/
lemma indices_readerStep :
    (readerStep smap s).blq.qmask = s.blq.qmask ∧
      ∀ i ∈ (readerStep smap s).indices, i ∈ s.indices ∨ ∃ x, i = x &&& s.blq.qmask := by
  unfold readerStep
  cases hr : s.reader with
  | loadRead =>
    refine ⟨rfl, fun i hi => Or.inl ?_⟩
    simp only [QueueState.mem_indices, hr, LqRead.indices, List.mem_cons,
      List.not_mem_nil, or_false] at hi ⊢
    tauto
  | loadWrite read =>
    simp only
    split_ifs
    · refine ⟨rfl, fun i hi => Or.inl ?_⟩
      simp only [QueueState.mem_indices, hr, LqRead.indices, List.mem_cons,
        List.not_mem_nil, or_false] at hi ⊢
      tauto
    · refine ⟨rfl, fun i hi => Or.inl ?_⟩
      simpa only [QueueState.indices, hr, LqRead.indices] using hi
  | loadSlot read =>
    refine ⟨rfl, fun i hi => Or.inl ?_⟩
    simpa only [QueueState.indices, hr, LqRead.indices] using hi
  | storeRead read m =>
    refine ⟨rfl, fun i hi => ?_⟩
    simp only [QueueState.mem_indices, hr, LqRead.indices, List.mem_cons,
      List.not_mem_nil, or_false] at hi ⊢
    rcases hi with hi | rfl | hi
    · exact Or.inl (Or.inl hi)
    · exact Or.inr ⟨_, rfl⟩
    · exact Or.inl (Or.inr (Or.inr (Or.inl hi)))

/-- **Every access keeps the indices below the length**, since a masked value is at most the
mask. -/
lemma queueStep_indexInv (h : IndexInv n s) {a : QueueAct} (hstep : queueStep smap s a = some t) :
    IndexInv n t := by
  have hcases : t.blq.qmask = s.blq.qmask ∧
      ∀ i ∈ t.indices, i ∈ s.indices ∨ ∃ x, i = x &&& s.blq.qmask := by
    cases a with
    | lqWrite m =>
      obtain ⟨hmask, hmem⟩ := indices_startWrite hstep
      exact ⟨hmask, fun i hi => Or.inl (hmem i hi)⟩
    | producer => exact indices_writerStep hstep
    | consumer =>
      obtain rfl := Option.some.inj hstep
      exact indices_readerStep
  obtain ⟨hmask, hmem⟩ := hcases
  refine ⟨hmask ▸ h.mask, fun i hi => ?_⟩
  rcases hmem i hi with hold | ⟨x, rfl⟩
  · exact h.lt i hold
  · exact toNat_and_lt x h.mask

/-- The indices of an initialised queue are zero. -/
lemma indexInv_start {blq : Blq} {qlen : Word} (h : blqInit Blq.zero qlen = some blq) :
    IndexInv qlen.toNat (QueueState.start blq) := by
  obtain ⟨-, h2, rfl⟩ := blqInit_eq_some h
  refine ⟨?_, fun i hi => ?_⟩
  · show (qlen - 1#32).toNat < qlen.toNat
    rw [toNat_sub_one (by omega)]
    omega
  · simp only [QueueState.indices, QueueState.start, LqWrite.indices, LqRead.indices, Blq.zero,
      List.append_nil, List.mem_cons, List.not_mem_nil, or_false, or_self] at hi
    rw [hi]
    show 0 < qlen.toNat
    omega

/-- The invariant of the values has that of the indices in it.

**Proof sketch.** The two indices of the queue are numbers modulo the length. What a call in
progress holds is one of them or a masked number, and the mask is one less than the length. -/
lemma QueueInv.index (h : QueueInv n smap s) : IndexInv n s := by
  have hpos : 0 < n := by
    have := h.taken_prefix.length_le
    have := h.length_lt
    omega
  have hmask : s.blq.qmask.toNat < n := by
    rw [h.mask]
    omega
  have hwrite : s.blq.write.toNat < n := h.write_eq ▸ Nat.mod_lt _ hpos
  have hread : s.blq.read.toNat < n := h.read_eq ▸ Nat.mod_lt _ hpos
  refine ⟨hmask, fun i hi => ?_⟩
  rcases QueueState.mem_indices.mp hi with rfl | rfl | hi | hi
  · exact hwrite
  · exact hread
  · have hok := h.writer_ok
    unfold QueueState.WriterOk at hok
    cases hw : s.writer with
    | idle => simp [hw, LqWrite.indices] at hi
    | loadRead m write =>
      simp only [hw, LqWrite.indices, List.mem_singleton] at hi hok
      rw [hi, hok.2]
      exact hwrite
    | storeSlot m write next =>
      simp only [hw, LqWrite.indices, List.mem_cons, List.not_mem_nil, or_false] at hi hok
      obtain ⟨-, rfl, rfl, -⟩ := hok
      rcases hi with rfl | rfl
      · exact hwrite
      · exact toNat_and_lt _ hmask
    | storeWrite m next =>
      simp only [hw, LqWrite.indices, List.mem_singleton] at hi hok
      rw [hi, hok.2.1]
      exact toNat_and_lt _ hmask
  · have hok := h.reader_ok
    unfold QueueState.ReaderOk at hok
    cases hr : s.reader with
    | loadRead => simp [hr, LqRead.indices] at hi
    | loadWrite read =>
      simp only [hr, LqRead.indices, List.mem_singleton] at hi hok
      rw [hi, hok]
      exact hread
    | loadSlot read =>
      simp only [hr, LqRead.indices, List.mem_singleton] at hi hok
      rw [hi, hok.1]
      exact hread
    | storeRead read m =>
      simp only [hr, LqRead.indices, List.mem_singleton] at hi hok
      rw [hi, hok.1]
      exact hread

end Indices

/-! ## The accesses -/

/-- A load or a store of `size` bytes. -/
structure MemAccess where
  isStore : Bool
  addr : ℕ
  size : ℕ
  deriving DecidableEq

/-- The memory, with the two calls in progress and what they have written and returned. -/
structure MemQueue where
  mem : ByteMem
  writer : LqWrite
  reader : LqRead
  written : List Ptr
  writeReturns : List (Ptr × ℤ)
  readReturns : List Ptr

/-- Before the first call. -/
def MemQueue.start (mem : ByteMem) : MemQueue := ⟨mem, .idle, .loadRead, [], [], []⟩

section Steps

variable {qlen : Word} (p : QueuePlace qlen)

/-- The state with the queue in memory as a record. -/
def MemQueue.toQueue (s : MemQueue) : QueueState :=
  ⟨blqAt p s.mem, s.writer, s.reader, s.written, s.writeReturns, s.readReturns⟩

/-- The load of `q->write` that starts a call `lq_write(q, m)`. -/
def memStartWrite (s : MemQueue) (m : Ptr) : Option (List MemAccess × MemQueue) :=
  match s.writer with
  | .idle =>
    if m ≠ 0#64 then
      some ([⟨false, p.blq + offsetWrite, 4⟩],
        { s with writer := .loadRead m (s.mem.word (p.blq + offsetWrite)) })
    else none
  | _ => none

/-- The next access of the call of `lq_write` in progress, with the load of a constant or of the
slot map that goes with it. -/
def memWriterStep (s : MemQueue) : Option (List MemAccess × MemQueue) :=
  match s.writer with
  | .idle => none
  | .loadRead m write =>
    let next := (write + 1#32) &&& s.mem.word (p.blq + offsetQmask)
    some ([⟨false, p.blq + offsetQmask, 4⟩, ⟨false, p.blq + offsetRead, 4⟩],
      if next = s.mem.word (p.blq + offsetRead) then
        { s with writer := .idle, writeReturns := s.writeReturns ++ [(m, -1)] }
      else { s with writer := .storeSlot m write next })
  | .storeSlot m write next =>
    let slot := p.slot (s.mem.half (p.entry write.toNat)).toNat
    some ([⟨false, p.entry write.toNat, 2⟩, ⟨true, slot, 8⟩],
      { s with mem := s.mem.write slot (leBytes64 m), writer := .storeWrite m next })
  | .storeWrite m next =>
    some ([⟨true, p.blq + offsetWrite, 4⟩],
      { s with
        mem := s.mem.write (p.blq + offsetWrite) (leBytes next)
        writer := .idle
        written := s.written ++ [m]
        writeReturns := s.writeReturns ++ [(m, 0)] })

/-- The next access of the consumer's call of `lq_read`. -/
def memReaderStep (s : MemQueue) : List MemAccess × MemQueue :=
  match s.reader with
  | .loadRead =>
    ([⟨false, p.blq + offsetRead, 4⟩],
      { s with reader := .loadWrite (s.mem.word (p.blq + offsetRead)) })
  | .loadWrite read =>
    ([⟨false, p.blq + offsetWrite, 4⟩],
      if read = s.mem.word (p.blq + offsetWrite) then
        { s with reader := .loadRead, readReturns := s.readReturns ++ [0#64] }
      else { s with reader := .loadSlot read })
  | .loadSlot read =>
    let slot := p.slot (s.mem.half (p.entry read.toNat)).toNat
    ([⟨false, p.entry read.toNat, 2⟩, ⟨false, slot, 8⟩],
      { s with reader := .storeRead read (s.mem.dword slot) })
  | .storeRead read m =>
    ([⟨false, p.blq + offsetQmask, 4⟩, ⟨true, p.blq + offsetRead, 4⟩],
      { s with
        mem := s.mem.write (p.blq + offsetRead)
          (leBytes ((read + 1#32) &&& s.mem.word (p.blq + offsetQmask)))
        reader := .loadRead
        readReturns := s.readReturns ++ [m] })

/-- One step of either side, with its accesses. -/
def memAccesses (s : MemQueue) : QueueAct → Option (List MemAccess × MemQueue)
  | .lqWrite m => memStartWrite p s m
  | .producer => memWriterStep p s
  | .consumer => some (memReaderStep p s)

/-- One step of either side. -/
def memQueueStep (s : MemQueue) (a : QueueAct) : Option MemQueue := (memAccesses p s a).map Prod.snd

/-- The block of `SPSCQ_ALIGN_SIZE` bytes of the queue that an address is in. -/
def QueuePlace.blockOf (addr : ℕ) : ℕ := (addr - p.blq) / spscqAlignSize

/-- **What an access may be**: aligned and inside the queue, or, for a load, inside the slot map;
the consumer stores to the block of `q->read` only, and the producer to the block of `q->write` and
to those of the slots. -/
structure MemAccess.Allowed (a : QueueAct) (x : MemAccess) : Prop where
  aligned : x.size ∣ x.addr
  size_dvd : x.size ∣ spscqAlignSize
  inside : p.blq ≤ x.addr ∧ x.addr + x.size ≤ p.blq + (blqSize qlen).toNat ∨
    x.isStore = false ∧ p.smap ≤ x.addr ∧ x.addr + x.size ≤ p.smap + 2 * qlen.toNat
  consumer : x.isStore = true → a = .consumer → p.blockOf x.addr = p.blockOf (p.blq + offsetRead)
  producer : x.isStore = true → a ≠ .consumer →
    p.blockOf x.addr = p.blockOf (p.blq + offsetWrite) ∨
      p.blockOf (p.blq + offsetQ) ≤ p.blockOf x.addr

/-- The address is in none of the bytes stored to. -/
def Untouched (xs : List MemAccess) (y : ℕ) : Prop :=
  ∀ x ∈ xs, x.isStore = true → y < x.addr ∨ x.addr + x.size ≤ y

/-- What the invariant of the indices says of memory, and the table of the slot map, whose entries
are below the length. -/
structure MemQueue.Ok (smap : ℕ → ℕ) (s : MemQueue) : Prop where
  index : IndexInv qlen.toNat (s.toQueue p)
  entries : ∀ i < qlen.toNat, (s.mem.half (p.entry i)).toNat = smap i
  entries_lt : ∀ i < qlen.toNat, smap i < qlen.toNat

/-- What a step does: a step of the queue as a record, by allowed accesses, to no other bytes. -/
structure StepOk (smap : ℕ → ℕ) (s : MemQueue) (a : QueueAct) (xs : List MemAccess)
    (t : MemQueue) : Prop where
  step : queueStep smap (s.toQueue p) a = some (t.toQueue p)
  allowed : ∀ x ∈ xs, x.Allowed p a
  frame : ∀ y, Untouched xs y → t.mem y = s.mem y

variable {p} {smap : ℕ → ℕ} {s t : MemQueue} {xs : List MemAccess}

/-! ### The addresses -/

/-- A member of the header is a word of the queue, and each side stores to its own index. -/
lemma allowed_header {a : QueueAct} {off : ℕ} {isStore : Bool}
    (hsize : 640 ≤ (blqSize qlen).toNat) (hoff : off + 4 ≤ 640) (h4 : 4 ∣ off)
    (hconsumer : isStore = true → a = .consumer → off = offsetRead)
    (hproducer : isStore = true → a ≠ .consumer → off = offsetWrite) :
    (⟨isStore, p.blq + off, 4⟩ : MemAccess).Allowed p a where
  aligned := (Nat.dvd_add_right ((show 4 ∣ 128 by decide).trans p.blq_aligned)).mpr h4
  size_dvd := (by decide : 4 ∣ 128)
  inside := Or.inl ⟨Nat.le_add_right _ _, by dsimp only; omega⟩
  consumer h ha := by rw [hconsumer h ha]
  producer h ha := Or.inl (by rw [hproducer h ha])

/-- An entry below the length is inside the table. -/
lemma allowed_entry {a : QueueAct} {i : ℕ} (hi : i < qlen.toNat) :
    (⟨false, p.entry i, 2⟩ : MemAccess).Allowed p a where
  aligned := (Nat.dvd_add_right p.smap_aligned).mpr (Nat.dvd_mul_right 2 i)
  size_dvd := (by decide : 2 ∣ 128)
  inside := Or.inr ⟨rfl, Nat.le_add_right _ _, by dsimp only [QueuePlace.entry]; omega⟩
  consumer h := absurd h (by simp)
  producer h := absurd h (by simp)

/-- A slot below the length is inside the queue, in a block behind the header. -/
lemma allowed_slot {a : QueueAct} {i : ℕ} {isStore : Bool}
    (hsize : 640 + 8 * qlen.toNat ≤ (blqSize qlen).toNat) (hi : i < qlen.toNat)
    (hstore : isStore = true → a ≠ .consumer) :
    (⟨isStore, p.slot i, 8⟩ : MemAccess).Allowed p a where
  aligned := by
    have h8 : 8 ∣ p.blq := (show 8 ∣ 128 by decide).trans p.blq_aligned
    simp only [QueuePlace.slot, offsetQ_eq]
    omega
  size_dvd := (by decide : 8 ∣ 128)
  inside := Or.inl (by simp only [QueuePlace.slot, offsetQ_eq]; omega)
  consumer h ha := absurd ha (hstore h)
  producer _ _ := Or.inr (by
    simp only [QueuePlace.blockOf, QueuePlace.slot, offsetQ_eq]
    exact Nat.div_le_div_right (by omega))

/-! ### One step -/

/-- The value that `lq_write` compares and stores, in memory and on the record. -/
lemma qmask_toQueue : (s.toQueue p).blq.qmask = s.mem.word (p.blq + offsetQmask) := rfl

/-- The start of a call of `lq_write`. -/
lemma memStartWrite_ok {m : Ptr} (hsize : 640 ≤ (blqSize qlen).toNat)
    (h : memStartWrite p s m = some (xs, t)) : StepOk p smap s (.lqWrite m) xs t := by
  unfold memStartWrite at h
  cases hw : s.writer with
  | idle =>
    simp only [hw] at h
    split_ifs at h with hm
    obtain ⟨rfl, rfl⟩ := Prod.mk.inj (Option.some.inj h)
    refine ⟨?_, ?_, fun _ _ => rfl⟩
    · simp only [queueStep, startWrite, MemQueue.toQueue, hw, if_pos hm]
      rfl
    · intro x hx
      obtain rfl := List.mem_singleton.mp hx
      exact allowed_header hsize (by simp) (by simp) (by simp) (by simp)
  | loadRead m write => simp [hw] at h
  | storeSlot m write next => simp [hw] at h
  | storeWrite m next => simp [hw] at h

/-- An access of `lq_write`. The invariant keeps the slot index below the length.

**Proof sketch.** By the access. The header's members are read and stored where the record has them.
For the slot, the index held is below the length, so that the entry is in the table; the entry is
below the length, so that the slot is in the queue, and the record sees the store there. -/
lemma memWriterStep_ok (hsize : 640 + 8 * qlen.toNat ≤ (blqSize qlen).toNat)
    (hok : s.Ok p smap) (h : memWriterStep p s = some (xs, t)) :
    StepOk p smap s .producer xs t := by
  unfold memWriterStep at h
  have htoQueue : (s.toQueue p).writer = s.writer := rfl
  cases hw : s.writer with
  | idle => simp [hw] at h
  | loadRead m write =>
    simp only [hw] at h
    obtain ⟨rfl, rfl⟩ := Prod.mk.inj (Option.some.inj h)
    refine ⟨?_, ?_, ?_⟩
    · simp only [queueStep, writerStep, htoQueue, hw, qmask_toQueue]
      change (if _ = s.mem.word (p.blq + offsetRead) then _ else _) = _
      split_ifs <;> rfl
    · intro x hx
      rcases List.mem_cons.mp hx with rfl | hx
      · exact allowed_header (by omega) (by simp) (by simp) (by simp) (by simp)
      · obtain rfl := List.mem_singleton.mp hx
        exact allowed_header (by omega) (by simp) (by simp) (by simp) (by simp)
    · intro y _
      split_ifs <;> rfl
  | storeSlot m write next =>
    simp only [hw] at h
    obtain ⟨rfl, rfl⟩ := Prod.mk.inj (Option.some.inj h)
    have hlt : write.toNat < qlen.toNat := hok.index.lt write (by
      simp [QueueState.mem_indices, htoQueue, hw, LqWrite.indices])
    have hslot := hok.entries write.toNat hlt
    have hslot_lt := hok.entries_lt write.toNat hlt
    refine ⟨?_, ?_, ?_⟩
    · simp only [queueStep, writerStep, hw, hslot, MemQueue.toQueue,
        blqAt_write_slot p s.mem hslot_lt m]
    · intro x hx
      rcases List.mem_cons.mp hx with rfl | hx
      · exact allowed_entry hlt
      · obtain rfl := List.mem_singleton.mp hx
        exact allowed_slot hsize (by rw [hslot]; exact hslot_lt) (by simp)
    · intro y hy
      rcases hy _ (List.mem_cons_of_mem _ List.mem_cons_self) rfl with hlt' | hge
      · exact ByteMem.write_apply_of_lt _ _ hlt'
      · exact ByteMem.write_apply_of_ge _ _ hge
  | storeWrite m next =>
    simp only [hw] at h
    obtain ⟨rfl, rfl⟩ := Prod.mk.inj (Option.some.inj h)
    refine ⟨?_, ?_, ?_⟩
    · simp only [queueStep, writerStep, hw, MemQueue.toQueue,
        blqAt_write_write p s.mem next]
    · intro x hx
      obtain rfl := List.mem_singleton.mp hx
      exact allowed_header (by omega) (by simp) (by simp) (by simp) (by simp)
    · intro y hy
      rcases hy _ List.mem_cons_self rfl with hlt | hge
      · exact ByteMem.write_apply_of_lt _ _ hlt
      · exact ByteMem.write_apply_of_ge _ _ hge

/-- An access of `lq_read`.

**Proof sketch.** By the access, as for `lq_write`; the slot is loaded from inside the queue, where
the record has it. -/
lemma memReaderStep_ok (hsize : 640 + 8 * qlen.toNat ≤ (blqSize qlen).toNat)
    (hok : s.Ok p smap) (h : memReaderStep p s = (xs, t)) : StepOk p smap s .consumer xs t := by
  unfold memReaderStep at h
  have htoQueue : (s.toQueue p).reader = s.reader := rfl
  cases hr : s.reader with
  | loadRead =>
    simp only [hr] at h
    obtain ⟨rfl, rfl⟩ := Prod.mk.inj h
    refine ⟨?_, ?_, fun _ _ => rfl⟩
    · simp only [queueStep, readerStep, htoQueue, hr]
      rfl
    · intro x hx
      obtain rfl := List.mem_singleton.mp hx
      exact allowed_header (by omega) (by simp) (by simp) (by simp) (by simp)
  | loadWrite read =>
    simp only [hr] at h
    obtain ⟨rfl, rfl⟩ := Prod.mk.inj h
    refine ⟨?_, ?_, ?_⟩
    · simp only [queueStep, readerStep, htoQueue, hr]
      change some (if _ = s.mem.word (p.blq + offsetWrite) then _ else _) = _
      split_ifs <;> rfl
    · intro x hx
      obtain rfl := List.mem_singleton.mp hx
      exact allowed_header (by omega) (by simp) (by simp) (by simp) (by simp)
    · intro y _
      split_ifs <;> rfl
  | loadSlot read =>
    simp only [hr] at h
    obtain ⟨rfl, rfl⟩ := Prod.mk.inj h
    have hlt : read.toNat < qlen.toNat := hok.index.lt read (by
      simp [QueueState.mem_indices, htoQueue, hr, LqRead.indices])
    have hslot := hok.entries read.toNat hlt
    have hslot_lt := hok.entries_lt read.toNat hlt
    refine ⟨?_, ?_, fun _ _ => rfl⟩
    · have hq : (blqAt p s.mem).q (smap read.toNat) =
          s.mem.dword (p.slot (smap read.toNat)) := if_pos hslot_lt
      simp only [queueStep, readerStep, hr, hslot, MemQueue.toQueue, hq]
    · intro x hx
      rcases List.mem_cons.mp hx with rfl | hx
      · exact allowed_entry hlt
      · obtain rfl := List.mem_singleton.mp hx
        exact allowed_slot hsize (by rw [hslot]; exact hslot_lt) (by simp)
  | storeRead read m =>
    simp only [hr] at h
    obtain ⟨rfl, rfl⟩ := Prod.mk.inj h
    refine ⟨?_, ?_, ?_⟩
    · simp only [queueStep, readerStep, hr, MemQueue.toQueue,
        blqAt_write_read p s.mem]
      rfl
    · intro x hx
      rcases List.mem_cons.mp hx with rfl | hx
      · exact allowed_header (by omega) (by simp) (by simp) (by simp) (by simp)
      · obtain rfl := List.mem_singleton.mp hx
        exact allowed_header (by omega) (by simp) (by simp) (by simp) (by simp)
    · intro y hy
      rcases hy _ (List.mem_cons_of_mem _ List.mem_cons_self) rfl with hlt | hge
      · exact ByteMem.write_apply_of_lt _ _ hlt
      · exact ByteMem.write_apply_of_ge _ _ hge

/-- **What one step does.** -/
lemma memAccesses_ok (hsize : 640 + 8 * qlen.toNat ≤ (blqSize qlen).toNat) (hok : s.Ok p smap)
    {a : QueueAct} (h : memAccesses p s a = some (xs, t)) : StepOk p smap s a xs t := by
  cases a with
  | lqWrite m => exact memStartWrite_ok (by omega) h
  | producer => exact memWriterStep_ok hsize hok h
  | consumer => exact memReaderStep_ok hsize hok (Option.some.inj h)

/-- A step that cannot be made in memory cannot be made on the record. -/
lemma queueStep_eq_none {a : QueueAct} (h : memAccesses p s a = none) :
    queueStep smap (s.toQueue p) a = none := by
  cases a with
  | lqWrite m =>
    simp only [memAccesses, memStartWrite, queueStep, startWrite, MemQueue.toQueue] at h ⊢
    cases hw : s.writer with
    | idle =>
      simp only [hw] at h ⊢
      split_ifs at h ⊢
      rfl
    | loadRead m' write => rfl
    | storeSlot m' write next => rfl
    | storeWrite m' next => rfl
  | producer =>
    simp only [memAccesses, memWriterStep, queueStep, writerStep, MemQueue.toQueue] at h ⊢
    cases hw : s.writer with
    | idle => rfl
    | loadRead m' write => simp [hw] at h
    | storeSlot m' write next => simp [hw] at h
    | storeWrite m' next => simp [hw] at h
  | consumer => exact absurd h (by simp [memAccesses])

/-- **No byte outside the queue is stored to.** -/
lemma StepOk.eq_outside {a : QueueAct} (hstep : StepOk p smap s a xs t) {y : ℕ}
    (hy : y < p.blq ∨ p.blq + (blqSize qlen).toNat ≤ y) : t.mem y = s.mem y := by
  refine hstep.frame y fun x hx hstore => ?_
  rcases (hstep.allowed x hx).inside with hin | ⟨hload, -⟩
  · omega
  · rw [hstore] at hload
    contradiction

/-- Memory that is the same outside the queue has the same slot map. -/
lemma half_entry_congr {mem mem' : ByteMem}
    (h : ∀ y, y < p.blq ∨ p.blq + (blqSize qlen).toNat ≤ y → mem y = mem' y) {i : ℕ}
    (hi : i < qlen.toNat) : mem.half (p.entry i) = mem'.half (p.entry i) := by
  refine ByteMem.half_congr fun y hy hy' => h y ?_
  have := p.apart
  rw [QueuePlace.entry] at hy hy'
  omega

/-- **Every step keeps the invariant.** -/
lemma StepOk.ok (hok : s.Ok p smap) {a : QueueAct} (hstep : StepOk p smap s a xs t) :
    t.Ok p smap where
  index := queueStep_indexInv hok.index hstep.step
  entries i hi := by
    rw [half_entry_congr (fun _ => hstep.eq_outside) hi]
    exact hok.entries i hi
  entries_lt := hok.entries_lt

/-- A step in memory is the step on the record. -/
lemma map_memQueueStep (hsize : 640 + 8 * qlen.toNat ≤ (blqSize qlen).toNat) (hok : s.Ok p smap)
    (a : QueueAct) :
    (memQueueStep p s a).map (MemQueue.toQueue p) = queueStep smap (s.toQueue p) a := by
  rw [memQueueStep]
  cases h : memAccesses p s a with
  | none => exact (queueStep_eq_none h).symm
  | some q => exact (memAccesses_ok hsize hok h).step.symm

/-! ### Runs -/

/-- What holds of a created queue: its slot map is still in place. -/
lemma ok_start {mem mem' : ByteMem} (hcreate : blqCreate p mem = some mem')
    (hlt : ∀ i < qlen.toNat, smap i < qlen.toNat)
    (hentries : ∀ i < qlen.toNat, (mem.half (p.entry i)).toNat = smap i) :
    (MemQueue.start mem').Ok p smap := by
  obtain ⟨hinit, hframe⟩ := blqAt_blqCreate hcreate
  refine ⟨indexInv_start hinit, fun i hi => ?_, hlt⟩
  exact (congrArg BitVec.toNat (half_entry_congr hframe hi)).trans (hentries i hi)

/-- The invariant holds in every run. -/
lemma ok_of_run {mem mem' : ByteMem} (hcreate : blqCreate p mem = some mem')
    (hlt : ∀ i < qlen.toNat, smap i < qlen.toNat)
    (hentries : ∀ i < qlen.toNat, (mem.half (p.entry i)).toNat = smap i)
    {as : List QueueAct} (hrun : run (memQueueStep p) (MemQueue.start mem') as = some s) :
    s.Ok p smap := by
  have hinit := (blqAt_blqCreate hcreate).1
  refine invariant_of_run (fun u a v hu hstep => ?_) (ok_start hcreate hlt hentries) hrun
  obtain ⟨⟨xs, v'⟩, hacc, rfl⟩ := Option.map_eq_some_iff.mp hstep
  exact (memAccesses_ok (le_blqSize hinit) hu hacc).ok hu

/-- A byte that a side stores to is, with its whole cache line, in blocks that are that side's.

**Proof sketch.** The size of an access divides its address and the block size, so that an access
that begins inside a block ends inside it. Its first byte is in a block of the side, hence so are
all of them. -/
lemma MemAccess.Allowed.block_of_mem {a : QueueAct} {x : MemAccess} (hx : x.Allowed p a)
    (hstore : x.isStore = true) {y : ℕ} (hy : x.addr ≤ y ∧ y < x.addr + x.size) :
    (a = .consumer → p.blq + 384 ≤ y ∧ y < p.blq + 512) ∧
      (a ≠ .consumer → p.blq + 128 ≤ y ∧ y < p.blq + 256 ∨ p.blq + 640 ≤ y) := by
  have hin : p.blq ≤ x.addr := by
    rcases hx.inside with hin | ⟨hload, -⟩
    · exact hin.1
    · rw [hstore] at hload
      contradiction
  -- an aligned access stays inside its block
  have hend : ∀ c, x.addr < p.blq + spscqAlignSize * c →
      x.addr + x.size ≤ p.blq + spscqAlignSize * c := by
    intro c hlt
    obtain ⟨u, hu⟩ := hx.aligned
    obtain ⟨v, hv⟩ : x.size ∣ p.blq + spscqAlignSize * c :=
      Nat.dvd_add (hx.size_dvd.trans p.blq_aligned) (hx.size_dvd.mul_right c)
    rw [hu, hv] at hlt ⊢
    have huv : u + 1 ≤ v := Nat.lt_of_mul_lt_mul_left hlt
    calc x.size * u + x.size = x.size * (u + 1) := (Nat.mul_succ _ _).symm
      _ ≤ x.size * v := Nat.mul_le_mul_left _ huv
  have hblock : ∀ off, p.blockOf (p.blq + off) = off / 128 := by
    intro off
    rw [QueuePlace.blockOf, Nat.add_sub_cancel_left]
    rfl
  have hdiv : p.blockOf x.addr = (x.addr - p.blq) / 128 := rfl
  constructor
  · intro ha
    have hb := hx.consumer hstore ha
    rw [hblock, hdiv, offsetRead_eq] at hb
    have := hend 4 (by simp only [spscqAlignSize]; omega)
    simp only [spscqAlignSize] at this
    omega
  · intro ha
    have hb := hx.producer hstore ha
    rw [hblock, hblock, hdiv, offsetWrite_eq, offsetQ_eq] at hb
    rcases hb with hb | hb
    · have := hend 2 (by simp only [spscqAlignSize]; omega)
      simp only [spscqAlignSize] at this
      omega
    · omega

end Steps

section Runs

variable {qlen : Word} {p : QueuePlace qlen} {mem mem' : ByteMem}

/-- **The queue in memory has the runs of the queue as a record.** For every length that
`blq_create` accepts, every aligned place of the queue apart from the slot map, every table with
entries below the length and every content of the rest of memory, the accesses to the created queue
lead, whatever their order, to the state they lead to on the record, or can be made on neither.

**Proof sketch.** Each access is to a member of the header or to one slot, and what is stored there
is seen by the loads of that member or slot only (`blqAt_write_write`, `blqAt_write_read`,
`blqAt_write_slot`); the invariant of the indices keeps the slots inside the allocation, so that the
slot map stays as it is. -/
theorem memQueue_run (hcreate : blqCreate p mem = some mem') (smap : ℕ → ℕ)
    (hlt : ∀ i < qlen.toNat, smap i < qlen.toNat)
    (hentries : ∀ i < qlen.toNat, (mem.half (p.entry i)).toNat = smap i) :
    ∃ blq, blqInit Blq.zero qlen = some blq ∧
      ∀ as, (run (memQueueStep p) (MemQueue.start mem') as).map (MemQueue.toQueue p) =
        run (queueStep smap) (QueueState.start blq) as := by
  have hinit := (blqAt_blqCreate hcreate).1
  refine ⟨blqAt p mem', hinit, fun as => ?_⟩
  refine map_run_of_invariant (MemQueue.toQueue p)
    (fun s a hs => map_memQueueStep (le_blqSize hinit) hs a) (fun s a t hs hstep => ?_)
    (ok_start hcreate hlt hentries) as
  obtain ⟨⟨xs, t'⟩, hacc, rfl⟩ := Option.map_eq_some_iff.mp hstep
  exact (memAccesses_ok (le_blqSize hinit) hs hacc).ok hs

/-- A queue of 131072 slots at address 128, and the table of its slot map behind it. -/
def longPlace : QueuePlace 131072#32 where
  blq := 128
  smap := 2 ^ 21
  blq_aligned := by decide
  smap_aligned := by decide
  apart := Or.inl (by decide)

/-- Two writes and two reads. -/
def writesThenReads : List QueueAct :=
  [.lqWrite 7#64, .producer, .producer, .producer] ++
    [.lqWrite 9#64, .producer, .producer, .producer] ++ List.replicate 8 .consumer

/-- With more slots than a 16-bit entry can tell apart, and a table of zeros, every value goes
through slot 0: the second one is taken twice, in memory as on the record. -/
theorem memQueue_run_long :
    ∃ mem' s, blqCreate longPlace (fun _ => 0#8) = some mem' ∧
      run (memQueueStep longPlace) (MemQueue.start mem') writesThenReads = some s ∧
      (s.toQueue longPlace).written = [7#64, 9#64] ∧
      (s.toQueue longPlace).taken = [9#64, 9#64] := by
  obtain ⟨mem', hcreate⟩ : ∃ mem', blqCreate longPlace (fun _ => 0#8) = some mem' := by
    rw [blqCreate, if_neg (by decide)]
    exact ⟨_, rfl⟩
  obtain ⟨blq, hinit, hrun⟩ := memQueue_run hcreate (fun _ => 0)
    (fun _ _ => by decide) (fun _ _ => (by decide : (0#8 ++ 0#8 : BitVec 16).toNat = 0))
  obtain rfl := Option.some.inj hinit
  have hvals : (run (queueStep fun _ => 0) (QueueState.start
      { Blq.zero with qlen := 131072#32, qmask := 131072#32 - 1#32 }) writesThenReads).map
        (fun s => (s.written, s.taken)) = some ([7#64, 9#64], [9#64, 9#64]) := by decide +kernel
  rw [← hrun writesThenReads, Option.map_map] at hvals
  obtain ⟨s, hs, heq⟩ := Option.map_eq_some_iff.mp hvals
  obtain ⟨hwritten, htaken⟩ := Prod.mk.inj heq
  exact ⟨mem', s, hcreate, hs, hwritten, htaken⟩

/-- **Where the accesses go.** In every run on a created queue, every access is aligned and lies in
the `blq_size(qlen)` bytes of the queue or, if it is a load, in the slot map; no byte outside the
queue ever changes, nor does one in the blocks of the private members and of the two constants; and
no cache line that the producer stores to is one that the consumer stores to.

**Proof sketch.** The invariant of the indices holds in every state, and with it each access is
allowed. A byte that lies outside the queue, or in a block that neither side stores to, is in no
allowed store, so that it keeps its value. Two stores of the two sides are in different blocks of
128 bytes, and the queue begins at a multiple of 128, so that no line of 64 bytes has both. -/
theorem memQueue_inBounds (hcreate : blqCreate p mem = some mem') (smap : ℕ → ℕ)
    (hlt : ∀ i < qlen.toNat, smap i < qlen.toNat)
    (hentries : ∀ i < qlen.toNat, (mem.half (p.entry i)).toNat = smap i)
    {as : List QueueAct} {s : MemQueue}
    (hrun : run (memQueueStep p) (MemQueue.start mem') as = some s) :
    (∀ a xs t, memAccesses p s a = some (xs, t) → ∀ x ∈ xs, x.size ∣ x.addr ∧
      (p.blq ≤ x.addr ∧ x.addr + x.size ≤ p.blq + (blqSize qlen).toNat ∨
        x.isStore = false ∧ p.smap ≤ x.addr ∧ x.addr + x.size ≤ p.smap + 2 * qlen.toNat)) ∧
    (∀ y, y < p.blq ∨ p.blq + (blqSize qlen).toNat ≤ y → s.mem y = mem y) ∧
    (∀ y, p.blockOf y = 0 ∨ p.blockOf y = 2 ∨ p.blockOf y = 4 → s.mem y = mem' y) ∧
    ∀ a xs t ys u, a ≠ .consumer → memAccesses p s a = some (xs, t) →
      memAccesses p s .consumer = some (ys, u) → ∀ x ∈ xs, x.isStore = true →
        ∀ y ∈ ys, y.isStore = true → ∀ c d, x.addr ≤ c → c < x.addr + x.size →
          y.addr ≤ d → d < y.addr + y.size → c / 64 ≠ d / 64 := by
  obtain ⟨hinit, hframe⟩ := blqAt_blqCreate hcreate
  have hsize := le_blqSize hinit
  have hok : ∀ {bs u}, run (memQueueStep p) (MemQueue.start mem') bs = some u → u.Ok p smap :=
    fun h => ok_of_run hcreate hlt hentries h
  -- a byte that no access may store to keeps its value
  have hkeep : ∀ y, (y < p.blq ∨ p.blq + (blqSize qlen).toNat ≤ y) ∨
      (p.blockOf y = 0 ∨ p.blockOf y = 2 ∨ p.blockOf y = 4) → s.mem y = mem' y := by
    intro y hy
    refine (invariant_of_run (I := fun u : MemQueue => u.Ok p smap ∧ u.mem y = mem' y)
      (fun u a v hu hstep => ?_) ⟨ok_start hcreate hlt hentries, rfl⟩ hrun).2
    obtain ⟨⟨xs, v'⟩, hacc, rfl⟩ := Option.map_eq_some_iff.mp hstep
    have hstepOk := memAccesses_ok hsize hu.1 hacc
    refine ⟨hstepOk.ok hu.1, (hstepOk.frame y fun x hx hstore => ?_).trans hu.2⟩
    have hallowed := hstepOk.allowed x hx
    by_contra hnot
    have hmem : x.addr ≤ y ∧ y < x.addr + x.size := by omega
    obtain ⟨hconsumer, hproducer⟩ := hallowed.block_of_mem hstore hmem
    have hin := hallowed.inside
    rw [hstore] at hin
    simp only [Bool.true_eq_false, false_and, or_false] at hin
    have hblock : p.blockOf y = (y - p.blq) / 128 := rfl
    by_cases ha : a = .consumer
    · have := hconsumer ha
      omega
    · have := hproducer ha
      omega
  refine ⟨?_, ?_, fun y hy => hkeep y (Or.inr hy), ?_⟩
  · intro a xs t hacc x hx
    have hallowed := (memAccesses_ok hsize (hok hrun) hacc).allowed x hx
    exact ⟨hallowed.aligned, hallowed.inside⟩
  · exact fun y hy => (hkeep y (Or.inl hy)).trans (hframe y hy)
  · intro a xs t ys u ha hacc hacc' x hx hstore y hy hstore' c d hc hc' hd hd'
    have hproducer := (((memAccesses_ok hsize (hok hrun) hacc).allowed x hx).block_of_mem hstore
      ⟨hc, hc'⟩).2 ha
    have hconsumer := (((memAccesses_ok hsize (hok hrun) hacc').allowed y hy).block_of_mem hstore'
      ⟨hd, hd'⟩).1 rfl
    obtain ⟨e, he⟩ : 128 ∣ p.blq := p.blq_aligned
    omega

/-- A queue of two slots at address 128, and the table of its slot map at 1024. -/
def smallPlace : QueuePlace 2#32 where
  blq := 128
  smap := 1024
  blq_aligned := by decide
  smap_aligned := by decide
  apart := Or.inl (by decide)

/-- Memory with the identity in that table. -/
def smallMem : ByteMem := fun a => if a = 1026 then 1#8 else 0#8

/-- That memory with the queue created in it. -/
lemma blqCreate_small : ∃ mem', blqCreate smallPlace smallMem = some mem' := by
  rw [blqCreate, if_neg (by decide)]
  exact ⟨_, rfl⟩

/-- Created there, the queue leaves the table and the constants as they are. -/
theorem memQueue_inBounds_two :
    ∃ mem' s, blqCreate smallPlace smallMem = some mem' ∧
      run (memQueueStep smallPlace) (MemQueue.start mem') [.lqWrite 7#64, .producer] = some s ∧
      s.mem 1026 = 1#8 ∧ s.mem 640 = mem' 640 := by
  obtain ⟨mem', hcreate⟩ := blqCreate_small
  have hrun : run (memQueueStep smallPlace) (MemQueue.start mem') [.lqWrite 7#64, .producer] =
      some _ := rfl
  obtain ⟨-, houtside, hblocks, -⟩ :=
    memQueue_inBounds hcreate (fun i => i) (fun _ hi => hi) (by decide) hrun
  exact ⟨mem', _, hcreate, hrun, houtside 1026 (Or.inr (by decide)),
    hblocks 640 (Or.inr (Or.inr (by decide)))⟩

end Runs

end Huc
