import Huc.Lib.Transition
import Huc.Lib.ByteMemory
import Mathlib.Data.Set.Function

set_option relaxedAutoImplicit false
set_option autoImplicit false

/-!
# The Lamport queue

The queue of `guestend/simplified-spscq/spscq.h`, shared by one producer that calls `lq_write` and
one consumer that calls `lq_read`. Each call makes four accesses to shared memory: it loads its own
index, loads the other side's, accesses a slot and stores its own index. The accesses of the two
sides interleave in any order, on sequentially consistent memory.

The state keeps, besides the memory and the positions inside the two calls, what the calls have
returned and which values have been written. The proof relates the two indices to the numbers of
values written and taken so far, which only grow: an index is such a number modulo the length of
the queue, and what one side remembers of the other's number is at most too small.

## Main definitions

* `Huc.Blq`, `Huc.blqInit` — the shared queue and its initialisation.
* `Huc.SlotMap` — the remapping of slots, injective below the length.
* `Huc.LqWrite`, `Huc.LqRead` — the position inside a call.
* `Huc.QueueState`, `Huc.queueStep` — the interleaved accesses.
* `Huc.QueueInv` — the invariant.

## Main results

* `Huc.blqInit_eq_some` — an accepted length is a power of two.
* `Huc.queueStep_inv` — every access keeps the invariant.
* `Huc.lq_boundedFifo` — the queue is a FIFO of `qlen - 1` elements.
-/

namespace Huc

open Transition

/-- `uintptr_t`. -/
abbrev Ptr := BitVec 64

/-! ## The queue and its initialisation -/

/-- `struct Blq`, without the private copies that only the other queues of the family use. -/
structure Blq where
  write : Word
  read : Word
  qlen : Word
  qmask : Word
  q : ℕ → Ptr

/-- The queue in zeroed memory. -/
def Blq.zero : Blq := ⟨0#32, 0#32, 0#32, 0#32, fun _ => 0#64⟩

/-- `is_power_of_two`. -/
def isPowerOfTwo (x : Word) : Bool := x == 0#32 || x &&& (x - 1#32) == 0#32

/-- `blq_init`, for a length passed as `int`; `none` stands for the error return. -/
def blqInit (blq : Blq) (qlen : Word) : Option Blq :=
  if qlen.slt 2#32 || !isPowerOfTwo qlen then none
  else some { blq with qlen := qlen, qmask := qlen - 1#32 }

/-- The slot remapping `SMAP` of a queue of length `n`: it keeps the positions below the length
there and distinct. -/
structure SlotMap (n : ℕ) where
  toFun : ℕ → ℕ
  lt : ∀ i < n, toFun i < n
  inj : ∀ i < n, ∀ j < n, toFun i = toFun j → i = j

/-- No remapping, the default. -/
def SlotMap.id (n : ℕ) : SlotMap n := ⟨fun i => i, fun _ h => h, fun _ _ _ _ h => h⟩

/-- One less than a positive word. -/
lemma toNat_sub_one {x : Word} (h : 1 ≤ x.toNat) : (x - 1#32).toNat = x.toNat - 1 := by
  have := x.isLt
  rw [BitVec.toNat_sub, BitVec.toNat_ofNat]
  omega

/-- The check of `is_power_of_two` on a positive word. -/
lemma and_sub_one_eq_zero_iff {x : Word} (h : 1 ≤ x.toNat) :
    x &&& (x - 1#32) = 0#32 ↔ ∃ k, x.toNat = 2 ^ k := by
  rw [← BitVec.toNat_inj, BitVec.toNat_and, toNat_sub_one h]
  exact Nat.and_sub_one_eq_zero_iff_isPowerOfTwo (by omega)

/-- A non-negative `int` of at least two is one as an unsigned number. -/
lemma two_le_toNat_of_not_slt {x : Word} (h : x.slt 2#32 = false) : 2 ≤ x.toNat := by
  have hle : (2#32).toInt ≤ x.toInt := by
    rw [BitVec.slt, decide_eq_false_iff_not, not_lt] at h
    exact h
  rw [show (2#32).toInt = 2 by decide, BitVec.toInt_eq_toNat_cond] at hle
  have := x.isLt
  split_ifs at hle <;> omega

/-- **An accepted length is a power of two**, at least 2, and the mask is one less. -/
lemma blqInit_eq_some {blq blq' : Blq} {qlen : Word} (h : blqInit blq qlen = some blq') :
    (∃ k, qlen.toNat = 2 ^ k) ∧ 2 ≤ qlen.toNat ∧
      blq' = { blq with qlen := qlen, qmask := qlen - 1#32 } := by
  unfold blqInit at h
  split_ifs at h with hc
  simp only [Bool.or_eq_true, Bool.not_eq_true', not_or, Bool.not_eq_true, Bool.not_eq_false]
    at hc
  obtain ⟨hslt, hpow⟩ := hc
  have h2 := two_le_toNat_of_not_slt hslt
  refine ⟨?_, h2, (Option.some.inj h).symm⟩
  rw [isPowerOfTwo, Bool.or_eq_true, beq_iff_eq, beq_iff_eq] at hpow
  rcases hpow with h0 | hand
  · rw [h0] at h2
    exact absurd h2 (by decide)
  · exact (and_sub_one_eq_zero_iff (by omega)).mp hand

/-- Every power of two from 2 on that is positive as an `int` is accepted. -/
lemma blqInit_of_pow (blq : Blq) {qlen : Word} {k : ℕ} (hpow : qlen.toNat = 2 ^ k)
    (h2 : 2 ≤ qlen.toNat) (hlt : 2 * qlen.toNat < 2 ^ 32) :
    blqInit blq qlen = some { blq with qlen := qlen, qmask := qlen - 1#32 } := by
  have hslt : qlen.slt 2#32 = false := by
    rw [BitVec.slt, decide_eq_false_iff_not, not_lt, BitVec.toInt_eq_toNat_of_lt hlt,
      show (2#32).toInt = 2 by decide]
    exact_mod_cast h2
  have hand : qlen &&& (qlen - 1#32) = 0#32 :=
    (and_sub_one_eq_zero_iff (by omega)).mpr ⟨k, hpow⟩
  simp [blqInit, isPowerOfTwo, hslt, hand]

/-- Masking with one less than a power of two is reduction modulo it. -/
lemma toNat_and_mask {x mask : Word} {n k : ℕ} (hn : n = 2 ^ k) (hmask : mask.toNat = n - 1) :
    (x &&& mask).toNat = x.toNat % n := by
  rw [BitVec.toNat_and, hmask, hn, Nat.and_two_pow_sub_one_eq_mod]

/-- The index after `w`, in a queue whose length is a power of two below `2 ^ 32`. -/
lemma toNat_succ_and_mask {w mask : Word} {n k c : ℕ} (hn : n = 2 ^ k) (hlt : n < 2 ^ 32)
    (hmask : mask.toNat = n - 1) (hw : w.toNat = c % n) :
    ((w + 1#32) &&& mask).toNat = (c + 1) % n := by
  have hk : k ≤ 32 := by
    rw [hn] at hlt
    exact ((Nat.pow_lt_pow_iff_right (by decide)).mp hlt).le
  have hdvd : n ∣ 2 ^ 32 := hn ▸ Nat.pow_dvd_pow 2 hk
  rw [toNat_and_mask hn hmask, BitVec.toNat_add, BitVec.toNat_ofNat, Nat.mod_mod_of_dvd _ hdvd,
    Nat.add_mod, Nat.mod_mod_of_dvd _ hdvd, hw, Nat.mod_mod, ← Nat.add_mod]

/-- Two numbers less than `n` apart are equal if they are equal modulo `n`. -/
lemma eq_of_mod_eq {a b n : ℕ} (hle : a ≤ b) (hlt : b < a + n) (h : a % n = b % n) : a = b := by
  have hdvd : n ∣ b - a := Nat.dvd_of_mod_eq_zero (Nat.sub_mod_eq_zero_of_mod_eq h.symm)
  have := Nat.eq_zero_of_dvd_of_lt hdvd (by omega)
  omega

/-! ## The interleaved accesses -/

/-- The next access of a call of `lq_write` with the value `m`. -/
inductive LqWrite
  /-- Between two calls. -/
  | idle
  /-- The load of `q->read`. -/
  | loadRead (m : Ptr) (write : Word)
  /-- The store to the slot. -/
  | storeSlot (m : Ptr) (write next : Word)
  /-- The store to `q->write`. -/
  | storeWrite (m : Ptr) (next : Word)
  deriving DecidableEq

/-- The value of the call in progress. -/
def LqWrite.value? : LqWrite → Option Ptr
  | .idle => none
  | .loadRead m _ => some m
  | .storeSlot m _ _ => some m
  | .storeWrite m _ => some m

/-- The next access of a call of `lq_read`. -/
inductive LqRead
  /-- The load of `q->read`. -/
  | loadRead
  /-- The load of `q->write`. -/
  | loadWrite (read : Word)
  /-- The load of the slot. -/
  | loadSlot (read : Word)
  /-- The store to `q->read`. -/
  | storeRead (read : Word) (m : Ptr)
  deriving DecidableEq

/-- The shared queue, the two calls in progress, the values whose `lq_write` has performed its
final store, and the returns: of `lq_write` with the value passed, and of `lq_read`. -/
structure QueueState where
  blq : Blq
  writer : LqWrite
  reader : LqRead
  written : List Ptr
  writeReturns : List (Ptr × ℤ)
  readReturns : List Ptr

/-- Before the first call on an initialised queue. -/
def QueueState.start (blq : Blq) : QueueState := ⟨blq, .idle, .loadRead, [], [], []⟩

/-- The values taken from the queue: the non-zero returns of `lq_read`. -/
def QueueState.taken (s : QueueState) : List Ptr := s.readReturns.filter fun m => m ≠ 0#64

/-- The values taken are determined by the returns of `lq_read`. -/
lemma taken_eq_of_readReturns {s t : QueueState} (h : t.readReturns = s.readReturns) :
    t.taken = s.taken := by
  rw [QueueState.taken, QueueState.taken, h]

/-- The number of elements in the queue. -/
def QueueState.size (s : QueueState) : ℕ := s.written.length - s.taken.length

/-- An access of the producer, with the value of the call when it starts one, or of the consumer. -/
inductive QueueAct
  | lqWrite (m : Ptr)
  | producer
  | consumer
  deriving DecidableEq

/-- The load of `q->write` that starts a call `lq_write(q, m)`. -/
def startWrite (s : QueueState) (m : Ptr) : Option QueueState :=
  match s.writer with
  | .idle => if m ≠ 0#64 then some { s with writer := .loadRead m s.blq.write } else none
  | _ => none

/-- The next access of the call of `lq_write` in progress. -/
def writerStep (smap : ℕ → ℕ) (s : QueueState) : Option QueueState :=
  match s.writer with
  | .idle => none
  | .loadRead m write =>
    let next := (write + 1#32) &&& s.blq.qmask
    if next = s.blq.read then
      some { s with writer := .idle, writeReturns := s.writeReturns ++ [(m, -1)] }
    else some { s with writer := .storeSlot m write next }
  | .storeSlot m write next =>
    some
      { s with
        blq := { s.blq with q := Function.update s.blq.q (smap write.toNat) m }
        writer := .storeWrite m next }
  | .storeWrite m next =>
    some
      { s with
        blq := { s.blq with write := next }
        writer := .idle
        written := s.written ++ [m]
        writeReturns := s.writeReturns ++ [(m, 0)] }

/-- The next access of the consumer's call of `lq_read`. -/
def readerStep (smap : ℕ → ℕ) (s : QueueState) : QueueState :=
  match s.reader with
  | .loadRead => { s with reader := .loadWrite s.blq.read }
  | .loadWrite read =>
    if read = s.blq.write then
      { s with reader := .loadRead, readReturns := s.readReturns ++ [0#64] }
    else { s with reader := .loadSlot read }
  | .loadSlot read => { s with reader := .storeRead read (s.blq.q (smap read.toNat)) }
  | .storeRead read m =>
    { s with
      blq := { s.blq with read := (read + 1#32) &&& s.blq.qmask }
      reader := .loadRead
      readReturns := s.readReturns ++ [m] }

/-- One access of either side. -/
def queueStep (smap : ℕ → ℕ) (s : QueueState) : QueueAct → Option QueueState
  | .lqWrite m => startWrite s m
  | .producer => writerStep smap s
  | .consumer => some (readerStep smap s)

/-! ## The invariant -/

/-- What a call of `lq_write` in progress knows. -/
def QueueState.WriterOk (n : ℕ) (smap : ℕ → ℕ) (s : QueueState) : Prop :=
  match s.writer with
  | .idle => True
  | .loadRead m write => m ≠ 0#64 ∧ write = s.blq.write
  | .storeSlot m write next => m ≠ 0#64 ∧ write = s.blq.write ∧
      next = (write + 1#32) &&& s.blq.qmask ∧ s.written.length + 1 < s.taken.length + n
  | .storeWrite m next => m ≠ 0#64 ∧ next = (s.blq.write + 1#32) &&& s.blq.qmask ∧
      s.written.length + 1 < s.taken.length + n ∧ s.blq.q (smap (s.written.length % n)) = m

/-- What a call of `lq_read` in progress knows. -/
def QueueState.ReaderOk (s : QueueState) : Prop :=
  match s.reader with
  | .loadRead => True
  | .loadWrite read => read = s.blq.read
  | .loadSlot read => read = s.blq.read ∧ s.taken.length < s.written.length
  | .storeRead read m => read = s.blq.read ∧ s.written[s.taken.length]? = some m

/-- **The invariant of a queue of length `n`.** The indices count the values written and taken
modulo `n`, the values taken are the first ones written, fewer than `n` are in the queue, and each
of these is in its slot. -/
structure QueueInv (n : ℕ) (smap : ℕ → ℕ) (s : QueueState) : Prop where
  mask : s.blq.qmask.toNat = n - 1
  write_eq : s.blq.write.toNat = s.written.length % n
  read_eq : s.blq.read.toNat = s.taken.length % n
  taken_prefix : s.taken <+: s.written
  length_lt : s.written.length < s.taken.length + n
  slots : ∀ k, s.taken.length ≤ k → k < s.written.length →
    s.written[k]? = some (s.blq.q (smap (k % n)))
  ne_zero : ∀ m ∈ s.written, m ≠ 0#64
  returns : (s.writeReturns.filter fun p => p.2 = 0).map Prod.fst = s.written
  writer_ok : s.WriterOk n smap
  reader_ok : s.ReaderOk

/-- An empty return takes nothing. -/
lemma taken_append_zero (s : QueueState) (blq : Blq) (reader : LqRead) :
    QueueState.taken { s with
      blq := blq, reader := reader, readReturns := s.readReturns ++ [0#64] } = s.taken := by
  simp [QueueState.taken]

/-- A non-zero return takes a value. -/
lemma taken_append {s : QueueState} {m : Ptr} (hm : m ≠ 0#64) (blq : Blq) (reader : LqRead) :
    QueueState.taken { s with
      blq := blq, reader := reader, readReturns := s.readReturns ++ [m] } = s.taken ++ [m] := by
  simp [QueueState.taken, hm]

/-- Taking the next value keeps the values taken a prefix of those written. -/
lemma taken_concat_prefix {taken written : List Ptr} {m : Ptr} (h : taken <+: written)
    (hm : written[taken.length]? = some m) : taken ++ [m] <+: written := by
  rw [List.prefix_iff_eq_take.mp h]
  have htake : written.take (taken.length + 1) =
      written.take taken.length ++ written[taken.length]?.toList := List.take_add_one
  rw [hm, Option.toList_some] at htake
  rw [← htake]
  exact List.take_prefix _ _

/-- What the start of a call of `lq_write` does. -/
lemma startWrite_cases {s t : QueueState} {m : Ptr} (hstep : startWrite s m = some t) :
    m ≠ 0#64 ∧ t = { s with writer := .loadRead m s.blq.write } := by
  unfold startWrite at hstep
  split at hstep
  · split_ifs at hstep with hm
    exact ⟨hm, (Option.some.inj hstep).symm⟩
  · exact absurd hstep (by simp)

section Invariant

variable {n k : ℕ} {smap : SlotMap n} {s t : QueueState}

/-- The invariant holds of an initialised queue. -/
lemma queueInv_start {blq : Blq} {qlen : Word} (h : blqInit Blq.zero qlen = some blq)
    (smap : ℕ → ℕ) : QueueInv qlen.toNat smap (QueueState.start blq) := by
  obtain ⟨-, h2, rfl⟩ := blqInit_eq_some h
  refine
    { mask := toNat_sub_one (by omega)
      write_eq := (Nat.zero_mod _).symm
      read_eq := (Nat.zero_mod _).symm
      taken_prefix := List.prefix_rfl
      length_lt := ?_
      slots := fun k _ hk => absurd hk (Nat.not_lt_zero k)
      ne_zero := fun m hm => absurd hm List.not_mem_nil
      returns := rfl
      writer_ok := trivial
      reader_ok := trivial }
  show 0 < 0 + qlen.toNat
  omega

/-- The first access of `lq_write` keeps the invariant. -/
lemma startWrite_inv (h : QueueInv n smap.toFun s) {m : Ptr} (hstep : startWrite s m = some t) :
    QueueInv n smap.toFun t := by
  obtain ⟨hm, rfl⟩ := startWrite_cases hstep
  exact { h with writer_ok := ⟨hm, rfl⟩ }

/-- **The queue is full exactly when the next write index is the read index.** -/
lemma next_eq_read_iff (hn : n = 2 ^ k) (hlt : n < 2 ^ 32) (h : QueueInv n smap.toFun s) :
    (s.blq.write + 1#32) &&& s.blq.qmask = s.blq.read ↔
      s.written.length + 1 = s.taken.length + n := by
  have hle := h.taken_prefix.length_le
  have hlt' := h.length_lt
  rw [← BitVec.toNat_inj, toNat_succ_and_mask hn hlt h.mask h.write_eq, h.read_eq]
  constructor
  · intro heq
    by_contra hne
    have := eq_of_mod_eq (show s.taken.length ≤ s.written.length + 1 by omega) (by omega) heq.symm
    omega
  · intro heq
    rw [heq, Nat.add_mod_right]

/-- **The queue is empty exactly when the indices agree.** -/
lemma read_eq_write_iff (h : QueueInv n smap.toFun s) :
    s.blq.read = s.blq.write ↔ s.taken.length = s.written.length := by
  rw [← BitVec.toNat_inj, h.read_eq, h.write_eq]
  exact ⟨eq_of_mod_eq h.taken_prefix.length_le h.length_lt, fun heq => by rw [heq]⟩

/-- **The other accesses of `lq_write` keep the invariant.**

**Proof sketch.** The check against `q->read` leaves room for one more value, and this stays so
because the consumer only makes more room. The slot stored to is that of the number of values
written, which no value in the queue has, since they are fewer than `n`. The final store makes that
slot part of the queue. -/
lemma writerStep_inv (hn : n = 2 ^ k) (hlt : n < 2 ^ 32) (h : QueueInv n smap.toFun s)
    (hstep : writerStep smap.toFun s = some t) : QueueInv n smap.toFun t := by
  have hpos : 0 < n := hn ▸ Nat.two_pow_pos k
  have hok := h.writer_ok
  unfold QueueState.WriterOk at hok
  unfold writerStep at hstep
  cases hw : s.writer with
  | idle => simp [hw] at hstep
  | loadRead m write =>
    simp only [hw] at hok hstep
    obtain ⟨hm, rfl⟩ := hok
    split_ifs at hstep with hfull
    · obtain rfl := Option.some.inj hstep
      exact { h with
        returns := by simpa using h.returns
        writer_ok := trivial }
    · obtain rfl := Option.some.inj hstep
      have hroom : s.written.length + 1 < s.taken.length + n := by
        have := h.length_lt
        rw [next_eq_read_iff hn hlt h] at hfull
        omega
      exact { h with writer_ok := ⟨hm, rfl, rfl, hroom⟩ }
  | storeSlot m write next =>
    simp only [hw] at hok hstep
    obtain ⟨hm, rfl, rfl, hroom⟩ := hok
    obtain rfl := Option.some.inj hstep
    have hother : ∀ j, s.taken.length ≤ j → j < s.written.length →
        Function.update s.blq.q (smap.toFun s.blq.write.toNat) m (smap.toFun (j % n)) =
          s.blq.q (smap.toFun (j % n)) := by
      intro j hj hj'
      refine Function.update_of_ne (fun heq => ?_) _ _
      have hmod := smap.inj _ (Nat.mod_lt j hpos) _ (h.write_eq ▸ Nat.mod_lt _ hpos) heq
      rw [h.write_eq] at hmod
      have := eq_of_mod_eq hj'.le (by omega) hmod
      omega
    exact { h with
      slots := by
        intro j hj hj'
        rw [h.slots j hj hj']
        exact congrArg some (hother j hj hj').symm
      writer_ok := ⟨hm, rfl, hroom, by
        show Function.update s.blq.q (smap.toFun s.blq.write.toNat) m _ = m
        rw [h.write_eq, Function.update_self]⟩ }
  | storeWrite m next =>
    simp only [hw] at hok hstep
    obtain ⟨hm, rfl, hroom, hslot⟩ := hok
    obtain rfl := Option.some.inj hstep
    have hlen : (s.written ++ [m]).length = s.written.length + 1 := by simp
    refine
      { mask := h.mask
        write_eq := ?_
        read_eq := h.read_eq
        taken_prefix := h.taken_prefix.trans (List.prefix_append _ _)
        length_lt := hlen.symm ▸ hroom
        slots := fun j hj hj' => ?_
        ne_zero := fun v hv => ?_
        returns := by simpa using h.returns
        writer_ok := trivial
        reader_ok := ?_ }
    · rw [hlen]
      exact toNat_succ_and_mask hn hlt h.mask h.write_eq
    · rw [hlen] at hj'
      rcases Nat.lt_succ_iff_lt_or_eq.mp hj' with hj' | rfl
      · rw [List.getElem?_append_left hj']
        exact h.slots j hj hj'
      · rw [List.getElem?_concat_length]
        exact congrArg some hslot.symm
    · rcases List.mem_append.mp hv with hv | hv
      · exact h.ne_zero v hv
      · rw [List.mem_singleton.mp hv]
        exact hm
    · have hro := h.reader_ok
      unfold QueueState.ReaderOk at hro ⊢
      cases hr : s.reader with
      | loadRead => trivial
      | loadWrite read => simpa only [hr] using hro
      | loadSlot read =>
        simp only [hr] at hro
        exact ⟨hro.1, hlen.symm ▸ Nat.lt_succ_of_lt hro.2⟩
      | storeRead read m' =>
        simp only [hr] at hro
        obtain ⟨hread, hget⟩ := hro
        refine ⟨hread, ?_⟩
        obtain ⟨hlt', -⟩ := List.getElem?_eq_some_iff.mp hget
        exact (List.getElem?_append_left hlt').trans hget

/-- **Every access of `lq_read` keeps the invariant.**

**Proof sketch.** When the indices differ the queue is not empty, and this stays so because the
producer only adds. The slot loaded is that of the first value not yet taken; the final store takes
this value. -/
lemma readerStep_inv (hn : n = 2 ^ k) (hlt : n < 2 ^ 32) (h : QueueInv n smap.toFun s) :
    QueueInv n smap.toFun (readerStep smap.toFun s) := by
  have hok := h.reader_ok
  have hle := h.taken_prefix.length_le
  unfold QueueState.ReaderOk at hok
  unfold readerStep
  cases hr : s.reader with
  | loadRead => exact { h with reader_ok := rfl }
  | loadWrite read =>
    simp only [hr] at hok ⊢
    subst hok
    split_ifs with hempty
    · have htaken := taken_append_zero s s.blq .loadRead
      refine
        { h with
          read_eq := htaken.symm ▸ h.read_eq
          taken_prefix := htaken.symm ▸ h.taken_prefix
          length_lt := htaken.symm ▸ h.length_lt
          slots := htaken.symm ▸ h.slots
          writer_ok := ?_
          reader_ok := trivial }
      have hwo := h.writer_ok
      unfold QueueState.WriterOk at hwo ⊢
      simpa only [htaken] using hwo
    · have hne : s.taken.length < s.written.length := by
        rw [read_eq_write_iff h] at hempty
        omega
      exact { h with reader_ok := ⟨rfl, hne⟩ }
  | loadSlot read =>
    simp only [hr] at hok ⊢
    obtain ⟨rfl, hne⟩ := hok
    exact { h with
      reader_ok := ⟨rfl, by
        rw [h.read_eq]
        exact h.slots _ le_rfl hne⟩ }
  | storeRead read m =>
    simp only [hr] at hok ⊢
    obtain ⟨rfl, hget⟩ := hok
    have hm : m ≠ 0#64 := h.ne_zero m (List.mem_of_getElem? hget)
    have htaken := taken_append (s := s) hm
      { s.blq with read := (s.blq.read + 1#32) &&& s.blq.qmask } .loadRead
    have hlen : (s.taken ++ [m]).length = s.taken.length + 1 := by simp
    have hlt' := h.length_lt
    refine
      { h with
        read_eq := ?_
        taken_prefix := htaken.symm ▸ taken_concat_prefix h.taken_prefix hget
        length_lt := ?_
        slots := fun j hj hj' => ?_
        writer_ok := ?_
        reader_ok := trivial }
    · rw [htaken, hlen]
      exact toNat_succ_and_mask hn hlt h.mask h.read_eq
    · rw [htaken, hlen]
      show s.written.length < _
      omega
    · rw [htaken, hlen] at hj
      exact h.slots j (by omega) hj'
    · have hwo := h.writer_ok
      unfold QueueState.WriterOk at hwo ⊢
      rw [htaken, hlen]
      cases hw : s.writer with
      | idle => trivial
      | loadRead m' write => simpa only [hw] using hwo
      | storeSlot m' write next =>
        simp only [hw] at hwo
        obtain ⟨hm', hwrite, hnext, hroom⟩ := hwo
        exact ⟨hm', hwrite, hnext, hroom.trans_le (by omega)⟩
      | storeWrite m' next =>
        simp only [hw] at hwo
        obtain ⟨hm', hnext, hroom, hslot⟩ := hwo
        exact ⟨hm', hnext, hroom.trans_le (by omega), hslot⟩

/-- **Every access keeps the invariant.** -/
theorem queueStep_inv (hn : n = 2 ^ k) (hlt : n < 2 ^ 32) {a : QueueAct}
    (h : QueueInv n smap.toFun s) (hstep : queueStep smap.toFun s a = some t) :
    QueueInv n smap.toFun t := by
  cases a with
  | lqWrite m => exact startWrite_inv h hstep
  | producer => exact writerStep_inv hn hlt h hstep
  | consumer =>
    obtain rfl := Option.some.inj hstep
    exact readerStep_inv hn hlt h

/-! ## The bounded FIFO -/

/-- **What an access of `lq_write` does**: it goes on with the call, or the call returns -1, or it
returns 0 with its value written.

**Proof sketch.** By the position in the call. -/
lemma writerStep_cases {smap : ℕ → ℕ} (hstep : writerStep smap s = some t) :
    t.readReturns = s.readReturns ∧ ∃ m, s.writer.value? = some m ∧
      ((t.writer.value? = some m ∧ t.written = s.written ∧ t.writeReturns = s.writeReturns) ∨
        (t.writer = .idle ∧ t.written = s.written ∧
          t.writeReturns = s.writeReturns ++ [(m, -1)]) ∨
        (t.writer = .idle ∧ t.written = s.written ++ [m] ∧
          t.writeReturns = s.writeReturns ++ [(m, 0)])) := by
  unfold writerStep at hstep
  cases hw : s.writer with
  | idle => simp [hw] at hstep
  | loadRead m write =>
    simp only [hw] at hstep
    split_ifs at hstep
    · obtain rfl := Option.some.inj hstep
      exact ⟨rfl, m, rfl, Or.inr (Or.inl ⟨rfl, rfl, rfl⟩)⟩
    · obtain rfl := Option.some.inj hstep
      exact ⟨rfl, m, rfl, Or.inl ⟨rfl, rfl, rfl⟩⟩
  | storeSlot m write next =>
    simp only [hw] at hstep
    obtain rfl := Option.some.inj hstep
    exact ⟨rfl, m, rfl, Or.inl ⟨rfl, rfl, rfl⟩⟩
  | storeWrite m next =>
    simp only [hw] at hstep
    obtain rfl := Option.some.inj hstep
    exact ⟨rfl, m, rfl, Or.inr (Or.inr ⟨rfl, rfl, rfl⟩)⟩

/-- **What an access of `lq_read` does**: it goes on with the call, or the call returns 0, or it
returns the value it has loaded. -/
lemma readerStep_cases (smap : ℕ → ℕ) (s : QueueState) :
    (readerStep smap s).writer = s.writer ∧ (readerStep smap s).written = s.written ∧
      (readerStep smap s).writeReturns = s.writeReturns ∧
      (((readerStep smap s).reader ≠ .loadRead ∧
          (readerStep smap s).readReturns = s.readReturns) ∨
        ((readerStep smap s).reader = .loadRead ∧
          (readerStep smap s).readReturns = s.readReturns ++ [0#64]) ∨
        ∃ read m, s.reader = .storeRead read m ∧ (readerStep smap s).reader = .loadRead ∧
          (readerStep smap s).readReturns = s.readReturns ++ [m]) := by
  unfold readerStep
  cases s.reader with
  | loadRead => exact ⟨rfl, rfl, rfl, Or.inl ⟨by simp, rfl⟩⟩
  | loadWrite read =>
    dsimp only
    split_ifs
    · exact ⟨rfl, rfl, rfl, Or.inr (Or.inl ⟨rfl, rfl⟩)⟩
    · exact ⟨rfl, rfl, rfl, Or.inl ⟨by simp, rfl⟩⟩
  | loadSlot read => exact ⟨rfl, rfl, rfl, Or.inl ⟨by simp, rfl⟩⟩
  | storeRead read m => exact ⟨rfl, rfl, rfl, Or.inr (Or.inr ⟨read, m, rfl, rfl, rfl⟩)⟩

/-- `lq_write` returns -1 only when it finds `n - 1` elements in the queue.

**Proof sketch.** The only access that returns -1 is the load of `q->read`, when the next index is
the one loaded; by `next_eq_read_iff` the queue is full then. -/
lemma size_of_writeReturns (hn : n = 2 ^ k) (hlt : n < 2 ^ 32) {a : QueueAct} {m : Ptr}
    (h : QueueInv n smap.toFun s) (hstep : queueStep smap.toFun s a = some t)
    (hret : t.writeReturns = s.writeReturns ++ [(m, -1)]) : s.size = n - 1 := by
  cases a with
  | lqWrite m' =>
    obtain ⟨-, rfl⟩ := startWrite_cases hstep
    simp at hret
  | producer =>
    have hok := h.writer_ok
    unfold QueueState.WriterOk at hok
    simp only [queueStep, writerStep] at hstep
    cases hw : s.writer with
    | idle => simp [hw] at hstep
    | loadRead m' write =>
      simp only [hw] at hok hstep
      obtain ⟨-, rfl⟩ := hok
      split_ifs at hstep with hfull
      · have := (next_eq_read_iff hn hlt h).mp hfull
        unfold QueueState.size
        omega
      · obtain rfl := Option.some.inj hstep
        simp at hret
    | storeSlot m' write next =>
      simp only [hw] at hstep
      obtain rfl := Option.some.inj hstep
      simp at hret
    | storeWrite m' next =>
      simp only [hw] at hstep
      obtain rfl := Option.some.inj hstep
      simp at hret
  | consumer =>
    obtain rfl := Option.some.inj hstep
    simp [(readerStep_cases smap.toFun s).2.2.1] at hret

/-- `lq_read` returns 0 only when it finds the queue empty.

**Proof sketch.** The load of `q->write` returns 0 when the indices agree, and by
`read_eq_write_iff` the queue is empty then. The final access returns a value written, which is not
zero. -/
lemma size_of_readReturns {a : QueueAct} (h : QueueInv n smap.toFun s)
    (hstep : queueStep smap.toFun s a = some t)
    (hret : t.readReturns = s.readReturns ++ [0#64]) : s.size = 0 := by
  cases a with
  | lqWrite m =>
    obtain ⟨-, rfl⟩ := startWrite_cases hstep
    simp at hret
  | producer => simp [(writerStep_cases hstep).1] at hret
  | consumer =>
    obtain rfl := Option.some.inj hstep
    have hok := h.reader_ok
    unfold QueueState.ReaderOk at hok
    unfold readerStep at hret
    cases hr : s.reader with
    | loadRead => simp [hr] at hret
    | loadWrite read =>
      simp only [hr] at hok hret
      subst hok
      split_ifs at hret with hempty
      · have := (read_eq_write_iff h).mp hempty
        unfold QueueState.size
        omega
      · simp at hret
    | loadSlot read => simp [hr] at hret
    | storeRead read m =>
      simp only [hr] at hok hret
      obtain rfl : m = 0#64 := by simpa using hret
      exact absurd rfl (h.ne_zero _ (List.mem_of_getElem? hok.2))

end Invariant

/-- **The queue is a bounded FIFO.** For every length that `blq_init` accepts, every slot map and
every interleaving of the accesses of one producer and one consumer from the zeroed queue:

* the non-zero values returned by `lq_read` are a prefix of the values whose `lq_write` has
  performed its final store, and these are the ones for which `lq_write` has returned 0;
* `lq_write` returns -1 only at an access to `q->read` with exactly `qlen - 1` elements in the
  queue, and `lq_read` returns 0 only at an access to `q->write` with none;
* both indices stay below `qlen`. -/
theorem lq_boundedFifo {qlen : Word} {blq : Blq} (hinit : blqInit Blq.zero qlen = some blq)
    (smap : SlotMap qlen.toNat) {as : List QueueAct} {s : QueueState}
    (hrun : run (queueStep smap.toFun) (QueueState.start blq) as = some s) :
    s.taken <+: s.written ∧
      (s.writeReturns.filter fun p => p.2 = 0).map Prod.fst = s.written ∧
      (∀ a t m, queueStep smap.toFun s a = some t →
        t.writeReturns = s.writeReturns ++ [(m, -1)] → s.size = qlen.toNat - 1) ∧
      (∀ a t, queueStep smap.toFun s a = some t →
        t.readReturns = s.readReturns ++ [0#64] → s.size = 0) ∧
      s.blq.write.toNat < qlen.toNat ∧ s.blq.read.toNat < qlen.toNat := by
  obtain ⟨⟨k, hk⟩, h2, -⟩ := blqInit_eq_some hinit
  have hinv : QueueInv qlen.toNat smap.toFun s :=
    invariant_of_run (fun _ _ _ => queueStep_inv hk qlen.isLt) (queueInv_start hinit _) hrun
  refine ⟨hinv.taken_prefix, hinv.returns, ?_, ?_, ?_, ?_⟩
  · exact fun a t m hstep hret => size_of_writeReturns hk qlen.isLt hinv hstep hret
  · exact fun a t hstep hret => size_of_readReturns hinv hstep hret
  · rw [hinv.write_eq]
    exact Nat.mod_lt _ (by omega)
  · rw [hinv.read_eq]
    exact Nat.mod_lt _ (by omega)

/-- One value goes through the queue, interleaved, and a second one is written. -/
def twoWrites : List QueueAct :=
  [.lqWrite 7#64, .producer, .consumer, .producer, .producer, .consumer, .consumer, .consumer,
    .lqWrite 9#64, .producer, .producer, .producer]

/-- A queue of length 2 after two writes and one read. -/
theorem lq_boundedFifo_two :
    ∃ blq s, blqInit Blq.zero 2#32 = some blq ∧
      run (queueStep (SlotMap.id 2).toFun) (QueueState.start blq) twoWrites = some s ∧
      s.taken = [7#64] ∧ s.written = [7#64, 9#64] ∧ s.taken <+: s.written :=
  ⟨_, _, rfl, rfl, by decide, by decide,
    (@lq_boundedFifo 2#32 _ rfl (SlotMap.id 2) twoWrites _ rfl).1⟩

end Huc
