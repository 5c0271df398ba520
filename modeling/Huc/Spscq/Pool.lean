import Huc.Spscq.Queue
import Mathlib.Algebra.BigOperators.Group.Finset.Basic

set_option relaxedAutoImplicit false
set_option autoImplicit false

/-!
# The mbuf pool of the benchmark

The two threads of `guestend/simplified-spscq/spscq.cpp`. The producer takes the next mbuf of a
circular pool, writes the running number into it and passes its address through the queue; the
consumer reads the number back and adds it up. Nothing returns an mbuf to the pool: the producer
just goes round, and relies on the pool being twice as large as the queue.

The running number has 32 bits and wraps around, and so does the index into the pool; the proof
counts with unbounded numbers and reduces them only where the code does.

## Main definitions

* `Huc.MbufPool` — the pool, with the address of its `k`-th mbuf.
* `Huc.LqProducer`, `Huc.LqConsumer` — the position of each thread.
* `Huc.PoolState`, `Huc.poolStep` — the interleaved accesses.
* `Huc.PoolInv` — the invariant.

## Main results

* `Huc.run_poolStep_queue` — the threads' queue is the queue.
* `Huc.poolStep_inv` — every access keeps the invariant.
* `Huc.mbuf_not_recycled` — `mbuf_put` finds the number that `mbuf_get` has written.
-/

namespace Huc

open Transition

/-- `sizeof(Mbuf)`. -/
def mbufSize : ℕ := 4160

/-- A pool of `2 * n` mbufs, allocated by `szalloc`: not at address zero, and inside the address
space. -/
structure MbufPool (n : ℕ) where
  base : Ptr
  ne_null : 0 < base.toNat
  fits : base.toNat + mbufSize * (2 * n) ≤ 2 ^ 64

/-- `&g->pool[i]`. -/
def MbufPool.mbuf {n : ℕ} (pool : MbufPool n) (i : ℕ) : Ptr :=
  pool.base + BitVec.ofNat 64 (mbufSize * i)

/-- The mbuf that the `k`-th call of `mbuf_get` returns. -/
def MbufPool.nth {n : ℕ} (pool : MbufPool n) (k : ℕ) : Ptr := pool.mbuf (k % (2 * n))

/-- The position of `lq_producer`. -/
inductive LqProducer
  /-- The check of `stop`. -/
  | loadStop
  /-- The call of `mbuf_get`. -/
  | get
  /-- The calls of `lq_write` for the mbuf `m`, until one succeeds. -/
  | write (m : Ptr)
  | returned
  deriving DecidableEq

/-- The position of `lq_consumer`. -/
inductive LqConsumer
  /-- The call of `lq_read`. -/
  | read
  /-- The call of `mbuf_put` for the mbuf `m`. -/
  | put (m : Ptr)
  /-- The check of `stop`. -/
  | loadStop
  | returned
  deriving DecidableEq

/-- The queue, the two threads, the global variables they use, the field `len` of every mbuf by
address, and the values of `len` that the completed calls of `mbuf_put` have read. -/
structure PoolState where
  queue : QueueState
  producer : LqProducer
  consumer : LqConsumer
  stop : Bool
  poolIdx : Word
  len : Ptr → Word
  pktCnt : BitVec 64
  csum : Word
  trash : Word
  putLens : List Word

/-- Before the threads start. -/
def PoolState.start (blq : Blq) : PoolState where
  queue := QueueState.start blq
  producer := .loadStop
  consumer := .read
  stop := false
  poolIdx := 0#32
  len _ := 0#32
  pktCnt := 0#64
  csum := 0#32
  trash := 0#32
  putLens := []

/-- `mbuf_get`, with `poolMask` as `main` sets it. -/
def mbufGet {n : ℕ} (pool : MbufPool n) (s : PoolState) (trash : Word) : Ptr × PoolState :=
  let poolMask := BitVec.ofNat 32 (2 * n) - 1#32
  let m := pool.mbuf (s.poolIdx &&& poolMask).toNat
  (m,
    { s with
      len := Function.update s.len m (s.poolIdx + if trash = 0xdeadbeef#32 then 1#32 else 0#32)
      poolIdx := s.poolIdx + 1#32 })

/-- `mbuf_put`. -/
def mbufPut (s : PoolState) (m : Ptr) : PoolState :=
  { s with
    trash := s.trash + m.setWidth 32
    csum := s.csum + s.len m
    putLens := s.putLens ++ [s.len m] }

/-- Whether the last call of `lq_write` has returned 0. -/
def QueueState.wroteLast (s : QueueState) : Bool := s.writeReturns.getLast?.any fun p => p.2 = 0

/-- The result of the last call of `lq_read`. -/
def QueueState.lastRead (s : QueueState) : Ptr := s.readReturns.getLast?.getD 0#64

/-- The next access of `lq_producer`, whose own `trash` stays zero. -/
def producerStep {n : ℕ} (pool : MbufPool n) (smap : ℕ → ℕ) (s : PoolState) : Option PoolState :=
  match s.producer with
  | .loadStop => some { s with producer := if s.stop then .returned else .get }
  | .get =>
    let (m, s) := mbufGet pool s 0#32
    some { s with producer := .write m }
  | .write m =>
    match s.queue.writer with
    | .idle => (startWrite s.queue m).map fun q => { s with queue := q }
    | _ => (writerStep smap s.queue).map fun q =>
      { s with
        queue := q
        producer := if q.writer = .idle ∧ q.wroteLast then .loadStop else .write m }
  | .returned => none

/-- The next access of `lq_consumer`. -/
def consumerStep (smap : ℕ → ℕ) (s : PoolState) : Option PoolState :=
  match s.consumer with
  | .read =>
    let q := readerStep smap s.queue
    if q.reader = .loadRead then
      if q.lastRead ≠ 0#64 then
        some { s with queue := q, pktCnt := s.pktCnt + 1#64, consumer := .put q.lastRead }
      else some { s with queue := q, consumer := .loadStop }
    else some { s with queue := q }
  | .put m => some { mbufPut s m with consumer := .loadStop }
  | .loadStop => some { s with consumer := if s.stop then .returned else .read }
  | .returned => none

/-- The next access of a thread, or the signal handler. -/
inductive PoolAct
  | producer
  | consumer
  | sigint
  deriving DecidableEq

/-- One step of the program. -/
def poolStep {n : ℕ} (pool : MbufPool n) (smap : ℕ → ℕ) (s : PoolState) :
    PoolAct → Option PoolState
  | .producer => producerStep pool smap s
  | .consumer => consumerStep smap s
  | .sigint => some { s with stop := true }

/-! ## The threads and the queue -/

/-- **What a step in the producer's loop around `lq_write` does**: it starts a call, or goes on with
it, or the call returns -1 and is made again, or it returns 0 and the loop ends.

**Proof sketch.** By what the access of `lq_write` does (`writerStep_cases`). The loop ends exactly
if the call has ended and its last return was 0. -/
lemma producerStep_write {n : ℕ} {pool : MbufPool n} {smap : ℕ → ℕ} {s t : PoolState} {m : Ptr}
    (hp : s.producer = .write m) (hstep : producerStep pool smap s = some t) :
    ∃ q, (startWrite s.queue m = some q ∧ t = { s with queue := q, producer := .write m }) ∨
      writerStep smap s.queue = some q ∧ ∃ m', s.queue.writer.value? = some m' ∧
        ((q.writer.value? = some m' ∨ q.writer.value? = none) ∧ q.written = s.queue.written ∧
            t = { s with queue := q, producer := .write m } ∨
          q.writer = .idle ∧ q.written = s.queue.written ++ [m'] ∧
            t = { s with queue := q, producer := .loadStop }) := by
  unfold producerStep at hstep
  simp only [hp] at hstep
  split at hstep
  · obtain ⟨q, hq, rfl⟩ := Option.map_eq_some_iff.mp hstep
    exact ⟨q, Or.inl ⟨hq, rfl⟩⟩
  · obtain ⟨q, hq, rfl⟩ := Option.map_eq_some_iff.mp hstep
    obtain ⟨-, m', hm', hcase⟩ := writerStep_cases hq
    refine ⟨q, Or.inr ⟨hq, m', hm', ?_⟩⟩
    rcases hcase with ⟨hv, hwr, -⟩ | ⟨hidle, hwr, hrets⟩ | ⟨hidle, hwr, hrets⟩
    · -- the call goes on
      have hnot : ¬(q.writer = .idle ∧ q.wroteLast = true) := by
        rintro ⟨hidle, -⟩
        rw [hidle] at hv
        exact absurd hv (by simp [LqWrite.value?])
      exact Or.inl ⟨Or.inl hv, hwr, by rw [if_neg hnot]⟩
    · -- the call returns -1
      have hnot : ¬(q.writer = .idle ∧ q.wroteLast = true) := by
        simp [QueueState.wroteLast, hrets]
      exact Or.inl ⟨Or.inr (by rw [hidle]; rfl), hwr, by rw [if_neg hnot]⟩
    · -- the call returns 0
      have hdone : q.writer = .idle ∧ q.wroteLast = true := by
        simp [QueueState.wroteLast, hrets, hidle]
      exact Or.inr ⟨hidle, hwr, by rw [if_pos hdone]⟩

/-- **What a step in the consumer's call of `lq_read` does**: it goes on with the call, or the call
returns 0, or it returns the next value written.

**Proof sketch.** By what the access of `lq_read` does (`readerStep_cases`). A value that the call
returns is the next one written (`QueueInv.reader_ok`), and is not zero. -/
lemma consumerStep_read {n : ℕ} {smap : ℕ → ℕ} {s t : PoolState} (h : QueueInv n smap s.queue)
    (hc : s.consumer = .read) (hstep : consumerStep smap s = some t) :
    (readerStep smap s.queue).readReturns = s.queue.readReturns ∧
        t = { s with queue := readerStep smap s.queue, consumer := .read } ∨
      (readerStep smap s.queue).readReturns = s.queue.readReturns ++ [0#64] ∧
        t = { s with queue := readerStep smap s.queue, consumer := .loadStop } ∨
      ∃ m, m ≠ 0#64 ∧ s.queue.written[s.queue.taken.length]? = some m ∧
        (readerStep smap s.queue).readReturns = s.queue.readReturns ++ [m] ∧
        t = { s with
          queue := readerStep smap s.queue
          pktCnt := s.pktCnt + 1#64
          consumer := .put m } := by
  unfold consumerStep at hstep
  simp only [hc] at hstep
  obtain ⟨-, -, -, hcase⟩ := readerStep_cases smap s.queue
  rcases hcase with ⟨hrd, hret⟩ | ⟨hrd, hret⟩ | ⟨read, m, hsr, hrd, hret⟩
  · rw [if_neg hrd] at hstep
    exact Or.inl ⟨hret, (Option.some.inj hstep).symm⟩
  · have hlast : (readerStep smap s.queue).lastRead = 0#64 := by
      simp [QueueState.lastRead, hret]
    rw [if_pos hrd, if_neg (not_not.mpr hlast)] at hstep
    exact Or.inr (Or.inl ⟨hret, (Option.some.inj hstep).symm⟩)
  · have hro := h.reader_ok
    unfold QueueState.ReaderOk at hro
    simp only [hsr] at hro
    obtain ⟨-, hget⟩ := hro
    have hne : m ≠ 0#64 := h.ne_zero m (List.mem_of_getElem? hget)
    have hlast : (readerStep smap s.queue).lastRead = m := by
      simp [QueueState.lastRead, hret]
    rw [if_pos hrd, if_pos (hlast.symm ▸ hne), hlast] at hstep
    exact Or.inr (Or.inr ⟨m, hne, hget, hret, (Option.some.inj hstep).symm⟩)

/-- The producer accesses the queue through `lq_write` only. -/
lemma producerStep_queue {n : ℕ} {pool : MbufPool n} {smap : ℕ → ℕ} {s t : PoolState}
    (hstep : producerStep pool smap s = some t) :
    t.queue = s.queue ∨ ∃ b, queueStep smap s.queue b = some t.queue := by
  unfold producerStep at hstep
  cases hp : s.producer with
  | loadStop =>
    simp only [hp] at hstep
    obtain rfl := Option.some.inj hstep
    exact Or.inl rfl
  | get =>
    simp only [hp] at hstep
    obtain rfl := Option.some.inj hstep
    exact Or.inl rfl
  | write m =>
    simp only [hp] at hstep
    right
    split at hstep
    · obtain ⟨q, hq, rfl⟩ := Option.map_eq_some_iff.mp hstep
      exact ⟨.lqWrite m, hq⟩
    · obtain ⟨q, hq, rfl⟩ := Option.map_eq_some_iff.mp hstep
      exact ⟨.producer, hq⟩
  | returned => simp [hp] at hstep

/-- The consumer accesses the queue through `lq_read` only. -/
lemma consumerStep_queue {smap : ℕ → ℕ} {s t : PoolState} (hstep : consumerStep smap s = some t) :
    t.queue = s.queue ∨ ∃ b, queueStep smap s.queue b = some t.queue := by
  unfold consumerStep at hstep
  cases hc : s.consumer with
  | read =>
    simp only [hc] at hstep
    refine Or.inr ⟨.consumer, ?_⟩
    split_ifs at hstep <;> obtain rfl := Option.some.inj hstep <;> rfl
  | put m =>
    simp only [hc] at hstep
    obtain rfl := Option.some.inj hstep
    exact Or.inl rfl
  | loadStop =>
    simp only [hc] at hstep
    obtain rfl := Option.some.inj hstep
    exact Or.inl rfl
  | returned => simp [hc] at hstep

/-! ## Addresses of mbufs -/

section Addresses

variable {n : ℕ} (pool : MbufPool n)

/-- The address of an mbuf of the pool, without wraparound. -/
lemma toNat_mbuf {i : ℕ} (hi : i < 2 * n) :
    (pool.mbuf i).toNat = pool.base.toNat + mbufSize * i := by
  have hfits := pool.fits
  rw [MbufPool.mbuf, BitVec.toNat_add, BitVec.toNat_ofNat]
  simp only [mbufSize] at hfits ⊢
  omega

/-- No mbuf is at address zero. -/
lemma nth_ne_zero (hn : 0 < n) (k : ℕ) : pool.nth k ≠ 0#64 := by
  intro h0
  have hnat := congrArg BitVec.toNat h0
  have hne := pool.ne_null
  rw [MbufPool.nth, toNat_mbuf pool (Nat.mod_lt k (by omega)), BitVec.toNat_ofNat] at hnat
  omega

/-- Mbufs less than a round apart are different. -/
lemma nth_ne_nth {j k : ℕ} (hlt : j < k) (hround : k < j + 2 * n) : pool.nth j ≠ pool.nth k := by
  intro heq
  have hnat := congrArg BitVec.toNat heq
  rw [MbufPool.nth, MbufPool.nth, toNat_mbuf pool (Nat.mod_lt j (by omega)),
    toNat_mbuf pool (Nat.mod_lt k (by omega))] at hnat
  have := eq_of_mod_eq hlt.le hround (by simp only [mbufSize] at hnat; omega)
  omega

end Addresses

/-! ## The invariant -/

section Invariant

variable {n k : ℕ} {pool : MbufPool n} {smap : SlotMap n} {s t : PoolState}

/-- The number of completed calls of `mbuf_get`. -/
def PoolState.got (s : PoolState) : ℕ :=
  match s.producer with
  | .write _ => s.queue.written.length + 1
  | _ => s.queue.written.length

/-- The producer is inside `lq_write` only for the mbuf it has got last. -/
def PoolState.ProducerOk (pool : MbufPool n) (s : PoolState) : Prop :=
  match s.producer with
  | .write m => m = pool.nth s.queue.written.length ∧
      ∀ v, s.queue.writer.value? = some v → v = m
  | _ => s.queue.writer = .idle

/-- The consumer has put every mbuf it has taken, or is about to put the last one. -/
def PoolState.ConsumerOk (pool : MbufPool n) (s : PoolState) : Prop :=
  match s.consumer with
  | .put m => s.queue.taken.length = s.putLens.length + 1 ∧ m = pool.nth s.putLens.length
  | _ => s.queue.taken.length = s.putLens.length

/-- **The invariant of the pool.** The `k`-th value written to the queue is the `k`-th mbuf, the
mbufs of the last round hold their number, and the numbers read back so far are `0, 1, 2, …`. -/
structure PoolInv (pool : MbufPool n) (smap : ℕ → ℕ) (s : PoolState) : Prop where
  queue : QueueInv n smap s.queue
  poolIdx : s.poolIdx = BitVec.ofNat 32 s.got
  written : s.queue.written = (List.range s.queue.written.length).map pool.nth
  len : ∀ j < s.got, s.got ≤ j + 2 * n → s.len (pool.nth j) = BitVec.ofNat 32 j
  putLens : s.putLens = (List.range s.putLens.length).map (BitVec.ofNat 32)
  csum : s.csum = BitVec.ofNat 32 (∑ i ∈ Finset.range s.putLens.length, i)
  producer_ok : s.ProducerOk pool
  consumer_ok : s.ConsumerOk pool

/-- The invariant holds before the threads start. -/
lemma poolInv_start {blq : Blq} (h : QueueInv n smap.toFun (QueueState.start blq)) :
    PoolInv pool smap.toFun (PoolState.start blq) where
  queue := h
  poolIdx := rfl
  written := rfl
  len j hj := absurd hj (Nat.not_lt_zero j)
  putLens := rfl
  csum := rfl
  producer_ok := rfl
  consumer_ok := rfl

/-- The mbuf that `mbuf_get` takes is the next one of the circle. -/
lemma mbuf_and_mask (hn : n = 2 ^ k) (hlt : 2 * n < 2 ^ 32) (c : ℕ) :
    pool.mbuf (BitVec.ofNat 32 c &&& (BitVec.ofNat 32 (2 * n) - 1#32)).toNat = pool.nth c := by
  have hpos : 0 < n := hn ▸ Nat.two_pow_pos k
  have hn' : 2 * n = 2 ^ (k + 1) := by rw [hn, Nat.pow_succ, Nat.mul_comm]
  have hmask : (BitVec.ofNat 32 (2 * n) - 1#32).toNat = 2 * n - 1 := by
    rw [BitVec.toNat_sub, BitVec.toNat_ofNat, BitVec.toNat_ofNat]
    omega
  have hk : k + 1 ≤ 32 := by
    rw [hn'] at hlt
    exact ((Nat.pow_lt_pow_iff_right (by decide)).mp hlt).le
  have hdvd : 2 * n ∣ 2 ^ 32 := hn' ▸ Nat.pow_dvd_pow 2 hk
  rw [toNat_and_mask hn' hmask, BitVec.toNat_ofNat, Nat.mod_mod_of_dvd _ hdvd, MbufPool.nth]

/-- An access that goes on with `lq_write`, or starts it again, keeps the invariant. -/
lemma PoolInv.still_writing (h : PoolInv pool smap.toFun s) {m : Ptr} {q : QueueState}
    (hp : s.producer = .write m) (hq : QueueInv n smap.toFun q)
    (hret : q.readReturns = s.queue.readReturns) (hwritten : q.written = s.queue.written)
    (hval : ∀ v, q.writer.value? = some v → v = m) :
    PoolInv pool smap.toFun { s with queue := q, producer := .write m } := by
  have hok := h.producer_ok
  have hgot : PoolState.got { s with queue := q, producer := .write m } = s.got := by
    unfold PoolState.got
    rw [hp, hwritten]
  have htaken := taken_eq_of_readReturns hret
  unfold PoolState.ProducerOk at hok
  simp only [hp] at hok
  refine
    { queue := hq
      poolIdx := hgot.symm ▸ h.poolIdx
      written := hwritten.symm ▸ h.written
      len := hgot.symm ▸ h.len
      putLens := h.putLens
      csum := h.csum
      producer_ok := ⟨hwritten.symm ▸ hok.1, hval⟩
      consumer_ok := ?_ }
  have hco := h.consumer_ok
  unfold PoolState.ConsumerOk at hco ⊢
  simpa only [htaken] using hco

/-- The access with which `lq_write` returns 0 keeps the invariant.

**Proof sketch.** The mbuf got last is written now: the number of values written is that of the
mbufs got, and the last value is the next mbuf of the pool. Nothing else has changed. -/
lemma PoolInv.done_writing (h : PoolInv pool smap.toFun s) {m : Ptr} {q : QueueState}
    (hp : s.producer = .write m) (hq : QueueInv n smap.toFun q)
    (hret : q.readReturns = s.queue.readReturns) (hwritten : q.written = s.queue.written ++ [m])
    (hw : q.writer = .idle) :
    PoolInv pool smap.toFun { s with queue := q, producer := .loadStop } := by
  have hok := h.producer_ok
  have hlen : q.written.length = s.queue.written.length + 1 := by rw [hwritten]; simp
  have hgot : PoolState.got { s with queue := q, producer := .loadStop } = s.got := by
    unfold PoolState.got
    rw [hp]
    exact hlen
  have htaken := taken_eq_of_readReturns hret
  unfold PoolState.ProducerOk at hok
  simp only [hp] at hok
  refine
    { queue := hq
      poolIdx := hgot.symm ▸ h.poolIdx
      written := ?_
      len := hgot.symm ▸ h.len
      putLens := h.putLens
      csum := h.csum
      producer_ok := hw
      consumer_ok := ?_ }
  · show q.written = _
    rw [hlen, List.range_succ, List.map_append, ← h.written, hwritten, hok.1]
    rfl
  · have hco := h.consumer_ok
    unfold PoolState.ConsumerOk at hco ⊢
    simpa only [htaken] using hco

/-- **The accesses of `lq_write` keep the invariant.** -/
lemma writing_inv (hn : n = 2 ^ k) (hlt : 2 * n < 2 ^ 32) (h : PoolInv pool smap.toFun s)
    {m : Ptr} (hp : s.producer = .write m) (hstep : producerStep pool smap.toFun s = some t) :
    PoolInv pool smap.toFun t := by
  have hok := h.producer_ok
  unfold PoolState.ProducerOk at hok
  simp only [hp] at hok
  obtain ⟨q, ⟨hq, rfl⟩ | ⟨hq, m', hm', hcase⟩⟩ := producerStep_write hp hstep
  · have hqinv := startWrite_inv h.queue hq
    obtain ⟨-, rfl⟩ := startWrite_cases hq
    exact h.still_writing hp hqinv rfl rfl fun v hv => (Option.some.inj hv).symm
  · have hqinv := writerStep_inv hn (by omega) h.queue hq
    have hret := (writerStep_cases hq).1
    obtain rfl : m' = m := hok.2 m' hm'
    rcases hcase with ⟨hv, hwr, rfl⟩ | ⟨hidle, hwr, rfl⟩
    · refine h.still_writing hp hqinv hret hwr fun v hv' => ?_
      rcases hv with hv | hv
      · exact Option.some.inj (hv'.symm.trans hv)
      · rw [hv] at hv'
        contradiction
    · exact h.done_writing hp hqinv hret hwr hidle

/-- **The producer's accesses keep the invariant.**

**Proof sketch.** `mbuf_get` writes the number of the new mbuf, and the mbufs of the last round
other than the oldest are different from it (`nth_ne_nth`). The accesses of `lq_write` are those of
the queue; when the call returns 0 its mbuf is the next value written. -/
lemma producerStep_inv (hn : n = 2 ^ k) (hlt : 2 * n < 2 ^ 32) (h : PoolInv pool smap.toFun s)
    (hstep : producerStep pool smap.toFun s = some t) : PoolInv pool smap.toFun t := by
  have hpos : 0 < n := hn ▸ Nat.two_pow_pos k
  have hok := h.producer_ok
  have hidx := h.poolIdx
  have hlen := h.len
  unfold PoolState.ProducerOk at hok
  unfold PoolState.got at hidx hlen
  unfold producerStep at hstep
  cases hp : s.producer with
  | loadStop =>
    simp only [hp] at hok hidx hlen hstep
    obtain rfl := Option.some.inj hstep
    -- whether the producer goes on or returns, it has called `mbuf_get` as often as before
    have hgot : PoolState.got { s with producer := if s.stop then .returned else .get } =
        s.queue.written.length := by
      unfold PoolState.got
      cases s.stop <;> rfl
    refine
      { h with
        poolIdx := hgot.symm ▸ hidx
        len := hgot.symm ▸ hlen
        producer_ok := ?_
        consumer_ok := h.consumer_ok }
    unfold PoolState.ProducerOk
    cases s.stop <;> exact hok
  | get =>
    simp only [hp] at hok hidx hlen hstep
    obtain rfl := Option.some.inj hstep
    have hm : pool.mbuf (s.poolIdx &&& (BitVec.ofNat 32 (2 * n) - 1#32)).toNat =
        pool.nth s.queue.written.length := by
      rw [hidx]
      exact mbuf_and_mask hn hlt _
    refine
      { h with
        poolIdx := ?_
        len := fun j hj hround => ?_
        producer_ok := ?_
        consumer_ok := h.consumer_ok }
    · show s.poolIdx + 1#32 = BitVec.ofNat 32 (s.queue.written.length + 1)
      rw [hidx, BitVec.ofNat_add]
    · change j < s.queue.written.length + 1 at hj
      change s.queue.written.length + 1 ≤ j + 2 * n at hround
      show Function.update s.len (pool.mbuf _) (s.poolIdx + 0#32) (pool.nth j) = _
      rw [hm, BitVec.add_zero, hidx]
      rcases Nat.lt_succ_iff_lt_or_eq.mp hj with hj | rfl
      · rw [Function.update_of_ne (nth_ne_nth pool hj (by omega))]
        exact hlen j hj (by omega)
      · rw [Function.update_self]
    · refine ⟨hm, ?_⟩
      intro v hv
      change s.queue.writer.value? = some v at hv
      rw [hok] at hv
      exact absurd hv (by simp [LqWrite.value?])
  | write m => exact writing_inv hn hlt h hp (by simpa only [producerStep, hp] using hstep)
  | returned => simp [hp] at hstep

/-- An access of `lq_read` keeps what the invariant says of the producer. -/
lemma PoolInv.reading (h : PoolInv pool smap.toFun s) {q : QueueState} {c : LqConsumer}
    {p : BitVec 64} (hq : QueueInv n smap.toFun q) (hwr : q.writer = s.queue.writer)
    (hwritten : q.written = s.queue.written)
    (hco : PoolState.ConsumerOk pool { s with queue := q, consumer := c, pktCnt := p }) :
    PoolInv pool smap.toFun { s with queue := q, consumer := c, pktCnt := p } := by
  have hgot : PoolState.got { s with queue := q, consumer := c, pktCnt := p } = s.got := by
    unfold PoolState.got
    simp only [hwritten]
  refine
    { queue := hq
      poolIdx := hgot.symm ▸ h.poolIdx
      written := hwritten.symm ▸ h.written
      len := hgot.symm ▸ h.len
      putLens := h.putLens
      csum := h.csum
      producer_ok := ?_
      consumer_ok := hco }
  have hpo := h.producer_ok
  unfold PoolState.ProducerOk at hpo ⊢
  simpa only [hwr, hwritten] using hpo

/-- **The mbuf about to be put still holds its number.**

**Proof sketch.** The producer has got at most the `n - 1` mbufs of the queue and one more since
the consumer took this one, so it is one of the last `2 * n`. -/
lemma PoolInv.len_put (h : PoolInv pool smap.toFun s) {m : Ptr} (hc : s.consumer = .put m) :
    s.len m = BitVec.ofNat 32 s.putLens.length := by
  have hco := h.consumer_ok
  unfold PoolState.ConsumerOk at hco
  simp only [hc] at hco
  obtain ⟨htaken, rfl⟩ := hco
  have hle := h.queue.taken_prefix.length_le
  have hlt' := h.queue.length_lt
  have hgot : s.queue.written.length ≤ s.got ∧ s.got ≤ s.queue.written.length + 1 := by
    unfold PoolState.got
    split <;> omega
  exact h.len _ (by omega) (by omega)

/-- The call of `mbuf_put` keeps the invariant when it reads the right number. -/
lemma PoolInv.putting (h : PoolInv pool smap.toFun s) {m : Ptr}
    (htaken : s.queue.taken.length = s.putLens.length + 1)
    (hread : s.len m = BitVec.ofNat 32 s.putLens.length) :
    PoolInv pool smap.toFun { mbufPut s m with consumer := .loadStop } := by
  have hlen : (s.putLens ++ [s.len m]).length = s.putLens.length + 1 := by simp
  refine
    { h with
      putLens := ?_
      csum := ?_
      producer_ok := h.producer_ok
      consumer_ok := ?_ }
  · show s.putLens ++ [s.len m] = _
    rw [show (mbufPut s m).putLens.length = s.putLens.length + 1 from hlen, List.range_succ,
      List.map_append, ← h.putLens, hread]
    rfl
  · show s.csum + s.len m = _
    rw [show (mbufPut s m).putLens.length = s.putLens.length + 1 from hlen,
      Finset.sum_range_succ, BitVec.ofNat_add, ← h.csum, hread]
  · exact htaken.trans hlen.symm

/-- **The consumer's accesses keep the invariant.**

**Proof sketch.** A non-zero return of `lq_read` is the next value written that has not been taken,
and so the next mbuf; `mbuf_put` then reads its number (`PoolInv.len_put`). -/
lemma consumerStep_inv (hn : n = 2 ^ k) (hlt : 2 * n < 2 ^ 32) (h : PoolInv pool smap.toFun s)
    (hstep : consumerStep smap.toFun s = some t) : PoolInv pool smap.toFun t := by
  have hco := h.consumer_ok
  unfold PoolState.ConsumerOk at hco
  cases hc : s.consumer with
  | read =>
    simp only [hc] at hco
    have hqinv := readerStep_inv hn (by omega) h.queue
    obtain ⟨hwr, hwritten, -⟩ := readerStep_cases smap.toFun s.queue
    rcases consumerStep_read h.queue hc hstep with ⟨hret, rfl⟩ | ⟨hret, rfl⟩ |
      ⟨m, hne, hget, hret, rfl⟩
    · -- the call goes on
      refine h.reading hqinv hwr hwritten ?_
      exact (congrArg List.length (taken_eq_of_readReturns hret)).trans hco
    · -- the call returns 0
      refine h.reading hqinv hwr hwritten ?_
      show (readerStep smap.toFun s.queue).taken.length = _
      unfold QueueState.taken
      rw [hret]
      simpa [QueueState.taken] using hco
    · -- the call returns the next mbuf
      have hm : m = pool.nth s.putLens.length := by
        rw [h.written, List.getElem?_map, hco] at hget
        obtain ⟨i, hi, rfl⟩ := Option.map_eq_some_iff.mp hget
        rw [List.getElem?_eq_some_iff] at hi
        obtain ⟨hi, rfl⟩ := hi
        rw [List.getElem_range]
      refine h.reading hqinv hwr hwritten ⟨?_, hm⟩
      show (readerStep smap.toFun s.queue).taken.length = s.putLens.length + 1
      rw [← hco, QueueState.taken, hret, List.filter_append]
      simp [QueueState.taken, hne]
  | put m =>
    simp only [consumerStep, hc] at hco hstep
    obtain ⟨htaken, rfl⟩ := hco
    obtain rfl := Option.some.inj hstep
    exact h.putting htaken (h.len_put hc)
  | loadStop =>
    simp only [consumerStep, hc] at hco hstep
    obtain rfl := Option.some.inj hstep
    refine { h with consumer_ok := ?_ }
    unfold PoolState.ConsumerOk
    cases s.stop <;> exact hco
  | returned => simp [consumerStep, hc] at hstep

/-- **Every step keeps the invariant.** -/
theorem poolStep_inv (hn : n = 2 ^ k) (hlt : 2 * n < 2 ^ 32) {a : PoolAct}
    (h : PoolInv pool smap.toFun s) (hstep : poolStep pool smap.toFun s a = some t) :
    PoolInv pool smap.toFun t := by
  cases a with
  | producer => exact producerStep_inv hn hlt h hstep
  | consumer => exact consumerStep_inv hn hlt h hstep
  | sigint =>
    obtain rfl := Option.some.inj hstep
    exact { h with }

end Invariant

/-- **The program refines the queue**: whatever the threads do, their queue is in a state that the
accesses of the queue alone lead to. -/
theorem run_poolStep_queue {n : ℕ} {pool : MbufPool n} {smap : ℕ → ℕ} {s t : PoolState}
    {as : List PoolAct} (hrun : run (poolStep pool smap) s as = some t) :
    ∃ bs, run (queueStep smap) s.queue bs = some t.queue := by
  refine run_project PoolState.queue (fun s a t hstep => ?_) hrun
  cases a with
  | producer => exact producerStep_queue hstep
  | consumer => exact consumerStep_queue hstep
  | sigint =>
    obtain rfl := Option.some.inj hstep
    exact Or.inl rfl

/-! ## What the consumer reads -/

/-- **No mbuf in flight is recycled.** For every power of two `qlen ≥ 2` with `2 * qlen < 2 ^ 32`,
`blq_init` accepts `qlen`, and for every pool of `2 * qlen` mbufs, every slot map and every
interleaving of the two threads and the signal handler: the `k`-th mbuf handed to `mbuf_put` holds
`k` modulo `2 ^ 32` when it is read, and after `c` calls `csum` is the sum of `0, …, c - 1` modulo
`2 ^ 32`. -/
theorem mbuf_not_recycled {qlen : Word} {k : ℕ} (hpow : qlen.toNat = 2 ^ k) (h2 : 2 ≤ qlen.toNat)
    (hlt : 2 * qlen.toNat < 2 ^ 32) (pool : MbufPool qlen.toNat) (smap : SlotMap qlen.toNat) :
    ∃ blq, blqInit Blq.zero qlen = some blq ∧
      ∀ as s, run (poolStep pool smap.toFun) (PoolState.start blq) as = some s →
        s.putLens = (List.range s.putLens.length).map (BitVec.ofNat 32) ∧
        (∀ m, s.consumer = .put m → s.len m = BitVec.ofNat 32 s.putLens.length) ∧
        s.csum = BitVec.ofNat 32 (∑ i ∈ Finset.range s.putLens.length, i) := by
  have hinit := blqInit_of_pow Blq.zero hpow h2 hlt
  refine ⟨_, hinit, ?_⟩
  intro as s hrun
  have hinv : PoolInv pool smap.toFun s :=
    invariant_of_run (fun _ _ _ => poolStep_inv hpow hlt) (poolInv_start (queueInv_start hinit _))
      hrun
  exact ⟨hinv.putLens, fun m hc => hinv.len_put hc, hinv.csum⟩

/-- A pool for a queue of length 2. -/
def smallPool : MbufPool 2 := ⟨0x1000#64, by decide, by decide⟩

/-- The producer gets an mbuf and writes it, and the consumer reads and puts it. -/
def oneMbuf : List PoolAct :=
  List.replicate 6 .producer ++ List.replicate 5 .consumer ++ List.replicate 2 .producer

/-- The producer gets an mbuf and writes it, and the consumer reads it, puts it and goes on, six
times. -/
def sixMbufs : List PoolAct :=
  (List.replicate 6 (List.replicate 6 PoolAct.producer ++ List.replicate 6 .consumer)).flatten

/-- With a queue of length 2 and so four mbufs, six numbers put: the first mbuf, which carried the
number 0, has carried the number 4. -/
theorem mbuf_not_recycled_two :
    ∃ blq s, blqInit Blq.zero 2#32 = some blq ∧
      run (poolStep smallPool (SlotMap.id 2).toFun) (PoolState.start blq) sixMbufs = some s ∧
      s.putLens = [0#32, 1#32, 2#32, 3#32, 4#32, 5#32] ∧ s.len (smallPool.mbuf 0) = 4#32 ∧
      s.csum = BitVec.ofNat 32 (∑ i ∈ Finset.range s.putLens.length, i) := by
  obtain ⟨blq, hblq, hall⟩ := @mbuf_not_recycled 2#32 1 rfl (by decide) (by decide) smallPool
    (SlotMap.id 2)
  obtain rfl := Option.some.inj hblq
  have hvals : (run (poolStep smallPool (SlotMap.id 2).toFun) (PoolState.start
      { Blq.zero with qlen := 2#32, qmask := 2#32 - 1#32 }) sixMbufs).map
        (fun s => (s.putLens, s.len (smallPool.mbuf 0))) =
          some ([0#32, 1#32, 2#32, 3#32, 4#32, 5#32], 4#32) := by
    decide +kernel
  obtain ⟨s, hrun, hs⟩ := Option.map_eq_some_iff.mp hvals
  obtain ⟨hlens, hlen⟩ := Prod.mk.inj hs
  exact ⟨_, s, rfl, hrun, hlens, hlen, (hall sixMbufs s hrun).2.2⟩

end Huc
