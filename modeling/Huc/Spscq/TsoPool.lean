import Huc.Spscq.Pool
import Huc.Spscq.Tso

set_option relaxedAutoImplicit false
set_option autoImplicit false

/-!
# The mbuf pool under total store order

The two threads of `guestend/simplified-spscq/spscq.cpp` as in `Huc.poolStep`, with store buffers.
`mbuf_get` stores the running number into the mbuf before `lq_write` stores the slot and the index,
all three into the producer's buffer, and `mbuf_put` loads the number from memory after `lq_read`
has seen the index there. `stop` is only ever set, by a handler that may run on any thread, and each
of the two threads sees it some time after that.

That the consumer reads the right number needs two things of the memory: the number has come with
the index (`Huc.TsoState.Content`), and it has not been overwritten by the next round of the pool,
of which the producer may be further ahead than on sequentially consistent memory, since the
consumer's index stays behind in the consumer's own buffer.

## Main definitions

* `Huc.TsoPoolState`, `Huc.tsoPoolStep` — the interleaved accesses of the two threads.
* `Huc.TsoPoolInv` — the invariant.

## Main results

* `Huc.foldl_putLen` — what the stores of the numbers leave in an mbuf.
* `Huc.tsoPoolStep_inv` — every access keeps the invariant.
* `Huc.tso_mbuf_not_recycled` — `mbuf_put` finds the number that `mbuf_get` has stored.
-/

namespace Huc

open Transition StoreBuffer

/-! ## The threads -/

/-- The effect of a store to the field `len` of an mbuf. -/
def putLen (len : Ptr → Word) (e : Ptr × Word) : Ptr → Word := Function.update len e.1 e.2

/-- The queue with the field `len` of every mbuf as the producer's own variables, the two threads,
`stop` as each of them sees it, and the other variables as in `PoolState`. -/
structure TsoPoolState where
  queue : TsoState (Ptr → Word) (Ptr × Word)
  producer : LqProducer
  consumer : LqConsumer
  producerStop : Bool
  consumerStop : Bool
  poolIdx : Word
  pktCnt : BitVec 64
  csum : Word
  trash : Word
  putLens : List Word

/-- Before the threads start. -/
def TsoPoolState.start (blq : Blq) : TsoPoolState where
  queue := TsoState.start (Ptr × Word) blq fun _ => 0#32
  producer := .loadStop
  consumer := .read
  producerStop := false
  consumerStop := false
  poolIdx := 0#32
  pktCnt := 0#64
  csum := 0#32
  trash := 0#32
  putLens := []

/-- `mbuf_get`, with `poolMask` as `main` sets it. -/
def tsoMbufGet {n : ℕ} (pool : MbufPool n) (s : TsoPoolState) (trash : Word) :
    Option (Ptr × TsoPoolState) :=
  let poolMask := BitVec.ofNat 32 (2 * n) - 1#32
  let m := pool.mbuf (s.poolIdx &&& poolMask).toNat
  let len := s.poolIdx + if trash = 0xdeadbeef#32 then 1#32 else 0#32
  (tsoStore s.queue (m, len)).map fun q => (m, { s with queue := q, poolIdx := s.poolIdx + 1#32 })

/-- `mbuf_put`. -/
def tsoMbufPut (s : TsoPoolState) (m : Ptr) : TsoPoolState :=
  let len := s.queue.producer.mem.data m
  { s with
    trash := s.trash + m.setWidth 32
    csum := s.csum + len
    putLens := s.putLens ++ [len] }

/-- Whether the last call of `lq_write` has returned 0. -/
def TsoState.wroteLast {δ ε : Type} (s : TsoState δ ε) : Bool :=
  s.writeReturns.getLast?.any fun p => p.2 = 0

/-- The result of the last call of `lq_read`. -/
def TsoState.lastRead {δ ε : Type} (s : TsoState δ ε) : Ptr := s.readReturns.getLast?.getD 0#64

/-- The next access of `lq_producer`, whose own `trash` stays zero. -/
def tsoProducerStep {n : ℕ} (pool : MbufPool n) (smap : ℕ → ℕ) (s : TsoPoolState) :
    Option TsoPoolState :=
  match s.producer with
  | .loadStop => some { s with producer := if s.producerStop then .returned else .get }
  | .get => (tsoMbufGet pool s 0#32).map fun r => { r.2 with producer := .write r.1 }
  | .write m =>
    match s.queue.writer with
    | .idle => (tsoStartWrite putLen s.queue m).map fun q => { s with queue := q }
    | _ => (tsoWriterStep smap s.queue).map fun q =>
      { s with
        queue := q
        producer := if q.writer = .idle ∧ q.wroteLast then .loadStop else .write m }
  | .returned => none

/-- The next access of `lq_consumer`. -/
def tsoConsumerStep (smap : ℕ → ℕ) (s : TsoPoolState) : Option TsoPoolState :=
  match s.consumer with
  | .read =>
    let q := tsoReaderStep smap s.queue
    if q.reader = .loadRead then
      if q.lastRead ≠ 0#64 then
        some { s with queue := q, pktCnt := s.pktCnt + 1#64, consumer := .put q.lastRead }
      else some { s with queue := q, consumer := .loadStop }
    else some { s with queue := q }
  | .put m => some { tsoMbufPut s m with consumer := .loadStop }
  | .loadStop => some { s with consumer := if s.consumerStop then .returned else .read }
  | .returned => none

/-- The next access of a thread, a store reaching memory, or `stop` becoming visible to a thread. -/
inductive TsoPoolAct
  | producer
  | consumer
  | flushProducer
  | flushConsumer
  | producerStop
  | consumerStop
  deriving DecidableEq

/-- One step of the program. -/
def tsoPoolStep {n : ℕ} (pool : MbufPool n) (smap : ℕ → ℕ) (s : TsoPoolState) :
    TsoPoolAct → Option TsoPoolState
  | .producer => tsoProducerStep pool smap s
  | .consumer => tsoConsumerStep smap s
  | .flushProducer =>
    (tsoStep putLen smap s.queue .flushProducer).map fun q => { s with queue := q }
  | .flushConsumer =>
    (tsoStep putLen smap s.queue .flushConsumer).map fun q => { s with queue := q }
  | .producerStop => some { s with producerStop := true }
  | .consumerStop => some { s with consumerStop := true }

/-- **What a step in the producer's loop around `lq_write` does**: it starts a call, or goes on with
it, or the call returns -1 and is made again, or it returns 0 and the loop ends.

**Proof sketch.** By what the access of `lq_write` does (`tsoWriterStep_cases`), as on sequentially
consistent memory. -/
lemma tsoProducerStep_write {n : ℕ} {pool : MbufPool n} {smap : ℕ → ℕ} {s t : TsoPoolState}
    {m : Ptr} (hp : s.producer = .write m) (hstep : tsoProducerStep pool smap s = some t) :
    ∃ q, (tsoStartWrite putLen s.queue m = some q ∧
        t = { s with queue := q, producer := .write m }) ∨
      tsoWriterStep smap s.queue = some q ∧ ∃ m', s.queue.writer.value? = some m' ∧
        ((q.writer.value? = some m' ∨ q.writer.value? = none) ∧ q.written = s.queue.written ∧
            q.storesBefore = s.queue.storesBefore ∧
            t = { s with queue := q, producer := .write m } ∨
          q.writer = .idle ∧ q.written = s.queue.written ++ [m'] ∧
            q.storesBefore = s.queue.storesBefore ++ [s.queue.stores.length] ∧
            t = { s with queue := q, producer := .loadStop }) := by
  unfold tsoProducerStep at hstep
  simp only [hp] at hstep
  split at hstep
  · obtain ⟨q, hq, rfl⟩ := Option.map_eq_some_iff.mp hstep
    exact ⟨q, Or.inl ⟨hq, rfl⟩⟩
  · obtain ⟨q, hq, rfl⟩ := Option.map_eq_some_iff.mp hstep
    obtain ⟨-, -, m', hm', hcase⟩ := tsoWriterStep_cases hq
    refine ⟨q, Or.inr ⟨hq, m', hm', ?_⟩⟩
    rcases hcase with ⟨hv, hwr, hbefore, -⟩ | ⟨hidle, hwr, hbefore, hrets⟩ |
      ⟨hidle, hwr, hbefore, hrets⟩
    · -- the call goes on
      have hnot : ¬(q.writer = .idle ∧ q.wroteLast = true) := by
        rintro ⟨hidle, -⟩
        rw [hidle] at hv
        exact absurd hv (by simp [LqWrite.value?])
      exact Or.inl ⟨Or.inl hv, hwr, hbefore, by rw [if_neg hnot]⟩
    · -- the call returns -1
      have hnot : ¬(q.writer = .idle ∧ q.wroteLast = true) := by
        simp [TsoState.wroteLast, hrets]
      exact Or.inl ⟨Or.inr (by rw [hidle]; rfl), hwr, hbefore, by rw [if_neg hnot]⟩
    · -- the call returns 0
      have hdone : q.writer = .idle ∧ q.wroteLast = true := by
        simp [TsoState.wroteLast, hrets, hidle]
      exact Or.inr ⟨hidle, hwr, hbefore, by rw [if_pos hdone]⟩

/-- **What a step in the consumer's call of `lq_read` does**: it goes on with the call, or the call
returns 0, or it returns the next value written.

**Proof sketch.** By what the access of `lq_read` does (`tsoReaderStep_cases`), as on sequentially
consistent memory. -/
lemma tsoConsumerStep_read {n : ℕ} {len : Ptr → Word} {smap : ℕ → ℕ} {s t : TsoPoolState}
    (h : TsoInv putLen len n smap s.queue) (hc : s.consumer = .read)
    (hstep : tsoConsumerStep smap s = some t) :
    ∃ c p, t = { s with queue := tsoReaderStep smap s.queue, consumer := c, pktCnt := p } ∧
      ((∀ m, c ≠ .put m) ∧ (tsoReaderStep smap s.queue).taken = s.queue.taken ∨
        ∃ m, c = .put m ∧ s.queue.written[s.queue.taken.length]? = some m ∧
          (tsoReaderStep smap s.queue).taken = s.queue.taken ++ [m]) := by
  unfold tsoConsumerStep at hstep
  simp only [hc] at hstep
  obtain ⟨-, hcase⟩ := tsoReaderStep_cases smap s.queue
  rcases hcase with ⟨hrd, hret⟩ | ⟨hrd, hret⟩ | ⟨read, m, hsr, hrd, hret⟩
  · rw [if_neg hrd] at hstep
    refine ⟨.read, s.pktCnt, ?_, Or.inl ⟨by simp, ?_⟩⟩
    · rw [← Option.some.inj hstep, ← hc]
    · rw [TsoState.taken, hret, TsoState.taken]
  · have hlast : (tsoReaderStep smap s.queue).lastRead = 0#64 := by
      simp [TsoState.lastRead, hret]
    rw [if_pos hrd, if_neg (not_not.mpr hlast)] at hstep
    refine ⟨.loadStop, s.pktCnt, (Option.some.inj hstep).symm, Or.inl ⟨by simp, ?_⟩⟩
    simp [TsoState.taken, hret]
  · have hro := h.reader_ok
    unfold TsoState.ReaderOk at hro
    simp only [hsr] at hro
    obtain ⟨-, -, hget⟩ := hro
    have hne : m ≠ 0#64 := h.ne_zero m (List.mem_of_getElem? hget)
    have hlast : (tsoReaderStep smap s.queue).lastRead = m := by
      simp [TsoState.lastRead, hret]
    rw [if_pos hrd, if_pos (hlast.symm ▸ hne), hlast] at hstep
    refine ⟨.put m, s.pktCnt + 1#64, (Option.some.inj hstep).symm, Or.inr ⟨m, rfl, hget, ?_⟩⟩
    simp [TsoState.taken, hret, hne]

/-! ## The stores of the numbers -/

/-- The store with which the `k`-th call of `mbuf_get` writes its number. -/
def MbufPool.numbered {n : ℕ} (pool : MbufPool n) (k : ℕ) : Ptr × Word :=
  (pool.nth k, BitVec.ofNat 32 k)

/-- A store to `len` changes the mbuf it goes to. -/
lemma putLen_apply (len : Ptr → Word) (e : Ptr × Word) (m : Ptr) :
    putLen len e m = if m = e.1 then e.2 else len m := Function.update_apply _ _ _ _

/-- **After fewer than a round of further stores an mbuf still holds its number.** -/
lemma foldl_putLen {n : ℕ} (pool : MbufPool n) (len : Ptr → Word) {c j : ℕ} (hc : c < j)
    (hj : j ≤ c + 2 * n) :
    ((List.range j).map pool.numbered).foldl putLen len (pool.nth c) = BitVec.ofNat 32 c := by
  induction j with
  | zero => exact absurd hc (Nat.not_lt_zero c)
  | succ j ih =>
    rw [List.range_succ, List.map_append, List.foldl_append, List.map_singleton, List.foldl_cons,
      List.foldl_nil, putLen_apply, MbufPool.numbered]
    rcases Nat.lt_succ_iff_lt_or_eq.mp hc with hc | rfl
    · rw [if_neg (nth_ne_nth pool hc (by omega))]
      exact ih hc (by omega)
    · rw [if_pos rfl]

/-! ## The invariant -/

section Invariant

variable {n k : ℕ} {pool : MbufPool n} {smap : SlotMap n} {s t : TsoPoolState}

/-- The number of completed calls of `mbuf_get`. -/
def TsoPoolState.got (s : TsoPoolState) : ℕ :=
  match s.producer with
  | .write _ => s.queue.written.length + 1
  | _ => s.queue.written.length

/-- The producer is inside `lq_write` only for the mbuf it has got last. -/
def TsoPoolState.ProducerOk (pool : MbufPool n) (s : TsoPoolState) : Prop :=
  match s.producer with
  | .write m => m = pool.nth s.queue.written.length ∧
      ∀ v, s.queue.writer.value? = some v → v = m
  | _ => s.queue.writer = .idle

/-- The consumer has put every mbuf it has taken, or is about to put the last one. -/
def TsoPoolState.ConsumerOk (pool : MbufPool n) (s : TsoPoolState) : Prop :=
  match s.consumer with
  | .put m => s.queue.taken.length = s.putLens.length + 1 ∧ m = pool.nth s.putLens.length
  | _ => s.queue.taken.length = s.putLens.length

/-- **The invariant of the pool.** The `k`-th value written to the queue is the `k`-th mbuf, and the
`k`-th store outside the queue is that of its number, made before the value was written; the numbers
read back so far are `0, 1, 2, …`. -/
structure TsoPoolInv (pool : MbufPool n) (smap : ℕ → ℕ) (s : TsoPoolState) : Prop where
  queue : TsoInv putLen (fun _ => 0#32) n smap s.queue
  poolIdx : s.poolIdx = BitVec.ofNat 32 s.got
  written : s.queue.written = (List.range s.queue.written.length).map pool.nth
  stores : s.queue.stores = (List.range s.got).map pool.numbered
  before : s.queue.storesBefore = (List.range s.queue.written.length).map (· + 1)
  putLens : s.putLens = (List.range s.putLens.length).map (BitVec.ofNat 32)
  csum : s.csum = BitVec.ofNat 32 (∑ i ∈ Finset.range s.putLens.length, i)
  producer_ok : s.ProducerOk pool
  consumer_ok : s.ConsumerOk pool

/-- The invariant holds before the threads start. -/
lemma tsoPoolInv_start {blq : Blq}
    (h : TsoInv putLen (fun _ => 0#32) n smap.toFun (TsoPoolState.start blq).queue) :
    TsoPoolInv pool smap.toFun (TsoPoolState.start blq) where
  queue := h
  poolIdx := rfl
  written := rfl
  stores := rfl
  before := rfl
  putLens := rfl
  csum := rfl
  producer_ok := rfl
  consumer_ok := rfl

/-- A step that gets, writes and puts no mbuf keeps the invariant. -/
lemma TsoPoolInv.frame (h : TsoPoolInv pool smap.toFun s)
    (hq : TsoInv putLen (fun _ => 0#32) n smap.toFun t.queue)
    (hwritten : t.queue.written = s.queue.written) (hstores : t.queue.stores = s.queue.stores)
    (hbefore : t.queue.storesBefore = s.queue.storesBefore) (hgot : t.got = s.got)
    (hidx : t.poolIdx = s.poolIdx) (hputs : t.putLens = s.putLens) (hcsum : t.csum = s.csum)
    (hpo : t.ProducerOk pool) (hco : t.ConsumerOk pool) : TsoPoolInv pool smap.toFun t where
  queue := hq
  poolIdx := by rw [hidx, hgot, h.poolIdx]
  written := by rw [hwritten]; exact h.written
  stores := by rw [hstores, hgot, h.stores]
  before := by rw [hbefore, hwritten, h.before]
  putLens := by rw [hputs]; exact h.putLens
  csum := by rw [hcsum, hputs, h.csum]
  producer_ok := hpo
  consumer_ok := hco

/-- What the consumer knows depends on the values taken. -/
lemma TsoPoolState.ConsumerOk.congr (h : s.ConsumerOk pool) (hc : t.consumer = s.consumer)
    (htaken : t.queue.taken = s.queue.taken) (hputs : t.putLens = s.putLens) :
    t.ConsumerOk pool := by
  unfold TsoPoolState.ConsumerOk at h ⊢
  rwa [hc, htaken, hputs]

/-- The number of calls of `mbuf_get` depends on the values written. -/
lemma TsoPoolState.got_congr (hp : t.producer = s.producer)
    (hwritten : t.queue.written = s.queue.written) : t.got = s.got := by
  unfold TsoPoolState.got
  rw [hp, hwritten]

/-- What the producer knows depends on the values written and its call. -/
lemma TsoPoolState.ProducerOk.congr (h : s.ProducerOk pool) (hp : t.producer = s.producer)
    (hwritten : t.queue.written = s.queue.written) (hw : t.queue.writer = s.queue.writer) :
    t.ProducerOk pool := by
  unfold TsoPoolState.ProducerOk at h ⊢
  rwa [hp, hwritten, hw]

/-- The access with which `lq_write` returns 0 keeps the invariant.

**Proof sketch.** The mbuf got last is written now. The stores to the mbufs recorded before this
value are all those made so far, one for each mbuf got. -/
lemma TsoPoolInv.done_writing (h : TsoPoolInv pool smap.toFun s) {m : Ptr}
    {q : TsoState (Ptr → Word) (Ptr × Word)} (hp : s.producer = .write m)
    (hq : TsoInv putLen (fun _ => 0#32) n smap.toFun q) (htaken : q.taken = s.queue.taken)
    (hstores : q.stores = s.queue.stores) (hwritten : q.written = s.queue.written ++ [m])
    (hbefore : q.storesBefore = s.queue.storesBefore ++ [s.queue.stores.length])
    (hw : q.writer = .idle) :
    TsoPoolInv pool smap.toFun { s with queue := q, producer := .loadStop } := by
  have hok := h.producer_ok
  have hlen : q.written.length = s.queue.written.length + 1 := by rw [hwritten]; simp
  have hgot : s.got = s.queue.written.length + 1 := by
    unfold TsoPoolState.got
    rw [hp]
  have hgot' : TsoPoolState.got { s with queue := q, producer := .loadStop } = s.got :=
    hlen.trans hgot.symm
  unfold TsoPoolState.ProducerOk at hok
  simp only [hp] at hok
  refine
    { queue := hq
      poolIdx := hgot'.symm ▸ h.poolIdx
      written := ?_
      stores := ?_
      before := ?_
      putLens := h.putLens
      csum := h.csum
      producer_ok := hw
      consumer_ok := h.consumer_ok.congr rfl htaken rfl }
  · show q.written = _
    rw [hlen, List.range_succ, List.map_append, ← h.written, hwritten, hok.1]
    rfl
  · rw [hgot', ← h.stores]
    exact hstores
  · show q.storesBefore = _
    have hsl : s.queue.stores.length = s.queue.written.length + 1 := by
      rw [h.stores, List.length_map, List.length_range, hgot]
    rw [hlen, List.range_succ, List.map_append, ← h.before, hbefore, hsl]
    rfl

/-- **The accesses of `lq_write` keep the invariant.** -/
lemma tsoWriting_inv (hn : n = 2 ^ k) (hlt : n < 2 ^ 32) (h : TsoPoolInv pool smap.toFun s)
    {m : Ptr} (hp : s.producer = .write m) (hstep : tsoProducerStep pool smap.toFun s = some t) :
    TsoPoolInv pool smap.toFun t := by
  have hok := h.producer_ok
  unfold TsoPoolState.ProducerOk at hok
  simp only [hp] at hok
  obtain ⟨q, ⟨hq, rfl⟩ | ⟨hq, m', hm', hcase⟩⟩ := tsoProducerStep_write hp hstep
  · have hqinv := tsoStartWrite_inv h.queue hq
    obtain ⟨-, -, rfl⟩ := tsoStartWrite_cases hq
    exact h.frame hqinv rfl rfl rfl (TsoPoolState.got_congr hp.symm rfl) rfl rfl rfl
      ⟨hok.1, fun v hv => (Option.some.inj hv).symm⟩ (h.consumer_ok.congr rfl rfl rfl)
  · have hqinv := tsoWriterStep_inv hn hlt h.queue hq
    obtain ⟨hret, hstores, -⟩ := tsoWriterStep_cases hq
    have htaken : q.taken = s.queue.taken := by rw [TsoState.taken, hret, TsoState.taken]
    obtain rfl : m' = m := hok.2 m' hm'
    rcases hcase with ⟨hv, hwr, hbefore, rfl⟩ | ⟨hidle, hwr, hbefore, rfl⟩
    · refine h.frame hqinv hwr hstores hbefore (TsoPoolState.got_congr hp.symm hwr) rfl rfl rfl
        ⟨hwr.symm ▸ hok.1, fun v hv' => ?_⟩ (h.consumer_ok.congr rfl htaken rfl)
      change q.writer.value? = some v at hv'
      rcases hv with hv | hv
      · exact Option.some.inj (hv'.symm.trans hv)
      · rw [hv] at hv'
        contradiction
    · exact h.done_writing hp hqinv htaken hstores hwr hbefore hidle

/-- **The producer's accesses keep the invariant.**

**Proof sketch.** By the position. `mbuf_get` adds the store of the next number to the next mbuf of
the pool; the check of `stop` changes nothing that is counted; the loop around `lq_write` is
`tsoWriting_inv`. -/
lemma tsoProducerStep_inv (hn : n = 2 ^ k) (hlt : 2 * n < 2 ^ 32)
    (h : TsoPoolInv pool smap.toFun s) (hstep : tsoProducerStep pool smap.toFun s = some t) :
    TsoPoolInv pool smap.toFun t := by
  have hok := h.producer_ok
  have hidx := h.poolIdx
  have hstores := h.stores
  unfold TsoPoolState.ProducerOk at hok
  unfold TsoPoolState.got at hidx hstores
  unfold tsoProducerStep at hstep
  cases hp : s.producer with
  | loadStop =>
    simp only [hp] at hok hstep
    obtain rfl := Option.some.inj hstep
    refine h.frame h.queue rfl rfl rfl ?_ rfl rfl rfl ?_ (h.consumer_ok.congr rfl rfl rfl)
    · -- whether the producer goes on or returns, it has called `mbuf_get` as often as before
      unfold TsoPoolState.got
      rw [hp]
      cases s.producerStop <;> rfl
    · unfold TsoPoolState.ProducerOk
      cases s.producerStop <;> exact hok
  | get =>
    simp only [hp, tsoMbufGet, Option.map_map] at hok hidx hstores hstep
    obtain ⟨q, hq, rfl⟩ := Option.map_eq_some_iff.mp hstep
    have hqinv := tsoStore_inv h.queue hq
    obtain ⟨-, rfl⟩ := tsoStore_cases hq
    have hm : pool.mbuf (s.poolIdx &&& (BitVec.ofNat 32 (2 * n) - 1#32)).toNat =
        pool.nth s.queue.written.length := by
      rw [hidx]
      exact mbuf_and_mask hn hlt _
    refine
      { queue := hqinv
        poolIdx := ?_
        written := h.written
        stores := ?_
        before := h.before
        putLens := h.putLens
        csum := h.csum
        producer_ok := ⟨hm, fun v hv => ?_⟩
        consumer_ok := h.consumer_ok.congr rfl rfl rfl }
    · show s.poolIdx + 1#32 = BitVec.ofNat 32 (s.queue.written.length + 1)
      rw [hidx, BitVec.ofNat_add]
    · show s.queue.stores ++ [(pool.mbuf _, s.poolIdx + 0#32)] =
        (List.range (s.queue.written.length + 1)).map pool.numbered
      rw [hm, BitVec.add_zero, hidx, hstores, List.range_succ, List.map_append]
      rfl
    · change s.queue.writer.value? = some v at hv
      rw [hok] at hv
      exact absurd hv (by simp [LqWrite.value?])
  | write m =>
    exact tsoWriting_inv hn (by omega) h hp (by simpa only [tsoProducerStep, hp] using hstep)
  | returned => simp [hp] at hstep

/-- **The mbuf about to be put holds its number in memory.**

**Proof sketch.** The index of the mbuf has reached memory, and with it the store of its number. The
stores that have reached memory since are at most those of the `n - 1` mbufs in the queue by the
values visibly taken, and one more. -/
lemma TsoPoolInv.len_put (h : TsoPoolInv pool smap.toFun s) {m : Ptr} (hc : s.consumer = .put m) :
    s.queue.producer.mem.data m = BitVec.ofNat 32 s.putLens.length := by
  have hco := h.consumer_ok
  unfold TsoPoolState.ConsumerOk at hco
  simp only [hc] at hco
  obtain ⟨htaken, rfl⟩ := hco
  obtain ⟨hpending, hle, hroom⟩ := h.queue.visible
  have hfree := h.queue.mem_read_eq.1
  obtain ⟨j, hj, hmem⟩ := h.queue.content_mem
  have hgot : s.got ≤ s.queue.written.length + 1 := by
    unfold TsoPoolState.got
    split <;> omega
  have hlen : s.queue.stores.length = s.got := by
    rw [h.stores, List.length_map, List.length_range]
  have hget : s.queue.storesBefore[s.putLens.length]? = some (s.putLens.length + 1) := by
    rw [h.before, List.getElem?_map, List.getElem?_range (by omega)]
    rfl
  have hbefore := hmem.before s.putLens.length (by omega) _ hget
  rw [hmem.data_eq, h.stores, ← List.map_take, List.take_range, Nat.min_eq_left (hlen ▸ hj)]
  exact foldl_putLen pool _ hbefore (by omega)

/-- The call of `mbuf_put` keeps the invariant. -/
lemma TsoPoolInv.putting (h : TsoPoolInv pool smap.toFun s) {m : Ptr} (hc : s.consumer = .put m) :
    TsoPoolInv pool smap.toFun { tsoMbufPut s m with consumer := .loadStop } := by
  have hread := h.len_put hc
  have hco := h.consumer_ok
  unfold TsoPoolState.ConsumerOk at hco
  simp only [hc] at hco
  have hlen : (tsoMbufPut s m).putLens.length = s.putLens.length + 1 := by simp [tsoMbufPut]
  refine
    { queue := h.queue
      poolIdx := h.poolIdx
      written := h.written
      stores := h.stores
      before := h.before
      putLens := ?_
      csum := ?_
      producer_ok := h.producer_ok
      consumer_ok := hco.1.trans hlen.symm }
  · show s.putLens ++ [s.queue.producer.mem.data m] = _
    rw [hlen, List.range_succ, List.map_append, ← h.putLens, hread]
    rfl
  · show s.csum + s.queue.producer.mem.data m = _
    rw [hlen, Finset.sum_range_succ, BitVec.ofNat_add, ← h.csum, hread]

/-- **The consumer's accesses keep the invariant.**

**Proof sketch.** By the position. A call of `lq_read` that ends with an mbuf ends with the next one
written, which is the next one of the pool; `mbuf_put` then reads its number
(`TsoPoolInv.putting`). -/
lemma tsoConsumerStep_inv (hn : n = 2 ^ k) (hlt : n < 2 ^ 32) (h : TsoPoolInv pool smap.toFun s)
    (hstep : tsoConsumerStep smap.toFun s = some t) : TsoPoolInv pool smap.toFun t := by
  have hco := h.consumer_ok
  unfold TsoPoolState.ConsumerOk at hco
  cases hc : s.consumer with
  | read =>
    simp only [hc] at hco
    have hqinv := tsoReaderStep_inv hn hlt h.queue
    obtain ⟨-, hwr, hwritten, hstores, hbefore, -⟩ := (tsoReaderStep_cases smap.toFun s.queue).1
    obtain ⟨c, p, rfl, hcase⟩ := tsoConsumerStep_read h.queue hc hstep
    refine h.frame hqinv hwritten hstores hbefore (TsoPoolState.got_congr rfl hwritten) rfl rfl rfl
      (h.producer_ok.congr rfl hwritten hwr) ?_
    rcases hcase with ⟨hnot, htaken⟩ | ⟨m, rfl, hget, htaken⟩
    · -- no mbuf is taken
      unfold TsoPoolState.ConsumerOk
      dsimp only
      split
      · exact absurd rfl (hnot _)
      · rw [htaken, hco]
    · -- the next mbuf is taken
      rw [h.written, List.getElem?_map, hco] at hget
      obtain ⟨i, hi, rfl⟩ := Option.map_eq_some_iff.mp hget
      obtain ⟨hi, rfl⟩ := List.getElem?_eq_some_iff.mp hi
      refine ⟨?_, by rw [List.getElem_range]⟩
      show (tsoReaderStep smap.toFun s.queue).taken.length = s.putLens.length + 1
      rw [htaken, List.length_append, hco]
      rfl
  | put m =>
    simp only [tsoConsumerStep, hc] at hstep
    obtain rfl := Option.some.inj hstep
    exact h.putting hc
  | loadStop =>
    simp only [tsoConsumerStep, hc] at hco hstep
    obtain rfl := Option.some.inj hstep
    refine h.frame h.queue rfl rfl rfl rfl rfl rfl rfl (h.producer_ok.congr rfl rfl rfl) ?_
    unfold TsoPoolState.ConsumerOk
    cases s.consumerStop <;> exact hco
  | returned => simp [tsoConsumerStep, hc] at hstep

/-- **Every step keeps the invariant.** -/
theorem tsoPoolStep_inv (hn : n = 2 ^ k) (hlt : 2 * n < 2 ^ 32) {a : TsoPoolAct}
    (h : TsoPoolInv pool smap.toFun s) (hstep : tsoPoolStep pool smap.toFun s a = some t) :
    TsoPoolInv pool smap.toFun t := by
  cases a with
  | producer => exact tsoProducerStep_inv hn hlt h hstep
  | consumer => exact tsoConsumerStep_inv hn (by omega) h hstep
  | flushProducer =>
    obtain ⟨q, hq, rfl⟩ := Option.map_eq_some_iff.mp hstep
    have hqinv := tsoStep_inv hn (by omega) h.queue hq
    obtain ⟨p, -, rfl⟩ := Option.map_eq_some_iff.mp hq
    exact h.frame hqinv rfl rfl rfl rfl rfl rfl rfl (h.producer_ok.congr rfl rfl rfl)
      (h.consumer_ok.congr rfl rfl rfl)
  | flushConsumer =>
    obtain ⟨q, hq, rfl⟩ := Option.map_eq_some_iff.mp hstep
    have hqinv := tsoStep_inv hn (by omega) h.queue hq
    obtain ⟨p, -, rfl⟩ := Option.map_eq_some_iff.mp hq
    exact h.frame hqinv rfl rfl rfl rfl rfl rfl rfl (h.producer_ok.congr rfl rfl rfl)
      (h.consumer_ok.congr rfl rfl rfl)
  | producerStop =>
    obtain rfl := Option.some.inj hstep
    exact { h with }
  | consumerStop =>
    obtain rfl := Option.some.inj hstep
    exact { h with }

end Invariant

/-! ## What the consumer reads -/

/-- **No mbuf in flight is recycled under total store order.** For every power of two `qlen ≥ 2`
with `2 * qlen < 2 ^ 32`, every pool of `2 * qlen` mbufs, every slot map that is injective on
`[0, qlen)` and every interleaving of the two threads with the draining of their store buffers: the
`k`-th mbuf handed to `mbuf_put` holds `k` modulo `2 ^ 32` in memory when it is read, and after `c`
calls `csum` is the sum of `0, …, c - 1` modulo `2 ^ 32`. -/
theorem tso_mbuf_not_recycled {qlen : Word} {k : ℕ} (hpow : qlen.toNat = 2 ^ k)
    (h2 : 2 ≤ qlen.toNat) (hlt : 2 * qlen.toNat < 2 ^ 32) (pool : MbufPool qlen.toNat)
    (smap : SlotMap qlen.toNat) :
    ∃ blq, blqInit Blq.zero qlen = some blq ∧
      ∀ as s, run (tsoPoolStep pool smap.toFun) (TsoPoolState.start blq) as = some s →
        s.putLens = (List.range s.putLens.length).map (BitVec.ofNat 32) ∧
        (∀ m, s.consumer = .put m →
          s.queue.producer.mem.data m = BitVec.ofNat 32 s.putLens.length) ∧
        s.csum = BitVec.ofNat 32 (∑ i ∈ Finset.range s.putLens.length, i) := by
  have hinit := blqInit_of_pow Blq.zero hpow h2 hlt
  refine ⟨_, hinit, ?_⟩
  intro as s hrun
  have hinv : TsoPoolInv pool smap.toFun s :=
    invariant_of_run (fun _ _ _ => tsoPoolStep_inv hpow hlt)
      (tsoPoolInv_start (tsoInv_start putLen _ hinit _)) hrun
  exact ⟨hinv.putLens, fun m hc => hinv.len_put hc, hinv.csum⟩

/-- The producer gets an mbuf and writes it, its stores drain, the consumer reads and puts it and
goes on, and the store of its index drains, six times. -/
def sixDrained : List TsoPoolAct :=
  (List.replicate 6 (List.replicate 6 TsoPoolAct.producer ++ List.replicate 3 .flushProducer ++
    List.replicate 6 .consumer ++ [.flushConsumer])).flatten

/-- With a queue of length 2 and so four mbufs, six numbers put and a seventh one still in the
producer's buffer: the second mbuf, which carried the number 1, has carried the number 5. -/
theorem tso_mbuf_not_recycled_two :
    ∃ blq s, blqInit Blq.zero 2#32 = some blq ∧
      run (tsoPoolStep smallPool (SlotMap.id 2).toFun) (TsoPoolState.start blq)
        (sixDrained ++ List.replicate 6 .producer) = some s ∧
      s.putLens = [0#32, 1#32, 2#32, 3#32, 4#32, 5#32] ∧
      s.queue.producer.mem.data (smallPool.mbuf 1) = 5#32 ∧ s.queue.producer.buf.length = 3 ∧
      s.csum = BitVec.ofNat 32 (∑ i ∈ Finset.range s.putLens.length, i) := by
  obtain ⟨blq, hblq, hall⟩ := @tso_mbuf_not_recycled 2#32 1 rfl (by decide) (by decide) smallPool
    (SlotMap.id 2)
  obtain rfl := Option.some.inj hblq
  have hvals : (run (tsoPoolStep smallPool (SlotMap.id 2).toFun) (TsoPoolState.start Blq.two)
      (sixDrained ++ List.replicate 6 .producer)).map (fun s => (s.putLens,
        s.queue.producer.mem.data (smallPool.mbuf 1), s.queue.producer.buf.length)) =
          some ([0#32, 1#32, 2#32, 3#32, 4#32, 5#32], 5#32, 3) := by
    decide +kernel
  obtain ⟨s, hrun, hs⟩ := Option.map_eq_some_iff.mp hvals
  simp only [Prod.mk.injEq] at hs
  exact ⟨_, s, rfl, hrun, hs.1, hs.2.1, hs.2.2, (hall _ s hrun).2.2⟩

end Huc
