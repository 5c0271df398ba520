import Huc.Spscq.Pool

set_option relaxedAutoImplicit false
set_option autoImplicit false

/-!
# Shutting the benchmark down

The signal handler of `guestend/simplified-spscq/spscq.cpp` sets `stop`, which the producer checks
before it takes an mbuf and the consumer after it has made a read. The loop in which the producer
repeats `lq_write` does not check it. So when the signal arrives while the queue is full, the
producer has an mbuf to write, and the consumer has made its last read, the consumer returns and the
producer stays in its loop for ever.

## Main definitions

* `Huc.Stranded` — the consumer has returned and the producer cannot.
* `Huc.ShutsDown` — nobody is stranded, and both threads can return once `stop` is set.
* `Huc.Cornered`, `Huc.SignalInTime` — when the signal may not arrive.

## Main results

* `Huc.not_cornered_of_poolStep` — after the signal the threads do not corner themselves.
* `Huc.doomed_of_poolStep` — once cornered, they stay so.
* `Huc.exists_run_returned` — threads that are not cornered return.
* `Huc.shutsDown_iff` — when the shutdown works.
* `Huc.producer_stranded` — a run that strands the producer.
-/

namespace Huc

open Transition

/-- `lq_consumer` has returned, and `lq_producer` repeats `lq_write` on a full queue. -/
def Stranded (n : ℕ) (s : PoolState) : Prop :=
  s.stop = true ∧ s.consumer = .returned ∧ (∃ m, s.producer = .write m) ∧ s.queue.size = n - 1

/-- Both threads can reach their return. -/
def CanReturn {n : ℕ} (pool : MbufPool n) (smap : ℕ → ℕ) (s : PoolState) : Prop :=
  ∃ as t, run (poolStep pool smap) s as = some t ∧ t.producer = .returned ∧ t.consumer = .returned

/-- The producer is not stranded, and once `stop` is set both threads can return. -/
def ShutsDown {n : ℕ} (pool : MbufPool n) (smap : ℕ → ℕ) (s : PoolState) : Prop :=
  ¬Stranded n s ∧ (s.stop = true → CanReturn pool smap s)

/-- The queue is full, the producer is past its check of `stop`, and the consumer is past its call
of `lq_read`. -/
def Cornered (n : ℕ) (s : PoolState) : Prop :=
  s.consumer ≠ .read ∧ s.producer ≠ .loadStop ∧ s.producer ≠ .returned ∧ s.queue.size = n - 1

/-- The signal does not arrive while the threads are cornered. -/
def SignalInTime (n : ℕ) (s : PoolState) : PoolAct → Prop
  | .sigint => ¬Cornered n s
  | _ => True

/-! ## What the threads do to the queue -/

section Steps

variable {n k : ℕ} {pool : MbufPool n} {smap : SlotMap n} {s t : PoolState}

/-- **What a step of the producer does**, as far as the shutdown is concerned.

**Proof sketch.** By the position of the producer; in its loop by `producerStep_write`. -/
lemma producerStep_cases {smap : ℕ → ℕ} (hstep : producerStep pool smap s = some t) :
    t.stop = s.stop ∧ t.consumer = s.consumer ∧ t.queue.taken = s.queue.taken ∧
      (s.producer = .loadStop ∧ t.producer = (if s.stop then .returned else .get) ∧
          t.queue = s.queue ∨
        s.producer = .get ∧ (∃ m, t.producer = .write m) ∧ t.queue = s.queue ∨
        (∃ m, s.producer = .write m ∧ t.producer = .write m) ∧
          t.queue.written = s.queue.written ∨
        (∃ m, s.producer = .write m) ∧ t.producer = .loadStop ∧
          t.queue.written.length = s.queue.written.length + 1) := by
  cases hp : s.producer with
  | loadStop =>
    simp only [producerStep, hp] at hstep
    obtain rfl := Option.some.inj hstep
    exact ⟨rfl, rfl, rfl, Or.inl ⟨rfl, rfl, rfl⟩⟩
  | get =>
    simp only [producerStep, hp] at hstep
    obtain rfl := Option.some.inj hstep
    exact ⟨rfl, rfl, rfl, Or.inr (Or.inl ⟨rfl, ⟨_, rfl⟩, rfl⟩)⟩
  | write m =>
    obtain ⟨q, ⟨hq, rfl⟩ | ⟨hq, m', -, hcase⟩⟩ := producerStep_write hp hstep
    · obtain ⟨-, rfl⟩ := startWrite_cases hq
      exact ⟨rfl, rfl, rfl, Or.inr (Or.inr (Or.inl ⟨⟨m, rfl, rfl⟩, rfl⟩))⟩
    · have htaken := taken_eq_of_readReturns (writerStep_cases hq).1
      rcases hcase with ⟨-, hwr, rfl⟩ | ⟨-, hwr, rfl⟩
      · exact ⟨rfl, rfl, htaken, Or.inr (Or.inr (Or.inl ⟨⟨m, rfl, rfl⟩, hwr⟩))⟩
      · exact ⟨rfl, rfl, htaken, Or.inr (Or.inr (Or.inr ⟨⟨m, rfl⟩, rfl, by simp [hwr]⟩))⟩
  | returned => simp [producerStep, hp] at hstep

/-- **What a step of the consumer does**, as far as the shutdown is concerned.

**Proof sketch.** By the position of the consumer; in `lq_read` by `consumerStep_read`, where a
return of 0 means that the queue is empty. -/
lemma consumerStep_cases (h : PoolInv pool smap.toFun s)
    (hstep : consumerStep smap.toFun s = some t) :
    t.stop = s.stop ∧ t.producer = s.producer ∧ t.queue.written = s.queue.written ∧
      (s.consumer = .read ∧ t.consumer = .read ∨
        s.consumer = .read ∧ t.queue.size = 0 ∨
        s.consumer = .read ∧ t.queue.taken.length = s.queue.taken.length + 1 ∨
        s.consumer ≠ .read ∧ (s.stop = true → t.consumer ≠ .read) ∧ t.queue = s.queue) := by
  cases hc : s.consumer with
  | read =>
    obtain ⟨-, hwritten, -⟩ := readerStep_cases smap.toFun s.queue
    rcases consumerStep_read h.queue hc hstep with ⟨hret, rfl⟩ | ⟨hret, rfl⟩ |
      ⟨m, hne, -, hret, rfl⟩
    · exact ⟨rfl, rfl, hwritten, Or.inl ⟨rfl, rfl⟩⟩
    · have htaken : (readerStep smap.toFun s.queue).taken = s.queue.taken := by
        simp [QueueState.taken, hret]
      have hempty : s.queue.size = 0 := by
        apply size_of_readReturns h.queue _ hret
        · exact .consumer
        · rfl
      refine ⟨rfl, rfl, hwritten, Or.inr (Or.inl ⟨rfl, ?_⟩)⟩
      rw [QueueState.size, hwritten, htaken]
      exact hempty
    · refine ⟨rfl, rfl, hwritten, Or.inr (Or.inr (Or.inl ⟨rfl, ?_⟩))⟩
      simp [QueueState.taken, hret, List.filter_append, hne]
  | put m =>
    simp only [consumerStep, hc] at hstep
    obtain rfl := Option.some.inj hstep
    exact ⟨rfl, rfl, rfl, Or.inr (Or.inr (Or.inr ⟨by simp, by simp, rfl⟩))⟩
  | loadStop =>
    simp only [consumerStep, hc] at hstep
    obtain rfl := Option.some.inj hstep
    exact ⟨rfl, rfl, rfl, Or.inr (Or.inr (Or.inr ⟨by simp, by simp, rfl⟩))⟩
  | returned => simp [consumerStep, hc] at hstep

/-! ## Cornered threads -/

/-- **After the signal the threads do not corner themselves.**

**Proof sketch.** The producer does not pass its check again. The consumer passes its call of
`lq_read` either by taking an mbuf from the queue, or by finding it empty, and neither leaves the
queue full. -/
lemma not_cornered_of_poolStep (h : PoolInv pool smap.toFun s) (h2 : 2 ≤ n) {a : PoolAct}
    (hstop : s.stop = true) (hc : ¬Cornered n s) (hstep : poolStep pool smap.toFun s a = some t) :
    ¬Cornered n t := by
  have hle := h.queue.taken_prefix.length_le
  have hlt := h.queue.length_lt
  rintro ⟨hcons, hload, hret, hfull⟩
  unfold QueueState.size at hfull
  cases a with
  | producer =>
    obtain ⟨-, hsame, htaken, hcase⟩ := producerStep_cases hstep
    rw [hsame] at hcons
    rcases hcase with ⟨-, hp, -⟩ | ⟨hp, -, hq⟩ | ⟨⟨m, hp, -⟩, hwr⟩ | ⟨-, hp, -⟩
    · rw [if_pos hstop] at hp
      exact hret hp
    · rw [hq] at hfull
      exact hc ⟨hcons, by simp [hp], by simp [hp], hfull⟩
    · rw [htaken, hwr] at hfull
      exact hc ⟨hcons, by simp [hp], by simp [hp], hfull⟩
    · exact hload hp
  | consumer =>
    obtain ⟨-, hsame, hwr, hcase⟩ := consumerStep_cases h hstep
    rw [hsame] at hload hret
    rcases hcase with ⟨-, hp⟩ | ⟨-, hsize⟩ | ⟨-, htaken⟩ | ⟨hp, -, hq⟩
    · exact hcons hp
    · unfold QueueState.size at hsize
      omega
    · rw [hwr, htaken] at hfull
      omega
    · rw [hq] at hfull
      exact hc ⟨hp, hload, hret, hfull⟩
  | sigint =>
    obtain rfl := Option.some.inj hstep
    exact hc ⟨hcons, hload, hret, hfull⟩

/-- **Cornered threads stay so once the signal has come**: the consumer makes no further read, and
the producer cannot write.

**Proof sketch.** The consumer is past its call of `lq_read` and, with `stop` set, makes no other
one, so that nothing is taken. A value more written would be one more than a queue holds. -/
lemma doomed_of_poolStep (hn : n = 2 ^ k) (hlt : 2 * n < 2 ^ 32) (h : PoolInv pool smap.toFun s)
    {a : PoolAct} (hstop : s.stop = true) (hc : Cornered n s)
    (hstep : poolStep pool smap.toFun s a = some t) : t.stop = true ∧ Cornered n t := by
  have hle := h.queue.taken_prefix.length_le
  have hroom := h.queue.length_lt
  have hroom' := (poolStep_inv hn hlt h hstep).queue.length_lt
  obtain ⟨hcons, hload, hret, hfull⟩ := hc
  unfold QueueState.size at hfull
  cases a with
  | producer =>
    obtain ⟨hstop', hsame, htaken, hcase⟩ := producerStep_cases hstep
    refine ⟨hstop'.trans hstop, ?_⟩
    rcases hcase with ⟨hp, -⟩ | ⟨-, ⟨m, hp⟩, hq⟩ | ⟨⟨m, -, hp⟩, hwr⟩ | ⟨-, -, hwr⟩
    · exact absurd hp hload
    · exact ⟨by rwa [hsame], by simp [hp], by simp [hp], by rw [hq]; exact hfull⟩
    · refine ⟨by rwa [hsame], by simp [hp], by simp [hp], ?_⟩
      rw [QueueState.size, htaken, hwr]
      exact hfull
    · -- a full queue has no room for one more
      rw [hwr, htaken] at hroom'
      omega
  | consumer =>
    obtain ⟨hstop', hsame, hwr, hcase⟩ := consumerStep_cases h hstep
    refine ⟨hstop'.trans hstop, ?_⟩
    rcases hcase with ⟨hp, -⟩ | ⟨hp, -⟩ | ⟨hp, -⟩ | ⟨-, hp, hq⟩
    · exact absurd hp hcons
    · exact absurd hp hcons
    · exact absurd hp hcons
    · exact ⟨hp hstop, by rwa [hsame], by rwa [hsame], by rw [hq]; exact hfull⟩
  | sigint =>
    obtain rfl := Option.some.inj hstep
    exact ⟨rfl, hcons, hload, hret, hfull⟩

/-! ## Returning -/

/-- The number of accesses before `lq_consumer` returns, once `stop` is set. -/
def PoolState.consumerRank (s : PoolState) : ℕ :=
  match s.consumer with
  | .returned => 0
  | .loadStop => 1
  | .put _ => 2
  | .read =>
    match s.queue.reader with
    | .storeRead _ _ => 3
    | .loadSlot _ => 4
    | .loadWrite _ => 5
    | .loadRead => 6

/-- The number of accesses before `lq_producer` returns, once `stop` is set, if the queue has
room. -/
def PoolState.producerRank (s : PoolState) : ℕ :=
  match s.producer with
  | .returned => 0
  | .loadStop => 1
  | .write _ =>
    match s.queue.writer with
    | .storeWrite _ _ => 2
    | .storeSlot _ _ _ => 3
    | .loadRead _ _ => 4
    | .idle => 5
  | .get => 6

/-- A call of `lq_read` that goes on comes closer to its return. -/
lemma consumerRank_readerStep {smap : ℕ → ℕ} (hc : s.consumer = .read)
    (hrd : (readerStep smap s.queue).reader ≠ .loadRead) :
    PoolState.consumerRank { s with queue := readerStep smap s.queue } < s.consumerRank := by
  simp only [PoolState.consumerRank, hc]
  unfold readerStep at hrd ⊢
  cases hr : s.queue.reader with
  | loadRead => simp
  | loadWrite read =>
    simp only [hr] at hrd ⊢
    split_ifs at hrd ⊢
    · exact absurd rfl hrd
    · simp
  | loadSlot read => simp
  | storeRead read m => simp [hr] at hrd

/-- The consumer always has a step, and once `stop` is set it comes closer to its return.

**Proof sketch.** By the position of the consumer. In `lq_read` the access goes on with the call,
which has fewer accesses left, or ends it, and the rank of what follows is below that of the
call. -/
lemma exists_consumerStep {smap : ℕ → ℕ} (hstop : s.stop = true) (hret : s.consumer ≠ .returned) :
    ∃ t, consumerStep smap s = some t ∧ t.consumerRank < s.consumerRank ∧
      t.producerRank = s.producerRank := by
  cases hc : s.consumer with
  | returned => exact absurd hc hret
  | loadStop =>
    refine ⟨{ s with consumer := .returned }, by simp [consumerStep, hc, hstop], ?_, rfl⟩
    simp [PoolState.consumerRank, hc]
  | put m =>
    refine ⟨{ mbufPut s m with consumer := .loadStop }, by simp [consumerStep, hc], ?_, rfl⟩
    simp [PoolState.consumerRank, hc]
  | read =>
    have hwriter := (readerStep_cases smap s.queue).1
    have hrank : 3 ≤ s.consumerRank := by
      simp only [PoolState.consumerRank, hc]
      split <;> omega
    have hprod : ∀ c p, PoolState.producerRank { s with
        queue := readerStep smap s.queue, consumer := c, pktCnt := p } = s.producerRank := by
      intro c p
      simp only [PoolState.producerRank, hwriter]
    by_cases hrd : (readerStep smap s.queue).reader = .loadRead
    · by_cases hlast : (readerStep smap s.queue).lastRead ≠ 0#64
      · refine ⟨{ s with
          queue := readerStep smap s.queue
          pktCnt := s.pktCnt + 1#64
          consumer := .put (readerStep smap s.queue).lastRead },
          by simp only [consumerStep, hc, if_pos hrd, if_pos hlast], ?_, hprod _ _⟩
        exact Nat.lt_of_lt_of_le (show 2 < 3 by omega) hrank
      · refine ⟨{ s with queue := readerStep smap s.queue, consumer := .loadStop },
          by simp only [consumerStep, hc, if_pos hrd, if_neg hlast], ?_, hprod _ _⟩
        exact Nat.lt_of_lt_of_le (show 1 < 3 by omega) hrank
    · refine ⟨{ s with queue := readerStep smap s.queue },
        by simp only [consumerStep, hc, if_neg hrd], ?_, hprod _ _⟩
      exact consumerRank_readerStep hc hrd

/-- The producer has a step that brings it closer to its return, once `stop` is set, unless it is
past its check and the queue is full.

**Proof sketch.** By the position of the producer. Only the load of `q->read` could lead back to the
start of a call, and it does so only if the queue is full, which is what being cornered means once
the consumer has returned. -/
lemma exists_producerStep (hn : n = 2 ^ k) (hlt : 2 * n < 2 ^ 32) (h : PoolInv pool smap.toFun s)
    (hstop : s.stop = true) (hcons : s.consumer = .returned) (hret : s.producer ≠ .returned)
    (hc : ¬Cornered n s) :
    ∃ t, producerStep pool smap.toFun s = some t ∧ t.producerRank < s.producerRank ∧
      t.consumer = .returned := by
  have hpos : 0 < n := hn ▸ Nat.two_pow_pos k
  have hok := h.producer_ok
  unfold PoolState.ProducerOk at hok
  cases hp : s.producer with
  | returned => exact absurd hp hret
  | loadStop =>
    refine ⟨{ s with producer := .returned }, by simp [producerStep, hp, hstop], ?_, hcons⟩
    simp [PoolState.producerRank, hp]
  | get =>
    simp only [hp] at hok
    refine ⟨{ (mbufGet pool s 0#32).2 with producer := .write (mbufGet pool s 0#32).1 },
      by simp only [producerStep, hp], ?_, hcons⟩
    simp [PoolState.producerRank, hp, hok, mbufGet]
  | write m =>
    simp only [hp] at hok
    have hm : m ≠ 0#64 := hok.1 ▸ nth_ne_zero pool hpos _
    have hwo := h.queue.writer_ok
    unfold QueueState.WriterOk at hwo
    cases hw : s.queue.writer with
    | idle =>
      refine ⟨{ s with queue := { s.queue with writer := .loadRead m s.queue.blq.write } }, ?_, ?_,
        hcons⟩
      · simp [producerStep, hp, hw, startWrite, hm]
      · simp [PoolState.producerRank, hp, hw]
    | loadRead m' write =>
      simp only [hw] at hwo
      have hroom : ¬(write + 1#32) &&& s.queue.blq.qmask = s.queue.blq.read := by
        rw [hwo.2, next_eq_read_iff hn (by omega) h.queue]
        intro heq
        refine hc ⟨by simp [hcons], by simp [hp], by simp [hp], ?_⟩
        unfold QueueState.size
        omega
      refine ⟨{ s with queue := { s.queue with
        writer := .storeSlot m' write ((write + 1#32) &&& s.queue.blq.qmask) } }, ?_, ?_, hcons⟩
      · simp [producerStep, hp, hw, writerStep, hroom]
      · simp [PoolState.producerRank, hp, hw]
    | storeSlot m' write next =>
      refine ⟨{ s with queue := { s.queue with
        blq := { s.queue.blq with
          q := Function.update s.queue.blq.q (smap.toFun write.toNat) m' }
        writer := .storeWrite m' next } }, ?_, ?_, hcons⟩
      · simp [producerStep, hp, hw, writerStep]
      · simp [PoolState.producerRank, hp, hw]
    | storeWrite m' next =>
      refine ⟨{ s with
        queue := { s.queue with
          blq := { s.queue.blq with write := next }
          writer := .idle
          written := s.queue.written ++ [m']
          writeReturns := s.queue.writeReturns ++ [(m', 0)] }
        producer := .loadStop }, ?_, ?_, hcons⟩
      · simp [producerStep, hp, hw, writerStep, QueueState.wroteLast]
      · simp [PoolState.producerRank, hp, hw]

/-- **Threads that are not cornered return**: first the consumer, then the producer, which finds
room in the queue.

**Proof sketch.** Induction on a rank that weighs the consumer's by more than any rank of the
producer (`exists_run_of_rank`). A step of threads that are not cornered leaves them so. -/
lemma exists_run_returned (hn : n = 2 ^ k) (h2 : 2 ≤ n) (hlt : 2 * n < 2 ^ 32)
    (h : PoolInv pool smap.toFun s) (hstop : s.stop = true) (hc : ¬Cornered n s) :
    CanReturn pool smap.toFun s := by
  have hprogress : ∀ j u,
      (PoolInv pool smap.toFun u ∧ u.stop = true ∧ ¬Cornered n u ∧
        j = 7 * u.consumerRank + u.producerRank) →
      ¬(u.producer = .returned ∧ u.consumer = .returned) →
      ∃ a t i, True ∧ poolStep pool smap.toFun u a = some t ∧ i < j ∧
        (PoolInv pool smap.toFun t ∧ t.stop = true ∧ ¬Cornered n t ∧
          i = 7 * t.consumerRank + t.producerRank) := by
    rintro j u ⟨hu, hstop, hc, rfl⟩ hG
    by_cases hret : u.consumer = .returned
    · have hprod : u.producer ≠ .returned := fun hp => hG ⟨hp, hret⟩
      obtain ⟨t, hstep, hrank, hcons⟩ := exists_producerStep hn hlt hu hstop hret hprod hc
      have hkeep := not_cornered_of_poolStep hu h2 (a := .producer) hstop hc hstep
      refine ⟨.producer, t, _, trivial, hstep, ?_, poolStep_inv hn hlt (a := .producer) hu hstep,
        (producerStep_cases hstep).1.trans hstop, hkeep, rfl⟩
      simp only [PoolState.consumerRank, hret, hcons]
      omega
    · obtain ⟨t, hstep, hrank, hprod⟩ := @exists_consumerStep u smap.toFun hstop hret
      have hkeep := not_cornered_of_poolStep hu h2 (a := .consumer) hstop hc hstep
      refine ⟨.consumer, t, _, trivial, hstep, ?_, poolStep_inv hn hlt (a := .consumer) hu hstep,
        (consumerStep_cases hu hstep).1.trans hstop, hkeep, rfl⟩
      omega
  obtain ⟨as, t, -, hrun, hG⟩ := exists_run_of_rank (A := fun _ => True) hprogress
    ⟨h, hstop, hc, rfl⟩
  exact ⟨as, t, hrun, hG⟩

/-- Threads that are cornered when the signal has come do not both return. -/
lemma not_canReturn_of_cornered (hn : n = 2 ^ k) (hlt : 2 * n < 2 ^ 32)
    (h : PoolInv pool smap.toFun s) (hstop : s.stop = true) (hc : Cornered n s) :
    ¬CanReturn pool smap.toFun s := by
  rintro ⟨as, t, hrun, hp, -⟩
  obtain ⟨-, -, -, -, hret, -⟩ :
      PoolInv pool smap.toFun t ∧ t.stop = true ∧ Cornered n t :=
    invariant_of_run (I := fun u => PoolInv pool smap.toFun u ∧ u.stop = true ∧ Cornered n u)
      (fun _ _ _ hu hstep =>
        ⟨poolStep_inv hn hlt hu.1 hstep, doomed_of_poolStep hn hlt hu.1 hu.2.1 hu.2.2 hstep⟩)
      ⟨h, hstop, hc⟩ hrun
  exact hret hp

/-- A step with the signal in time leaves the threads able to return, if it comes. -/
lemma not_doomed_of_poolStep (h : PoolInv pool smap.toFun s) (h2 : 2 ≤ n) {a : PoolAct}
    (hc : s.stop = true → ¬Cornered n s) (htime : SignalInTime n s a)
    (hstep : poolStep pool smap.toFun s a = some t) (hstop' : t.stop = true) : ¬Cornered n t := by
  cases hstop : s.stop with
  | true => exact not_cornered_of_poolStep h h2 hstop (hc hstop) hstep
  | false =>
    -- only the handler sets `stop`
    cases a with
    | producer =>
      rw [(producerStep_cases hstep).1, hstop] at hstop'
      contradiction
    | consumer =>
      rw [(consumerStep_cases h hstep).1, hstop] at hstop'
      contradiction
    | sigint =>
      obtain rfl := Option.some.inj hstep
      exact htime

end Steps

/-- **When the shutdown works.** For every power of two `qlen ≥ 2` that `blq_init` accepts, every
pool, every slot map that is injective on `[0, qlen)` and every interleaving of the two threads and
the signal handler: in all states of a run the producer is not stranded and, once `stop` is set,
both threads can return, exactly if the signal never arrives while the queue is full, the producer
is past its check of `stop` and the consumer is past its call of `lq_read`.

**Proof sketch.** Only the signal can make threads that are not cornered into cornered ones with
`stop` set (`not_doomed_of_poolStep`). The former return (`exists_run_returned`), the latter never
do (`doomed_of_poolStep`). -/
theorem shutsDown_iff {qlen : Word} {k : ℕ} (hpow : qlen.toNat = 2 ^ k) (h2 : 2 ≤ qlen.toNat)
    (hlt : 2 * qlen.toNat < 2 ^ 32) (pool : MbufPool qlen.toNat) (smap : SlotMap qlen.toNat) :
    ∃ blq, blqInit Blq.zero qlen = some blq ∧
      ∀ as s, run (poolStep pool smap.toFun) (PoolState.start blq) as = some s →
        (Always (poolStep pool smap.toFun) (ShutsDown pool smap.toFun) (PoolState.start blq) as ↔
          Along (poolStep pool smap.toFun) (SignalInTime qlen.toNat) (PoolState.start blq) as) := by
  have hinit := blqInit_of_pow Blq.zero hpow h2 hlt
  refine ⟨_, hinit, ?_⟩
  intro as s hrun
  refine always_iff_along (I := fun u => PoolInv pool smap.toFun u ∧
    (u.stop = true → ¬Cornered qlen.toNat u)) ?_ ?_ ?_ ?_ hrun
  · intro u a t hu htime hstep
    exact ⟨poolStep_inv hpow hlt hu.1 hstep, not_doomed_of_poolStep hu.1 h2 hu.2 htime hstep⟩
  · rintro u ⟨hu, hc⟩
    refine ⟨?_, fun hstop => exists_run_returned hpow h2 hlt hu hstop (hc hstop)⟩
    rintro ⟨hstop, hcons, ⟨m, hp⟩, hfull⟩
    exact hc hstop ⟨by simp [hcons], by simp [hp], by simp [hp], hfull⟩
  · rintro u a t ⟨hu, -⟩ hstep ⟨-, hreturn⟩
    cases a with
    | producer => trivial
    | consumer => trivial
    | sigint =>
      intro hc
      have ht := poolStep_inv hpow hlt (a := .sigint) hu hstep
      obtain rfl := Option.some.inj hstep
      exact not_canReturn_of_cornered hpow hlt ht rfl hc (hreturn rfl)
  · exact ⟨poolInv_start (queueInv_start hinit _), by simp [PoolState.start]⟩

/-- The producer fills the queue and gets the next mbuf. -/
def fillQueue : List PoolAct := List.replicate 8 .producer

/-- The signal comes; the consumer, still in `lq_read`, takes the mbuf, puts it and returns; the
producer writes the other one and returns. -/
def timelySignal : List PoolAct :=
  [.sigint] ++ (List.replicate 6 .consumer ++ List.replicate 5 .producer)

/-- The signal comes while a queue of length 2 is full, but before the consumer has left `lq_read`:
both threads return. -/
theorem shutsDown_iff_two :
    ∃ blq u s, blqInit Blq.zero 2#32 = some blq ∧
      run (poolStep smallPool (SlotMap.id 2).toFun) (PoolState.start blq) fillQueue = some u ∧
      u.queue.size = 1 ∧ u.consumer = .read ∧
      run (poolStep smallPool (SlotMap.id 2).toFun) u timelySignal = some s ∧
      s.producer = .returned ∧ s.consumer = .returned ∧
      Always (poolStep smallPool (SlotMap.id 2).toFun) (ShutsDown smallPool (SlotMap.id 2).toFun)
        (PoolState.start blq) (fillQueue ++ timelySignal) := by
  obtain ⟨blq, hblq, hall⟩ := @shutsDown_iff 2#32 1 rfl (by decide) (by decide) smallPool
    (SlotMap.id 2)
  obtain rfl := Option.some.inj hblq
  have hfill : run (poolStep smallPool (SlotMap.id 2).toFun) (PoolState.start
      { Blq.zero with qlen := 2#32, qmask := 2#32 - 1#32 }) fillQueue = some _ := rfl
  refine ⟨_, _, _, rfl, hfill, by decide, rfl, rfl, rfl, rfl,
    (hall _ _ (run_trans hfill rfl)).mpr (Along.append ?_ hfill (Along.append ?_ rfl ?_))⟩
  · exact along_of_forall (fun a ha _ => by rw [List.eq_of_mem_replicate ha]; trivial) _
  · exact ⟨fun hcornered => hcornered.1 rfl, fun _ _ => trivial⟩
  · refine along_of_forall (fun a ha _ => ?_) _
    rcases List.mem_append.mp ha with ha | ha
    · rw [List.eq_of_mem_replicate ha]
      trivial
    · rw [List.eq_of_mem_replicate ha]
      trivial

/-- The producer writes an mbuf and the consumer takes it; the producer fills the queue again and
passes its check; the signal comes; the consumer returns, and the producer has an mbuf to write. -/
def lateSignal : List PoolAct :=
  List.replicate 6 .producer ++ List.replicate 4 .consumer ++ List.replicate 7 .producer ++
    [.sigint, .consumer, .consumer, .producer]

/-- **A run that strands the producer** of a queue of length 2. -/
theorem producer_stranded :
    ∃ blq s, blqInit Blq.zero 2#32 = some blq ∧
      run (poolStep smallPool (SlotMap.id 2).toFun) (PoolState.start blq) lateSignal = some s ∧
      Stranded 2 s :=
  ⟨_, _, rfl, rfl, rfl, rfl, ⟨_, rfl⟩, by decide⟩

end Huc
