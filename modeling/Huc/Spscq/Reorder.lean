import Huc.Spscq.Tso

set_option relaxedAutoImplicit false
set_option autoImplicit false

/-!
# What the store buffers change

The accesses of `Huc.queueStep` on sequentially consistent memory are the runs of `Huc.tsoStep` in
which every store drains at once. The converse fails, and not only for the order of the accesses but
for what the two calls return: the producer may find a queue full that the consumer, by what it has
returned, has already begun to empty, while the consumer finds it empty. On sequentially consistent
memory one of the two would have seen the other's store.

What a call needs of the other side is the same with buffers as without: nothing. Each call returns
after at most four accesses of its own side.

## Main definitions

* `Huc.TsoState.toQueue`, `Huc.TsoState.Drained` — the queue as its two owners see it.
* `Huc.TsoState.producerAccesses`, `Huc.TsoState.consumerAccesses` — the accesses of either side in
  a run.

## Main results

* `Huc.exists_tso_run_of_queue` — every sequentially consistent run is one with store buffers.
* `Huc.tso_waitFree` — a bound on the accesses of a call, whatever the other side does.
* `Huc.tso_consumer_alone` — the consumer alone takes all that memory shows written.
* `Huc.tso_returns_not_sc` — returns that only the store buffers make possible.
-/

namespace Huc

open Transition StoreBuffer

/-! ## Sequentially consistent runs -/

section Drained

variable {δ ε : Type} (put : δ → ε → δ)

/-- The queue as its two owners see it. -/
def TsoState.toQueue (s : TsoState δ ε) : QueueState where
  blq :=
    { write := (s.own put).write
      read := s.ownRead
      qlen := s.qlen
      qmask := s.qmask
      q := (s.own put).q }
  writer := s.writer
  reader := s.reader
  written := s.written
  writeReturns := s.writeReturns
  readReturns := s.readReturns

/-- No store is on the way to memory. -/
def TsoState.Drained (s : TsoState δ ε) : Prop := s.producer.buf = [] ∧ s.consumer.buf = []

variable {put} {smap : ℕ → ℕ} {q q' : QueueState} {s t : TsoState δ ε}

/-- **An access on sequentially consistent memory** is the same access with its store, if it makes
one, drained at once.

**Proof sketch.** By the access. Drained, both sides load what the single memory holds. A store goes
to the end of an empty buffer, and the flush after it brings it to memory. -/
lemma exists_tso_run_of_queueStep {a : QueueAct} (hdrained : s.Drained) (hq : s.toQueue put = q)
    (hstep : queueStep smap q a = some q') :
    ∃ bs t, run (tsoStep put smap) s bs = some t ∧ t.Drained ∧ t.toQueue put = q' := by
  obtain
    ⟨qlen, qmask, ⟨mem, buf⟩, ⟨read, reads⟩, writer, reader, written, wr, rr, stores, before⟩ := s
  obtain ⟨rfl, rfl⟩ : buf = [] ∧ reads = [] := hdrained
  subst hq
  cases a with
  | lqWrite m =>
    obtain ⟨hm, rfl⟩ := startWrite_cases hstep
    cases writer with
    | idle =>
      exact ⟨[.lqWrite m], _, (run_singleton _ _).trans (if_pos hm), ⟨rfl, rfl⟩, rfl⟩
    | _ => simp [queueStep, startWrite, TsoState.toQueue] at hstep
  | producer =>
    cases writer with
    | idle => simp [queueStep, writerStep, TsoState.toQueue] at hstep
    | loadRead m write =>
      -- without stores on the way both sides see the same `q->read`
      by_cases hfull : (write + 1#32) &&& qmask = read
      · obtain rfl := Option.some.inj ((if_pos hfull).symm.trans hstep)
        exact ⟨[.producer], _, (run_singleton _ _).trans (if_pos hfull), ⟨rfl, rfl⟩, rfl⟩
      · obtain rfl := Option.some.inj ((if_neg hfull).symm.trans hstep)
        exact ⟨[.producer], _, (run_singleton _ _).trans (if_neg hfull), ⟨rfl, rfl⟩, rfl⟩
    | storeSlot m write next =>
      obtain rfl := Option.some.inj hstep
      exact ⟨[.producer, .flushProducer], _, rfl, ⟨rfl, rfl⟩, rfl⟩
    | storeWrite m next =>
      obtain rfl := Option.some.inj hstep
      exact ⟨[.producer, .flushProducer], _, rfl, ⟨rfl, rfl⟩, rfl⟩
  | consumer =>
    cases reader with
    | loadRead =>
      obtain rfl := Option.some.inj hstep
      exact ⟨[.consumer], _, rfl, ⟨rfl, rfl⟩, rfl⟩
    | loadWrite read' =>
      by_cases hempty : read' = mem.write
      · obtain rfl := (if_pos hempty).symm.trans (Option.some.inj hstep)
        exact ⟨[.consumer], _, (run_singleton _ _).trans (congrArg some (if_pos hempty)),
          ⟨rfl, rfl⟩, rfl⟩
      · obtain rfl := (if_neg hempty).symm.trans (Option.some.inj hstep)
        exact ⟨[.consumer], _, (run_singleton _ _).trans (congrArg some (if_neg hempty)),
          ⟨rfl, rfl⟩, rfl⟩
    | loadSlot read =>
      obtain rfl := Option.some.inj hstep
      exact ⟨[.consumer], _, rfl, ⟨rfl, rfl⟩, rfl⟩
    | storeRead read m =>
      obtain rfl := Option.some.inj hstep
      exact ⟨[.consumer, .flushConsumer], _, rfl, ⟨rfl, rfl⟩, rfl⟩

end Drained

/-- **Every sequentially consistent run of the queue is a run under total store order**, whatever
else the producer owns: one in which every store drains at once. -/
theorem exists_tso_run_of_queue {δ ε : Type} (put : δ → ε → δ) (d₀ : δ) {smap : ℕ → ℕ} {blq : Blq}
    {as : List QueueAct} {q : QueueState}
    (hrun : run (queueStep smap) (QueueState.start blq) as = some q) :
    ∃ bs t, run (tsoStep put smap) (TsoState.start ε blq d₀) bs = some t ∧
      t.Drained ∧ t.toQueue put = q := by
  refine exists_run_of_simulation (R := fun q (t : TsoState δ ε) => t.Drained ∧ t.toQueue put = q)
    (fun q t a q' hR hstep => ?_) ⟨⟨rfl, rfl⟩, rfl⟩ hrun
  exact exists_tso_run_of_queueStep hR.1 hR.2 hstep

/-- A value written and taken on sequentially consistent memory, with store buffers. -/
theorem exists_tso_run_of_queue_two :
    ∃ q, run (queueStep (SlotMap.id 2).toFun) (QueueState.start Blq.two) twoWrites = some q ∧
      ∃ bs t, run (tsoStep (fun (d : ℕ) (_ : ℕ) => d) (SlotMap.id 2).toFun)
        (TsoState.start ℕ Blq.two 0) bs = some t ∧ t.Drained ∧ t.toQueue (fun d _ => d) = q := by
  have hsome : (run (queueStep (SlotMap.id 2).toFun) (QueueState.start Blq.two)
      twoWrites).isSome := by decide +kernel
  have hrun := (Option.some_get hsome).symm
  exact ⟨_, hrun, exists_tso_run_of_queue _ _ hrun⟩

/-! ## The accesses of a call -/

section Accesses

variable {δ ε : Type} {put : δ → ε → δ} {d₀ : δ} {n k : ℕ} {smap : SlotMap n} {s t : TsoState δ ε}

/-- An access of the producer to the queue. -/
def TsoAct.isProducer {ε : Type} : TsoAct ε → Bool
  | .lqWrite _ => true
  | .producer => true
  | _ => false

/-- An access of the consumer. -/
def TsoAct.isConsumer {ε : Type} : TsoAct ε → Bool
  | .consumer => true
  | _ => false

/-- The accesses that the call of `lq_write` in progress has made. -/
def LqWrite.made : LqWrite → ℕ
  | .idle => 0
  | .loadRead _ _ => 1
  | .storeSlot _ _ _ => 2
  | .storeWrite _ _ => 3

/-- The accesses that the call of `lq_read` in progress has made. -/
def LqRead.made : LqRead → ℕ
  | .loadRead => 0
  | .loadWrite _ => 1
  | .loadSlot _ => 2
  | .storeRead _ _ => 3

/-- The accesses that the producer has made to the queue: four for a value written, two for a call
that found no room. -/
def TsoState.producerAccesses (s : TsoState δ ε) : ℕ :=
  4 * s.written.length + 2 * s.writeReturns.countP (fun p => p.2 = -1) + s.writer.made

/-- The accesses that the consumer has made: four for a value taken, two for a call that found
none. -/
def TsoState.consumerAccesses (s : TsoState δ ε) : ℕ :=
  4 * s.taken.length + 2 * s.readReturns.countP (fun m => m = 0#64) + s.reader.made

/-- An access of `lq_write` is one access of the producer. -/
lemma producerAccesses_tsoWriterStep {smap : ℕ → ℕ} (hstep : tsoWriterStep smap s = some t) :
    t.producerAccesses = s.producerAccesses + 1 ∧ t.consumerAccesses = s.consumerAccesses := by
  unfold tsoWriterStep at hstep
  cases hw : s.writer with
  | idle => simp [hw] at hstep
  | loadRead m write =>
    simp only [hw] at hstep
    split_ifs at hstep <;> obtain rfl := Option.some.inj hstep
    · refine ⟨?_, rfl⟩
      simp [TsoState.producerAccesses, hw, LqWrite.made]
      omega
    · exact ⟨by simp [TsoState.producerAccesses, hw, LqWrite.made], rfl⟩
  | storeSlot m write next =>
    simp only [hw] at hstep
    obtain rfl := Option.some.inj hstep
    exact ⟨by simp [TsoState.producerAccesses, hw, LqWrite.made], rfl⟩
  | storeWrite m next =>
    simp only [hw] at hstep
    obtain rfl := Option.some.inj hstep
    refine ⟨?_, rfl⟩
    simp [TsoState.producerAccesses, hw, LqWrite.made]
    omega

/-- An access of `lq_read` is one access of the consumer. -/
lemma consumerAccesses_tsoReaderStep (h : TsoInv put d₀ n smap.toFun s) :
    (tsoReaderStep smap.toFun s).producerAccesses = s.producerAccesses ∧
      (tsoReaderStep smap.toFun s).consumerAccesses = s.consumerAccesses + 1 := by
  have hok := h.reader_ok
  unfold TsoState.ReaderOk at hok
  unfold tsoReaderStep
  cases hr : s.reader with
  | loadRead => exact ⟨rfl, by simp [TsoState.consumerAccesses, TsoState.taken, hr, LqRead.made]⟩
  | loadWrite read =>
    dsimp only
    split_ifs
    · refine ⟨rfl, ?_⟩
      simp [TsoState.consumerAccesses, TsoState.taken, hr, LqRead.made]
      omega
    · exact ⟨rfl, by simp [TsoState.consumerAccesses, TsoState.taken, hr, LqRead.made]⟩
  | loadSlot read =>
    exact ⟨rfl, by simp [TsoState.consumerAccesses, TsoState.taken, hr, LqRead.made]⟩
  | storeRead read m =>
    simp only [hr] at hok
    have hm : m ≠ 0#64 := h.ne_zero m (List.mem_of_getElem? hok.2.2)
    refine ⟨rfl, ?_⟩
    simp [TsoState.consumerAccesses, TsoState.taken, hr, LqRead.made, hm]
    omega

/-- **What a step adds to the accesses of the two sides.** -/
lemma accesses_tsoStep {a : TsoAct ε} (h : TsoInv put d₀ n smap.toFun s)
    (hstep : tsoStep put smap.toFun s a = some t) :
    t.producerAccesses = s.producerAccesses + [a].countP TsoAct.isProducer ∧
      t.consumerAccesses = s.consumerAccesses + [a].countP TsoAct.isConsumer := by
  cases a with
  | lqWrite m =>
    obtain ⟨hw, -, rfl⟩ := tsoStartWrite_cases hstep
    exact ⟨by simp [TsoState.producerAccesses, hw, LqWrite.made, TsoAct.isProducer], rfl⟩
  | producer => exact producerAccesses_tsoWriterStep hstep
  | consumer =>
    obtain rfl := Option.some.inj hstep
    exact consumerAccesses_tsoReaderStep h
  | store e =>
    obtain ⟨-, rfl⟩ := tsoStore_cases hstep
    exact ⟨rfl, rfl⟩
  | flushProducer =>
    obtain ⟨p, -, rfl⟩ := Option.map_eq_some_iff.mp hstep
    exact ⟨rfl, rfl⟩
  | flushConsumer =>
    obtain ⟨p, -, rfl⟩ := Option.map_eq_some_iff.mp hstep
    exact ⟨rfl, rfl⟩

/-- The accesses of a run, counted by what the calls have returned. -/
lemma accesses_run (hn : n = 2 ^ k) (hlt : n < 2 ^ 32) {as : List (TsoAct ε)}
    (h : TsoInv put d₀ n smap.toFun s) (hrun : run (tsoStep put smap.toFun) s as = some t) :
    t.producerAccesses = s.producerAccesses + as.countP TsoAct.isProducer ∧
      t.consumerAccesses = s.consumerAccesses + as.countP TsoAct.isConsumer := by
  induction as generalizing s with
  | nil =>
    obtain rfl : s = t := by simpa using hrun
    exact ⟨rfl, rfl⟩
  | cons a as ih =>
    obtain ⟨u, hstep, hrest⟩ := run_cons.mp hrun
    obtain ⟨hp, hc⟩ := accesses_tsoStep h hstep
    obtain ⟨ihp, ihc⟩ := ih (tsoStep_inv hn hlt h hstep) hrest
    have hcons : ∀ f : TsoAct ε → Bool, (a :: as).countP f = [a].countP f + as.countP f :=
      fun f => show ([a] ++ as).countP f = _ from List.countP_append
    rw [hcons, hcons, ihp, ihc, hp, hc, Nat.add_assoc, Nat.add_assoc]
    exact ⟨rfl, rfl⟩

end Accesses

/-- **Both calls are wait-free.** In every run the producer has made four accesses for each value
written, two for each call that returned -1, and at most three in the call in progress; the consumer
has made four for each value taken, two for each call that returned 0, and at most three in the
call in progress. What the other side does and when the stores drain does not matter. -/
theorem tso_waitFree {δ ε : Type} (put : δ → ε → δ) (d₀ : δ) {qlen : Word} {blq : Blq}
    (hinit : blqInit Blq.zero qlen = some blq) (smap : SlotMap qlen.toNat) {as : List (TsoAct ε)}
    {s : TsoState δ ε}
    (hrun : run (tsoStep put smap.toFun) (TsoState.start ε blq d₀) as = some s) :
    as.countP TsoAct.isProducer = 4 * s.written.length +
        2 * s.writeReturns.countP (fun p => p.2 = -1) + s.writer.made ∧
      as.countP TsoAct.isConsumer = 4 * s.taken.length +
        2 * s.readReturns.countP (fun m => m = 0#64) + s.reader.made ∧
      s.writer.made ≤ 3 ∧ s.reader.made ≤ 3 := by
  obtain ⟨⟨k, hk⟩, -, -⟩ := blqInit_eq_some hinit
  obtain ⟨hp, hc⟩ := accesses_run hk qlen.isLt (tsoInv_start put d₀ hinit _) hrun
  have hstart : (TsoState.start ε blq d₀).producerAccesses = 0 ∧
      (TsoState.start ε blq d₀).consumerAccesses = 0 := ⟨rfl, rfl⟩
  rw [hstart.1, Nat.zero_add] at hp
  rw [hstart.2, Nat.zero_add] at hc
  refine ⟨hp.symm, hc.symm, ?_, ?_⟩
  · cases s.writer <;> simp [LqWrite.made]
  · cases s.reader <;> simp [LqRead.made]

/-- Four accesses of either side for one value. -/
theorem tso_waitFree_two :
    ∃ s, blqInit Blq.zero 2#32 = some Blq.two ∧
      run (tsoStep (fun _ e => e) (SlotMap.id 2).toFun) (TsoState.start ℕ Blq.two 0) oneDelayed =
        some s ∧ oneDelayed.countP TsoAct.isProducer = 4 ∧
      oneDelayed.countP TsoAct.isConsumer = 4 * s.taken.length +
        2 * s.readReturns.countP (fun m => m = 0#64) + s.reader.made := by
  obtain ⟨s, hrun, -⟩ := run_oneDelayed
  exact ⟨s, rfl, hrun, by decide,
    (@tso_waitFree ℕ ℕ (fun _ e => e) 0 2#32 _ rfl (SlotMap.id 2) oneDelayed s hrun).2.1⟩

/-! ## One side alone -/

section Alone

variable {δ ε : Type} {put : δ → ε → δ} {d₀ : δ} {n k : ℕ} {smap : SlotMap n} {s : TsoState δ ε}

/-- What the accesses of the consumer leave as it is until its stores drain. -/
structure TsoState.OnlyTakes (s t : TsoState δ ε) : Prop where
  producer : t.producer = s.producer
  written : t.written = s.written
  writer : t.writer = s.writer
  writeReturns : t.writeReturns = s.writeReturns
  visiblyTaken : t.visiblyTaken = s.visiblyTaken

/-- The accesses of the consumer in two runs in a row. -/
lemma TsoState.OnlyTakes.trans {t u : TsoState δ ε} (h : s.OnlyTakes t) (h' : t.OnlyTakes u) :
    s.OnlyTakes u :=
  ⟨h'.producer.trans h.producer, h'.written.trans h.written, h'.writer.trans h.writer,
    h'.writeReturns.trans h.writeReturns, h'.visiblyTaken.trans h.visiblyTaken⟩

/-- The consumer has taken all that memory shows written, and has seen that there is no more. -/
def TsoState.SawEmpty (s : TsoState δ ε) : Prop :=
  s.taken.length = s.visiblyWritten ∧ s.readReturns.getLast? = some 0#64

/-- The accesses that the consumer has to make before it sees the queue empty. -/
def TsoState.toTake (s : TsoState δ ε) : ℕ :=
  4 * (s.visiblyWritten - s.taken.length) + 4 - s.reader.made

/-- **An access of the consumer brings it closer to an empty queue.**

**Proof sketch.** By the position in the call: each access leaves fewer accesses to make, and the
final one takes a value. The load of `q->write` that ends the call is the one at which everything
memory shows is taken. -/
lemma toTake_tsoReaderStep (h : TsoInv put d₀ n smap.toFun s) :
    (tsoReaderStep smap.toFun s).toTake < s.toTake ∨
      (tsoReaderStep smap.toFun s).SawEmpty := by
  have hok := h.reader_ok
  have hvis := h.visible
  unfold TsoState.ReaderOk at hok
  unfold tsoReaderStep
  cases hr : s.reader with
  | loadRead =>
    left
    simp [TsoState.toTake, TsoState.taken, TsoState.visiblyWritten, hr, LqRead.made]
  | loadWrite read =>
    simp only [hr] at hok ⊢
    split_ifs with hempty
    · right
      rw [hok, h.ownRead_eq_iff] at hempty
      refine ⟨?_, List.getLast?_concat⟩
      simpa [TsoState.taken, TsoState.visiblyWritten] using hempty
    · left
      simp [TsoState.toTake, TsoState.taken, TsoState.visiblyWritten, hr, LqRead.made]
  | loadSlot read =>
    left
    simp [TsoState.toTake, TsoState.taken, TsoState.visiblyWritten, hr, LqRead.made]
  | storeRead read m =>
    left
    simp only [hr] at hok
    have hm : m ≠ 0#64 := h.ne_zero m (List.mem_of_getElem? hok.2.2)
    have hmore : s.taken.length < s.visiblyWritten := by omega
    simp [TsoState.toTake, TsoState.taken, TsoState.visiblyWritten, hr, LqRead.made, hm] at *
    omega

/-- An access of the consumer changes nothing that the producer can see. -/
lemma onlyTakes_tsoReaderStep (h : TsoInv put d₀ n smap.toFun s) :
    s.OnlyTakes (tsoReaderStep smap.toFun s) := by
  obtain ⟨hproducer, hwriter, hwritten, -, -, hreturns⟩ := (tsoReaderStep_cases smap.toFun s).1
  refine ⟨hproducer, hwritten, hwriter, hreturns, ?_⟩
  have hok := h.reader_ok
  unfold TsoState.ReaderOk at hok
  unfold tsoReaderStep
  cases hr : s.reader with
  | loadRead => rfl
  | loadWrite read =>
    dsimp only
    split_ifs
    · simp [TsoState.visiblyTaken, TsoState.taken]
    · rfl
  | loadSlot read => rfl
  | storeRead read m =>
    simp only [hr] at hok
    have hm : m ≠ 0#64 := h.ne_zero m (List.mem_of_getElem? hok.2.2)
    simp [TsoState.visiblyTaken, TsoState.taken, hm]

/-- The consumer is always at least one access away from seeing the queue empty again. -/
lemma toTake_pos (s : TsoState δ ε) : 0 < s.toTake := by
  unfold TsoState.toTake
  cases s.reader <;> simp only [LqRead.made] <;> omega

/-- **The consumer alone sees the queue empty after finitely many accesses**, and changes nothing
of the producer's. -/
lemma exists_run_sawEmpty (hn : n = 2 ^ k) (hlt : n < 2 ^ 32) (h : TsoInv put d₀ n smap.toFun s) :
    ∃ as t, (∀ a ∈ as, a = .consumer) ∧ run (tsoStep put smap.toFun) s as = some t ∧
      s.OnlyTakes t ∧ t.SawEmpty := by
  let I : ℕ → TsoState δ ε → Prop := fun r t =>
    (TsoInv put d₀ n smap.toFun t ∧ s.OnlyTakes t) ∧ (t.toTake = r ∨ t.SawEmpty)
  have hprogress : ∀ r t, I r t → ¬(s.OnlyTakes t ∧ t.SawEmpty) →
      ∃ a u j, a = .consumer ∧ tsoStep put smap.toFun t a = some u ∧ j < r ∧ I j u := by
    rintro r t ⟨⟨ht, hsame⟩, hr⟩ hnot
    have hinv := tsoReaderStep_inv hn hlt ht
    have hsame' : s.OnlyTakes (tsoReaderStep smap.toFun t) :=
      hsame.trans (onlyTakes_tsoReaderStep ht)
    obtain rfl : t.toTake = r := hr.resolve_right fun hsaw => hnot ⟨hsame, hsaw⟩
    rcases toTake_tsoReaderStep ht with hlt' | hsaw
    · exact ⟨_, _, _, rfl, rfl, hlt', ⟨hinv, hsame'⟩, Or.inl rfl⟩
    · exact ⟨_, _, 0, rfl, rfl, toTake_pos t, ⟨hinv, hsame'⟩, Or.inr hsaw⟩
  obtain ⟨as, t, has, hrun, hsame, hsaw⟩ := exists_run_of_rank hprogress
    (show I s.toTake s from ⟨⟨h, rfl, rfl, rfl, rfl, rfl⟩, Or.inl rfl⟩)
  exact ⟨as, t, has, hrun, hsame, hsaw⟩

end Alone

/-- **The consumer alone takes all that memory shows written.** From every state of every run the
consumer's accesses alone, a finite number of them, lead to a state in which it has taken exactly
the values that memory showed written, in order, and its last call has returned 0. -/
theorem tso_consumer_alone {δ ε : Type} (put : δ → ε → δ) (d₀ : δ) {qlen : Word} {blq : Blq}
    (hinit : blqInit Blq.zero qlen = some blq) (smap : SlotMap qlen.toNat) {as : List (TsoAct ε)}
    {s : TsoState δ ε}
    (hrun : run (tsoStep put smap.toFun) (TsoState.start ε blq d₀) as = some s) :
    ∃ c t, run (tsoStep put smap.toFun) s (List.replicate c .consumer) = some t ∧
      t.taken = s.written.take s.visiblyWritten ∧ t.readReturns.getLast? = some 0#64 := by
  obtain ⟨⟨k, hk⟩, -, -⟩ := blqInit_eq_some hinit
  have hinv := tsoInv_of_run put d₀ hinit smap hrun
  obtain ⟨bs, t, hbs, hrun', hsame, hsaw⟩ := exists_run_sawEmpty hk qlen.isLt hinv
  have ht : TsoInv put d₀ qlen.toNat smap.toFun t :=
    invariant_of_run (fun _ _ _ => tsoStep_inv hk qlen.isLt) hinv hrun'
  have hvis : t.visiblyWritten = s.visiblyWritten := by
    rw [TsoState.visiblyWritten, TsoState.visiblyWritten, hsame.producer, hsame.written]
  refine ⟨bs.length, t, ?_, ?_, hsaw.2⟩
  · rwa [← List.eq_replicate_of_mem hbs]
  · rw [← hvis, ← hsame.written, ← hsaw.1]
    exact List.prefix_iff_eq_take.mp ht.taken_prefix

/-- The consumer alone after a run of a queue of length 2. -/
theorem tso_consumer_alone_two :
    ∃ s, blqInit Blq.zero 2#32 = some Blq.two ∧
      run (tsoStep (fun _ e => e) (SlotMap.id 2).toFun) (TsoState.start ℕ Blq.two 0) oneDelayed =
        some s ∧
      ∃ c t, run (tsoStep (fun _ e => e) (SlotMap.id 2).toFun) s (List.replicate c .consumer) =
        some t ∧ t.taken = s.written.take s.visiblyWritten ∧
        t.readReturns.getLast? = some 0#64 := by
  obtain ⟨s, hrun, -⟩ := run_oneDelayed
  exact ⟨s, rfl, hrun,
    @tso_consumer_alone ℕ ℕ (fun _ e => e) 0 2#32 _ rfl (SlotMap.id 2) oneDelayed s hrun⟩

/-! ## Full and empty at once -/

section NotSc

/-- On sequentially consistent memory, after a call of `lq_write` has found a queue of length `n`
full and before an `n`-th value is written, the consumer has seen the queue empty only before it
took the first value or after it took `n - 1`. -/
structure QueueState.FullOrEmpty (n : ℕ) (s : QueueState) : Prop where
  full : ∀ m, (m, -1) ∈ s.writeReturns → n - 1 ≤ s.written.length
  empty : s.written.length ≤ n - 1 → (∃ m, (m, -1) ∈ s.writeReturns) →
    ∀ pre post, s.readReturns = pre ++ 0#64 :: post →
      (pre.filter (· ≠ 0#64)).length = 0 ∨ n - 1 ≤ (pre.filter (· ≠ 0#64)).length

variable {n k : ℕ} {smap : SlotMap n}

/-- A return of 0 after which one more call has returned is a return of 0 before, or the last. -/
lemma split_of_concat {l pre post : List Ptr} {m : Ptr} (h : l ++ [m] = pre ++ 0#64 :: post) :
    (l = pre ∧ m = 0#64) ∨ ∃ post', l = pre ++ 0#64 :: post' := by
  rcases List.eq_nil_or_concat post with rfl | ⟨post, y, rfl⟩
  · obtain ⟨hl, hm⟩ := List.append_inj' h rfl
    exact Or.inl ⟨hl, by simpa using hm⟩
  · rw [List.concat_eq_append, ← List.cons_append, ← List.append_assoc] at h
    exact Or.inr ⟨post, (List.append_inj' h rfl).1⟩

/-- **Every access on sequentially consistent memory keeps the two apart.**

**Proof sketch.** A return of -1 finds `n - 1` values more written than taken; if no more than
`n - 1` have been written at all, none has been taken, so that no return so far was a value. A
return of 0 finds all values written taken, and after a return of -1 these are at least `n - 1`.
Every other access adds no such return. -/
lemma QueueState.FullOrEmpty.step (hn : n = 2 ^ k) (hlt : n < 2 ^ 32) (h2 : 2 ≤ n)
    {s t : QueueState} {a : QueueAct} (h : s.FullOrEmpty n) (hinv : QueueInv n smap.toFun s)
    (hstep : queueStep smap.toFun s a = some t) : t.FullOrEmpty n := by
  have hle := hinv.taken_prefix.length_le
  cases a with
  | lqWrite m =>
    obtain ⟨-, rfl⟩ := startWrite_cases hstep
    exact ⟨h.full, h.empty⟩
  | producer =>
    obtain ⟨hread, m, -, ⟨-, hwr, hret⟩ | ⟨-, hwr, hret⟩ | ⟨-, hwr, hret⟩⟩ :=
      writerStep_cases hstep
    · exact ⟨by rw [hret, hwr]; exact h.full, by rw [hret, hwr, hread]; exact h.empty⟩
    · -- the call found the queue full, and no value had been taken unless one more was written
      have hsize := size_of_writeReturns hn hlt hinv hstep hret
      unfold QueueState.size at hsize
      refine ⟨fun _ _ => by rw [hwr]; omega, fun hwle _ pre post hsplit => Or.inl ?_⟩
      rw [hwr] at hwle
      have hpre : (pre.filter (· ≠ 0#64)).length ≤ s.taken.length := by
        rw [QueueState.taken, ← hread, hsplit, List.filter_append, List.length_append]
        exact Nat.le_add_right _ _
      omega
    · -- one more value
      have hlen : t.written.length = s.written.length + 1 := by rw [hwr]; simp
      have hold : ∀ m', (m', -1) ∈ t.writeReturns → (m', -1) ∈ s.writeReturns := by
        intro m' hm'
        simpa [hret] using hm'
      refine ⟨fun m' hm' => ?_, fun hwle hfull => ?_⟩
      · have := h.full m' (hold m' hm')
        omega
      · obtain ⟨m', hm'⟩ := hfull
        have := h.full m' (hold m' hm')
        omega
  | consumer =>
    obtain rfl := Option.some.inj hstep
    obtain ⟨-, hwr, hret, ⟨-, hread⟩ | ⟨-, hread⟩ | ⟨read, m, hr, -, hread⟩⟩ :=
      readerStep_cases smap.toFun s
    · exact ⟨by rw [hret, hwr]; exact h.full, by rw [hret, hwr, hread]; exact h.empty⟩
    · -- the call found the queue empty: all values written are taken
      have hsize := size_of_readReturns (a := .consumer) hinv rfl hread
      unfold QueueState.size at hsize
      refine ⟨by rw [hret, hwr]; exact h.full, fun hwle hfull pre post hsplit => ?_⟩
      rw [hret] at hfull
      rw [hwr] at hwle
      rw [hread] at hsplit
      rcases split_of_concat hsplit with ⟨rfl, -⟩ | ⟨post', hsplit⟩
      · obtain ⟨m, hm⟩ := hfull
        have hmin := h.full m hm
        right
        change n - 1 ≤ s.taken.length
        omega
      · exact h.empty hwle hfull pre post' hsplit
    · -- the call returns a value
      have hok := hinv.reader_ok
      unfold QueueState.ReaderOk at hok
      simp only [hr] at hok
      have hm : m ≠ 0#64 := hinv.ne_zero m (List.mem_of_getElem? hok.2)
      refine ⟨by rw [hret, hwr]; exact h.full, fun hwle hfull pre post hsplit => ?_⟩
      rw [hret] at hfull
      rw [hwr] at hwle
      rw [hread] at hsplit
      rcases split_of_concat hsplit with ⟨-, h0⟩ | ⟨post', hsplit⟩
      · exact absurd h0 hm
      · exact h.empty hwle hfull pre post' hsplit

/-- The two stay apart in every sequentially consistent run. -/
lemma fullOrEmpty_of_run {qlen : Word} {blq : Blq} (hinit : blqInit Blq.zero qlen = some blq)
    (smap : SlotMap qlen.toNat) {as : List QueueAct} {q : QueueState}
    (hrun : run (queueStep smap.toFun) (QueueState.start blq) as = some q) :
    QueueInv qlen.toNat smap.toFun q ∧ q.FullOrEmpty qlen.toNat := by
  obtain ⟨⟨k, hk⟩, h2, -⟩ := blqInit_eq_some hinit
  refine invariant_of_run
    (I := fun q => QueueInv qlen.toNat smap.toFun q ∧ q.FullOrEmpty qlen.toNat)
    (fun q a t h hstep =>
      ⟨queueStep_inv hk qlen.isLt h.1 hstep, h.2.step hk qlen.isLt h2 h.1 hstep⟩)
    ⟨queueInv_start hinit _, ?_⟩ hrun
  refine ⟨fun m hm => absurd hm List.not_mem_nil, fun _ hfull => ?_⟩
  obtain ⟨m, hm⟩ := hfull
  exact absurd hm List.not_mem_nil

variable {δ ε : Type} {put : δ → ε → δ} {d₀ : δ} {s : TsoState δ ε} {m : Ptr}

/-- A call of `lq_write` made in one go while memory shows room: its stores stay in the buffer. -/
lemma run_tso_lqWrite (hn : n = 2 ^ k) (hlt : n < 2 ^ 32) (h : TsoInv put d₀ n smap.toFun s)
    (hw : s.writer = .idle) (hm : m ≠ 0#64) (hroom : s.written.length + 1 < s.visiblyTaken + n) :
    ∃ t, run (tsoStep put smap.toFun) s [.lqWrite m, .producer, .producer, .producer] = some t ∧
      t.writer = .idle ∧ t.consumer = s.consumer ∧ t.reader = s.reader ∧
      t.readReturns = s.readReturns ∧ t.written = s.written ++ [m] ∧
      t.writeReturns = s.writeReturns ++ [(m, 0)] := by
  have hfull : ¬((s.own put).write + 1#32) &&& s.qmask = s.consumer.mem := by
    rw [h.next_eq_iff hn hlt]
    omega
  have hstart :
      tsoStartWrite put s m = some { s with writer := .loadRead m (s.own put).write } := by
    simp only [tsoStartWrite, hw, ne_eq, hm, not_false_eq_true, if_true]
  refine ⟨_, run_cons.mpr ⟨_, hstart, run_cons.mpr ⟨_, if_neg hfull, rfl⟩⟩, rfl, rfl, rfl, rfl, rfl,
    rfl⟩

/-- A call of `lq_write` made in one go while memory shows no room. -/
lemma run_tso_lqWrite_full (hn : n = 2 ^ k) (hlt : n < 2 ^ 32) (h : TsoInv put d₀ n smap.toFun s)
    (hw : s.writer = .idle) (hm : m ≠ 0#64) (hfull : s.written.length + 1 = s.visiblyTaken + n) :
    ∃ t, run (tsoStep put smap.toFun) s [.lqWrite m, .producer] = some t ∧
      t.readReturns = s.readReturns ∧ t.writeReturns = s.writeReturns ++ [(m, -1)] := by
  have hstart :
      tsoStartWrite put s m = some { s with writer := .loadRead m (s.own put).write } := by
    simp only [tsoStartWrite, hw, ne_eq, hm, not_false_eq_true, if_true]
  exact ⟨_, run_cons.mpr ⟨_, hstart, run_cons.mpr ⟨_, if_pos ((h.next_eq_iff hn hlt).mpr hfull),
    rfl⟩⟩, rfl, rfl⟩

/-- A call of `lq_read` made in one go while memory shows another value: its store stays in the
buffer.

**Proof sketch.** The four accesses in turn. Memory shows more values written than taken, so that
the indices differ, and the slot of the next one holds it; the final store stays in the buffer. -/
lemma run_tso_lqRead (h : TsoInv put d₀ n smap.toFun s) (hr : s.reader = .loadRead)
    (hm : s.written[s.taken.length]? = some m) (hmore : s.taken.length < s.visiblyWritten) :
    ∃ t, run (tsoStep put smap.toFun) s (List.replicate 4 .consumer) = some t ∧
      s.OnlyTakes t ∧ t.reader = .loadRead ∧ t.readReturns = s.readReturns ++ [m] := by
  have hempty : ¬s.ownRead = s.producer.mem.write := by
    rw [h.ownRead_eq_iff]
    omega
  have hslot : s.producer.mem.q (smap.toFun s.ownRead.toNat) = m := by
    obtain ⟨j, -, hmem⟩ := h.content_mem
    have hfree := h.mem_read_eq.1
    have hget := hmem.slots s.taken.length (by omega) hmore
    rw [hm, Option.some.injEq] at hget
    rw [h.ownRead_eq, hget]
  have hm0 : m ≠ 0#64 := h.ne_zero m (List.mem_of_getElem? hm)
  have hwrite : tsoReaderStep smap.toFun { s with reader := .loadWrite s.ownRead } =
      { s with reader := .loadSlot s.ownRead } := if_neg hempty
  have hload : tsoReaderStep smap.toFun { s with reader := .loadSlot s.ownRead } =
      { s with reader := .storeRead s.ownRead m } := by
    rw [← hslot]
    rfl
  refine ⟨tsoReaderStep smap.toFun { s with reader := .storeRead s.ownRead m }, ?_,
    ⟨rfl, rfl, rfl, rfl, ?_⟩, rfl, rfl⟩
  · have hread : tsoReaderStep smap.toFun s = { s with reader := .loadWrite s.ownRead } := by
      rw [tsoReaderStep, hr]
    simp only [List.replicate, run, tsoStep, Option.bind_some, hread, hwrite, hload]
  · simp [tsoReaderStep, TsoState.visiblyTaken, TsoState.taken, Part.store, hm0]

/-- A call of `lq_read` made in one go while memory shows no other value. -/
lemma run_tso_lqRead_empty (h : TsoInv put d₀ n smap.toFun s) (hr : s.reader = .loadRead)
    (hall : s.taken.length = s.visiblyWritten) :
    ∃ t, run (tsoStep put smap.toFun) s (List.replicate 2 .consumer) = some t ∧
      s.OnlyTakes t ∧ t.readReturns = s.readReturns ++ [0#64] := by
  have hread : tsoReaderStep smap.toFun s = { s with reader := .loadWrite s.ownRead } := by
    rw [tsoReaderStep, hr]
  have hempty : tsoReaderStep smap.toFun { s with reader := .loadWrite s.ownRead } =
      { s with reader := .loadRead, readReturns := s.readReturns ++ [0#64] } :=
    if_pos (h.ownRead_eq_iff.mpr hall)
  refine ⟨{ s with reader := .loadRead, readReturns := s.readReturns ++ [0#64] }, ?_,
    ⟨rfl, rfl, rfl, rfl, ?_⟩, rfl⟩
  · simp only [List.replicate, run, tsoStep, Option.bind_some, hread, hempty]
  · simp [TsoState.visiblyTaken, TsoState.taken]

/-- Calls of `lq_write` one after the other while memory shows room. -/
lemma exists_run_fill (hn : n = 2 ^ k) (hlt : n < 2 ^ 32) (hm : m ≠ 0#64) (c : ℕ)
    (h : TsoInv put d₀ n smap.toFun s) (hw : s.writer = .idle)
    (hroom : s.written.length + c < s.visiblyTaken + n) :
    ∃ as t, run (tsoStep put smap.toFun) s as = some t ∧ t.writer = .idle ∧
      t.readReturns = s.readReturns ∧ t.visiblyTaken = s.visiblyTaken ∧
      t.written.length = s.written.length + c ∧
      t.writeReturns = s.writeReturns ++ List.replicate c (m, 0) := by
  induction c generalizing s with
  | zero => exact ⟨[], s, rfl, hw, rfl, rfl, rfl, (List.append_nil _).symm⟩
  | succ c ih =>
    obtain ⟨u, hrun, huw, hcons, -, hread, hwritten, hret⟩ :=
      run_tso_lqWrite hn hlt h hw hm (by omega)
    have hlen : u.written.length = s.written.length + 1 := by rw [hwritten]; simp
    have hvis : u.visiblyTaken = s.visiblyTaken := by
      rw [TsoState.visiblyTaken, TsoState.visiblyTaken, TsoState.taken, TsoState.taken, hcons,
        hread]
    have hu : TsoInv put d₀ n smap.toFun u :=
      invariant_of_run (fun _ _ _ => tsoStep_inv hn hlt) h hrun
    obtain ⟨as, t, hrun', htw, hread', hvis', hlen', hret'⟩ := ih hu huw (by omega)
    refine ⟨_, t, run_trans hrun hrun', htw, hread'.trans hread, hvis'.trans hvis, by omega, ?_⟩
    rw [hret', hret, List.append_assoc, List.replicate_succ]
    rfl

/-- The producer's stores drain. -/
lemma run_flushProducer (put : δ → ε → δ) (s : TsoState δ ε) (smap : ℕ → ℕ) :
    run (tsoStep put smap) s (List.replicate s.producer.buf.length .flushProducer) =
      some { s with producer := Part.ofMem (s.own put) } := by
  obtain ⟨qlen, qmask, ⟨mem, buf⟩, consumer, writer, reader, written, wr, rr, stores, before⟩ := s
  induction buf generalizing mem with
  | nil => rfl
  | cons x buf ih => exact run_cons.mpr ⟨_, rfl, ih (mem.apply put x)⟩

end NotSc

/-- **What the calls return depends on the store buffers.** For every accepted length from 4 on and
every value that is not zero there is a run with store buffers in which the calls of `lq_read`
return the value and then 0, while those of `lq_write` return 0 for the first `qlen - 1` times it is
written and then -1, and no sequentially consistent run returns the same to the two.

**Proof sketch.** The first value drains. The consumer takes it, and its index stays in the buffer
while its next call sees no second value, because those of the producer stay in the other buffer.
Memory then shows no value taken. On sequentially consistent memory the full queue was seen before
the first value was taken, or else after an `qlen`-th was written, and so the empty queue after all
`qlen - 1` values were taken (`QueueState.FullOrEmpty`). -/
theorem tso_returns_not_sc {δ ε : Type} (put : δ → ε → δ) (d₀ : δ) {qlen : Word} {blq : Blq}
    (hinit : blqInit Blq.zero qlen = some blq) (h4 : 4 ≤ qlen.toNat) (smap : SlotMap qlen.toNat)
    {m : Ptr} (hm : m ≠ 0#64) :
    ∃ as s, run (tsoStep put smap.toFun) (TsoState.start ε blq d₀) as = some s ∧
      s.readReturns = [m, 0#64] ∧
      s.writeReturns = List.replicate (qlen.toNat - 1) (m, 0) ++ [(m, -1)] ∧
      ∀ bs q, run (queueStep smap.toFun) (QueueState.start blq) bs = some q →
        ¬(q.writeReturns = s.writeReturns ∧ q.readReturns = s.readReturns) := by
  obtain ⟨⟨k, hk⟩, -, -⟩ := blqInit_eq_some hinit
  have hkeep : ∀ {s t : TsoState δ ε} {as}, TsoInv put d₀ qlen.toNat smap.toFun s →
      run (tsoStep put smap.toFun) s as = some t → TsoInv put d₀ qlen.toNat smap.toFun t :=
    fun h hrun => invariant_of_run (fun _ _ _ => tsoStep_inv hk qlen.isLt) h hrun
  have h₀ := tsoInv_start (ε := ε) put d₀ hinit smap.toFun
  -- the first value is written and drains
  obtain ⟨s₁, hrun₁, hw₁, -, hreader₁, hread₁, hwritten₁, hret₁⟩ :=
    run_tso_lqWrite hk qlen.isLt h₀ rfl hm (by show 0 + 1 < 0 + qlen.toNat; omega)
  have h₁ := hkeep h₀ hrun₁
  have hrun₂ := run_flushProducer put s₁ smap.toFun
  have h₂ := hkeep h₁ hrun₂
  have htaken₁ : s₁.taken = [] := by
    rw [TsoState.taken, hread₁]
    rfl
  have hvis₁ : TsoState.visiblyWritten { s₁ with producer := Part.ofMem (s₁.own put) } = 1 := by
    rw [TsoState.visiblyWritten, hwritten₁]
    rfl
  have hfree₁ : s₁.visiblyTaken = 0 := by
    rw [TsoState.visiblyTaken, htaken₁]
    exact Nat.zero_sub _
  -- the consumer takes it and sees no other
  obtain ⟨s₃, hrun₃, honly₃, hreader₃, hread₃⟩ := @run_tso_lqRead _ smap _ _ put d₀ _ m h₂ hreader₁
    (by show s₁.written[s₁.taken.length]? = some m; rw [hwritten₁, htaken₁]; rfl)
    (by rw [hvis₁]; show s₁.taken.length < 1; rw [htaken₁]; exact Nat.one_pos)
  have h₃ := hkeep h₂ hrun₃
  have hread₃' : s₃.readReturns = [m] := by
    rw [hread₃]
    show s₁.readReturns ++ [m] = [m]
    rw [hread₁]
    rfl
  have hlen₃ : s₃.written.length = 1 := by
    rw [honly₃.written]
    show s₁.written.length = 1
    rw [hwritten₁]
    rfl
  obtain ⟨s₄, hrun₄, honly₄, hread₄⟩ := run_tso_lqRead_empty h₃ hreader₃ (by
    rw [TsoState.visiblyWritten, honly₃.producer, hlen₃, TsoState.taken, hread₃']
    simp [hm, Part.ofMem])
  have h₄ := hkeep h₃ hrun₄
  have honly := honly₃.trans honly₄
  have hlen₄ : s₄.written.length = 1 := by rw [honly₄.written, hlen₃]
  have hfree₄ : s₄.visiblyTaken = 0 := honly.visiblyTaken.trans hfree₁
  -- the producer fills the queue and finds it full
  obtain ⟨as₅, s₅, hrun₅, hw₅, hread₅, hfree₅, hlen₅, hret₅⟩ :=
    exists_run_fill hk qlen.isLt hm (qlen.toNat - 2) h₄ (honly.writer.trans hw₁) (by omega)
  have h₅ := hkeep h₄ hrun₅
  obtain ⟨s₆, hrun₆, hread₆, hret₆⟩ :=
    run_tso_lqWrite_full hk qlen.isLt h₅ hw₅ hm (by omega)
  have hreads : s₆.readReturns = [m, 0#64] := by rw [hread₆, hread₅, hread₄, hread₃']; rfl
  have hwrites : s₆.writeReturns = List.replicate (qlen.toNat - 1) (m, 0) ++ [(m, -1)] := by
    have hfirst : s₄.writeReturns = [(m, 0)] := honly.writeReturns.trans hret₁
    rw [hret₆, hret₅, hfirst, show qlen.toNat - 1 = qlen.toNat - 2 + 1 by omega,
      List.replicate_succ]
    rfl
  refine ⟨_, s₆, run_trans hrun₁ (run_trans hrun₂ (run_trans hrun₃ (run_trans hrun₄
    (run_trans hrun₅ hrun₆)))), hreads, hwrites, ?_⟩
  rintro bs q hq ⟨hwr, hrd⟩
  obtain ⟨hinv, hapart⟩ := fullOrEmpty_of_run hinit smap hq
  have hwritten : q.written.length = qlen.toNat - 1 := by
    rw [← hinv.returns, hwr, hwrites]
    simp
  have hfull : ∃ m', (m', -1) ∈ q.writeReturns := by
    refine ⟨m, ?_⟩
    rw [hwr, hwrites]
    exact List.mem_append_right _ (List.mem_singleton.mpr rfl)
  have hone : ([m].filter (· ≠ 0#64)).length = 1 := by simp [hm]
  have := hapart.empty hwritten.le hfull [m] [] (hrd.trans hreads)
  omega

/-- The queue of length 4 in zeroed memory. -/
def Blq.four : Blq := { Blq.zero with qlen := 4#32, qmask := 3#32 }

/-- A queue of length 4: one value is taken, and three are written. -/
theorem tso_returns_not_sc_four :
    ∃ as s, run (tsoStep (fun (d : ℕ) (_ : ℕ) => d) (SlotMap.id 4).toFun)
        (TsoState.start ℕ Blq.four 0) as = some s ∧
      s.readReturns = [9#64, 0#64] ∧
      s.writeReturns = [(9#64, 0), (9#64, 0), (9#64, 0), (9#64, -1)] ∧
      ∀ bs q, run (queueStep (SlotMap.id 4).toFun) (QueueState.start Blq.four) bs = some q →
        ¬(q.writeReturns = s.writeReturns ∧ q.readReturns = s.readReturns) :=
  @tso_returns_not_sc ℕ ℕ (fun d _ => d) 0 4#32 _ rfl (by decide) (SlotMap.id 4) 9#64 (by decide)

end Huc
