import Huc.Lib.StoreBuffer
import Huc.Spscq.Queue

set_option relaxedAutoImplicit false
set_option autoImplicit false

/-!
# The Lamport queue under total store order

`lq_write` and `lq_read` separate their accesses by `compiler_barrier` only, so the accesses are
made in program order but on x86 a store stays in the store buffer of its CPU while later loads go
ahead. Here the accesses of `Huc.queueStep` are made on such a memory: `q->write`, the slots and
whatever else the producer writes are a part of memory behind the producer's buffer, `q->read` one
behind the consumer's.

Each side knows its own index and sees an old one of the other side, which makes the queue look
fuller to the producer and emptier to the consumer than it is. The values still come out in order:
a buffer drains in the order of the stores, so an index in memory is behind the slots it covers and
behind everything that the producer has stored before.

## Main definitions

* `Huc.ProducerVars`, `Huc.LqStore` — what the producer writes, and its stores.
* `Huc.TsoState`, `Huc.tsoStep` — the interleaved accesses and the draining of the two buffers.
* `Huc.TsoState.Content` — what the producer's variables hold after some number of values.
* `Huc.TsoInv` — the invariant.

## Main results

* `Huc.tsoStep_inv` — every access and every drained store keeps the invariant.
* `Huc.tso_boundedFifo` — the queue is a FIFO, full and empty by what has reached memory.
* `Huc.tso_published` — a value taken brings with it all that was stored before it was written.
-/

namespace Huc

open Transition StoreBuffer

/-! ## The two parts of memory -/

/-- What the producer writes: its index and the slots, and variables of its own of type `δ`. -/
structure ProducerVars (δ : Type) where
  write : Word
  q : ℕ → Ptr
  data : δ

/-- A store of the producer. -/
inductive LqStore (ε : Type)
  | slot (i : ℕ) (m : Ptr)
  | write (w : Word)
  | data (e : ε)

/-- A store to `q->write`. -/
def LqStore.isWrite {ε : Type} : LqStore ε → Bool
  | .write _ => true
  | _ => false

/-- A store to the variables that are not the queue's. -/
def LqStore.isData {ε : Type} : LqStore ε → Bool
  | .data _ => true
  | _ => false

/-- The effect of a store of the producer, where `put` is that of a store to its own variables. -/
def ProducerVars.apply {δ ε : Type} (put : δ → ε → δ) (v : ProducerVars δ) :
    LqStore ε → ProducerVars δ
  | .slot i m => { v with q := Function.update v.q i m }
  | .write w => { v with write := w }
  | .data e => { v with data := put v.data e }

/-- The effect of a store to `q->read`. -/
def setRead (_ read : Word) : Word := read

/-- The two parts of memory with their buffers, the fields that are not written any more, the two
calls in progress and their history as in `QueueState`, where a value counts as written once its
`lq_write` has made its final store; further the stores of the producer to its own variables, and
how many of them it had made before each value. -/
structure TsoState (δ ε : Type) where
  qlen : Word
  qmask : Word
  producer : Part (ProducerVars δ) (LqStore ε)
  consumer : Part Word Word
  writer : LqWrite
  reader : LqRead
  written : List Ptr
  writeReturns : List (Ptr × ℤ)
  readReturns : List Ptr
  stores : List ε
  storesBefore : List ℕ

/-- Before the first call on an initialised queue. -/
def TsoState.start {δ : Type} (ε : Type) (blq : Blq) (data : δ) : TsoState δ ε where
  qlen := blq.qlen
  qmask := blq.qmask
  producer := Part.ofMem ⟨blq.write, blq.q, data⟩
  consumer := Part.ofMem blq.read
  writer := .idle
  reader := .loadRead
  written := []
  writeReturns := []
  readReturns := []
  stores := []
  storesBefore := []

/-- The values taken from the queue. -/
def TsoState.taken {δ ε : Type} (s : TsoState δ ε) : List Ptr := s.readReturns.filter (· ≠ 0#64)

/-- The number of values whose index is in memory. -/
def TsoState.visiblyWritten {δ ε : Type} (s : TsoState δ ε) : ℕ :=
  s.written.length - s.producer.buf.countP LqStore.isWrite

/-- The number of values taken whose index is in memory. -/
def TsoState.visiblyTaken {δ ε : Type} (s : TsoState δ ε) : ℕ :=
  s.taken.length - s.consumer.buf.length

/-! ## The accesses -/

/-- An access of the producer or the consumer, a store of the producer outside the queue, or the
oldest store of a buffer reaching memory. -/
inductive TsoAct (ε : Type)
  | lqWrite (m : Ptr)
  | producer
  | consumer
  | store (e : ε)
  | flushProducer
  | flushConsumer

section Step

variable {δ ε : Type} (put : δ → ε → δ) (smap : ℕ → ℕ) (s : TsoState δ ε)

/-- The producer's variables as the producer sees them. -/
def TsoState.own : ProducerVars δ := s.producer.view (ProducerVars.apply put)

/-- `q->read` as the consumer sees it. -/
def TsoState.ownRead : Word := s.consumer.view setRead

/-- The load of `q->write` that starts a call `lq_write(q, m)`. -/
def tsoStartWrite (m : Ptr) : Option (TsoState δ ε) :=
  match s.writer with
  | .idle => if m ≠ 0#64 then some { s with writer := .loadRead m (s.own put).write } else none
  | _ => none

/-- The next access of the call of `lq_write` in progress. -/
def tsoWriterStep : Option (TsoState δ ε) :=
  match s.writer with
  | .idle => none
  | .loadRead m write =>
    let next := (write + 1#32) &&& s.qmask
    if next = s.consumer.mem then
      some { s with writer := .idle, writeReturns := s.writeReturns ++ [(m, -1)] }
    else some { s with writer := .storeSlot m write next }
  | .storeSlot m write next =>
    some
      { s with
        producer := s.producer.store (.slot (smap write.toNat) m)
        writer := .storeWrite m next }
  | .storeWrite m next =>
    some
      { s with
        producer := s.producer.store (.write next)
        writer := .idle
        written := s.written ++ [m]
        writeReturns := s.writeReturns ++ [(m, 0)]
        storesBefore := s.storesBefore ++ [s.stores.length] }

/-- The next access of the consumer's call of `lq_read`. -/
def tsoReaderStep : TsoState δ ε :=
  match s.reader with
  | .loadRead => { s with reader := .loadWrite s.ownRead }
  | .loadWrite read =>
    if read = s.producer.mem.write then
      { s with reader := .loadRead, readReturns := s.readReturns ++ [0#64] }
    else { s with reader := .loadSlot read }
  | .loadSlot read => { s with reader := .storeRead read (s.producer.mem.q (smap read.toNat)) }
  | .storeRead read m =>
    { s with
      consumer := s.consumer.store ((read + 1#32) &&& s.qmask)
      reader := .loadRead
      readReturns := s.readReturns ++ [m] }

/-- A store of the producer outside the queue, between two calls of `lq_write`. -/
def tsoStore (e : ε) : Option (TsoState δ ε) :=
  match s.writer with
  | .idle =>
    some { s with producer := s.producer.store (.data e), stores := s.stores ++ [e] }
  | _ => none

/-- One access, or one store reaching memory. -/
def tsoStep : TsoAct ε → Option (TsoState δ ε)
  | .lqWrite m => tsoStartWrite put s m
  | .producer => tsoWriterStep smap s
  | .consumer => some (tsoReaderStep smap s)
  | .store e => tsoStore s e
  | .flushProducer =>
    (s.producer.flush (ProducerVars.apply put)).map fun p => { s with producer := p }
  | .flushConsumer => (s.consumer.flush setRead).map fun p => { s with consumer := p }

end Step

/-! ## The invariant -/

section Invariant

variable {δ ε : Type} (put : δ → ε → δ) (d₀ : δ) (n : ℕ) (smap : ℕ → ℕ)

/-- What the producer's variables hold after `w` values and `j` stores outside the queue: the slots
of the values that the consumer is not known to have taken, the result of the stores, and none of
the `w` values without the stores made before it. -/
structure TsoState.Content (s : TsoState δ ε) (w j : ℕ) (v : ProducerVars δ) : Prop where
  write_eq : v.write.toNat = w % n
  slots : ∀ k, s.visiblyTaken ≤ k → k < w → s.written[k]? = some (v.q (smap (k % n)))
  data_eq : v.data = (s.stores.take j).foldl put d₀
  before : ∀ k < w, ∀ d, s.storesBefore[k]? = some d → d ≤ j

/-- A version of the producer's variables holds what was stored up to the stores still to come. -/
def TsoState.VersionOk (s : TsoState δ ε) (post : List (LqStore ε)) (v : ProducerVars δ) : Prop :=
  ∃ w j, w + post.countP LqStore.isWrite = s.written.length ∧
    j + post.countP LqStore.isData = s.stores.length ∧ s.Content put d₀ n smap w j v

/-- A version of `q->read` counts the values taken up to the stores still to come. -/
def TsoState.ReadOk (s : TsoState δ ε) (post : List Word) (read : Word) : Prop :=
  ∃ r, r + post.length = s.taken.length ∧ read.toNat = r % n

/-- What a call of `lq_write` in progress knows. -/
def TsoState.WriterOk (s : TsoState δ ε) : Prop :=
  match s.writer with
  | .idle => True
  | .loadRead m write => m ≠ 0#64 ∧ write = (s.own put).write
  | .storeSlot m write next => m ≠ 0#64 ∧ write = (s.own put).write ∧
      next = (write + 1#32) &&& s.qmask ∧
      s.written.length + 1 + s.consumer.buf.length < s.taken.length + n
  | .storeWrite m next => m ≠ 0#64 ∧ next = ((s.own put).write + 1#32) &&& s.qmask ∧
      s.written.length + 1 + s.consumer.buf.length < s.taken.length + n ∧
      (s.own put).q (smap (s.written.length % n)) = m

/-- What a call of `lq_read` in progress knows. -/
def TsoState.ReaderOk (s : TsoState δ ε) : Prop :=
  match s.reader with
  | .loadRead => True
  | .loadWrite read => read = s.ownRead
  | .loadSlot read => read = s.ownRead ∧
      s.taken.length + s.producer.buf.countP LqStore.isWrite < s.written.length
  | .storeRead read m => read = s.ownRead ∧
      s.taken.length + s.producer.buf.countP LqStore.isWrite < s.written.length ∧
      s.written[s.taken.length]? = some m

/-- **The invariant of a queue of length `n`.** All contents of the two parts of memory on the way
to what their owners see are right, the consumer has taken no more values than memory shows, and
the values written are fewer than `n` more than memory shows taken. -/
structure TsoInv (s : TsoState δ ε) : Prop where
  mask : s.qmask.toNat = n - 1
  producer : s.producer.Versions (ProducerVars.apply put) (s.VersionOk put d₀ n smap)
  consumer : s.consumer.Versions setRead (s.ReadOk n)
  taken_prefix : s.taken <+: s.written
  taken_le : s.taken.length + s.producer.buf.countP LqStore.isWrite ≤ s.written.length
  length_lt : s.written.length + s.consumer.buf.length < s.taken.length + n
  length_before : s.storesBefore.length = s.written.length
  ne_zero : ∀ m ∈ s.written, m ≠ 0#64
  returns : (s.writeReturns.filter fun p => p.2 = 0).map Prod.fst = s.written
  writer_ok : s.WriterOk put n smap
  reader_ok : s.ReaderOk

end Invariant

section Frame

variable {δ ε : Type} {put : δ → ε → δ} {d₀ : δ} {n w j : ℕ} {smap : ℕ → ℕ} {s t : TsoState δ ε}

/-- What is known of a version stays true when the consumer takes more and the producer adds to its
history. -/
lemma TsoState.Content.mono {v : ProducerVars δ} (h : s.Content put d₀ n smap w j v)
    (hfree : s.visiblyTaken ≤ t.visiblyTaken) (hw : w ≤ s.written.length)
    (hwritten : s.written <+: t.written) (hj : j ≤ s.stores.length)
    (hstores : s.stores <+: t.stores)
    (hbefore : ∀ k < w, t.storesBefore[k]? = s.storesBefore[k]?) :
    t.Content put d₀ n smap w j v := by
  obtain ⟨written, hwritten⟩ := hwritten
  obtain ⟨stores, hstores⟩ := hstores
  refine
    { write_eq := h.write_eq
      slots := fun k hk hkw => ?_
      data_eq := ?_
      before := fun k hk d hd => h.before k hk d (hbefore k hk ▸ hd) }
  · rw [← hwritten, List.getElem?_append_left (hkw.trans_le hw)]
    exact h.slots k (hfree.trans hk) hkw
  · rw [← hstores, List.take_append_of_le_length hj, h.data_eq]

/-- The versions of the producer's variables stay right while the producer does not store. -/
lemma TsoState.VersionOk.mono {post : List (LqStore ε)} {v : ProducerVars δ}
    (h : s.VersionOk put d₀ n smap post v) (hfree : s.visiblyTaken ≤ t.visiblyTaken)
    (hwritten : t.written = s.written) (hstores : t.stores = s.stores)
    (hbefore : t.storesBefore = s.storesBefore) : t.VersionOk put d₀ n smap post v := by
  obtain ⟨w, j, hw, hj, hv⟩ := h
  refine ⟨w, j, hwritten ▸ hw, hstores ▸ hj, hv.mono hfree (by omega) ?_ (by omega) ?_ ?_⟩
  · rw [hwritten]
  · rw [hstores]
  · intro k _
    rw [hbefore]

/-- What a call of `lq_write` knows stays true while the producer does not store. -/
lemma TsoState.WriterOk.mono (h : s.WriterOk put n smap) (hwriter : t.writer = s.writer)
    (hmask : t.qmask = s.qmask) (hown : t.own put = s.own put) (hwritten : t.written = s.written)
    (hroom : t.consumer.buf.length + s.taken.length ≤ s.consumer.buf.length + t.taken.length) :
    t.WriterOk put n smap := by
  unfold TsoState.WriterOk at h ⊢
  rw [hwriter, hmask, hown, hwritten]
  cases hw : s.writer with
  | idle => trivial
  | loadRead m write => simpa only [hw] using h
  | storeSlot m write next =>
    simp only [hw] at h
    obtain ⟨hm, hwrite, hnext, hlt⟩ := h
    exact ⟨hm, hwrite, hnext, by omega⟩
  | storeWrite m next =>
    simp only [hw] at h
    obtain ⟨hm, hnext, hlt, hslot⟩ := h
    exact ⟨hm, hnext, by omega, hslot⟩

/-- What a call of `lq_read` knows stays true while the consumer does not store. -/
lemma TsoState.ReaderOk.mono (h : s.ReaderOk) (hreader : t.reader = s.reader)
    (hown : t.ownRead = s.ownRead) (htaken : t.taken = s.taken) (hwritten : s.written <+: t.written)
    (hvisible : t.producer.buf.countP LqStore.isWrite + s.written.length ≤
      s.producer.buf.countP LqStore.isWrite + t.written.length) : t.ReaderOk := by
  obtain ⟨written, hwritten⟩ := hwritten
  have hlen : t.written.length = s.written.length + written.length := by
    rw [← hwritten, List.length_append]
  unfold TsoState.ReaderOk at h ⊢
  rw [hreader, hown, htaken]
  cases hr : s.reader with
  | loadRead => trivial
  | loadWrite read => simpa only [hr] using h
  | loadSlot read =>
    simp only [hr] at h
    exact ⟨h.1, by omega⟩
  | storeRead read m =>
    simp only [hr] at h
    obtain ⟨hread, hlt, hget⟩ := h
    refine ⟨hread, by omega, ?_⟩
    rw [← hwritten, List.getElem?_append_left (by omega)]
    exact hget

/-- An access that stores nothing keeps the invariant if the calls in progress stay right. -/
lemma TsoInv.frame (h : TsoInv put d₀ n smap s) (hmask : t.qmask = s.qmask)
    (hproducer : t.producer = s.producer) (hconsumer : t.consumer = s.consumer)
    (htaken : t.taken = s.taken) (hwritten : t.written = s.written)
    (hstores : t.stores = s.stores) (hbefore : t.storesBefore = s.storesBefore)
    (hreturns : (t.writeReturns.filter fun p => p.2 = 0).map Prod.fst = s.written)
    (hwriter : t.WriterOk put n smap) (hreader : t.ReaderOk) : TsoInv put d₀ n smap t where
  mask := hmask ▸ h.mask
  producer := by
    rw [hproducer]
    refine h.producer.imp fun post v hv => hv.mono ?_ hwritten hstores hbefore
    rw [TsoState.visiblyTaken, TsoState.visiblyTaken, htaken, hconsumer]
  consumer := by
    rw [hconsumer]
    refine h.consumer.imp fun post v hv => ?_
    unfold TsoState.ReadOk at hv ⊢
    rwa [htaken]
  taken_prefix := by rw [htaken, hwritten]; exact h.taken_prefix
  taken_le := by rw [htaken, hwritten, hproducer]; exact h.taken_le
  length_lt := by rw [htaken, hwritten, hconsumer]; exact h.length_lt
  length_before := by rw [hbefore, hwritten]; exact h.length_before
  ne_zero := hwritten ▸ h.ne_zero
  returns := hwritten ▸ hreturns
  writer_ok := hwriter
  reader_ok := hreader

/-! ## What the indices mean -/

/-- The producer sees all its values and stores. -/
lemma TsoInv.content_own (h : TsoInv put d₀ n smap s) :
    s.Content put d₀ n smap s.written.length s.stores.length (s.own put) := by
  obtain ⟨w, j, hw, hj, hv⟩ := h.producer.view
  obtain rfl : w = s.written.length := by simpa using hw
  obtain rfl : j = s.stores.length := by simpa using hj
  exact hv

/-- Memory holds the values that have become visible. -/
lemma TsoInv.content_mem (h : TsoInv put d₀ n smap s) :
    ∃ j ≤ s.stores.length, s.Content put d₀ n smap s.visiblyWritten j s.producer.mem := by
  obtain ⟨w, j, hw, hj, hv⟩ := h.producer.mem
  obtain rfl : w = s.visiblyWritten := by
    unfold TsoState.visiblyWritten
    omega
  exact ⟨j, by omega, hv⟩

/-- The consumer sees its own index. -/
lemma TsoInv.ownRead_eq (h : TsoInv put d₀ n smap s) :
    s.ownRead.toNat = s.taken.length % n := by
  obtain ⟨r, hr, hread⟩ := h.consumer.view
  obtain rfl : r = s.taken.length := by simpa using hr
  exact hread

/-- Memory holds the index of the values visibly taken. -/
lemma TsoInv.mem_read_eq (h : TsoInv put d₀ n smap s) :
    s.visiblyTaken + s.consumer.buf.length = s.taken.length ∧
      s.consumer.mem.toNat = s.visiblyTaken % n := by
  obtain ⟨r, hr, hread⟩ := h.consumer.mem
  obtain rfl : r = s.visiblyTaken := by
    unfold TsoState.visiblyTaken
    omega
  exact ⟨hr, hread⟩

/-- The values visible to the consumer, those taken and those still on the way. -/
lemma TsoInv.visible (h : TsoInv put d₀ n smap s) :
    s.visiblyWritten + s.producer.buf.countP LqStore.isWrite = s.written.length ∧
      s.taken.length ≤ s.visiblyWritten ∧ s.written.length < s.visiblyTaken + n := by
  have hle := h.taken_le
  have hlt := h.length_lt
  have hread := h.mem_read_eq.1
  unfold TsoState.visiblyWritten
  omega

/-- **The producer finds the queue full exactly when it is, by the values visibly taken.** -/
lemma TsoInv.next_eq_iff {k : ℕ} (hn : n = 2 ^ k) (hlt : n < 2 ^ 32)
    (h : TsoInv put d₀ n smap s) :
    ((s.own put).write + 1#32) &&& s.qmask = s.consumer.mem ↔
      s.written.length + 1 = s.visiblyTaken + n := by
  obtain ⟨-, -, hroom⟩ := h.visible
  have hle := h.taken_prefix.length_le
  obtain ⟨hbuf, hmem⟩ := h.mem_read_eq
  rw [← BitVec.toNat_inj, toNat_succ_and_mask hn hlt h.mask h.content_own.write_eq, hmem]
  constructor
  · intro heq
    by_contra hne
    have := eq_of_mod_eq (show s.visiblyTaken ≤ s.written.length + 1 by omega) (by omega) heq.symm
    omega
  · intro heq
    rw [heq, Nat.add_mod_right]

/-- **The consumer finds the queue empty exactly when it is, by the values visibly written.** -/
lemma TsoInv.ownRead_eq_iff (h : TsoInv put d₀ n smap s) :
    s.ownRead = s.producer.mem.write ↔ s.taken.length = s.visiblyWritten := by
  obtain ⟨hpending, hle, hroom⟩ := h.visible
  have hbuf := h.mem_read_eq.1
  obtain ⟨j, -, hmem⟩ := h.content_mem
  rw [← BitVec.toNat_inj, h.ownRead_eq, hmem.write_eq]
  exact ⟨eq_of_mod_eq hle (by omega), fun heq => by rw [heq]⟩

end Frame

/-! ## The steps -/

section Steps

variable {δ ε : Type} {put : δ → ε → δ} {d₀ : δ} {n k : ℕ} {smap : SlotMap n} {s t : TsoState δ ε}

/-- The invariant holds of an initialised queue. -/
lemma tsoInv_start (put : δ → ε → δ) (d₀ : δ) {blq : Blq} {qlen : Word}
    (h : blqInit Blq.zero qlen = some blq) (smap : ℕ → ℕ) :
    TsoInv put d₀ qlen.toNat smap (TsoState.start ε blq d₀) := by
  obtain ⟨-, h2, rfl⟩ := blqInit_eq_some h
  refine
    { mask := toNat_sub_one (by omega)
      producer := Part.Versions.ofMem ⟨0, 0, rfl, rfl, ?_⟩
      consumer := Part.Versions.ofMem ⟨0, rfl, (Nat.zero_mod _).symm⟩
      taken_prefix := List.prefix_rfl
      taken_le := le_rfl
      length_lt := ?_
      length_before := rfl
      ne_zero := fun m hm => absurd hm List.not_mem_nil
      returns := rfl
      writer_ok := trivial
      reader_ok := trivial }
  · exact
      { write_eq := (Nat.zero_mod _).symm
        slots := fun k _ hk => absurd hk (Nat.not_lt_zero k)
        data_eq := rfl
        before := fun k hk => absurd hk (Nat.not_lt_zero k) }
  · show 0 + 0 < 0 + qlen.toNat
    omega

/-- What the start of a call of `lq_write` does. -/
lemma tsoStartWrite_cases {m : Ptr} (hstep : tsoStartWrite put s m = some t) :
    s.writer = .idle ∧ m ≠ 0#64 ∧ t = { s with writer := .loadRead m (s.own put).write } := by
  unfold tsoStartWrite at hstep
  split at hstep
  · rename_i hw
    split_ifs at hstep with hm
    exact ⟨hw, hm, (Option.some.inj hstep).symm⟩
  · exact absurd hstep (by simp)

/-- The first access of `lq_write` keeps the invariant. -/
lemma tsoStartWrite_inv {m : Ptr} (h : TsoInv put d₀ n smap.toFun s)
    (hstep : tsoStartWrite put s m = some t) : TsoInv put d₀ n smap.toFun t := by
  obtain ⟨-, hm, rfl⟩ := tsoStartWrite_cases hstep
  exact h.frame rfl rfl rfl rfl rfl rfl rfl h.returns ⟨hm, rfl⟩ h.reader_ok

/-- **The store to a slot keeps the invariant.**

**Proof sketch.** The slot is that of the number of values written. The slots of the values that
memory does not show taken are other ones, since these are fewer than `n`. -/
lemma TsoInv.storeSlot (hn : n = 2 ^ k) (h : TsoInv put d₀ n smap.toFun s) {m : Ptr}
    {write next : Word} (hw : s.writer = .storeSlot m write next) :
    TsoInv put d₀ n smap.toFun
      { s with
        producer := s.producer.store (.slot (smap.toFun write.toNat) m)
        writer := .storeWrite m next } := by
  have hpos : 0 < n := hn ▸ Nat.two_pow_pos k
  have hown := h.content_own
  have hok := h.writer_ok
  unfold TsoState.WriterOk at hok
  simp only [hw] at hok
  obtain ⟨hm, rfl, rfl, hroom⟩ := hok
  obtain ⟨-, -, hfull⟩ := h.visible
  have hcount : (s.producer.buf ++ [LqStore.slot (smap.toFun (s.own put).write.toNat) m]).countP
      LqStore.isWrite = s.producer.buf.countP LqStore.isWrite := by
    simp [LqStore.isWrite]
  refine
    { h with
      producer := h.producer.store (fun post v hv => ?_) ?_
      taken_le := hcount.symm ▸ h.taken_le
      writer_ok := ⟨hm, ?_, hroom, ?_⟩
      reader_ok := TsoState.ReaderOk.mono h.reader_ok rfl rfl rfl List.prefix_rfl ?_ }
  · -- the versions so far have one more store to come
    obtain ⟨w, j, hw, hj, hv⟩ := hv
    refine ⟨w, j, ?_, ?_, hv.mono le_rfl (by omega) List.prefix_rfl (by omega) List.prefix_rfl
      fun _ _ => rfl⟩
    · simpa [LqStore.isWrite] using hw
    · simpa [LqStore.isData] using hj
  · -- the new version has the new slot
    refine ⟨s.written.length, s.stores.length, rfl, rfl, ⟨hown.write_eq, fun j hj hjw => ?_,
      hown.data_eq, hown.before⟩⟩
    refine (hown.slots j hj hjw).trans (congrArg some (Function.update_of_ne ?_ _ _).symm)
    intro heq
    have hmod := smap.inj _ (Nat.mod_lt j hpos) _ (hown.write_eq ▸ Nat.mod_lt _ hpos) heq
    rw [hown.write_eq] at hmod
    have := eq_of_mod_eq hjw.le (by change s.visiblyTaken ≤ j at hj; omega) hmod
    omega
  · simp [TsoState.own, ProducerVars.apply]
  · show (TsoState.own put { s with producer := _, writer := _ }).q _ = m
    simp only [TsoState.own, Part.view_store, ProducerVars.apply]
    rw [← hown.write_eq]
    exact Function.update_self _ _ _
  · exact Nat.add_le_add_right hcount.le _

/-- **The store to `q->write` keeps the invariant**: it publishes the slot stored before, and all
the stores outside the queue so far.

**Proof sketch.** The version of the memory after the whole buffer is the one before with one more
value: its index is the next one, and its slot was stored by the access before, which is earlier in
the buffer. The older versions have one more store of the index behind them. The stores outside the
queue made so far are recorded as those before this value. -/
lemma TsoInv.storeWrite (hn : n = 2 ^ k) (hlt : n < 2 ^ 32) (h : TsoInv put d₀ n smap.toFun s)
    {m : Ptr} {next : Word} (hw : s.writer = .storeWrite m next) :
    TsoInv put d₀ n smap.toFun
      { s with
        producer := s.producer.store (.write next)
        writer := .idle
        written := s.written ++ [m]
        writeReturns := s.writeReturns ++ [(m, 0)]
        storesBefore := s.storesBefore ++ [s.stores.length] } := by
  have hown := h.content_own
  have hok := h.writer_ok
  unfold TsoState.WriterOk at hok
  simp only [hw] at hok
  obtain ⟨hm, rfl, hroom, hslot⟩ := hok
  have hlen : (s.written ++ [m]).length = s.written.length + 1 := by simp
  have hcount : (s.producer.buf ++ [LqStore.write (((s.own put).write + 1#32) &&& s.qmask)]).countP
      LqStore.isWrite = s.producer.buf.countP LqStore.isWrite + 1 := by
    simp [LqStore.isWrite]
  have htaken := h.taken_le
  have hbefore : ∀ k < s.written.length,
      (s.storesBefore ++ [s.stores.length])[k]? = s.storesBefore[k]? := by
    intro k hk
    exact List.getElem?_append_left (h.length_before.symm ▸ hk)
  refine
    { mask := h.mask
      producer := h.producer.store (fun post v hv => ?_) ⟨s.written.length + 1, s.stores.length,
        hlen.symm, rfl, ?_⟩
      consumer := h.consumer
      taken_prefix := h.taken_prefix.trans (List.prefix_append _ _)
      taken_le := ?_
      length_lt := ?_
      length_before := ?_
      ne_zero := fun v hv => ?_
      returns := by simpa using h.returns
      writer_ok := trivial
      reader_ok := TsoState.ReaderOk.mono h.reader_ok rfl rfl rfl (List.prefix_append _ _) ?_ }
  · -- the versions so far have one more store to come
    obtain ⟨w, j, hw, hj, hv⟩ := hv
    have hwle : w ≤ s.written.length := by omega
    refine ⟨w, j, ?_, ?_, hv.mono le_rfl hwle (List.prefix_append _ _) (by omega) List.prefix_rfl
      fun k hk => hbefore k (hk.trans_le hwle)⟩
    · rw [List.countP_append, hlen, ← hw]
      simp [LqStore.isWrite, Nat.add_assoc]
    · simpa [LqStore.isData] using hj
  · -- the new version has one more value
    refine
      { write_eq := toNat_succ_and_mask hn hlt h.mask hown.write_eq
        slots := fun j hj hjw => ?_
        data_eq := hown.data_eq
        before := fun j hj d hd => ?_ }
    · rcases Nat.lt_succ_iff_lt_or_eq.mp hjw with hjw | rfl
      · exact (List.getElem?_append_left hjw).trans (hown.slots j hj hjw)
      · exact List.getElem?_concat_length.trans (congrArg some hslot.symm)
    · change (s.storesBefore ++ [s.stores.length])[j]? = some d at hd
      rcases Nat.lt_succ_iff_lt_or_eq.mp hj with hj | rfl
      · rw [hbefore j hj] at hd
        exact hown.before j hj d hd
      · rw [← h.length_before, List.getElem?_concat_length] at hd
        exact (Option.some.inj hd).ge
  · show s.taken.length + (s.producer.buf ++ [_]).countP _ ≤ (s.written ++ [m]).length
    omega
  · show (s.written ++ [m]).length + s.consumer.buf.length < s.taken.length + n
    omega
  · show (s.storesBefore ++ [_]).length = (s.written ++ [m]).length
    rw [hlen, List.length_append, h.length_before]
    rfl
  · rcases List.mem_append.mp hv with hv | hv
    · exact h.ne_zero v hv
    · rw [List.mem_singleton.mp hv]
      exact hm
  · show (s.producer.buf ++ [_]).countP _ + _ ≤ _ + (s.written ++ [m]).length
    omega

/-- **The accesses of `lq_write` keep the invariant.**

**Proof sketch.** By the access. The load of `q->read` shows at most the values really taken, so
that a queue that does not look full has room for one more. -/
lemma tsoWriterStep_inv (hn : n = 2 ^ k) (hlt : n < 2 ^ 32) (h : TsoInv put d₀ n smap.toFun s)
    (hstep : tsoWriterStep smap.toFun s = some t) : TsoInv put d₀ n smap.toFun t := by
  unfold tsoWriterStep at hstep
  cases hw : s.writer with
  | idle => simp [hw] at hstep
  | loadRead m write =>
    have hok := h.writer_ok
    unfold TsoState.WriterOk at hok
    simp only [hw] at hok hstep
    obtain ⟨hm, rfl⟩ := hok
    split_ifs at hstep with hfull
    · obtain rfl := Option.some.inj hstep
      exact h.frame rfl rfl rfl rfl rfl rfl rfl (by simpa using h.returns) trivial h.reader_ok
    · obtain rfl := Option.some.inj hstep
      have hroom : s.written.length + 1 + s.consumer.buf.length < s.taken.length + n := by
        have := h.visible.2.2
        have := h.mem_read_eq.1
        rw [h.next_eq_iff hn hlt] at hfull
        omega
      exact h.frame rfl rfl rfl rfl rfl rfl rfl h.returns ⟨hm, rfl, rfl, hroom⟩ h.reader_ok
  | storeSlot m write next =>
    simp only [hw] at hstep
    obtain rfl := Option.some.inj hstep
    exact h.storeSlot hn hw
  | storeWrite m next =>
    simp only [hw] at hstep
    obtain rfl := Option.some.inj hstep
    exact h.storeWrite hn hlt hw

/-- **The store to `q->read` keeps the invariant**: memory does not show it before it drains.

**Proof sketch.** One more value is taken and one more store of the index is pending, so that memory
shows as many values taken as before. The value is the next one written, and the new index counts
it. -/
lemma TsoInv.storeRead (hn : n = 2 ^ k) (hlt : n < 2 ^ 32) (h : TsoInv put d₀ n smap.toFun s)
    {m : Ptr} {read : Word} (hr : s.reader = .storeRead read m) :
    TsoInv put d₀ n smap.toFun
      { s with
        consumer := s.consumer.store ((read + 1#32) &&& s.qmask)
        reader := .loadRead
        readReturns := s.readReturns ++ [m] } := by
  have hok := h.reader_ok
  unfold TsoState.ReaderOk at hok
  simp only [hr] at hok
  obtain ⟨rfl, hvis, hget⟩ := hok
  have hm : m ≠ 0#64 := h.ne_zero m (List.mem_of_getElem? hget)
  have htaken : TsoState.taken { s with
      consumer := s.consumer.store ((s.ownRead + 1#32) &&& s.qmask)
      reader := .loadRead
      readReturns := s.readReturns ++ [m] } = s.taken ++ [m] := by
    simp [TsoState.taken, hm]
  have hlen : (s.taken ++ [m]).length = s.taken.length + 1 := by simp
  have hbuf : (s.consumer.buf ++ [(s.ownRead + 1#32) &&& s.qmask]).length =
      s.consumer.buf.length + 1 := by simp
  have hroom := h.length_lt
  refine
    { mask := h.mask
      producer := h.producer.imp fun post v hv => hv.mono ?_ rfl rfl rfl
      consumer := h.consumer.store (fun post v hv => ?_) ⟨s.taken.length + 1, ?_, ?_⟩
      taken_prefix := htaken.symm ▸ taken_concat_prefix h.taken_prefix hget
      taken_le := ?_
      length_lt := ?_
      length_before := h.length_before
      ne_zero := h.ne_zero
      returns := h.returns
      writer_ok := TsoState.WriterOk.mono h.writer_ok rfl rfl rfl rfl ?_
      reader_ok := trivial }
  · -- one more value is taken and one more store of the index is pending
    rw [TsoState.visiblyTaken, TsoState.visiblyTaken, htaken, hlen]
    show _ ≤ s.taken.length + 1 - (s.consumer.buf ++ [_]).length
    omega
  · obtain ⟨r, hr, hread⟩ := hv
    refine ⟨r, ?_, hread⟩
    rw [htaken, hlen, List.length_append, ← hr]
    rfl
  · rw [htaken, hlen]
    rfl
  · exact toNat_succ_and_mask hn hlt h.mask h.ownRead_eq
  · rw [htaken, hlen]
    show s.taken.length + 1 + s.producer.buf.countP _ ≤ s.written.length
    omega
  · rw [htaken, hlen]
    show s.written.length + (s.consumer.buf ++ [_]).length < _
    omega
  · rw [htaken, hlen]
    show (s.consumer.buf ++ [_]).length + _ ≤ _
    omega

/-- **Every access of `lq_read` keeps the invariant.**

**Proof sketch.** When the index in memory differs from the consumer's own, memory shows a value
that is not taken. Its slot in memory holds it, because memory shows at most as many values taken,
and the value stays there because the producer waits until memory shows it taken. -/
lemma tsoReaderStep_inv (hn : n = 2 ^ k) (hlt : n < 2 ^ 32) (h : TsoInv put d₀ n smap.toFun s) :
    TsoInv put d₀ n smap.toFun (tsoReaderStep smap.toFun s) := by
  have hok := h.reader_ok
  obtain ⟨hpending, hle, -⟩ := h.visible
  unfold TsoState.ReaderOk at hok
  unfold tsoReaderStep
  cases hr : s.reader with
  | loadRead => exact h.frame rfl rfl rfl rfl rfl rfl rfl h.returns h.writer_ok rfl
  | loadWrite read =>
    simp only [hr] at hok ⊢
    subst hok
    split_ifs with hempty
    · have htaken : TsoState.taken { s with
          reader := .loadRead, readReturns := s.readReturns ++ [0#64] } = s.taken := by
        simp [TsoState.taken]
      exact h.frame rfl rfl rfl htaken rfl rfl rfl h.returns
        (TsoState.WriterOk.mono h.writer_ok rfl rfl rfl rfl (htaken.symm ▸ le_rfl)) trivial
    · have hne : s.taken.length + s.producer.buf.countP LqStore.isWrite < s.written.length := by
        rw [h.ownRead_eq_iff] at hempty
        omega
      exact h.frame rfl rfl rfl rfl rfl rfl rfl h.returns h.writer_ok ⟨rfl, hne⟩
  | loadSlot read =>
    simp only [hr] at hok ⊢
    obtain ⟨rfl, hne⟩ := hok
    obtain ⟨j, -, hmem⟩ := h.content_mem
    have hfree := h.mem_read_eq.1
    have hget : s.written[s.taken.length]? =
        some (s.producer.mem.q (smap.toFun s.ownRead.toNat)) := by
      rw [h.ownRead_eq]
      exact hmem.slots _ (by omega) (by omega)
    exact h.frame rfl rfl rfl rfl rfl rfl rfl h.returns h.writer_ok ⟨rfl, hne, hget⟩
  | storeRead read m => exact h.storeRead hn hlt hr

/-- What a store outside the queue does. -/
lemma tsoStore_cases {e : ε} (hstep : tsoStore s e = some t) :
    s.writer = .idle ∧
      t = { s with producer := s.producer.store (.data e), stores := s.stores ++ [e] } := by
  unfold tsoStore at hstep
  split at hstep
  · rename_i hw
    exact ⟨hw, (Option.some.inj hstep).symm⟩
  · exact absurd hstep (by simp)

/-- **A store outside the queue keeps the invariant.**

**Proof sketch.** The version of the memory after the whole buffer has one more store outside the
queue; the queue in it, and the older versions, are as before. -/
lemma tsoStore_inv {e : ε} (h : TsoInv put d₀ n smap.toFun s) (hstep : tsoStore s e = some t) :
    TsoInv put d₀ n smap.toFun t := by
  obtain ⟨hw, rfl⟩ := tsoStore_cases hstep
  have hown := h.content_own
  have hcount : (s.producer.buf ++ [LqStore.data e]).countP LqStore.isWrite =
      s.producer.buf.countP LqStore.isWrite := by
    simp [LqStore.isWrite]
  have hlen : (s.stores ++ [e]).length = s.stores.length + 1 := by simp
  refine
    { mask := h.mask
      producer := h.producer.store (fun post v hv => ?_) ⟨s.written.length, s.stores.length + 1,
        rfl, hlen.symm, ?_⟩
      consumer := h.consumer
      taken_prefix := h.taken_prefix
      taken_le := hcount.symm ▸ h.taken_le
      length_lt := h.length_lt
      length_before := h.length_before
      ne_zero := h.ne_zero
      returns := h.returns
      writer_ok := ?_
      reader_ok := TsoState.ReaderOk.mono h.reader_ok rfl rfl rfl List.prefix_rfl
        (Nat.add_le_add_right hcount.le _) }
  · obtain ⟨w, j, hw, hj, hv⟩ := hv
    refine ⟨w, j, ?_, ?_, hv.mono le_rfl (by omega) List.prefix_rfl (by omega)
      (List.prefix_append _ _) fun _ _ => rfl⟩
    · simpa [LqStore.isWrite] using hw
    · rw [List.countP_append, hlen, ← hj]
      simp [LqStore.isData, Nat.add_assoc]
  · refine ⟨hown.write_eq, hown.slots, ?_, fun k hk d hd => ?_⟩
    · have htake : s.stores.take s.stores.length = s.stores := List.take_length
      show put (s.own put).data e = ((s.stores ++ [e]).take (s.stores.length + 1)).foldl put d₀
      rw [← hlen, List.take_length, List.foldl_append, hown.data_eq, htake]
      rfl
    · exact (hown.before k hk d hd).trans (Nat.le_succ _)
  · unfold TsoState.WriterOk
    simp only [hw]

/-- **A store of the producer reaching memory keeps the invariant.** -/
lemma TsoInv.flushProducer (h : TsoInv put d₀ n smap.toFun s)
    {p : Part (ProducerVars δ) (LqStore ε)}
    (hflush : s.producer.flush (ProducerVars.apply put) = some p) :
    TsoInv put d₀ n smap.toFun { s with producer := p } := by
  obtain ⟨x, hbuf, -⟩ := Part.flush_eq_some hflush
  have hcount : p.buf.countP LqStore.isWrite ≤ s.producer.buf.countP LqStore.isWrite := by
    rw [hbuf, List.countP_cons]
    exact Nat.le_add_right _ _
  exact
    { mask := h.mask
      producer := (h.producer.flush hflush).imp fun post v hv => hv.mono le_rfl rfl rfl rfl
      consumer := h.consumer
      taken_prefix := h.taken_prefix
      taken_le := (Nat.add_le_add_left hcount _).trans h.taken_le
      length_lt := h.length_lt
      length_before := h.length_before
      ne_zero := h.ne_zero
      returns := h.returns
      writer_ok := TsoState.WriterOk.mono h.writer_ok rfl rfl (Part.view_flush hflush) rfl le_rfl
      reader_ok := TsoState.ReaderOk.mono h.reader_ok rfl rfl rfl List.prefix_rfl
        (Nat.add_le_add_right hcount _) }

/-- **A store of the consumer reaching memory keeps the invariant.**

**Proof sketch.** Memory shows one more value taken, which only gives the producer more room; the
consumer itself sees the same index as before. -/
lemma TsoInv.flushConsumer (h : TsoInv put d₀ n smap.toFun s) {p : Part Word Word}
    (hflush : s.consumer.flush setRead = some p) :
    TsoInv put d₀ n smap.toFun { s with consumer := p } := by
  obtain ⟨x, hbuf, -⟩ := Part.flush_eq_some hflush
  have hlen : s.consumer.buf.length = p.buf.length + 1 := by rw [hbuf, List.length_cons]
  have hlt := h.length_lt
  have hfree : s.visiblyTaken ≤ TsoState.visiblyTaken { s with consumer := p } := by
    show s.taken.length - _ ≤ s.taken.length - p.buf.length
    omega
  refine
    { mask := h.mask
      producer := h.producer.imp fun post v hv => hv.mono hfree rfl rfl rfl
      consumer := h.consumer.flush hflush
      taken_prefix := h.taken_prefix
      taken_le := h.taken_le
      length_lt := ?_
      length_before := h.length_before
      ne_zero := h.ne_zero
      returns := h.returns
      writer_ok := TsoState.WriterOk.mono h.writer_ok rfl rfl rfl rfl ?_
      reader_ok := TsoState.ReaderOk.mono h.reader_ok rfl (Part.view_flush hflush) rfl
        List.prefix_rfl le_rfl }
  · show s.written.length + p.buf.length < s.taken.length + n
    omega
  · show p.buf.length + s.taken.length ≤ s.consumer.buf.length + s.taken.length
    omega

/-- **Every access and every store reaching memory keeps the invariant.** -/
theorem tsoStep_inv (hn : n = 2 ^ k) (hlt : n < 2 ^ 32) {a : TsoAct ε}
    (h : TsoInv put d₀ n smap.toFun s) (hstep : tsoStep put smap.toFun s a = some t) :
    TsoInv put d₀ n smap.toFun t := by
  cases a with
  | lqWrite m => exact tsoStartWrite_inv h hstep
  | producer => exact tsoWriterStep_inv hn hlt h hstep
  | consumer =>
    obtain rfl := Option.some.inj hstep
    exact tsoReaderStep_inv hn hlt h
  | store e => exact tsoStore_inv h hstep
  | flushProducer =>
    obtain ⟨p, hflush, rfl⟩ := Option.map_eq_some_iff.mp hstep
    exact h.flushProducer hflush
  | flushConsumer =>
    obtain ⟨p, hflush, rfl⟩ := Option.map_eq_some_iff.mp hstep
    exact h.flushConsumer hflush

end Steps

/-! ## The bounded FIFO -/

section Returns

variable {δ ε : Type} {put : δ → ε → δ} {d₀ : δ} {n k : ℕ} {smap : SlotMap n} {s t : TsoState δ ε}

/-- **What an access of `lq_write` does**: it goes on with the call, or the call returns -1, or it
returns 0 with its value written.

**Proof sketch.** By the position in the call. -/
lemma tsoWriterStep_cases {smap : ℕ → ℕ} (hstep : tsoWriterStep smap s = some t) :
    t.readReturns = s.readReturns ∧ t.stores = s.stores ∧ ∃ m, s.writer.value? = some m ∧
      ((t.writer.value? = some m ∧ t.written = s.written ∧ t.storesBefore = s.storesBefore ∧
          t.writeReturns = s.writeReturns) ∨
        (t.writer = .idle ∧ t.written = s.written ∧ t.storesBefore = s.storesBefore ∧
          t.writeReturns = s.writeReturns ++ [(m, -1)]) ∨
        (t.writer = .idle ∧ t.written = s.written ++ [m] ∧
          t.storesBefore = s.storesBefore ++ [s.stores.length] ∧
          t.writeReturns = s.writeReturns ++ [(m, 0)])) := by
  unfold tsoWriterStep at hstep
  cases hw : s.writer with
  | idle => simp [hw] at hstep
  | loadRead m write =>
    simp only [hw] at hstep
    split_ifs at hstep
    · obtain rfl := Option.some.inj hstep
      exact ⟨rfl, rfl, m, rfl, Or.inr (Or.inl ⟨rfl, rfl, rfl, rfl⟩)⟩
    · obtain rfl := Option.some.inj hstep
      exact ⟨rfl, rfl, m, rfl, Or.inl ⟨rfl, rfl, rfl, rfl⟩⟩
  | storeSlot m write next =>
    simp only [hw] at hstep
    obtain rfl := Option.some.inj hstep
    exact ⟨rfl, rfl, m, rfl, Or.inl ⟨rfl, rfl, rfl, rfl⟩⟩
  | storeWrite m next =>
    simp only [hw] at hstep
    obtain rfl := Option.some.inj hstep
    exact ⟨rfl, rfl, m, rfl, Or.inr (Or.inr ⟨rfl, rfl, rfl, rfl⟩)⟩

/-- **What an access of `lq_read` does**: it goes on with the call, or the call returns 0, or it
returns the value it has loaded. -/
lemma tsoReaderStep_cases (smap : ℕ → ℕ) (s : TsoState δ ε) :
    ((tsoReaderStep smap s).producer = s.producer ∧ (tsoReaderStep smap s).writer = s.writer ∧
        (tsoReaderStep smap s).written = s.written ∧ (tsoReaderStep smap s).stores = s.stores ∧
        (tsoReaderStep smap s).storesBefore = s.storesBefore ∧
        (tsoReaderStep smap s).writeReturns = s.writeReturns) ∧
      (((tsoReaderStep smap s).reader ≠ .loadRead ∧
          (tsoReaderStep smap s).readReturns = s.readReturns) ∨
        ((tsoReaderStep smap s).reader = .loadRead ∧
          (tsoReaderStep smap s).readReturns = s.readReturns ++ [0#64]) ∨
        ∃ read m, s.reader = .storeRead read m ∧ (tsoReaderStep smap s).reader = .loadRead ∧
          (tsoReaderStep smap s).readReturns = s.readReturns ++ [m]) := by
  unfold tsoReaderStep
  cases s.reader with
  | loadRead => exact ⟨⟨rfl, rfl, rfl, rfl, rfl, rfl⟩, Or.inl ⟨by simp, rfl⟩⟩
  | loadWrite read =>
    dsimp only
    split_ifs
    · exact ⟨⟨rfl, rfl, rfl, rfl, rfl, rfl⟩, Or.inr (Or.inl ⟨rfl, rfl⟩)⟩
    · exact ⟨⟨rfl, rfl, rfl, rfl, rfl, rfl⟩, Or.inl ⟨by simp, rfl⟩⟩
  | loadSlot read => exact ⟨⟨rfl, rfl, rfl, rfl, rfl, rfl⟩, Or.inl ⟨by simp, rfl⟩⟩
  | storeRead read m =>
    exact ⟨⟨rfl, rfl, rfl, rfl, rfl, rfl⟩, Or.inr (Or.inr ⟨read, m, rfl, rfl, rfl⟩)⟩

/-- Only the accesses of the two calls return. -/
lemma tsoStep_returns {smap : ℕ → ℕ} {a : TsoAct ε} (hstep : tsoStep put smap s a = some t) :
    a = .producer ∨ a = .consumer ∨
      t.writeReturns = s.writeReturns ∧ t.readReturns = s.readReturns := by
  cases a with
  | producer => exact Or.inl rfl
  | consumer => exact Or.inr (Or.inl rfl)
  | lqWrite m =>
    obtain ⟨-, -, rfl⟩ := tsoStartWrite_cases hstep
    exact Or.inr (Or.inr ⟨rfl, rfl⟩)
  | store e =>
    obtain ⟨-, rfl⟩ := tsoStore_cases hstep
    exact Or.inr (Or.inr ⟨rfl, rfl⟩)
  | flushProducer =>
    obtain ⟨p, -, rfl⟩ := Option.map_eq_some_iff.mp hstep
    exact Or.inr (Or.inr ⟨rfl, rfl⟩)
  | flushConsumer =>
    obtain ⟨p, -, rfl⟩ := Option.map_eq_some_iff.mp hstep
    exact Or.inr (Or.inr ⟨rfl, rfl⟩)

/-- `lq_write` returns -1 only when the queue is full by the values visibly taken.

**Proof sketch.** The only access that returns -1 is the load of `q->read` from memory, when the
next index is the one loaded (`TsoInv.next_eq_iff`). -/
lemma written_of_returns_full (hn : n = 2 ^ k) (hlt : n < 2 ^ 32) {a : TsoAct ε} {m : Ptr}
    (h : TsoInv put d₀ n smap.toFun s) (hstep : tsoStep put smap.toFun s a = some t)
    (hret : t.writeReturns = s.writeReturns ++ [(m, -1)]) :
    s.written.length + 1 = s.visiblyTaken + n := by
  rcases tsoStep_returns hstep with rfl | rfl | ⟨hkeep, -⟩
  · have hok := h.writer_ok
    unfold TsoState.WriterOk at hok
    simp only [tsoStep, tsoWriterStep] at hstep
    cases hw : s.writer with
    | idle => simp [hw] at hstep
    | loadRead m' write =>
      simp only [hw] at hok hstep
      obtain ⟨-, rfl⟩ := hok
      split_ifs at hstep with hfull
      · exact (h.next_eq_iff hn hlt).mp hfull
      · obtain rfl := Option.some.inj hstep
        simp at hret
    | storeSlot m' write next =>
      simp only [hw] at hstep
      obtain rfl := Option.some.inj hstep
      simp at hret
    | storeWrite m' next =>
      simp only [hw] at hstep
      obtain rfl := Option.some.inj hstep
      simp at hret
  · obtain rfl := Option.some.inj hstep
    simp [(tsoReaderStep_cases smap.toFun s).1] at hret
  · simp [hkeep] at hret

/-- `lq_read` returns 0 only when the queue is empty by the values visibly written. -/
lemma taken_of_returns_empty {a : TsoAct ε} (h : TsoInv put d₀ n smap.toFun s)
    (hstep : tsoStep put smap.toFun s a = some t)
    (hret : t.readReturns = s.readReturns ++ [0#64]) : s.taken.length = s.visiblyWritten := by
  rcases tsoStep_returns hstep with rfl | rfl | ⟨-, hkeep⟩
  · simp [(tsoWriterStep_cases hstep).1] at hret
  · obtain rfl := Option.some.inj hstep
    have hok := h.reader_ok
    unfold TsoState.ReaderOk at hok
    unfold tsoReaderStep at hret
    cases hr : s.reader with
    | loadRead => simp [hr] at hret
    | loadWrite read =>
      simp only [hr] at hok hret
      subst hok
      split_ifs at hret with hempty
      · exact h.ownRead_eq_iff.mp hempty
      · simp at hret
    | loadSlot read => simp [hr] at hret
    | storeRead read m =>
      simp only [hr] at hok hret
      obtain rfl : m = 0#64 := by simpa using hret
      exact absurd rfl (h.ne_zero _ (List.mem_of_getElem? hok.2.2))
  · simp [hkeep] at hret

end Returns

section Runs

variable {δ ε : Type} (put : δ → ε → δ) (d₀ : δ) {qlen : Word} {blq : Blq}

/-- The invariant holds in every state of every run from an initialised queue. -/
lemma tsoInv_of_run (hinit : blqInit Blq.zero qlen = some blq) (smap : SlotMap qlen.toNat)
    {as : List (TsoAct ε)} {s : TsoState δ ε}
    (hrun : run (tsoStep put smap.toFun) (TsoState.start ε blq d₀) as = some s) :
    TsoInv put d₀ qlen.toNat smap.toFun s := by
  obtain ⟨⟨k, hk⟩, -, -⟩ := blqInit_eq_some hinit
  exact invariant_of_run (fun _ _ _ => tsoStep_inv hk qlen.isLt) (tsoInv_start put d₀ hinit _) hrun

/-- **The queue is a bounded FIFO under total store order.** For every length that `blq_init`
accepts, every slot map and every interleaving of the accesses of one producer and one consumer with
the draining of their store buffers:

* the non-zero values returned by `lq_read` are a prefix of the values for which `lq_write` has
  returned 0;
* `lq_write` returns -1 only at an access to `q->read` with exactly `qlen - 1` values more written
  than memory shows taken, and `lq_read` returns 0 only at an access to `q->write` with as many
  values taken as memory shows written;
* memory never shows more values taken than written, and the indices in it stay below `qlen`.

**Proof sketch.** The invariant holds in every state (`tsoInv_of_run`) and has the order of the
values and the bounds on what memory shows. The two returns are `written_of_returns_full` and
`taken_of_returns_empty`. -/
theorem tso_boundedFifo (hinit : blqInit Blq.zero qlen = some blq) (smap : SlotMap qlen.toNat)
    {as : List (TsoAct ε)} {s : TsoState δ ε}
    (hrun : run (tsoStep put smap.toFun) (TsoState.start ε blq d₀) as = some s) :
    s.taken <+: s.written ∧
      (s.writeReturns.filter fun p => p.2 = 0).map Prod.fst = s.written ∧
      (∀ a t m, tsoStep put smap.toFun s a = some t →
        t.writeReturns = s.writeReturns ++ [(m, -1)] →
        s.written.length = s.visiblyTaken + (qlen.toNat - 1)) ∧
      (∀ a t, tsoStep put smap.toFun s a = some t →
        t.readReturns = s.readReturns ++ [0#64] → s.taken.length = s.visiblyWritten) ∧
      (s.visiblyTaken ≤ s.taken.length ∧ s.taken.length ≤ s.visiblyWritten ∧
        s.visiblyWritten ≤ s.written.length ∧
        s.written.length ≤ s.visiblyTaken + (qlen.toNat - 1)) ∧
      s.producer.mem.write.toNat < qlen.toNat ∧ s.consumer.mem.toNat < qlen.toNat := by
  obtain ⟨⟨k, hk⟩, h2, -⟩ := blqInit_eq_some hinit
  have hinv := tsoInv_of_run put d₀ hinit smap hrun
  obtain ⟨hpending, hle, hroom⟩ := hinv.visible
  obtain ⟨hbuf, hread⟩ := hinv.mem_read_eq
  obtain ⟨j, -, hmem⟩ := hinv.content_mem
  refine ⟨hinv.taken_prefix, hinv.returns, ?_, ?_, by omega, ?_, ?_⟩
  · intro a t m hstep hret
    have := written_of_returns_full hk qlen.isLt hinv hstep hret
    omega
  · exact fun a t hstep hret => taken_of_returns_empty hinv hstep hret
  · rw [hmem.write_eq]
    exact Nat.mod_lt _ (by omega)
  · rw [hread]
    exact Nat.mod_lt _ (by omega)

/-- **A value taken brings with it all that was stored before it was written.** In every run, the
producer's other variables are in memory the result of its first `j` stores to them, in order, and
`j` counts at least the stores made before the `lq_write` of any value that memory shows written,
and so of any value that the consumer has taken. -/
theorem tso_published (hinit : blqInit Blq.zero qlen = some blq) (smap : SlotMap qlen.toNat)
    {as : List (TsoAct ε)} {s : TsoState δ ε}
    (hrun : run (tsoStep put smap.toFun) (TsoState.start ε blq d₀) as = some s) :
    s.storesBefore.length = s.written.length ∧
      ∃ j ≤ s.stores.length, s.producer.mem.data = (s.stores.take j).foldl put d₀ ∧
        s.taken.length ≤ s.visiblyWritten ∧
        ∀ k < s.visiblyWritten, ∀ d, s.storesBefore[k]? = some d → d ≤ j := by
  have hinv := tsoInv_of_run put d₀ hinit smap hrun
  obtain ⟨j, hj, hmem⟩ := hinv.content_mem
  exact ⟨hinv.length_before, j, hj, hmem.data_eq, hinv.visible.2.1, hmem.before⟩

end Runs

/-- The producer stores a number of its own, writes a value, and stores another number; its stores
reach memory up to the value, and the consumer takes it. -/
def oneDelayed : List (TsoAct ℕ) :=
  [.store 5, .lqWrite 7#64, .producer, .producer, .producer, .store 6] ++
    List.replicate 3 .flushProducer ++ List.replicate 4 .consumer

/-- The queue of length 2 in zeroed memory. -/
def Blq.two : Blq := { Blq.zero with qlen := 2#32, qmask := 1#32 }

/-- After the run `oneDelayed` a value has been taken and a store is still to come. -/
lemma run_oneDelayed :
    ∃ s, run (tsoStep (fun _ e => e) (SlotMap.id 2).toFun) (TsoState.start ℕ Blq.two 0)
        oneDelayed = some s ∧
      s.taken = [7#64] ∧ s.written = [7#64] ∧ s.stores = [5, 6] ∧ s.producer.mem.data = 5 := by
  have hvals : (run (tsoStep (fun _ e => e) (SlotMap.id 2).toFun) (TsoState.start ℕ Blq.two 0)
      oneDelayed).map (fun s => (s.taken, s.written, s.stores, s.producer.mem.data)) =
        some ([7#64], [7#64], [5, 6], 5) := by decide +kernel
  obtain ⟨s, hrun, hs⟩ := Option.map_eq_some_iff.mp hvals
  simp only [Prod.mk.injEq] at hs
  exact ⟨s, hrun, hs⟩

/-- The value taken is a prefix of the value written. -/
theorem tso_boundedFifo_two :
    ∃ s, blqInit Blq.zero 2#32 = some Blq.two ∧
      run (tsoStep (fun _ e => e) (SlotMap.id 2).toFun) (TsoState.start ℕ Blq.two 0) oneDelayed =
        some s ∧ s.taken = [7#64] ∧ s.taken <+: s.written := by
  obtain ⟨s, hrun, htaken, -⟩ := run_oneDelayed
  exact ⟨s, rfl, hrun, htaken,
    (@tso_boundedFifo ℕ ℕ (fun _ e => e) 0 2#32 _ rfl (SlotMap.id 2) oneDelayed s hrun).1⟩

/-- The number stored before the value has come with it, the one stored after it has not. -/
theorem tso_published_two :
    ∃ s, blqInit Blq.zero 2#32 = some Blq.two ∧
      run (tsoStep (fun _ e => e) (SlotMap.id 2).toFun) (TsoState.start ℕ Blq.two 0) oneDelayed =
        some s ∧ s.stores = [5, 6] ∧ s.producer.mem.data = 5 ∧
      ∃ j ≤ s.stores.length,
        s.producer.mem.data = (s.stores.take j).foldl (fun _ e => e) 0 := by
  obtain ⟨s, hrun, -, -, hstores, hdata⟩ := run_oneDelayed
  obtain ⟨-, j, hj, hmem, -⟩ :=
    @tso_published ℕ ℕ (fun _ e => e) 0 2#32 _ rfl (SlotMap.id 2) oneDelayed s hrun
  exact ⟨s, rfl, hrun, hstores, hdata, j, hj, hmem⟩

end Huc
