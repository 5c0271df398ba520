import Huc.Spscq.Layout
import Huc.Spscq.Pool
import Huc.Spscq.SlotMap

set_option relaxedAutoImplicit false
set_option autoImplicit false

/-!
# The benchmark in memory

`main` of `guestend/simplified-spscq/spscq.cpp` makes two allocations: the mbufs and the slot map
together, and the queue. It fills the slot map, creates the queue and starts the two threads. Here
all of it is in one byte memory: `mbuf_get` stores the length of an mbuf at an address,
`mbuf_put` loads it at the address that has come through the queue, and nothing but the addresses
keeps apart the mbufs, the slot map and the queue.

The program on memory has the runs of the program on separate variables, and so what is proved
there holds of memory.

## Main definitions

* `Huc.poolSize`, `Huc.poolAndSmapSize` — the sizes that `main` computes.
* `Huc.ProgramPlace` — where the two allocations are.
* `Huc.mainSetup` — `main` up to the start of the threads.
* `Huc.Program`, `Huc.programStep` — the interleaved accesses of the threads.

## Main results

* `Huc.mainSetup_spec` — what is in memory when the threads start.
* `Huc.map_programStep` — one step on memory and on the variables.
* `Huc.program_run` — the runs on memory are the runs on the variables.
* `Huc.program_sound` — every mbuf arrives with its number, and nothing else is touched.
-/

namespace Huc

open Transition Alignment

/-! ## The allocations -/

/-- `pool_size` in `main`. -/
def poolSize (qlen : Word) : BitVec 64 :=
  spscqAlignedSize ((2#32 * qlen).setWidth 64 * BitVec.ofNat 64 mbufSize)

/-- `pool_and_smap_size` in `main`. -/
def poolAndSmapSize (qlen : Word) : BitVec 64 := poolSize qlen + qlen.setWidth 64 * 2#64

section Sizes

variable (qlen : Word)

/-- The size of the mbufs, aligned. -/
lemma toNat_poolSize :
    (poolSize qlen).toNat = alignUp ((2#32 * qlen).toNat * mbufSize) 128 := by
  have hlt := (2#32 * qlen).isLt
  have hprod : ((2#32 * qlen).setWidth 64 * BitVec.ofNat 64 mbufSize).toNat =
      (2#32 * qlen).toNat * mbufSize := by
    simp only [mbufSize]
    rw [BitVec.toNat_mul, BitVec.toNat_setWidth, BitVec.toNat_ofNat]
    omega
  have halign := @toNat_add_and_not 64 7 ((2#32 * qlen).setWidth 64 * BitVec.ofNat 64 mbufSize)
    127#64 (by decide) (by decide) (by
      rw [hprod]
      simp only [mbufSize]
      omega)
  rwa [hprod] at halign

/-- The slot map begins at an aligned address. -/
lemma dvd_poolSize : spscqAlignSize ∣ (poolSize qlen).toNat := by
  rw [toNat_poolSize, alignUp]
  exact Nat.dvd_mul_left _ _

/-- The slot map has two bytes for each slot. -/
lemma toNat_poolAndSmapSize :
    (poolAndSmapSize qlen).toNat = (poolSize qlen).toNat + 2 * qlen.toNat := by
  have hlt := (2#32 * qlen).isLt
  have hqlen := qlen.isLt
  have hpool : (poolSize qlen).toNat < 2 ^ 46 := by
    rw [toNat_poolSize, alignUp]
    simp only [mbufSize]
    omega
  rw [poolAndSmapSize, BitVec.toNat_add, BitVec.toNat_mul, BitVec.toNat_setWidth,
    BitVec.toNat_ofNat]
  omega

variable {qlen}

/-- The doubled length, as long as it has 32 bits. -/
lemma toNat_two_mul (h : 2 * qlen.toNat < 2 ^ 32) : (2#32 * qlen).toNat = 2 * qlen.toNat := by
  rw [BitVec.toNat_mul, BitVec.toNat_ofNat]
  omega

/-- The mbufs fill their part of the allocation, as long as the doubled length has 32 bits. -/
lemma poolSize_eq (h : 2 * qlen.toNat < 2 ^ 32) :
    (poolSize qlen).toNat = mbufSize * (2 * qlen.toNat) := by
  rw [toNat_poolSize, toNat_two_mul h, alignUp]
  simp only [mbufSize]
  omega

end Sizes

/-- Where `szalloc` has put the mbufs with the slot map, and where it will put the queue. -/
structure ProgramPlace (qlen : Word) where
  pool : Ptr
  blq : ℕ
  pool_ne_null : 0 < pool.toNat
  pool_aligned : spscqAlignSize ∣ pool.toNat
  blq_aligned : spscqAlignSize ∣ blq
  fits : pool.toNat + (poolAndSmapSize qlen).toNat ≤ 2 ^ 64
  apart : blq + (blqSize qlen).toNat ≤ pool.toNat ∨
    pool.toNat + (poolAndSmapSize qlen).toNat ≤ blq

section Place

variable {qlen : Word} (place : ProgramPlace qlen)

/-- The queue, and `smap` behind the mbufs. -/
def ProgramPlace.queue : QueuePlace qlen where
  blq := place.blq
  smap := place.pool.toNat + (poolSize qlen).toNat
  blq_aligned := place.blq_aligned
  smap_aligned := (show 2 ∣ spscqAlignSize by decide).trans
    (Nat.dvd_add place.pool_aligned (dvd_poolSize qlen))
  apart := by
    have hsize := toNat_poolAndSmapSize qlen
    have := place.apart
    omega

/-- `&g->pool[i]`. -/
def ProgramPlace.mbuf (i : ℕ) : Ptr := place.pool + BitVec.ofNat 64 (mbufSize * i)

/-- The mbufs as a pool. -/
def ProgramPlace.mbufPool (h : 2 * qlen.toNat < 2 ^ 32) : MbufPool qlen.toNat where
  base := place.pool
  ne_null := place.pool_ne_null
  fits := by
    have hsize := toNat_poolAndSmapSize qlen
    have := place.fits
    rw [poolSize_eq h] at hsize
    omega

/-- The address is in neither allocation. -/
def ProgramPlace.Outside (y : ℕ) : Prop :=
  (y < place.blq ∨ place.blq + (blqSize qlen).toNat ≤ y) ∧
    (y < place.pool.toNat ∨ place.pool.toNat + (poolAndSmapSize qlen).toNat ≤ y)

/-- Such an address is not in an mbuf. -/
lemma ProgramPlace.Outside.apart_mbufs {place : ProgramPlace qlen} {y : ℕ} (h : place.Outside y) :
    y < place.pool.toNat ∨ place.pool.toNat + (poolSize qlen).toNat ≤ y := by
  have hsize := toNat_poolAndSmapSize qlen
  have hpool := h.2
  omega

/-- The field `len` of each mbuf in memory. -/
def ProgramPlace.len (mem : ByteMem) (m : Ptr) : Word :=
  if ∃ i < 2 * qlen.toNat, m = place.mbuf i then mem.word m.toNat else 0#32

/-- `main` up to the start of the threads, for a length `g->qlen`, with or without the option
`deceive_hw_data_prefetcher`; `none` if `blq_create` fails. An entry of the slot map that is not
filled keeps its value. -/
def mainSetup (shuffles : Shuffles) (shuffle : Bool) (mem : ByteMem) : Option ByteMem :=
  let mem := mem.write place.pool.toNat (List.replicate (poolAndSmapSize qlen).toNat 0#8)
  let smap := qslotmapInit shuffles (fun i => mem.half (place.queue.entry i)) qlen shuffle
  blqCreate place.queue (mem.writeHalves place.queue.smap qlen.toNat smap)

end Place

/-! ## The threads -/

/-- The memory with the calls on the queue in progress, the two threads and the variables that
are not in the two allocations. -/
structure Program where
  queue : MemQueue
  producer : LqProducer
  consumer : LqConsumer
  stop : Bool
  poolIdx : Word
  pktCnt : BitVec 64
  csum : Word
  trash : Word
  putLens : List Word

/-- Before the threads start. -/
def Program.start (mem : ByteMem) : Program where
  queue := MemQueue.start mem
  producer := .loadStop
  consumer := .read
  stop := false
  poolIdx := 0#32
  pktCnt := 0#64
  csum := 0#32
  trash := 0#32
  putLens := []

/-- Whether the last call of `lq_write` has returned 0. -/
def MemQueue.wroteLast (s : MemQueue) : Bool := s.writeReturns.getLast?.any fun p => p.2 = 0

/-- The result of the last call of `lq_read`. -/
def MemQueue.lastRead (s : MemQueue) : Ptr := s.readReturns.getLast?.getD 0#64

section Steps

variable {qlen : Word} (place : ProgramPlace qlen)

/-- `mbuf_get`: the mbuf, and the store to its `len`. -/
def Program.mbufGet (s : Program) (trash : Word) : Ptr × Program :=
  let poolMask := 2#32 * qlen - 1#32
  let m := place.mbuf (s.poolIdx &&& poolMask).toNat
  let len := s.poolIdx + if trash = 0xdeadbeef#32 then 1#32 else 0#32
  (m,
    { s with
      queue := { s.queue with mem := s.queue.mem.write m.toNat (leBytes len) }
      poolIdx := s.poolIdx + 1#32 })

/-- `mbuf_put`, with the load of `len`. -/
def Program.mbufPut (s : Program) (m : Ptr) : Program :=
  let len := s.queue.mem.word m.toNat
  { s with
    trash := s.trash + m.setWidth 32
    csum := s.csum + len
    putLens := s.putLens ++ [len] }

/-- The next access of `lq_producer`, whose own `trash` stays zero. -/
def Program.producerStep (s : Program) : Option Program :=
  match s.producer with
  | .loadStop => some { s with producer := if s.stop then .returned else .get }
  | .get =>
    let (m, s) := s.mbufGet place 0#32
    some { s with producer := .write m }
  | .write m =>
    match s.queue.writer with
    | .idle => (memQueueStep place.queue s.queue (.lqWrite m)).map fun q => { s with queue := q }
    | _ => (memQueueStep place.queue s.queue .producer).map fun q =>
      { s with
        queue := q
        producer := if q.writer = .idle ∧ q.wroteLast then .loadStop else .write m }
  | .returned => none

/-- After an access of `lq_read`, which may be its last one. -/
def Program.afterRead (s : Program) (q : MemQueue) : Program :=
  if q.reader = .loadRead then
    if q.lastRead ≠ 0#64 then
      { s with queue := q, pktCnt := s.pktCnt + 1#64, consumer := .put q.lastRead }
    else { s with queue := q, consumer := .loadStop }
  else { s with queue := q }

/-- The next access of `lq_consumer`. -/
def Program.consumerStep (s : Program) : Option Program :=
  match s.consumer with
  | .read => (memQueueStep place.queue s.queue .consumer).map s.afterRead
  | .put m => some { s.mbufPut m with consumer := .loadStop }
  | .loadStop => some { s with consumer := if s.stop then .returned else .read }
  | .returned => none

/-- One step of the program. -/
def programStep (s : Program) : PoolAct → Option Program
  | .producer => s.producerStep place
  | .consumer => s.consumerStep place
  | .sigint => some { s with stop := true }

/-- The program with the queue and the mbufs as variables of their own. -/
def Program.toPool (s : Program) : PoolState where
  queue := s.queue.toQueue place.queue
  producer := s.producer
  consumer := s.consumer
  stop := s.stop
  poolIdx := s.poolIdx
  len := place.len s.queue.mem
  pktCnt := s.pktCnt
  csum := s.csum
  trash := s.trash
  putLens := s.putLens

end Steps

/-! ## Memory as variables -/

section Memory

variable {qlen : Word} {place : ProgramPlace qlen} {mem mem' : ByteMem}

/-- The address of an mbuf of the program. -/
lemma toNat_placeMbuf (place : ProgramPlace qlen) (h : 2 * qlen.toNat < 2 ^ 32) {i : ℕ}
    (hi : i < 2 * qlen.toNat) :
    (place.mbuf i).toNat = place.pool.toNat + mbufSize * i :=
  toNat_mbuf (place.mbufPool h) hi

/-- The field of an mbuf of the pool. -/
lemma len_of_lt {i : ℕ} (hi : i < 2 * qlen.toNat) :
    place.len mem (place.mbuf i) = mem.word (place.mbuf i).toNat :=
  if_pos ⟨i, hi, rfl⟩

/-- The fields depend on the bytes of the mbufs only. -/
lemma len_congr (h : 2 * qlen.toNat < 2 ^ 32)
    (heq : ∀ y, place.pool.toNat ≤ y → y < place.pool.toNat + (poolSize qlen).toNat →
      mem y = mem' y) : place.len mem = place.len mem' := by
  have hsize := poolSize_eq h
  funext m
  rw [ProgramPlace.len, ProgramPlace.len]
  split_ifs with hm
  · obtain ⟨i, hi, rfl⟩ := hm
    have haddr := toNat_placeMbuf place h hi
    refine ByteMem.word_congr fun y hy hy' => heq y (by omega) ?_
    simp only [mbufSize] at haddr hsize
    omega
  · rfl

/-- **A store to the field of one mbuf** changes no other one. -/
lemma len_write (h : 2 * qlen.toNat < 2 ^ 32) {i : ℕ} (hi : i < 2 * qlen.toNat) (w : Word) :
    place.len (mem.write (place.mbuf i).toNat (leBytes w)) =
      Function.update (place.len mem) (place.mbuf i) w := by
  funext m
  rw [Function.update_apply]
  split_ifs with hm
  · rw [hm, len_of_lt hi, ByteMem.word_write_self]
  · rw [ProgramPlace.len, ProgramPlace.len]
    split_ifs with hpool
    · obtain ⟨j, hj, rfl⟩ := hpool
      have hne : j ≠ i := fun heq => hm (heq ▸ rfl)
      have haddr := toNat_placeMbuf place h hi
      have haddr' := toNat_placeMbuf place h hj
      refine ByteMem.word_write_of_disjoint _ _ ?_
      simp only [mbufSize] at haddr haddr'
      rw [length_leBytes]
      omega
    · rfl

/-- A store to the field of an mbuf stays inside the mbufs. -/
lemma write_mbuf_apply (h : 2 * qlen.toNat < 2 ^ 32) {i : ℕ} (hi : i < 2 * qlen.toNat) (w : Word)
    {y : ℕ} (hy : y < place.pool.toNat ∨ place.pool.toNat + (poolSize qlen).toNat ≤ y) :
    mem.write (place.mbuf i).toNat (leBytes w) y = mem y := by
  have hsize := poolSize_eq h
  have haddr := toNat_placeMbuf place h hi
  simp only [mbufSize] at hsize haddr
  rcases hy with hlt | hge
  · exact ByteMem.write_apply_of_lt _ _ (by omega)
  · exact ByteMem.write_apply_of_ge _ _ (by rw [length_leBytes]; omega)

end Memory

/-! ## The setup -/

section Setup

variable {qlen : Word} {place : ProgramPlace qlen} {shuffles : Shuffles} {shuffle : Bool}
  {mem mem' : ByteMem}

/-- An entry of the slot map depends on what was there before only. -/
lemma qslotmapInit_congr {m m' : ℕ → Slot} {i : ℕ} (h : m i = m' i) :
    qslotmapInit shuffles m qlen shuffle i = qslotmapInit shuffles m' qlen shuffle i := by
  cases shuffle with
  | false => exact Blocks.fill_congr h
  | true => exact Blocks.fillBlocks_congr h

/-- **What is in memory when the threads start**: an initialised queue, the slot map as in zeroed
memory, and a pool of zeroed mbufs; outside the two allocations nothing has changed.

**Proof sketch.** Creating the queue changes nothing outside its allocation (`blqAt_blqCreate`),
where the slot map was filled before, over zeroed memory. The mbufs are zeroed, and neither the
table nor the queue overlaps them. -/
lemma mainSetup_spec (hsetup : mainSetup place shuffles shuffle mem = some mem') :
    blqInit Blq.zero qlen = some (blqAt place.queue mem') ∧
      (∀ i < qlen.toNat,
        (mem'.half (place.queue.entry i)).toNat = qslotmap shuffles qlen shuffle i) ∧
      place.len mem' = (fun _ => 0#32) ∧ ∀ y, place.Outside y → mem' y = mem y := by
  obtain ⟨hinit, hframe⟩ := blqAt_blqCreate hsetup
  have hsmall : 2 * qlen.toNat < 2 ^ 32 := by
    have := lt_of_blqInit hinit
    omega
  have hsize := poolSize_eq hsmall
  have hsize' := toNat_poolAndSmapSize qlen
  have hapart := place.apart
  have hsmap : place.queue.smap = place.pool.toNat + (poolSize qlen).toNat := rfl
  refine ⟨hinit, fun i hi => ?_, ?_, fun y hy => ?_⟩
  · rw [half_entry_congr hframe hi, QueuePlace.entry, ByteMem.half_writeHalves _ _ hi]
    refine congrArg BitVec.toNat (qslotmapInit_congr ?_)
    refine ByteMem.half_write_replicate _ ?_ ?_
    · rw [QueuePlace.entry]
      omega
    · rw [QueuePlace.entry]
      omega
  · funext m
    rw [ProgramPlace.len]
    split_ifs with hm
    · obtain ⟨i, hi, rfl⟩ := hm
      have haddr := toNat_placeMbuf place hsmall hi
      simp only [mbufSize] at haddr hsize
      refine (ByteMem.word_congr fun y hy hy' => ?_).trans
        (ByteMem.word_write_replicate mem (a := place.pool.toNat)
          (n := (poolAndSmapSize qlen).toNat) (by omega) (by omega))
      rw [hframe y (by show y < place.blq ∨ place.blq + _ ≤ y; omega),
        ByteMem.writeHalves_apply_of_outside _ _ (by omega)]
    · rfl
  · rw [hframe y hy.1, ByteMem.writeHalves_apply_of_outside _ _ (by have := hy.2; omega)]
    rcases hy.2 with hlt | hge
    · exact ByteMem.write_apply_of_lt _ _ hlt
    · exact ByteMem.write_apply_of_ge _ _ (by rwa [List.length_replicate])

/-- The setup succeeds for every length that `blq_init` accepts. -/
lemma exists_mainSetup (place : ProgramPlace qlen) (shuffles : Shuffles) (shuffle : Bool)
    (mem : ByteMem) {blq : Blq} (hinit : blqInit Blq.zero qlen = some blq) :
    ∃ mem', mainSetup place shuffles shuffle mem = some mem' := by
  unfold blqInit at hinit
  split_ifs at hinit with hc
  exact ⟨_, if_neg hc⟩

end Setup

/-! ## One step -/

section OneStep

variable {qlen : Word} {place : ProgramPlace qlen} {h : 2 * qlen.toNat < 2 ^ 32}
  {smap : SlotMap qlen.toNat} {s t : Program}

/-- What the invariant of the pool says of memory, and the table of the slot map. -/
structure Program.Ok (place : ProgramPlace qlen) (h : 2 * qlen.toNat < 2 ^ 32)
    (smap : SlotMap qlen.toNat) (s : Program) : Prop where
  inv : PoolInv (place.mbufPool h) smap.toFun (s.toPool place)
  entries : ∀ i < qlen.toNat, (s.queue.mem.half (place.queue.entry i)).toNat = smap.toFun i

/-- The queue of a program. -/
lemma Program.Ok.queue (hok : s.Ok place h smap) : s.queue.Ok place.queue smap.toFun :=
  ⟨hok.inv.queue.index, hok.entries, smap.lt⟩

/-- The slots are inside the allocation of the queue. -/
lemma slots_le_blqSize (h : 2 * qlen.toNat < 2 ^ 32) :
    640 + 8 * qlen.toNat ≤ (blqSize qlen).toNat := by
  rw [toNat_blqSize (by omega)]
  exact le_alignUp (by decide)

/-- An access to the queue changes nothing outside of it. -/
lemma mem_of_queueStep (hok : s.Ok place h smap) {a : QueueAct} {q : MemQueue}
    (hstep : memQueueStep place.queue s.queue a = some q) {y : ℕ}
    (hy : y < place.blq ∨ place.blq + (blqSize qlen).toNat ≤ y) : q.mem y = s.queue.mem y := by
  obtain ⟨⟨xs, q⟩, hacc, rfl⟩ := Option.map_eq_some_iff.mp hstep
  exact (memAccesses_ok (slots_le_blqSize h) hok.queue hacc).eq_outside hy

/-- An access to the queue changes no mbuf. -/
lemma len_of_queueStep (hok : s.Ok place h smap) {a : QueueAct} {q : MemQueue}
    (hstep : memQueueStep place.queue s.queue a = some q) :
    place.len q.mem = place.len s.queue.mem := by
  have hsize := toNat_poolAndSmapSize qlen
  have hapart := place.apart
  exact len_congr h fun y hy hy' => mem_of_queueStep hok hstep (by omega)

/-- An access to the queue in memory is one to the queue as a record. -/
lemma map_queueStep (hok : s.Ok place h smap) (a : QueueAct) {f : MemQueue → Program}
    {g : QueueState → PoolState}
    (hfg : ∀ q, place.len q.mem = place.len s.queue.mem →
      (f q).toPool place = g (q.toQueue place.queue)) :
    ((memQueueStep place.queue s.queue a).map f).map (Program.toPool place) =
      (queueStep smap.toFun (s.toPool place).queue a).map g := by
  have hmap := map_memQueueStep (slots_le_blqSize h) hok.queue a
  have hqueue : (s.toPool place).queue = s.queue.toQueue place.queue := rfl
  rw [hqueue, ← hmap]
  cases hstep : memQueueStep place.queue s.queue a with
  | none => rfl
  | some q => exact congrArg some (hfg q (len_of_queueStep hok hstep))

/-- The index of an mbuf is masked to one below the size of the pool. -/
lemma toNat_and_poolMask {k : ℕ} (hpow : qlen.toNat = 2 ^ k) (h : 2 * qlen.toNat < 2 ^ 32)
    (x : Word) : (x &&& (2#32 * qlen - 1#32)).toNat < 2 * qlen.toNat := by
  have hpos : 0 < qlen.toNat := hpow ▸ Nat.two_pow_pos k
  have htwo := toNat_two_mul h
  have hmask : (2#32 * qlen - 1#32).toNat < 2 * qlen.toNat := by
    rw [toNat_sub_one (by omega), htwo]
    omega
  exact toNat_and_lt x hmask

/-- The mask of the pool as the proofs about the pool write it. -/
lemma ofNat_two_mul : BitVec.ofNat 32 (2 * qlen.toNat) = 2#32 * qlen := by
  apply BitVec.eq_of_toNat_eq
  rw [BitVec.toNat_ofNat, BitVec.toNat_mul, BitVec.toNat_ofNat]

/-- A store to the field of an mbuf changes nothing in the queue. -/
lemma blqAt_write_mbuf (h : 2 * qlen.toNat < 2 ^ 32) {mem : ByteMem} {i : ℕ}
    (hi : i < 2 * qlen.toNat) (w : Word) :
    blqAt place.queue (mem.write (place.mbuf i).toNat (leBytes w)) = blqAt place.queue mem := by
  have hsize := toNat_poolAndSmapSize qlen
  have hapart := place.apart
  have hblq : place.queue.blq = place.blq := rfl
  refine blqAt_congr (slots_le_blqSize h) fun y hy hy' => write_mbuf_apply h hi w ?_
  omega

/-- **`mbuf_get` on memory** is `mbuf_get` on the variables. -/
lemma toPool_mbufGet {k : ℕ} (place : ProgramPlace qlen) (hpow : qlen.toNat = 2 ^ k)
    (h : 2 * qlen.toNat < 2 ^ 32) (s : Program) (trash : Word) :
    (s.mbufGet place trash).1 = (mbufGet (place.mbufPool h) (s.toPool place) trash).1 ∧
      (s.mbufGet place trash).2.toPool place =
        (mbufGet (place.mbufPool h) (s.toPool place) trash).2 := by
  have hlt := toNat_and_poolMask hpow h s.poolIdx
  have hidx : (s.toPool place).poolIdx = s.poolIdx := rfl
  have hmbuf : ∀ i, (place.mbufPool h).mbuf i = place.mbuf i := fun _ => rfl
  simp only [Program.mbufGet, mbufGet, ofNat_two_mul, hidx, hmbuf, true_and]
  simp only [Program.toPool, MemQueue.toQueue, blqAt_write_mbuf h hlt, len_write h hlt]

/-- `mbuf_get` changes memory in one of the mbufs only. -/
lemma mem_mbufGet {k : ℕ} (hpow : qlen.toNat = 2 ^ k) (h : 2 * qlen.toNat < 2 ^ 32)
    (s : Program) (trash : Word) {y : ℕ}
    (hy : y < place.pool.toNat ∨ place.pool.toNat + (poolSize qlen).toNat ≤ y) :
    (s.mbufGet place trash).2.queue.mem y = s.queue.mem y :=
  write_mbuf_apply h (toNat_and_poolMask hpow h s.poolIdx) _ hy

/-- The mbuf about to be put is one of the pool. -/
lemma Program.Ok.put_mem (hok : s.Ok place h smap) {m : Ptr} (hc : s.consumer = .put m) :
    ∃ i < 2 * qlen.toNat, m = place.mbuf i := by
  have hco := hok.inv.consumer_ok
  have hconsumer : (s.toPool place).consumer = s.consumer := rfl
  unfold PoolState.ConsumerOk at hco
  rw [hconsumer, hc] at hco
  have hlt := hok.inv.queue.length_lt
  have hle := hok.inv.queue.taken_prefix.length_le
  exact ⟨_, Nat.mod_lt _ (by omega), hco.2⟩

/-- **One step of the producer** on memory and on the variables. -/
lemma map_producerStep {k : ℕ} (hpow : qlen.toNat = 2 ^ k) (hok : s.Ok place h smap) :
    (s.producerStep place).map (Program.toPool place) =
      producerStep (place.mbufPool h) smap.toFun (s.toPool place) := by
  have hproducer : (s.toPool place).producer = s.producer := rfl
  have hwriter : (s.toPool place).queue.writer = s.queue.writer := rfl
  rw [Program.producerStep, producerStep, hproducer]
  cases hp : s.producer with
  | loadStop => rfl
  | get =>
    obtain ⟨hm, hs⟩ := toPool_mbufGet place hpow h s 0#32
    simp only [← hm, ← hs]
    rfl
  | write m =>
    simp only [hwriter]
    cases hw : s.queue.writer with
    | idle =>
      exact map_queueStep hok (.lqWrite m) fun q hq => by simp only [Program.toPool, hq]
    | loadRead m' write =>
      exact map_queueStep hok .producer fun q hq => by simp only [Program.toPool, hq]; rfl
    | storeSlot m' write next =>
      exact map_queueStep hok .producer fun q hq => by simp only [Program.toPool, hq]; rfl
    | storeWrite m' next =>
      exact map_queueStep hok .producer fun q hq => by simp only [Program.toPool, hq]; rfl
  | returned => rfl

/-- After an access of `lq_read`, on the variables. -/
def PoolState.afterRead (s : PoolState) (q : QueueState) : PoolState :=
  if q.reader = .loadRead then
    if q.lastRead ≠ 0#64 then
      { s with queue := q, pktCnt := s.pktCnt + 1#64, consumer := .put q.lastRead }
    else { s with queue := q, consumer := .loadStop }
  else { s with queue := q }

/-- An access of `lq_read` by the consumer. -/
lemma consumerStep_of_read {smap : ℕ → ℕ} {s : PoolState} (hc : s.consumer = .read) :
    consumerStep smap s = (queueStep smap s.queue .consumer).map s.afterRead := by
  simp only [consumerStep, hc, queueStep, Option.map_some, PoolState.afterRead]
  split_ifs <;> rfl

/-- What is done after the access depends on the calls only. -/
lemma toPool_afterRead {q : MemQueue} (hlen : place.len q.mem = place.len s.queue.mem) :
    (s.afterRead q).toPool place = (s.toPool place).afterRead (q.toQueue place.queue) := by
  have hreader : (q.toQueue place.queue).reader = q.reader := rfl
  have hlast : (q.toQueue place.queue).lastRead = q.lastRead := rfl
  simp only [Program.afterRead, PoolState.afterRead, hreader, hlast]
  split_ifs
  · simp only [Program.toPool, hlen]
  · simp only [Program.toPool, hlen]
  · simp only [Program.toPool, hlen]

/-- **One step of the consumer** on memory and on the variables. -/
lemma map_consumerStep (hok : s.Ok place h smap) :
    (s.consumerStep place).map (Program.toPool place) =
      consumerStep smap.toFun (s.toPool place) := by
  have hconsumer : (s.toPool place).consumer = s.consumer := rfl
  cases hc : s.consumer with
  | read =>
    rw [consumerStep_of_read (hconsumer.trans hc)]
    simp only [Program.consumerStep, hc]
    exact map_queueStep hok .consumer fun _ => toPool_afterRead
  | put m =>
    obtain ⟨i, hi, rfl⟩ := hok.put_mem hc
    simp only [Program.consumerStep, consumerStep, hc, Option.map_some, Program.mbufPut, mbufPut,
      Program.toPool, len_of_lt hi]
  | loadStop => simp only [Program.consumerStep, consumerStep, hconsumer, hc]; rfl
  | returned => simp only [Program.consumerStep, consumerStep, hconsumer, hc]; rfl

/-- **One step** on memory and on the variables. -/
lemma map_programStep {k : ℕ} (hpow : qlen.toNat = 2 ^ k) (hok : s.Ok place h smap)
    (a : PoolAct) :
    (programStep place s a).map (Program.toPool place) =
      poolStep (place.mbufPool h) smap.toFun (s.toPool place) a := by
  cases a with
  | producer => exact map_producerStep hpow hok
  | consumer => exact map_consumerStep hok
  | sigint => rfl

/-- **What a step leaves alone**: it stores to the queue or to the mbufs.

**Proof sketch.** By the step. `mbuf_get` stores to an mbuf (`mem_mbufGet`), an access to the queue
stores inside it (`mem_of_queueStep`), and the other steps store nothing. -/
lemma programStep_frame {k : ℕ} (hpow : qlen.toNat = 2 ^ k) (hok : s.Ok place h smap)
    {a : PoolAct} (hstep : programStep place s a = some t) {y : ℕ}
    (hblq : y < place.blq ∨ place.blq + (blqSize qlen).toNat ≤ y)
    (hpool : y < place.pool.toNat ∨ place.pool.toNat + (poolSize qlen).toNat ≤ y) :
    t.queue.mem y = s.queue.mem y := by
  cases a with
  | producer =>
    simp only [programStep, Program.producerStep] at hstep
    cases hp : s.producer with
    | loadStop =>
      simp only [hp] at hstep
      obtain rfl := Option.some.inj hstep
      rfl
    | get =>
      simp only [hp] at hstep
      obtain rfl := Option.some.inj hstep
      exact mem_mbufGet hpow h s 0#32 hpool
    | write m =>
      simp only [hp] at hstep
      split at hstep
      · obtain ⟨q, hq, rfl⟩ := Option.map_eq_some_iff.mp hstep
        exact mem_of_queueStep hok hq hblq
      · obtain ⟨q, hq, rfl⟩ := Option.map_eq_some_iff.mp hstep
        exact mem_of_queueStep hok hq hblq
    | returned => simp [hp] at hstep
  | consumer =>
    simp only [programStep, Program.consumerStep] at hstep
    cases hc : s.consumer with
    | read =>
      simp only [hc] at hstep
      obtain ⟨q, hq, rfl⟩ := Option.map_eq_some_iff.mp hstep
      have hqueue : (s.afterRead q).queue = q := by
        unfold Program.afterRead
        split_ifs <;> rfl
      rw [hqueue]
      exact mem_of_queueStep hok hq hblq
    | put m =>
      simp only [hc] at hstep
      obtain rfl := Option.some.inj hstep
      rfl
    | loadStop =>
      simp only [hc] at hstep
      obtain rfl := Option.some.inj hstep
      rfl
    | returned => simp [hc] at hstep
  | sigint =>
    obtain rfl := Option.some.inj hstep
    rfl

/-- **Every step keeps the invariant.** -/
lemma Program.Ok.step {k : ℕ} (hpow : qlen.toNat = 2 ^ k) (hok : s.Ok place h smap) {a : PoolAct}
    (hstep : programStep place s a = some t) : t.Ok place h smap where
  inv := by
    have hmap := map_programStep hpow hok a
    rw [hstep] at hmap
    exact poolStep_inv hpow h hok.inv hmap.symm
  entries i hi := by
    have hsize := toNat_poolAndSmapSize qlen
    have hapart := place.apart
    have hhalf : t.queue.mem.half (place.queue.entry i) =
        s.queue.mem.half (place.queue.entry i) := by
      refine ByteMem.half_congr fun y hy hy' => ?_
      have hentry : place.queue.entry i = place.pool.toNat + (poolSize qlen).toNat + 2 * i := rfl
      rw [hentry] at hy hy'
      exact programStep_frame hpow hok hstep (by omega) (by omega)
    rw [hhalf]
    exact hok.entries i hi

end OneStep

/-! ## Runs -/

section Runs

variable {qlen : Word} {place : ProgramPlace qlen} {shuffles : Shuffles} {shuffle : Bool}
  {mem mem' : ByteMem}

/-- The program before the threads start is the one on the variables. -/
lemma toPool_start (hlen : place.len mem' = fun _ => 0#32) :
    (Program.start mem').toPool place = PoolState.start (blqAt place.queue mem') := by
  rw [Program.toPool, show (Program.start mem').queue.mem = mem' from rfl, hlen]
  rfl

/-- The invariant holds when the threads start. -/
lemma ok_program_start (hsetup : mainSetup place shuffles shuffle mem = some mem')
    (h : 2 * qlen.toNat < 2 ^ 32) (smap : SlotMap qlen.toNat)
    (hsmap : smap.toFun = qslotmap shuffles qlen shuffle) :
    (Program.start mem').Ok place h smap := by
  obtain ⟨hinit, hentries, hlen, -⟩ := mainSetup_spec hsetup
  constructor
  · rw [toPool_start hlen]
    exact poolInv_start (queueInv_start hinit _)
  · rw [hsmap]
    exact hentries

/-- **The program in memory has the runs of the program on variables.** For every length that
`blq_create` accepts, every outcome of the shuffles that gives a slot map, every place of the two
allocations and every content of memory, the accesses of the two threads and the signal handler
lead, whatever their order, to the state they lead to on the variables, or can be made on neither.

**Proof sketch.** A store to the field of an mbuf changes no other mbuf and nothing in the queue
(`toPool_mbufGet`), an access to the queue changes no mbuf (`len_of_queueStep`), and neither
changes the slot map. The invariant of the pool keeps the address that `mbuf_put` loads from inside
the mbufs. -/
theorem program_run (hsetup : mainSetup place shuffles shuffle mem = some mem')
    (hperm : IsPermutation (qslotmap shuffles qlen shuffle) qlen.toNat) :
    ∃ blq, ∃ h : 2 * qlen.toNat < 2 ^ 32, blqInit Blq.zero qlen = some blq ∧
      ∀ as, (run (programStep place) (Program.start mem') as).map (Program.toPool place) =
        run (poolStep (place.mbufPool h) (qslotmap shuffles qlen shuffle))
          (PoolState.start blq) as := by
  obtain ⟨hinit, -, hlen, -⟩ := mainSetup_spec hsetup
  obtain ⟨⟨k, hpow⟩, -, -⟩ := blqInit_eq_some hinit
  have h : 2 * qlen.toNat < 2 ^ 32 := by
    have := lt_of_blqInit hinit
    omega
  refine ⟨_, h, hinit, fun as => ?_⟩
  rw [← toPool_start hlen]
  exact map_run_of_invariant (I := fun s => s.Ok place h hperm.toSlotMap) (Program.toPool place)
    (fun s a hs => map_programStep hpow hs a) (fun s a t hs hstep => hs.step hpow hstep)
    (ok_program_start hsetup h hperm.toSlotMap rfl) as

/-- Two slots: the mbufs from address 8192 on, and the queue at address 65536. -/
def twoPlace : ProgramPlace 2#32 where
  pool := 8192#64
  blq := 65536
  pool_ne_null := by decide
  pool_aligned := by decide
  blq_aligned := by decide
  fits := by decide
  apart := Or.inr (by decide)

/-- One mbuf goes through the program in memory. -/
theorem program_run_two :
    ∃ mem' s, mainSetup twoPlace reversed false (fun _ => 7#8) = some mem' ∧
      run (programStep twoPlace) (Program.start mem') oneMbuf = some s ∧
      s.putLens = [0#32] ∧ s.poolIdx = 2#32 := by
  obtain ⟨mem', hsetup⟩ := exists_mainSetup twoPlace reversed false (fun _ => 7#8)
    (blqInit_of_pow Blq.zero (k := 1) rfl (by decide) (by decide))
  obtain ⟨blq, h, hinit, hrun⟩ :=
    program_run hsetup (isPermutation_qslotmap reversed (k := 1) rfl (by decide) (by decide) nofun)
  obtain rfl := Option.some.inj hinit
  have hvals : (run (poolStep (twoPlace.mbufPool (by decide)) (qslotmap reversed 2#32 false))
      (PoolState.start { Blq.zero with qlen := 2#32, qmask := 2#32 - 1#32 }) oneMbuf).map
        (fun s => (s.putLens, s.poolIdx)) = some ([0#32], 2#32) := by
    decide +kernel
  rw [← hrun oneMbuf, Option.map_map] at hvals
  obtain ⟨s, hs, heq⟩ := Option.map_eq_some_iff.mp hvals
  obtain ⟨hlens, hidx⟩ := Prod.mk.inj heq
  exact ⟨mem', s, hsetup, hs, hlens, hidx⟩

/-- **The program in memory is sound.** For every power of two from 2 to 65536 as `qlen`, and from 8
on if the slots are shuffled, whatever the shuffles make of their vectors, wherever the two
allocations are and whatever memory holds: the setup succeeds, and in every interleaving of the two
threads and the signal handler the `k`-th mbuf handed to `mbuf_put` is in memory with the number `k`
modulo `2 ^ 32`, `csum` is the sum of these numbers, the slot map stays as it is, and no byte
outside the two allocations ever changes.

**Proof sketch.** For these lengths the slot map is a permutation, so that the invariant of the pool
holds of the variables in every state, and with it the numbers are right. The frame of a step
carries the bytes outside the two allocations along the run. -/
theorem program_sound {k : ℕ} (hpow : qlen.toNat = 2 ^ k) (h2 : 2 ≤ qlen.toNat)
    (hlen : qlen.toNat ≤ 65536) (hshuffle : shuffle = true → 8 ≤ qlen.toNat)
    (place : ProgramPlace qlen) (shuffles : Shuffles) (mem : ByteMem) :
    ∃ mem', mainSetup place shuffles shuffle mem = some mem' ∧
      ∀ as s, run (programStep place) (Program.start mem') as = some s →
        s.putLens = (List.range s.putLens.length).map (BitVec.ofNat 32) ∧
        (∀ m, s.consumer = .put m →
          s.queue.mem.word m.toNat = BitVec.ofNat 32 s.putLens.length) ∧
        s.csum = BitVec.ofNat 32 (∑ i ∈ Finset.range s.putLens.length, i) ∧
        (∀ i < qlen.toNat, (s.queue.mem.half (place.queue.entry i)).toNat =
          qslotmap shuffles qlen shuffle i) ∧
        ∀ y, place.Outside y → s.queue.mem y = mem y := by
  have h : 2 * qlen.toNat < 2 ^ 32 := by omega
  have hperm := isPermutation_qslotmap shuffles hpow h2 hlen hshuffle
  obtain ⟨mem', hsetup⟩ := exists_mainSetup place shuffles shuffle mem
    (blqInit_of_pow Blq.zero hpow h2 h)
  obtain ⟨-, -, -, houtside⟩ := mainSetup_spec hsetup
  refine ⟨mem', hsetup, fun as s hrun => ?_⟩
  have hstart := ok_program_start hsetup h hperm.toSlotMap rfl
  obtain ⟨hok, hframe⟩ := invariant_of_run
    (I := fun u => u.Ok place h hperm.toSlotMap ∧ ∀ y, place.Outside y → u.queue.mem y = mem y)
    (fun u a v hu hstep => ⟨hu.1.step hpow hstep, fun y hy =>
      (programStep_frame hpow hu.1 hstep hy.1 (hy.apart_mbufs)).trans (hu.2 y hy)⟩)
    ⟨hstart, houtside⟩ hrun
  refine ⟨hok.inv.putLens, fun m hc => ?_, hok.inv.csum, hok.entries, hframe⟩
  obtain ⟨i, hi, rfl⟩ := hok.put_mem hc
  rw [← len_of_lt hi]
  exact hok.inv.len_put hc

/-- A queue of one cache line: the mbufs from address 8192 on, and the queue at address 131072. -/
def linePlace : ProgramPlace 8#32 where
  pool := 8192#64
  blq := 131072
  pool_ne_null := by decide
  pool_aligned := by decide
  blq_aligned := by decide
  fits := by decide
  apart := Or.inr (by decide)

/-- A shuffled cache line. -/
theorem program_sound_eight :
    ∃ mem', mainSetup linePlace reversed true (fun _ => 7#8) = some mem' ∧
      ∀ as s, run (programStep linePlace) (Program.start mem') as = some s →
        s.putLens = (List.range s.putLens.length).map (BitVec.ofNat 32) := by
  obtain ⟨mem', hsetup, hall⟩ := program_sound (k := 3) rfl (by decide) (by decide)
    (fun _ => by decide) linePlace reversed (fun _ => 7#8)
  exact ⟨mem', hsetup, fun as s hrun => (hall as s hrun).1⟩

end Runs

end Huc
