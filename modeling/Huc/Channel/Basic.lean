import Huc.Lib.Transition
import Huc.Device.Interrupt
import Huc.Guest.Receive

set_option relaxedAutoImplicit false
set_option autoImplicit false

/-!
# The channel from the host to the daemon

The device, the driver's interrupt handler and read operation, and the daemon's receive loop, as one
system. Its steps are a message of the host that the device receives completely and announces by an
interrupt, each of the three accesses of the interrupt handler, and each system call of
`recv_bytecode`. They interleave in any order; the handler starts when the line is high and no
instance of it is running.

## Main definitions

* `Huc.Channel` — the state of the system.
* `Huc.ChannelAct`, `Huc.channelStep` — its steps.
* `Huc.HucMsg.delivered` — the payload of a message as the device presents it.
* `Huc.Holds` — the device's buffer holds a message.

## Main results

* `Huc.holds_receive` — a received message is what the buffer holds.
* `Huc.run_daemon_recvBytecode` — the undisturbed daemon runs `recvBytecode`.
* `Huc.step_host`, `Huc.step_irqRead`, `Huc.step_irqWake`, `Huc.step_irqAck`,
  `Huc.daemonCall_seekHeader` and its companions — what each step does.

## Design

Besides the memories of the parties the state keeps the history that properties speak about: the
messages stored so far, how many of them there were when the daemon last read a header, what
`recv_bytecode` has returned, and the files saved.
-/

namespace Huc

open Transition

/-! ## Messages in the buffer -/

/-- The message is announced by an interrupt. -/
def HucMsg.Injects (m : HucMsg) : Prop :=
  m.type = MsgType.programInjection.code ∨ m.type = MsgType.programInjectionAffinity.code

instance (m : HucMsg) : Decidable m.Injects := inferInstanceAs (Decidable (_ ∨ _))

/-- The payload that the device presents to the guest: for an affinity message the vCPU count
replaces the bytes 2 and 3, as far as the payload has them. -/
def HucMsg.delivered (env : HostEnv) (m : HucMsg) : List Byte :=
  let count : BitVec 16 := BitVec.ofNat 16 env.nVCPU
  if m.type = MsgType.programInjectionAffinity.code then
    (m.payload.set 2 (count.extractLsb' 0 8)).set 3 (count.extractLsb' 8 8)
  else m.payload

/-- The presented payload is as long as the payload. -/
@[simp] lemma length_delivered (env : HostEnv) (m : HucMsg) :
    (m.delivered env).length = m.payload.length := by
  unfold HucMsg.delivered
  split_ifs
  · simp
  · rfl

/-- The buffer holds the message `m` as the device presents it. -/
structure Holds (env : HostEnv) (dev : HucState) (m : HucMsg) : Prop where
  header : dev.header = m.header
  payload : dev.buf.read payloadOffset m.payload.length = m.delivered env

/-- Two bytes stored at distance 2 in a range. -/
lemma read_write_two (b : ByteMem) (a n : ℕ) (x y : Byte) :
    (b.write (a + 2) [x, y]).read a n = ((b.read a n).set 2 x).set 3 y := by
  apply List.ext_getElem
  · simp
  · intro i h₁ h₂
    rw [ByteMem.getElem_read, List.getElem_set, List.getElem_set, ByteMem.getElem_read]
    rcases Nat.lt_or_ge i 2 with hi | hi
    · rw [if_neg (by omega), if_neg (by omega), ByteMem.write_apply_of_lt _ _ (by omega)]
    · obtain ⟨j, rfl⟩ := Nat.exists_eq_add_of_le hi
      rcases j with _ | _ | j
      · rw [if_neg (by omega), if_pos rfl]
        exact ByteMem.write_apply_of_mem b (a + 2) 0 [x, y] (by simp)
      · rw [if_pos rfl, show a + (2 + (0 + 1)) = a + 2 + 1 by omega]
        exact ByteMem.write_apply_of_mem b (a + 2) 1 [x, y] (by simp)
      · rw [if_neg (by omega), if_neg (by omega)]
        exact ByteMem.write_apply_of_ge _ _ (by simp; omega)

/-- Holding a message depends on the buffer above the control words only. -/
lemma Holds.of_buf_above {env : HostEnv} {dev dev' : HucState} {m : HucMsg} (h : Holds env dev m)
    (hbuf : ∀ x, headerOffset ≤ x → dev'.buf x = dev.buf x) : Holds env dev' m := by
  constructor
  · rw [← h.header]
    unfold HucState.header
    rw [hbuf _ le_rfl, hbuf _ (by omega), hbuf _ (by omega), hbuf _ (by omega)]
  · rw [← h.payload]
    apply ByteMem.read_congr
    intro x hx
    apply hbuf
    simp only [headerOffset, payloadOffset] at hx ⊢
    omega

/-- Holding a message depends on the buffer only. -/
lemma Holds.of_buf_eq {env : HostEnv} {dev dev' : HucState} {m : HucMsg} (h : Holds env dev m)
    (hbuf : dev'.buf = dev.buf) : Holds env dev' m :=
  h.of_buf_above fun x _ => congrFun hbuf x

/-- A received message that is no affinity message is left in the buffer as it was stored. -/
lemma receive_buf_of_ne (env : HostEnv) (dev : HucState) {m : HucMsg}
    (h : m.type ≠ MsgType.programInjectionAffinity.code) :
    (receive env dev m).1.buf = (dev.store m).buf := by
  rw [receive, dispatch, type_store]
  rcases ht : MsgType.ofCode? m.type with _ | t
  · rfl
  · rw [MsgType.ofCode?_eq_some.mp ht] at h
    cases t with
    | programInjectionAffinity => exact absurd rfl h
    | _ => rfl

/-- **A received message is what the buffer holds.** -/
lemma holds_receive (env : HostEnv) (dev : HucState) (m : HucMsg) :
    Holds env (receive env dev m).1 m := by
  have hread : (dev.store m).buf.read payloadOffset m.payload.length = m.payload :=
    ByteMem.read_write_self _ _ _
  by_cases h : m.type = MsgType.programInjectionAffinity.code
  · have hbuf : (receive env dev m).1 = hucdevRaiseIrq
        { dev.store m with
          buf := (dev.store m).buf.write (payloadOffset + 2)
            [(BitVec.ofNat 16 env.nVCPU).extractLsb' 0 8,
              (BitVec.ofNat 16 env.nVCPU).extractLsb' 8 8] }
        MsgType.programInjectionAffinity.irq := by
      rw [receive, dispatch, type_store, h, MsgType.ofCode?_code]
    rw [hbuf]
    refine ⟨Eq.trans ?_ (header_store dev m), ?_⟩
    · exact @header_write_of_le (dev.store m) (payloadOffset + 2)
        [(BitVec.ofNat 16 env.nVCPU).extractLsb' 0 8, (BitVec.ofNat 16 env.nVCPU).extractLsb' 8 8]
        (by omega)
    · rw [HucMsg.delivered, if_pos h]
      exact (read_write_two _ _ _ _ _).trans (by rw [hread])
  · have hstored : Holds env (dev.store m) m :=
      ⟨header_store dev m, hread.trans (if_neg h).symm⟩
    exact hstored.of_buf_eq (receive_buf_of_ne env dev h)

/-- The interrupt cause that an injection message raises. -/
lemma receive_irqStatus (env : HostEnv) (dev : HucState) (m : HucMsg) :
    (receive env dev m).1.irqStatus = dev.irqStatus ||| (DeviceOp.message m).raisedBy := by
  have hstatus := (receive_irq env dev m).1
  rw [hstatus, DeviceOp.loweredBy, BitVec.not_zero, BitVec.and_allOnes]

/-! ## Words of the payload -/

/-- The number of payload bytes that the window of BAR1 shows. -/
def windowBytes : ℕ := 65536 - payloadOffset

/-- What has been read of the payload, whole words, is in the buffer, as far as the window goes. -/
structure Copied (dev : HucState) (payload : List Byte) : Prop where
  words : payload.length % 4 = 0
  bytes : ∀ i < payload.length, i < windowBytes → payload[i]? = some (dev.buf (payloadOffset + i))

/-- Nothing has been read yet. -/
lemma copied_nil (dev : HucState) : Copied dev [] :=
  ⟨rfl, fun i hi => absurd hi (Nat.not_lt_zero i)⟩

/-- **The next word of the payload** is read to its place.

**Proof sketch.** Payload and window start and end at a multiple of four, so the new word is in the
window whole or not at all. -/
lemma Copied.append_word {dev : HucState} {payload : List Byte} (h : Copied dev payload) :
    Copied dev (payload ++ leBytes ((hucdevBufmmioRead dev
      (BitVec.ofNat 64 (payloadOffset + payload.length)) 4).setWidth 32)) := by
  have hwords := h.words
  refine ⟨by rw [List.length_append, length_leBytes]; omega, ?_⟩
  intro i hi hwin
  rw [List.length_append, length_leBytes] at hi
  simp only [windowBytes, payloadOffset] at hwin
  rcases Nat.lt_or_ge i payload.length with hlt | hge
  · rw [List.getElem?_append_left hlt]
    exact h.bytes i hlt hwin
  · have hoff : (payloadOffset + payload.length) % 4 = 0 ∧ 4 ≤ payloadOffset + payload.length ∧
        payloadOffset + payload.length < 65536 := by
      simp only [payloadOffset]
      omega
    rw [bufmmioRead_word dev hoff.1 hoff.2.1 hoff.2.2, ByteMem.leBytes_word,
      List.getElem?_append_right hge, List.getElem?_eq_getElem (by simp; omega),
      ByteMem.getElem_read, Nat.add_assoc, Nat.add_sub_cancel' hge]

/-- A payload inside the window is read exactly. -/
lemma Copied.take_eq {dev : HucState} {payload : List Byte} (h : Copied dev payload) {n : ℕ}
    (hn : n ≤ payload.length) (hwin : n ≤ windowBytes) :
    payload.take n = dev.buf.read payloadOffset n := by
  apply List.ext_getElem
  · simp [hn]
  · intro i h₁ h₂
    rw [ByteMem.length_read] at h₂
    have hbyte := h.bytes i (by omega) (by omega)
    rw [List.getElem?_eq_getElem (by omega)] at hbyte
    rw [List.getElem_take, ByteMem.getElem_read]
    exact Option.some.inj hbyte

/-- What has been read depends on the buffer only. -/
lemma Copied.of_buf_eq {dev dev' : HucState} {payload : List Byte} (h : Copied dev payload)
    (hbuf : dev'.buf = dev.buf) : Copied dev' payload :=
  ⟨h.words, hbuf.symm ▸ h.bytes⟩

/-! ## The system -/

/-- What `recv_bytecode` has returned, with the number of messages stored when the header was read
and at the return. -/
structure Delivery where
  header : HucMsgHeader
  payload : List Byte
  atHeader : ℕ
  atReturn : ℕ
  deriving DecidableEq

/-- The state of the channel. -/
structure Channel where
  dev : HucState
  drv : Driver
  irq : IrqPc
  recv : Recv
  stored : List HucMsg
  seen : ℕ
  deliveries : List Delivery
  saved : List (List Byte)

/-- The driver is loaded and the daemon started, on a device in any state. -/
def Channel.start (dev : HucState) : Channel :=
  ⟨dev, ⟨0, 0⟩, .idle, ⟨.seekHeader, 0⟩, [], 0, [], []⟩

/-- The steps of the system. -/
inductive ChannelAct
  | host (m : HucMsg)
  | irqRead
  | irqWake
  | irqAck
  | daemon
  deriving DecidableEq

/-- The message that an act stores. -/
def ChannelAct.message? : ChannelAct → Option HucMsg
  | .host m => some m
  | _ => none

/-- The main loop of the daemon after `recv_bytecode` has returned: the payload of an injection
message is saved. -/
def Channel.deliver (c : Channel) (returned : Option (HucMsgHeader × List Byte)) : Channel :=
  match returned with
  | none => c
  | some (h, p) =>
    { c with
      deliveries := c.deliveries ++ [⟨h, p, c.seen, c.stored.length⟩]
      saved := if h.type = MsgType.programInjection.code then
        c.saved ++ [p.take h.payloadLen.toNat] else c.saved }

/-- The file saved for an injection message. -/
lemma saved_deliver (c : Channel) {h : HucMsgHeader} (p : List Byte)
    (htype : h.type = MsgType.programInjection.code) :
    (c.deliver (some (h, p))).saved = c.saved ++ [p.take h.payloadLen.toNat] :=
  if_pos htype

/-- The next system call of the daemon. -/
def daemonCall (c : Channel) : Option Channel :=
  (recvStep c.dev c.drv c.recv).map fun r =>
    Channel.deliver
      { c with
        drv := r.drv
        recv := r.recv
        seen := if c.recv.pc = .readHeader then c.stored.length else c.seen }
      r.returned

/-- One step of the channel. -/
def channelStep (env : HostEnv) (c : Channel) : ChannelAct → Option Channel
  | .host m =>
    if m.Injects then some { c with dev := (receive env c.dev m).1, stored := c.stored ++ [m] }
    else none
  | .irqRead =>
    if c.irq = .idle ∧ c.dev.irqLine then some { c with irq := .wake (irqStatusRead c.dev) }
    else none
  | .irqWake =>
    match c.irq with
    | .wake v => some { c with drv := irqWake c.drv v, irq := .ack v }
    | _ => none
  | .irqAck =>
    match c.irq with
    | .ack v => some { c with dev := irqAck env c.dev v, irq := .idle }
    | _ => none
  | .daemon => daemonCall c

/-! ## What each step is -/

section Steps

variable {env : HostEnv} {c c' : Channel}

/-- A message is stored and announced. -/
lemma step_host {m : HucMsg} (h : channelStep env c (.host m) = some c') :
    m.Injects ∧ c' = { c with dev := (receive env c.dev m).1, stored := c.stored ++ [m] } := by
  simp only [channelStep] at h
  split_ifs at h with hm
  exact ⟨hm, (Option.some.inj h).symm⟩

/-- The handler starts and reads the status. -/
lemma step_irqRead (h : channelStep env c .irqRead = some c') :
    c.irq = .idle ∧ c.dev.irqLine = true ∧ c' = { c with irq := .wake c.dev.irqStatus } := by
  simp only [channelStep] at h
  split_ifs at h with hidle
  rw [irqStatusRead_eq] at h
  exact ⟨hidle.1, hidle.2, (Option.some.inj h).symm⟩

/-- The handler sets the flag and wakes the reader. -/
lemma step_irqWake (h : channelStep env c .irqWake = some c') :
    ∃ v, c.irq = .wake v ∧ c' = { c with drv := irqWake c.drv v, irq := .ack v } := by
  simp only [channelStep] at h
  cases hi : c.irq with
  | wake v =>
    simp only [hi] at h
    exact ⟨v, rfl, (Option.some.inj h).symm⟩
  | idle => simp [hi] at h
  | ack v => simp [hi] at h

/-- The handler acknowledges what it has read and ends. -/
lemma step_irqAck (h : channelStep env c .irqAck = some c') :
    ∃ v, c.irq = .ack v ∧ c' = { c with dev := hucdevLowerIrq c.dev v, irq := .idle } := by
  simp only [channelStep] at h
  cases hi : c.irq with
  | ack v =>
    simp only [hi, irqAck_eq] at h
    exact ⟨v, rfl, (Option.some.inj h).symm⟩
  | idle => simp [hi] at h
  | wake v => simp [hi] at h

/-- The daemon seeks to the header. -/
lemma daemonCall_seekHeader (hpc : c.recv.pc = .seekHeader) :
    daemonCall c = some { c with recv := ⟨.readHeader, 16⟩ } := by
  simp [daemonCall, recvStep, hpc, Channel.deliver]

/-- The daemon reads the header, once there is something to read. -/
lemma daemonCall_readHeader (hr : c.recv = ⟨.readHeader, 16⟩) :
    daemonCall c = if c.drv.flag < 1 then none
      else some
        { c with
          drv := c.drv.account ((hucdevBufmmioRead c.dev (BitVec.ofNat 64 16) 4).setWidth 32) 4
          recv := ⟨.seekPayload c.dev.header, 20⟩
          seen := c.stored.length } := by
  rw [daemonCall, hr, recvStep_readHeader]
  by_cases hf : c.drv.flag < 1
  · simp [hf]
  · simp [hf, Channel.deliver]

/-- The daemon seeks to the payload, or returns when there is none. -/
lemma daemonCall_seekPayload {h : HucMsgHeader} (hpc : c.recv.pc = .seekPayload h) :
    daemonCall c = some (if 0 < h.payloadLen.toNat then
        { c with recv := ⟨.readPayload h [] h.payloadLen.toNat, 20⟩ }
      else Channel.deliver { c with recv := ⟨.seekHeader, 20⟩ } (some (h, []))) := by
  obtain ⟨off, hr⟩ : ∃ off, c.recv = ⟨.seekPayload h, off⟩ := ⟨c.recv.off, by rw [← hpc]⟩
  rw [daemonCall, hr, recvStep_seekPayload]
  by_cases hn : 0 < h.payloadLen.toNat
  · simp [hn, Channel.deliver]
  · simp [hn, Channel.deliver]

/-- The daemon reads a word of the payload, once there is something to read, and returns when it
was the last one. -/
lemma daemonCall_readPayload {h : HucMsgHeader} {payload : List Byte} {left : ℤ} {off : ℕ}
    (hr : c.recv = ⟨.readPayload h payload left, off⟩) (h4 : off % 4 = 0) {kbuf : Word}
    (hk : (hucdevBufmmioRead c.dev (BitVec.ofNat 64 off) 4).setWidth 32 = kbuf) :
    daemonCall c = if c.drv.flag < 1 then none
      else some (if 0 < left - 4 then
          { c with
            drv := c.drv.account kbuf 4
            recv := ⟨.readPayload h (payload ++ leBytes kbuf) (left - 4), off + 4⟩ }
        else
          Channel.deliver
            { c with drv := c.drv.account kbuf 4, recv := ⟨.seekHeader, off + 4⟩ }
            (some (h, (payload ++ leBytes kbuf).take h.payloadLen.toNat))) := by
  rw [daemonCall, hr, recvStep_readPayload h4 hk]
  by_cases hf : c.drv.flag < 1
  · simp [hf]
  · by_cases hl : 4 < left
    · simp [hf, hl, Channel.deliver]
    · simp [hf, hl, Channel.deliver]

/-- **What a system call of the daemon leaves alone**: the device, the handler and the messages; and
only the read of a header changes what has been seen. -/
lemma daemonCall_frame (h : daemonCall c = some c') :
    c'.dev = c.dev ∧ c'.irq = c.irq ∧ c'.stored = c.stored ∧
      (c.recv.pc ≠ .readHeader → c'.seen = c.seen) := by
  obtain ⟨r, -, rfl⟩ := Option.map_eq_some_iff.mp h
  rcases hret : r.returned with _ | ⟨hd, p⟩
  · exact ⟨rfl, rfl, rfl, fun hpc => if_neg hpc⟩
  · exact ⟨rfl, rfl, rfl, fun hpc => if_neg hpc⟩

/-- **The daemon's system calls, undisturbed, are `recvBytecode`**: they lead to its outcome, which
is delivered.

**Proof sketch.** Induction on the fuel. A system call of the daemon is one unfolding of
`recvBytecode`; while it returns nothing, the induction hypothesis is for the channel after it, and
the call that returns delivers the outcome. -/
theorem run_daemon_recvBytecode {fuel : ℕ} {out : RecvOutcome}
    (h : recvBytecode c.dev fuel c.drv c.recv = some out) :
    ∃ n c' d, run (channelStep env) c (List.replicate n .daemon) = some c' ∧ c'.dev = c.dev ∧
      c'.drv = out.drv ∧ c'.recv = ⟨.seekHeader, out.off⟩ ∧
      c'.deliveries = c.deliveries ++ [d] ∧ d.header = out.header ∧ d.payload = out.payload := by
  induction fuel generalizing c out with
  | zero => contradiction
  | succ fuel ih =>
    obtain ⟨res, hres, h⟩ := Option.bind_eq_some_iff.mp h
    have hcall : daemonCall c = some (Channel.deliver
        { c with
          drv := res.drv
          recv := res.recv
          seen := if c.recv.pc = .readHeader then c.stored.length else c.seen }
        res.returned) := by
      rw [daemonCall, hres, Option.map_some]
    cases hret : res.returned with
    | none =>
      simp only [hret] at h hcall
      obtain ⟨out', hout, rfl⟩ := Option.map_eq_some_iff.mp h
      obtain ⟨n, c', d, hrun, hc'⟩ := @ih { c with
        drv := res.drv
        recv := res.recv
        seen := if c.recv.pc = .readHeader then c.stored.length else c.seen } out' hout
      exact ⟨n + 1, c', d, run_cons.mpr ⟨_, hcall, hrun⟩, hc'⟩
    | some m =>
      simp only [hret, Option.some.injEq] at h hcall
      subst h
      refine ⟨1, _, _, (run_singleton c _).trans hcall, rfl, rfl, ?_, rfl, rfl, rfl⟩
      rw [← recvStep_returned hres hret]
      rfl

/-- The line stays in step with the status. -/
lemma channelStep_lineInv {a : ChannelAct} (h : LineInv c.dev)
    (hstep : channelStep env c a = some c') : LineInv c'.dev := by
  cases a with
  | host m =>
    obtain ⟨-, rfl⟩ := step_host hstep
    exact (receive_irq env c.dev m).2 h
  | irqRead =>
    obtain ⟨-, -, rfl⟩ := step_irqRead hstep
    exact h
  | irqWake =>
    obtain ⟨v, -, rfl⟩ := step_irqWake hstep
    exact h
  | irqAck =>
    obtain ⟨v, -, rfl⟩ := step_irqAck hstep
    exact h.lower v
  | daemon =>
    rw [(daemonCall_frame hstep).1]
    exact h

end Steps

end Huc
