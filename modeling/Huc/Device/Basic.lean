import Huc.Message

set_option relaxedAutoImplicit false
set_option autoImplicit false

/-!
# The virtual device `hucdev`

The device of `qemu-patch/hucdev.c`: a PCI device with a register window (BAR0), a buffer window
(BAR1) and a TCP server. The host sends messages to the server; the device stores them in its
buffer and, for the injection messages, raises an interrupt. The guest reads the buffer through
BAR1 and acknowledges interrupts there.

## Main definitions

* `Huc.HucState` — the device's state, with the level of its interrupt line.
* `Huc.hucdevIoRead`, `Huc.hucdevIoWrite` — the BAR0 callbacks.
* `Huc.hucdevBufmmioRead`, `Huc.hucdevBufmmioWrite` — the BAR1 callbacks.
* `Huc.Socket`, `Huc.handleAcceptfd` — the message handler over a byte stream.
* `Huc.receive` — the effect of one fully received message.

## Main results

* `Huc.handleAcceptfd_wire` — on an unsegmented message the handler is `Huc.receive`.

## Design

Calls out of the device (sending on the socket, binding a vCPU thread, watching a descriptor)
are recorded as a list of `Huc.Effect`s. The buffer of 65536 words is a byte memory, because the
socket calls fill it bytewise and the guest reads it wordwise. A failed `assert` is `none`.

`recv` returning `-1` takes the same branches as `recv` returning `0`: the header branch tests
`len <= 0` and the payload branch ignores the result. An empty `Huc.Socket` stands for both.
-/

namespace Huc

/-! ## State -/

/-- The functions registered with `qemu_set_fd_handler`. -/
inductive FdHandler
  | listenfd
  | acceptfd
  deriving DecidableEq, Repr

/-- What the device asks of its environment. -/
inductive Effect
  | send (fd : ℤ) (bytes : List Byte)
  | schedSetaffinity (vCPU : ℕ) (set : BitVec 64)
  | setFdHandler (fd : ℤ) (handler : Option FdHandler)
  deriving DecidableEq

/-- What the device finds around it: `qemu_get_cpu i` is non-`NULL` exactly for `i < nVCPU`, and
`CPU_ALLOC` returns memory with the content `cpuAlloc`. -/
structure HostEnv where
  nVCPU : ℕ
  cpuAlloc : BitVec 64

/-- `HUCDEV_REG_END >> 2`, the number of registers. -/
def regCount : ℕ := 92 >>> 2

/-- `HucState`. The field `irqLine` is the level last given to `pci_set_irq`. -/
structure HucState where
  ioregs : Fin regCount → Word
  buf : ByteMem
  irqStatus : Word
  irqLine : Bool
  hyperthreadingRemapping : Bool
  listenFd : ℤ
  connectFd : ℤ

/-! ## Interrupts -/

/-- `hucdev_raise_irq`. -/
def hucdevRaiseIrq (s : HucState) (v : Word) : HucState :=
  let status := s.irqStatus ||| v
  { s with irqStatus := status, irqLine := if status ≠ 0#32 then true else s.irqLine }

/-- `hucdev_lower_irq`. -/
def hucdevLowerIrq (s : HucState) (v : Word) : HucState :=
  let status := s.irqStatus &&& ~~~v
  { s with irqStatus := status, irqLine := if status = 0#32 then false else s.irqLine }

/-! ## BAR0: registers -/

/-- The register offset the decoder works with: `addr & HUCDEV_REG_MASK`. -/
def regOffset (addr : BitVec 64) : ℕ := (addr &&& 0xFF#64).toNat

/-- An offset inside the window is not changed by the mask. -/
lemma regOffset_of_lt {addr : BitVec 64} (h : addr.toNat < 256) : regOffset addr = addr.toNat := by
  have hmask : (0xFF#64).toNat = 2 ^ 8 - 1 := rfl
  rw [regOffset, BitVec.toNat_and, hmask, Nat.and_two_pow_sub_one_eq_mod]
  exact Nat.mod_eq_of_lt h

/-- Which offset is decoded. -/
lemma regOffset_eq_iff {addr : BitVec 64} (h : addr.toNat < 256) {n : ℕ} (hn : n < 2 ^ 64) :
    regOffset addr = n ↔ addr = BitVec.ofNat 64 n := by
  rw [regOffset_of_lt h, ← BitVec.toNat_inj, BitVec.toNat_ofNat, Nat.mod_eq_of_lt hn]

/-- The offsets 0 to 15 are those of the four registers that have names. -/
lemma regOffset_named {addr : BitVec 64} (h : addr.toNat ≤ 15) :
    regOffset addr < 92 ∧ regOffset addr >>> 2 < 4 := by
  rw [regOffset_of_lt (show addr.toNat < 256 by omega), Nat.shiftRight_eq_div_pow]
  omega

/-- An offset below `HUCDEV_REG_END` is a register. -/
lemma shiftRight_lt_regCount {a : ℕ} (h : a < 92) : a >>> 2 < regCount := by
  rw [Nat.shiftRight_eq_div_pow]
  simp only [regCount, Nat.shiftRight_eq_div_pow]
  omega

/-- `hucdev_io_read`. -/
def hucdevIoRead (s : HucState) (addr : BitVec 64) : BitVec 64 :=
  let addr := regOffset addr
  if h : addr < 92 then
    if addr = 0 then s.irqStatus.setWidth 64
    else (s.ioregs ⟨addr >>> 2, shiftRight_lt_regCount h⟩).setWidth 64
  else 0

/-- `hucdev_io_write`; `none` when `assert(index < ARRAY_SIZE(regnames))` fails. -/
def hucdevIoWrite (s : HucState) (addr val : BitVec 64) : Option HucState :=
  let addr := regOffset addr
  if h : addr < 92 then
    if addr >>> 2 < 4 then
      if addr = 8 then some (hucdevRaiseIrq s (val.setWidth 32))
      else if addr = 12 then some (hucdevLowerIrq s (val.setWidth 32))
      else
        some { s with
          ioregs := Function.update s.ioregs ⟨addr >>> 2, shiftRight_lt_regCount h⟩
            (val.setWidth 32) }
    else none
  else some s

/-! ## BAR1: the buffer window -/

/-- The byte offset the decoder works with: `addr & HUCDEV_BUF_MASK`. -/
def bufOffset (addr : BitVec 64) : ℕ := (addr &&& 0xFFFF#64).toNat

/-- The decoder sees an offset modulo 65536. -/
lemma bufOffset_eq (addr : BitVec 64) : bufOffset addr = addr.toNat % 65536 := by
  have hmask : (0xFFFF#64).toNat = 2 ^ 16 - 1 := rfl
  rw [bufOffset, BitVec.toNat_and, hmask, Nat.and_two_pow_sub_one_eq_mod]

/-- The word the decoder selects. -/
def bufIndex (addr : BitVec 64) : ℕ := bufOffset addr >>> 2

/-- `HUCDEV_BUF_SIZE * sizeof(uint32_t)`. -/
def bufBytes : ℕ := 65536 * 4

/-- The buffer window never leaves the allocated buffer: the mask is narrower than the bound. -/
lemma bufOffset_add_le (addr : BitVec 64) : bufOffset addr + 4 ≤ bufBytes := by
  rw [bufOffset_eq]
  simp only [bufBytes]
  omega

/-- The byte where the header is stored: `buf + 4` in words. -/
def headerOffset : ℕ := 16

/-- The byte where the payload is stored: `buf + 4 + sizeof(struct huc_msg_header) / 4`. -/
def payloadOffset : ℕ := 20

/-- `hucdev_bufmmio_read`. -/
def hucdevBufmmioRead (s : HucState) (addr : BitVec 64) (size : ℕ) : BitVec 64 :=
  if bufOffset addr + size > bufBytes then 0
  else if bufIndex addr = 0 then s.irqStatus.setWidth 64
  else (s.buf.word (4 * bufIndex addr)).setWidth 64

/-- The header in the buffer: `(struct huc_msg_header *)hucdev->buf + 4`. -/
def HucState.header (s : HucState) : HucMsgHeader :=
  .ofBytes (s.buf headerOffset) (s.buf (headerOffset + 1)) (s.buf (headerOffset + 2))
    (s.buf (headerOffset + 3))

/-- The payload in the buffer, as long as the header says. -/
def HucState.payload (s : HucState) : List Byte :=
  s.buf.read payloadOffset s.header.payloadLen.toNat

/-- The loop over the vCPUs that binds vCPU `i` to `set` when `bound i`. -/
def bindVCPUs (n : ℕ) (bound : ℕ → Bool) (set : BitVec 64) : List Effect :=
  ((List.range n).filter bound).map fun i => .schedSetaffinity i set

/-- `hucdev_bufmmio_write`. -/
def hucdevBufmmioWrite (env : HostEnv) (s : HucState) (addr val : BitVec 64) (size : ℕ) :
    HucState × List Effect :=
  if bufOffset addr + size > bufBytes then (s, [])
  else
    match bufIndex addr with
    | 0 => (hucdevRaiseIrq s (val.setWidth 32), [])
    | 1 => (hucdevLowerIrq s (val.setWidth 32), [])
    | 2 =>
      -- the doorbell sends the stored message back and clears its own word
      ({ s with buf := s.buf.write 8 (leBytes 0#32) },
        [.send s.connectFd (s.buf.read headerOffset 4), .send s.connectFd s.payload])
    | 3 => (s, bindVCPUs env.nVCPU (fun i => val.getLsbD i) val)
    | index => ({ s with buf := s.buf.write (4 * index) (leBytes (val.setWidth 32)) }, [])

section Words

variable {env : HostEnv} {s : HucState} {addr val : BitVec 64}

/-- A write to word 0 raises. -/
lemma bufmmioWrite_zero (h : bufIndex addr = 0) :
    hucdevBufmmioWrite env s addr val 4 = (hucdevRaiseIrq s (val.setWidth 32), []) := by
  rw [hucdevBufmmioWrite, if_neg (not_lt.mpr (bufOffset_add_le addr)), h]
  rfl

/-- A write to word 1 lowers. -/
lemma bufmmioWrite_one (h : bufIndex addr = 1) :
    hucdevBufmmioWrite env s addr val 4 = (hucdevLowerIrq s (val.setWidth 32), []) := by
  rw [hucdevBufmmioWrite, if_neg (not_lt.mpr (bufOffset_add_le addr)), h]
  rfl

/-- A write to word 2 is the doorbell. -/
lemma bufmmioWrite_two (h : bufIndex addr = 2) :
    hucdevBufmmioWrite env s addr val 4 =
      ({ s with buf := s.buf.write 8 (leBytes 0#32) },
        [.send s.connectFd (s.buf.read headerOffset 4), .send s.connectFd s.payload]) := by
  rw [hucdevBufmmioWrite, if_neg (not_lt.mpr (bufOffset_add_le addr)), h]
  rfl

/-- A write to word 3 binds vCPUs and stores nothing. -/
lemma bufmmioWrite_three (h : bufIndex addr = 3) :
    hucdevBufmmioWrite env s addr val 4 =
      (s, bindVCPUs env.nVCPU (fun i => val.getLsbD i) val) := by
  rw [hucdevBufmmioWrite, if_neg (not_lt.mpr (bufOffset_add_le addr)), h]
  rfl

/-- A write to a word of the buffer stores the value there. -/
lemma bufmmioWrite_of_four_le (h : 4 ≤ bufIndex addr) :
    hucdevBufmmioWrite env s addr val 4 =
      ({ s with buf := s.buf.write (4 * bufIndex addr) (leBytes (val.setWidth 32)) }, []) := by
  obtain ⟨k, hk⟩ := Nat.exists_eq_add_of_le' h
  rw [hucdevBufmmioWrite, if_neg (not_lt.mpr (bufOffset_add_le addr)), hk]
  rfl

end Words

/-! ## The message server -/

/-- `handle_listenfd`, given the descriptor (or `-1`) that `accept` returns. -/
def handleListenfd (s : HucState) (accepted : ℤ) : HucState × List Effect :=
  ({ s with connectFd := accepted },
    [.setFdHandler accepted (some .acceptfd), .setFdHandler s.listenFd none])

/-- The switch of `handle_acceptfd` on the type of the stored header. -/
def dispatch (env : HostEnv) (s : HucState) : HucState × List Effect :=
  match MsgType.ofCode? s.header.type with
  | some .programInjection => (hucdevRaiseIrq s MsgType.programInjection.irq, [])
  | some .programInjectionAffinity =>
    -- `myaffinityinfo->n_vCPU` is the second 16-bit field of the payload
    let count : BitVec 16 := BitVec.ofNat 16 env.nVCPU
    let s := { s with
      buf := s.buf.write (payloadOffset + 2) [count.extractLsb' 0 8, count.extractLsb' 8 8] }
    (hucdevRaiseIrq s MsgType.programInjectionAffinity.irq, [])
  | some .reset => (s, bindVCPUs env.nVCPU (fun _ => true) 0xFFFFFFFF#64)
  | some .pinOnSame => (s, bindVCPUs env.nVCPU (fun _ => true) (env.cpuAlloc ||| 1#64))
  | some .htRemapping =>
    ({ s with hyperthreadingRemapping := !s.hyperthreadingRemapping }, [])
  | _ => (s, [])

/-- The receiving end of a connection: the bytes not yet received, and how TCP cuts them. The
`i`-th call of `recv` finds at most `seg i + 1` bytes waiting; once the stream is empty the peer
has closed. -/
structure Socket where
  stream : List Byte
  seg : ℕ → ℕ

/-- `recv(fd, buf, n, 0)`: a prefix of the stream, non-empty unless the stream or `n` is. -/
def Socket.recv (k : Socket) (n : ℕ) : List Byte × Socket :=
  let len := min n (k.seg 0 + 1)
  (k.stream.take len, ⟨k.stream.drop len, fun i => k.seg (i + 1)⟩)

/-- The outcome of one call of `handle_acceptfd`; `dispatched` is the type and the payload the
switch was entered with, if it was. -/
structure Accepted where
  state : HucState
  sock : Socket
  effects : List Effect
  dispatched : Option (Byte × List Byte)

/-- `handle_acceptfd`. -/
def handleAcceptfd (env : HostEnv) (s : HucState) (k : Socket) : Accepted :=
  let hdr := k.recv 4
  if hdr.1 = [] then
    { state := { s with connectFd := -1 }
      sock := hdr.2
      effects := [.setFdHandler s.connectFd none, .setFdHandler s.listenFd (some .listenfd)]
      dispatched := none }
  else
    let s := { s with buf := s.buf.write headerOffset hdr.1 }
    let pay := hdr.2.recv s.header.payloadLen.toNat
    let s := { s with buf := s.buf.write payloadOffset pay.1 }
    { state := (dispatch env s).1
      sock := pay.2
      effects := (dispatch env s).2
      dispatched := some (s.header.type, s.payload) }

/-! ## Fully received messages -/

/-- The device after a message has been stored in the buffer and before it is dispatched. -/
def HucState.store (s : HucState) (m : HucMsg) : HucState :=
  { s with buf := (s.buf.write headerOffset m.header.bytes).write payloadOffset m.payload }

/-- The device after one fully received message. -/
def receive (env : HostEnv) (s : HucState) (m : HucMsg) : HucState × List Effect :=
  dispatch env (s.store m)

/-- Bytes stored at the header are the header. -/
lemma header_write_bytes (s : HucState) (h : HucMsgHeader) :
    HucState.header { s with buf := s.buf.write headerOffset h.bytes } = h := by
  simp only [HucState.header, headerOffset]
  have hb : ∀ i (hi : i < 4), s.buf.write 16 h.bytes (16 + i) = h.bytes[i] := fun i hi =>
    ByteMem.write_apply_of_mem _ _ _ _ hi
  rw [hb 1 (by omega), hb 2 (by omega), hb 3 (by omega)]
  rw [show s.buf.write 16 h.bytes 16 = h.bytes[0] from hb 0 (by omega)]
  exact HucMsgHeader.ofBytes_bytes h

/-- A store above the header leaves the header. -/
lemma header_write_of_le (s : HucState) {a : ℕ} (bs : List Byte) (h : payloadOffset ≤ a) :
    HucState.header { s with buf := s.buf.write a bs } = s.header := by
  simp only [payloadOffset] at h
  simp only [HucState.header, headerOffset]
  rw [ByteMem.write_apply_of_lt _ _ (by omega), ByteMem.write_apply_of_lt _ _ (by omega),
    ByteMem.write_apply_of_lt _ _ (by omega), ByteMem.write_apply_of_lt _ _ (by omega)]

/-- The header of a stored message. -/
@[simp] lemma header_store (s : HucState) (m : HucMsg) : (s.store m).header = m.header := by
  have h := header_write_of_le { s with buf := s.buf.write headerOffset m.header.bytes } m.payload
    le_rfl
  rw [header_write_bytes] at h
  exact h

/-- The type of a stored message. -/
lemma type_store (s : HucState) (m : HucMsg) : (s.store m).header.type = m.type :=
  congrArg HucMsgHeader.type (header_store s m)

/-- The payload of a stored message. -/
@[simp] lemma payload_store (s : HucState) (m : HucMsg) : (s.store m).payload = m.payload := by
  rw [HucState.payload, header_store, HucMsg.toNat_payloadLen]
  exact ByteMem.read_write_self _ _ _

/-- `PIN_ON_SAME` binds all vCPUs to CPU 0 and to what the memory of the set holds. -/
lemma receive_pinOnSame {env : HostEnv} (s : HucState) {m : HucMsg}
    (h : m.type = MsgType.pinOnSame.code) :
    (receive env s m).2 = bindVCPUs env.nVCPU (fun _ => true) (env.cpuAlloc ||| 1#64) := by
  rw [receive, dispatch, type_store, h, MsgType.ofCode?_code]

/-- `RESET` binds all vCPUs to a constant. -/
lemma receive_reset {env : HostEnv} (s : HucState) {m : HucMsg} (h : m.type = MsgType.reset.code) :
    (receive env s m).2 = bindVCPUs env.nVCPU (fun _ => true) 0xFFFFFFFF#64 := by
  rw [receive, dispatch, type_store, h, MsgType.ofCode?_code]

/-- A `recv` of `n` bytes that finds at least `n` waiting takes exactly those. -/
lemma Socket.recv_append {xs rest : List Byte} {seg : ℕ → ℕ} (h : xs.length ≤ seg 0 + 1) :
    Socket.recv ⟨xs ++ rest, seg⟩ xs.length = (xs, ⟨rest, fun i => seg (i + 1)⟩) := by
  simp [Socket.recv, Nat.min_eq_left h]

/-- **One unsegmented message**: when the first `recv` finds the whole header waiting and the
second the whole payload, the handler has the effect of `receive` and dispatches on the message.

**Proof sketch.** The first `recv` returns the header bytes and the second, asked for the
header's length, the payload; the two stores are those of `HucState.store`. -/
lemma handleAcceptfd_wire (env : HostEnv) (s : HucState) (m : HucMsg) (rest : List Byte)
    (seg : ℕ → ℕ) (h₀ : 4 ≤ seg 0 + 1) (h₁ : m.payload.length ≤ seg 1 + 1) :
    handleAcceptfd env s ⟨m.wire ++ rest, seg⟩ =
      { state := (receive env s m).1
        sock := ⟨rest, fun i => seg (i + 2)⟩
        effects := (receive env s m).2
        dispatched := some (m.type, m.payload) } := by
  have hdr : Socket.recv ⟨m.wire ++ rest, seg⟩ 4 =
      (m.header.bytes, ⟨m.payload ++ rest, fun i => seg (i + 1)⟩) := by
    rw [HucMsg.wire, List.append_assoc]
    exact @Socket.recv_append m.header.bytes _ _ h₀
  have hlen : (HucState.header
      { s with buf := s.buf.write headerOffset m.header.bytes }).payloadLen.toNat =
      m.payload.length := by
    rw [header_write_bytes, HucMsg.toNat_payloadLen]
  have hpay : Socket.recv ⟨m.payload ++ rest, fun i => seg (i + 1)⟩ m.payload.length =
      (m.payload, ⟨rest, fun i => seg (i + 2)⟩) := Socket.recv_append h₁
  have hne : m.header.bytes ≠ [] := by simp [HucMsgHeader.bytes]
  have hstore : HucState.store s m =
      { s with buf := (s.buf.write headerOffset m.header.bytes).write payloadOffset m.payload } :=
    rfl
  simp only [handleAcceptfd, hdr, if_neg hne, hlen, hpay, ← hstore, header_store, payload_store]
  rfl

end Huc
