import Huc.Channel.Basic
import Mathlib.Data.List.Forall2

set_option relaxedAutoImplicit false
set_option autoImplicit false

/-!
# Transfer of programs

When the host sends each program only while the daemon waits for a header and nothing is announced,
one message at a time goes through device, driver and daemon, and the daemon saves one file for each
program. The file is the program exactly when the program fits the window of BAR1: the window shows
65536 bytes of the buffer, the payload starts at byte 20, and the first word read past the window is
the interrupt status.

## Main definitions

* `Huc.Waiting`, `Huc.SendWhenWaiting` — when the host may send.
* `Huc.Transfers` — a run that sends given programs in this way.
* `Huc.Shown` — how a saved file relates to the program sent.
* `Huc.TransferInv` — the invariant.

## Main results

* `Huc.channelStep_transferInv` — every step keeps the invariant.
* `Huc.exists_transfers` — every sequence of programs can be sent to the end.
* `Huc.saved_eq_iff` — which files are exact.
-/

namespace Huc

open Transition

/-! ## Sending programs -/

/-- The daemon is blocked waiting for a header and nothing is announced. -/
def Waiting (c : Channel) : Prop :=
  c.recv.pc = .readHeader ∧ c.dev.irqStatus = 0#32 ∧ c.drv.flag = 0

/-- A message is sent only to a waiting daemon. -/
def SendWhenWaiting (c : Channel) : ChannelAct → Prop
  | .host _ => Waiting c
  | _ => True

/-- The act, if it is a message, injects a program that is not empty. -/
def ChannelAct.SendsProgram : ChannelAct → Prop
  | .host m => m.type = MsgType.programInjection.code ∧ 1 ≤ m.payload.length
  | _ => True

/-- The acts lead from a started daemon to `c`, each message is sent to a waiting daemon, and the
messages are those that `prepare_huc_message` makes of the programs. -/
structure Transfers (env : HostEnv) (dev : HucState) (ps : List (List Byte))
    (acts : List ChannelAct) (c : Channel) : Prop where
  run : run (channelStep env) (Channel.start dev) acts = some c
  waits : Along (channelStep env) SendWhenWaiting (Channel.start dev) acts
  sends : List.Forall₂ (fun p m => prepareHucMessage (.readable p) = m.raw) ps
    (acts.filterMap ChannelAct.message?)

/-- The message made of a program carries it. -/
lemma eq_of_prepareHucMessage {p : List Byte} {m : HucMsg} (hp : p.length < 2 ^ 16)
    (h : prepareHucMessage (.readable p) = m.raw) :
    m.type = MsgType.programInjection.code ∧ m.payload = p := by
  rw [prepareHucMessage_readable p hp] at h
  have hheader : (injectMsg p hp).header = m.header := congrArg HucMsgT.header h
  have hpayload : some (injectMsg p hp).payload = some m.payload := congrArg HucMsgT.payload h
  exact ⟨(congrArg HucMsgHeader.type hheader).symm, (Option.some.inj hpayload).symm⟩

/-- A run adds its messages to those stored.

**Proof sketch.** Induction on the run; only the host's step adds a message. -/
lemma stored_of_run {env : HostEnv} {acts : List ChannelAct} {c c' : Channel}
    (h : run (channelStep env) c acts = some c') :
    c'.stored = c.stored ++ acts.filterMap ChannelAct.message? := by
  induction acts generalizing c with
  | nil =>
    obtain rfl : c = c' := by simpa using h
    simp
  | cons a acts ih =>
    obtain ⟨d, hstep, hrest⟩ := run_cons.mp h
    rw [ih hrest]
    cases a with
    | host m =>
      obtain ⟨-, rfl⟩ := step_host hstep
      simp [ChannelAct.message?]
    | irqRead =>
      obtain ⟨-, -, rfl⟩ := step_irqRead hstep
      rfl
    | irqWake =>
      obtain ⟨v, -, rfl⟩ := step_irqWake hstep
      rfl
    | irqAck =>
      obtain ⟨v, -, rfl⟩ := step_irqAck hstep
      rfl
    | daemon =>
      rw [(daemonCall_frame hstep).2.2.1]
      rfl

/-! ## The invariant -/

/-- How a file saved shows a program: the same length, the same bytes as far as the window goes, and
after it the low byte of an interrupt status. -/
structure Shown (p f : List Byte) : Prop where
  length_eq : f.length = p.length
  window : ∀ i < windowBytes, f[i]? = p[i]?
  status : ∀ b, f[windowBytes]? = some b → b = 0#8 ∨ b = 1#8

/-- The handler has announced the message stored last: it is done, or has only to acknowledge. -/
def Channel.Handled (c : Channel) : Prop :=
  (c.irq = .idle ∧ c.dev.irqStatus = 0#32) ∨ (c.irq = .ack 1#32 ∧ c.dev.irqStatus = 1#32)

/-- The message stored last is still to be announced. -/
def Channel.Raised (c : Channel) : Prop :=
  c.dev.irqStatus = 1#32 ∧ (c.irq = .idle ∨ c.irq = .wake 1#32)

/-- The daemon is on its way to a header. -/
def Channel.AtHeader (c : Channel) : Prop :=
  c.recv.pc = .seekHeader ∨ c.recv = ⟨.readHeader, 16⟩

/-- How far the daemon is with the message stored last, of which the handler has told it. -/
inductive Receiving (c : Channel) : Prop
  | saved : c.saved.length = c.stored.length → c.drv.flag = 0 → c.AtHeader → Receiving c
  | header : c.saved.length + 1 = c.stored.length → c.drv.flag = 2 → c.AtHeader → Receiving c
  | seek (m : HucMsg) : c.saved.length + 1 = c.stored.length → c.stored.getLast? = some m →
      c.drv = ⟨1, m.payload.length⟩ → c.recv.pc = .seekPayload m.header → Receiving c
  | payload (m : HucMsg) (payload : List Byte) (left : ℤ) :
      c.saved.length + 1 = c.stored.length → c.stored.getLast? = some m → c.drv = ⟨1, left⟩ →
      c.recv = ⟨.readPayload m.header payload left, payloadOffset + payload.length⟩ →
      left = m.payload.length - payload.length → 0 < left → Copied c.dev payload →
      (∀ b, payload[windowBytes]? = some b → b = 0#8 ∨ b = 1#8) → Receiving c

/-- **The invariant**: all messages inject programs, the buffer holds the last one, every file shows
its program, and the last message is being announced or received. -/
structure TransferInv (env : HostEnv) (c : Channel) : Prop where
  programs : ∀ m ∈ c.stored, m.type = MsgType.programInjection.code ∧ 1 ≤ m.payload.length
  line : LineInv c.dev
  holds : ∀ m, c.stored.getLast? = some m → Holds env c.dev m
  saved : List.Forall₂ (fun m f => Shown m.payload f) (c.stored.take c.saved.length) c.saved
  stage : (Receiving c ∧ c.Handled) ∨
    (c.saved.length + 1 = c.stored.length ∧ c.drv.flag = 0 ∧ c.AtHeader ∧ c.Raised)

/-- A started daemon has nothing to receive. -/
lemma transferInv_start (env : HostEnv) {dev : HucState} (hstatus : dev.irqStatus = 0#32)
    (hline : dev.irqLine = false) : TransferInv env (Channel.start dev) where
  programs m hm := absurd hm List.not_mem_nil
  line := by simp [LineInv, Channel.start, hstatus, hline]
  holds m hm := by simp [Channel.start] at hm
  saved := List.Forall₂.nil
  stage := Or.inl ⟨.saved rfl rfl (Or.inl rfl), Or.inl ⟨rfl, hstatus⟩⟩

/-! ## Announcing a message -/

section Steps

variable {env : HostEnv} {c c' : Channel}

/-- A program raises cause 1. -/
lemma receive_program (env : HostEnv) {dev : HucState} {m : HucMsg} (hstatus : dev.irqStatus = 0#32)
    (hm : m.type = MsgType.programInjection.code) :
    (receive env dev m).1.irqStatus = 1#32 := by
  rw [receive_irqStatus, hstatus, BitVec.zero_or]
  exact if_pos hm

/-- A waiting daemon has saved every program, and no handler is running. -/
lemma TransferInv.of_waiting (h : TransferInv env c) (hw : Waiting c) :
    c.saved.length = c.stored.length ∧ c.irq = .idle ∧ c.AtHeader := by
  obtain ⟨hpc, hstatus, hflag⟩ := hw
  rcases h.stage with ⟨hrecv, hhandled⟩ | ⟨-, -, -, hraised, -⟩
  · have hidle : c.irq = .idle := by
      rcases hhandled with ⟨hidle, -⟩ | ⟨-, hone⟩
      · exact hidle
      · exact absurd (hstatus.symm.trans hone) (by decide)
    cases hrecv with
    | saved hlen _ hat => exact ⟨hlen, hidle, hat⟩
    | header _ htwo _ => exact absurd (hflag.symm.trans htwo) (by decide)
    | seek m _ _ hdrv _ =>
      rw [hdrv] at hflag
      exact absurd hflag one_ne_zero
    | payload m payload left _ _ hdrv _ _ _ _ _ =>
      rw [hdrv] at hflag
      exact absurd hflag one_ne_zero
  · exact absurd (hstatus.symm.trans hraised) (by decide)

/-- A program sent to a waiting daemon keeps the invariant. -/
lemma transferInv_host {m : HucMsg} (h : TransferInv env c) (hw : Waiting c)
    (hm : (ChannelAct.host m).SendsProgram) (hstep : channelStep env c (.host m) = some c') :
    TransferInv env c' := by
  obtain ⟨hlen, hidle, hat⟩ := h.of_waiting hw
  obtain ⟨-, rfl⟩ := step_host hstep
  have hstatus := receive_program env hw.2.1 hm.1
  refine
    { programs := fun m' hm' => ?_
      line := (receive_irq env c.dev m).2 h.line
      holds := fun m' hm' => ?_
      saved := ?_
      stage := Or.inr ⟨?_, hw.2.2, hat, hstatus, Or.inl hidle⟩ }
  · rcases List.mem_append.mp hm' with hold | hlast
    · exact h.programs m' hold
    · rw [List.mem_singleton.mp hlast]
      exact hm
  · obtain rfl : m = m' := by simpa using hm'
    exact holds_receive env c.dev m
  · rw [List.take_append_of_le_length hlen.le]
    exact h.saved
  · simp [hlen]

/-- How far the daemon is does not depend on the device but for its buffer, nor on the handler. -/
lemma Receiving.of_buf_eq (h : Receiving c) {dev : HucState} (irq : IrqPc)
    (hbuf : dev.buf = c.dev.buf) : Receiving { c with dev := dev, irq := irq } := by
  cases h with
  | saved hlen hflag hat => exact .saved hlen hflag hat
  | header hlen hflag hat => exact .header hlen hflag hat
  | seek m hlen hlast hdrv hpc => exact .seek m hlen hlast hdrv hpc
  | payload m payload left hlen hlast hdrv hrecv hleft hpos hcopied hbyte =>
    exact .payload m payload left hlen hlast hdrv hrecv hleft hpos (hcopied.of_buf_eq hbuf) hbyte

/-- The accesses of the handler keep the invariant.

**Proof sketch.** The line is high only while the status is not zero, so the handler starts only for
a message not yet announced; it reads 1, sets the flag to 2 and clears the status. -/
lemma transferInv_irqRead (h : TransferInv env c) (hstep : channelStep env c .irqRead = some c') :
    TransferInv env c' := by
  obtain ⟨hidle, hline, rfl⟩ := step_irqRead hstep
  have hne : c.dev.irqStatus ≠ 0#32 := h.line.mp hline
  refine ⟨h.programs, h.line, h.holds, h.saved, ?_⟩
  rcases h.stage with ⟨-, ⟨-, hzero⟩ | ⟨hack, -⟩⟩ | ⟨hlen, hflag, hat, hone, -⟩
  · exact absurd hzero hne
  · exact absurd (hidle.symm.trans hack) (by simp)
  · exact Or.inr ⟨hlen, hflag, hat, hone, Or.inr (by rw [hone])⟩

/-- The wake-up keeps the invariant. -/
lemma transferInv_irqWake (h : TransferInv env c) (hstep : channelStep env c .irqWake = some c') :
    TransferInv env c' := by
  obtain ⟨v, hwake, rfl⟩ := step_irqWake hstep
  refine ⟨h.programs, h.line, h.holds, h.saved, Or.inl ?_⟩
  rcases h.stage with ⟨-, ⟨hidle, -⟩ | ⟨hack, -⟩⟩ | ⟨hlen, hflag, hat, hone, hirq⟩
  · exact absurd (hwake.symm.trans hidle) (by simp)
  · exact absurd (hwake.symm.trans hack) (by simp)
  · obtain rfl : v = 1#32 := by
      rcases hirq with hidle | hone'
      · exact absurd (hwake.symm.trans hidle) (by simp)
      · simpa [hwake] using hone'
    exact ⟨.header hlen rfl hat, Or.inr ⟨rfl, hone⟩⟩

/-- The acknowledgement keeps the invariant. -/
lemma transferInv_irqAck (h : TransferInv env c) (hstep : channelStep env c .irqAck = some c') :
    TransferInv env c' := by
  obtain ⟨v, hack, rfl⟩ := step_irqAck hstep
  refine ⟨h.programs, h.line.lower v, fun m hm => (h.holds m hm).of_buf_eq rfl, h.saved,
    Or.inl ?_⟩
  rcases h.stage with ⟨hrecv, ⟨hidle, -⟩ | ⟨hone', hone⟩⟩ | ⟨-, -, -, -, hirq⟩
  · exact absurd (hack.symm.trans hidle) (by simp)
  · obtain rfl : v = 1#32 := by simpa [hack] using hone'
    refine ⟨hrecv.of_buf_eq .idle rfl, Or.inl ⟨rfl, ?_⟩⟩
    show c.dev.irqStatus &&& ~~~1#32 = 0#32
    rw [hone]
    decide
  · rcases hirq with hidle | hwake
    · exact absurd (hack.symm.trans hidle) (by simp)
    · exact absurd (hack.symm.trans hwake) (by simp)

end Steps

/-! ## Receiving a message -/

/-- The byte after the window stays that of an interrupt status when a word is read.

**Proof sketch.** The window ends at a multiple of four, so this byte comes into the payload as the
first one of a word, the one read at the first offset past the window. -/
lemma window_byte {dev : HucState} {payload : List Byte} (hwords : payload.length % 4 = 0)
    (hstatus : dev.irqStatus = 0#32 ∨ dev.irqStatus = 1#32)
    (h : ∀ b, payload[windowBytes]? = some b → b = 0#8 ∨ b = 1#8) :
    ∀ b, (payload ++ leBytes ((hucdevBufmmioRead dev
      (BitVec.ofNat 64 (payloadOffset + payload.length)) 4).setWidth 32))[windowBytes]? = some b →
      b = 0#8 ∨ b = 1#8 := by
  intro b hb
  have hwin : windowBytes = 65516 := rfl
  rcases Nat.lt_trichotomy payload.length windowBytes with hlt | heq | hgt
  · obtain ⟨hcon, -⟩ := List.getElem?_eq_some_iff.mp hb
    rw [List.length_append, length_leBytes] at hcon
    omega
  · rw [bufmmioRead_window dev (Or.inr (by rw [heq]; rfl)), ← heq,
      List.getElem?_append_right le_rfl, Nat.sub_self] at hb
    rcases hstatus with hs | hs
    · rw [hs] at hb
      exact Or.inl (Option.some.inj hb).symm
    · rw [hs] at hb
      exact Or.inr (Option.some.inj hb).symm
  · rw [List.getElem?_append_left hgt] at hb
    exact h b hb

/-- A payload read to its end shows the program. -/
lemma shown_of_copied {env : HostEnv} {dev : HucState} {m : HucMsg} {payload : List Byte}
    (hholds : Holds env dev m) (htype : m.type = MsgType.programInjection.code)
    (hcopied : Copied dev payload) (hlen : m.payload.length ≤ payload.length)
    (hbyte : ∀ b, payload[windowBytes]? = some b → b = 0#8 ∨ b = 1#8) :
    Shown m.payload (payload.take m.payload.length) := by
  have hdel : m.delivered env = m.payload := by
    rw [HucMsg.delivered, if_neg (by rw [htype]; decide)]
  refine ⟨by rw [List.length_take, Nat.min_eq_left hlen], fun i hi => ?_, fun b hb => ?_⟩
  · rcases Nat.lt_or_ge i m.payload.length with hlt | hge
    · have hbuf : m.payload[i]? = some (dev.buf (payloadOffset + i)) := by
        have hread := hholds.payload
        rw [hdel] at hread
        rw [← hread, List.getElem?_eq_getElem (by simpa using hlt), ByteMem.getElem_read]
      rw [List.getElem?_take_of_lt hlt, hbuf]
      exact hcopied.bytes i (by omega) hi
    · rw [List.getElem?_take_eq_none hge, List.getElem?_eq_none hge]
  · apply hbyte
    obtain ⟨hlt, -⟩ := List.getElem?_eq_some_iff.mp hb
    rw [List.length_take] at hlt
    rwa [List.getElem?_take_of_lt (by omega)] at hb

section Receive

variable {env : HostEnv} {c c' : Channel}

/-- The status is 0 or 1 while a message is received. -/
lemma Channel.Handled.status (h : c.Handled) :
    c.dev.irqStatus = 0#32 ∨ c.dev.irqStatus = 1#32 := by
  rcases h with ⟨-, hs⟩ | ⟨-, hs⟩
  · exact Or.inl hs
  · exact Or.inr hs

/-- While a message is received there is a message stored last. -/
lemma exists_getLast (hlen : c.saved.length + 1 = c.stored.length) :
    ∃ m, c.stored.getLast? = some m := by
  have hne : c.stored ≠ [] := by
    intro hcon
    rw [hcon] at hlen
    simp at hlen
  exact ⟨c.stored.getLast hne, List.getLast?_eq_some_getLast hne⟩

/-- The calls on the way to a header keep the invariant: with the flag at zero the read waits, and
with the flag at two it finds the header of the message stored last.

**Proof sketch.** The seek leads to the read of the header. This read blocks while the flag is zero,
which is the case when everything has been saved; with the flag at two it copies the header of the
message stored last, and `account` sets the driver to the length of its payload. -/
lemma transferInv_atHeader (h : TransferInv env c) (hat : c.AtHeader)
    (hcall : daemonCall c = some c') : TransferInv env c' := by
  rcases hat with hpc | hr
  · rw [daemonCall_seekHeader hpc] at hcall
    obtain rfl := Option.some.inj hcall
    refine ⟨h.programs, h.line, h.holds, h.saved, ?_⟩
    rcases h.stage with ⟨hrecv, hhandled⟩ | ⟨hlen, hflag, -, hraised⟩
    · refine Or.inl ⟨?_, hhandled⟩
      cases hrecv with
      | saved hlen hflag _ => exact .saved hlen hflag (Or.inr rfl)
      | header hlen hflag _ => exact .header hlen hflag (Or.inr rfl)
      | seek m _ _ _ hpc' => exact absurd (hpc.symm.trans hpc') (by simp)
      | payload m payload left _ _ _ hrecv _ _ _ _ =>
        rw [hrecv] at hpc
        exact absurd hpc (by simp)
    · exact Or.inr ⟨hlen, hflag, Or.inr rfl, hraised⟩
  · rw [daemonCall_readHeader hr] at hcall
    split_ifs at hcall with hzero
    obtain rfl := Option.some.inj hcall
    refine ⟨h.programs, h.line, h.holds, h.saved, ?_⟩
    rcases h.stage with ⟨hrecv, hhandled⟩ | ⟨-, hflag, -, -⟩
    · refine Or.inl ⟨?_, hhandled⟩
      cases hrecv with
      | saved _ hflag _ => omega
      | header hlen hflag _ =>
        obtain ⟨m, hlast⟩ := exists_getLast hlen
        have hheader := (h.holds m hlast).header
        refine .seek m hlen hlast ?_ (by rw [hheader])
        show c.drv.account _ 4 = _
        rw [account_read_header c.dev hflag, hheader, HucMsg.toNat_payloadLen]
      | seek m _ _ _ hpc' =>
        rw [hr] at hpc'
        exact absurd hpc' (by simp)
      | payload m payload left _ _ _ hrecv _ _ _ _ =>
        rw [hr] at hrecv
        exact absurd hrecv (by simp)
    · omega

/-- The message stored last injects a program. -/
lemma TransferInv.of_getLast (h : TransferInv env c) {m : HucMsg}
    (hlast : c.stored.getLast? = some m) :
    m.type = MsgType.programInjection.code ∧ 1 ≤ m.payload.length :=
  h.programs m (List.mem_of_getLast? hlast)

/-- The seek to the payload keeps the invariant: there is a payload. -/
lemma transferInv_seek (h : TransferInv env c) (hhandled : c.Handled) {m : HucMsg}
    (hlen : c.saved.length + 1 = c.stored.length) (hlast : c.stored.getLast? = some m)
    (hdrv : c.drv = ⟨1, m.payload.length⟩) (hpc : c.recv.pc = .seekPayload m.header)
    (hcall : daemonCall c = some c') : TransferInv env c' := by
  have hpos := (h.of_getLast hlast).2
  rw [daemonCall_seekPayload hpc, HucMsg.toNat_payloadLen, if_pos (by omega)] at hcall
  obtain rfl := Option.some.inj hcall
  refine ⟨h.programs, h.line, h.holds, h.saved, Or.inl ⟨?_, hhandled⟩⟩
  refine .payload m [] m.payload.length hlen hlast hdrv rfl (by simp) ?_ (copied_nil c.dev) ?_
  · exact_mod_cast hpos
  · intro b hb
    simp at hb

/-- The read of a word of the payload keeps the invariant; with the last one the driver's flag is
cleared and the file is saved.

**Proof sketch.** The word copied extends what has been copied of the buffer, and `account` counts
four bytes less. While bytes are left this is a step in the payload. With the last one the driver
clears the flag, `recv_bytecode` returns the payload shortened to its length, and this is what the
buffer shows of the message stored last, so that it is saved. -/
lemma transferInv_payload (h : TransferInv env c) (hhandled : c.Handled) {m : HucMsg}
    {payload : List Byte} {left : ℤ} (hlen : c.saved.length + 1 = c.stored.length)
    (hlast : c.stored.getLast? = some m) (hdrv : c.drv = ⟨1, left⟩)
    (hrecv : c.recv = ⟨.readPayload m.header payload left, payloadOffset + payload.length⟩)
    (hleft : left = m.payload.length - payload.length) (hpos : 0 < left)
    (hcopied : Copied c.dev payload)
    (hbyte : ∀ b, payload[windowBytes]? = some b → b = 0#8 ∨ b = 1#8)
    (hcall : daemonCall c = some c') : TransferInv env c' := by
  have hwords := hcopied.words
  have htype := (h.of_getLast hlast).1
  have hle : left ≤ 65535 := by
    have := m.length_lt
    omega
  have hcopied' := hcopied.append_word
  have hbyte' := window_byte hwords hhandled.status hbyte
  generalize hk : (hucdevBufmmioRead c.dev
    (BitVec.ofNat 64 (payloadOffset + payload.length)) 4).setWidth 32 = kbuf at hcopied' hbyte'
  have hlen' : (payload ++ leBytes kbuf).length = payload.length + 4 := by
    rw [List.length_append, length_leBytes]
  rw [daemonCall_readPayload hrecv (by simp only [payloadOffset]; omega) hk,
    if_neg (by rw [hdrv]; exact lt_irrefl 1)] at hcall
  have hcall := Option.some.inj hcall
  rw [hdrv, account_payload hpos hle, HucMsg.toNat_payloadLen] at hcall
  by_cases hmore : 0 < left - 4
  · rw [if_pos hmore, if_pos hmore] at hcall
    obtain rfl := hcall
    refine ⟨h.programs, h.line, h.holds, h.saved, Or.inl ⟨?_, hhandled⟩⟩
    refine .payload m (payload ++ leBytes kbuf) (left - 4) hlen hlast rfl ?_ ?_ hmore hcopied'
      hbyte'
    · rw [hlen']
      rfl
    · rw [hlen']
      push_cast
      omega
  · rw [if_neg hmore, if_neg hmore] at hcall
    obtain rfl := hcall
    have hshown := shown_of_copied (h.holds m hlast) htype hcopied' (by omega) hbyte'
    have hsaved : (Channel.deliver
        { c with drv := ⟨0, left - 4⟩, recv := ⟨.seekHeader, payloadOffset + payload.length + 4⟩ }
        (some (m.header, (payload ++ leBytes kbuf).take m.payload.length))).saved =
        c.saved ++ [(payload ++ leBytes kbuf).take m.payload.length] := by
      rw [saved_deliver _ _ htype, HucMsg.toNat_payloadLen, List.take_take, Nat.min_self]
    have hstored : c.stored = c.stored.take c.saved.length ++ [m] := by
      rw [show c.saved.length = c.stored.length - 1 by omega, ← List.dropLast_eq_take]
      exact (List.dropLast_append_getLast? m hlast).symm
    refine ⟨h.programs, h.line, h.holds, ?_, Or.inl ⟨.saved ?_ rfl (Or.inl rfl), hhandled⟩⟩
    · rw [hsaved, List.length_append, List.length_singleton, hlen]
      show List.Forall₂ _ (c.stored.take c.stored.length) _
      rw [List.take_length, hstored]
      exact List.rel_append h.saved (List.Forall₂.cons hshown List.Forall₂.nil)
    · rw [hsaved, List.length_append]
      exact hlen

/-- The daemon's calls keep the invariant. -/
lemma transferInv_daemon (h : TransferInv env c) (hcall : daemonCall c = some c') :
    TransferInv env c' := by
  rcases h.stage with ⟨hrecv, hhandled⟩ | ⟨-, -, hat, -⟩
  · cases hrecv with
    | saved hlen hflag hat => exact transferInv_atHeader h hat hcall
    | header hlen hflag hat => exact transferInv_atHeader h hat hcall
    | seek m hlen hlast hdrv hpc => exact transferInv_seek h hhandled hlen hlast hdrv hpc hcall
    | payload m payload left hlen hlast hdrv hrecv hleft hpos hcopied hbyte =>
      exact transferInv_payload h hhandled hlen hlast hdrv hrecv hleft hpos hcopied hbyte hcall
  · exact transferInv_atHeader h hat hcall

/-- **Every step keeps the invariant** when programs are only sent to a waiting daemon. -/
lemma channelStep_transferInv {a : ChannelAct} (h : TransferInv env c)
    (hg : SendWhenWaiting c a ∧ a.SendsProgram) (hstep : channelStep env c a = some c') :
    TransferInv env c' := by
  cases a with
  | host m => exact transferInv_host h hg.1 hg.2 hstep
  | irqRead => exact transferInv_irqRead h hstep
  | irqWake => exact transferInv_irqWake h hstep
  | irqAck => exact transferInv_irqAck h hstep
  | daemon => exact transferInv_daemon h hstep

/-! ## Sending to the end -/

/-- A call of the daemon sends nothing. -/
lemma along_daemon (n : ℕ) (c : Channel) :
    Along (channelStep env) SendWhenWaiting c (List.replicate n .daemon) := by
  refine along_of_forall (fun a ha _ => ?_) c
  rw [List.eq_of_mem_replicate ha]
  trivial

/-- The daemon alone leads from `c` to `c'`. -/
def DaemonRuns (env : HostEnv) (c c' : Channel) : Prop :=
  ∃ n, run (channelStep env) c (List.replicate n .daemon) = some c'

/-- One call of the daemon. -/
lemma DaemonRuns.call (h : daemonCall c = some c') : DaemonRuns env c c' :=
  ⟨1, (run_singleton c _).trans h⟩

/-- Calls of the daemon in a row. -/
lemma DaemonRuns.trans {c₁ c₂ c₃ : Channel} (h₁ : DaemonRuns env c₁ c₂)
    (h₂ : DaemonRuns env c₂ c₃) : DaemonRuns env c₁ c₃ := by
  obtain ⟨n₁, h₁⟩ := h₁
  obtain ⟨n₂, h₂⟩ := h₂
  refine ⟨n₁ + n₂, ?_⟩
  rw [← List.replicate_append_replicate]
  exact run_trans h₁ h₂

/-- The daemon alone keeps the invariant and touches neither the device nor the handler. -/
lemma DaemonRuns.keeps (hruns : DaemonRuns env c c') (h : TransferInv env c) :
    TransferInv env c' ∧ c'.dev = c.dev ∧ c'.irq = c.irq := by
  obtain ⟨n, hn⟩ := hruns
  induction n generalizing c with
  | zero =>
    obtain rfl : c = c' := by simpa using hn
    exact ⟨h, rfl, rfl⟩
  | succ n ih =>
    rw [List.replicate_succ, run_cons] at hn
    obtain ⟨d, hstep, hrest⟩ := hn
    obtain ⟨hdev, hirq, -⟩ := daemonCall_frame hstep
    obtain ⟨hinv, hdev', hirq'⟩ := ih (transferInv_daemon h hstep) hrest
    exact ⟨hinv, hdev'.trans hdev, hirq'.trans hirq⟩

/-- The header about to be read is that of a program, which is not empty. -/
lemma TransferInv.of_announced (h : TransferInv env c) (hflag : c.drv.flag = 2) :
    0 < c.dev.header.payloadLen.toNat := by
  rcases h.stage with ⟨hrecv, -⟩ | ⟨-, hzero, -⟩
  · cases hrecv with
    | saved _ hzero _ => omega
    | header hlen _ _ =>
      obtain ⟨m, hlast⟩ := exists_getLast hlen
      rw [(h.holds m hlast).header, HucMsg.toNat_payloadLen]
      exact (h.of_getLast hlast).2
    | seek m _ _ hdrv _ => simp [hdrv] at hflag
    | payload m payload left _ _ hdrv _ _ _ _ _ => simp [hdrv] at hflag
  · omega

/-- The daemon receives an announced message and waits again: it runs `recv_bytecode` from the
header read to the return, and seeks to the next header. -/
lemma daemonRuns_receive (h : TransferInv env c) (hr : c.recv = ⟨.readHeader, 16⟩)
    (hflag : c.drv.flag = 2) (hstatus : c.dev.irqStatus = 0#32) :
    ∃ c', DaemonRuns env c c' ∧ TransferInv env c' ∧ Waiting c' := by
  obtain ⟨out, hout, -, hzero, -⟩ := recvBytecode_header c.dev hflag 0 (h.of_announced hflag)
  have hrecv := hout _ (Nat.le_succ _)
  rw [recvBytecode_seekHeader, ← hr] at hrecv
  obtain ⟨n, c₁, d, hrun, -, hdrv, hrecv₁, -⟩ := @run_daemon_recvBytecode env _ _ _ hrecv
  have hseek := daemonCall_seekHeader (show c₁.recv.pc = .seekHeader by rw [hrecv₁])
  have hruns : DaemonRuns env c _ := DaemonRuns.trans ⟨n, hrun⟩ (DaemonRuns.call hseek)
  obtain ⟨hinv, hdev, -⟩ := hruns.keeps h
  refine ⟨_, hruns, hinv, rfl, (congrArg HucState.irqStatus hdev).trans hstatus, ?_⟩
  show c₁.drv.flag = 0
  rw [hdrv, hzero]

/-- The announcement of a program to a waiting daemon. -/
def announce (m : HucMsg) : List ChannelAct := [.host m, .irqRead, .irqWake, .irqAck]

/-- A program sent to a waiting daemon is announced by a complete run of the handler.

**Proof sketch.** The four steps in turn: the message raises bit 0, and the handler reads the status
1, sets the flag to two and lowers what it has read. Each step keeps the invariant. -/
lemma run_announce (h : TransferInv env c) (hw : Waiting c) {m : HucMsg}
    (hm : m.type = MsgType.programInjection.code) (hpos : 1 ≤ m.payload.length) :
    ∃ c', run (channelStep env) c (announce m) = some c' ∧ TransferInv env c' ∧
      c'.recv = c.recv ∧ c'.drv.flag = 2 ∧ c'.dev.irqStatus = 0#32 := by
  obtain ⟨-, hidle, -⟩ := h.of_waiting hw
  have hone := receive_program env hw.2.1 hm
  -- the message
  obtain ⟨c₁, hstep₁, hdev₁, hirq₁, hrecv₁⟩ : ∃ c₁, channelStep env c (.host m) = some c₁ ∧
      c₁.dev = (receive env c.dev m).1 ∧ c₁.irq = .idle ∧ c₁.recv = c.recv :=
    ⟨_, if_pos (Or.inl hm), rfl, hidle, rfl⟩
  have h₁ := transferInv_host h hw ⟨hm, hpos⟩ hstep₁
  have hone₁ : c₁.dev.irqStatus = 1#32 := by rw [hdev₁, hone]
  have hline : c₁.dev.irqLine = true := h₁.line.mpr (by rw [hone₁]; decide)
  -- the handler
  obtain ⟨c₂, hstep₂, hirq₂, hdev₂, hrecv₂⟩ : ∃ c₂, channelStep env c₁ .irqRead = some c₂ ∧
      c₂.irq = .wake 1#32 ∧ c₂.dev = c₁.dev ∧ c₂.recv = c₁.recv := by
    refine ⟨{ c₁ with irq := .wake 1#32 }, ?_, rfl, rfl, rfl⟩
    simp only [channelStep, hirq₁, hline, irqStatusRead_eq, hone₁, and_self, if_true]
  have h₂ := transferInv_irqRead h₁ hstep₂
  obtain ⟨c₃, hstep₃, hirq₃, hdev₃, hrecv₃, hflag₃⟩ : ∃ c₃, channelStep env c₂ .irqWake = some c₃ ∧
      c₃.irq = .ack 1#32 ∧ c₃.dev = c₂.dev ∧ c₃.recv = c₂.recv ∧ c₃.drv.flag = 2 := by
    refine ⟨{ c₂ with drv := irqWake c₂.drv 1#32, irq := .ack 1#32 }, ?_, rfl, rfl, rfl, rfl⟩
    simp only [channelStep, hirq₂]
  have h₃ := transferInv_irqWake h₂ hstep₃
  obtain ⟨c₄, hstep₄, hdev₄, hrecv₄, hdrv₄⟩ : ∃ c₄, channelStep env c₃ .irqAck = some c₄ ∧
      c₄.dev = hucdevLowerIrq c₃.dev 1#32 ∧ c₄.recv = c₃.recv ∧ c₄.drv = c₃.drv := by
    refine ⟨{ c₃ with dev := hucdevLowerIrq c₃.dev 1#32, irq := .idle }, ?_, rfl, rfl, rfl⟩
    simp only [channelStep, hirq₃, irqAck_eq]
  have h₄ := transferInv_irqAck h₃ hstep₄
  refine ⟨c₄, ?_, h₄, ?_, hdrv₄.symm ▸ hflag₃, ?_⟩
  · exact run_cons.mpr ⟨c₁, hstep₁, run_cons.mpr ⟨c₂, hstep₂, run_cons.mpr ⟨c₃, hstep₃,
      (run_singleton c₃ _).trans hstep₄⟩⟩⟩
  · rw [hrecv₄, hrecv₃, hrecv₂, hrecv₁]
  · rw [hdev₄, hdev₃, hdev₂]
    show c₁.dev.irqStatus &&& ~~~1#32 = 0#32
    rw [hone₁]
    decide

/-- **One program is transferred**: sent to a waiting daemon, it is announced, received and saved,
and the daemon waits again. -/
lemma transfer_one (h : TransferInv env c) (hw : Waiting c) {m : HucMsg}
    (hm : m.type = MsgType.programInjection.code) (hpos : 1 ≤ m.payload.length) :
    ∃ acts c', run (channelStep env) c acts = some c' ∧
      Along (channelStep env) SendWhenWaiting c acts ∧
      acts.filterMap ChannelAct.message? = [m] ∧ TransferInv env c' ∧ Waiting c' := by
  obtain ⟨-, -, hat⟩ := h.of_waiting hw
  have hr : c.recv = ⟨.readHeader, 16⟩ := by
    rcases hat with hpc | hr
    · exact absurd (hw.1.symm.trans hpc) (by simp)
    · exact hr
  obtain ⟨c₁, hrun₁, h₁, hrecv₁, hflag₁, hstatus₁⟩ := run_announce h hw hm hpos
  obtain ⟨c₂, ⟨n, hrun₂⟩, h₂, hw₂⟩ :=
    daemonRuns_receive h₁ (hrecv₁.trans hr) hflag₁ hstatus₁
  have halong : Along (channelStep env) SendWhenWaiting c (announce m) :=
    ⟨hw, fun _ _ => ⟨trivial, fun _ _ => ⟨trivial, fun _ _ => ⟨trivial, fun _ _ => trivial⟩⟩⟩⟩
  refine ⟨announce m ++ List.replicate n .daemon, c₂, run_trans hrun₁ hrun₂,
    halong.append hrun₁ (along_daemon n c₁), ?_, h₂, hw₂⟩
  rw [List.filterMap_append, List.filterMap_replicate_of_none rfl, List.append_nil]
  rfl

/-- **All programs are transferred**, one after the other. -/
lemma transfer_all (h : TransferInv env c) (hw : Waiting c) (ms : List HucMsg)
    (hms : ∀ m ∈ ms, m.type = MsgType.programInjection.code ∧ 1 ≤ m.payload.length) :
    ∃ acts c', run (channelStep env) c acts = some c' ∧
      Along (channelStep env) SendWhenWaiting c acts ∧
      acts.filterMap ChannelAct.message? = ms ∧ TransferInv env c' ∧ Waiting c' := by
  induction ms generalizing c with
  | nil => exact ⟨[], c, rfl, trivial, rfl, h, hw⟩
  | cons m ms ih =>
    obtain ⟨hm, hpos⟩ := hms m List.mem_cons_self
    obtain ⟨acts₁, c₁, hrun₁, halong₁, hmsg₁, h₁, hw₁⟩ := transfer_one h hw hm hpos
    obtain ⟨acts₂, c₂, hrun₂, halong₂, hmsg₂, h₂, hw₂⟩ :=
      ih h₁ hw₁ fun m' hm' => hms m' (List.mem_cons_of_mem m hm')
    refine ⟨acts₁ ++ acts₂, c₂, run_trans hrun₁ hrun₂, halong₁.append hrun₁ halong₂, ?_, h₂, hw₂⟩
    rw [List.filterMap_append, hmsg₁, hmsg₂]
    rfl

end Receive

/-! ## Exact files -/

/-- Every program has its message. -/
lemma exists_messages (ps : List (List Byte)) (hps : ∀ p ∈ ps, 1 ≤ p.length ∧ p.length ≤ 65535) :
    ∃ ms : List HucMsg,
      List.Forall₂ (fun p m => prepareHucMessage (.readable p) = m.raw) ps ms := by
  induction ps with
  | nil => exact ⟨[], List.Forall₂.nil⟩
  | cons p ps ih =>
    obtain ⟨ms, hms⟩ := ih fun q hq => hps q (List.mem_cons_of_mem p hq)
    have hp : p.length < 2 ^ 16 := by
      have := (hps p List.mem_cons_self).2
      omega
    exact ⟨injectMsg p hp :: ms, List.Forall₂.cons (prepareHucMessage_readable p hp) hms⟩

/-- The messages of programs inject them. -/
lemma payload_of_messages {ps : List (List Byte)} {ms : List HucMsg}
    (h : List.Forall₂ (fun p m => prepareHucMessage (.readable p) = m.raw) ps ms)
    (hps : ∀ p ∈ ps, 1 ≤ p.length ∧ p.length ≤ 65535) :
    ms.map HucMsg.payload = ps ∧
      ∀ m ∈ ms, m.type = MsgType.programInjection.code ∧ 1 ≤ m.payload.length := by
  induction h with
  | nil => exact ⟨rfl, fun m hm => absurd hm List.not_mem_nil⟩
  | @cons p m ps ms hpm _ ih =>
    obtain ⟨hpos, hle⟩ := hps p List.mem_cons_self
    obtain ⟨htype, rfl⟩ := eq_of_prepareHucMessage (by omega) hpm
    obtain ⟨hmap, hall⟩ := ih fun q hq => hps q (List.mem_cons_of_mem _ hq)
    refine ⟨by rw [List.map_cons, hmap], ?_⟩
    intro m' hm'
    rcases List.mem_cons.mp hm' with rfl | hm'
    · exact ⟨htype, hpos⟩
    · exact hall m' hm'

section Exact

variable {env : HostEnv} {dev : HucState} {ps : List (List Byte)} {acts : List ChannelAct}
  {c : Channel}

/-- A transfer keeps the invariant, and the messages stored are the programs. -/
lemma Transfers.inv (h : Transfers env dev ps acts c) (hstatus : dev.irqStatus = 0#32)
    (hline : dev.irqLine = false) (hps : ∀ p ∈ ps, 1 ≤ p.length ∧ p.length ≤ 65535) :
    TransferInv env c ∧ c.stored.map HucMsg.payload = ps := by
  obtain ⟨hmap, hall⟩ := payload_of_messages h.sends hps
  have hsends : ∀ a ∈ acts, a.SendsProgram := by
    intro a ha
    cases a with
    | host m => exact hall m (List.mem_filterMap.mpr ⟨_, ha, rfl⟩)
    | _ => trivial
  have hstored : c.stored = acts.filterMap ChannelAct.message? := stored_of_run h.run
  refine ⟨?_, by rw [hstored, hmap]⟩
  exact invariant_of_run_along (fun _ _ _ => channelStep_transferInv)
    (transferInv_start env hstatus hline) (h.waits.and_forall hsends) h.run

/-- Every file saved shows its program. -/
lemma TransferInv.shown (h : TransferInv env c) {j : ℕ} {f : List Byte}
    (hf : c.saved[j]? = some f) :
    ∃ p, (c.stored.map HucMsg.payload)[j]? = some p ∧ Shown p f := by
  obtain ⟨hj, rfl⟩ := List.getElem?_eq_some_iff.mp hf
  have hlen := h.saved.length_eq
  have hshown := h.saved.get (i := j) (by omega) hj
  rw [List.length_take] at hlen
  refine ⟨c.stored[j].payload, ?_, ?_⟩
  · rw [List.getElem?_map, List.getElem?_eq_getElem (by omega)]
    rfl
  · simpa using hshown

/-- A program inside the window is shown exactly. -/
lemma Shown.eq {p f : List Byte} (h : Shown p f) (hp : p.length ≤ windowBytes) : f = p := by
  apply List.ext_getElem?
  intro i
  rcases Nat.lt_or_ge i windowBytes with hi | hi
  · exact h.window i hi
  · have hlen := h.length_eq
    rw [List.getElem?_eq_none (by omega), List.getElem?_eq_none (by omega)]

/-- **Every sequence of programs can be sent to the end.** -/
lemma exists_transfers (env : HostEnv) (hstatus : dev.irqStatus = 0#32)
    (hline : dev.irqLine = false) (hps : ∀ p ∈ ps, 1 ≤ p.length ∧ p.length ≤ 65535) :
    ∃ acts c, Transfers env dev ps acts c ∧ Waiting c := by
  obtain ⟨ms, hms⟩ := exists_messages ps hps
  have hstep : channelStep env (Channel.start dev) .daemon =
      some { Channel.start dev with recv := ⟨.readHeader, 16⟩ } := daemonCall_seekHeader rfl
  have h₁ := transferInv_daemon (transferInv_start env hstatus hline) hstep
  obtain ⟨acts, c, hrun, halong, hmsg, -, hw⟩ :=
    transfer_all h₁ ⟨rfl, hstatus, rfl⟩ ms (payload_of_messages hms hps).2
  refine ⟨.daemon :: acts, c, ⟨?_, Along.cons trivial hstep halong, ?_⟩, hw⟩
  · exact run_cons.mpr ⟨_, hstep, hrun⟩
  · have hfilter : (ChannelAct.daemon :: acts).filterMap ChannelAct.message? = ms := hmsg
    rw [hfilter]
    exact hms

end Exact

/-- **Which files are exact.** From every content of the device's buffer, every sequence of program
files with lengths from 1 to 65535 can be sent, each to a waiting daemon, until the daemon waits
again; then one file has been saved for each program. And the `j`-th file is the `j`-th program, for
all programs of the given lengths and all interleavings, exactly if its length is at most 65516.

**Proof sketch.** By the invariant each file shows its program. Inside the window this is equality.
Past the window, a program whose bytes are all `0xFF` is not shown exactly, because the byte after
the window is that of an interrupt status, 0 or 1. -/
theorem saved_eq_iff (env : HostEnv) {dev : HucState} (hstatus : dev.irqStatus = 0#32)
    (hline : dev.irqLine = false) (ns : List ℕ) (hns : ∀ n ∈ ns, 1 ≤ n ∧ n ≤ 65535) :
    (∀ ps : List (List Byte), ps.map List.length = ns →
      (∃ acts c, Transfers env dev ps acts c ∧ Waiting c) ∧
      ∀ acts c, Transfers env dev ps acts c → Waiting c → c.saved.length = ps.length) ∧
    ∀ j (hj : j < ns.length),
      (∀ ps acts c, ps.map List.length = ns → Transfers env dev ps acts c →
        ∀ f, c.saved[j]? = some f → ps[j]? = some f) ↔ ns[j] ≤ 65516 := by
  have hlens : ∀ ps : List (List Byte), ps.map List.length = ns →
      ∀ p ∈ ps, 1 ≤ p.length ∧ p.length ≤ 65535 := by
    intro ps hps p hp
    exact hns p.length (hps ▸ List.mem_map_of_mem hp)
  have hall : ∀ (ps : List (List Byte)) acts c, ps.map List.length = ns →
      Transfers env dev ps acts c → Waiting c → c.saved.length = ps.length := by
    intro ps acts c hps htr hw
    obtain ⟨hinv, hmap⟩ := htr.inv hstatus hline (hlens ps hps)
    rw [(hinv.of_waiting hw).1, ← hmap, List.length_map]
  refine ⟨fun ps hps => ⟨exists_transfers env hstatus hline (hlens ps hps), fun acts c htr hw =>
    hall ps acts c hps htr hw⟩, fun j hj => ⟨?_, ?_⟩⟩
  · intro hexact
    by_contra hgt
    have hps : (ns.map fun n => List.replicate n 0xFF#8).map List.length = ns := by
      simp [Function.comp_def]
    obtain ⟨acts, c, htr, hw⟩ := exists_transfers env hstatus hline (hlens _ hps)
    have hlen := hall _ acts c hps htr hw
    rw [List.length_map] at hlen
    obtain ⟨hinv, -⟩ := htr.inv hstatus hline (hlens _ hps)
    have hf : c.saved[j]? = some c.saved[j] := List.getElem?_eq_getElem (by omega)
    obtain ⟨p, -, hshown⟩ := hinv.shown hf
    have hfile : List.replicate ns[j] 0xFF#8 = c.saved[j] := by
      have hget := hexact _ acts c hps htr _ hf
      rw [List.getElem?_map, List.getElem?_eq_getElem hj] at hget
      exact Option.some.inj hget
    have hbyte := hshown.status 0xFF#8 (by
      rw [← hfile, List.getElem?_replicate_of_lt (show windowBytes < ns[j] by
        simp only [windowBytes, payloadOffset]; omega)])
    exact absurd hbyte (by decide)
  · intro hle ps acts c hps htr f hf
    obtain ⟨hinv, hmap⟩ := htr.inv hstatus hline (hlens ps hps)
    obtain ⟨p, hp, hshown⟩ := hinv.shown hf
    rw [hmap] at hp
    have hlen : p.length = ns[j] := by
      obtain ⟨hjp, rfl⟩ := List.getElem?_eq_some_iff.mp hp
      simp [← hps]
    rw [hshown.eq (by rw [hlen]; exact hle)]
    exact hp

/-- A one-byte and a seven-byte program are saved exactly, from the device at rest. -/
theorem saved_eq_iff_rest :
    (∀ ps : List (List Byte), ps.map List.length = [1, 7] →
      (∃ acts c, Transfers ⟨2, 0⟩ restState ps acts c ∧ Waiting c) ∧
      ∀ acts c, Transfers ⟨2, 0⟩ restState ps acts c → Waiting c → c.saved.length = ps.length) ∧
    ∀ ps acts c, ps.map List.length = [1, 7] → Transfers ⟨2, 0⟩ restState ps acts c →
      ∀ f, c.saved[1]? = some f → ps[1]? = some f := by
  have hall := @saved_eq_iff ⟨2, 0⟩ restState rfl rfl [1, 7] (by decide)
  exact ⟨hall.1, (hall.2 1 (by decide)).mpr (by decide)⟩

end Huc
