import Huc.Channel.Notify
import Huc.Channel.Transfer

set_option relaxedAutoImplicit false
set_option autoImplicit false

/-!
# Taking turns

The host stores a message only while the daemon is at its header read, the driver's flag is zero and
the interrupt of the message before has been handled. Then one message at a time is received, and
nothing of a payload is left over for the next one. But a message with an empty payload is received
twice: its header read puts the driver into the payload phase, which only a payload read ends, so
the next header read of the daemon does not wait but finds the same header again.

## Main definitions

* `Huc.HostTurn`, `Huc.TakesTurns` — when the host may send, and runs in which it sends only then.
* `Huc.HucMsg.returns` — the headers that `recv_bytecode` returns for a message.
* `Huc.Receipt` — how far the receipt of a message is.
* `Huc.TurnStage` — the invariant, with a rank that every step but the host's lowers.

## Main results

* `Huc.receipt_daemonCall` — the next system call in the receipt of a message.
* `Huc.channelStep_turnStage` — every step but the host's lowers the rank.
* `Huc.headers_eq_iff` — when the headers returned are the headers sent.
* `Huc.header_repeated` — an empty message is received twice.
-/

namespace Huc

open Transition

/-- The host's turn: the driver has nothing to read, the daemon is blocked in its header read or
about to be, and the handler has run to its end. -/
def HostTurn (c : Channel) : Prop :=
  c.drv.flag = 0 ∧ (c.recv.pc = .seekHeader ∨ c.recv.pc = .readHeader) ∧
    c.irq = .idle ∧ c.dev.irqStatus = 0#32

instance (c : Channel) : Decidable (HostTurn c) := inferInstanceAs (Decidable (_ ∧ _))

/-- A message is stored only at the host's turn. -/
def SendInTurn (c : Channel) : ChannelAct → Prop
  | .host _ => HostTurn c
  | _ => True

/-- The acts lead from a started daemon to `c`, and store the messages `ms`, each at the host's
turn. -/
structure TakesTurns (env : HostEnv) (dev : HucState) (ms : List HucMsg) (acts : List ChannelAct)
    (c : Channel) : Prop where
  run : run (channelStep env) (Channel.start dev) acts = some c
  turns : Along (channelStep env) SendInTurn (Channel.start dev) acts
  sends : acts.filterMap ChannelAct.message? = ms

/-- The headers returned by the calls of `recv_bytecode` so far. -/
def Channel.headers (c : Channel) : List HucMsgHeader := c.deliveries.map Delivery.header

/-- The headers that are returned for a message. -/
def HucMsg.returns (m : HucMsg) : List HucMsgHeader :=
  if m.payload = [] then [m.header, m.header] else [m.header]

/-- A return of `recv_bytecode` adds its header. -/
lemma headers_deliver (c : Channel) (h : HucMsgHeader) (p : List Byte) :
    (c.deliver (some (h, p))).headers = c.headers ++ [h] := by
  simp [Channel.headers, Channel.deliver]

/-! ## The receipt of a message -/

/-- How far the receipt of the message `m` is, once it is announced: a bound for the number of
system calls up to the next header read that waits, and the headers that they return. -/
inductive Receipt (drv : Driver) (r : Recv) (m : HucMsg) : ℕ → List HucMsgHeader → Prop
  | seekHeader : drv.flag = 2 → r.pc = .seekHeader →
      Receipt drv r m (m.payload.length + 7) m.returns
  | readHeader : drv.flag = 2 → r = ⟨.readHeader, 16⟩ →
      Receipt drv r m (m.payload.length + 6) m.returns
  | seekPayload : drv = ⟨1, m.payload.length⟩ → r.pc = .seekPayload m.header →
      Receipt drv r m (m.payload.length + 5) m.returns
  | readPayload (payload : List Byte) (left off : ℕ) : m.payload ≠ [] → drv = ⟨1, left⟩ →
      r = ⟨.readPayload m.header payload left, off⟩ → off % 4 = 0 → 0 < left →
      left ≤ 65535 → Receipt drv r m (left + 1) [m.header]
  | seekAgain : m.payload = [] → drv = ⟨1, 0⟩ → r.pc = .seekHeader →
      Receipt drv r m 4 [m.header]
  | readAgain : m.payload = [] → drv = ⟨1, 0⟩ → r = ⟨.readHeader, 16⟩ →
      Receipt drv r m 3 [m.header]
  | seekPayloadAgain : m.payload = [] → drv.flag = 0 → r.pc = .seekPayload m.header →
      Receipt drv r m 2 [m.header]

/-- The daemon is at a header read that waits, or one seek before it. -/
def Settled (c : Channel) (k : ℕ) : Prop :=
  c.drv.flag = 0 ∧ (c.recv.pc = .seekHeader ∧ k = 1 ∨ c.recv = ⟨.readHeader, 16⟩ ∧ k = 0)

/-- **The next system call in the receipt of a message** does not block, and takes the receipt
on.

**Proof sketch.** By the stage of the receipt. The rank is the number of calls that are left. A
message without payload is returned and its header is read a second time, now with the flag at one:
the driver counts below zero and clears the flag, and the header is returned again. -/
lemma receipt_daemonCall {c : Channel} {m : HucMsg} {k : ℕ} {left : List HucMsgHeader}
    (h : Receipt c.drv c.recv m k left) (hdev : c.dev.header = m.header) :
    ∃ c', daemonCall c = some c' ∧ c'.dev = c.dev ∧ c'.irq = c.irq ∧ c'.stored = c.stored ∧
      ((∃ j left', j < k ∧ Receipt c'.drv c'.recv m j left' ∧
          c'.headers ++ left' = c.headers ++ left) ∨
        ∃ j, j < k ∧ Settled c' j ∧ c'.headers = c.headers ++ left) := by
  have hlen : c.dev.header.payloadLen.toNat = m.payload.length := by
    rw [hdev, HucMsg.toNat_payloadLen]
  cases h with
  | seekHeader hflag hpc =>
    refine ⟨_, daemonCall_seekHeader hpc, rfl, rfl, rfl, Or.inl ?_⟩
    exact ⟨_, _, Nat.lt_succ_self _, .readHeader hflag rfl, rfl⟩
  | readHeader hflag hr =>
    have hcall := daemonCall_readHeader hr
    rw [if_neg (by omega), account_read_header c.dev hflag, hlen, hdev] at hcall
    refine ⟨_, hcall, rfl, rfl, rfl, Or.inl ?_⟩
    exact ⟨_, _, Nat.lt_succ_self _, .seekPayload rfl rfl, rfl⟩
  | seekPayload hdrv hpc =>
    have hcall := daemonCall_seekPayload hpc
    rw [HucMsg.toNat_payloadLen] at hcall
    by_cases hm : m.payload = []
    · rw [if_neg (by simp [hm])] at hcall
      refine ⟨_, hcall, rfl, rfl, rfl, Or.inl ⟨_, _, ?_, .seekAgain hm ?_ rfl, ?_⟩⟩
      · omega
      · rw [show (Channel.deliver _ _).drv = c.drv from rfl, hdrv, hm]
        rfl
      · rw [HucMsg.returns, if_pos hm, headers_deliver, List.append_assoc]
        rfl
    · have hpos := List.length_pos_iff.mpr hm
      rw [if_pos hpos] at hcall
      refine ⟨_, hcall, rfl, rfl, rfl, Or.inl ⟨_, _, ?_,
        .readPayload [] m.payload.length 20 hm hdrv rfl rfl hpos
          (Nat.le_of_lt_succ m.length_lt), ?_⟩⟩
      · omega
      · rw [HucMsg.returns, if_neg hm]
        rfl
  | readPayload payload n off hm hdrv hr h4 hpos hle =>
    have hcall := daemonCall_readPayload hr h4 rfl
    rw [hdrv, if_neg (lt_irrefl 1), account_payload (by omega) (by omega)] at hcall
    by_cases hmore : 4 < n
    · have hcast : (n : ℤ) - 4 = (n - 4 : ℕ) := by omega
      rw [if_pos (by omega), if_pos (by omega), hcast] at hcall
      refine ⟨_, hcall, rfl, rfl, rfl, Or.inl ⟨_, _, ?_,
        .readPayload _ (n - 4) (off + 4) hm rfl rfl ?_ ?_ ?_, rfl⟩⟩
      all_goals omega
    · rw [if_neg (by omega), if_neg (by omega)] at hcall
      refine ⟨_, hcall, rfl, rfl, rfl, Or.inr ⟨1, by omega, ⟨rfl, Or.inl ⟨rfl, rfl⟩⟩, ?_⟩⟩
      rw [headers_deliver]
      rfl
  | seekAgain hm hdrv hpc =>
    refine ⟨_, daemonCall_seekHeader hpc, rfl, rfl, rfl, Or.inl ?_⟩
    exact ⟨_, _, Nat.lt_succ_self _, .readAgain hm hdrv rfl, rfl⟩
  | readAgain hm hdrv hr =>
    -- the driver takes the header for payload, counts below zero and clears the flag
    have hcall := daemonCall_readHeader hr
    rw [if_neg (by rw [hdrv]; exact lt_irrefl 1), hdrv, hdev] at hcall
    refine ⟨_, hcall, rfl, rfl, rfl, Or.inl ?_⟩
    exact ⟨_, _, Nat.lt_succ_self _, .seekPayloadAgain hm rfl rfl, rfl⟩
  | seekPayloadAgain hm hflag hpc =>
    have hcall := daemonCall_seekPayload hpc
    rw [HucMsg.toNat_payloadLen, if_neg (by simp [hm])] at hcall
    refine ⟨_, hcall, rfl, rfl, rfl, Or.inr ⟨1, by omega, ⟨hflag, Or.inl ⟨rfl, rfl⟩⟩, ?_⟩⟩
    rw [headers_deliver]
    rfl

/-! ## The invariant -/

/-- The handler has announced the message stored last: it is done, or has only to acknowledge. -/
def Acked (c : Channel) (k : ℕ) : Prop :=
  c.irq = .idle ∧ c.dev.irqStatus = 0#32 ∧ k = 0 ∨
    c.irq = .ack c.dev.irqStatus ∧ k = 1

/-- The message stored last is still to be announced. -/
def Announcing (c : Channel) (k : ℕ) : Prop :=
  (c.dev.irqStatus = 1#32 ∨ c.dev.irqStatus = 3#32) ∧
    (c.irq = .idle ∧ k = 3 ∨ c.irq = .wake c.dev.irqStatus ∧ k = 2)

/-- All headers that are returned for the messages stored so far. -/
def Channel.expected (c : Channel) : List HucMsgHeader := c.stored.flatMap HucMsg.returns

/-- **The invariant**, with the rank of a state: the receipt of the message stored last is over, or
still to be announced, or under way. The headers returned so far and those that its receipt will
return are all that are returned for the messages stored. -/
inductive TurnStage (c : Channel) : ℕ → Prop
  | settled (d h : ℕ) : c.headers = c.expected → Settled c d → Acked c h → TurnStage c (d + h)
  | announcing (m : HucMsg) (d h : ℕ) : c.dev.header = m.header →
      c.headers ++ m.returns = c.expected → Settled c d → Announcing c h →
      TurnStage c (m.payload.length + 7 + d + h)
  | receiving (m : HucMsg) (left : List HucMsgHeader) (d h : ℕ) : c.dev.header = m.header →
      c.headers ++ left = c.expected → Receipt c.drv c.recv m d left → Acked c h →
      TurnStage c (d + h)

section Steps

variable {env : HostEnv} {c c' : Channel} {k : ℕ}

/-- The causes of injections raise the line and wake the reader. -/
lemma cause_spec {v : Word} (h : v = 1#32 ∨ v = 3#32) :
    v ≠ 0#32 ∧ ∀ drv, (irqWake drv v).flag = 2 := by
  rcases h with rfl | rfl
  · exact ⟨by decide, fun _ => rfl⟩
  · exact ⟨by decide, fun _ => rfl⟩

/-- At the host's turn no message is announced or received. -/
lemma TurnStage.of_hostTurn (h : TurnStage c k) (ht : HostTurn c) :
    c.headers = c.expected ∧ ∃ d, Settled c d := by
  obtain ⟨hflag, hpc, hidle, hstatus⟩ := ht
  cases h with
  | settled d h heads hset _ => exact ⟨heads, d, hset⟩
  | announcing m d h _ _ _ hann =>
    exact absurd hstatus (cause_spec hann.1).1
  | receiving m left d h _ _ hrec _ =>
    cases hrec with
    | seekHeader hcon _ => omega
    | readHeader hcon _ => omega
    | seekPayload hdrv _ => simp [hdrv] at hflag
    | readPayload payload n off _ hdrv _ _ _ _ => simp [hdrv] at hflag
    | seekAgain _ hdrv _ => simp [hdrv] at hflag
    | readAgain _ hdrv _ => simp [hdrv] at hflag
    | seekPayloadAgain _ _ hcon => simp [hcon] at hpc

/-- A message stored at the host's turn is to be announced. -/
lemma turnStage_host {m : HucMsg} (h : TurnStage c k) (ht : HostTurn c)
    (hstep : channelStep env c (.host m) = some c') : ∃ j, TurnStage c' j := by
  obtain ⟨heads, d, hset⟩ := h.of_hostTurn ht
  obtain ⟨hinj, rfl⟩ := step_host hstep
  refine ⟨_, .announcing m d 3 (holds_receive env c.dev m).header ?_ hset
    ⟨?_, Or.inl ⟨ht.2.2.1, rfl⟩⟩⟩
  · show c.headers ++ m.returns = (c.stored ++ [m]).flatMap HucMsg.returns
    rw [heads, List.flatMap_append, List.flatMap_singleton]
    rfl
  · rw [receive_irqStatus, ht.2.2.2, BitVec.zero_or]
    exact raisedBy_of_injects hinj

/-- The handler starts for a message to be announced. -/
lemma turnStage_irqRead (h : TurnStage c k) (hline : LineInv c.dev)
    (hstep : channelStep env c .irqRead = some c') : ∃ j < k, TurnStage c' j := by
  obtain ⟨hidle, hhigh, rfl⟩ := step_irqRead hstep
  have hacked : ∀ n, ¬Acked c n := by
    rintro n (⟨-, hzero, -⟩ | ⟨hack, -⟩)
    · exact hline.mp hhigh hzero
    · simp [hidle] at hack
  cases h with
  | settled d h _ _ hack => exact absurd hack (hacked h)
  | receiving m left d h _ _ _ hack => exact absurd hack (hacked h)
  | announcing m d h hdev heads hset hann =>
    obtain ⟨hcause, ⟨-, rfl⟩ | ⟨hwake, -⟩⟩ := hann
    · exact ⟨_, by omega, .announcing m d 2 hdev heads hset ⟨hcause, Or.inr ⟨rfl, rfl⟩⟩⟩
    · simp [hidle] at hwake

/-- The wake-up starts the receipt. -/
lemma turnStage_irqWake (h : TurnStage c k) (hstep : channelStep env c .irqWake = some c') :
    ∃ j < k, TurnStage c' j := by
  obtain ⟨v, hwake, rfl⟩ := step_irqWake hstep
  have hacked : ∀ n, ¬Acked c n := by
    rintro n (⟨hidle, -⟩ | ⟨hack, -⟩)
    · simp [hwake] at hidle
    · simp [hwake] at hack
  cases h with
  | settled d h _ _ hack => exact absurd hack (hacked h)
  | receiving m left d h _ _ _ hack => exact absurd hack (hacked h)
  | announcing m d h hdev heads hset hann =>
    obtain ⟨hcause, ⟨hidle, -⟩ | ⟨hwake', rfl⟩⟩ := hann
    · simp [hwake] at hidle
    · obtain rfl : v = c.dev.irqStatus := by simpa [hwake] using hwake'
      have hflag := (cause_spec hcause).2 c.drv
      obtain ⟨-, ⟨hpc, rfl⟩ | ⟨hr, rfl⟩⟩ := hset
      · exact ⟨_, by omega, .receiving m _ _ 1 hdev heads (.seekHeader hflag hpc)
          (Or.inr ⟨rfl, rfl⟩)⟩
      · exact ⟨_, by omega, .receiving m _ _ 1 hdev heads (.readHeader hflag hr)
          (Or.inr ⟨rfl, rfl⟩)⟩

/-- The acknowledgement ends the handler. -/
lemma turnStage_irqAck (h : TurnStage c k) (hstep : channelStep env c .irqAck = some c') :
    ∃ j < k, TurnStage c' j := by
  obtain ⟨v, hack, rfl⟩ := step_irqAck hstep
  have hacked : ∀ n, Acked c n → n = 1 ∧ v = c.dev.irqStatus := by
    rintro n (⟨hidle, -⟩ | ⟨hack', rfl⟩)
    · simp [hack] at hidle
    · exact ⟨rfl, by simpa [hack] using hack'⟩
  have hdone : ∀ n, Acked c n →
      Acked { c with dev := hucdevLowerIrq c.dev v, irq := .idle } 0 := by
    intro n hn
    rw [(hacked n hn).2]
    exact Or.inl ⟨rfl, BitVec.and_not_self c.dev.irqStatus, rfl⟩
  cases h with
  | settled d h heads hset hn =>
    obtain rfl := (hacked h hn).1
    exact ⟨_, by omega, .settled d 0 heads hset (hdone _ hn)⟩
  | receiving m left d h hdev heads hrec hn =>
    obtain rfl := (hacked h hn).1
    exact ⟨_, by omega, .receiving m left d 0 hdev heads hrec (hdone _ hn)⟩
  | announcing m d h _ _ _ hann =>
    rcases hann.2 with ⟨hidle, -⟩ | ⟨hwake, -⟩
    · simp [hack] at hidle
    · simp [hack] at hwake

/-- A settled daemon seeks to the header and then waits. -/
lemma Settled.daemonCall {d : ℕ} (h : Settled c d) (hcall : daemonCall c = some c') :
    c'.dev = c.dev ∧ c'.irq = c.irq ∧ c'.stored = c.stored ∧ c'.headers = c.headers ∧ d = 1 ∧
      Settled c' 0 := by
  obtain ⟨hflag, ⟨hpc, rfl⟩ | ⟨hr, -⟩⟩ := h
  · rw [daemonCall_seekHeader hpc, Option.some.injEq] at hcall
    subst hcall
    exact ⟨rfl, rfl, rfl, rfl, rfl, hflag, Or.inr ⟨rfl, rfl⟩⟩
  · rw [daemonCall_readHeader hr, if_pos (by omega)] at hcall
    contradiction

/-- A system call of the daemon takes the receipt on.

**Proof sketch.** A settled daemon stays settled, at a lower rank, and announces nothing. A daemon
that receives a message goes on with the receipt or has received it (`receipt_daemonCall`), and the
headers that it still has to return are the expected ones all along. -/
lemma turnStage_daemon (h : TurnStage c k) (hcall : daemonCall c = some c') :
    ∃ j < k, TurnStage c' j := by
  have hexp : c'.stored = c.stored → c'.expected = c.expected := by
    intro hstored
    rw [Channel.expected, Channel.expected, hstored]
  have hacked : ∀ n, c'.dev = c.dev → c'.irq = c.irq → Acked c n → Acked c' n := by
    intro n hdev hirq hn
    rw [Acked, hdev, hirq]
    exact hn
  cases h with
  | settled d h heads hset hack =>
    obtain ⟨hdev, hirq, hstored, hheads, rfl, hset'⟩ := hset.daemonCall hcall
    refine ⟨_, by omega, .settled 0 h ?_ hset' (hacked h hdev hirq hack)⟩
    rw [hheads, heads, hexp hstored]
  | announcing m d h hheader heads hset hann =>
    obtain ⟨hdev, hirq, hstored, hheads, rfl, hset'⟩ := hset.daemonCall hcall
    refine ⟨_, by omega, .announcing m 0 h ?_ ?_ hset' ?_⟩
    · rw [hdev, hheader]
    · rw [hheads, heads, hexp hstored]
    · rw [Announcing, hdev, hirq]
      exact hann
  | receiving m left d h hheader heads hrec hack =>
    obtain ⟨c'', hcall', hdev, hirq, hstored, hnext⟩ := receipt_daemonCall hrec hheader
    obtain rfl : c' = c'' := Option.some.inj (hcall.symm.trans hcall')
    rcases hnext with ⟨j, left', hj, hrec', hheads⟩ | ⟨j, hj, hset, hheads⟩
    · refine ⟨_, by omega, .receiving m left' j h ?_ ?_ hrec' (hacked h hdev hirq hack)⟩
      · rw [hdev, hheader]
      · rw [hheads, heads, hexp hstored]
    · refine ⟨_, by omega, .settled j h ?_ hset (hacked h hdev hirq hack)⟩
      rw [hheads, heads, hexp hstored]

/-- **Every step but the host's lowers the rank.** -/
lemma channelStep_turnStage {a : ChannelAct} (h : TurnStage c k) (hline : LineInv c.dev)
    (ha : a.message? = none) (hstep : channelStep env c a = some c') :
    ∃ j < k, TurnStage c' j := by
  cases a with
  | host m => simp [ChannelAct.message?] at ha
  | irqRead => exact turnStage_irqRead h hline hstep
  | irqWake => exact turnStage_irqWake h hstep
  | irqAck => exact turnStage_irqAck h hstep
  | daemon => exact turnStage_daemon h hstep

/-- Short of the host's turn, the handler or the daemon can take a step. -/
lemma exists_step_of_turnStage (env : HostEnv) (h : TurnStage c k) (hline : LineInv c.dev)
    (ht : ¬HostTurn c) : ∃ a c', ChannelAct.message? a = none ∧ channelStep env c a = some c' := by
  cases h with
  | settled d h heads hset hack =>
    rcases hack with ⟨hidle, hstatus, -⟩ | ⟨hack, -⟩
    · obtain ⟨hflag, hpc⟩ := hset
      refine absurd ⟨hflag, hpc.imp And.left ?_, hidle, hstatus⟩ ht
      rintro ⟨hr, -⟩
      rw [hr]
    · refine ⟨.irqAck, { c with dev := irqAck env c.dev c.dev.irqStatus, irq := .idle }, rfl, ?_⟩
      simp only [channelStep, hack]
  | receiving m left d h hheader heads hrec hn =>
    obtain ⟨c', hcall, -⟩ := receipt_daemonCall hrec hheader
    exact ⟨.daemon, c', rfl, hcall⟩
  | announcing m d h _ _ _ hann =>
    obtain ⟨hcause, ⟨hidle, -⟩ | ⟨hwake, -⟩⟩ := hann
    · exact ⟨.irqRead, _, rfl, if_pos ⟨hidle, hline.mpr (cause_spec hcause).1⟩⟩
    · refine ⟨.irqWake, { c with
        drv := irqWake c.drv c.dev.irqStatus
        irq := .ack c.dev.irqStatus }, rfl, ?_⟩
      simp only [channelStep, hwake]

/-- **The invariant of a run in which the host waits its turn.** -/
def TurnInv (c : Channel) : Prop := LineInv c.dev ∧ ∃ k, TurnStage c k

/-- A started daemon is about to wait. -/
lemma turnInv_start {dev : HucState} (hstatus : dev.irqStatus = 0#32)
    (hline : dev.irqLine = false) : TurnInv (Channel.start dev) := by
  refine ⟨by simp [LineInv, Channel.start, hstatus, hline], _, .settled 1 0 rfl ?_ ?_⟩
  · exact ⟨rfl, Or.inl ⟨rfl, rfl⟩⟩
  · exact Or.inl ⟨rfl, hstatus, rfl⟩

/-- A step keeps the invariant if the host waits its turn. -/
lemma channelStep_turnInv {a : ChannelAct} (h : TurnInv c) (hturn : SendInTurn c a)
    (hstep : channelStep env c a = some c') : TurnInv c' := by
  obtain ⟨hline, k, hstage⟩ := h
  refine ⟨channelStep_lineInv hline hstep, ?_⟩
  cases hmsg : a.message? with
  | some m =>
    obtain rfl : a = .host m := by cases a <;> simp_all [ChannelAct.message?]
    exact turnStage_host hstage hturn hstep
  | none =>
    obtain ⟨j, -, hj⟩ := channelStep_turnStage hstage hline hmsg hstep
    exact ⟨j, hj⟩

/-- **The host's turn comes again**, whatever the interleaving so far: the handler and the daemon
alone lead to it. -/
lemma exists_run_hostTurn (env : HostEnv) (h : TurnInv c) :
    ∃ acts c', (∀ a ∈ acts, ChannelAct.message? a = none) ∧
      run (channelStep env) c acts = some c' ∧ HostTurn c' := by
  obtain ⟨hline, k, hstage⟩ := h
  refine exists_run_of_rank (I := fun k c => LineInv c.dev ∧ TurnStage c k) ?_ ⟨hline, hstage⟩
  rintro k c ⟨hline, hstage⟩ ht
  obtain ⟨a, c', ha, hstep⟩ := exists_step_of_turnStage env hstage hline ht
  obtain ⟨j, hj, hstage'⟩ := channelStep_turnStage hstage hline ha hstep
  exact ⟨a, c', j, ha, hstep, hj, channelStep_lineInv hline hstep, hstage'⟩

end Steps

/-! ## Headers returned and headers sent -/

/-- At least one header is returned for each message. -/
lemma length_le_flatMap_returns (ms : List HucMsg) :
    ms.length ≤ (ms.flatMap HucMsg.returns).length := by
  induction ms with
  | nil => exact le_rfl
  | cons m ms ih =>
    rw [List.flatMap_cons, List.length_append, List.length_cons]
    have hpos : 1 ≤ m.returns.length := by
      unfold HucMsg.returns
      split_ifs <;> simp
    omega

/-- Each message has one header returned exactly if none is empty. -/
lemma flatMap_returns_eq_iff (ms : List HucMsg) :
    ms.flatMap HucMsg.returns = ms.map HucMsg.header ↔ ∀ m ∈ ms, m.payload ≠ [] := by
  induction ms with
  | nil => simp
  | cons m ms ih =>
    rw [List.flatMap_cons, List.map_cons, List.forall_mem_cons]
    by_cases hm : m.payload = []
    · rw [HucMsg.returns, if_pos hm]
      constructor
      · intro heq
        have hlen := congrArg List.length heq
        have hle := length_le_flatMap_returns ms
        simp only [List.length_append, List.length_cons, List.length_nil, List.length_map] at hlen
        omega
      · intro h
        exact absurd hm h.1
    · rw [HucMsg.returns, if_neg hm, List.singleton_append, List.cons_inj_right, ih]
      simp [hm]

section Turns

variable {env : HostEnv} {dev : HucState} {ms : List HucMsg} {acts : List ChannelAct} {c : Channel}

/-- The acts of the handler and the daemon meet the guard. -/
lemma along_of_no_message {as : List ChannelAct} (h : ∀ a ∈ as, a.message? = none) (c : Channel) :
    Along (channelStep env) SendInTurn c as := by
  refine along_of_forall (fun a ha _ => ?_) c
  cases a with
  | host m => simpa [ChannelAct.message?] using h _ ha
  | _ => trivial

/-- A run in which the host waits its turn keeps the invariant. -/
lemma TakesTurns.inv (h : TakesTurns env dev ms acts c) (hstatus : dev.irqStatus = 0#32)
    (hline : dev.irqLine = false) : TurnInv c :=
  invariant_of_run_along (fun _ _ _ => channelStep_turnInv) (turnInv_start hstatus hline) h.turns
    h.run

/-- The host's turn comes again in such a run. -/
lemma TakesTurns.exists_hostTurn (h : TakesTurns env dev ms acts c) (hstatus : dev.irqStatus = 0#32)
    (hline : dev.irqLine = false) :
    ∃ more c', TakesTurns env dev ms (acts ++ more) c' ∧ HostTurn c' := by
  obtain ⟨more, c', hmore, hrun, ht⟩ := exists_run_hostTurn env (h.inv hstatus hline)
  refine ⟨more, c', ⟨run_trans h.run hrun, h.turns.append h.run (along_of_no_message hmore c), ?_⟩,
    ht⟩
  rw [List.filterMap_append, h.sends, List.filterMap_eq_nil_iff.mpr hmore, List.append_nil]

/-- A further message can be stored at the host's turn. -/
lemma TakesTurns.send (h : TakesTurns env dev ms acts c) (ht : HostTurn c) {m : HucMsg}
    (hm : m.Injects) :
    ∃ c', TakesTurns env dev (ms ++ [m]) (acts ++ [.host m]) c' := by
  refine ⟨_, ⟨run_trans h.run ((run_singleton _ _).trans (if_pos hm)),
    h.turns.append h.run ⟨ht, fun _ _ => trivial⟩, ?_⟩⟩
  rw [List.filterMap_append, h.sends]
  rfl

/-- Every sequence of injection messages can be sent in turns. -/
lemma exists_takesTurns (env : HostEnv) (hstatus : dev.irqStatus = 0#32)
    (hline : dev.irqLine = false) (ms : List HucMsg) (hms : ∀ m ∈ ms, m.Injects) :
    ∃ acts c, TakesTurns env dev ms acts c ∧ HostTurn c := by
  induction ms using List.reverseRecOn with
  | nil => exact ⟨[], Channel.start dev, ⟨rfl, trivial, rfl⟩, rfl, Or.inl rfl, rfl, hstatus⟩
  | append_singleton ms m ih =>
    obtain ⟨acts, c, h, ht⟩ := ih fun m' hm' => hms m' (List.mem_append_left _ hm')
    obtain ⟨c₁, h₁⟩ := h.send ht (hms m (by simp))
    obtain ⟨more, c₂, h₂, ht₂⟩ := h₁.exists_hostTurn hstatus hline
    exact ⟨_, c₂, h₂, ht₂⟩

/-- At the host's turn the headers returned are those that are returned for the messages sent. -/
lemma TakesTurns.headers_eq (h : TakesTurns env dev ms acts c) (hstatus : dev.irqStatus = 0#32)
    (hline : dev.irqLine = false) (ht : HostTurn c) : c.headers = ms.flatMap HucMsg.returns := by
  obtain ⟨-, k, hstage⟩ := h.inv hstatus hline
  have hstored : c.stored = ms := (stored_of_run h.run).trans h.sends
  rw [(hstage.of_hostTurn ht).1, Channel.expected, hstored]

end Turns

/-- **When the headers returned are the headers sent.** Every sequence of injection messages can be
sent, each at the host's turn; after any interleaving the host's turn comes again; and whenever it
does, the headers that the calls of `recv_bytecode` have returned are those sent, in order and each
once, exactly if no message has an empty payload.

**Proof sketch.** By the invariant one header has been returned for each message, or two for a
message without payload. -/
theorem headers_eq_iff (env : HostEnv) {dev : HucState} (hstatus : dev.irqStatus = 0#32)
    (hline : dev.irqLine = false) (ms : List HucMsg) (hms : ∀ m ∈ ms, m.Injects) :
    (∃ acts c, TakesTurns env dev ms acts c ∧ HostTurn c) ∧
    (∀ acts c, TakesTurns env dev ms acts c →
      ∃ more c', TakesTurns env dev ms (acts ++ more) c' ∧ HostTurn c') ∧
    ∀ acts c, TakesTurns env dev ms acts c → HostTurn c →
      (c.headers = ms.map HucMsg.header ↔ ∀ m ∈ ms, m.payload ≠ []) := by
  refine ⟨exists_takesTurns env hstatus hline ms hms, ?_, ?_⟩
  · intro acts c h
    exact h.exists_hostTurn hstatus hline
  · intro acts c h ht
    rw [h.headers_eq hstatus hline ht, flatMap_returns_eq_iff]

/-- A message with four bytes is received once. -/
theorem headers_eq_iff_one :
    ∃ acts c, TakesTurns ⟨2, 0⟩ restState [smallMsg 1#8] acts c ∧ HostTurn c ∧
      c.headers = [(smallMsg 1#8).header] := by
  obtain ⟨⟨acts, c, h, ht⟩, -, hall⟩ :=
    @headers_eq_iff ⟨2, 0⟩ restState rfl rfl [smallMsg 1#8] (by decide)
  exact ⟨acts, c, h, ht, (hall acts c h ht).mpr (by decide)⟩

/-- An injection message without payload. -/
def emptyMsg : HucMsg := ⟨defaultVersion, MsgType.programInjection.code, [], by simp⟩

/-- The daemon seeks to the header; the message is stored and announced; the daemon reads. -/
def emptyTransfer : List ChannelAct :=
  [.daemon, .host emptyMsg, .irqRead, .irqWake, .irqAck] ++ List.replicate 6 .daemon

/-- **An empty message is received twice**: at the host's next turn the header of the only message
has been returned two times. -/
theorem header_repeated :
    emptyMsg.Injects ∧ ∃ c, TakesTurns ⟨2, 0⟩ restState [emptyMsg] emptyTransfer c ∧ HostTurn c ∧
      c.headers = [emptyMsg.header, emptyMsg.header] ∧
      c.headers ≠ [emptyMsg].map HucMsg.header := by
  have hrun : ∃ c, run (channelStep ⟨2, 0⟩) (Channel.start restState) emptyTransfer = some c ∧
      HostTurn c ∧ c.headers = [emptyMsg.header, emptyMsg.header] ∧
      c.headers ≠ [emptyMsg].map HucMsg.header := by
    refine ⟨(run (channelStep ⟨2, 0⟩) (Channel.start restState) emptyTransfer).get
      (by decide +kernel), (Option.some_get _).symm, ?_⟩
    decide +kernel
  obtain ⟨c, hrun, ht, heads⟩ := hrun
  refine ⟨by decide, c, ⟨hrun, ?_, rfl⟩, ht, heads⟩
  refine Along.cons trivial rfl (Along.cons ?_ rfl (along_of_no_message ?_ _))
  · exact ⟨rfl, Or.inr rfl, rfl, rfl⟩
  · decide

end Huc
