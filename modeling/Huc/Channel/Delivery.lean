import Huc.Channel.Basic

set_option relaxedAutoImplicit false
set_option autoImplicit false

/-!
# What the daemon receives

The device has one buffer, and nothing tells the host when the guest has read it. A message that is
stored while the daemon reads an earlier one replaces the rest of the payload, and the daemon
returns a mixture. The header, which is read in one access, is always that of a message; and a
payload is that of the same message when no other one has been stored until the last word was read.

## Main definitions

* `Huc.Intact` — what is guaranteed of a header and payload returned.
* `Huc.DeliveryInv` — the invariant.

## Main results

* `Huc.delivery_intact` — what every interleaving guarantees.
* `Huc.delivery_torn` — runs that return what no message was, one of them a mixture of two.
-/

namespace Huc

open Transition

/-- What is guaranteed of a delivery: its header is that of the message stored last when the header
was read, its payload is as long as the header says, and, when no message was stored until the
return and the payload fits the window, it is that message's. -/
def Intact (env : HostEnv) (stored : List HucMsg) (d : Delivery) : Prop :=
  0 < d.atHeader ∧ ∃ m, stored[d.atHeader - 1]? = some m ∧ d.header = m.header ∧
    d.payload.length = d.header.payloadLen.toNat ∧
    (d.atReturn = d.atHeader → m.payload.length ≤ windowBytes → d.payload = m.delivered env)

/-- The header read last is that of the message `m`. -/
def Channel.Saw (c : Channel) (m : HucMsg) : Prop := 0 < c.seen ∧ c.stored[c.seen - 1]? = some m

/-- What holds at each system call of the daemon. -/
def Channel.RecvOk (c : Channel) : Prop :=
  match c.recv.pc with
  | .seekHeader => True
  | .readHeader => c.recv.off = 16
  | .seekPayload h => ∃ m, c.Saw m ∧ h = m.header
  | .readPayload h payload left => ∃ m, c.Saw m ∧ h = m.header ∧
      c.recv.off = payloadOffset + payload.length ∧ payload.length % 4 = 0 ∧
      left = m.payload.length - payload.length ∧
      (c.seen = c.stored.length → Copied c.dev payload)

/-- **The invariant**: the buffer holds the message stored last, nothing was announced before the
first message, and every delivery was intact. -/
structure DeliveryInv (env : HostEnv) (c : Channel) : Prop where
  holds : ∀ m, c.stored.getLast? = some m → Holds env c.dev m
  fresh : c.stored = [] → c.dev.irqLine = false ∧ c.irq = .idle ∧ c.drv.flag = 0
  seen_le : c.seen ≤ c.stored.length
  recv_ok : c.RecvOk
  deliveries : ∀ d ∈ c.deliveries, Intact env c.stored d

section Steps

variable {env : HostEnv} {c c' : Channel}

/-- The message seen stays the same when another one is stored. -/
lemma Channel.Saw.store {m m' : HucMsg} (h : c.Saw m) (dev : HucState) :
    Channel.Saw { c with dev := dev, stored := c.stored ++ [m'] } m := by
  obtain ⟨hpos, hget⟩ := h
  obtain ⟨hlt, -⟩ := List.getElem?_eq_some_iff.mp hget
  exact ⟨hpos, (List.getElem?_append_left hlt).trans hget⟩

/-- A delivery stays intact when another message is stored. -/
lemma Intact.store {stored : List HucMsg} {d : Delivery} (h : Intact env stored d) (m' : HucMsg) :
    Intact env (stored ++ [m']) d := by
  obtain ⟨hpos, m, hget, hrest⟩ := h
  obtain ⟨hlt, -⟩ := List.getElem?_eq_some_iff.mp hget
  exact ⟨hpos, m, (List.getElem?_append_left hlt).trans hget, hrest⟩

/-- A message seen and not replaced is what the buffer holds. -/
lemma DeliveryInv.holds_saw (h : DeliveryInv env c) {m : HucMsg} (hsaw : c.Saw m)
    (hlast : c.seen = c.stored.length) : Holds env c.dev m := by
  apply h.holds
  rw [List.getLast?_eq_getElem?, ← hlast]
  exact hsaw.2

/-- Storing a message keeps the invariant: what is being read need no longer be in the buffer.

**Proof sketch.** The message stored last is the new one. What the daemon is in the middle of
reading was stored before, and its history goes on; the clause about the words read so far asks for
no message in between, and there is one now. -/
lemma deliveryInv_host {m : HucMsg} (h : DeliveryInv env c)
    (hstep : channelStep env c (.host m) = some c') : DeliveryInv env c' := by
  obtain ⟨-, rfl⟩ := step_host hstep
  have hle := h.seen_le
  refine
    { holds := fun m' hm' => ?_
      fresh := fun hcon => absurd hcon (by simp)
      seen_le := by simp only [List.length_append]; omega
      recv_ok := ?_
      deliveries := fun d hd => (h.deliveries d hd).store m }
  · obtain rfl : m = m' := by simpa using hm'
    exact holds_receive env c.dev m
  · have hok := h.recv_ok
    unfold Channel.RecvOk at hok ⊢
    cases hpc : c.recv.pc with
    | seekHeader => trivial
    | readHeader => simpa only [hpc] using hok
    | seekPayload hd =>
      simp only [hpc] at hok
      obtain ⟨m', hsaw, rfl⟩ := hok
      exact ⟨m', hsaw.store _, rfl⟩
    | readPayload hd payload left =>
      simp only [hpc] at hok
      obtain ⟨m', hsaw, rfl, hoff, hwords, hleft, -⟩ := hok
      refine ⟨m', hsaw.store _, rfl, hoff, hwords, hleft, ?_⟩
      intro hcon
      simp only [List.length_append, List.length_singleton] at hcon
      omega

/-- The handler's accesses keep the invariant: they do not touch the buffer. -/
lemma deliveryInv_irq (h : DeliveryInv env c) (hc' : c'.stored = c.stored ∧ c'.seen = c.seen ∧
    c'.recv = c.recv ∧ c'.deliveries = c.deliveries ∧ c'.dev.buf = c.dev.buf)
    (hne : c.stored ≠ []) : DeliveryInv env c' := by
  obtain ⟨hstored, hseen, hrecv, hdel, hbuf⟩ := hc'
  refine
    { holds := fun m hm => (h.holds m (hstored ▸ hm)).of_buf_eq hbuf
      fresh := fun hcon => absurd (hstored.symm.trans hcon) hne
      seen_le := by rw [hseen, hstored]; exact h.seen_le
      recv_ok := ?_
      deliveries := by rw [hdel, hstored]; exact h.deliveries }
  have hok := h.recv_ok
  unfold Channel.RecvOk Channel.Saw at hok ⊢
  rw [hrecv, hseen, hstored]
  cases hpc : c.recv.pc with
  | readPayload hd payload left =>
    simp only [hpc] at hok ⊢
    obtain ⟨m, hsaw, hhd, hoff, hwords, hleft, hcopied⟩ := hok
    exact ⟨m, hsaw, hhd, hoff, hwords, hleft, fun hlast => (hcopied hlast).of_buf_eq hbuf⟩
  | seekHeader => trivial
  | readHeader => simpa only [hpc] using hok
  | seekPayload hd => simpa only [hpc] using hok

/-- A message is stored before the handler runs or the flag is set. -/
lemma DeliveryInv.stored_ne_nil (h : DeliveryInv env c)
    (hann : c.dev.irqLine = true ∨ c.irq ≠ .idle ∨ 1 ≤ c.drv.flag) : c.stored ≠ [] := by
  intro hcon
  obtain ⟨hline, hirq, hflag⟩ := h.fresh hcon
  rcases hann with hann | hann | hann
  · rw [hline] at hann
    exact absurd hann (by decide)
  · exact hann hirq
  · omega

/-- The message seen is one of those stored. -/
lemma Channel.Saw.ne_nil {m : HucMsg} (h : c.Saw m) : c.stored ≠ [] := by
  intro hcon
  have hget := h.2
  rw [hcon] at hget
  simp at hget

/-- A return of `recv_bytecode` keeps the invariant when what it returns is intact. -/
lemma DeliveryInv.deliver (h : DeliveryInv env c) {drv : Driver} {off : ℕ} {hd : HucMsgHeader}
    {p : List Byte} (hne : c.stored ≠ [])
    (hnew : Intact env c.stored ⟨hd, p, c.seen, c.stored.length⟩) :
    DeliveryInv env
      (Channel.deliver { c with drv := drv, recv := ⟨.seekHeader, off⟩ } (some (hd, p))) where
  holds := h.holds
  fresh hcon := absurd hcon hne
  seen_le := h.seen_le
  recv_ok := trivial
  deliveries d hd' := by
    rcases List.mem_append.mp hd' with hold | hlast
    · exact h.deliveries d hold
    · rw [List.mem_singleton.mp hlast]
      exact hnew

/-- The read of a header keeps the invariant: the header is that of the message stored last. -/
lemma deliveryInv_readHeader (h : DeliveryInv env c) (hr : c.recv = ⟨.readHeader, 16⟩)
    (hcall : daemonCall c = some c') : DeliveryInv env c' := by
  rw [daemonCall_readHeader hr] at hcall
  split_ifs at hcall with hflag
  obtain rfl := Option.some.inj hcall
  have hne := h.stored_ne_nil (Or.inr (Or.inr (not_lt.mp hflag)))
  have hlast : c.stored.getLast? = some (c.stored.getLast hne) := List.getLast?_eq_some_getLast hne
  refine
    { holds := h.holds
      fresh := fun hcon => absurd hcon hne
      seen_le := le_rfl
      recv_ok := ⟨c.stored.getLast hne, ⟨List.length_pos_iff.mpr hne, ?_⟩, (h.holds _ hlast).header⟩
      deliveries := h.deliveries }
  rw [← hlast]
  exact List.getLast?_eq_getElem?.symm

/-- The seek to the payload keeps the invariant, also when it ends an empty message. -/
lemma deliveryInv_seekPayload (h : DeliveryInv env c) {hd : HucMsgHeader}
    (hpc : c.recv.pc = .seekPayload hd) (hcall : daemonCall c = some c') : DeliveryInv env c' := by
  have hok := h.recv_ok
  unfold Channel.RecvOk at hok
  simp only [hpc] at hok
  obtain ⟨m, hsaw, rfl⟩ := hok
  rw [daemonCall_seekPayload hpc, HucMsg.toNat_payloadLen] at hcall
  split_ifs at hcall with hn
  · obtain rfl := Option.some.inj hcall
    exact
      { holds := h.holds
        fresh := h.fresh
        seen_le := h.seen_le
        recv_ok := ⟨m, hsaw, rfl, rfl, rfl, by simp, fun _ => copied_nil c.dev⟩
        deliveries := h.deliveries }
  · obtain rfl := Option.some.inj hcall
    have hnil : m.payload.length = 0 := by omega
    refine h.deliver hsaw.ne_nil ⟨hsaw.1, m, hsaw.2, rfl, ?_, fun _ _ => ?_⟩
    · simp [hnil]
    · exact (List.eq_nil_of_length_eq_zero (by rw [length_delivered, hnil])).symm

/-- The read of a word of the payload keeps the invariant; with the last word the payload is as long
as the header says, and complete if no message has been stored since.

**Proof sketch.** Each word goes to its place (`Copied.append_word`). After the last one, the first
`payload_len` bytes are those of the buffer (`Copied.take_eq`), which still holds the message. -/
lemma deliveryInv_readPayload (h : DeliveryInv env c) {hd : HucMsgHeader} {payload : List Byte}
    {left : ℤ} (hpc : c.recv.pc = .readPayload hd payload left)
    (hcall : daemonCall c = some c') : DeliveryInv env c' := by
  have hok := h.recv_ok
  unfold Channel.RecvOk at hok
  simp only [hpc] at hok
  obtain ⟨m, hsaw, rfl, hoff, hwords, hleft, hcopied⟩ := hok
  have hr : c.recv = ⟨.readPayload m.header payload left, payloadOffset + payload.length⟩ := by
    rw [← hpc, ← hoff]
  rw [daemonCall_readPayload hr (by simp only [payloadOffset]; omega) rfl,
    HucMsg.toNat_payloadLen] at hcall
  split_ifs at hcall with hflag hmore
  · -- more words follow
    obtain rfl := Option.some.inj hcall
    refine
      { holds := h.holds
        fresh := fun hcon => absurd hcon hsaw.ne_nil
        seen_le := h.seen_le
        recv_ok := ⟨m, hsaw, rfl, ?_, ?_, ?_, fun hlast => (hcopied hlast).append_word⟩
        deliveries := h.deliveries }
    · simp only [List.length_append, length_leBytes]
      omega
    · simp only [List.length_append, length_leBytes]
      omega
    · simp only [List.length_append, length_leBytes]
      push_cast
      omega
  · -- the last word
    obtain rfl := Option.some.inj hcall
    have hlen : ∀ w : Word, m.payload.length ≤ (payload ++ leBytes w).length := by
      intro w
      rw [List.length_append, length_leBytes]
      omega
    refine h.deliver hsaw.ne_nil ⟨hsaw.1, m, hsaw.2, rfl, ?_, fun hlast hfits => ?_⟩
    · rw [HucMsg.toNat_payloadLen, List.length_take, Nat.min_eq_left (hlen _)]
    · have hlast' : c.seen = c.stored.length := hlast.symm
      have htake := (hcopied hlast').append_word.take_eq (hlen _) hfits
      exact htake.trans (h.holds_saw hsaw hlast').payload

/-- Every step keeps the invariant.

**Proof sketch.** The handler changes neither the buffer nor the daemon, and runs only after a
message was stored. The daemon's calls are the lemmas before, by the position of `recv_bytecode`. -/
lemma channelStep_deliveryInv {a : ChannelAct} (h : DeliveryInv env c)
    (hstep : channelStep env c a = some c') : DeliveryInv env c' := by
  cases a with
  | host m => exact deliveryInv_host h hstep
  | irqRead =>
    obtain ⟨-, hline, rfl⟩ := step_irqRead hstep
    exact deliveryInv_irq h ⟨rfl, rfl, rfl, rfl, rfl⟩ (h.stored_ne_nil (Or.inl hline))
  | irqWake =>
    obtain ⟨v, hi, rfl⟩ := step_irqWake hstep
    exact deliveryInv_irq h ⟨rfl, rfl, rfl, rfl, rfl⟩
      (h.stored_ne_nil (Or.inr (Or.inl (by rw [hi]; simp))))
  | irqAck =>
    obtain ⟨v, hi, rfl⟩ := step_irqAck hstep
    exact deliveryInv_irq h ⟨rfl, rfl, rfl, rfl, rfl⟩
      (h.stored_ne_nil (Or.inr (Or.inl (by rw [hi]; simp))))
  | daemon =>
    have hcall : daemonCall c = some c' := hstep
    cases hpc : c.recv.pc with
    | seekHeader =>
      rw [daemonCall_seekHeader hpc] at hcall
      obtain rfl := Option.some.inj hcall
      exact ⟨h.holds, h.fresh, h.seen_le, rfl, h.deliveries⟩
    | readHeader =>
      have hok := h.recv_ok
      unfold Channel.RecvOk at hok
      simp only [hpc] at hok
      exact deliveryInv_readHeader h (by rw [← hpc, ← hok]) hcall
    | seekPayload hd => exact deliveryInv_seekPayload h hpc hcall
    | readPayload hd payload left => exact deliveryInv_readPayload h hpc hcall

end Steps

/-! ## Deliveries over whole runs -/

/-- **What every interleaving guarantees.** Whenever `recv_bytecode` has returned, the header is
that of the message stored last when the header was read, the payload has the length the header
says, and, if no message was stored between the read of the header and the return and the payload
fits the window of BAR1, it is the payload of that message as the device presents it. -/
theorem delivery_intact (env : HostEnv) {dev : HucState} (hline : dev.irqLine = false)
    {acts : List ChannelAct} {c : Channel}
    (hrun : run (channelStep env) (Channel.start dev) acts = some c) :
    ∀ d ∈ c.deliveries, Intact env c.stored d := by
  have hstart : DeliveryInv env (Channel.start dev) :=
    { holds := fun m hm => by simp [Channel.start] at hm
      fresh := fun _ => ⟨hline, rfl, rfl⟩
      seen_le := le_rfl
      recv_ok := trivial
      deliveries := fun d hd => by simp [Channel.start] at hd }
  exact (invariant_of_run (fun _ _ _ => channelStep_deliveryInv) hstart hrun).deliveries

/-- An injection message of eight equal bytes, for closed examples. -/
def eightMsg (b : Byte) : HucMsg :=
  ⟨defaultVersion, MsgType.programInjection.code, List.replicate 8 b, by simp⟩

/-- A message is announced and read. -/
def wholeRead : List ChannelAct :=
  [.host (eightMsg 0xAA#8), .irqRead, .irqWake, .irqAck, .daemon, .daemon, .daemon, .daemon,
    .daemon]

/-- Undisturbed, the daemon receives the message. -/
theorem delivery_intact_eight :
    ∃ c, run (channelStep ⟨2, 0⟩) (Channel.start restState) wholeRead = some c ∧
      c.deliveries = [⟨(eightMsg 0xAA#8).header, List.replicate 8 0xAA#8, 1, 1⟩] ∧
      ∀ d ∈ c.deliveries, Intact ⟨2, 0⟩ c.stored d := by
  have hex : ∃ c, run (channelStep ⟨2, 0⟩) (Channel.start restState) wholeRead = some c ∧
      c.deliveries = [⟨(eightMsg 0xAA#8).header, List.replicate 8 0xAA#8, 1, 1⟩] := by
    refine ⟨(run (channelStep ⟨2, 0⟩) (Channel.start restState) wholeRead).get (by decide +kernel),
      (Option.some_get _).symm, ?_⟩
    decide +kernel
  obtain ⟨c, hrun, hdel⟩ := hex
  exact ⟨c, hrun, hdel, delivery_intact ⟨2, 0⟩ rfl hrun⟩

/-- A second message of the same length is stored when the first word of the first one has been
read. -/
def tornRead : List ChannelAct :=
  [.host (eightMsg 0xAA#8), .irqRead, .irqWake, .irqAck, .daemon, .daemon, .daemon, .daemon,
    .host (eightMsg 0xBB#8), .daemon]

/-- An affinity message is announced and read, undisturbed. -/
def affinityRead : List ChannelAct :=
  [.host ⟨defaultVersion, MsgType.programInjectionAffinity.code, List.replicate 8 0xAA#8, by simp⟩,
    .irqRead, .irqWake, .irqAck, .daemon, .daemon, .daemon, .daemon, .daemon]

/-- **Deliveries that nobody sent.** When a second message is stored in the middle of a read, what
the daemon receives is neither of the two messages; and an affinity message is received with the
vCPU count in it. -/
theorem delivery_torn :
    (∃ c, run (channelStep ⟨2, 0⟩) (Channel.start restState) tornRead = some c ∧
      c.stored = [eightMsg 0xAA#8, eightMsg 0xBB#8] ∧
      ∃ d ∈ c.deliveries, d.payload = List.replicate 4 0xAA#8 ++ List.replicate 4 0xBB#8 ∧
        ∀ m ∈ c.stored, ¬(d.header = m.header ∧ d.payload = m.payload)) ∧
    ∃ c, run (channelStep ⟨2, 0⟩) (Channel.start restState) affinityRead = some c ∧
      ∃ d ∈ c.deliveries, d.payload = [0xAA#8, 0xAA#8, 2#8, 0#8, 0xAA#8, 0xAA#8, 0xAA#8, 0xAA#8] ∧
        ∀ m ∈ c.stored, ¬(d.header = m.header ∧ d.payload = m.payload) := by
  constructor
  · refine ⟨(run (channelStep ⟨2, 0⟩) (Channel.start restState) tornRead).get (by decide +kernel),
      (Option.some_get _).symm, ?_⟩
    decide +kernel
  · refine ⟨(run (channelStep ⟨2, 0⟩) (Channel.start restState) affinityRead).get
      (by decide +kernel), (Option.some_get _).symm, ?_⟩
    decide +kernel

end Huc
