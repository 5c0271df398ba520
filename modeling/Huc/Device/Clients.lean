import Huc.Device.Framing
import Huc.Device.Server
import Mathlib.Data.List.Basic

set_option relaxedAutoImplicit false
set_option autoImplicit false

/-!
# Clients of the device

The host's tools are clients of one device: each connects to its port, sends the messages it has,
and closes the connection. `Huc.Server` shows the descriptors of the device; here are the clients
behind them, any number at a time, with what they have sent and the bytes of it that the device has
not received yet. The backlog is served in the order of the connects, and only the client that was
accepted last is read from. So the sessions never mix, whatever the order of events: the messages
are dispatched session by session, and a tool that sends two messages has the device to itself
between them.

This rests on three things that the device does not see to: that no `accept` fails, which would end
its service, that no call of `recv` comes back short, and that no connection breaks inside a
message, after either of which the stream is taken apart at the wrong places.

## Main definitions

* `Huc.Client`, `Huc.Clients` — the clients, with the device.
* `Huc.ClientAct`, `Huc.clientsStep` — what the clients and the device do.
* `Huc.WholeMessages` — the events that keep the messages whole.
* `Huc.afterMessages` — the device after a sequence of fully received messages.
* `Huc.ClientsInv` — the invariant.

## Main results

* `Huc.wire_append_inj` — where a message ends in the stream.
* `Huc.clientsStep_inv` — every event that keeps the messages whole keeps the invariant.
* `Huc.sessions_serial` — the dispatched messages are the sessions, one after the other.
* `Huc.sessions_served` — the device gets through the backlog.

## Design

The bytes of a connection that has broken may still arrive up to any place. A call of `recv` waits
for a byte or the end of the connection, on Linux also when it is asked for none: so a message
without payload is dispatched when the next one has come or the client has closed. Until then the
device is inside `handle_acceptfd`, where it does nothing else, and the event is counted at its end.
-/

namespace Huc

open Transition

/-! ## Clients -/

/-- A message of one byte, for closed examples. -/
def oneByte : HucMsg := ⟨1, 17, [7], by decide⟩

/-- A client: the messages it has sent, and the bytes of them that wait in the connection; whether
the client has closed it, and whether it broke. -/
structure Client where
  sent : List HucMsg
  pending : List Byte
  closed : Bool
  failed : Bool

/-- A client that has sent nothing. -/
def Client.new : Client := ⟨[], [], false, false⟩

/-- The device and its clients, numbered in the order in which they connect, the numbers of those
that have connected and that were accepted, and the types and payloads dispatched. -/
structure Clients where
  server : Server
  client : ℕ → Client
  connected : ℕ
  accepted : ℕ
  dispatched : List (Byte × List Byte)

/-- No client has connected to the listening device. -/
def Clients.start (dev : HucState) (sock : ℤ) : Clients :=
  ⟨Server.start dev sock, fun _ => .new, 0, 0, []⟩

/-- The events. -/
inductive ClientAct
  /-- A client connects. -/
  | connect
  /-- A client sends a message. -/
  | send (i : ℕ) (m : HucMsg)
  /-- A client closes its connection. -/
  | close (i : ℕ)
  /-- The connection breaks; of the bytes that wait in it `n` still arrive. -/
  | fail (i n : ℕ)
  /-- The device accepts the next client, or `accept` fails. -/
  | accept (fd : Option ℤ)
  /-- The device receives from the client, with the bytes cut like this. -/
  | receive (seg : ℕ → ℕ)
  /-- The device finds that the client has gone. -/
  | hangup

/-- The client that was accepted last. -/
def Clients.current (s : Clients) : ℕ := s.accepted - 1

/-- One event. -/
def clientsStep (env : HostEnv) (s : Clients) : ClientAct → Option Clients
  | .connect =>
    (serverStep env s.server .connect).map fun server =>
      { s with server := server, connected := s.connected + 1 }
  | .send i m =>
    if i < s.connected ∧ (s.client i).closed = false then
      some
        { s with
          client := Function.update s.client i
            { s.client i with
              sent := (s.client i).sent ++ [m]
              pending := (s.client i).pending ++ m.wire } }
    else none
  | .close i =>
    if i < s.connected then
      some { s with client := Function.update s.client i { s.client i with closed := true } }
    else none
  | .fail i n =>
    if i < s.connected then
      some
        { s with
          client := Function.update s.client i
            { s.client i with
              pending := (s.client i).pending.take n
              closed := true
              failed := true } }
    else none
  | .accept fd =>
    (serverStep env s.server (.accept fd)).map fun server =>
      { s with server := server, accepted := if fd = none then s.accepted else s.accepted + 1 }
  | .receive seg =>
    let c := s.client s.current
    let k : Socket := ⟨c.pending, seg⟩
    -- the second call of `recv` waits for a byte or the end, whatever it is asked for
    if (k.recv 4).2.stream ≠ [] ∨ c.closed = true then
      (serverStep env s.server (.message k)).map fun server =>
        let r := handleAcceptfd env s.server.dev k
        { s with
          server := server
          client := Function.update s.client s.current { c with pending := r.sock.stream }
          dispatched := s.dispatched ++ r.dispatched.toList }
    else none
  | .hangup =>
    if (s.client s.current).pending = [] ∧ (s.client s.current).closed = true then
      (serverStep env s.server
        (if (s.client s.current).failed then .recvError else .close)).map
          fun server => { s with server := server }
    else none

/-- The event keeps the messages whole: `accept` does not fail, a connection breaks between two
messages, and neither call of `recv` for a message comes back short. -/
def WholeMessages (s : Clients) : ClientAct → Prop
  | .accept fd => fd ≠ none
  | .fail i n => ∃ ms : List HucMsg, (s.client i).pending.take n = ms.flatMap HucMsg.wire
  | .receive seg => ∃ (m : HucMsg) (rest : List Byte),
      (s.client s.current).pending = m.wire ++ rest ∧ 4 ≤ seg 0 + 1 ∧
        m.payload.length ≤ seg 1 + 1
  | _ => True

/-- The event is one of the device, with an `accept` that succeeds and calls of `recv` that find all
they ask for. -/
def ClientAct.Serves : ClientAct → Prop
  | .accept fd => fd ≠ none
  | .receive seg => ∀ i, 65535 ≤ seg i
  | .hangup => True
  | _ => False

/-! ## Messages in the stream -/

/-- A message is at least its header. -/
lemma wire_append_ne_nil (m : HucMsg) (rest : List Byte) : m.wire ++ rest ≠ [] := by
  simp [HucMsg.wire, HucMsgHeader.bytes]

/-- **Where a message ends**: its header tells, so that a stream begins with one message only. -/
lemma wire_append_inj {m m' : HucMsg} {rest rest' : List Byte}
    (h : m.wire ++ rest = m'.wire ++ rest') : m = m' ∧ rest = rest' := by
  rw [HucMsg.wire, HucMsg.wire, List.append_assoc, List.append_assoc] at h
  obtain ⟨hbytes, htail⟩ := List.append_inj h rfl
  have hheader : m.header = m'.header := by
    simp only [HucMsgHeader.bytes, List.cons.injEq, and_true] at hbytes
    obtain ⟨h₀, h₁, h₂, h₃⟩ := hbytes
    rw [← HucMsgHeader.ofBytes_bytes m.header, h₀, h₁, h₂, h₃, HucMsgHeader.ofBytes_bytes]
  have hlen : m.payload.length = m'.payload.length := by
    rw [← HucMsg.toNat_payloadLen, hheader, HucMsg.toNat_payloadLen]
  obtain ⟨hpayload, hrest⟩ := List.append_inj htail hlen
  simp only [HucMsg.header, HucMsgHeader.mk.injEq] at hheader
  exact ⟨HucMsg.ext hheader.1 hheader.2.1 hpayload, hrest⟩

/-- No bytes are no messages. -/
lemma eq_nil_of_flatMap_wire {ms : List HucMsg} (h : ms.flatMap HucMsg.wire = []) : ms = [] := by
  cases ms with
  | nil => rfl
  | cons m ms => exact absurd h (wire_append_ne_nil m _)

/-- Whole messages at the beginning of a stream of messages are the first of them. -/
lemma prefix_of_flatMap_wire {ms ms' : List HucMsg}
    (h : ms'.flatMap HucMsg.wire <+: ms.flatMap HucMsg.wire) : ms' <+: ms := by
  induction ms' generalizing ms with
  | nil => exact List.nil_prefix
  | cons m' ms' ih =>
    obtain ⟨rest, hrest⟩ := h
    rw [List.flatMap_cons, List.append_assoc] at hrest
    cases ms with
    | nil => exact absurd hrest (wire_append_ne_nil m' _)
    | cons m ms =>
      obtain ⟨rfl, htail⟩ := wire_append_inj hrest
      exact List.prefix_cons_inj m' |>.mpr (ih ⟨rest, htail⟩)

/-! ## The device -/

/-- The device without its descriptors. -/
def HucState.withoutFds (s : HucState) : HucState := { s with listenFd := 0, connectFd := 0 }

/-- The device after a sequence of fully received messages. -/
def afterMessages (env : HostEnv) (s : HucState) (ms : List HucMsg) : HucState :=
  ms.foldl (fun s m => (receive env s m).1) s

/-- The last message comes last. -/
lemma afterMessages_concat (env : HostEnv) (s : HucState) (ms : List HucMsg) (m : HucMsg) :
    afterMessages env s (ms ++ [m]) = (receive env (afterMessages env s ms) m).1 := by
  rw [afterMessages, List.foldl_append]
  rfl

/-- What a message does to the device does not depend on the descriptors. -/
lemma withoutFds_receive (env : HostEnv) (s : HucState) (m : HucMsg) :
    (receive env s m).1.withoutFds = (receive env s.withoutFds m).1 := by
  have hstore : s.withoutFds.store m = (s.store m).withoutFds := rfl
  have hheader : (s.store m).withoutFds.header = (s.store m).header := rfl
  rw [receive, receive, hstore, dispatch, dispatch, hheader]
  cases MsgType.ofCode? (s.store m).header.type with
  | none => rfl
  | some t => cases t <;> rfl

section Events

variable {env : HostEnv} {s t : Server}

/-- **A message at the head of the connection** is received as a whole. -/
lemma step_message_wire {m : HucMsg} {rest : List Byte} {seg : ℕ → ℕ} (h₀ : 4 ≤ seg 0 + 1)
    (h₁ : m.payload.length ≤ seg 1 + 1)
    (h : serverStep env s (.message ⟨m.wire ++ rest, seg⟩) = some t) :
    s.watched s.dev.connectFd = some .acceptfd ∧
      t = { s with dev := { (receive env s.dev m).1 with
        listenFd := s.dev.listenFd, connectFd := s.dev.connectFd } } := by
  have hfds : (receive env s.dev m).1 = { (receive env s.dev m).1 with
      listenFd := s.dev.listenFd, connectFd := s.dev.connectFd } := by
    obtain ⟨hlisten, hconnect, -⟩ := dispatch_fds env (s.dev.store m) s.watched
    change (receive env s.dev m).1.listenFd = s.dev.listenFd at hlisten
    change (receive env s.dev m).1.connectFd = s.dev.connectFd at hconnect
    rw [← hlisten, ← hconnect]
  have hwatch := (dispatch_fds env (s.dev.store m) s.watched).2.2
  simp only [serverStep, Server.acceptfd] at h
  split_ifs at h with hne hwatched
  refine ⟨hwatched.1, ?_⟩
  rw [handleAcceptfd_wire env s.dev m _ seg h₀ h₁] at h
  rw [← Option.some.inj h, ← hfds]
  change { s with
    dev := (receive env s.dev m).1, watched := (dispatch env (s.dev.store m)).2.foldl perform
      s.watched } = { s with dev := (receive env s.dev m).1 }
  rw [hwatch]

end Events

/-! ## The invariant -/

/-- What has been sent on a connection that holds is received or waits; on one that broke, what was
received and what waits was sent first. Whole messages wait. -/
structure Client.Ok (c : Client) (received : List HucMsg) : Prop where
  pending : ∃ ms, c.pending = ms.flatMap HucMsg.wire ∧ received ++ ms <+: c.sent ∧
    (c.failed = false → c.sent = received ++ ms)
  closed : c.failed = true → c.closed = true

/-- **The invariant**, with the messages that were received from each client. The backlog holds the
clients that were not accepted, of which nothing was received; those that were served before the
current one have gone; and the messages dispatched are those received, one client after the
other. -/
structure ClientsInv (env : HostEnv) (dev₀ : HucState) (received : ℕ → List HucMsg)
    (s : Clients) : Prop where
  watch : WatchInv s.server
  backlog : s.server.backlog + s.accepted = s.connected
  some_accepted : s.server.dev.connectFd ≠ -1 → 0 < s.accepted
  client : ∀ i, (s.client i).Ok (received i)
  served : ∀ i < s.accepted, i + 1 < s.accepted ∨ s.server.dev.connectFd = -1 →
    (s.client i).closed = true ∧ (s.client i).pending = []
  waiting : ∀ i, s.accepted ≤ i → received i = []
  dispatched : s.dispatched = (List.range s.accepted).flatMap fun i =>
    (received i).map HucMsg.pair
  device : s.server.dev.withoutFds =
    afterMessages env dev₀ ((List.range s.accepted).flatMap received)

namespace Client.Ok

variable {c : Client} {received : List HucMsg}

/-- A client that sends. -/
lemma send (h : c.Ok received) (m : HucMsg) (hopen : c.closed = false) :
    Client.Ok { c with sent := c.sent ++ [m], pending := c.pending ++ m.wire } received := by
  obtain ⟨ms, hpending, -, hsent⟩ := h.pending
  have hfailed : c.failed = false := by
    rcases hf : c.failed with _ | _
    · rfl
    · exact absurd (h.closed hf) (by simp [hopen])
  have hall : c.sent ++ [m] = received ++ (ms ++ [m]) := by
    rw [hsent hfailed, List.append_assoc]
  refine ⟨⟨ms ++ [m], ?_, by rw [hall], fun _ => hall⟩, h.closed⟩
  simp only [hpending, List.flatMap_append, List.flatMap_singleton]

/-- A connection that breaks between two messages. -/
lemma fail (h : c.Ok received) {n : ℕ} {ms : List HucMsg}
    (hwhole : c.pending.take n = ms.flatMap HucMsg.wire) :
    Client.Ok { c with pending := c.pending.take n, closed := true, failed := true } received := by
  obtain ⟨all, hpending, hprefix, -⟩ := h.pending
  refine ⟨⟨ms, hwhole, ?_, fun hf => absurd hf (by simp)⟩, fun _ => rfl⟩
  have hms : ms <+: all := by
    refine prefix_of_flatMap_wire ?_
    rw [← hwhole, ← hpending]
    exact List.take_prefix n _
  exact ((List.prefix_append_right_inj received).mpr hms).trans hprefix

/-- A message that is received. -/
lemma receive (h : c.Ok received) {m : HucMsg} {rest : List Byte}
    (hhead : c.pending = m.wire ++ rest) :
    Client.Ok { c with pending := rest } (received ++ [m]) := by
  obtain ⟨ms, hpending, hprefix, hsent⟩ := h.pending
  cases ms with
  | nil => exact absurd (hhead.symm.trans hpending) (wire_append_ne_nil m rest)
  | cons m' ms =>
    obtain ⟨rfl, hrest⟩ := wire_append_inj (hhead.symm.trans hpending)
    have hsplit : received ++ [m] ++ ms = received ++ m :: ms := List.append_assoc ..
    exact ⟨⟨ms, hrest, hsplit ▸ hprefix, fun hf => hsplit ▸ hsent hf⟩, h.closed⟩

/-- What was received was sent first. -/
lemma prefix_sent (h : c.Ok received) : received <+: c.sent := by
  obtain ⟨ms, -, hprefix, -⟩ := h.pending
  exact (List.prefix_append received ms).trans hprefix

/-- Where nothing waits, everything was received, unless the connection broke. -/
lemma received_eq (h : c.Ok received) (hpending : c.pending = []) (hf : c.failed = false) :
    received = c.sent := by
  obtain ⟨ms, hms, -, hsent⟩ := h.pending
  rw [hsent hf, eq_nil_of_flatMap_wire (hms.symm.trans hpending), List.append_nil]

end Client.Ok

/-- What came from one client more comes last. -/
lemma flatMap_range_succ {α : Type} (f : ℕ → List α) (n : ℕ) :
    (List.range (n + 1)).flatMap f = (List.range n).flatMap f ++ f n := by
  rw [List.range_succ, List.flatMap_append, List.flatMap_singleton]

section Invariant

variable {env : HostEnv} {dev₀ : HucState} {received : ℕ → List HucMsg} {s t : Clients}

/-- At the start there is no client. -/
lemma clientsInv_start (dev : HucState) {sock : ℤ} (h : 0 ≤ sock) :
    ClientsInv env (Server.start dev sock).dev.withoutFds (fun _ => [])
      (Clients.start dev sock) where
  watch := watchInv_start dev h
  backlog := rfl
  some_accepted hne := by
    have hreal : (hucRealize dev sock true).1.connectFd = -1 := by
      simp [hucRealize, not_lt.mpr h]
    exact absurd hreal hne
  client _ := ⟨⟨[], rfl, List.prefix_rfl, fun _ => rfl⟩, fun hf => absurd hf Bool.false_ne_true⟩
  served i hi := absurd hi (Nat.not_lt_zero i)
  waiting _ _ := rfl
  dispatched := rfl
  device := rfl

/-- What happens at one client's end keeps the invariant, if nothing is received and a client that
has gone stays as it is. -/
lemma ClientsInv.update (h : ClientsInv env dev₀ received s) {i : ℕ} {c : Client}
    (hc : c.Ok (received i))
    (hgone : (s.client i).closed = true → (s.client i).pending = [] →
      c.closed = true ∧ c.pending = []) :
    ClientsInv env dev₀ received { s with client := Function.update s.client i c } := by
  refine { h with client := fun j => ?_, served := fun j hj hgo => ?_ }
  · dsimp only
    by_cases hj : j = i
    · rw [hj, Function.update_self]
      exact hc
    · rw [Function.update_of_ne hj]
      exact h.client j
  · obtain ⟨hclosed, hpending⟩ := h.served j hj hgo
    dsimp only
    by_cases hji : j = i
    · subst hji
      rw [Function.update_self]
      exact hgone hclosed hpending
    · rw [Function.update_of_ne hji]
      exact ⟨hclosed, hpending⟩

/-- An `accept` that succeeds keeps the invariant: the client before has gone.

**Proof sketch.** The device listens again only when the client before has gone, and then nothing of
it waits. The new client is the next one in the queue; nothing has been received from it, so that
what has been dispatched stays as it is. -/
lemma ClientsInv.accept (h : ClientsInv env dev₀ received s) {fd : ℤ}
    (hstep : clientsStep env s (.accept (some fd)) = some t) : ClientsInv env dev₀ received t := by
  obtain ⟨server, hserver, rfl⟩ := Option.map_eq_some_iff.mp hstep
  have hwatch := serverStep_watchInv h.watch (by trivial : (ServerAct.accept (some fd)).AcceptOk)
    hserver
  have hpos : 0 < s.server.backlog := by
    simp only [serverStep] at hserver
    split_ifs at hserver with hl
    exact hl.2.2
  obtain ⟨hlisten, hfd, -, rfl⟩ := step_accept_some hserver
  have hidle := h.watch.connectFd_eq hlisten
  have hbacklog := h.backlog
  have hnone : received s.accepted = [] := h.waiting _ le_rfl
  simp only [reduceCtorEq, if_false]
  refine
    { watch := hwatch
      backlog := by dsimp only; omega
      some_accepted := fun _ => Nat.succ_pos _
      client := h.client
      served := fun i hi hgo => ?_
      waiting := fun i hi => h.waiting i (by dsimp only at hi; omega)
      dispatched := ?_
      device := ?_ }
  · dsimp only at hi hgo
    refine h.served i ?_ (Or.inr hidle)
    rcases hgo with hlt | heq
    · omega
    · omega
  · dsimp only
    rw [flatMap_range_succ, hnone, List.map_nil, List.append_nil]
    exact h.dispatched
  · dsimp only
    rw [flatMap_range_succ, hnone, List.append_nil]
    exact h.device

/-- **A message received keeps the invariant**: it comes from the client accepted last.

**Proof sketch.** Only the current client and the device change. The message is added to those
received from that client, which come last among all that were received. -/
lemma ClientsInv.receive (h : ClientsInv env dev₀ received s) {seg : ℕ → ℕ}
    (hwhole : WholeMessages s (.receive seg)) (hstep : clientsStep env s (.receive seg) = some t) :
    ∃ received', ClientsInv env dev₀ received' t := by
  obtain ⟨m, rest, hhead, h₀, h₁⟩ := hwhole
  simp only [clientsStep, hhead] at hstep
  split_ifs at hstep
  obtain ⟨server, hserver, rfl⟩ := Option.map_eq_some_iff.mp hstep
  have hwatch := serverStep_watchInv h.watch (by trivial : (ServerAct.message _).AcceptOk) hserver
  obtain ⟨hcon, rfl⟩ := step_message_wire h₀ h₁ hserver
  have hne := h.watch.connectFd_ne hcon
  have hpos := h.some_accepted hne
  have hcur : s.current + 1 = s.accepted := by
    rw [Clients.current]
    omega
  have hother : ∀ j, j ≠ s.current →
      Function.update received s.current (received s.current ++ [m]) j = received j :=
    fun j hj => Function.update_of_ne hj _ _
  have hbefore : ∀ j ∈ List.range s.current,
      Function.update received s.current (received s.current ++ [m]) j = received j :=
    fun j hj => hother j (by have := List.mem_range.mp hj; omega)
  simp only [handleAcceptfd_wire env s.server.dev m rest seg h₀ h₁]
  refine ⟨Function.update received s.current (received s.current ++ [m]),
    { watch := hwatch
      backlog := h.backlog
      some_accepted := h.some_accepted
      client := fun j => ?_
      served := fun j hj hgo => ?_
      waiting := fun j hj => ?_
      dispatched := ?_
      device := ?_ }⟩
  · dsimp only
    by_cases hj : j = s.current
    · rw [hj, Function.update_self, Function.update_self]
      exact (h.client s.current).receive hhead
    · rw [hother j hj, Function.update_of_ne hj]
      exact h.client j
  · dsimp only at hj hgo ⊢
    have hji : j ≠ s.current := by
      rcases hgo with hlt | heq
      · omega
      · exact absurd heq hne
    rw [Function.update_of_ne hji]
    exact h.served j hj hgo
  · dsimp only at hj
    rw [hother j (by omega)]
    exact h.waiting j hj
  · dsimp only
    rw [h.dispatched, ← hcur, flatMap_range_succ, flatMap_range_succ, Function.update_self,
      List.map_append,
      List.flatMap_congr fun j hj => congrArg (List.map HucMsg.pair) (hbefore j hj),
      List.append_assoc]
    rfl
  · dsimp only
    rw [← hcur, flatMap_range_succ, Function.update_self, List.flatMap_congr hbefore,
      ← List.append_assoc, afterMessages_concat]
    have hdevice := h.device
    rw [← hcur, flatMap_range_succ] at hdevice
    rw [← hdevice, ← withoutFds_receive]
    rfl

/-- A client that is found to have gone keeps the invariant: nothing of it waits.

**Proof sketch.** The current client has gone and nothing of it waits, so that it counts as served;
the clients before it were served already. The device closes the connection and dispatches
nothing. -/
lemma ClientsInv.hangup (h : ClientsInv env dev₀ received s)
    (hstep : clientsStep env s .hangup = some t) : ClientsInv env dev₀ received t := by
  simp only [clientsStep] at hstep
  split_ifs at hstep with hgone hfailed
  all_goals
    obtain ⟨server, hserver, rfl⟩ := Option.map_eq_some_iff.mp hstep
    have hwatch := serverStep_watchInv h.watch (by trivial) hserver
    obtain ⟨-, -, rfl⟩ := acceptfd_closed hserver
    refine
      { watch := hwatch
        backlog := h.backlog
        some_accepted := fun hne => absurd rfl hne
        client := h.client
        served := fun i hi _ => ?_
        waiting := h.waiting
        dispatched := h.dispatched
        device := h.device }
    dsimp only at hi ⊢
    by_cases hi' : i + 1 < s.accepted
    · exact h.served i hi (Or.inl hi')
    · have hcur : i = s.current := by
        rw [Clients.current]
        omega
      rw [hcur]
      exact ⟨hgone.2, hgone.1⟩

/-- **Every event that keeps the messages whole keeps the invariant.**

**Proof sketch.** Connects, sends, closes and breaks concern one client, whose clause is kept
(`ClientsInv.update`): a send appends a message to what waits, and a break leaves whole messages of
it. The events of the device are the lemmas before. -/
lemma clientsStep_inv {a : ClientAct} (h : ∃ received, ClientsInv env dev₀ received s)
    (hwhole : WholeMessages s a) (hstep : clientsStep env s a = some t) :
    ∃ received, ClientsInv env dev₀ received t := by
  obtain ⟨received, h⟩ := h
  cases a with
  | connect =>
    obtain rfl := Option.some.inj hstep
    have hbacklog := h.backlog
    exact ⟨received,
      { h with
        watch := @serverStep_watchInv env _ _ .connect h.watch trivial rfl
        backlog := by dsimp only; omega }⟩
  | send i m =>
    simp only [clientsStep] at hstep
    split_ifs at hstep with hopen
    obtain rfl := Option.some.inj hstep
    refine ⟨received, h.update ((h.client i).send m hopen.2) ?_⟩
    intro hclosed
    exact absurd hclosed (by simp [hopen.2])
  | close i =>
    simp only [clientsStep] at hstep
    split_ifs at hstep
    obtain rfl := Option.some.inj hstep
    exact ⟨received, h.update ⟨(h.client i).pending, fun _ => rfl⟩ fun _ hpending =>
      ⟨rfl, hpending⟩⟩
  | fail i n =>
    simp only [clientsStep] at hstep
    split_ifs at hstep
    obtain rfl := Option.some.inj hstep
    obtain ⟨ms, hms⟩ := hwhole
    refine ⟨received, h.update ((h.client i).fail hms) fun _ hpending => ⟨rfl, ?_⟩⟩
    dsimp only
    rw [hpending, List.take_nil]
  | accept fd =>
    cases fd with
    | none => exact absurd rfl hwhole
    | some fd => exact ⟨received, h.accept hstep⟩
  | receive seg => exact h.receive hwhole hstep
  | hangup => exact ⟨received, h.hangup hstep⟩

end Invariant

/-- **The sessions are served one after the other.** For any number of clients and every order of
their connects, messages, closes and breaks with the events of the device, in which no `accept`
fails, no call of `recv` comes back short and no connection breaks inside a message: the messages
that the device has dispatched are those received from the first client, then those from the second,
and so on; from each client they are the first it has sent, and all of them from a client that was
served before the last one, unless its connection broke; from a client that was not accepted, none;
and the device is as the received messages have left it.

**Proof sketch.** The invariant `ClientsInv`. Only the client that was accepted last is read from,
and the next one is accepted when it has gone. -/
theorem sessions_serial (env : HostEnv) (dev : HucState) {sock : ℤ} (hsock : 0 ≤ sock)
    {acts : List ClientAct} {s : Clients}
    (hrun : run (clientsStep env) (Clients.start dev sock) acts = some s)
    (hwhole : Along (clientsStep env) WholeMessages (Clients.start dev sock) acts) :
    ∃ received : ℕ → List HucMsg,
      s.dispatched = (List.range s.accepted).flatMap (fun i => (received i).map HucMsg.pair) ∧
      (∀ i, received i <+: (s.client i).sent) ∧
      (∀ i, i + 1 < s.accepted → (s.client i).closed = true ∧
        ((s.client i).failed = false → received i = (s.client i).sent)) ∧
      (∀ i, s.accepted ≤ i → received i = []) ∧
      s.server.dev.withoutFds = afterMessages env (Server.start dev sock).dev.withoutFds
        ((List.range s.accepted).flatMap received) := by
  obtain ⟨received, h⟩ : ∃ received,
      ClientsInv env (Server.start dev sock).dev.withoutFds received s :=
    invariant_of_run_along (fun _ _ _ h hw hstep => clientsStep_inv h hw hstep)
      ⟨_, clientsInv_start dev hsock⟩ hwhole hrun
  refine ⟨received, h.dispatched, fun i => (h.client i).prefix_sent, fun i hi => ?_, h.waiting,
    h.device⟩
  obtain ⟨hclosed, hpending⟩ := h.served i (by omega) (Or.inl hi)
  exact ⟨hclosed, (h.client i).received_eq hpending⟩

/-- Two clients connect and send, and the first is accepted and closes its connection. -/
def twoSessions : List ClientAct :=
  [.connect, .connect, .send 1 twoByteMsg, .send 0 oneByte, .accept (some 5), .send 1 oneByte,
    .close 0]

/-- The first client is served and the second accepted. -/
def secondAccepted : List ClientAct :=
  twoSessions ++ [.receive fun _ => 65535, .hangup, .accept (some 6)]

/-- The second client's connection breaks behind the first of its two messages. -/
def secondBroken : List ClientAct := secondAccepted ++ [.fail 1 6]

/-- The first of the two messages of the second client is dispatched after the first client's, and
the other one is lost. -/
theorem sessions_serial_two :
    ∃ s, run (clientsStep ⟨2, 0⟩) (Clients.start restState 3)
        (secondBroken ++ [.receive fun _ => 65535]) = some s ∧
      s.dispatched = [oneByte.pair, twoByteMsg.pair] ∧
      ∃ received : ℕ → List HucMsg,
        s.dispatched = (List.range s.accepted).flatMap (fun i => (received i).map HucMsg.pair) ∧
        ∀ i, received i <+: (s.client i).sent := by
  have hvals : (run (clientsStep ⟨2, 0⟩) (Clients.start restState 3)
      (secondBroken ++ [.receive fun _ => 65535])).map (fun s => s.dispatched) =
        some [oneByte.pair, twoByteMsg.pair] := by decide +kernel
  have hfirst : (run (clientsStep ⟨2, 0⟩) (Clients.start restState 3) twoSessions).map
      (fun s => (s.client s.current).pending) = some (oneByte.wire ++ []) := by decide +kernel
  have hbreak : (run (clientsStep ⟨2, 0⟩) (Clients.start restState 3) secondAccepted).map
      (fun s => (s.client 1).pending.take 6) = some ([twoByteMsg].flatMap HucMsg.wire) := by
    decide +kernel
  have hsecond : (run (clientsStep ⟨2, 0⟩) (Clients.start restState 3) secondBroken).map
      (fun s => (s.client s.current).pending) = some (twoByteMsg.wire ++ []) := by decide +kernel
  obtain ⟨s, hrun, hs⟩ := Option.map_eq_some_iff.mp hvals
  obtain ⟨t₁, hrun₁, h₁⟩ := Option.map_eq_some_iff.mp hfirst
  obtain ⟨t₂, hrun₂, h₂⟩ := Option.map_eq_some_iff.mp hbreak
  obtain ⟨t₃, hrun₃, h₃⟩ := Option.map_eq_some_iff.mp hsecond
  have hreceive : WholeMessages t₁ (.receive fun _ => 65535) :=
    ⟨oneByte, [], h₁, by decide, by decide⟩
  have hfail : WholeMessages t₂ (.fail 1 6) := ⟨[twoByteMsg], h₂⟩
  have hreceive' : WholeMessages t₃ (.receive fun _ => 65535) :=
    ⟨twoByteMsg, [], h₃, by decide, by decide⟩
  have hwhole₁ : Along (clientsStep ⟨2, 0⟩) WholeMessages (Clients.start restState 3) twoSessions :=
    along_of_forall (by simp [twoSessions, WholeMessages]) _
  have hwhole₂ : Along (clientsStep ⟨2, 0⟩) WholeMessages (Clients.start restState 3)
      secondAccepted :=
    hwhole₁.append hrun₁ ⟨hreceive, fun _ _ => along_of_forall (by simp [WholeMessages]) _⟩
  have hwhole₃ : Along (clientsStep ⟨2, 0⟩) WholeMessages (Clients.start restState 3)
      secondBroken := hwhole₂.append hrun₂ ⟨hfail, fun _ _ => trivial⟩
  obtain ⟨received, hdispatched, hprefix, -⟩ := sessions_serial ⟨2, 0⟩ restState (by decide) hrun
    (hwhole₃.append hrun₃ ⟨hreceive', fun _ _ => trivial⟩)
  exact ⟨s, hrun, hs, received, hdispatched, hprefix⟩

/-! ## Getting through the backlog -/

/-- What the device still has to do for the clients: to receive the bytes that wait, an `accept` and
the end of the connection for each client in the backlog, and the end of the connection of the
current one. -/
def Clients.work (s : Clients) : ℕ :=
  ∑ i ∈ Finset.range s.connected, (s.client i).pending.length + 2 * (s.connected - s.accepted) +
    if s.server.dev.connectFd = -1 then 0 else 1

/-- The clients of two states have sent the same and have gone the same way. -/
structure SameClients (s t : Clients) : Prop where
  connected : t.connected = s.connected
  sent : ∀ i, (t.client i).sent = (s.client i).sent
  closed : ∀ i, (t.client i).closed = (s.client i).closed
  failed : ∀ i, (t.client i).failed = (s.client i).failed

/-- A state has its own clients. -/
lemma SameClients.rfl {s : Clients} : SameClients s s :=
  ⟨Eq.refl _, fun _ => Eq.refl _, fun _ => Eq.refl _, fun _ => Eq.refl _⟩

/-- Two steps that keep the clients keep them together. -/
lemma SameClients.trans {s t u : Clients} (h : SameClients s t) (h' : SameClients t u) :
    SameClients s u where
  connected := h'.connected.trans h.connected
  sent i := (h'.sent i).trans (h.sent i)
  closed i := (h'.closed i).trans (h.closed i)
  failed i := (h'.failed i).trans (h.failed i)

/-- Bytes that are received leave the clients as they are otherwise. -/
lemma sameClients_update (s : Clients) (i : ℕ) (rest : List Byte) (server : Server)
    (dispatched : List (Byte × List Byte)) :
    SameClients s
      { s with
        server := server
        client := Function.update s.client i { s.client i with pending := rest }
        dispatched := dispatched } := by
  refine ⟨Eq.refl _, fun j => ?_, fun j => ?_, fun j => ?_⟩
  all_goals
    dsimp only
    by_cases hj : j = i
    · rw [hj, Function.update_self]
    · rw [Function.update_of_ne hj]

/-- There is always a descriptor that is not open. -/
lemma exists_fresh (fds : List ℤ) : ∃ fd : ℤ, 0 ≤ fd ∧ fd ∉ fds := by
  obtain ⟨n, hn⟩ := Infinite.exists_notMem_finset (fds.map Int.toNat).toFinset
  refine ⟨n, Int.natCast_nonneg n, fun hmem => hn ?_⟩
  rw [List.mem_toFinset]
  exact List.mem_map.mpr ⟨n, hmem, Int.toNat_natCast n⟩

section Progress

variable {env : HostEnv} {dev₀ : HucState} {received : ℕ → List HucMsg} {s : Clients}

/-- The event of the device keeps the messages whole and leads on, with less work left. -/
def Clients.Advances (env : HostEnv) (s : Clients) : Prop :=
  ∃ a t, a.Serves ∧ WholeMessages s a ∧ clientsStep env s a = some t ∧ t.work < s.work ∧
    SameClients s t

/-- The device can go on with a connection. -/
lemma ClientsInv.acceptfd_enabled (h : ClientsInv env dev₀ received s)
    (hcon : s.server.dev.connectFd ≠ -1) (k : Socket) :
    ∃ server, s.server.acceptfd env k = some server := by
  have hwatch : s.server.watched s.server.dev.connectFd = some .acceptfd := by
    rw [h.watch.watch, Server.current, if_neg hcon, if_pos rfl, Server.handler, if_neg hcon]
  rw [Server.acceptfd, if_pos ⟨hwatch, (h.watch.connected hcon).1⟩]
  exact ⟨_, rfl⟩

/-- A connection of which nothing waits any more is found to have ended. -/
lemma ClientsInv.advances_hangup (h : ClientsInv env dev₀ received s)
    (hcon : s.server.dev.connectFd ≠ -1) (hclosed : (s.client s.current).closed = true)
    (hpending : (s.client s.current).pending = []) : s.Advances env := by
  obtain ⟨server, hserver⟩ := h.acceptfd_enabled hcon ⟨[], fun _ => 0⟩
  have hstep : clientsStep env s .hangup = some { s with server := server } := by
    simp only [clientsStep, hpending, hclosed, and_self, if_true]
    cases (s.client s.current).failed <;> simp [serverStep, hserver]
  obtain ⟨-, -, rfl⟩ := acceptfd_closed hserver
  refine ⟨.hangup, _, trivial, trivial, hstep, ?_,
    ⟨Eq.refl _, fun _ => Eq.refl _, fun _ => Eq.refl _, fun _ => Eq.refl _⟩⟩
  simp only [Clients.work, if_true, if_neg hcon]
  omega

/-- The next message of a connection is received.

**Proof sketch.** The client has closed its connection, so that no call of `recv` waits. One message
less waits at the current client, and as many as before at the others. -/
lemma ClientsInv.advances_receive (h : ClientsInv env dev₀ received s)
    (hcon : s.server.dev.connectFd ≠ -1) (hclosed : (s.client s.current).closed = true) {m : HucMsg}
    {rest : List Byte} (hhead : (s.client s.current).pending = m.wire ++ rest) :
    s.Advances env := by
  have hpos := h.some_accepted hcon
  have hbacklog := h.backlog
  have hcur : s.current < s.connected := by
    rw [Clients.current]
    omega
  have hfour : 4 ≤ 65535 + 1 := by omega
  have hlen : m.payload.length ≤ 65535 + 1 := by
    have := m.length_lt
    omega
  obtain ⟨server, hserver⟩ := h.acceptfd_enabled hcon ⟨m.wire ++ rest, fun _ => 65535⟩
  have hmessage : serverStep env s.server (.message ⟨m.wire ++ rest, fun _ => 65535⟩) =
      some server := by
    rw [serverStep, if_pos (wire_append_ne_nil m rest)]
    exact hserver
  have hstep : clientsStep env s (.receive fun _ => 65535) = some
      { s with
        server := server
        client := Function.update s.client s.current { s.client s.current with pending := rest }
        dispatched := s.dispatched ++ [m.pair] } := by
    simp only [clientsStep, hhead, hclosed, or_true, if_true, hmessage, Option.map_some,
      handleAcceptfd_wire env s.server.dev m rest (fun _ => 65535) hfour hlen]
    rfl
  obtain ⟨-, rfl⟩ := step_message_wire hfour hlen hmessage
  refine ⟨.receive fun _ => 65535, _, fun _ => le_rfl, ⟨m, rest, hhead, hfour, hlen⟩, hstep, ?_,
    sameClients_update s s.current rest _ _⟩
  simp only [Clients.work, if_neg hcon]
  have hsum : ∑ i ∈ Finset.range s.connected, (Function.update s.client s.current
      { s.client s.current with pending := rest } i).pending.length <
      ∑ i ∈ Finset.range s.connected, (s.client i).pending.length := by
    refine Finset.sum_lt_sum (fun i _ => ?_) ⟨s.current, Finset.mem_range.mpr hcur, ?_⟩
    · by_cases hi : i = s.current
      · rw [hi, Function.update_self, hhead, List.length_append]
        exact Nat.le_add_left _ _
      · rw [Function.update_of_ne hi]
    · rw [Function.update_self, hhead, List.length_append, HucMsg.length_wire]
      dsimp only
      omega
  exact Nat.add_lt_add_right (Nat.add_lt_add_right hsum _) _

/-- **A connection gets on**: the next message is received, or the end of the connection found. -/
lemma ClientsInv.serve (h : ClientsInv env dev₀ received s) (hcon : s.server.dev.connectFd ≠ -1)
    (hclosed : (s.client s.current).closed = true) : s.Advances env := by
  obtain ⟨ms, hms, -⟩ := (h.client s.current).pending
  cases ms with
  | nil => exact h.advances_hangup hcon hclosed hms
  | cons m ms => exact h.advances_receive hcon hclosed hms

/-- **The next client is accepted.** -/
lemma ClientsInv.next (h : ClientsInv env dev₀ received s) (hcon : s.server.dev.connectFd = -1)
    (hlt : s.accepted < s.connected) : s.Advances env := by
  have hbacklog := h.backlog
  obtain ⟨fd, hfd, hfresh⟩ := exists_fresh s.server.openFds
  have hwatch : s.server.watched s.server.dev.listenFd = some .listenfd := by
    rw [h.watch.watch, Server.current, if_pos hcon, if_pos rfl, Server.handler, if_pos hcon]
  obtain ⟨server, hserver⟩ : ∃ server, serverStep env s.server (.accept (some fd)) =
      some server := by
    rw [serverStep, if_pos ⟨hwatch, h.watch.listen_open, by omega⟩]
    exact ⟨_, if_pos ⟨hfd, hfresh⟩⟩
  have hstep : clientsStep env s (.accept (some fd)) =
      some { s with server := server, accepted := s.accepted + 1 } := by
    rw [clientsStep, hserver]
    rfl
  obtain ⟨-, -, -, rfl⟩ := step_accept_some hserver
  refine ⟨.accept (some fd), _, Option.some_ne_none fd, Option.some_ne_none fd, hstep, ?_,
    Eq.refl _, fun _ => Eq.refl _, fun _ => Eq.refl _, fun _ => Eq.refl _⟩
  have hne : fd ≠ -1 := by omega
  simp only [Clients.work, if_pos hcon, if_neg hne]
  omega

end Progress

end Huc
