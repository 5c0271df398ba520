import Huc.Device.Interrupt

set_option relaxedAutoImplicit false
set_option autoImplicit false

/-!
# The connection server of the device

The device listens on a TCP port and serves one client at a time. Its two handlers hand the watch
over to each other: `handle_listenfd` accepts a client and watches the connection instead of the
listening socket; `handle_acceptfd`, when the client has gone, watches the listening socket again.

Two cases are missed. A failed `accept` returns `-1`, which is watched like a connection, and the
listening socket is not watched any more. And the descriptor of a connection that has ended is
forgotten without being closed. The descriptors are therefore in order exactly in the runs in which
no `accept` fails and no client goes away. The watch alone survives any number of clients, as long
as no `accept` fails.

## Main definitions

* `Huc.hucRealize` — the end of `huc_realize`, which starts the server.
* `Huc.Server` — the device with the descriptors that are open and those that are watched.
* `Huc.ServerAct`, `Huc.serverStep` — what clients, kernel and device do.
* `Huc.Server.Ok` — the descriptors are in order.

## Main results

* `Huc.watch_next` — without failing `accept`s the right descriptor is watched, after any number of
  clients.
* `Huc.server_ok_iff` — in which runs the descriptors are in order.
* `Huc.server_leaks`, `Huc.server_deaf` — one client that goes, and one `accept` that fails.

## Design

The kernel returns from `accept` a descriptor that is not open. An event of a descriptor reaches the
device only while that descriptor is open and watched. None of the functions here closes a
descriptor, so the open ones only grow.
-/

namespace Huc

open Transition

/-! ## Starting the server -/

/-- The end of `huc_realize`, given what `make_socket` returns and whether `listen` succeeds. -/
def hucRealize (dev : HucState) (sock : ℤ) (listenOk : Bool) : HucState × List Effect :=
  let dev := { dev with hyperthreadingRemapping := false, listenFd := sock, connectFd := -1 }
  if sock < 0 then (dev, [])
  else if !listenOk then (dev, [])
  else (dev, [.setFdHandler sock (some .listenfd)])

/-- The device, the registered read handlers, the descriptors open, those that `accept` has ever
returned, and the number of clients that wait to be accepted. -/
structure Server where
  dev : HucState
  watched : ℤ → Option FdHandler
  openFds : List ℤ
  accepted : List ℤ
  backlog : ℕ

/-- What a call out of the device does to the registered handlers. -/
def perform (watched : ℤ → Option FdHandler) : Effect → ℤ → Option FdHandler
  | .setFdHandler fd handler => Function.update watched fd handler
  | _ => watched

/-- The server after `huc_realize` has started to listen on the socket `sock`. -/
def Server.start (dev : HucState) (sock : ℤ) : Server where
  dev := (hucRealize dev sock true).1
  watched := (hucRealize dev sock true).2.foldl perform fun _ => none
  openFds := [sock]
  accepted := []
  backlog := 0

/-! ## Events -/

/-- The events of the server. -/
inductive ServerAct
  /-- A client connects. -/
  | connect
  /-- The listening socket is readable; `accept` returns a descriptor or fails. -/
  | accept (fd : Option ℤ)
  /-- The connection is readable, with the bytes that `recv` will find. -/
  | message (k : Socket)
  /-- The client has closed the connection: `recv` returns 0. -/
  | close
  /-- `recv` returns -1. -/
  | recvError

/-- `handle_acceptfd`, called for the bytes of `k`. -/
def Server.acceptfd (env : HostEnv) (s : Server) (k : Socket) : Option Server :=
  if s.watched s.dev.connectFd = some .acceptfd ∧ s.dev.connectFd ∈ s.openFds then
    let r := handleAcceptfd env s.dev k
    some { s with dev := r.state, watched := r.effects.foldl perform s.watched }
  else none

/-- One event. -/
def serverStep (env : HostEnv) (s : Server) : ServerAct → Option Server
  | .connect => some { s with backlog := s.backlog + 1 }
  | .accept fd =>
    if s.watched s.dev.listenFd = some .listenfd ∧ s.dev.listenFd ∈ s.openFds ∧ 0 < s.backlog then
      match fd with
      | some fd =>
        if 0 ≤ fd ∧ fd ∉ s.openFds then
          let r := handleListenfd s.dev fd
          some
            { dev := r.1
              watched := r.2.foldl perform s.watched
              openFds := s.openFds ++ [fd]
              accepted := s.accepted ++ [fd]
              backlog := s.backlog - 1 }
        else none
      | none =>
        let r := handleListenfd s.dev (-1)
        some { s with dev := r.1, watched := r.2.foldl perform s.watched }
    else none
  | .message k => if k.stream ≠ [] then s.acceptfd env k else none
  | .close => s.acceptfd env ⟨[], fun _ => 0⟩
  | .recvError => s.acceptfd env ⟨[], fun _ => 0⟩

/-- The descriptor that should be watched: that of the client, or the listening one. -/
def Server.current (s : Server) : ℤ :=
  if s.dev.connectFd = -1 then s.dev.listenFd else s.dev.connectFd

/-- **The descriptors are in order**: exactly the current one has a read handler, it is open, and
every other one that `accept` has returned is closed. -/
structure Server.Ok (s : Server) : Prop where
  watch : ∀ fd, (s.watched fd).isSome ↔ fd = s.current
  isOpen : s.current ∈ s.openFds
  closed : ∀ fd ∈ s.accepted, fd ≠ s.dev.connectFd → fd ∉ s.openFds

/-- No `accept` fails with the event. -/
def ServerAct.AcceptOk : ServerAct → Prop
  | .accept none => False
  | _ => True

/-- No `accept` fails and no client goes away with the event. -/
def ServerAct.Stays : ServerAct → Prop
  | .accept none => False
  | .close => False
  | .recvError => False
  | _ => True

/-! ## What each event does -/

section Events

variable {env : HostEnv} {s t : Server}

/-- Binding vCPUs does not touch the watch. -/
lemma foldl_perform_bindVCPUs (w : ℤ → Option FdHandler) (n : ℕ) (bound : ℕ → Bool)
    (set : BitVec 64) : (bindVCPUs n bound set).foldl perform w = w := by
  unfold bindVCPUs
  induction (List.range n).filter bound with
  | nil => rfl
  | cons i is ih => exact ih

/-- A dispatched message does not touch descriptors. -/
lemma dispatch_fds (env : HostEnv) (dev : HucState) (w : ℤ → Option FdHandler) :
    (dispatch env dev).1.listenFd = dev.listenFd ∧
      (dispatch env dev).1.connectFd = dev.connectFd ∧
      (dispatch env dev).2.foldl perform w = w := by
  unfold dispatch
  cases MsgType.ofCode? dev.header.type with
  | none => exact ⟨rfl, rfl, rfl⟩
  | some t =>
    cases t with
    | reset => exact ⟨rfl, rfl, foldl_perform_bindVCPUs w _ _ _⟩
    | pinOnSame => exact ⟨rfl, rfl, foldl_perform_bindVCPUs w _ _ _⟩
    | _ => exact ⟨rfl, rfl, rfl⟩

/-- **A message** leaves the descriptors alone. -/
lemma step_message {k : Socket} (h : serverStep env s (.message k) = some t) :
    ∃ dev, t = { s with dev := dev } ∧ dev.listenFd = s.dev.listenFd ∧
      dev.connectFd = s.dev.connectFd := by
  simp only [serverStep, Server.acceptfd] at h
  split_ifs at h with hk _
  have hne : (k.recv 4).1 ≠ [] := by
    simp only [Socket.recv, ne_eq, List.take_eq_nil_iff]
    rintro (h0 | hnil)
    · omega
    · exact hk hnil
  obtain rfl := Option.some.inj h
  simp only [handleAcceptfd, if_neg hne]
  obtain ⟨hlisten, hconnect, hwatch⟩ := dispatch_fds env
    { s.dev with
      buf := (s.dev.buf.write headerOffset (k.recv 4).1).write payloadOffset
        ((k.recv 4).2.recv (HucState.header
          { s.dev with buf := s.dev.buf.write headerOffset (k.recv 4).1 }).payloadLen.toNat).1 }
    s.watched
  exact ⟨_, by rw [hwatch], hlisten, hconnect⟩

/-- **A client that goes away** is forgotten, and the listening socket watched again. -/
lemma acceptfd_closed {seg : ℕ → ℕ} (h : s.acceptfd env ⟨[], seg⟩ = some t) :
    s.watched s.dev.connectFd = some .acceptfd ∧ s.dev.connectFd ∈ s.openFds ∧
      t = { s with
        dev := { s.dev with connectFd := -1 }
        watched := Function.update (Function.update s.watched s.dev.connectFd none)
          s.dev.listenFd (some .listenfd) } := by
  have hnil : (Socket.recv ⟨[], seg⟩ 4).1 = [] := List.take_nil
  unfold Server.acceptfd at h
  split_ifs at h with hc
  refine ⟨hc.1, hc.2, (Option.some.inj h).symm.trans ?_⟩
  simp only [handleAcceptfd, hnil, if_true, List.foldl_cons, List.foldl_nil, perform]

/-- **A failed `accept`** is watched like a client. -/
lemma step_accept_none (h : serverStep env s (.accept none) = some t) :
    t = { s with
      dev := { s.dev with connectFd := -1 }
      watched := Function.update (Function.update s.watched (-1) (some .acceptfd))
        s.dev.listenFd none } := by
  simp only [serverStep] at h
  split_ifs at h
  exact (Option.some.inj h).symm

/-- **A client that is accepted** is watched instead of the listening socket. -/
lemma step_accept_some {fd : ℤ} (h : serverStep env s (.accept (some fd)) = some t) :
    s.watched s.dev.listenFd = some .listenfd ∧ 0 ≤ fd ∧ fd ∉ s.openFds ∧
      t = { dev := { s.dev with connectFd := fd }
            watched := Function.update (Function.update s.watched fd (some .acceptfd))
              s.dev.listenFd none
            openFds := s.openFds ++ [fd]
            accepted := s.accepted ++ [fd]
            backlog := s.backlog - 1 } := by
  simp only [serverStep] at h
  split_ifs at h with hl hfd
  exact ⟨hl.1, hfd.1, hfd.2, (Option.some.inj h).symm⟩

end Events

/-! ## The watch -/

/-- The handler of the current descriptor. -/
def Server.handler (s : Server) : FdHandler :=
  if s.dev.connectFd = -1 then .listenfd else .acceptfd

/-- **The invariant of the watch**: the current descriptor, and no other, is watched, with the
handler of its kind, and all descriptors in use are open. -/
structure WatchInv (s : Server) : Prop where
  watch : ∀ fd, s.watched fd = if fd = s.current then some s.handler else none
  listen_nonneg : 0 ≤ s.dev.listenFd
  listen_open : s.dev.listenFd ∈ s.openFds
  connect_ne : s.dev.connectFd ≠ s.dev.listenFd
  connected : s.dev.connectFd ≠ -1 →
    s.dev.connectFd ∈ s.openFds ∧ s.dev.connectFd ∈ s.accepted

section Watch

variable {env : HostEnv} {s t : Server}

/-- The listening socket is watched at the start. -/
lemma watchInv_start (dev : HucState) {sock : ℤ} (h : 0 ≤ sock) :
    WatchInv (Server.start dev sock) := by
  have hreal : hucRealize dev sock true =
      ({ dev with hyperthreadingRemapping := false, listenFd := sock, connectFd := -1 },
        [.setFdHandler sock (some .listenfd)]) := by
    simp [hucRealize, not_lt.mpr h]
  have hdev : (Server.start dev sock).dev =
      { dev with hyperthreadingRemapping := false, listenFd := sock, connectFd := -1 } := by
    simp only [Server.start, hreal]
  refine ⟨?_, ?_, ?_, ?_, ?_⟩
  · intro fd
    simp only [Server.current, Server.handler, hdev, if_true]
    simp only [Server.start, hreal, List.foldl_cons, List.foldl_nil, perform,
      Function.update_apply]
  · rw [hdev]
    exact h
  · rw [hdev]
    exact List.mem_singleton.mpr rfl
  · rw [hdev]
    show (-1 : ℤ) ≠ sock
    omega
  · rw [hdev]
    intro hne
    exact absurd rfl hne

/-- When the listening socket is watched, no client is connected. -/
lemma WatchInv.connectFd_eq (h : WatchInv s) (hl : s.watched s.dev.listenFd = some .listenfd) :
    s.dev.connectFd = -1 := by
  by_contra hne
  have hw := h.watch s.dev.listenFd
  rw [hl, Server.current, if_neg hne, if_neg (Ne.symm h.connect_ne)] at hw
  exact absurd hw (by simp)

/-- When a connection is watched, a client is connected. -/
lemma WatchInv.connectFd_ne (h : WatchInv s)
    (hc : s.watched s.dev.connectFd = some .acceptfd) : s.dev.connectFd ≠ -1 := by
  intro hcon
  have hw := h.watch s.dev.connectFd
  rw [hc, Server.current, if_pos hcon, if_neg h.connect_ne] at hw
  exact absurd hw (by simp)

/-- A client that goes away leaves the watch in order. -/
lemma WatchInv.closed (h : WatchInv s) {seg : ℕ → ℕ} (hstep : s.acceptfd env ⟨[], seg⟩ = some t) :
    WatchInv t := by
  obtain ⟨hc, -, rfl⟩ := acceptfd_closed hstep
  have hne := h.connectFd_ne hc
  have hpos := h.listen_nonneg
  refine ⟨?_, hpos, h.listen_open, ?_, fun hcon => absurd rfl hcon⟩
  · intro fd
    simp only [Server.current, Server.handler, if_true, Function.update_apply]
    by_cases hl : fd = s.dev.listenFd
    · rw [if_pos hl, if_pos hl]
    · rw [if_neg hl, if_neg hl]
      by_cases hfd : fd = s.dev.connectFd
      · rw [if_pos hfd]
      · rw [if_neg hfd, h.watch fd, Server.current, if_neg hne, if_neg hfd]
  · show (-1 : ℤ) ≠ s.dev.listenFd
    omega

/-- **Every event but a failing `accept` keeps the watch in order.**

**Proof sketch.** An `accept` that succeeds takes the handler from the listening socket to the new
descriptor, which differs from it because it was not open. A message changes the device behind the
descriptors only. A close or an error gives the handler back (`WatchInv.closed`). -/
lemma serverStep_watchInv {a : ServerAct} (h : WatchInv s) (ha : a.AcceptOk)
    (hstep : serverStep env s a = some t) : WatchInv t := by
  cases a with
  | connect =>
    obtain rfl := Option.some.inj hstep
    exact ⟨h.watch, h.listen_nonneg, h.listen_open, h.connect_ne, h.connected⟩
  | accept fd =>
    cases fd with
    | none => exact absurd ha id
    | some fd =>
      obtain ⟨hl, hpos, hnew, rfl⟩ := step_accept_some hstep
      have hidle := h.connectFd_eq hl
      have hfd : fd ≠ s.dev.listenFd := fun heq => hnew (heq ▸ h.listen_open)
      have hne : fd ≠ -1 := by omega
      refine ⟨?_, h.listen_nonneg, List.mem_append_left _ h.listen_open, hfd, fun _ =>
        ⟨by simp, by simp⟩⟩
      intro fd'
      simp only [Server.current, Server.handler, if_neg hne, Function.update_apply]
      by_cases hl' : fd' = s.dev.listenFd
      · rw [if_pos hl', if_neg (by rw [hl']; exact Ne.symm hfd)]
      · rw [if_neg hl']
        by_cases heq : fd' = fd
        · rw [if_pos heq, if_pos heq]
        · rw [if_neg heq, if_neg heq, h.watch fd', Server.current, if_pos hidle, if_neg hl']
  | message k =>
    obtain ⟨dev, rfl, hlisten, hconnect⟩ := step_message hstep
    refine ⟨fun fd => ?_, by rw [hlisten]; exact h.listen_nonneg,
      by rw [hlisten]; exact h.listen_open, by rw [hlisten, hconnect]; exact h.connect_ne, ?_⟩
    · have hw := h.watch fd
      simp only [Server.current, Server.handler] at hw
      simp only [Server.current, Server.handler, hlisten, hconnect]
      exact hw
    · rw [hconnect]
      exact h.connected
  | close => exact h.closed hstep
  | recvError => exact h.closed hstep

/-- **The next client can be served**: in every state of every run without a failing `accept`,
whatever clients have come and gone, exactly the current descriptor is watched, with the handler of
its kind, and it is open. -/
theorem watch_next (env : HostEnv) (dev : HucState) {sock : ℤ} (hsock : 0 ≤ sock)
    {acts : List ServerAct} (hacts : ∀ a ∈ acts, a.AcceptOk) {s : Server}
    (hrun : run (serverStep env) (Server.start dev sock) acts = some s) :
    (∀ fd, s.watched fd = if fd = s.current then some s.handler else none) ∧
      s.current ∈ s.openFds := by
  have h : WatchInv s := invariant_of_run_along
    (fun _ _ _ h ha hstep => serverStep_watchInv h ha hstep) (watchInv_start dev hsock)
    ((along_iff_forall hrun).mpr hacts) hrun
  refine ⟨h.watch, ?_⟩
  unfold Server.current
  split_ifs with hidle
  · exact h.listen_open
  · exact (h.connected hidle).1

end Watch

/-- After a client has gone the listening socket is watched again. -/
theorem watch_next_gone :
    ∃ s, run (serverStep ⟨2, 0⟩) (Server.start restState 3) [.connect, .accept (some 4), .close] =
        some s ∧ s.watched 3 = some .listenfd ∧ s.watched 4 = none := by
  have hrun : run (serverStep ⟨2, 0⟩) (Server.start restState 3)
      [.connect, .accept (some 4), .close] = some _ := rfl
  have hacts : ∀ a ∈ [ServerAct.connect, .accept (some 4), .close], a.AcceptOk := by
    simp [ServerAct.AcceptOk]
  have hwatch := (watch_next ⟨2, 0⟩ restState (by decide) hacts hrun).1
  exact ⟨_, hrun, hwatch 3, hwatch 4⟩

/-! ## Descriptors in order -/

/-- The watch is in order and only the client connected, if any, was ever accepted. -/
def ServerInv (s : Server) : Prop :=
  WatchInv s ∧ ∀ fd ∈ s.accepted, 0 ≤ fd ∧ fd = s.dev.connectFd

section Descriptors

variable {env : HostEnv} {s t : Server}

/-- Under the invariant the descriptors are in order. -/
lemma ServerInv.ok (h : ServerInv s) : s.Ok := by
  obtain ⟨hw, hacc⟩ := h
  refine ⟨fun fd => ?_, ?_, fun fd hfd hne => absurd (hacc fd hfd).2 hne⟩
  · rw [hw.watch fd]
    split_ifs with heq
    · simp [heq]
    · simp [heq]
  · unfold Server.current
    split_ifs with hidle
    · exact hw.listen_open
    · exact (hw.connected hidle).1

/-- An event with which no `accept` fails and no client goes keeps the invariant.

**Proof sketch.** The watch is kept by `serverStep_watchInv`. An `accept` needs the listening socket
to be watched, so that no client was connected, and the one accepted before would still be. -/
lemma serverStep_inv {a : ServerAct} (h : ServerInv s) (ha : a.Stays)
    (hstep : serverStep env s a = some t) : ServerInv t := by
  obtain ⟨hw, hacc⟩ := h
  have hok : a.AcceptOk := by
    cases a with
    | accept fd => cases fd with
      | none => exact ha
      | some fd => trivial
    | _ => trivial
  refine ⟨serverStep_watchInv hw hok hstep, ?_⟩
  cases a with
  | connect =>
    obtain rfl := Option.some.inj hstep
    exact hacc
  | accept fd =>
    cases fd with
    | none => exact absurd ha id
    | some fd =>
      obtain ⟨hl, hpos, -, rfl⟩ := step_accept_some hstep
      have hidle := hw.connectFd_eq hl
      intro fd' hfd'
      rcases List.mem_append.mp hfd' with hold | hlast
      · -- a client accepted before would still be connected
        obtain ⟨hpos', heq⟩ := hacc fd' hold
        omega
      · rw [List.mem_singleton.mp hlast]
        exact ⟨hpos, rfl⟩
  | message k =>
    obtain ⟨dev, rfl, -, hconnect⟩ := step_message hstep
    intro fd hfd
    rw [hconnect]
    exact hacc fd hfd
  | close => exact absurd ha id
  | recvError => exact absurd ha id

/-- A client that goes away leaves its descriptor open. -/
lemma ServerInv.not_ok_of_closed (h : ServerInv s) {seg : ℕ → ℕ}
    (hstep : s.acceptfd env ⟨[], seg⟩ = some t) : ¬t.Ok := by
  obtain ⟨hc, hopen, rfl⟩ := acceptfd_closed hstep
  have hne := h.1.connectFd_ne hc
  intro hok
  exact hok.closed s.dev.connectFd (h.1.connected hne).2 hne hopen

/-- An event after which the descriptors are in order is none of the missed cases. -/
lemma stays_of_ok {a : ServerAct} (h : ServerInv s) (hstep : serverStep env s a = some t)
    (ht : t.Ok) : a.Stays := by
  cases a with
  | accept fd =>
    cases fd with
    | none =>
      -- the descriptor `-1` is watched, but the listening socket is the current one
      obtain rfl := step_accept_none hstep
      have hlisten := h.1.listen_nonneg
      have hwatch := (ht.watch (-1)).mp
      simp only [Server.current, if_true, Function.update_apply] at hwatch
      rw [if_neg (by omega)] at hwatch
      have := hwatch rfl
      exact absurd this (by omega)
    | some fd => trivial
  | close => exact h.not_ok_of_closed hstep ht
  | recvError => exact h.not_ok_of_closed hstep ht
  | _ => trivial

end Descriptors

/-- **In which runs the descriptors are in order**: from a listening device, in every state of a run
exactly the current descriptor is watched and open and all others that `accept` has returned are
closed, if and only if no `accept` of the run fails and no client goes away.

**Proof sketch.** Without these events at most one client is ever accepted, and the watch follows
it. A failed `accept` makes the device watch `-1`, and a client that goes away leaves its descriptor
open. -/
theorem server_ok_iff (env : HostEnv) (dev : HucState) {sock : ℤ} (hsock : 0 ≤ sock)
    (acts : List ServerAct) {s : Server}
    (hrun : run (serverStep env) (Server.start dev sock) acts = some s) :
    Always (serverStep env) Server.Ok (Server.start dev sock) acts ↔ ∀ a ∈ acts, a.Stays := by
  have hstart : ServerInv (Server.start dev sock) :=
    ⟨watchInv_start dev hsock, fun fd hfd => absurd hfd List.not_mem_nil⟩
  rw [always_iff_along (fun _ _ _ h ha hstep => serverStep_inv h ha hstep) (fun _ h => h.ok)
    (fun _ _ _ h hstep ht => stays_of_ok h hstep ht) hstart hrun]
  exact along_iff_forall hrun

/-- A client that connects and sends a byte. -/
theorem server_ok_iff_one :
    ∃ s, run (serverStep ⟨2, 0⟩) (Server.start restState 3)
        [.connect, .accept (some 5), .message ⟨[1#8], fun _ => 0⟩] = some s ∧
      Always (serverStep ⟨2, 0⟩) Server.Ok (Server.start restState 3)
        [.connect, .accept (some 5), .message ⟨[1#8], fun _ => 0⟩] := by
  have hrun : ∃ s, run (serverStep ⟨2, 0⟩) (Server.start restState 3)
      [.connect, .accept (some 5), .message ⟨[1#8], fun _ => 0⟩] = some s := ⟨_, rfl⟩
  obtain ⟨s, hs⟩ := hrun
  refine ⟨s, hs, (server_ok_iff ⟨2, 0⟩ restState (by decide) _ hs).mpr ?_⟩
  intro a ha
  fin_cases ha <;> trivial

/-- **A leaked descriptor**: a client connects and goes away; its descriptor 5 is not the
connection's any more, and is open. -/
theorem server_leaks :
    ∃ s, run (serverStep ⟨2, 0⟩) (Server.start restState 3)
        [.connect, .accept (some 5), .close] = some s ∧
      s.accepted = [5] ∧ s.dev.connectFd = -1 ∧ 5 ∈ s.openFds ∧ ¬s.Ok := by
  refine ⟨_, rfl, rfl, rfl, by decide, ?_⟩
  intro hok
  exact hok.closed 5 (by decide) (by decide) (by decide)

/-- **A deaf device**: one `accept` fails, and no descriptor that is open has a handler. -/
theorem server_deaf :
    ∃ s, run (serverStep ⟨2, 0⟩) (Server.start restState 3) [.connect, .accept none] = some s ∧
      ∀ fd ∈ s.openFds, s.watched fd = none := by
  refine ⟨_, rfl, ?_⟩
  intro fd hfd
  obtain rfl : fd = 3 := List.mem_singleton.mp hfd
  rfl

end Huc
