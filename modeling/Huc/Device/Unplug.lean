import Huc.Device.Server

set_option relaxedAutoImplicit false
set_option autoImplicit false

/-!
# Plugging and unplugging the device

`huc_realize` starts the message server and `hucdev_uninit` stops it; in between clients come and
go. `hucdev_uninit` takes the listening socket off the event loop and closes it; it does so unless
`listen_fd` is `-1`, and knows of no other descriptor. So it leaves a connection with its handler,
which then points into a device that is gone; it leaves every descriptor that `accept` has returned;
and it closes descriptor 0 if `huc_realize` gave up before it set `listen_fd`.

## Main definitions

* `Huc.RealizeCalls`, `Huc.Server.realize` — the server part of `huc_realize`.
* `Huc.hucdevUninit`, `Huc.Server.uninit` — `hucdev_uninit`.
* `Huc.Server.Restored` — the process is as it was before.

## Main results

* `Huc.handler_left_iff` — when a handler of the device outlives it.
* `Huc.restored_iff` — when unplugging undoes plugging.

## Design

The memory of a device is zero before `huc_realize`. `msi_init` and the rest of PCI have succeeded;
where they fail, the device is never unplugged.
-/

namespace Huc

open Transition

/-! ## Realize and uninit -/

/-- The outcomes of the calls in `huc_realize`: whether `malloc` succeeds, the descriptor that
`socket` returns, and whether `bind` and `listen` succeed. -/
structure RealizeCalls where
  malloc : Bool
  socket : Option ℤ
  bind : Bool
  listen : Bool

namespace RealizeCalls

/-- `make_socket`: its result, and the descriptors it leaves open. -/
def makeSocket (c : RealizeCalls) : ℤ × List ℤ :=
  match c.socket with
  | none => (-1, [])
  | some sock => if c.bind then (sock, [sock]) else (-1, [sock])

/-- `socket` returns a descriptor that is not open. -/
def Fresh (c : RealizeCalls) (openFds : List ℤ) : Prop :=
  ∀ sock, c.socket = some sock → 0 ≤ sock ∧ sock ∉ openFds

/-- The server is started on the socket `sock`. -/
def Starts (c : RealizeCalls) (sock : ℤ) : Prop :=
  c.malloc = true ∧ c.socket = some sock ∧ c.bind = true ∧ c.listen = true

/-- A socket is lost on the way. -/
def LosesSocket (c : RealizeCalls) : Prop :=
  c.malloc = true ∧ c.socket ≠ none ∧ c.bind = false

end RealizeCalls

/-- The process with the device in zeroed memory, before `huc_realize`. -/
def Server.plugged (dev : HucState) (openFds : List ℤ) : Server where
  dev := { dev with listenFd := 0, connectFd := 0 }
  watched _ := none
  openFds := openFds
  accepted := []
  backlog := 0

/-- `huc_realize`, from its `malloc` on. -/
def Server.realize (s : Server) (c : RealizeCalls) : Server :=
  if c.malloc then
    let sock := c.makeSocket
    let r := hucRealize s.dev sock.1 c.listen
    { s with
      dev := r.1
      watched := r.2.foldl perform s.watched
      openFds := s.openFds ++ sock.2 }
  else s

/-- `hucdev_uninit`: the handlers it sets, and the descriptors it closes. -/
def hucdevUninit (dev : HucState) : List Effect × List ℤ :=
  if dev.listenFd ≠ -1 then ([.setFdHandler dev.listenFd none], [dev.listenFd]) else ([], [])

/-- The process after `hucdev_uninit`. -/
def Server.uninit (s : Server) : Server :=
  { s with
    watched := (hucdevUninit s.dev).1.foldl perform s.watched
    openFds := s.openFds.filter fun fd => fd ∉ (hucdevUninit s.dev).2 }

/-- No handler of the device is registered, and the descriptors `openFds` are open. -/
def Server.Restored (s : Server) (openFds : List ℤ) : Prop :=
  (∀ fd, s.watched fd = none) ∧ s.openFds = openFds

/-! ## What uninit does -/

section Uninit

variable {s : Server}

/-- Only the listening socket is taken off the event loop. -/
lemma watched_uninit (h : s.dev.listenFd ≠ -1) (fd : ℤ) :
    s.uninit.watched fd = if fd = s.dev.listenFd then none else s.watched fd := by
  simp only [Server.uninit, hucdevUninit, if_pos h, List.foldl_cons, List.foldl_nil, perform,
    Function.update_apply]

/-- Only the listening socket is closed. -/
lemma openFds_uninit (h : s.dev.listenFd ≠ -1) :
    s.uninit.openFds = s.openFds.filter fun fd => fd ≠ s.dev.listenFd := by
  simp only [Server.uninit, hucdevUninit, if_pos h, List.mem_singleton]

/-- Without a listening socket nothing is done. -/
lemma uninit_of_none (h : s.dev.listenFd = -1) :
    s.uninit.watched = s.watched ∧ s.uninit.openFds = s.openFds := by
  simp [Server.uninit, hucdevUninit, h]

end Uninit

/-! ## The descriptors of a run -/

/-- The descriptor that `accept` returns in an event. -/
def ServerAct.acceptedFd : ServerAct → Option ℤ
  | .accept fd => fd
  | _ => none

section Runs

variable {env : HostEnv} {s t : Server}

/-- An event opens at most the descriptor of a client.

**Proof sketch.** By the event: only an `accept` that succeeds opens a descriptor, and none closes
one. -/
lemma serverStep_fds {a : ServerAct} (h : serverStep env s a = some t) :
    t.dev.listenFd = s.dev.listenFd ∧ t.openFds = s.openFds ++ a.acceptedFd.toList ∧
      t.accepted = s.accepted ++ a.acceptedFd.toList ∧
      ∀ fd, a.acceptedFd = some fd → 0 ≤ fd ∧ fd ∉ s.openFds := by
  have hgone : ∀ {seg}, s.acceptfd env ⟨[], seg⟩ = some t →
      t.dev.listenFd = s.dev.listenFd ∧ t.openFds = s.openFds ++ [] ∧
        t.accepted = s.accepted ++ [] := by
    intro seg h
    obtain ⟨-, -, rfl⟩ := acceptfd_closed h
    exact ⟨rfl, (List.append_nil _).symm, (List.append_nil _).symm⟩
  cases a with
  | connect =>
    obtain rfl := Option.some.inj h
    exact ⟨rfl, (List.append_nil _).symm, (List.append_nil _).symm, nofun⟩
  | accept fd =>
    cases fd with
    | none =>
      obtain rfl := step_accept_none h
      exact ⟨rfl, (List.append_nil _).symm, (List.append_nil _).symm, nofun⟩
    | some fd =>
      obtain ⟨-, hpos, hnew, rfl⟩ := step_accept_some h
      refine ⟨rfl, rfl, rfl, fun fd' hfd' => ?_⟩
      obtain rfl : fd = fd' := Option.some.inj hfd'
      exact ⟨hpos, hnew⟩
  | message k =>
    obtain ⟨dev, rfl, hlisten, -⟩ := step_message h
    exact ⟨hlisten, (List.append_nil _).symm, (List.append_nil _).symm, nofun⟩
  | close =>
    obtain ⟨hlisten, hopen, haccepted⟩ := hgone h
    exact ⟨hlisten, hopen, haccepted, nofun⟩
  | recvError =>
    obtain ⟨hlisten, hopen, haccepted⟩ := hgone h
    exact ⟨hlisten, hopen, haccepted, nofun⟩

/-- **The descriptors after a run** are those before, with those that `accept` has returned; the
device closes none. -/
lemma run_fds {acts : List ServerAct} (hrun : run (serverStep env) s acts = some t) :
    t.dev.listenFd = s.dev.listenFd ∧
      t.openFds = s.openFds ++ acts.filterMap ServerAct.acceptedFd ∧
      t.accepted = s.accepted ++ acts.filterMap ServerAct.acceptedFd ∧
      ∀ fd ∈ acts.filterMap ServerAct.acceptedFd, 0 ≤ fd ∧ fd ∉ s.openFds := by
  induction acts generalizing s with
  | nil =>
    obtain rfl : s = t := by simpa using hrun
    simp
  | cons a acts ih =>
    obtain ⟨u, hstep, hrest⟩ := run_cons.mp hrun
    obtain ⟨hlisten, hopen, haccepted, hnew⟩ := serverStep_fds hstep
    obtain ⟨hlisten', hopen', haccepted', hnew'⟩ := ih hrest
    have hcons : (a :: acts).filterMap ServerAct.acceptedFd =
        a.acceptedFd.toList ++ acts.filterMap ServerAct.acceptedFd := by
      cases hfd : a.acceptedFd <;> simp [hfd]
    rw [hcons]
    refine ⟨hlisten'.trans hlisten, by rw [hopen', hopen, List.append_assoc],
      by rw [haccepted', haccepted, List.append_assoc], fun fd hfd => ?_⟩
    rcases List.mem_append.mp hfd with hfd | hfd
    · exact hnew fd (Option.mem_toList.mp hfd)
    · obtain ⟨hpos, hfresh⟩ := hnew' fd hfd
      exact ⟨hpos, fun hold => hfresh (hopen ▸ List.mem_append_left _ hold)⟩

/-! ## The handlers of a run -/

/-- After a failed `accept` descriptor `-1` is watched, and nothing else. -/
structure Server.Deaf (s : Server) : Prop where
  connectFd : s.dev.connectFd = -1
  watched : ∀ fd, s.watched fd = if fd = -1 then some .acceptfd else none
  notOpen : -1 ∉ s.openFds
  listenFd : 0 ≤ s.dev.listenFd

/-- A failed `accept` leaves the device deaf. -/
lemma WatchInv.deaf (h : WatchInv s) (hopen : ∀ fd ∈ s.openFds, 0 ≤ fd)
    (hstep : serverStep env s (.accept none) = some t) : t.Deaf := by
  have hlisten : s.watched s.dev.listenFd = some .listenfd := by
    simp only [serverStep] at hstep
    split_ifs at hstep with hl
    exact hl.1
  have hidle := h.connectFd_eq hlisten
  have hpos := h.listen_nonneg
  obtain rfl := step_accept_none hstep
  refine ⟨rfl, fun fd => ?_, fun hmem => absurd (hopen (-1) hmem) (by omega), hpos⟩
  simp only [Function.update_apply]
  by_cases hfd : fd = s.dev.listenFd
  · rw [if_pos hfd, if_neg (by omega)]
  · rw [if_neg hfd]
    by_cases hneg : fd = -1
    · rw [if_pos hneg, if_pos hneg]
    · rw [if_neg hneg, if_neg hneg, h.watch fd, Server.current, if_pos hidle, if_neg hfd]

/-- Clients may still connect to a deaf device; nothing else happens. -/
lemma Server.Deaf.step {a : ServerAct} (h : s.Deaf) (hstep : serverStep env s a = some t) :
    t.Deaf ∧ a = .connect := by
  have hpos := h.listenFd
  have hgone : ∀ k, s.acceptfd env k ≠ some t := by
    intro k hk
    unfold Server.acceptfd at hk
    split_ifs at hk with hc
    exact h.notOpen (h.connectFd ▸ hc.2)
  cases a with
  | connect =>
    obtain rfl := Option.some.inj hstep
    exact ⟨⟨h.connectFd, h.watched, h.notOpen, h.listenFd⟩, rfl⟩
  | accept fd =>
    simp only [serverStep] at hstep
    split_ifs at hstep with hl
    rw [h.watched, if_neg (by omega)] at hl
    exact absurd hl.1 (by simp)
  | message k =>
    simp only [serverStep] at hstep
    split_ifs at hstep
    exact absurd hstep (hgone k)
  | close => exact absurd hstep (hgone _)
  | recvError => exact absurd hstep (hgone _)

/-- A run of a deaf device. -/
lemma Server.Deaf.run {acts : List ServerAct} (h : s.Deaf)
    (hrun : run (serverStep env) s acts = some t) : t.Deaf ∧ ∀ a ∈ acts, a = .connect := by
  induction acts generalizing s with
  | nil =>
    obtain rfl : s = t := by simpa using hrun
    exact ⟨h, by simp⟩
  | cons a acts ih =>
    obtain ⟨u, hstep, hrest⟩ := run_cons.mp hrun
    obtain ⟨hu, rfl⟩ := h.step hstep
    obtain ⟨ht, hall⟩ := ih hu hrest
    exact ⟨ht, List.forall_mem_cons.mpr ⟨rfl, hall⟩⟩

/-- **The handlers after a run**: the watch is in order until an `accept` fails, and from then on
the device is deaf.

**Proof sketch.** Induction on the run. An event other than a failing `accept` keeps the watch in
order (`serverStep_watchInv`) and the descriptors non-negative; after a failing one the device is
deaf for the rest of the run. -/
lemma run_watch {acts : List ServerAct} (h : WatchInv s) (hopen : ∀ fd ∈ s.openFds, 0 ≤ fd)
    (hrun : run (serverStep env) s acts = some t) :
    WatchInv t ∧ .accept none ∉ acts ∨ t.Deaf ∧ .accept none ∈ acts := by
  induction acts generalizing s with
  | nil =>
    obtain rfl : s = t := by simpa using hrun
    exact Or.inl ⟨h, List.not_mem_nil⟩
  | cons a acts ih =>
    obtain ⟨u, hstep, hrest⟩ := run_cons.mp hrun
    by_cases ha : a = .accept none
    · subst ha
      exact Or.inr ⟨((h.deaf hopen hstep).run hrest).1, List.mem_cons_self⟩
    · have hok : a.AcceptOk := by
        cases a with
        | accept fd => cases fd with
          | none => exact absurd rfl ha
          | some fd => trivial
        | _ => trivial
      obtain ⟨-, hfds, -, hnew⟩ := serverStep_fds hstep
      have hu : ∀ fd ∈ u.openFds, 0 ≤ fd := by
        intro fd hfd
        rw [hfds] at hfd
        rcases List.mem_append.mp hfd with hfd | hfd
        · exact hopen fd hfd
        · exact (hnew fd (Option.mem_toList.mp hfd)).1
      rcases ih (serverStep_watchInv h hok hstep) hu hrest with ⟨ht, hmem⟩ | ⟨ht, hmem⟩
      · exact Or.inl ⟨ht, fun hcons => (List.mem_cons.mp hcons).elim (fun heq => ha heq.symm) hmem⟩
      · exact Or.inr ⟨ht, List.mem_cons_of_mem a hmem⟩

end Runs

/-! ## The server that was not started -/

/-- No descriptor is watched. -/
def Server.Unwatched (s : Server) : Prop := ∀ fd, s.watched fd = none

/-- Clients may connect where nothing is watched; nothing else happens. -/
lemma Server.Unwatched.run {env : HostEnv} {s t : Server} {acts : List ServerAct} (h : s.Unwatched)
    (hrun : run (serverStep env) s acts = some t) :
    t.Unwatched ∧ t.dev = s.dev ∧ t.openFds = s.openFds ∧ ∀ a ∈ acts, a = .connect := by
  induction acts generalizing s with
  | nil =>
    obtain rfl : s = t := by simpa using hrun
    exact ⟨h, rfl, rfl, by simp⟩
  | cons a acts ih =>
    obtain ⟨u, hstep, hrest⟩ := run_cons.mp hrun
    have hconnect : a = .connect ∧ u = { s with backlog := s.backlog + 1 } := by
      cases a with
      | connect => exact ⟨rfl, (Option.some.inj hstep).symm⟩
      | _ => simp [serverStep, Server.acceptfd, h _] at hstep
    obtain ⟨rfl, rfl⟩ := hconnect
    obtain ⟨ht, hdev, hfds, hall⟩ := ih (s := { s with backlog := s.backlog + 1 }) h hrest
    exact ⟨ht, hdev, hfds, List.forall_mem_cons.mpr ⟨rfl, hall⟩⟩

section Realize

variable {dev : HucState} {openFds : List ℤ} {c : RealizeCalls}

/-- Without memory for the buffer `huc_realize` does nothing. -/
lemma realize_of_malloc (h : c.malloc = false) :
    (Server.plugged dev openFds).realize c = Server.plugged dev openFds := by
  simp [Server.realize, h]

/-- Without a socket the device has none. -/
lemma realize_of_socket (h : c.malloc = true) (hsock : c.makeSocket.1 = -1) :
    ((Server.plugged dev openFds).realize c).Unwatched ∧
      ((Server.plugged dev openFds).realize c).dev.listenFd = -1 ∧
      ((Server.plugged dev openFds).realize c).openFds = openFds ++ c.makeSocket.2 := by
  simp only [Server.realize, h, if_true, hsock, hucRealize, Server.Unwatched]
  exact ⟨fun _ => rfl, rfl, rfl⟩

/-- With a socket that cannot listen the device only keeps it. -/
lemma realize_of_listen {sock : ℤ} (h : c.malloc = true) (hsock : c.makeSocket = (sock, [sock]))
    (hpos : 0 ≤ sock) (hlisten : c.listen = false) :
    ((Server.plugged dev openFds).realize c).Unwatched ∧
      ((Server.plugged dev openFds).realize c).dev.listenFd = sock ∧
      ((Server.plugged dev openFds).realize c).openFds = openFds ++ [sock] := by
  simp only [Server.realize, h, if_true, hsock, hlisten, hucRealize, Server.Unwatched,
    if_neg (not_lt.mpr hpos), Bool.not_false]
  exact ⟨fun _ => rfl, trivial, rfl⟩

/-- **Otherwise the server is started**, next to the descriptors that are open. -/
lemma realize_of_starts {sock : ℤ} (h : c.Starts sock) :
    (Server.plugged dev openFds).realize c =
      { Server.start { dev with listenFd := 0, connectFd := 0 } sock with
        openFds := openFds ++ [sock] } := by
  obtain ⟨hmalloc, hsock, hbind, hlisten⟩ := h
  simp only [Server.realize, hmalloc, if_true, RealizeCalls.makeSocket, hsock, hbind, hlisten]
  rfl

/-- The watch of a started server is in order. -/
lemma watchInv_realize {sock : ℤ} (h : c.Starts sock) (hpos : 0 ≤ sock) :
    WatchInv ((Server.plugged dev openFds).realize c) := by
  have hstart := watchInv_start { dev with listenFd := 0, connectFd := 0 } hpos
  have hreal := @realize_of_starts dev openFds c sock h
  have hlisten : ((Server.plugged dev openFds).realize c).dev.listenFd = sock := by
    rw [hreal]
    simp [Server.start, hucRealize, not_lt.mpr hpos]
  have hconnect : ((Server.plugged dev openFds).realize c).dev.connectFd = -1 := by
    rw [hreal]
    simp [Server.start, hucRealize, not_lt.mpr hpos]
  refine ⟨?_, hlisten ▸ hpos, ?_, ?_, fun hne => absurd hconnect hne⟩
  · rw [hreal]
    exact hstart.watch
  · rw [hlisten, hreal]
    simp
  · rw [hlisten, hconnect]
    omega

end Realize

/-! ## Unplugging -/

section Unplug

variable {env : HostEnv} {dev : HucState} {openFds : List ℤ} {c : RealizeCalls}
  {acts : List ServerAct} {s : Server}

/-- What is left after a run of a started server: the connection's handler, and the descriptors that
`accept` has returned.

**Proof sketch.** `huc_uninit` takes the handler from the listening socket and closes it. While the
watch is in order this leaves the connection's handler, if there is a connection; a deaf device has
a handler on descriptor -1, which stays. The descriptors opened after the socket are those that
`accept` has returned. -/
lemma uninit_of_starts {sock : ℤ} (hc : c.Fresh openFds) (hopen : ∀ fd ∈ openFds, 0 ≤ fd)
    (hstarts : c.Starts sock)
    (hrun : run (serverStep env) ((Server.plugged dev openFds).realize c) acts = some s) :
    ((∃ fd, s.uninit.watched fd ≠ none) ↔ s.dev.connectFd ≠ -1 ∨ .accept none ∈ acts) ∧
      s.uninit.openFds = openFds ++ acts.filterMap ServerAct.acceptedFd ∧
      (s.dev.connectFd ≠ -1 → acts.filterMap ServerAct.acceptedFd ≠ []) := by
  obtain ⟨hpos, hnew⟩ := hc sock hstarts.2.1
  have hwatch := @watchInv_realize dev openFds c sock hstarts hpos
  have hreal := @realize_of_starts dev openFds c sock hstarts
  have hfds : ((Server.plugged dev openFds).realize c).openFds = openFds ++ [sock] := by rw [hreal]
  have haccepted : ((Server.plugged dev openFds).realize c).accepted = [] := by
    rw [hreal]
    rfl
  have hlisten : ((Server.plugged dev openFds).realize c).dev.listenFd = sock := by
    rw [hreal]
    simp [Server.start, hucRealize, not_lt.mpr hpos]
  have hall : ∀ fd ∈ ((Server.plugged dev openFds).realize c).openFds, 0 ≤ fd := by
    intro fd hfd
    rw [hfds] at hfd
    rcases List.mem_append.mp hfd with hfd | hfd
    · exact hopen fd hfd
    · exact (List.mem_singleton.mp hfd) ▸ hpos
  obtain ⟨hl, hopen', hacc, hfresh⟩ := run_fds hrun
  rw [hlisten] at hl
  rw [hfds] at hopen' hfresh
  rw [haccepted, List.nil_append] at hacc
  have hne : s.dev.listenFd ≠ -1 := by omega
  refine ⟨?_, ?_, ?_⟩
  · rcases run_watch hwatch hall hrun with ⟨hw, hmem⟩ | ⟨hdeaf, hmem⟩
    · simp only [hmem, or_false]
      constructor
      · rintro ⟨fd, hfd⟩ hidle
        rw [watched_uninit hne, hw.watch fd, Server.current, if_pos hidle] at hfd
        split_ifs at hfd
        · exact hfd rfl
        · exact hfd rfl
      · intro hcon
        refine ⟨s.dev.connectFd, ?_⟩
        rw [watched_uninit hne, if_neg hw.connect_ne, hw.watch, Server.current, if_neg hcon,
          if_pos rfl]
        simp
    · refine iff_of_true ⟨-1, ?_⟩ (Or.inr hmem)
      rw [watched_uninit hne, if_neg (Ne.symm hne), hdeaf.watched, if_pos rfl]
      simp
  · have hout : ∀ fd ∈ acts.filterMap ServerAct.acceptedFd, fd ≠ sock := by
      rintro fd hfd rfl
      exact (hfresh fd hfd).2 (by simp)
    have hold : ∀ fd ∈ openFds, fd ≠ sock := by
      rintro fd hfd rfl
      exact hnew hfd
    rw [openFds_uninit hne, hl, hopen', List.filter_append, List.filter_append,
      List.filter_eq_self.mpr fun fd hfd => decide_eq_true (hold fd hfd),
      List.filter_eq_self.mpr fun fd hfd => decide_eq_true (hout fd hfd)]
    simp
  · intro hcon hnil
    rcases run_watch hwatch hall hrun with ⟨hw, -⟩ | ⟨hdeaf, -⟩
    · have hmem := (hw.connected hcon).2
      rw [hacc, hnil] at hmem
      exact absurd hmem List.not_mem_nil
    · exact hcon hdeaf.connectFd

/-- What is left of a server that was not started: a socket without an address, while descriptor 0
is gone if there was no memory for the buffer.

**Proof sketch.** By what has failed. Without a socket or with one that was not bound, `listen_fd`
is -1 and `huc_uninit` closes nothing, so that a socket without an address is left. If `listen` has
failed the socket is closed. Without memory `huc_realize` has set nothing, `listen_fd` is the zero
of the instance, and descriptor 0 is closed. In no case is there a handler, so that nothing but
connects can happen. -/
lemma uninit_of_not_starts (hc : c.Fresh openFds) (hstarts : ∀ sock, ¬c.Starts sock)
    (hrun : run (serverStep env) ((Server.plugged dev openFds).realize c) acts = some s) :
    (∀ fd, s.uninit.watched fd = none) ∧ (∀ a ∈ acts, a = .connect) ∧
      (s.uninit.openFds = openFds ↔ (c.malloc = false → 0 ∉ openFds) ∧ ¬c.LosesSocket) := by
  by_cases hmalloc : c.malloc = true
  · have hno : (c.malloc = false → 0 ∉ openFds) := fun h => absurd (hmalloc.symm.trans h) (by simp)
    by_cases hsock : c.makeSocket.1 = -1
    · obtain ⟨hunwatched, hlisten, hfds⟩ := @realize_of_socket dev openFds c hmalloc hsock
      obtain ⟨hs, hdev, hopen, hall⟩ := hunwatched.run hrun
      obtain ⟨hwatch, hopen'⟩ := uninit_of_none (show s.dev.listenFd = -1 by rw [hdev, hlisten])
      refine ⟨fun fd => by rw [hwatch, hs], hall, ?_⟩
      rw [hopen', hopen, hfds, List.append_right_eq_self]
      cases hsocket : c.socket with
      | none =>
        refine iff_of_true ?_ ⟨hno, fun hlost => hlost.2.1 hsocket⟩
        rw [RealizeCalls.makeSocket, hsocket]
      | some sock =>
        obtain ⟨hpos, -⟩ := hc sock hsocket
        have hbind : c.bind = false := by
          by_contra hbind
          rw [RealizeCalls.makeSocket, hsocket] at hsock
          simp only [Bool.not_eq_false] at hbind
          simp only [hbind, if_true] at hsock
          omega
        refine iff_of_false ?_ fun h => h.2 ⟨hmalloc, by simp [hsocket], hbind⟩
        rw [RealizeCalls.makeSocket, hsocket]
        simp [hbind]
    · obtain ⟨sock, hsocket, hbind⟩ : ∃ sock, c.socket = some sock ∧ c.bind = true := by
        cases hsocket : c.socket with
        | none => exact absurd (by rw [RealizeCalls.makeSocket, hsocket]) hsock
        | some sock =>
          refine ⟨sock, rfl, ?_⟩
          by_contra hbind
          exact hsock (by rw [RealizeCalls.makeSocket, hsocket]; simp [hbind])
      obtain ⟨hpos, hnew⟩ := hc sock hsocket
      have hlisten : c.listen = false := by
        by_contra hlisten
        exact hstarts sock ⟨hmalloc, hsocket, hbind, by simpa using hlisten⟩
      have hmake : c.makeSocket = (sock, [sock]) := by
        rw [RealizeCalls.makeSocket, hsocket]
        simp [hbind]
      obtain ⟨hunwatched, hlistenFd, hfds⟩ :=
        @realize_of_listen dev openFds c sock hmalloc hmake hpos hlisten
      obtain ⟨hs, hdev, hopen, hall⟩ := hunwatched.run hrun
      have hne : s.dev.listenFd ≠ -1 := by
        rw [hdev, hlistenFd]
        omega
      have hold : ∀ fd ∈ openFds, fd ≠ sock := by
        rintro fd hfd rfl
        exact hnew hfd
      refine ⟨fun fd => ?_, hall, iff_of_true ?_ ⟨hno, fun hlost => ?_⟩⟩
      · rw [watched_uninit hne, hs, ite_self]
      · rw [openFds_uninit hne, hopen, hfds, hdev, hlistenFd, List.filter_append,
          List.filter_eq_self.mpr fun fd hfd => decide_eq_true (hold fd hfd)]
        simp
      · exact absurd (hbind.symm.trans hlost.2.2) (by simp)
  · have hfalse : c.malloc = false := by simpa using hmalloc
    have hunwatched : (Server.plugged dev openFds).Unwatched := fun _ => rfl
    rw [realize_of_malloc hfalse] at hrun
    obtain ⟨hs, hdev, hopen, hall⟩ := hunwatched.run hrun
    have hzero : s.dev.listenFd = 0 := by
      rw [hdev]
      rfl
    have hne : s.dev.listenFd ≠ -1 := by omega
    refine ⟨fun fd => ?_, hall, ?_⟩
    · rw [watched_uninit hne, hs, ite_self]
    · have hlost : ¬c.LosesSocket := fun hlost => hmalloc hlost.1
      have hfds : (Server.plugged dev openFds).openFds = openFds := rfl
      rw [openFds_uninit hne, hopen, hfds, hzero, List.filter_eq_self]
      constructor
      · intro h
        exact ⟨fun _ hmem => absurd rfl (of_decide_eq_true (h 0 hmem)), hlost⟩
      · rintro ⟨h, -⟩ fd hfd
        refine decide_eq_true ?_
        rintro rfl
        exact h hfalse hfd

/-- **When a handler outlives the device**: for every outcome of the calls in `huc_realize` and
every run of events after it, a read handler of the device is still registered after `hucdev_uninit`
exactly if the server was started and a client is connected, or an `accept` has failed. -/
theorem handler_left_iff (hc : c.Fresh openFds) (hopen : ∀ fd ∈ openFds, 0 ≤ fd)
    (hrun : run (serverStep env) ((Server.plugged dev openFds).realize c) acts = some s) :
    (∃ fd, s.uninit.watched fd ≠ none) ↔
      (∃ sock, c.Starts sock) ∧ (s.dev.connectFd ≠ -1 ∨ .accept none ∈ acts) := by
  by_cases hstarts : ∃ sock, c.Starts sock
  · obtain ⟨sock, hsock⟩ := hstarts
    rw [(uninit_of_starts hc hopen hsock hrun).1]
    exact (and_iff_right ⟨sock, hsock⟩).symm
  · obtain ⟨hwatch, -, -⟩ := uninit_of_not_starts hc (fun sock h => hstarts ⟨sock, h⟩) hrun
    exact iff_of_false (fun ⟨fd, hfd⟩ => hfd (hwatch fd)) fun h => hstarts h.1

/-- **When unplugging undoes plugging**: for every outcome of the calls in `huc_realize` and every
run of events after it, `hucdev_uninit` leaves no handler of the device and the descriptors that
were open before, and no other, exactly if `accept` was never called, no socket was lost to a
failing `bind`, and, if there was no memory for the buffer, descriptor 0 was not open.

**Proof sketch.** A started server is left with the descriptors that `accept` has returned
(`uninit_of_starts`), and after a failing `accept` with a handler. -/
theorem restored_iff (hc : c.Fresh openFds) (hopen : ∀ fd ∈ openFds, 0 ≤ fd)
    (hrun : run (serverStep env) ((Server.plugged dev openFds).realize c) acts = some s) :
    s.uninit.Restored openFds ↔
      (c.malloc = false → 0 ∉ openFds) ∧ ¬c.LosesSocket ∧ ∀ fd, .accept fd ∉ acts := by
  by_cases hstarts : ∃ sock, c.Starts sock
  · obtain ⟨sock, hsock⟩ := hstarts
    obtain ⟨hhandler, hfds, hcon⟩ := uninit_of_starts hc hopen hsock hrun
    have hmalloc : c.malloc = false → 0 ∉ openFds := fun h =>
      absurd (hsock.1.symm.trans h) (by simp)
    have hlost : ¬c.LosesSocket := fun hlost => absurd (hsock.2.2.1.symm.trans hlost.2.2) (by simp)
    rw [and_iff_right hmalloc, and_iff_right hlost, Server.Restored, hfds,
      List.append_right_eq_self]
    constructor
    · rintro ⟨hwatch, hnil⟩ fd hmem
      cases fd with
      | none =>
        obtain ⟨fd, hfd⟩ := hhandler.mpr (Or.inr hmem)
        exact hfd (hwatch fd)
      | some fd =>
        have hfd : fd ∈ acts.filterMap ServerAct.acceptedFd :=
          List.mem_filterMap.mpr ⟨_, hmem, rfl⟩
        rw [hnil] at hfd
        exact absurd hfd List.not_mem_nil
    · intro hnone
      have hnil : acts.filterMap ServerAct.acceptedFd = [] := by
        rw [List.filterMap_eq_nil_iff]
        intro a ha
        cases a with
        | accept fd => exact absurd ha (hnone fd)
        | _ => rfl
      refine ⟨fun fd => ?_, hnil⟩
      by_contra hfd
      rcases hhandler.mp ⟨fd, hfd⟩ with hclient | hmem
      · exact hcon hclient hnil
      · exact hnone none hmem
  · obtain ⟨hwatch, hall, hfds⟩ := uninit_of_not_starts hc (fun sock h => hstarts ⟨sock, h⟩) hrun
    have hnone : ∀ fd, .accept fd ∉ acts := fun fd hmem => absurd (hall _ hmem) (by simp)
    rw [Server.Restored, and_iff_right hwatch, hfds]
    exact ⟨fun h => ⟨h.1, h.2, hnone⟩, fun h => ⟨h.1, h.2.1⟩⟩

end Unplug

/-- All calls succeed, and the socket has number 3. -/
def started : RealizeCalls := ⟨true, some 3, true, true⟩

/-- The socket of a started server is a new descriptor next to 0, 1 and 2. -/
lemma fresh_started : started.Fresh [0, 1, 2] := by
  intro sock hsock
  obtain rfl : 3 = sock := Option.some.inj hsock
  decide

/-- A client is connected when the device is unplugged. -/
theorem handler_left_four :
    ∃ s, run (serverStep ⟨2, 0⟩) ((Server.plugged restState [0, 1, 2]).realize started)
        [.connect, .accept (some 4)] = some s ∧ ∃ fd, s.uninit.watched fd ≠ none := by
  have hvals : (run (serverStep ⟨2, 0⟩) ((Server.plugged restState [0, 1, 2]).realize started)
      [.connect, .accept (some 4)]).map (fun s => s.dev.connectFd) = some 4 := by decide
  obtain ⟨s, hrun, hs⟩ := Option.map_eq_some_iff.mp hvals
  refine ⟨s, hrun, (handler_left_iff fresh_started (by decide) hrun).mpr
    ⟨⟨3, rfl, rfl, rfl, rfl⟩, Or.inl ?_⟩⟩
  rw [hs]
  decide

/-- No client was ever accepted. -/
theorem restored_three :
    ∃ s, run (serverStep ⟨2, 0⟩) ((Server.plugged restState [0, 1, 2]).realize started)
        [.connect] = some s ∧ s.uninit.Restored [0, 1, 2] := by
  obtain ⟨s, hrun⟩ : ∃ s, run (serverStep ⟨2, 0⟩)
      ((Server.plugged restState [0, 1, 2]).realize started) [.connect] = some s := ⟨_, rfl⟩
  refine ⟨s, hrun, (restored_iff fresh_started (by decide) hrun).mpr ⟨nofun, ?_, ?_⟩⟩
  · exact fun hlost => Bool.noConfusion hlost.2.2
  · exact fun fd hmem => nomatch List.mem_singleton.mp hmem

end Huc
