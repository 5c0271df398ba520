import Huc.Device.Server
import Huc.Newdev.Rewrite

set_option relaxedAutoImplicit false
set_option autoImplicit false

/-!
# The connection server of `newdev`

`newdev` of `qemu-patch/0001-Add-newdev-for-hyperupcall.patch` has a server of its own:
`accept_handle_read` takes the place of `handle_listenfd`, and `connected_handle_read` that of
`handle_acceptfd`. Here both devices are whole machines, with their servers and with the accesses of
the guest. Clients come and go, the stream is cut anywhere and the guest accesses the windows in
between; as long as the guest does not raise through BAR0 and binds no vCPU while the remapping is
on, one machine does what the other does.

## Main definitions

* `Huc.acceptHandleRead`, `Huc.connectedHandleRead`, `Huc.newdevRealize` — the functions.
* `Huc.NewdevServer`, `Huc.newdevServerStep` — the events of the server.
* `Huc.HucMachine`, `Huc.NewdevMachine` — the devices with everything they have replied.
* `Huc.Portable` — the steps on which the devices agree.

## Main results

* `Huc.connectedHandleRead_eq` — one readable connection.
* `Huc.map_serverStep` — one event of the servers.
* `Huc.newdev_machine_run` — the runs of one machine are those of the other.
-/

namespace Huc

open Transition

/-! ## The handlers -/

/-- The end of `newdev_realize`, given what `make_socket` returns and whether `listen` succeeds. -/
def newdevRealize (dev : NewdevState) (sock : ℤ) (listenOk : Bool) : NewdevState × List Effect :=
  let dev := { dev with listenFd := sock, connectFd := -1, hyperthreadingRemapping := false }
  if sock < 0 then (dev, [])
  else if !listenOk then (dev, [])
  else (dev, [.setFdHandler sock (some .listenfd)])

/-- `accept_handle_read`, given the descriptor (or `-1`) that `accept` returns. As a registered
function it is `FdHandler.listenfd`, and `connected_handle_read` is `FdHandler.acceptfd`. -/
def acceptHandleRead (s : NewdevState) (accepted : ℤ) : NewdevState × List Effect :=
  ({ s with connectFd := accepted },
    [.setFdHandler accepted (some .acceptfd), .setFdHandler s.listenFd none])

/-- The outcome of one call of `connected_handle_read`. -/
structure NewdevAccepted where
  state : NewdevState
  sock : Socket
  effects : List Effect
  dispatched : Option (Byte × List Byte)

/-- `connected_handle_read`. -/
def connectedHandleRead (env : NewdevEnv) (s : NewdevState) (k : Socket) : NewdevAccepted :=
  let hdr := k.recv 4
  if hdr.1 = [] then
    { state := { s with connectFd := -1 }
      sock := hdr.2
      effects := [.setFdHandler s.connectFd none, .setFdHandler s.listenFd (some .listenfd)]
      dispatched := none }
  else
    let s := { s with buf := s.buf.write headerOffset hdr.1 }
    let pay := hdr.2.recv s.header.payloadLen.toNat
    let s := { s with buf := s.buf.write payloadOffset pay.1 }
    { state := (newdevDispatch env s).1
      sock := pay.2
      effects := (newdevDispatch env s).2
      dispatched := some (s.header.type, s.payload) }

/-! ## The server -/

/-- The device with the handlers and descriptors of its process, as in `Server`. -/
structure NewdevServer where
  dev : NewdevState
  watched : ℤ → Option FdHandler
  openFds : List ℤ
  accepted : List ℤ
  backlog : ℕ

/-- The server after `newdev_realize` has started to listen on the socket `sock`. -/
def NewdevServer.start (dev : NewdevState) (sock : ℤ) : NewdevServer where
  dev := (newdevRealize dev sock true).1
  watched := (newdevRealize dev sock true).2.foldl perform fun _ => none
  openFds := [sock]
  accepted := []
  backlog := 0

/-- `connected_handle_read`, called for the bytes of `k`. -/
def NewdevServer.connected (env : NewdevEnv) (s : NewdevServer) (k : Socket) :
    Option NewdevServer :=
  if s.watched s.dev.connectFd = some .acceptfd ∧ s.dev.connectFd ∈ s.openFds then
    let r := connectedHandleRead env s.dev k
    some { s with dev := r.state, watched := r.effects.foldl perform s.watched }
  else none

/-- One event. -/
def newdevServerStep (env : NewdevEnv) (s : NewdevServer) : ServerAct → Option NewdevServer
  | .connect => some { s with backlog := s.backlog + 1 }
  | .accept fd =>
    if s.watched s.dev.listenFd = some .listenfd ∧ s.dev.listenFd ∈ s.openFds ∧ 0 < s.backlog then
      match fd with
      | some fd =>
        if 0 ≤ fd ∧ fd ∉ s.openFds then
          let r := acceptHandleRead s.dev fd
          some
            { dev := r.1
              watched := r.2.foldl perform s.watched
              openFds := s.openFds ++ [fd]
              accepted := s.accepted ++ [fd]
              backlog := s.backlog - 1 }
        else none
      | none =>
        let r := acceptHandleRead s.dev (-1)
        some { s with dev := r.1, watched := r.2.foldl perform s.watched }
    else none
  | .message k => if k.stream ≠ [] then s.connected env k else none
  | .close => s.connected env ⟨[], fun _ => 0⟩
  | .recvError => s.connected env ⟨[], fun _ => 0⟩

/-- The calls that `hucdev` makes in an event. -/
def serverCalls (env : HostEnv) (s : Server) : ServerAct → List Effect
  | .connect => []
  | .accept fd => (handleListenfd s.dev (fd.getD (-1))).2
  | .message k => (handleAcceptfd env s.dev k).effects
  | .close => (handleAcceptfd env s.dev ⟨[], fun _ => 0⟩).effects
  | .recvError => (handleAcceptfd env s.dev ⟨[], fun _ => 0⟩).effects

/-- The calls that `newdev` makes in an event. -/
def newdevServerCalls (env : NewdevEnv) (s : NewdevServer) : ServerAct → List Effect
  | .connect => []
  | .accept fd => (acceptHandleRead s.dev (fd.getD (-1))).2
  | .message k => (connectedHandleRead env s.dev k).effects
  | .close => (connectedHandleRead env s.dev ⟨[], fun _ => 0⟩).effects
  | .recvError => (connectedHandleRead env s.dev ⟨[], fun _ => 0⟩).effects

/-- The server of `hucdev` as one of `newdev`. -/
def Server.toNewdev (s : Server) : NewdevServer :=
  ⟨s.dev.toNewdev, s.watched, s.openFds, s.accepted, s.backlog⟩

section Events

variable {env : NewdevEnv}

/-- The servers start alike. -/
lemma toNewdev_start (dev : HucState) (sock : ℤ) :
    (Server.start dev sock).toNewdev = NewdevServer.start dev.toNewdev sock := by
  simp only [Server.start, Server.toNewdev, NewdevServer.start, hucRealize, newdevRealize]
  split_ifs
  · rfl
  · rfl
  · rfl

/-- The switch on the same state. -/
lemma newdevDispatch_eq (s : HucState) :
    newdevDispatch env s.toNewdev =
      ((dispatch env.toHostEnv s).1.toNewdev, (dispatch env.toHostEnv s).2) := by
  have htype : s.toNewdev.header.type = s.header.type := rfl
  rw [newdevDispatch, dispatch, htype]
  rcases MsgType.ofCode? s.header.type with _ | t
  · rfl
  · cases t <;> rfl

/-- **A readable connection**: whatever the two calls of `recv` return, both handlers store the
same, enter the switch with the same message and make the same calls. -/
lemma connectedHandleRead_eq (s : HucState) (k : Socket) :
    connectedHandleRead env s.toNewdev k =
      { state := (handleAcceptfd env.toHostEnv s k).state.toNewdev
        sock := (handleAcceptfd env.toHostEnv s k).sock
        effects := (handleAcceptfd env.toHostEnv s k).effects
        dispatched := (handleAcceptfd env.toHostEnv s k).dispatched } := by
  by_cases hnil : (k.recv 4).1 = []
  · simp only [connectedHandleRead, handleAcceptfd, if_pos hnil]
    rfl
  · have hheader : ∀ buf : ByteMem,
        NewdevState.header { s.toNewdev with buf := buf } = HucState.header { s with buf := buf } :=
      fun _ => rfl
    have hswitch : ∀ buf : ByteMem, newdevDispatch env { s.toNewdev with buf := buf } =
        ((dispatch env.toHostEnv { s with buf := buf }).1.toNewdev,
          (dispatch env.toHostEnv { s with buf := buf }).2) :=
      fun buf => newdevDispatch_eq { s with buf := buf }
    have hbuf : s.toNewdev.buf = s.buf := rfl
    simp only [connectedHandleRead, handleAcceptfd, if_neg hnil, hbuf, hheader, hswitch]
    rfl

/-- A readable connection in the servers. -/
lemma map_acceptfd (s : Server) (k : Socket) :
    (s.acceptfd env.toHostEnv k).map Server.toNewdev = s.toNewdev.connected env k := by
  have hdev : s.toNewdev.dev = s.dev.toNewdev := rfl
  have hfd : s.dev.toNewdev.connectFd = s.dev.connectFd := rfl
  have hwatched : s.toNewdev.watched = s.watched := rfl
  have hopen : s.toNewdev.openFds = s.openFds := rfl
  simp only [Server.acceptfd, NewdevServer.connected, hdev, hfd, hwatched, hopen,
    connectedHandleRead_eq]
  split_ifs
  · rfl
  · rfl

/-- **One event of the servers** is possible for both or for neither, and leads to the same. -/
lemma map_serverStep (s : Server) (a : ServerAct) :
    (serverStep env.toHostEnv s a).map Server.toNewdev = newdevServerStep env s.toNewdev a := by
  cases a with
  | connect => rfl
  | accept fd =>
    have hdev : s.toNewdev.dev = s.dev.toNewdev := rfl
    have hfd : s.dev.toNewdev.listenFd = s.dev.listenFd := rfl
    have hwatched : s.toNewdev.watched = s.watched := rfl
    have hopen : s.toNewdev.openFds = s.openFds := rfl
    have hbacklog : s.toNewdev.backlog = s.backlog := rfl
    simp only [serverStep, newdevServerStep, hdev, hfd, hwatched, hopen, hbacklog]
    cases fd with
    | none => split_ifs <;> rfl
    | some fd =>
      dsimp only
      split_ifs <;> rfl
  | message k =>
    simp only [serverStep, newdevServerStep]
    split_ifs
    · exact map_acceptfd s k
    · rfl
  | close => exact map_acceptfd s _
  | recvError => exact map_acceptfd s _

/-- The calls made in an event. -/
lemma newdevServerCalls_eq (s : Server) (a : ServerAct) :
    newdevServerCalls env s.toNewdev a = serverCalls env.toHostEnv s a := by
  have hdev : s.toNewdev.dev = s.dev.toNewdev := rfl
  cases a with
  | connect => rfl
  | accept fd => rfl
  | message k => simp only [newdevServerCalls, serverCalls, hdev, connectedHandleRead_eq]
  | close => simp only [newdevServerCalls, serverCalls, hdev, connectedHandleRead_eq]
  | recvError => simp only [newdevServerCalls, serverCalls, hdev, connectedHandleRead_eq]

end Events

/-! ## The whole machines -/

/-- An access of the guest: a read or a write of BAR0 at the offsets 0 to 15, or of BAR1. -/
abbrev GuestAccess := {a : Access // a.Common ∧ ∀ m, a ≠ .op (.message m)}

/-- What happens to a device: an event of its server, or an access of the guest. -/
inductive MachineAct
  | event (a : ServerAct)
  | access (a : GuestAccess)

/-- `hucdev` with its server, and what it has replied so far. -/
structure HucMachine where
  server : Server
  replies : List Reply

/-- `newdev` with its server, and what it has replied so far. -/
structure NewdevMachine where
  server : NewdevServer
  replies : List Reply

/-- One step of `hucdev`. -/
def hucMachineStep (env : HostEnv) (s : HucMachine) : MachineAct → Option HucMachine
  | .event a => (serverStep env s.server a).map fun t =>
    ⟨t, s.replies ++ [⟨none, serverCalls env s.server a⟩]⟩
  | .access a => (accessStep env s.server.dev a.1).map fun dev =>
    ⟨{ s.server with dev := dev }, s.replies ++ [hucReply env s.server.dev a.1]⟩

/-- One step of `newdev`. -/
def newdevMachineStep (env : NewdevEnv) (s : NewdevMachine) : MachineAct → Option NewdevMachine
  | .event a => (newdevServerStep env s.server a).map fun t =>
    ⟨t, s.replies ++ [⟨none, newdevServerCalls env s.server a⟩]⟩
  | .access a => (newdevStep env s.server.dev a.1).map fun dev =>
    ⟨{ s.server with dev := dev }, s.replies ++ [newdevReply env s.server.dev a.1]⟩

/-- `hucdev` as `newdev`, with the same replies. -/
def HucMachine.toNewdev (s : HucMachine) : NewdevMachine := ⟨s.server.toNewdev, s.replies⟩

/-- The guest does not raise through BAR0, and binds vCPUs only while the remapping is off. -/
def Portable (s : HucMachine) : MachineAct → Prop
  | .event _ => True
  | .access a => (∀ val, a.1 ≠ .op (.ioWrite 8#64 val)) ∧
    ∀ addr val, a.1 = .op (.bufWrite addr val) → bufIndex addr = 3 →
      s.server.dev.hyperthreadingRemapping = false

section Machines

variable {env : NewdevEnv}

/-- A BAR1 write is the same, unless it binds vCPUs while the remapping is on. -/
lemma newdevBufmmioWrite_eq_of_portable {s : HucState} {addr val : BitVec 64}
    (h : bufIndex addr = 3 → s.hyperthreadingRemapping = false) :
    newdevBufmmioWrite env s.toNewdev addr val 4 =
      ((hucdevBufmmioWrite env.toHostEnv s addr val 4).1.toNewdev,
        (hucdevBufmmioWrite env.toHostEnv s addr val 4).2) := by
  by_cases h3 : bufIndex addr = 3
  · exact newdevBufmmioWrite_eq (h h3) addr val
  · have hle := not_lt.mpr (bufOffset_add_le addr)
    rw [newdevBufmmioWrite, if_neg hle, hucdevBufmmioWrite, if_neg hle]
    generalize bufIndex addr = i at h3
    rcases i with _ | _ | _ | _ | i
    · rfl
    · rfl
    · rfl
    · exact absurd rfl h3
    · rfl

/-- **One step of the machines** on which the devices agree.

**Proof sketch.** An event of the server is one of both servers (`map_serverStep`). An access of the
guest is the same by the lemma about its callback; a write to the register that raises, where the
devices differ, is excluded. -/
lemma map_machineStep {s : HucMachine} {a : MachineAct} (h : Portable s a) :
    (hucMachineStep env.toHostEnv s a).map HucMachine.toNewdev =
      newdevMachineStep env s.toNewdev a := by
  have hserver : s.toNewdev.server = s.server.toNewdev := rfl
  have hreplies : s.toNewdev.replies = s.replies := rfl
  cases a with
  | event a =>
    simp only [hucMachineStep, newdevMachineStep, hserver, hreplies, newdevServerCalls_eq,
      ← map_serverStep, Option.map_map]
    rfl
  | access a =>
    obtain ⟨a, hcommon, hmessage⟩ := a
    obtain ⟨hraise, hbind⟩ := h
    have hdev : s.server.toNewdev.dev = s.server.dev.toNewdev := rfl
    simp only [hucMachineStep, newdevMachineStep, hserver, hreplies, hdev]
    cases a with
    | ioRead addr =>
      rw [newdevStep, newdevReply, newdevIoRead_eq hcommon]
      rfl
    | op op =>
      cases op with
      | ioWrite addr val =>
        obtain ⟨t, ht, hnewdev⟩ := @newdevIoWrite_eq s.server.dev addr val hcommon
        have haddr : addr ≠ 8#64 := by
          rintro rfl
          exact hraise val rfl
        rw [if_neg haddr] at hnewdev
        have hhuc : accessStep env.toHostEnv s.server.dev (.op (.ioWrite addr val)) = some t := ht
        have hnew : newdevStep env s.server.dev.toNewdev (.op (.ioWrite addr val)) =
            some t.toNewdev := hnewdev
        rw [hhuc, hnew]
        rfl
      | bufRead addr => rfl
      | bufWrite addr val =>
        have hwrite := @newdevBufmmioWrite_eq_of_portable env s.server.dev addr val
          (hbind addr val rfl)
        simp only [accessStep, deviceStep, newdevStep, newdevReply, hucReply, deviceEffects, hwrite]
        rfl
      | message m => exact absurd rfl (hmessage m)

/-- **The machines have the same runs.** From the same state, with the same memory found by
`CPU_ALLOC`, in every order of connects, `accept`s that succeed or fail, streams that TCP cuts
anywhere, closes, errors and accesses of the guest to the offsets 0 to 15 of BAR0 and to BAR1,
`newdev` can take the steps that `hucdev` can and ends with the same registers, buffer, interrupt,
descriptors and handlers, having replied the same, as long as the guest does not raise through BAR0
and binds vCPUs only while the remapping is off. -/
theorem newdev_machine_run {s : HucMachine} {as : List MachineAct}
    (h : Along (hucMachineStep env.toHostEnv) Portable s as) :
    (run (hucMachineStep env.toHostEnv) s as).map HucMachine.toNewdev =
      run (newdevMachineStep env) s.toNewdev as :=
  map_run_of_along HucMachine.toNewdev (fun _ _ => map_machineStep) h

end Machines

/-- A client connects and sends a program of one byte, and the guest reads the interrupt status. -/
def oneInjection : List MachineAct :=
  [.event .connect, .event (.accept (some 4)),
    .event (.message ⟨[1#8, 1#8, 1#8, 0#8, 7#8], fun _ => 4⟩),
    .access ⟨.op (.bufRead 0#64), trivial, nofun⟩]

/-- `newdev` announces the program. -/
theorem newdev_machine_run_one :
    ∃ t, run (newdevMachineStep ⟨⟨2, 0⟩, 4⟩) ⟨NewdevServer.start restState.toNewdev 3, []⟩
        oneInjection = some t ∧ t.replies.getLast? = some ⟨some 1#64, []⟩ := by
  have hrun := @newdev_machine_run ⟨⟨2, 0⟩, 4⟩ ⟨Server.start restState 3, []⟩ oneInjection
    ⟨trivial, fun _ _ => ⟨trivial, fun _ _ => ⟨trivial, fun _ _ => ⟨⟨nofun, nofun⟩,
      fun _ _ => trivial⟩⟩⟩⟩
  have hvals : (run (hucMachineStep ⟨2, 0⟩) ⟨Server.start restState 3, []⟩ oneInjection).map
      (fun s => s.replies.getLast?) = some (some ⟨some 1#64, []⟩) := by decide
  obtain ⟨s, hs, hlast⟩ := Option.map_eq_some_iff.mp hvals
  have hnewdev : run (newdevMachineStep ⟨⟨2, 0⟩, 4⟩) ⟨NewdevServer.start restState.toNewdev 3, []⟩
      oneInjection = some s.toNewdev := by
    rw [hs] at hrun
    rw [← toNewdev_start]
    exact hrun.symm
  exact ⟨s.toNewdev, hnewdev, hlast⟩

end Huc
