import Huc.Channel.Turns
import Huc.Channel.Loading

set_option relaxedAutoImplicit false
set_option autoImplicit false

/-!
# From the file of the host to its loader

The whole way of a bytecode file: the tool on the host sends it, the device stores it and raises its
interrupt, the driver wakes the daemon, `recv_bytecode` reads it word by word, `save_bytecode`
writes it to `/tmp/bytecode`, and a new child loads it from there. The channel of
`Huc.Channel.Basic` and the parent with its children of `Huc.Channel.Loading` run next to each
other here, one access at a time. What they share is the parent: while it saves and forks it does
not call `recv_bytecode`, but the host, the interrupt handler and the children go on.

## Main definitions

* `Huc.BytecodePath`, `Huc.pathStep` — the two systems as one.
* `Huc.Injections` — runs in which given files are sent, each to a waiting daemon, and nothing
  fails.
* `Huc.PathInv` — the invariant.

## Main results

* `Huc.pathStep_inv` — every step keeps the invariant.
* `Huc.loader_reads_file` — what the loaders read of the files.
* `Huc.files_reach_loader` — every file can be brought to its loader.

## Design

A return of `recv_bytecode` with an injection is one step of both systems: the payload that the
channel adds to `Channel.saved` is the one that the parent goes on to save. There the field only
lists these payloads; what is in the file is the field `saved` of `Huc.Loading`.
-/

namespace Huc

open Transition

/-! ## The two systems as one -/

/-- The payload with which `recv_bytecode` returns to the parent. -/
def LoadAct.payload? : LoadAct → Option (List Byte)
  | .receive p => some p
  | _ => none

/-- The channel up to the parent's `recv_bytecode`, and the parent from there on, with its
children. -/
structure BytecodePath where
  channel : Channel
  loading : Loading

/-- The daemon has been started on a device in any state, with the file of an earlier daemon. -/
def BytecodePath.start (dev : HucState) (saved : Option (List Byte)) : BytecodePath :=
  ⟨Channel.start dev, Loading.start saved⟩

/-- The steps: those of the channel, and the accesses of the parent and its children. -/
inductive PathAct
  | channel (a : ChannelAct)
  | loading (a : LoadAct)
  deriving DecidableEq

/-- The message that an act stores. -/
def PathAct.message? : PathAct → Option HucMsg
  | .channel a => a.message?
  | .loading _ => none

/-- One step. -/
def pathStep (env : HostEnv) (s : BytecodePath) : PathAct → Option BytecodePath
  | .channel a =>
    if a = .daemon → s.loading.pc = .waiting then
      -- the payload of an injection that the step returns goes to the parent
      (channelStep env s.channel a).bind fun c =>
        (run loadingStep s.loading ((c.saved.drop s.channel.saved.length).map .receive)).map
          fun l => ⟨c, l⟩
    else none
  | .loading a =>
    -- `recv_bytecode` returns by a step of the channel only
    if a.payload? = none then (loadingStep s.loading a).map fun l => ⟨s.channel, l⟩ else none

/-! ## What each step is -/

section Steps

variable {env : HostEnv} {s t : BytecodePath}

/-- **What a step of the channel adds to the payloads**: nothing, or the one that `recv_bytecode`
returns. -/
lemma saved_channelStep {c c' : Channel} {a : ChannelAct} (h : channelStep env c a = some c') :
    c'.saved = c.saved ∨
      ∃ p, a = .daemon ∧ c'.recv.pc = .seekHeader ∧ c'.saved = c.saved ++ [p] := by
  cases a with
  | host m =>
    obtain ⟨-, rfl⟩ := step_host h
    exact Or.inl rfl
  | irqRead =>
    obtain ⟨-, -, rfl⟩ := step_irqRead h
    exact Or.inl rfl
  | irqWake =>
    obtain ⟨v, -, rfl⟩ := step_irqWake h
    exact Or.inl rfl
  | irqAck =>
    obtain ⟨v, -, rfl⟩ := step_irqAck h
    exact Or.inl rfl
  | daemon =>
    obtain ⟨r, hr, rfl⟩ := Option.map_eq_some_iff.mp h
    rcases hret : r.returned with _ | ⟨hd, p⟩
    · exact Or.inl rfl
    · by_cases htype : hd.type = MsgType.programInjection.code
      · exact Or.inr ⟨_, rfl, recvStep_returned hr hret, saved_deliver _ p htype⟩
      · exact Or.inl (if_neg htype)

/-- **What a step of the channel is**: it leaves the parent alone, or `recv_bytecode` returns to
it. -/
lemma pathStep_channel {a : ChannelAct} (h : pathStep env s (.channel a) = some t) :
    channelStep env s.channel a = some t.channel ∧ (a = .daemon → s.loading.pc = .waiting) ∧
      (t.channel.saved = s.channel.saved ∧ t.loading = s.loading ∨
        ∃ p, t.channel.recv.pc = .seekHeader ∧ t.channel.saved = s.channel.saved ++ [p] ∧
          loadingStep s.loading (.receive p) = some t.loading) := by
  simp only [pathStep] at h
  split_ifs at h with hpc
  obtain ⟨c, hstep, h⟩ := Option.bind_eq_some_iff.mp h
  obtain ⟨l, hrun, rfl⟩ := Option.map_eq_some_iff.mp h
  refine ⟨hstep, hpc, ?_⟩
  rcases saved_channelStep hstep with hsame | ⟨p, -, hseek, hsaved⟩
  · rw [hsame, List.drop_length, List.map_nil, run_nil, Option.some.injEq] at hrun
    exact Or.inl ⟨hsame, hrun.symm⟩
  · rw [hsaved, List.drop_left, List.map_singleton, run_singleton] at hrun
    exact Or.inr ⟨p, hseek, hsaved, hrun⟩

/-- An access of the parent or a child leaves the channel alone. -/
lemma pathStep_loading {a : LoadAct} (h : pathStep env s (.loading a) = some t) :
    a.payload? = none ∧ loadingStep s.loading a = some t.loading ∧ t.channel = s.channel := by
  simp only [pathStep] at h
  split_ifs at h with ha
  obtain ⟨l, hl, rfl⟩ := Option.map_eq_some_iff.mp h
  exact ⟨ha, hl, rfl⟩

/-- The payloads received are those that `recv_bytecode` has returned.

**Proof sketch.** By the access; only the return of `recv_bytecode` adds to the list. -/
lemma received_loadingStep {s t : Loading} {a : LoadAct} (h : loadingStep s a = some t) :
    t.received = s.received ++ a.payload?.toList := by
  have hnone : ∀ l : List (List Byte), l = l ++ (none : Option (List Byte)).toList := fun l =>
    (List.append_nil l).symm
  cases a with
  | receive p =>
    obtain ⟨-, rfl⟩ := loadingStep_receive h
    rfl
  | fopen ok =>
    obtain ⟨p, -, ⟨-, rfl⟩ | ⟨-, rfl⟩⟩ := loadingStep_fopen h
    · exact hnone s.received
    · exact hnone s.received
  | write n =>
    obtain ⟨p, k, -, -, rfl⟩ := loadingStep_write h
    exact hnone s.received
  | close =>
    obtain ⟨p, -, rfl⟩ := loadingStep_close h
    exact hnone s.received
  | lose =>
    obtain ⟨p, k, -, rfl⟩ := loadingStep_lose h
    exact hnone s.received
  | fork f =>
    obtain ⟨-, ⟨-, rfl⟩ | ⟨pid, -, -, -, rfl⟩⟩ := loadingStep_fork h
    · exact hnone s.received
    · exact hnone s.received
  | kill =>
    obtain ⟨pid, -, rfl⟩ := loadingStep_kill h
    exact hnone s.received
  | read pid off n =>
    obtain ⟨-, file, r, -, -, rfl⟩ := loadingStep_read h
    exact hnone s.received
  | exit pid =>
    obtain ⟨-, rfl⟩ := loadingStep_exit h
    exact hnone s.received

/-- A parent that waits in `recv_bytecode` is left there by everything but a return. -/
lemma waiting_loadingStep {s t : Loading} {a : LoadAct} (h : loadingStep s a = some t)
    (ha : a.payload? = none) (hpc : s.pc = .waiting) : t.pc = .waiting := by
  cases a with
  | receive p => exact absurd ha (by simp [LoadAct.payload?])
  | read pid off n =>
    obtain ⟨-, file, r, -, -, rfl⟩ := loadingStep_read h
    exact hpc
  | exit pid =>
    obtain ⟨-, rfl⟩ := loadingStep_exit h
    exact hpc
  | _ => simp [loadingStep, hpc] at h

/-- A step of the channel other than the daemon's leaves the daemon where it is. -/
lemma recv_channelStep {c c' : Channel} {a : ChannelAct} (h : channelStep env c a = some c')
    (ha : a ≠ .daemon) : c'.recv = c.recv := by
  cases a with
  | host m =>
    obtain ⟨-, rfl⟩ := step_host h
    rfl
  | irqRead =>
    obtain ⟨-, -, rfl⟩ := step_irqRead h
    rfl
  | irqWake =>
    obtain ⟨v, -, rfl⟩ := step_irqWake h
    rfl
  | irqAck =>
    obtain ⟨v, -, rfl⟩ := step_irqAck h
    rfl
  | daemon => exact absurd rfl ha

end Steps

/-! ## The invariant -/

/-- Every message is sent to a waiting daemon, and no call of `save_bytecode` and no `fork`
fails. -/
def InjectsWhenWaiting (s : BytecodePath) : PathAct → Prop
  | .channel a => SendWhenWaiting s.channel a
  | .loading a => ¬a.Fails

/-- The act, if it stores a message, stores a program that is not empty. -/
def PathAct.SendsProgram : PathAct → Prop
  | .channel a => a.SendsProgram
  | .loading _ => True

/-- **The invariant**: those of the two systems, and what they share. -/
structure PathInv (env : HostEnv) (saved : Option (List Byte)) (s : BytecodePath) : Prop where
  transfer : TransferInv env s.channel
  turn : TurnInv s.channel
  sound : SoundInv saved s.loading
  received : s.loading.received = s.channel.saved
  busy : s.loading.pc ≠ .waiting → s.channel.recv.pc = .seekHeader

section Invariant

variable {env : HostEnv} {saved : Option (List Byte)} {s t : BytecodePath}

/-- The daemon has been started. -/
lemma pathInv_start (env : HostEnv) {dev : HucState} (hstatus : dev.irqStatus = 0#32)
    (hline : dev.irqLine = false) (saved : Option (List Byte)) :
    PathInv env saved (BytecodePath.start dev saved) where
  transfer := transferInv_start env hstatus hline
  turn := turnInv_start hstatus hline
  sound := soundInv_start saved
  received := rfl
  busy _ := rfl

/-- A program is sent to a waiting daemon at the host's turn. -/
lemma TransferInv.sendInTurn {c : Channel} {a : ChannelAct} (h : TransferInv env c)
    (ha : SendWhenWaiting c a) : SendInTurn c a := by
  cases a with
  | host m => exact ⟨ha.2.2, Or.inr ha.1, (h.of_waiting ha).2.1, ha.2.1⟩
  | _ => trivial

/-- **Every step keeps the invariant** when programs are sent to a waiting daemon and nothing
fails.

**Proof sketch.** A step of the channel alone keeps the invariants of the transfer and of the turns.
If it is the return of `recv_bytecode`, it is also a step of the daemon's `main`, which was waiting,
and the payload is added to both histories. A step of `main` alone leaves the channel as it is. -/
lemma pathStep_inv {a : PathAct} (h : PathInv env saved s)
    (hg : InjectsWhenWaiting s a ∧ a.SendsProgram) (hstep : pathStep env s a = some t) :
    PathInv env saved t := by
  cases a with
  | channel a =>
    obtain ⟨hchannel, hdaemon, hrest⟩ := pathStep_channel hstep
    have htransfer := channelStep_transferInv h.transfer hg hchannel
    have hturn := channelStep_turnInv h.turn (h.transfer.sendInTurn hg.1) hchannel
    rcases hrest with ⟨hsaved, hloading⟩ | ⟨p, hseek, hsaved, hreceive⟩
    · refine ⟨htransfer, hturn, hloading ▸ h.sound, ?_, fun hpc => ?_⟩
      · rw [hloading, hsaved, h.received]
      · rw [hloading] at hpc
        rw [recv_channelStep hchannel fun ha => hpc (hdaemon ha)]
        exact h.busy hpc
    · refine ⟨htransfer, hturn, soundInv_step h.sound id hreceive, ?_, fun _ => hseek⟩
      rw [received_loadingStep hreceive, hsaved, h.received]
      rfl
  | loading a =>
    obtain ⟨ha, hloading, hchannel⟩ := pathStep_loading hstep
    refine ⟨hchannel ▸ h.transfer, hchannel ▸ h.turn, soundInv_step h.sound hg.1 hloading, ?_,
      fun hpc => ?_⟩
    · rw [received_loadingStep hloading, ha, hchannel, h.received]
      exact List.append_nil _
    · rw [hchannel]
      exact h.busy fun hwait => hpc (waiting_loadingStep hloading ha hwait)

/-- A daemon that waits for a message has given every program to a loader. -/
lemma PathInv.of_waiting (h : PathInv env saved s) (hw : Waiting s.channel) :
    s.loading.pc = .waiting ∧ s.loading.received.length = s.channel.stored.length := by
  constructor
  · by_contra hpc
    exact absurd (hw.1.symm.trans (h.busy hpc)) (by simp)
  · rw [h.received, (h.transfer.of_waiting hw).1]

/-- The contents that the file was opened for are the first of those there have been. -/
lemma SoundInv.programs_prefix {l : Loading} (h : SoundInv saved l) :
    l.programs <+: saved.toList ++ l.received := by
  by_cases hpc : ∃ p, l.pc = .opening p
  · obtain ⟨p, hp⟩ := hpc
    rw [← h.opening p hp]
    exact List.prefix_append _ _
  · rw [h.history fun p hp => hpc ⟨p, hp⟩]

/-- Each read delivers what a beginning of one of the contents has. -/
lemma ReadsFrom.exists_of_mem {programs : List (List Byte)} {base : ℕ} {rs : List FileRead}
    (h : ReadsFrom programs base rs) {r : FileRead} (hr : r ∈ rs) :
    ∃ p ∈ programs, ∃ c, c <+: p ∧ r.Of c := by
  obtain ⟨js, -, -, hreads⟩ := h
  obtain ⟨i, hi, rfl⟩ := List.mem_iff_getElem.mp hr
  obtain ⟨p, c, hp, hc, hof⟩ := hreads.get (hreads.length_eq.symm ▸ hi) hi
  exact ⟨p, List.mem_of_getElem? hp, c, hc, hof⟩

end Invariant

/-! ## Sending files -/

/-- The acts lead from a started daemon to `s`; the messages are those that `prepare_huc_message`
makes of the files, each is sent to a waiting daemon, and nothing fails. -/
structure Injections (env : HostEnv) (dev : HucState) (saved : Option (List Byte))
    (ps : List (List Byte)) (acts : List PathAct) (s : BytecodePath) : Prop where
  run : run (pathStep env) (BytecodePath.start dev saved) acts = some s
  waits : Along (pathStep env) InjectsWhenWaiting (BytecodePath.start dev saved) acts
  sends : List.Forall₂ (fun p m => prepareHucMessage (.readable p) = m.raw) ps
    (acts.filterMap PathAct.message?)

/-- The act is one of the handler, the daemon or its parent, and does not fail. -/
def PathAct.ofGuest : PathAct → Prop
  | .channel a => a.message? = none
  | .loading a => a.ofParent ∧ ¬a.Fails

section Sending

variable {env : HostEnv} {dev : HucState} {saved : Option (List Byte)} {ps : List (List Byte)}
  {acts : List PathAct} {s t : BytecodePath}

/-- A run adds its messages to those stored. -/
lemma stored_of_path (h : run (pathStep env) s acts = some t) :
    t.channel.stored = s.channel.stored ++ acts.filterMap PathAct.message? := by
  refine history_of_run (f := fun s => s.channel.stored) (fun s a t hstep => ?_) h
  cases a with
  | channel a =>
    have hrun := (run_singleton s.channel a).trans (pathStep_channel hstep).1
    rw [stored_of_run hrun, List.filterMap_cons, List.filterMap_nil]
    cases hm : a.message? <;> simp [PathAct.message?, hm]
  | loading a =>
    rw [(pathStep_loading hstep).2.2]
    exact (List.append_nil _).symm

/-- Such a run keeps the invariant, and the messages stored are the files. -/
lemma Injections.inv (h : Injections env dev saved ps acts s) (hstatus : dev.irqStatus = 0#32)
    (hline : dev.irqLine = false) (hps : ∀ p ∈ ps, 1 ≤ p.length ∧ p.length ≤ 65535) :
    PathInv env saved s ∧ s.channel.stored.map HucMsg.payload = ps := by
  obtain ⟨hmap, hall⟩ := payload_of_messages h.sends hps
  have hsends : ∀ a ∈ acts, a.SendsProgram := by
    intro a ha
    match a with
    | .channel (.host m) => exact hall m (List.mem_filterMap.mpr ⟨_, ha, rfl⟩)
    | .channel .irqRead | .channel .irqWake | .channel .irqAck | .channel .daemon => trivial
    | .loading _ => trivial
  have hstored : s.channel.stored = acts.filterMap PathAct.message? := stored_of_path h.run
  refine ⟨?_, by rw [hstored, hmap]⟩
  exact invariant_of_run_along (fun _ _ _ => pathStep_inv) (pathInv_start env hstatus hline saved)
    (h.waits.and_forall hsends) h.run

/-- Acts of the guest meet the guard. -/
lemma along_of_guest {as : List PathAct} (h : ∀ a ∈ as, a.ofGuest) (s : BytecodePath) :
    Along (pathStep env) InjectsWhenWaiting s as := by
  refine along_of_forall (fun a ha _ => ?_) s
  match a with
  | .channel (.host m) => simpa [PathAct.ofGuest, ChannelAct.message?] using h _ ha
  | .channel .irqRead | .channel .irqWake | .channel .irqAck | .channel .daemon => trivial
  | .loading _ => exact (h _ ha).2

/-- Acts of the guest store no message and stay inside such a run. -/
lemma Injections.guest (h : Injections env dev saved ps acts s) {more : List PathAct}
    (hmore : ∀ a ∈ more, a.ofGuest) (hrun : Transition.run (pathStep env) s more = some t) :
    Injections env dev saved ps (acts ++ more) t := by
  refine ⟨run_trans h.run hrun, h.waits.append h.run (along_of_guest hmore s), ?_⟩
  have hnone : more.filterMap PathAct.message? = [] := by
    refine List.filterMap_eq_nil_iff.mpr fun a ha => ?_
    cases a with
    | channel a => exact hmore _ ha
    | loading a => rfl
  rw [List.filterMap_append, hnone, List.append_nil]
  exact h.sends

/-! ## What the loaders read -/

/-- Related lists have related last elements. -/
lemma exists_getLast_of_forall₂ {α β : Type*} {R : α → β → Prop} {as : List α} {bs : List β}
    (h : List.Forall₂ R as bs) {a : α} (ha : as.getLast? = some a) :
    ∃ b, bs.getLast? = some b ∧ R a b := by
  obtain ⟨as, rfl⟩ := List.getLast?_eq_some_iff.mp ha
  have hrev := List.forall₂_reverse_iff.mpr h
  rw [List.reverse_append, List.reverse_singleton, List.singleton_append,
    List.forall₂_cons_left_iff] at hrev
  obtain ⟨b, bs', hab, -, hbs⟩ := hrev
  refine ⟨b, ?_, hab⟩
  rw [← List.head?_reverse, hbs, List.head?_cons]

/-- Every payload that has come to the parent shows its file. -/
lemma PathInv.shown (h : PathInv env saved s) (hstored : s.channel.stored.map HucMsg.payload = ps) :
    List.Forall₂ Shown (ps.take s.loading.received.length) s.loading.received := by
  rw [h.received, ← hstored, ← List.map_take, List.forall₂_map_left_iff]
  exact h.transfer.saved

end Sending

/-- **What the loaders read.** Files of 1 to 65535 bytes are sent, each to a waiting daemon, and
nothing fails in saving and forking; a child may end by itself at any time. Then in every
interleaving of the device, the handler, the daemon, its parent and the children: the programs that
have come to the parent show the files in order; each read of a child delivers what a beginning of
one of them has, or of the file that was there before; and when the daemon waits for a message,
`/tmp/bytecode` holds the last file as it is shown, which is the file itself up to 65516 bytes, its
loader is the only child that runs, unless it has ended, and each read that this loader has made
delivered what this file has there.

**Proof sketch.** The two systems keep their invariants side by side (`PathInv`): a program is sent
to a waiting daemon only when no save is under way. -/
theorem loader_reads_file (env : HostEnv) {dev : HucState} (hstatus : dev.irqStatus = 0#32)
    (hline : dev.irqLine = false) {saved : Option (List Byte)} {ps : List (List Byte)}
    (hps : ∀ p ∈ ps, 1 ≤ p.length ∧ p.length ≤ 65535) {acts : List PathAct} {s : BytecodePath}
    (h : Injections env dev saved ps acts s) :
    List.Forall₂ Shown (ps.take s.loading.received.length) s.loading.received ∧
      (∀ pid, ∀ r ∈ s.loading.loads pid, ∃ f ∈ saved.toList ++ s.loading.received,
        ∃ c, c <+: f ∧ r.Of c) ∧
      (Waiting s.channel → ∀ p, ps.getLast? = some p →
        ∃ f, Shown p f ∧ (p.length ≤ 65516 → f = p) ∧ s.loading.saved = some f ∧
          (∀ pid, pid ∈ s.loading.alive ↔
            pid = s.loading.main.childPid ∧ pid ∉ s.loading.exited) ∧
          ∀ r ∈ s.loading.loads s.loading.main.childPid, r.Of f) := by
  obtain ⟨hinv, hstored⟩ := h.inv hstatus hline hps
  have hshown := hinv.shown hstored
  refine ⟨hshown, fun pid r hr => ?_, fun hw p hp => ?_⟩
  · obtain ⟨f, hf, hread⟩ := (hinv.sound.reads pid).exists_of_mem hr
    exact ⟨f, hinv.sound.programs_prefix.subset hf, hread⟩
  · obtain ⟨hpc, hlen⟩ := hinv.of_waiting hw
    have hall : s.loading.received.length = ps.length := by
      rw [hlen, ← hstored, List.length_map]
    rw [hall, List.take_length] at hshown
    obtain ⟨f, hf, hpf⟩ := exists_getLast_of_forall₂ hshown hp
    obtain ⟨hfile, halive, hreads⟩ := hinv.sound.of_waiting hpc hf
    exact ⟨f, hpf, hpf.eq, hfile, halive, hreads⟩

/-! ## The guest gets on -/

section Progress

variable {env : HostEnv} {dev : HucState} {saved : Option (List Byte)} {ps : List (List Byte)}
  {acts : List PathAct} {s t : BytecodePath}

/-- Accesses of the parent that receive nothing are steps of the whole. -/
lemma run_loading {as : List LoadAct} {l : Loading} (has : ∀ a ∈ as, a.payload? = none)
    (h : run loadingStep s.loading as = some l) :
    run (pathStep env) s (as.map .loading) = some ⟨s.channel, l⟩ := by
  induction as generalizing s with
  | nil =>
    obtain rfl : s.loading = l := by simpa using h
    rfl
  | cons a as ih =>
    obtain ⟨ha, has⟩ := List.forall_mem_cons.mp has
    obtain ⟨u, hu, hrest⟩ := run_cons.mp h
    have hstep : pathStep env s (.loading a) = some ⟨s.channel, u⟩ := by
      rw [pathStep, if_pos ha, hu]
      rfl
    exact run_cons.mpr ⟨_, hstep, @ih ⟨s.channel, u⟩ has hrest⟩

/-- **The parent ends its round**, and the channel stays as it is. -/
lemma PathInv.exists_run_waiting (h : PathInv env saved s) :
    ∃ as t, (∀ a ∈ as, PathAct.ofGuest a) ∧ run (pathStep env) s as = some t ∧
      t.channel = s.channel ∧ t.loading.pc = .waiting := by
  obtain ⟨as, l, has, hrun, hpc, hreceived, -⟩ := h.sound.toLoadingInv.finishes
  have hnone : as.filterMap LoadAct.payload? = [] := by
    have hall := history_of_run (f := Loading.received)
      (fun (s : Loading) a (t : Loading) h => received_loadingStep (a := a) h) hrun
    rw [hreceived] at hall
    exact List.self_eq_append_right.mp hall
  refine ⟨as.map .loading, ⟨s.channel, l⟩, ?_, run_loading
    (List.filterMap_eq_nil_iff.mp hnone) hrun, rfl, hpc⟩
  intro a ha
  obtain ⟨b, hb, rfl⟩ := List.mem_map.mp ha
  exact has b hb

/-- Next to a parent that waits the channel can take all its steps. -/
lemma exists_pathStep_channel {a : ChannelAct} {c : Channel} (hpc : s.loading.pc = .waiting)
    (h : channelStep env s.channel a = some c) :
    ∃ t, pathStep env s (.channel a) = some t ∧ t.channel = c := by
  obtain ⟨l, hl⟩ : ∃ l, run loadingStep s.loading
      ((c.saved.drop s.channel.saved.length).map .receive) = some l := by
    rcases saved_channelStep h with hsame | ⟨p, -, -, hsaved⟩
    · exact ⟨s.loading, by rw [hsame, List.drop_length, List.map_nil, run_nil]⟩
    · rw [hsaved, List.drop_left, List.map_singleton, run_singleton]
      exact ⟨_, if_pos hpc⟩
  refine ⟨⟨c, l⟩, ?_, rfl⟩
  rw [pathStep, if_pos fun _ => hpc, h, Option.bind_some, hl]
  rfl

/-- Short of a waiting daemon, the handler or the daemon can take a step. -/
lemma exists_step_of_not_waiting {c : Channel} {k : ℕ} (env : HostEnv) (h : TurnStage c k)
    (hline : LineInv c.dev) (hw : ¬Waiting c) :
    ∃ a c', ChannelAct.message? a = none ∧ channelStep env c a = some c' := by
  by_cases ht : HostTurn c
  · obtain ⟨hflag, hpc | hpc, -, hstatus⟩ := ht
    · exact ⟨.daemon, _, rfl, daemonCall_seekHeader hpc⟩
    · exact absurd ⟨hpc, hstatus, hflag⟩ hw
  · exact exists_step_of_turnStage env h hline ht

/-- Acts of the guest keep the invariant. -/
lemma PathInv.of_guest (h : PathInv env saved s) {as : List PathAct} (has : ∀ a ∈ as, a.ofGuest)
    (hrun : run (pathStep env) s as = some t) : PathInv env saved t := by
  have hsends : ∀ a ∈ as, a.SendsProgram := by
    intro a ha
    match a with
    | .channel (.host m) => exact absurd (has _ ha) (by simp [PathAct.ofGuest, ChannelAct.message?])
    | .channel .irqRead | .channel .irqWake | .channel .irqAck | .channel .daemon => trivial
    | .loading _ => trivial
  exact invariant_of_run_along (fun _ _ _ => pathStep_inv) h
    ((along_of_guest has s).and_forall hsends) hrun

/-- **The daemon waits again**, whatever the interleaving so far: the guest alone leads there.

**Proof sketch.** The parent ends its round, and then a step of the channel lowers the rank of
`TurnStage`, which accesses of the parent leave. -/
lemma PathInv.exists_run_waitingDaemon (h : PathInv env saved s) :
    ∃ as t, (∀ a ∈ as, PathAct.ofGuest a) ∧ run (pathStep env) s as = some t ∧
      Waiting t.channel := by
  obtain ⟨k, hk⟩ := h.turn.2
  obtain ⟨as, t, has, hrun, hw, -⟩ := @exists_run_of_rank_run _ _ (pathStep env)
    (fun k s => PathInv env saved s ∧ TurnStage s.channel k) (fun s => Waiting s.channel)
    PathAct.ofGuest (by
      rintro k s ⟨hinv, hstage⟩ hw
      obtain ⟨as, t, has, hrun, hchannel, hpc⟩ := hinv.exists_run_waiting
      rw [← hchannel] at hstage hw
      have hline := (hinv.of_guest has hrun).turn.1
      obtain ⟨a, c, ha, hstep⟩ := exists_step_of_not_waiting env hstage hline hw
      obtain ⟨j, hj, hstage'⟩ := channelStep_turnStage hstage hline ha hstep
      obtain ⟨u, hu, rfl⟩ := exists_pathStep_channel hpc hstep
      have hall : ∀ b ∈ as ++ [.channel a], PathAct.ofGuest b := by
        intro b hb
        rcases List.mem_append.mp hb with hb | hb
        · exact has b hb
        · rw [List.mem_singleton.mp hb]
          exact ha
      have hrun' := run_trans hrun ((run_singleton t (.channel a)).trans hu)
      exact ⟨_, u, j, hall, hrun', hj, hinv.of_guest hall hrun', hstage'⟩)
    k s ⟨h, hk⟩
  exact ⟨as, t, has, hrun, hw⟩

/-- The daemon waits again in a run in which files are sent. -/
lemma Injections.exists_waiting (h : Injections env dev saved ps acts s)
    (hstatus : dev.irqStatus = 0#32) (hline : dev.irqLine = false)
    (hps : ∀ p ∈ ps, 1 ≤ p.length ∧ p.length ≤ 65535) :
    ∃ more t, (∀ a ∈ more, PathAct.ofGuest a) ∧ Injections env dev saved ps (acts ++ more) t ∧
      Waiting t.channel := by
  obtain ⟨more, t, hmore, hrun, hw⟩ := (h.inv hstatus hline hps).1.exists_run_waitingDaemon
  exact ⟨more, t, hmore, h.guest hmore hrun, hw⟩

/-- A further file can be sent to a waiting daemon. -/
lemma Injections.send (h : Injections env dev saved ps acts s) (hw : Waiting s.channel)
    {p : List Byte} {m : HucMsg} (hm : prepareHucMessage (.readable p) = m.raw)
    (hinjects : m.Injects) :
    ∃ t, Injections env dev saved (ps ++ [p]) (acts ++ [.channel (.host m)]) t := by
  have hstep : channelStep env s.channel (.host m) = some
      { s.channel with
        dev := (receive env s.channel.dev m).1, stored := s.channel.stored ++ [m] } :=
    if_pos hinjects
  obtain ⟨t, ht⟩ : ∃ t, pathStep env s (.channel (.host m)) = some t := by
    refine ⟨⟨{ s.channel with
      dev := (receive env s.channel.dev m).1, stored := s.channel.stored ++ [m] }, s.loading⟩, ?_⟩
    rw [pathStep, if_pos nofun, hstep, Option.bind_some, List.drop_length]
    rfl
  refine ⟨t, run_trans h.run ((run_singleton _ _).trans ht), h.waits.append h.run
    ⟨hw, fun _ _ => trivial⟩, ?_⟩
  rw [List.filterMap_append]
  exact List.rel_append h.sends (List.Forall₂.cons hm List.Forall₂.nil)

/-- **Every sequence of files can be sent**, up to a waiting daemon. -/
lemma exists_injections (env : HostEnv) (hstatus : dev.irqStatus = 0#32)
    (hline : dev.irqLine = false) (saved : Option (List Byte))
    (hps : ∀ p ∈ ps, 1 ≤ p.length ∧ p.length ≤ 65535) :
    ∃ acts s, Injections env dev saved ps acts s ∧ Waiting s.channel := by
  induction ps using List.reverseRecOn with
  | nil =>
    have hstart : Injections env dev saved [] [] (BytecodePath.start dev saved) :=
      ⟨rfl, trivial, List.Forall₂.nil⟩
    obtain ⟨more, t, -, h, hw⟩ := hstart.exists_waiting hstatus hline hps
    exact ⟨_, t, h, hw⟩
  | append_singleton ps p ih =>
    obtain ⟨acts, s, h, hw⟩ := ih fun q hq => hps q (List.mem_append_left _ hq)
    obtain ⟨hpos, hle⟩ := hps p (by simp)
    have hm := prepareHucMessage_readable p (show p.length < 2 ^ 16 by omega)
    obtain ⟨t, h'⟩ := h.send hw hm (Or.inl rfl)
    obtain ⟨more, u, -, h'', hw'⟩ := h'.exists_waiting hstatus hline hps
    exact ⟨_, u, h'', hw'⟩

end Progress

/-- Two files are sent; the loader of the second is the only child that is left. -/
theorem loader_reads_file_two :
    ∃ acts s, Injections ⟨2, 0⟩ restState none [[1, 2, 3], [4, 5, 6, 7, 8]] acts s ∧
      Waiting s.channel ∧ s.loading.saved = some [4, 5, 6, 7, 8] ∧
      (∀ pid ∈ s.loading.alive, pid = s.loading.main.childPid) ∧
      ∀ r ∈ s.loading.loads s.loading.main.childPid, r.Of [4, 5, 6, 7, 8] := by
  have hps : ∀ p ∈ ([[1, 2, 3], [4, 5, 6, 7, 8]] : List (List Byte)),
      1 ≤ p.length ∧ p.length ≤ 65535 := by decide
  obtain ⟨acts, s, h, hw⟩ := @exists_injections restState _ ⟨2, 0⟩ rfl rfl none hps
  obtain ⟨-, -, hlast⟩ := loader_reads_file ⟨2, 0⟩ rfl rfl hps h
  obtain ⟨f, -, heq, hfile, halive, hreads⟩ := hlast hw [4, 5, 6, 7, 8] rfl
  obtain rfl := heq (by decide)
  exact ⟨acts, s, h, hw, hfile, fun pid hpid => ((halive pid).mp hpid).1, hreads⟩

/-- **Every file reaches its loader.** Every sequence of files of 1 to 65535 bytes can be sent, each
to a waiting daemon; and from every state of every such run, whatever the interleaving so far, acts
of the handler, the daemon and its parent alone, none of which fails, lead to a state in which the
daemon waits again, all files that were sent have come to the parent as they are shown, and the file
holds the last one.

**Proof sketch.** The parent can end its round, and a step of the channel then lowers the rank of
the receipt (`PathInv.exists_run_waitingDaemon`). What holds of a waiting daemon is in the
invariant. -/
theorem files_reach_loader (env : HostEnv) {dev : HucState} (hstatus : dev.irqStatus = 0#32)
    (hline : dev.irqLine = false) (saved : Option (List Byte)) {ps : List (List Byte)}
    (hps : ∀ p ∈ ps, 1 ≤ p.length ∧ p.length ≤ 65535) :
    (∃ acts s, Injections env dev saved ps acts s) ∧
      ∀ acts s, Injections env dev saved ps acts s →
        ∃ more t, (∀ a ∈ more, PathAct.ofGuest a) ∧
          Injections env dev saved ps (acts ++ more) t ∧ Waiting t.channel ∧
          List.Forall₂ Shown ps t.loading.received ∧
          ∀ f, t.loading.received.getLast? = some f → t.loading.saved = some f := by
  constructor
  · obtain ⟨acts, s, h, -⟩ := exists_injections env hstatus hline saved hps
    exact ⟨acts, s, h⟩
  · intro acts s h
    obtain ⟨more, t, hmore, h', hw⟩ := h.exists_waiting hstatus hline hps
    obtain ⟨hinv, hstored⟩ := h'.inv hstatus hline hps
    obtain ⟨hpc, hlen⟩ := hinv.of_waiting hw
    have hshown := hinv.shown hstored
    rw [hlen, ← List.length_map HucMsg.payload, hstored, List.take_length] at hshown
    exact ⟨more, t, hmore, h', hw, hshown, fun f hf => (hinv.sound.of_waiting hpc hf).1⟩

/-- A file of three bytes comes to its loader. -/
theorem files_reach_loader_one :
    ∃ acts t, Injections ⟨2, 0⟩ restState none [[9, 8, 7]] acts t ∧ Waiting t.channel ∧
      t.loading.received = [[9, 8, 7]] ∧ t.loading.saved = some [9, 8, 7] := by
  obtain ⟨⟨acts, s, h⟩, hall⟩ :=
    @files_reach_loader ⟨2, 0⟩ restState rfl rfl none [[9, 8, 7]] (by decide)
  obtain ⟨more, t, -, h', hw, hshown, hsaved⟩ := hall acts s h
  obtain ⟨f, fs, hf, hrest, hreceived⟩ := List.forall₂_cons_left_iff.mp hshown
  obtain rfl := List.forall₂_nil_left_iff.mp hrest
  obtain rfl := hf.eq (by decide)
  exact ⟨_, t, h', hw, hreceived, hsaved _ (by rw [hreceived]; rfl)⟩

end Huc
