import Huc.Affinity.Order

set_option relaxedAutoImplicit false
set_option autoImplicit false

/-!
# From the probe to the affinities

The whole way of an affinity request: the probe records it in the map, a drain of the daemon takes
it out and submits it, the driver writes it to the device, and the device rebinds the threads of the
vCPUs. As long as the runs of the probe and the drains do not overlap, all of this comes down to a
log of the polling periods (`Huc.PollLog`): the host's affinities are a function of the periods that
a drain has ended, and the map holds the period that is still open.

Two things that the single programs do show in the result. Within a period the oldest request has
the last word, because the slots are drained from the top down; and the number of requests, which
the first lookup of the drain leaves in its variable, counts as a request that comes before them.

## Main definitions

* `Huc.PollLog` — the polling periods.
* `Huc.settled` — what a period makes of the affinity of a vCPU.
* `Huc.GuestAndHost`, `Huc.eventStep` — the programs of the guest with the host behind them.

## Main results

* `Huc.submitted_drain` — what one drain submits, in order.
* `Huc.eventStep_spec` — an event on the log of the periods.
* `Huc.affinity_of_periods` — the affinities after any run of probes and drains.
* `Huc.affinity_of_spaced` — requests with a drain after each of them.
-/

namespace Huc

open Transition

/-! ## The log of the periods -/

/-- The polling periods: the requests of those that a drain has ended, and those of the one that is
open. -/
structure PollLog where
  ended : List (List Mask)
  pending : List Mask

/-- Before the first request. -/
def PollLog.start : PollLog := ⟨[], []⟩

/-- A request joins the open period, which has room for 63; a drain ends the period, unless there is
no request in it. -/
def PollLog.step (p : PollLog) : MapEvent → PollLog
  | .record mask => { p with pending := pushMask p.pending mask }
  | .drain => if p.pending = [] then p else ⟨p.ended ++ [p.pending], []⟩

section Settled

variable {env : HostEnv} (vs : VCPUs env) (sch : Scheduler) (i : ℕ)

/-- What a period with the requests `l` makes of the affinity of vCPU `i`: what the oldest request
asks for that rebinds it, or else what the number of requests asks for, read as a mask. -/
def settled (l : List Mask) : Option (Finset ℕ) :=
  (l.filterMap (rebound vs sch i)).head?.or (rebound vs sch i (BitVec.ofNat 64 l.length))

variable {vs sch i}

/-- What is submitted for a period, the number of requests and then the requests from the newest to
the oldest, leaves vCPU `i` with what the period settles. -/
lemma getLast?_submitted (l : List Mask) :
    ((BitVec.ofNat 64 l.length :: (l.filter fun v => v ≠ 0#64).reverse).filterMap
      (rebound vs sch i)).getLast? = settled vs sch i l := by
  have hzero : (l.filter fun v => v ≠ 0#64).filterMap (rebound vs sch i) =
      l.filterMap (rebound vs sch i) := by
    rw [List.filterMap_filter]
    apply List.filterMap_congr
    intro v _
    by_cases hv : v = 0#64
    · simp [hv]
    · simp [hv]
  have hreverse : (l.filter fun v => v ≠ 0#64).reverse.filterMap (rebound vs sch i) =
      (l.filterMap (rebound vs sch i)).reverse := by
    rw [List.filterMap_reverse, hzero]
  rw [settled, List.filterMap_cons, hreverse]
  cases hcount : rebound vs sch i (BitVec.ofNat 64 l.length) with
  | none => rw [List.getLast?_reverse, Option.or_none]
  | some x =>
    rw [List.getLast?_cons, List.getLast?_reverse]
    cases (l.filterMap (rebound vs sch i)).head? with
    | none => rfl
    | some y => rfl

end Settled

/-! ## Guest and host -/

/-- **What one drain submits**: nothing, if the map is empty; otherwise the number of requests and
then the requests, the newest one first. -/
lemma submitted_drain {d : Drain} {l : List Mask} (h : Represents d.map l) (hidx : d.index = 0) :
    ((drain d).submitted.drop d.submitted.length).map Prod.snd =
      if l = [] then []
      else BitVec.ofNat 64 l.length :: (l.filter fun v => v ≠ 0#64).reverse := by
  by_cases hl : l = []
  · have hzero : d.map.slot 0 = 0#64 := by
      rw [h.slot_zero, hl]
      rfl
    rw [drain_of_count_eq_zero d hidx hzero, if_pos hl, List.drop_length, List.map_nil]
  · have hcount : d.map.slot 0 ≠ 0#64 := by
      intro h0
      have htop := h.top_eq
      rw [CpuMap.top, h0, BitVec.toNat_ofNat] at htop
      exact hl (List.eq_nil_of_length_eq_zero htop.symm)
    rw [(drain_of_count d hidx hcount).1, List.drop_left, List.map_cons, map_snd_scanned,
      filter_map_slot_range' d.map h.length_le fun i hi hi' => h.slot_of_lt hi hi', h.map_slot,
      if_neg hl, h.slot_zero]

/-- The programs of the guest, and the host. -/
structure GuestAndHost where
  guest : Drain
  host : Host

section Events

variable {env : HostEnv} (vs : VCPUs env) (sch : Scheduler)

/-- A run of the probe, or a drain, whose submissions the device processes one after the other. -/
def eventStep (s : GuestAndHost) (e : MapEvent) : Option GuestAndHost :=
  (process vs sch s.host
      (((mapStep s.guest e).submitted.drop s.guest.submitted.length).map Prod.snd)).map
    fun host => ⟨mapStep s.guest e, host⟩

variable {vs sch}

/-- The map holds the open period, and the affinities of the vCPUs, which were `affinity` at the
start, are those that the ended periods have settled last. -/
structure GuestAndHost.Follows (vs : VCPUs env) (sch : Scheduler) (affinity : ℤ → Finset ℕ)
    (s : GuestAndHost) (p : PollLog) : Prop where
  pending : Represents s.guest.map p.pending
  index : s.guest.index = 0
  affinity : ∀ i < env.nVCPU, s.host.affinity (vs.threadId i) =
    (p.ended.filterMap (settled vs sch i)).getLast?.getD (affinity (vs.threadId i))

/-- **An event on the log**: every event can take place, and guest and host follow the log.

**Proof sketch.** A record leaves the host alone. A drain submits the open period
(`submitted_drain`), and what the device makes of the sequence is what the period settles
(`process_spec`, `getLast?_submitted`). -/
lemma eventStep_spec {affinity : ℤ → Finset ℕ} {s : GuestAndHost} {p : PollLog} (e : MapEvent)
    (h : s.Follows vs sch affinity p) :
    ∃ t, eventStep vs sch s e = some t ∧ t.Follows vs sch affinity (p.step e) := by
  obtain ⟨hpending, hidx, haff⟩ := h
  cases e with
  | record mask =>
    have hnone : ((mapStep s.guest (.record mask)).submitted.drop
        s.guest.submitted.length).map Prod.snd = [] := by
      rw [mapStep, List.drop_length, List.map_nil]
    refine ⟨⟨mapStep s.guest (.record mask), s.host⟩, ?_, hpending.push mask, hidx, haff⟩
    rw [eventStep, hnone]
    rfl
  | drain =>
    obtain ⟨hempty, hidx'⟩ := hpending.drain hidx
    have hsub := submitted_drain hpending hidx
    by_cases hl : p.pending = []
    · rw [if_pos hl] at hsub
      refine ⟨⟨drain s.guest, s.host⟩, ?_, ?_, hidx', ?_⟩
      · rw [eventStep, mapStep, hsub]
        rfl
      · rw [PollLog.step, if_pos hl, hl]
        exact hempty
      · rw [PollLog.step, if_pos hl]
        exact haff
    · rw [if_neg hl] at hsub
      obtain ⟨t, ht, hspec⟩ := @process_spec env vs sch s.host
        (BitVec.ofNat 64 p.pending.length :: (p.pending.filter fun v => v ≠ 0#64).reverse)
      refine ⟨⟨drain s.guest, t⟩, ?_, ?_, hidx', ?_⟩
      · rw [eventStep, mapStep, hsub, ht]
        rfl
      · rw [PollLog.step, if_neg hl]
        exact hempty
      · intro i hi
        rw [hspec i hi, getLast?_submitted, PollLog.step, if_neg hl, List.filterMap_append,
          List.getLast?_append, haff i hi]
        cases hset : settled vs sch i p.pending with
        | none => simp [hset]
        | some x => simp [hset]

/-- The fresh map and any host follow the empty log. -/
lemma follows_start (h : Host) :
    GuestAndHost.Follows vs sch h.affinity ⟨Drain.start, h⟩ PollLog.start :=
  ⟨Represents.zero, rfl, fun _ _ => rfl⟩

/-- Guest and host follow the log in every run. -/
lemma run_eventStep {affinity : ℤ → Finset ℕ} {s : GuestAndHost} {p : PollLog}
    (es : List MapEvent) (h : s.Follows vs sch affinity p) :
    ∃ t, run (eventStep vs sch) s es = some t ∧
      t.Follows vs sch affinity (es.foldl PollLog.step p) := by
  induction es generalizing s p with
  | nil => exact ⟨s, rfl, h⟩
  | cons e es ih =>
    obtain ⟨u, hstep, hu⟩ := eventStep_spec e h
    obtain ⟨t, hrun, ht⟩ := ih hu
    exact ⟨t, run_cons.mpr ⟨u, hstep, hrun⟩, ht⟩

end Events

/-- **The affinities after any run of probes and drains.** For every host, every number of vCPUs and
every sequence of complete runs of the probe and complete drains from the fresh map: the map holds
the first 63 requests since the last drain, and each vCPU has the affinity that the last of the
ended periods has settled that settles one for it, the oldest request of a period that rebinds the
vCPU deciding, or the number of requests where no request does. -/
theorem affinity_of_periods {env : HostEnv} (vs : VCPUs env) (sch : Scheduler) (h : Host)
    (es : List MapEvent) :
    ∃ s, run (eventStep vs sch) ⟨Drain.start, h⟩ es = some s ∧
      Represents s.guest.map (es.foldl PollLog.step .start).pending ∧
      ∀ i < env.nVCPU, s.host.affinity (vs.threadId i) =
        ((es.foldl PollLog.step .start).ended.filterMap (settled vs sch i)).getLast?.getD
          (h.affinity (vs.threadId i)) := by
  obtain ⟨s, hrun, hs⟩ := run_eventStep es (@follows_start env vs sch h)
  exact ⟨s, hrun, hs.pending, hs.affinity⟩

/-! ## Requests with a drain after each of them -/

/-- Every request is followed by a drain. -/
def spaced (l : List Mask) : List MapEvent := l.flatMap fun v => [.record v, .drain]

/-- Every request is a period of its own. -/
lemma foldl_spaced (l : List Mask) (ended : List (List Mask)) :
    (spaced l).foldl PollLog.step ⟨ended, []⟩ = ⟨ended ++ l.map fun v => [v], []⟩ := by
  induction l generalizing ended with
  | nil => simp [spaced]
  | cons v l ih =>
    have hone : ([.record v, .drain] : List MapEvent).foldl PollLog.step ⟨ended, []⟩ =
        ⟨ended ++ [[v]], []⟩ := rfl
    rw [spaced, List.flatMap_cons, List.foldl_append, hone]
    change (spaced l).foldl PollLog.step ⟨ended ++ [[v]], []⟩ = _
    rw [ih, List.append_assoc]
    rfl

/-- A request alone in its period settles what it asks for, or binds vCPU 0 to CPU 0. -/
lemma settled_singleton {env : HostEnv} {vs : VCPUs env} {sch : Scheduler} {i : ℕ} (v : Mask) :
    settled vs sch i [v] = (rebound vs sch i v).or (rebound vs sch i 1#64) := by
  rw [settled, List.filterMap_cons, List.filterMap_nil]
  cases rebound vs sch i v <;> rfl

/-- The number 1 addresses vCPU 0 only. -/
lemma rebound_one {env : HostEnv} {vs : VCPUs env} {sch : Scheduler} {i : ℕ} (hi : 1 ≤ i) :
    rebound vs sch i 1#64 = none := by
  have hword : requestWord 1#64 = 1#64 := by decide
  have hbit : (1#64).getLsbD i = false := by
    rw [BitVec.getLsbD_one]
    simp only [Bool.and_eq_false_iff, decide_eq_false_iff_not]
    omega
  rw [rebound, hword, hbit, if_neg fun h => Bool.false_ne_true h.1]

/-- **Requests with a drain after each of them.** For every sequence of requests, each drained
before the next one: every vCPU but the first has the affinity it has when the device processes the
requests themselves, one after the other; and vCPU 0 has the affinity asked for last, where every
request that does not rebind vCPU 0 asks for CPU 0 in its place.

**Proof sketch.** Each request is a period with one request (`foldl_spaced`), and the number 1 is a
mask for vCPU 0. -/
theorem affinity_of_spaced {env : HostEnv} (vs : VCPUs env) (sch : Scheduler) (h : Host)
    (l : List Mask) :
    ∃ s t, run (eventStep vs sch) ⟨Drain.start, h⟩ (spaced l) = some s ∧
      process vs sch h l = some t ∧
      (∀ i, 1 ≤ i → i < env.nVCPU →
        s.host.affinity (vs.threadId i) = t.affinity (vs.threadId i)) ∧
      (0 < env.nVCPU → s.host.affinity (vs.threadId 0) =
        (l.filterMap fun v => (rebound vs sch 0 v).or (rebound vs sch 0 1#64)).getLast?.getD
          (h.affinity (vs.threadId 0))) := by
  obtain ⟨s, hrun, hs⟩ := run_eventStep (spaced l) (@follows_start env vs sch h)
  obtain ⟨t, ht, hspec⟩ := @process_spec env vs sch h l
  have haff : ∀ i < env.nVCPU, s.host.affinity (vs.threadId i) =
      (l.filterMap fun v => (rebound vs sch i v).or (rebound vs sch i 1#64)).getLast?.getD
        (h.affinity (vs.threadId i)) := by
    intro i hi
    rw [hs.affinity i hi, PollLog.start, foldl_spaced, List.nil_append, List.filterMap_map]
    congr 2
    apply List.filterMap_congr
    intro v _
    exact settled_singleton v
  refine ⟨s, t, hrun, ht, ?_, fun hpos => haff 0 hpos⟩
  intro i h₁ hi
  rw [haff i hi, hspec i hi]
  congr 2
  apply List.filterMap_congr
  intro v _
  rw [rebound_one h₁, Option.or_none]

end Huc
