import Mathlib.Data.List.Induction
import PolandOS.Drivers.NvmeAttribution

/-! # The queue pairs of the NVMe driver

`nvme_admin_submit` and `nvme_io_submit` work in the same way on queue pairs of their
own. Here a queue pair is a state by itself: the admin queues are one, and
`io_submit` finds the I/O queues in the state of the driver. `queues_in_step`: with a
controller that answers each command within the timeout, driver and controller stay at
the same place of the completion ring, round after round.
-/

namespace PolandOS.Nvme

open PhaseRing Runs

/-- A queue pair: where the driver is in the two rings, the next command identifier,
the rings, and the controller's side. -/
structure QueuePair where
  sqTail : Nat
  cqHead : Nat
  cqPhase : Bool
  cid : UInt16
  controller : Controller
  sq : Nat → NVMeSQE
  cq : Nat → NVMeCQE

namespace QueuePair

/-- A completion is posted to the queue pair `qid`. -/
def post (qid : UInt16) (q : QueuePair) (p : Post) : QueuePair :=
  if (q.controller.cqTail + 1) % queueDepth = q.controller.cqHead then q
  else
    match q.controller.outstanding[p.which]? with
    | none => q
    | some cmd =>
      let place := advance q.controller.cqTail q.controller.cqPhase
      { q with
        cq := Function.update q.cq q.controller.cqTail
          { q.controller.completion p cmd with sqId := qid }
        controller := { q.controller with
          outstanding := q.controller.outstanding.eraseIdx p.which
          cqTail := place.1
          cqPhase := place.2 } }

/-- `nvme_ring_sq(qid, tail)`. -/
def ringSq (q : QueuePair) (tail : Nat) : QueuePair :=
  let count := (tail + queueDepth - q.controller.sqHead) % queueDepth
  let cmds := (List.range count).map fun i => q.sq ((q.controller.sqHead + i) % queueDepth)
  { q with controller := { q.controller with
      sqHead := tail
      outstanding := q.controller.outstanding ++ cmds } }

/-- `nvme_ring_cq(qid, head)`. -/
def ringCq (q : QueuePair) (head : Nat) : QueuePair :=
  { q with controller := { q.controller with cqHead := head } }

/-- The command gets its identifier and is put on its way. -/
def enqueue (cmd : NVMeSQE) (q : QueuePair) : QueuePair :=
  let tail := (q.sqTail + 1) % queueDepth
  { q with
    sq := Function.update q.sq q.sqTail (cmd.withCid q.cid)
    cid := q.cid + 1
    sqTail := tail }.ringSq tail

/-- The completion at the head of the ring is consumed. -/
def consume (q : QueuePair) : QueuePair :=
  let place := advance q.cqHead q.cqPhase
  { q with cqHead := place.1, cqPhase := place.2 }.ringCq place.1

/-- The polling loop. -/
def poll (qid : UInt16) (schedule : Schedule) : Nat → QueuePair → Int × Option NVMeCQE × QueuePair
  | 0, q => (-2, none, q)
  | timeout + 1, q =>
    let q := (schedule timeout).foldl (post qid) q
    let cqe := q.cq q.cqHead
    if cqe.phase = q.cqPhase then
      (if cqe.statusCode ≠ 0 then -1 else 0, some cqe, consume q)
    else poll qid schedule timeout q

/-- The common body of `nvme_admin_submit` and `nvme_io_submit`. -/
def submit (qid : UInt16) (cmd : NVMeSQE) (schedule : Schedule) (q : QueuePair) :
    Attempt × QueuePair :=
  let polled := poll qid schedule pollLimit (enqueue cmd q)
  (⟨q.cid, polled.1, polled.2.1⟩, polled.2.2)

end QueuePair

/-- `nvme_admin_submit`, on the admin queues, and what it stores to `*result` where the
caller wants one. -/
def nvmeAdminSubmit (cmd : NVMeSQE) (result : Bool) (schedule : Schedule) (q : QueuePair) :
    Attempt × Option UInt32 × QueuePair :=
  let submitted := q.submit 0 cmd schedule
  (submitted.1, if result then submitted.1.consumed.map NVMeCQE.dw0 else none, submitted.2)

/-! ## The I/O queues -/

/-- The I/O queue pair. -/
def System.io (s : System) : QueuePair where
  sqTail := s.driver.iosqTail
  cqHead := s.driver.iocqHead
  cqPhase := s.driver.iocqPhase
  cid := s.driver.ioCid
  controller := s.controller
  sq := s.iosq
  cq := s.iocq

theorem io_post (s : System) (p : Post) : (s.post p).io = s.io.post 1 p := by
  change (s.post p).io = if (s.controller.cqTail + 1) % queueDepth = s.controller.cqHead then s.io
    else _
  unfold System.post
  by_cases hfull : (s.controller.cqTail + 1) % queueDepth = s.controller.cqHead
  · rw [if_pos hfull, if_pos hfull]
  · rw [if_neg hfull, if_neg hfull]
    change _ = match s.controller.outstanding[p.which]? with
      | none => s.io
      | some cmd => _
    cases s.controller.outstanding[p.which]? with
    | none => rfl
    | some cmd => rfl

theorem io_posts (ps : List Post) (s : System) :
    (ps.foldl System.post s).io = ps.foldl (QueuePair.post 1) s.io := by
  induction ps generalizing s with
  | nil => rfl
  | cons p ps ih => rw [List.foldl_cons, List.foldl_cons, ih, io_post]

theorem io_poll (schedule : Schedule) (n : Nat) (s : System) :
    s.io.poll 1 schedule n = ((pollCompletion schedule n s).1, (pollCompletion schedule n s).2.1,
      (pollCompletion schedule n s).2.2.io) := by
  induction n generalizing s with
  | zero => rfl
  | succ n ih =>
      rw [QueuePair.poll, pollCompletion, ← io_posts]
      generalize (schedule n).foldl System.post s = s'
      change (if (s'.iocq s'.driver.iocqHead).phase = s'.driver.iocqPhase then _ else _) = _
      by_cases hphase : (s'.iocq s'.driver.iocqHead).phase = s'.driver.iocqPhase
      · simp only [hphase, if_true]
        rfl
      · simp only [hphase, if_false]
        exact ih s'

/-- `nvme_io_submit` is the common body on the I/O queues. -/
theorem io_submit (cmd : NVMeSQE) (schedule : Schedule) (s : System) :
    s.io.submit 1 cmd schedule =
      ((nvmeIoSubmit cmd schedule s).1, (nvmeIoSubmit cmd schedule s).2.io) := by
  unfold QueuePair.submit nvmeIoSubmit
  have henqueue : s.io.enqueue cmd = (enqueue cmd s).io := rfl
  rw [henqueue, io_poll]
  rfl

/-! ## Driver and controller in step -/

/-- A call, and the controller's answer to it: at which look at the completion ring it
is there, and what it says. -/
structure Call where
  cmd : NVMeSQE
  look : Nat
  dw0 : UInt32
  code : UInt16
deriving DecidableEq, Repr

/-- The controller posts the one completion of the command. -/
def Call.schedule (c : Call) : Schedule := fun n => if n = c.look then [⟨0, c.dw0, c.code⟩] else []

/-- The completion of the `n`-th command. -/
def Call.completion (qid : UInt16) (n : Nat) (c : Call) : NVMeCQE where
  dw0 := c.dw0
  dw1 := 0
  sqHead := ((n + 1) % queueDepth).toUInt16
  sqId := qid
  cid := n.toUInt16
  status := (c.code <<< 1) ||| (if phaseOf queueDepth n then 1 else 0)

/-- The call of the `n`-th command, where it consumes the completion of that command. -/
def Call.attempt (qid : UInt16) (n : Nat) (c : Call) : Attempt where
  cid := n.toUInt16
  result := if (c.completion qid n).statusCode ≠ 0 then -1 else 0
  consumed := some (c.completion qid n)

/-- Both sides are `n` completions into the queue pair, behind which the commands
`cmds` are in the hands of the controller. -/
structure QueuePair.Aligned (q : QueuePair) (n : Nat) (cmds : List NVMeSQE) : Prop where
  ring : Holds NVMeCQE.phase queueDepth q.cq n []
  head : (q.cqHead, q.cqPhase) = place queueDepth n
  tail : (q.controller.cqTail, q.controller.cqPhase) = place queueDepth n
  cqHead : q.controller.cqHead = q.cqHead
  outstanding : q.controller.outstanding = cmds
  sqHead : q.controller.sqHead = q.sqTail
  sqTail : q.sqTail = (n + cmds.length) % queueDepth
  cid : q.cid = (n + cmds.length).toUInt16

/-- A queue pair of which nothing has been used. -/
structure QueuePair.Fresh (q : QueuePair) : Prop where
  sqTail : q.sqTail = 0
  cqHead : q.cqHead = 0
  cqPhase : q.cqPhase = true
  cid : q.cid = 0
  controller : q.controller = ⟨0, [], 0, true, 0⟩
  cq : ∀ i < queueDepth, q.cq i = NVMeCQE.zero

variable {q : QueuePair} {n : Nat} {cmd : NVMeSQE}

theorem QueuePair.Fresh.aligned (h : q.Fresh) : q.Aligned 0 [] where
  ring := holds_init (by decide) fun i hi => by
    rw [h.cq i hi]
    rfl
  head := by
    rw [h.cqHead, h.cqPhase]
    rfl
  tail := by
    rw [h.controller]
    rfl
  cqHead := by rw [h.controller, h.cqHead]
  outstanding := by rw [h.controller]
  sqHead := by rw [h.controller, h.sqTail]
  sqTail := h.sqTail
  cid := h.cid

theorem Initial.fresh {s : System} (h : Initial s) : s.io.Fresh :=
  ⟨h.iosqTail, h.iocqHead, h.iocqPhase, h.ioCid, h.controller, h.iocq⟩

namespace QueuePair.Aligned

/-- The doorbell hands over the command. -/
theorem enqueue (h : q.Aligned n []) (cmd : NVMeSQE) :
    (q.enqueue cmd).Aligned n [cmd.withCid n.toUInt16] := by
  have htail : q.sqTail = n % queueDepth := h.sqTail
  have hcid : q.cid = n.toUInt16 := h.cid
  have hsucc : (q.sqTail + 1) % queueDepth = (n + 1) % queueDepth := by
    rw [htail, Nat.mod_add_mod]
  constructor
  · exact h.ring
  · exact h.head
  · exact h.tail
  · exact h.cqHead
  · -- one command is between the old tail and the new one
    have hlt : q.sqTail < queueDepth := by
      rw [htail]
      exact Nat.mod_lt _ (by decide)
    have hcount : ((q.sqTail + 1) % queueDepth + queueDepth - q.sqTail) % queueDepth = 1 := by
      unfold queueDepth at hlt ⊢
      omega
    have hslot : q.sqTail % queueDepth = q.sqTail := Nat.mod_eq_of_lt hlt
    simp [QueuePair.enqueue, ringSq, h.sqHead, h.outstanding, hcount, hslot, hcid]
  · rfl
  · exact hsucc
  · change q.cid + 1 = (n + 1).toUInt16
    rw [hcid]
    simp [Nat.toUInt16]

/-- At a look at which nothing has been posted, the entry in front is one of the last
round. -/
theorem idle {cmds : List NVMeSQE} (h : q.Aligned n cmds) :
    (q.cq q.cqHead).phase ≠ q.cqPhase := by
  have hhead : q.cqHead = n % queueDepth := congrArg Prod.fst h.head
  have hphase : q.cqPhase = phaseOf queueDepth n := congrArg Prod.snd h.head
  rw [hhead, hphase]
  exact h.ring.idle

/-- The controller answers, and the driver takes the answer. -/
theorem answer (h : q.Aligned n [cmd]) (qid : UInt16) (p : Post) (hp : p.which = 0) :
    let e : NVMeCQE := { q.controller.completion p cmd with sqId := qid }
    (q.post qid p).cq (q.post qid p).cqHead = e ∧ e.phase = (q.post qid p).cqPhase ∧
      (q.post qid p).consume.Aligned (n + 1) [] := by
  have hdepth : 0 < queueDepth := by decide
  have hhead : q.cqHead = n % queueDepth := congrArg Prod.fst h.head
  have htail : q.controller.cqTail = n % queueDepth := congrArg Prod.fst h.tail
  -- one command is on its way, so that the completion queue has room
  have hroom : ¬(q.controller.cqTail + 1) % queueDepth = q.controller.cqHead := by
    rw [htail, h.cqHead, hhead, Nat.mod_add_mod]
    exact h.ring.full_iff.not.mpr (by decide)
  have hcmd : q.controller.outstanding[p.which]? = some cmd := by
    rw [h.outstanding, hp]
    rfl
  intro e
  have hphase : e.phase = phaseOf queueDepth n :=
    (phase_completion q.controller p cmd).trans (congrArg Prod.snd h.tail)
  have hring := h.ring.post (e := e) (by decide) hphase
  have hnext : advance q.cqHead q.cqPhase = place queueDepth (n + 1) := by
    change next queueDepth (q.cqHead, q.cqPhase) = _
    rw [h.head, next_place hdepth]
  have hnext' : advance q.controller.cqTail q.controller.cqPhase = place queueDepth (n + 1) := by
    change next queueDepth (q.controller.cqTail, q.controller.cqPhase) = _
    rw [h.tail, next_place hdepth]
  have hpost : q.post qid p = { q with
      cq := Function.update q.cq q.controller.cqTail e
      controller := { q.controller with
        outstanding := q.controller.outstanding.eraseIdx p.which
        cqTail := (place queueDepth (n + 1)).1
        cqPhase := (place queueDepth (n + 1)).2 } } := by
    unfold post
    rw [if_neg hroom, hcmd]
    simp only [hnext']
    rfl
  rw [hpost]
  refine ⟨?_, ?_, ?_⟩
  · simp [hhead, htail]
  · exact hphase.trans (congrArg Prod.snd h.head).symm
  · constructor
    · have hslot : (n + ([] : List NVMeCQE).length) % queueDepth = q.controller.cqTail :=
        htail.symm
      rw [← hslot]
      exact hring.take
    · exact hnext
    · rfl
    · rfl
    · change q.controller.outstanding.eraseIdx p.which = []
      rw [h.outstanding, hp]
      rfl
    · exact h.sqHead
    · exact h.sqTail
    · exact h.cid

/-- The polling loop finds the answer, however late it comes. -/
theorem poll_answer (h : q.Aligned n [cmd.withCid n.toUInt16]) (qid : UInt16) (c : Call) :
    ∀ m, c.look < m → ∃ q', q'.Aligned (n + 1) [] ∧
      q.poll qid c.schedule m = ((c.attempt qid n).result, some (c.completion qid n), q') := by
  intro m hlook
  induction m with
  | zero => exact absurd hlook (Nat.not_lt_zero _)
  | succ m ih =>
      rw [poll]
      by_cases hm : m = c.look
      · have hschedule : c.schedule m = [⟨0, c.dw0, c.code⟩] := if_pos hm
        rcases h.answer qid ⟨0, c.dw0, c.code⟩ rfl with ⟨hfront, hphase, halign⟩
        have hentry : { q.controller.completion ⟨0, c.dw0, c.code⟩ (cmd.withCid n.toUInt16) with
            sqId := qid } = c.completion qid n := by
          have hsq : q.controller.sqHead = (n + 1) % queueDepth := h.sqHead.trans h.sqTail
          have hcq : q.controller.cqPhase = phaseOf queueDepth n := congrArg Prod.snd h.tail
          simp [Controller.completion, Call.completion, hsq, hcq, cid_withCid]
        rw [hentry] at hfront hphase
        simp only [hschedule, List.foldl_cons, List.foldl_nil, hfront, hphase, if_true]
        exact ⟨_, halign, rfl⟩
      · have hschedule : c.schedule m = [] := if_neg hm
        simp only [hschedule, List.foldl_nil, if_neg h.idle]
        exact ih (by omega)

/-- A call whose answer comes in time. -/
theorem submit (h : q.Aligned n []) (qid : UInt16) (c : Call) (hlook : c.look < pollLimit) :
    (q.submit qid c.cmd c.schedule).1 = c.attempt qid n ∧
      (q.submit qid c.cmd c.schedule).2.Aligned (n + 1) [] := by
  rcases (h.enqueue c.cmd).poll_answer qid c pollLimit hlook with ⟨q', hq', hpoll⟩
  have hcid : q.cid = n.toUInt16 := h.cid
  unfold QueuePair.submit
  rw [hpoll, hcid]
  exact ⟨rfl, hq'⟩

end QueuePair.Aligned

/-! ## Runs -/

/-- A system takes a call, and the calls are kept with what they return. -/
def Submits {σ κ ρ : Type*} (submit : κ → σ → ρ × σ) (s : σ × List (κ × ρ)) (c : κ)
    (t : σ × List (κ × ρ)) : Prop :=
  t = ((submit c s.1).2, s.2 ++ [(c, (submit c s.1).1)])

/-- A call of `nvme_admin_submit`, with a place for the result or without. -/
def adminCall (c : Call × Bool) (q : QueuePair) : (Attempt × Option UInt32) × QueuePair :=
  let submitted := nvmeAdminSubmit c.1.cmd c.2 c.1.schedule q
  ((submitted.1, submitted.2.1), submitted.2.2)

/-- A call of `nvme_io_submit`. -/
def ioCall (c : Call) (s : System) : Attempt × System := nvmeIoSubmit c.cmd c.schedule s

/-- Driver and controller are at one place of the completion ring, and `n` commands
have gone through the submission ring. -/
structure QueuePair.InStep (q : QueuePair) (n : Nat) : Prop where
  head : q.cqHead = q.controller.cqTail
  phase : q.cqPhase = q.controller.cqPhase
  tail : q.sqTail = n % queueDepth

theorem QueuePair.Aligned.inStep (h : q.Aligned n []) : q.InStep n where
  head := congrArg Prod.fst (h.head.trans h.tail.symm)
  phase := congrArg Prod.snd (h.head.trans h.tail.symm)
  tail := h.sqTail

/-- The `n`-th call has returned what is expected of it. -/
def Answered {κ ρ : Type*} (expected : Nat → κ → ρ) (log : List (κ × ρ)) : Prop :=
  ∀ (n : Nat) (c : κ) (r : ρ), log[n]? = some (c, r) → r = expected n c

theorem Answered.nil {κ ρ : Type*} {expected : Nat → κ → ρ} : Answered expected [] := by
  intro n c r hn
  rw [List.getElem?_nil] at hn
  exact nomatch hn

theorem Answered.concat {κ ρ : Type*} {expected : Nat → κ → ρ} {log : List (κ × ρ)}
    (h : Answered expected log) (c : κ) :
    Answered expected (log ++ [(c, expected log.length c)]) := by
  intro n c' r hn
  by_cases hlast : n < log.length
  · rw [List.getElem?_append_left hlast] at hn
    exact h n c' r hn
  · rw [List.getElem?_append_right (by omega), List.getElem?_singleton] at hn
    by_cases hn0 : n - log.length = 0
    · rw [if_pos hn0] at hn
      have hlen : n = log.length := by omega
      cases hn
      rw [hlen]
    · rw [if_neg hn0] at hn
      exact nomatch hn

/-- A queue pair stays aligned over a run if it does so over a call. -/
theorem run_aligned {σ κ ρ : Type*} {submit : κ → σ → ρ × σ} (view : σ → QueuePair)
    (expected : Nat → κ → ρ) {ok : κ → Prop}
    (hsubmit : ∀ s n c, (view s).Aligned n [] → ok c →
      (submit c s).1 = expected n c ∧ (view (submit c s).2).Aligned (n + 1) [])
    {s₀ : σ} (h₀ : (view s₀).Fresh) {t : σ × List (κ × ρ)}
    (hrun : Run (Guarded (Submits submit) fun _ c => ok c) (s₀, []) t) :
    (view t.1).Aligned t.2.length [] ∧ Answered expected t.2 := by
  refine hrun.invariant (I := fun t => (view t.1).Aligned t.2.length [] ∧ Answered expected t.2)
    ⟨h₀.aligned, .nil⟩ ?_
  rintro t c _ ⟨halign, hlog⟩ ⟨hok, rfl⟩
  rcases hsubmit t.1 t.2.length c halign hok with ⟨hresult, halign'⟩
  rw [hresult]
  refine ⟨?_, hlog.concat c⟩
  rw [List.length_append, List.length_singleton]
  exact halign'

/-- What a call of `nvme_admin_submit` returns and stores. -/
def adminAttempt (n : Nat) (c : Call × Bool) : Attempt × Option UInt32 :=
  (c.1.attempt 0 n, if c.2 then some c.1.dw0 else none)

/-- With a controller that answers each command once, within the timeout, each call
consumes the completion of its own command, and driver and controller stay in step on
the admin queues and on the I/O queues. -/
theorem queues_in_step :
    (∀ q₀ : QueuePair, q₀.Fresh → ∀ t : QueuePair × List ((Call × Bool) × _),
      Run (Guarded (Submits adminCall) fun _ c => c.1.look < pollLimit) (q₀, []) t →
        t.1.InStep t.2.length ∧ Answered adminAttempt t.2) ∧
      ∀ s₀ : System, Initial s₀ → ∀ t : System × List (Call × Attempt),
        Run (Guarded (Submits ioCall) fun _ c => c.look < pollLimit) (s₀, []) t →
          t.1.io.InStep t.2.length ∧ Answered (fun n c => c.attempt 1 n) t.2 := by
  constructor
  · intro q₀ h₀ t hrun
    have hrun' := run_aligned id adminAttempt ?_ h₀ hrun
    · exact ⟨hrun'.1.inStep, hrun'.2⟩
    intro q n c h hlook
    rcases QueuePair.Aligned.submit h 0 c.1 hlook with ⟨hattempt, haligned⟩
    refine ⟨?_, haligned⟩
    unfold adminCall nvmeAdminSubmit
    simp only [id] at hattempt
    simp only [hattempt]
    rfl
  · intro s₀ h₀ t hrun
    have hrun' := run_aligned System.io (fun n c => c.attempt 1 n) ?_ h₀.fresh hrun
    · exact ⟨hrun'.1.inStep, hrun'.2⟩
    intro s n c h hlook
    have hsubmit := h.submit 1 c hlook
    rw [io_submit] at hsubmit
    exact hsubmit

/-- A queue pair with cleared rings. -/
def QueuePair.cleared : QueuePair := started.io

/-- Any calls that are answered in time can be made. -/
theorem exists_run_submits {σ κ ρ : Type*} (submit : κ → σ → ρ × σ) {ok : κ → Prop} (s₀ : σ)
    {calls : List κ} (h : ∀ c ∈ calls, ok c) :
    ∃ t, Run (Guarded (Submits submit) fun _ c => ok c) (s₀, []) t ∧ t.2.map Prod.fst = calls := by
  induction calls using List.reverseRecOn with
  | nil => exact ⟨_, .refl, rfl⟩
  | append_singleton calls c ih =>
      rcases ih fun c hc => h c (List.mem_append_left _ hc) with ⟨t, hrun, hcalls⟩
      have hc : ok c := h c (List.mem_append_right _ (List.mem_singleton_self c))
      refine ⟨_, hrun.tail ⟨hc, rfl⟩, ?_⟩
      rw [List.map_append, hcalls]
      rfl

/-- A call that is answered after so many looks, with this status. -/
def readAnswered (look : Nat) (code : UInt16) : Call := ⟨firstRead, look, 7, code⟩

/-- Calls that go around the rings three times, with all kinds of answers. -/
def aroundCalls : List Call :=
  (List.range 200).map fun i => readAnswered (i % 5) (if i % 7 = 0 then 1 else 0)

theorem aroundCalls_inTime : ∀ c ∈ aroundCalls, c.look < pollLimit := by
  intro c hc
  rcases List.mem_map.mp hc with ⟨i, -, rfl⟩
  have hlt := Nat.mod_lt i (by decide : 5 > 0)
  exact Nat.lt_trans hlt (by decide)

theorem queues_in_step_around :
    (∃ t, Run (Guarded (Submits adminCall) fun _ c => c.1.look < pollLimit)
        (QueuePair.cleared, []) t ∧
      t.2.map Prod.fst = aroundCalls.map (·, true) ∧ t.1.InStep t.2.length ∧
        Answered adminAttempt t.2) ∧
    ∃ t, Run (Guarded (Submits ioCall) fun _ c => c.look < pollLimit) (started, []) t ∧
      t.2.map Prod.fst = aroundCalls ∧ t.1.io.InStep t.2.length ∧
        Answered (fun n c => c.attempt 1 n) t.2 := by
  constructor
  · have htime : ∀ c ∈ aroundCalls.map (·, true), c.1.look < pollLimit := by
      simpa using aroundCalls_inTime
    rcases exists_run_submits adminCall QueuePair.cleared htime with ⟨t, hrun, hcalls⟩
    exact ⟨t, hrun, hcalls, queues_in_step.1 _ started_initial.fresh _ hrun⟩
  · rcases exists_run_submits ioCall started aroundCalls_inTime with ⟨t, hrun, hcalls⟩
    exact ⟨t, hrun, hcalls, queues_in_step.2 _ started_initial _ hrun⟩

end PolandOS.Nvme
