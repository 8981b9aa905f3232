import PolandOS.Drivers.Nvme
import PolandOS.Lib.PhaseRing

/-! # Whose completion the NVMe driver consumes

`nvme_io_submit` takes the completion at the head of the ring without a look at its
`cid`. `completion_attribution`: it is the completion of the submitted command as
long as no other one is there first.
-/

namespace PolandOS.Nvme

open PhaseRing Runs

/-! ## The two tags -/

theorem cid_withCid (cmd : NVMeSQE) (cid : UInt16) : (cmd.withCid cid).cid = cid := by
  apply UInt16.eq_of_toBitVec_eq
  ext i hi
  have hhigh : 16 + i < 32 := by omega
  -- the mask clears the upper half
  have hmask : (BitVec.ofNat 32 (2 ^ 16 - 1))[16 + i] = false := by
    rw [BitVec.getElem_eq_testBit_toNat, BitVec.toNat_ofNat,
      Nat.mod_eq_of_lt (by decide), Nat.testBit_two_pow_sub_one]
    simp
  have hmask' : (65535#32)[16 + i] = false := hmask
  have hbit : cid.toBitVec.getLsbD i = cid.toBitVec[i] := BitVec.getLsbD_eq_getElem hi
  have hi' : i < 32 := by omega
  simp [NVMeSQE.cid, NVMeSQE.withCid, hhigh, hmask', hbit, hi']

/-- `x & 1` is the lowest bit. -/
theorem and_one_beq (x : UInt16) : (x &&& 1 == 1) = x.toBitVec[0] := by
  rw [Bool.eq_iff_iff, beq_iff_eq]
  constructor
  · intro h
    have hbit := congrArg (fun y : UInt16 => y.toBitVec[0]) h
    simpa using hbit
  · intro h
    apply UInt16.eq_of_toBitVec_eq
    ext i hi
    cases i with
    | zero => simp [h]
    | succ i => simp [BitVec.getElem_one]

theorem phase_completion (c : Controller) (p : Post) (cmd : NVMeSQE) :
    (c.completion p cmd).phase = c.cqPhase := by
  unfold NVMeCQE.phase Controller.completion
  rw [and_one_beq]
  cases c.cqPhase <;> simp

/-! ## The rings as queues -/

/-- The completions that have been posted and not been read. -/
def unread (s : System) : List NVMeCQE :=
  (List.range ((s.controller.cqTail + queueDepth - s.driver.iocqHead) % queueDepth)).map
    fun i => s.iocq ((s.driver.iocqHead + i) % queueDepth)

/-- The completion ring is a queue `q` behind `count` completions that have been
read, and both sides know where they are in it. -/
structure Linked (s : System) (count : Nat) (q : List NVMeCQE) : Prop where
  ring : Holds NVMeCQE.phase queueDepth s.iocq count q
  head : (s.driver.iocqHead, s.driver.iocqPhase) = place queueDepth count
  tail : (s.controller.cqTail, s.controller.cqPhase) = place queueDepth (count + q.length)
  cqHead : s.controller.cqHead = s.driver.iocqHead
  sqHead : s.controller.sqHead = s.driver.iosqTail
  sqTail : s.driver.iosqTail < queueDepth

variable {s t : System} {count : Nat} {q : List NVMeCQE} {e : NVMeCQE} {p : Post}

theorem Linked.iocqHead (h : Linked s count q) : s.driver.iocqHead = count % queueDepth :=
  congrArg Prod.fst h.head

theorem Linked.iocqPhase (h : Linked s count q) : s.driver.iocqPhase = phaseOf queueDepth count :=
  congrArg Prod.snd h.head

theorem Linked.cqTail (h : Linked s count q) :
    s.controller.cqTail = (count + q.length) % queueDepth :=
  congrArg Prod.fst h.tail

theorem Linked.cqPhase (h : Linked s count q) :
    s.controller.cqPhase = phaseOf queueDepth (count + q.length) :=
  congrArg Prod.snd h.tail

theorem Initial.linked (h : Initial s) : Linked s 0 [] where
  ring := holds_init (by decide) fun i hi => by
    rw [h.iocq i hi]
    rfl
  head := by
    rw [h.iocqHead, h.iocqPhase]
    rfl
  tail := by
    rw [h.controller]
    rfl
  cqHead := by rw [h.controller, h.iocqHead]
  sqHead := by rw [h.controller, h.iosqTail]
  sqTail := by
    rw [h.iosqTail]
    decide

/-- The queue can be read off the state. -/
theorem Linked.unread_eq (h : Linked s count q) : unread s = q := by
  have hroom := h.ring.room
  have hcount : (s.controller.cqTail + queueDepth - s.driver.iocqHead) % queueDepth =
      q.length := by
    rw [h.cqTail, h.iocqHead]
    unfold queueDepth at hroom ⊢
    omega
  unfold unread
  rw [hcount]
  apply List.ext_getElem
  · simp
  · intro i hi hi'
    rw [List.getElem_map, List.getElem_range, h.iocqHead, Nat.mod_add_mod]
    exact h.ring.entry i hi'

/-! ## The controller's steps -/

/-- What a post does. -/
theorem Linked.post_cases (h : Linked s count q) (p : Post) :
    (s.post p = s ∧ (q.length + 1 = queueDepth ∨ s.controller.outstanding[p.which]? = none)) ∨
      ∃ cmd, s.controller.outstanding[p.which]? = some cmd ∧ (s.post p).driver = s.driver ∧
        Linked (s.post p) count (q ++ [s.controller.completion p cmd]) := by
  have hdepth : 0 < queueDepth := by decide
  have hfull : (s.controller.cqTail + 1) % queueDepth = s.controller.cqHead ↔
      q.length + 1 = queueDepth := by
    rw [← h.ring.full_iff, h.cqTail, h.cqHead, h.iocqHead, Nat.mod_add_mod]
  unfold System.post
  by_cases hroom : q.length + 1 = queueDepth
  · rw [if_pos (hfull.mpr hroom)]
    exact .inl ⟨rfl, .inl hroom⟩
  rw [if_neg (hfull.not.mpr hroom)]
  cases hcmd : s.controller.outstanding[p.which]? with
  | none => exact .inl ⟨rfl, .inr rfl⟩
  | some cmd =>
      refine .inr ⟨cmd, rfl, rfl, ?_⟩
      have hlt := h.ring.room
      have hphase : (s.controller.completion p cmd).phase = phaseOf queueDepth (count + q.length) :=
        (phase_completion _ p cmd).trans h.cqPhase
      constructor
      · have hpost := h.ring.post (by omega) hphase
        rw [← h.cqTail] at hpost
        exact hpost
      · exact h.head
      · change next queueDepth (s.controller.cqTail, s.controller.cqPhase) = _
        rw [h.tail, next_place hdepth, List.length_append, List.length_singleton, Nat.add_assoc]
      · exact h.cqHead
      · exact h.sqHead
      · exact h.sqTail

/-- Posts come behind what is there. -/
theorem Linked.posts (h : Linked s count (e :: q)) (ps : List Post) :
    ∃ q', Linked (ps.foldl System.post s) count (e :: q') ∧
      (ps.foldl System.post s).driver = s.driver := by
  induction ps generalizing s q with
  | nil => exact ⟨q, h, rfl⟩
  | cons p ps ih =>
      rcases h.post_cases p with ⟨hsame, -⟩ | ⟨cmd, -, hdriver, hlinked⟩
      · rw [List.foldl_cons, hsame]
        exact ih h
      · rcases ih hlinked with ⟨q', hlinked', hdriver'⟩
        exact ⟨q', hlinked', hdriver'.trans hdriver⟩

/-- The first of the outstanding commands that is completed. -/
def completedBy (ps : List Post) (cids : List UInt16) : Option UInt16 :=
  ps.findSome? fun p => cids[p.which]?

/-- The identifiers of the outstanding commands. -/
def System.pending (s : System) : List UInt16 := s.controller.outstanding.map NVMeSQE.cid

/-- Posts into an empty queue. -/
theorem Linked.posts_empty (h : Linked s count []) (ps : List Post) :
    match completedBy ps s.pending with
    | none => ps.foldl System.post s = s
    | some cid => ∃ e q', e.cid = cid ∧ Linked (ps.foldl System.post s) count (e :: q') ∧
        (ps.foldl System.post s).driver = s.driver := by
  induction ps with
  | nil => rfl
  | cons p ps ih =>
      unfold completedBy System.pending at ih ⊢
      rw [List.findSome?_cons, List.getElem?_map, List.foldl_cons]
      rcases h.post_cases p with ⟨hsame, hfull | hnone⟩ | ⟨cmd, hcmd, hdriver, hlinked⟩
      · exact absurd hfull (by decide)
      · rw [hnone, hsame]
        exact ih
      · rw [hcmd]
        rcases hlinked.posts ps with ⟨q', hlinked', hdriver'⟩
        exact ⟨_, q', rfl, hlinked', hdriver'.trans hdriver⟩

/-! ## The driver's steps -/

/-- The driver goes on to the next completion. -/
theorem Linked.consume (h : Linked s count (e :: q)) : Linked (consume s) (count + 1) q := by
  have hdepth : 0 < queueDepth := by decide
  constructor
  · exact h.ring.take
  · change next queueDepth (s.driver.iocqHead, s.driver.iocqPhase) = _
    rw [h.head, next_place hdepth]
  · change (s.controller.cqTail, s.controller.cqPhase) = _
    rw [h.tail, List.length_cons, Nat.add_right_comm, Nat.add_assoc]
  · rfl
  · exact h.sqHead
  · exact h.sqTail

/-- The command is put on its way, and the completions stay as they are. -/
theorem Linked.enqueue (h : Linked s count q) (cmd : NVMeSQE) :
    Linked (enqueue cmd s) count q ∧ (enqueue cmd s).pending = s.pending ++ [s.driver.ioCid] := by
  have hlt := h.sqTail
  refine ⟨⟨h.ring, h.head, h.tail, h.cqHead, rfl, Nat.mod_lt _ (by decide)⟩, ?_⟩
  -- the doorbell hands over one command
  have hcount : ((s.driver.iosqTail + 1) % queueDepth + queueDepth - s.driver.iosqTail) %
      queueDepth = 1 := by
    unfold queueDepth at hlt ⊢
    omega
  have hslot : s.driver.iosqTail % queueDepth = s.driver.iosqTail := Nat.mod_eq_of_lt hlt
  simp [Nvme.enqueue, System.ringSq, System.pending, h.sqHead, hcount, hslot, cid_withCid]

/-- What a call consumes, and what it returns. -/
structure Consumes (r : Int × Option NVMeCQE × System) (count : Nat) (e : NVMeCQE) : Prop where
  result : r.1 = 0 ∨ r.1 = -1
  consumed : r.2.1 = some e
  linked : ∃ q, Linked r.2.2 (count + 1) q

/-- A completion that is there at a look is consumed. -/
theorem consumes_of_posts {schedule : Schedule} {n : Nat}
    (h : Linked ((schedule n).foldl System.post s) count (e :: q)) :
    Consumes (pollCompletion schedule (n + 1) s) count e := by
  have hfront := h.ring.front
  rw [← h.iocqHead, ← h.iocqPhase] at hfront
  rw [pollCompletion, hfront.1, if_pos hfront.2]
  refine ⟨?_, rfl, q, h.consume⟩
  by_cases hcode : e.statusCode ≠ 0
  · exact .inr (if_pos hcode)
  · exact .inl (if_neg hcode)

/-- Where a completion is there, it is consumed at the next look. -/
theorem Linked.poll_front (h : Linked s count (e :: q)) (schedule : Schedule) (n : Nat) :
    Consumes (pollCompletion schedule (n + 1) s) count e := by
  rcases h.posts (schedule n) with ⟨q', hlinked, -⟩
  exact consumes_of_posts hlinked

/-- The first of the outstanding commands that is completed in the looks that are
left. -/
def firstCompleted (schedule : Schedule) : Nat → List UInt16 → Option UInt16
  | 0, _ => none
  | n + 1, cids => (completedBy (schedule n) cids).or (firstCompleted schedule n cids)

/-- Where no completion is there, the first that is posted is consumed. -/
theorem Linked.poll_empty (h : Linked s count []) (schedule : Schedule) (n : Nat) :
    match firstCompleted schedule n s.pending with
    | none => pollCompletion schedule n s = (-2, none, s)
    | some cid => ∃ e, e.cid = cid ∧ Consumes (pollCompletion schedule n s) count e := by
  induction n with
  | zero => rfl
  | succ n ih =>
      have hposts := h.posts_empty (schedule n)
      rw [firstCompleted]
      cases hfirst : completedBy (schedule n) s.pending with
      | none =>
          rw [hfirst] at hposts
          rw [Option.none_or, pollCompletion, hposts]
          have hidle := h.ring.idle
          rw [← h.iocqHead, ← h.iocqPhase] at hidle
          simp only [if_neg hidle]
          exact ih
      | some cid =>
          rw [hfirst] at hposts
          rcases hposts with ⟨e, q', hcid, hlinked, -⟩
          exact ⟨e, hcid, consumes_of_posts hlinked⟩

/-! ## Attribution -/

/-- What is consumed is the completion of the submitted command. -/
def Attempt.Attributed (a : Attempt) : Prop :=
  a.result = 0 ∨ a.result = -1 → ∃ e, a.consumed = some e ∧ e.cid = a.cid

/-- The completion that the driver comes to first, an unread one or else the first
that the controller posts during the call, is that of the command to be submitted. -/
def OwnFirst (schedule : Schedule) (s : System) : Prop :=
  match unread s with
  | e :: _ => e.cid = s.driver.ioCid
  | [] => ∀ cid, firstCompleted schedule pollLimit (s.pending ++ [s.driver.ioCid]) = some cid →
      cid = s.driver.ioCid

/-- What a call of `nvme_io_submit` does. -/
theorem Linked.submit (h : Linked s count q) (cmd : NVMeSQE) (schedule : Schedule) :
    (∃ count' q', Linked (nvmeIoSubmit cmd schedule s).2 count' q') ∧
      ((nvmeIoSubmit cmd schedule s).1.Attributed ↔ OwnFirst schedule s) := by
  rcases h.enqueue cmd with ⟨hlinked, hpending⟩
  -- a completion is consumed, and the call returns 0 or -1
  have hconsumes : ∀ e, Consumes (pollCompletion schedule pollLimit (Nvme.enqueue cmd s)) count e →
      (∃ count' q', Linked (nvmeIoSubmit cmd schedule s).2 count' q') ∧
        ((nvmeIoSubmit cmd schedule s).1.Attributed ↔ e.cid = s.driver.ioCid) := by
    rintro e ⟨hresult, hconsumed, q', hlinked'⟩
    refine ⟨⟨count + 1, q', hlinked'⟩, ?_⟩
    constructor
    · intro hown
      rcases hown hresult with ⟨e', he', hcid⟩
      cases hconsumed.symm.trans he'
      exact hcid
    · exact fun hcid _ => ⟨e, hconsumed, hcid⟩
  unfold OwnFirst
  rw [h.unread_eq]
  cases q with
  | cons e q => exact hconsumes e (hlinked.poll_front schedule _)
  | nil =>
      have hpoll := hlinked.poll_empty schedule pollLimit
      rw [hpending] at hpoll
      cases hfirst : firstCompleted schedule pollLimit (s.pending ++ [s.driver.ioCid]) with
      | none =>
          rw [hfirst] at hpoll
          have hsubmit : nvmeIoSubmit cmd schedule s =
              (⟨s.driver.ioCid, -2, none⟩, Nvme.enqueue cmd s) := by
            rw [nvmeIoSubmit, hpoll]
          rw [hsubmit]
          refine ⟨⟨count, [], hlinked⟩, ?_⟩
          constructor
          · exact fun _ _ h => nomatch h
          · rintro - (h | h)
            · exact absurd h (by decide : (-2 : Int) ≠ 0)
            · exact absurd h (by decide : (-2 : Int) ≠ -1)
      | some cid =>
          rw [hfirst] at hpoll
          rcases hpoll with ⟨e, rfl, hpoll⟩
          simpa using hconsumes e hpoll

/-- The checks of `nvme_read_blocks` and `nvme_write_blocks` let a command pass. -/
def Passes (s : System) (count : UInt32) : Prop :=
  s.driver.present = true ∧ ¬(count = 0 ∨ count > 4096 / s.driver.nsBlockSize)

/-- The condition on an event. -/
def Event.Own (s : System) : Event → Prop
  | .read _ _ count _ schedule => Passes s count → OwnFirst schedule s
  | .write _ _ count _ schedule => Passes s count → OwnFirst schedule s
  | .post _ => True

theorem Linked.blockCommand (h : Linked s count q) (opcode nsid : UInt32) (lba : UInt64)
    (blocks : UInt32) (buf : UInt64) (schedule : Schedule) :
    (∃ count' q', Linked (blockCommand opcode nsid lba blocks buf schedule s).2.2 count' q') ∧
      ((∀ a ∈ (Nvme.blockCommand opcode nsid lba blocks buf schedule s).2.1, a.Attributed) ↔
        (Passes s blocks → OwnFirst schedule s)) := by
  unfold Nvme.blockCommand Passes
  by_cases hpresent : s.driver.present = true
  · by_cases hcount : blocks = 0 ∨ blocks > 4096 / s.driver.nsBlockSize
    · rw [if_neg (by simp [hpresent]), if_pos hcount]
      exact ⟨⟨count, q, h⟩, by simp [hcount]⟩
    · rw [if_neg (by simp [hpresent]), if_neg hcount]
      rcases h.submit _ schedule with ⟨hlinked, hiff⟩
      refine ⟨hlinked, ?_⟩
      simp only [Option.mem_def, Option.some.injEq, forall_eq', hpresent, hcount,
        not_false_eq_true, and_self, forall_const]
      exact hiff
  · rw [if_pos (by simpa using hpresent)]
    exact ⟨⟨count, q, h⟩, by simp [hpresent]⟩

/-- What an event does. -/
theorem Linked.event (h : Linked s count q) (e : Event) :
    (∃ count' q', Linked (e.run s).2 count' q') ∧
      ((∀ a ∈ (e.run s).1, a.Attributed) ↔ e.Own s) := by
  cases e with
  | read nsid lba blocks buf schedule => exact h.blockCommand _ nsid lba blocks buf schedule
  | write nsid lba blocks buf schedule => exact h.blockCommand _ nsid lba blocks buf schedule
  | post p =>
      refine ⟨?_, by simp [Event.run, Event.Own]⟩
      change ∃ count' q', Linked (s.post p) count' q'
      rcases h.post_cases p with ⟨hsame, -⟩ | ⟨cmd, -, -, hlinked⟩
      · rw [hsame]
        exact ⟨count, q, h⟩
      · exact ⟨count, _, hlinked⟩

theorem linked_of_run {s₀ : System} (h₀ : Initial s₀) {t : System × List Attempt}
    (hrun : Run Step (s₀, []) t) : ∃ count q, Linked t.1 count q := by
  refine hrun.invariant (I := fun t => ∃ count q, Linked t.1 count q) ⟨0, [], h₀.linked⟩ ?_
  rintro t e _ ⟨count, q, h⟩ rfl
  exact (h.event e).1

/-- In a run in which every submitted command's completion comes first, each call
consumes its own; and after any run whatsoever, a call does so exactly then. -/
theorem completion_attribution {s₀ : System} (h₀ : Initial s₀) :
    (∀ t, Run (Guarded Step fun t e => e.Own t.1) (s₀, []) t → ∀ a ∈ t.2, a.Attributed) ∧
      ∀ t, Run Step (s₀, []) t → ∀ e : Event,
        (∀ a ∈ (e.run t.1).1, a.Attributed) ↔ e.Own t.1 := by
  constructor
  · intro t hrun
    have hinv := hrun.invariant
      (I := fun t => (∃ count q, Linked t.1 count q) ∧ ∀ a ∈ t.2, a.Attributed)
      ⟨⟨0, [], h₀.linked⟩, fun a ha => nomatch ha⟩ ?_
    · exact hinv.2
    rintro t e _ ⟨⟨count, q, h⟩, hlog⟩ ⟨hown, rfl⟩
    rcases h.event e with ⟨hlinked, hiff⟩
    refine ⟨hlinked, ?_⟩
    intro a ha
    rcases List.mem_append.mp ha with ha | ha
    · exact hlog a ha
    · exact hiff.mpr hown a (Option.mem_toList.mp ha)
  · intro t hrun e
    rcases linked_of_run h₀ hrun with ⟨count, q, h⟩
    exact (h.event e).2

/-- The state behind `nvme_init`, with blocks of 512 bytes. -/
def started : System where
  driver := ⟨true, 0, 512, 0, 0, true, 0⟩
  controller := ⟨0, [], 0, true, 0⟩
  iosq _ := .zero
  iocq _ := .zero

theorem started_initial : Initial started := ⟨rfl, rfl, rfl, rfl, rfl, fun _ _ => rfl⟩

/-- The controller completes the oldest command at every look. -/
def prompt : Schedule := fun _ => [⟨0, 0, 0⟩]

theorem completion_attribution_read :
    ∃ t, Run (Guarded Step fun t e => e.Own t.1) (started, []) t ∧
      (∃ a ∈ t.2, a.result = 0) ∧ ∀ a ∈ t.2, a.Attributed := by
  have hown : (Event.read 1 0 1 0 prompt).Own started := by
    intro _ cid hcid
    have hfirst : firstCompleted prompt pollLimit [0] = some 0 := rfl
    exact Option.some.inj (hcid.symm.trans hfirst)
  have hstep : Guarded Step (fun t e => e.Own t.1) (started, []) (.read 1 0 1 0 prompt) _ :=
    ⟨hown, rfl⟩
  have hrun := Run.tail .refl hstep
  exact ⟨_, hrun, ⟨_, List.mem_singleton.mpr rfl, rfl⟩,
    (completion_attribution started_initial).1 _ hrun⟩

/-- Without a post, a call on an empty queue times out. -/
theorem Linked.poll_silent (h : Linked s count []) (n : Nat) :
    pollCompletion (fun _ => []) n s = (-2, none, s) := by
  have hfirst : ∀ n cids, firstCompleted (fun _ => []) n cids = none := by
    intro n cids
    induction n with
    | zero => rfl
    | succ n ih => exact ih
  have hpoll := h.poll_empty (fun _ => []) n
  rw [hfirst] at hpoll
  exact hpoll

/-- The first command of the runs below. -/
def firstRead : NVMeSQE := { NVMeSQE.zero with cdw0 := nvmeCmdRead, nsid := 1 }

/-- A call that times out leaves its completion to the next one. -/
theorem stale_completion : ∃ t, Run Step (started, []) t ∧
    ∃ a ∈ t.2, a.result = 0 ∧ ∃ e, a.consumed = some e ∧ e.cid ≠ a.cid := by
  -- the first read times out, and its completion comes during the second
  have hpoll := (started_initial.linked.enqueue firstRead).1.poll_silent pollLimit
  have hfirst : (Event.read 1 0 1 0 fun _ => []).run started =
      (some ⟨0, -2, none⟩, enqueue firstRead started) := by
    change (some (nvmeIoSubmit firstRead (fun _ => []) started).1,
      (nvmeIoSubmit firstRead (fun _ => []) started).2) = _
    rw [nvmeIoSubmit, hpoll]
    rfl
  have hstep : Step (started, []) (.read 1 0 1 0 fun _ => [])
      (enqueue firstRead started, [⟨0, -2, none⟩]) := by
    unfold Step
    rw [hfirst]
    rfl
  have hstep' : Step (enqueue firstRead started, [⟨0, -2, none⟩]) (.read 1 0 1 0 prompt) _ := rfl
  refine ⟨_, .tail (.tail .refl hstep) hstep', _, List.mem_cons_of_mem _ (List.mem_singleton.mpr rfl),
    rfl, _, rfl, ?_⟩
  decide

end PolandOS.Nvme
