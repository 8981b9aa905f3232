import Mathlib.Data.List.Forall2
import Mathlib.Data.List.Infix
import PolandOS.Drivers.Keyboard

/-! # A program that reads keys

The keyboard driver together with one program that takes characters out of its ring,
with the interrupts at any time. `Reader.run_reads`: the program reads the characters
in the order in which the keys gave them. `handled` and `touched` tell which of its notes belong
to which key event.
-/

namespace PolandOS.Keyboard

open RingQueue

/-- A program that reads keys: whether it waits for one, what it does with a character and
what it notes about it, and what it does otherwise. -/
structure Reader (σ ε β : Type) where
  waits : σ → Bool
  read : σ → Char → σ × β
  other : ε → σ → σ

/-- What happens next: an interrupt with a scancode, a look into the ring, or anything
else that the program does. -/
inductive KeyStep (ε : Type)
  | irq (sc : UInt8)
  | poll
  | other (e : ε)

/-- The driver, the program, and the characters it has read with its notes. -/
structure KeySystem (σ β : Type) where
  kb : KbState
  state : σ
  log : List (Char × β)

variable {σ ε β : Type}

namespace Reader

variable (r : Reader σ ε β)

def step (s : KeySystem σ β) : KeyStep ε → KeySystem σ β
  | .irq sc => { s with kb := kbIrqHandler s.kb sc }
  | .poll =>
    if r.waits s.state then
      match kbPop s.kb with
      | none => s
      | some (c, kb) =>
        let (state, note) := r.read s.state c
        { kb, state, log := s.log ++ [(c, note)] }
    else s
  | .other e => { s with state := r.other e s.state }

def run (s : KeySystem σ β) (steps : List (KeyStep ε)) : KeySystem σ β := steps.foldl r.step s

/-- The ring has room for what comes next. -/
def Fits (s : KeySystem σ β) : KeyStep ε → Prop
  | .irq sc => s.kb.ring.count kbBufferSize + (scanChars s.kb.mods sc).length < kbBufferSize
  | _ => True

/-- The ring never overflows. -/
def NoOverflow (s : KeySystem σ β) : List (KeyStep ε) → Prop
  | [] => True
  | a :: rest => Fits s a ∧ NoOverflow (r.step s a) rest

instance (s : KeySystem σ β) : (a : KeyStep ε) → Decidable (Fits s a)
  | .irq _ => inferInstanceAs (Decidable (_ < _))
  | .poll => .isTrue trivial
  | .other _ => .isTrue trivial

instance NoOverflow.decidable :
    (s : KeySystem σ β) → (steps : List (KeyStep ε)) → Decidable (r.NoOverflow s steps)
  | _, [] => .isTrue trivial
  | s, a :: rest =>
    have := NoOverflow.decidable (r.step s a) rest
    inferInstanceAs (Decidable (Fits s a ∧ r.NoOverflow (r.step s a) rest))

/-- The program reads some characters from one state to another. -/
inductive Reads : σ → List (Char × β) → σ → Prop
  | done (s : σ) : Reads s [] s
  | read {s t : σ} {c : Char} {log : List (Char × β)} :
      r.waits s = true → Reads (r.read s c).1 log t → Reads s ((c, (r.read s c).2) :: log) t
  | other {s t : σ} {log : List (Char × β)} (e : ε) : Reads (r.other e s) log t → Reads s log t

end Reader

/-- The scancode of a step. -/
def KeyStep.scans : KeyStep ε → List UInt8
  | .irq sc => [sc]
  | _ => []

/-- The scancodes of a run. -/
def scansOf (steps : List (KeyStep ε)) : List UInt8 := steps.flatMap KeyStep.scans

namespace Reader

variable {r : Reader σ ε β} {s : KeySystem σ β} {q : List Char} {a : KeyStep ε}

theorem Reads.trans {s t u : σ} {log log' : List (Char × β)} (h : r.Reads s log t)
    (h' : r.Reads t log' u) : r.Reads s (log ++ log') u := by
  induction h with
  | done => exact h'
  | read hwaits _ ih => exact .read hwaits (ih h')
  | other e _ ih => exact .other e (ih h')

/-- What a step reads comes from the front of the ring, and what its scancode gives goes
to the back. -/
structure Moves (r : Reader σ ε β) (s : KeySystem σ β) (q : List Char) (scs : List UInt8)
    (t : KeySystem σ β) (log : List (Char × β)) (q' : List Char) : Prop where
  holds : Holds kbBufferSize t.kb.ring q'
  mods : t.kb.mods = scs.foldl scanMods s.kb.mods
  log_eq : t.log = s.log ++ log
  reads : r.Reads s.state log t.state
  queue : q ++ scansChars s.kb.mods scs = log.map Prod.fst ++ q'

theorem moves_idle (h : Holds kbBufferSize s.kb.ring q) : Moves r s q [] s [] q :=
  ⟨h, rfl, (List.append_nil _).symm, .done _, List.append_nil _⟩

/-- What a scancode gives goes to the back of the queue, and a reader takes from the front. -/
theorem step_moves (h : Holds kbBufferSize s.kb.ring q) (hfits : Fits s a) :
    ∃ log q', Moves r s q a.scans (r.step s a) log q' := by
  cases a with
  | irq sc =>
      have hroom : q.length + (scanChars s.kb.mods sc).length < kbBufferSize := by
        rw [← h.count_eq]
        exact hfits
      refine ⟨[], q ++ scanChars s.kb.mods sc, ?_⟩
      exact {
        holds := kbIrqHandler_holds h sc hroom
        mods := congrArg KbState.mods (kbIrqHandler_eq s.kb sc)
        log_eq := (List.append_nil _).symm
        reads := .done _
        queue := congrArg (q ++ ·) (List.append_nil _) }
  | poll =>
      by_cases hwaits : r.waits s.state = true
      · cases q with
        | nil =>
            have hstep : r.step s .poll = s := by
              unfold step
              rw [if_pos hwaits, kbPop_nil h]
            rw [hstep]
            exact ⟨[], [], moves_idle h⟩
        | cons c q =>
            rcases kbPop_cons h with ⟨ring, hpop, hrest⟩
            have hstep : r.step s .poll = ⟨{ s.kb with ring }, (r.read s.state c).1,
                s.log ++ [(c, (r.read s.state c).2)]⟩ := by
              unfold step
              rw [if_pos hwaits, hpop]
            rw [hstep]
            refine ⟨[(c, (r.read s.state c).2)], q, ?_⟩
            exact ⟨hrest, rfl, rfl, .read hwaits (.done _), List.append_nil _⟩
      · have hstep : r.step s .poll = s := if_neg hwaits
        rw [hstep]
        exact ⟨[], q, moves_idle h⟩
  | other e =>
      refine ⟨[], q, h, rfl, (List.append_nil _).symm, .other e (.done _), List.append_nil _⟩

/-- The ring is a queue: what is read and what is left, is what was there and what the
scancodes gave. -/
theorem run_moves {steps : List (KeyStep ε)} (h : Holds kbBufferSize s.kb.ring q)
    (hroom : r.NoOverflow s steps) :
    ∃ log q', Moves r s q (scansOf steps) (r.run s steps) log q' := by
  induction steps generalizing s q with
  | nil => exact ⟨[], q, moves_idle h⟩
  | cons a rest ih =>
      rcases step_moves h hroom.1 with ⟨log, q', hstep⟩
      rcases ih hstep.holds hroom.2 with ⟨log', q'', hrest⟩
      refine ⟨log ++ log', q'', ?_⟩
      exact {
        holds := hrest.holds
        mods := by
          rw [scansOf, List.flatMap_cons, List.foldl_append, ← hstep.mods]
          exact hrest.mods
        log_eq := by
          rw [← List.append_assoc, ← hstep.log_eq]
          exact hrest.log_eq
        reads := hstep.reads.trans hrest.reads
        queue := by
          rw [scansOf, List.flatMap_cons, scansChars_append, ← hstep.mods, List.map_append,
            ← List.append_assoc, hstep.queue, List.append_assoc, List.append_assoc]
          exact congrArg (log.map Prod.fst ++ ·) hrest.queue }

end Reader

/-! ## Key events and notes -/

/-- A key event whose characters have been read, and the notes on them. -/
structure Handled (β : Type) where
  event : KeyEvent
  chars : List Char
  notes : List β

/-- The key events whose characters have been read. -/
def handled : List (KeyEvent × List Char) → List β → List (Handled β)
  | [], _ => []
  | (e, cs) :: rest, notes =>
    if cs.length ≤ notes.length then
      ⟨e, cs, notes.take cs.length⟩ :: handled rest (notes.drop cs.length)
    else []

/-- The key events of which characters have been read, with these characters. Of the last one
it may be only the first. -/
def touched : List (KeyEvent × List Char) → List β → List (Handled β)
  | [], _ => []
  | (e, cs) :: rest, notes =>
    if 0 < cs.length ∧ notes.length = 0 then []
    else ⟨e, cs.take notes.length, notes.take cs.length⟩ :: touched rest (notes.drop cs.length)

/-- The notes of a key event belong to its characters, one by one. -/
theorem touched_forall₂ {P : Char → β → Prop} {groups : List (KeyEvent × List Char)}
    {log : List (Char × β)} (hP : ∀ p ∈ log, P p.1 p.2)
    (hpre : log.map Prod.fst <+: groups.flatMap Prod.snd) :
    ∀ h ∈ touched groups (log.map Prod.snd), ∃ cs, (h.event, cs) ∈ groups ∧
      h.chars <+: cs ∧ (cs ≠ [] → h.chars ≠ []) ∧ List.Forall₂ P h.chars h.notes := by
  induction groups generalizing log with
  | nil => exact fun h hh => (by cases hh)
  | cons p groups ih =>
      rcases p with ⟨e, cs⟩
      intro h hh
      unfold touched at hh
      rw [List.length_map] at hh
      rw [List.flatMap_cons] at hpre
      by_cases hnone : 0 < cs.length ∧ log.length = 0
      · rw [if_pos hnone] at hh
        cases hh
      · rw [if_neg hnone] at hh
        rcases List.mem_cons.mp hh with rfl | hh
        · -- the characters of the event are the first ones that were read
          have hfirst : cs.take log.length = (log.take cs.length).map Prod.fst := by
            have htake := hpre.take cs.length
            rw [List.take_left] at htake
            rw [List.map_take, List.prefix_iff_eq_take.mp htake, List.length_take, List.length_map,
              ← List.take_take]
            exact (List.take_of_length_le (List.length_take_le' _ _)).symm
          refine ⟨cs, List.mem_cons_self, List.take_prefix _ _, fun hcs => ?_, ?_⟩
          · have hpos := List.length_pos_of_ne_nil hcs
            have hlog : log.length ≠ 0 := fun hzero => hnone ⟨hpos, hzero⟩
            dsimp only
            rw [ne_eq, List.take_eq_nil_iff]
            exact not_or.mpr ⟨hlog, hcs⟩
          · dsimp only
            rw [hfirst, ← List.map_take, List.forall₂_map_left_iff, List.forall₂_map_right_iff,
              List.forall₂_same]
            exact fun p hp => hP p (List.mem_of_mem_take hp)
        · rw [← List.map_drop] at hh
          have hdrop := hpre.drop cs.length
          rw [List.drop_left, ← List.map_drop] at hdrop
          obtain ⟨cs', hmem, hrest⟩ := ih (fun p hp => hP p (List.mem_of_mem_drop hp)) hdrop h hh
          exact ⟨cs', List.mem_cons_of_mem _ hmem, hrest⟩

/-- The driver has an empty ring and no prefix behind it. -/
structure KbState.Idle (kb : KbState) : Prop where
  empty : Holds kbBufferSize kb.ring []
  noPrefix : kb.mods.e0Prefix = false

/-- The run gets the scancodes of some key events, or a part of them so far, and the ring
does not overflow. -/
structure Fed (r : Reader σ ε β) (s : KeySystem σ β) (es : List KeyEvent)
    (steps : List (KeyStep ε)) : Prop where
  noOverflow : r.NoOverflow s steps
  scans : scansOf steps <+: es.flatMap KeyEvent.scancodes

variable {r : Reader σ ε β}

/-- The characters that a program has read are the first ones of those that the key events
gave. -/
theorem Fed.reads {kb : KbState} {state : σ} {es : List KeyEvent} {steps : List (KeyStep ε)}
    (h : Fed r ⟨kb, state, []⟩ es steps) (hkb : kb.Idle) :
    r.Reads state (r.run ⟨kb, state, []⟩ steps).log (r.run ⟨kb, state, []⟩ steps).state ∧
      (r.run ⟨kb, state, []⟩ steps).log.map Prod.fst <+:
        (keyChars kb.mods es).flatMap Prod.snd := by
  rcases Reader.run_moves (r := r) (s := ⟨kb, state, []⟩) hkb.empty h.noOverflow with
    ⟨log, q', hmoves⟩
  have hlog : (r.run ⟨kb, state, []⟩ steps).log = log := hmoves.log_eq
  have hqueue : scansChars kb.mods (scansOf steps) = log.map Prod.fst ++ q' := hmoves.queue
  rw [hlog]
  refine ⟨hmoves.reads, ?_⟩
  rcases h.scans with ⟨later, hlater⟩
  rw [flatMap_keyChars, ← hlater, scansChars_append, hqueue, List.append_assoc]
  exact List.prefix_append _ _

/-- What a program notes about every character that it reads. -/
theorem Reader.Reads.forall_log {P : Char → β → Prop} {s t : σ} {log : List (Char × β)}
    (h : r.Reads s log t) (hread : ∀ s c, P c (r.read s c).2) : ∀ p ∈ log, P p.1 p.2 := by
  induction h with
  | done => exact fun p hp => (by cases hp)
  | read _ _ ih =>
      intro p hp
      rcases List.mem_cons.mp hp with rfl | hp
      · exact hread _ _
      · exact ih p hp
  | other _ _ ih => exact ih

end PolandOS.Keyboard
