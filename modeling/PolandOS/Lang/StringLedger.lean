import Mathlib.Algebra.BigOperators.Group.Multiset.Basic
import Mathlib.Data.Finset.Card
import Mathlib.Tactic.Abel
import PolandOS.Lang.HeapStrings
import PolandOS.Lib.Traces

/-! # Who owns a string

A string literal makes a string, and a variable, `return_value` or a temporary owns it. An
identifier and an assignment yield a copy of the pointer that a variable holds; but whoever
takes a value treats it as its own. The ledger of a run knows the strings that are there and
what the nodes under evaluation have been yielded. `Owned` is what the events should keep to,
`Handed` the condition under which they do, and the lemmas are about what happens inside a node.
-/

namespace PolandOS.PolskiScript

open Logging

variable {σ : Type}

/-! ## Owners -/

/-- The string of a value, if it is one. -/
def Value.strings : Value → Multiset Int64
  | .string p => {p}
  | _ => 0

/-- What the variables of an environment hold. -/
def frameStrings (frame : Frame) : Multiset Int64 := (frame.map fun e => e.2.strings).sum

/-- What the variables and `return_value` hold. -/
def Interp.strings (s : Interp σ) : Multiset Int64 :=
  frameStrings s.frames.flatten + s.returnValue.strings

/-- The type of a node and the value that it has yielded. -/
structure Yield where
  type : ASTNodeType
  value : Value

/-- What the temporary owns: the string of a literal. Every other value is a copy. -/
def Yield.owned (y : Yield) : Multiset Int64 :=
  if y.type = .literalString then y.value.strings else 0

/-- The strings that are there, and for each node under evaluation, the innermost first,
what its children have yielded and it has not dealt with yet. -/
structure StringLedger where
  live : Finset Int64
  yielded : List (List Yield)

/-- Before a run. -/
def StringLedger.start : StringLedger := ⟨∅, [[]]⟩

/-- What temporaries own. -/
def temporaries (ys : List Yield) : Multiset Int64 := (ys.map Yield.owned).sum

/-- The innermost node has dealt with what its children have yielded. -/
def StringLedger.settle (g : StringLedger) : StringLedger :=
  { g with yielded := [] :: g.yielded.tail }

/-- A value is yielded to the node outside. -/
def yieldTo (y : Yield) : List (List Yield) → List (List Yield)
  | [] => []
  | ys :: outer => (y :: ys) :: outer

/-- The ledger behind an event. -/
def StringLedger.next (g : StringLedger) : RunEvent σ → StringLedger
  | .begun .. => { g with yielded := [] :: g.yielded }
  | .evaluated type v _ => { g with yielded := yieldTo ⟨type, v⟩ g.yielded.tail }
  | .alloc p => { g with live := insert p g.live }
  | .free p => { g with live := g.live.erase p }
  | .declared .. | .assigned .. | .overwritten _ | .binary .. | .unary .. | .condition _
  | .read _ | .dropped .. => g.settle
  | _ => g

/-- Each string that is there has one owner: a variable, `return_value` or a temporary. -/
def StringLedger.OneOwner (g : StringLedger) (s : Interp σ) : Prop :=
  s.strings + temporaries g.yielded.flatten = g.live.val

/-- A string is created where none is, and read and freed where one is; and wherever a node
begins or has been evaluated, each string has one owner. -/
def Owned (g : StringLedger) : RunEvent σ → Prop
  | .alloc p => p ∉ g.live
  | .read p | .free p => p ∈ g.live
  | .begun _ s => g.OneOwner s
  | .evaluated type v s => { g with yielded := yieldTo ⟨type, v⟩ g.yielded.tail }.OneOwner s
  | _ => True

/-! ## Who takes what -/

/-- A string that is yielded to the innermost node comes from a literal exactly if it is
`taken`. -/
def StringLedger.Hands (g : StringLedger) (taken : Prop) : Prop :=
  ∀ y ∈ g.yielded.headD [], y.value.strings ≠ 0 → (y.type = .literalString ↔ taken)

/-- The operator frees its operands. -/
def binaryFrees (op : List Char) (left right : Value) : Prop :=
  arithmetic (op.headD nul) left right = none ∧
    (comparison op left right <|> logical op left right) = none

/-- The condition on a step of a run. A declaration that finds room, an assignment that finds
its variable, a condition, a print, a return, and an operator that frees its operands, take a
string, and nothing else does; and no string is in `return_value` where it is overwritten. -/
def Handed (g : StringLedger) : RunEvent σ → Prop
  | .declared _ taken _ => g.Hands taken
  | .assigned _ found _ => g.Hands found
  | .binary op left right => g.Hands (binaryFrees op left right)
  | .unary op _ => g.Hands (op.headD nul ≠ '!')
  | .condition _ | .read _ => g.Hands True
  | .overwritten old => old.strings = 0 ∧ g.Hands True
  | .dropped .. | .evaluated .. => g.Hands False
  | _ => True

/-- `kmalloc` does not fail. -/
def Stored : RunEvent σ → Prop
  | .alloc p => p ≠ 0
  | _ => True

section Decidable

instance (e : RunEvent σ) : Decidable (Stored e) :=
  match e with
  | .alloc p => inferInstanceAs (Decidable (p ≠ 0))
  | .parse _ | .begun .. | .arith .. | .binary .. | .unary .. | .condition _ | .identifier _
  | .declared .. | .assigned .. | .overwritten _ | .dropped .. | .read _ | .free _
  | .evaluated .. => .isTrue trivial

instance (g : StringLedger) (taken : Prop) [Decidable taken] : Decidable (g.Hands taken) :=
  inferInstanceAs (Decidable
    (∀ y ∈ g.yielded.headD [], y.value.strings ≠ 0 → (y.type = .literalString ↔ taken)))

instance (a : Option Arithmetic) : Decidable (a = none) :=
  match a with
  | none => .isTrue rfl
  | some _ => .isFalse nofun

instance (op : List Char) (left right : Value) : Decidable (binaryFrees op left right) :=
  inferInstanceAs (Decidable (_ ∧ _))

instance (g : StringLedger) (e : RunEvent σ) : Decidable (Handed g e) :=
  match e with
  | .declared _ taken _ => inferInstanceAs (Decidable (g.Hands taken))
  | .assigned _ found _ => inferInstanceAs (Decidable (g.Hands found))
  | .binary op left right => inferInstanceAs (Decidable (g.Hands (binaryFrees op left right)))
  | .unary op _ => inferInstanceAs (Decidable (g.Hands (op.headD nul ≠ '!')))
  | .condition _ | .read _ => inferInstanceAs (Decidable (g.Hands True))
  | .overwritten old => inferInstanceAs (Decidable (old.strings = 0 ∧ g.Hands True))
  | .dropped .. | .evaluated .. => inferInstanceAs (Decidable (g.Hands False))
  | .parse _ | .begun .. | .arith .. | .identifier _ | .alloc _ | .free _ => .isTrue trivial

end Decidable

/-! ## Accounts -/

variable {m : Memory σ} {I : σ → Finset Int64 → Prop} {g : StringLedger} {s t : Interp σ}
  {all : Multiset Int64} {mem : σ} {p : Int64} {ys : List Yield} {outer : List (List Yield)}

/-- What the temporaries own and what is owned otherwise is what is there. -/
structure Accounts (I : σ → Finset Int64 → Prop) (all : Multiset Int64) (mem : σ)
    (g : StringLedger) : Prop where
  memory : I mem g.live
  null : 0 ∉ g.live
  owned : all + temporaries g.yielded.flatten = g.live.val

theorem Accounts.of_eq (h : Accounts I all mem g) {all' : Multiset Int64} (heq : all = all') :
    Accounts I all' mem g := heq ▸ h

theorem Accounts.mem_live (h : Accounts I ({p} + all) mem g) : p ∈ g.live := by
  rw [← Finset.mem_val, ← h.owned, add_assoc, Multiset.singleton_add]
  exact Multiset.mem_cons_self _ _

theorem Accounts.free {mem' : σ} (h : Accounts I ({p} + all) mem g)
    (hI : I mem' (g.live.erase p)) : Accounts I all mem' { g with live := g.live.erase p } := by
  refine ⟨hI, fun h0 => h.null (Finset.mem_of_mem_erase h0), ?_⟩
  rw [Finset.erase_val, ← h.owned, add_assoc, Multiset.singleton_add, Multiset.erase_cons_head]

theorem Accounts.alloc {mem' : σ} (h : Accounts I all mem g) (hp : p ≠ 0) (hnew : p ∉ g.live)
    (hI : I mem' (insert p g.live)) :
    Accounts I ({p} + all) mem' { g with live := insert p g.live } := by
  refine ⟨hI, fun h0 => ?_, ?_⟩
  · rcases Finset.mem_insert.mp h0 with h0 | h0
    · exact hp h0.symm
    · exact h.null h0
  · rw [Finset.insert_val_of_notMem hnew, ← h.owned, add_assoc, Multiset.singleton_add]

theorem temporaries_append (ys zs : List Yield) :
    temporaries (ys ++ zs) = temporaries ys + temporaries zs := by
  rw [temporaries, List.map_append, List.sum_append]
  rfl

theorem temporaries_cons (y : Yield) (ys : List Yield) :
    temporaries (y :: ys) = y.owned + temporaries ys := List.sum_cons

/-- The innermost node takes what its children have yielded. -/
theorem Accounts.settle (h : Accounts I all mem g) (hg : g.yielded = ys :: outer) :
    Accounts I (temporaries ys + all) mem g.settle := by
  refine ⟨h.memory, h.null, ?_⟩
  have howned := h.owned
  rw [hg, List.flatten_cons, temporaries_append] at howned
  change _ + temporaries ([] :: g.yielded.tail).flatten = g.live.val
  rw [hg, ← howned, List.tail_cons, List.flatten_cons, List.nil_append]
  abel

/-- Nothing that is yielded owns a string, where nothing is taken. -/
theorem temporaries_left {taken : Prop} (h : g.Hands taken) (hg : g.yielded = ys :: outer)
    (hno : ¬taken) : temporaries ys = 0 := by
  refine List.sum_eq_zero fun x hx => ?_
  rcases List.mem_map.mp hx with ⟨y, hy, rfl⟩
  rw [Yield.owned]
  split
  case isFalse => rfl
  case isTrue hlit =>
    by_contra hne
    exact hno ((h y (by rwa [hg]) hne).mp hlit)

/-- Everything that is yielded owns its string, where it is taken. -/
theorem temporaries_taken {taken : Prop} (h : g.Hands taken) (hg : g.yielded = ys :: outer)
    (hyes : taken) : temporaries ys = (ys.map fun y => y.value.strings).sum := by
  refine congrArg List.sum (List.map_congr_left fun y hy => ?_)
  rw [Yield.owned]
  split
  case isTrue => rfl
  case isFalse hlit =>
    by_contra hne
    exact hlit ((h y (by rwa [hg]) (Ne.symm hne)).mpr hyes)

/-! ## What the variables own -/

theorem frameStrings_cons (e : List Char × Value) (frame : Frame) :
    frameStrings (e :: frame) = e.2.strings + frameStrings frame := List.sum_cons

theorem frameStrings_append (frame : Frame) (name : List Char) (v : Value) :
    frameStrings (frame ++ [(name, v)]) = v.strings + frameStrings frame := by
  rw [frameStrings, List.map_append, List.sum_append, List.map_singleton, List.sum_singleton,
    add_comm]
  rfl

/-- The value takes the place of the old one. -/
theorem frameStrings_assign {name : List Char} {frame : Frame} {old : Value}
    (h : lookup name frame = some old) (v : Value) :
    old.strings + frameStrings (assign name v frame) = v.strings + frameStrings frame := by
  induction frame with
  | nil => cases h
  | cons e frame ih =>
      obtain ⟨n, w⟩ := e
      rw [lookup, List.find?_cons] at h
      rw [assign]
      cases hname : n == name with
      | true =>
          rw [hname] at h
          cases h
          rw [if_pos rfl, frameStrings_cons, frameStrings_cons]
          dsimp only
          abel
      | false =>
          rw [hname] at h
          rw [if_neg Bool.false_ne_true, frameStrings_cons, frameStrings_cons]
          have hrest := ih h
          dsimp only
          rw [add_left_comm, hrest, add_left_comm]

theorem strings_eq (h : s.parents = []) :
    s.strings = frameStrings s.env + s.returnValue.strings := by
  rw [Interp.strings, Interp.frames, h, List.flatten_cons, List.flatten_nil, List.append_nil]

/-! ## Computations inside a node -/

variable {α β : Type} {x : Run σ α} {f : α → Run σ β}

/-- Where the strings are handed as they should, they are owned as they should, and there is
no `kpanic`. -/
abbrev Owning (g : StringLedger) (x : Run σ α) (post : α → StringLedger → Prop) : Prop :=
  Guards .panic StringLedger.next (fun g e => Stored e ∧ Handed g e) Owned g x post

variable {post : β → StringLedger → Prop}

/-- An event behind which nothing is left of what was yielded. -/
theorem owning_settle {e : RunEvent σ} {f : Unit → Run σ β} (hnext : g.next e = g.settle)
    (howned : Owned g e) (hf : Handed g e → Owning g.settle (f ()) post) :
    Owning g (Logged.emit e >>= f) post := by
  refine guards_emit (fun _ => howned) fun he => ?_
  rw [hnext]
  exact hf he.2

/-- The evaluation of a node goes on, with what has been yielded to it and to those outside. -/
structure Sound (I : σ → Finset Int64 → Prop) (s : Interp σ) (ys : List Yield)
    (outer : List (List Yield)) (g : StringLedger) : Prop where
  parents : s.parents = []
  yielded : g.yielded = ys :: outer
  accounts : Accounts I s.strings s.mem g

theorem Sound.null (hm : Lawful m I) (h : Sound I s ys outer g) :
    Sound I (valueCreateNull m s).2 ys outer g :=
  ⟨h.parents, h.yielded, hm.uninitialised _ _ h.accounts.memory, h.accounts.null,
    h.accounts.owned⟩

theorem Sound.fail (h : Sound I s ys outer g) (text : List Char) :
    Sound I (s.fail text) ys outer g := ⟨h.parents, h.yielded, h.accounts⟩

theorem StringLedger.Hands.of_iff {taken taken' : Prop} (h : g.Hands taken)
    (hiff : taken ↔ taken') : g.Hands taken' := fun y hy hne => (h y hy hne).trans hiff

/-- What is yielded is dropped. -/
theorem Sound.drop (h : Sound I s ys outer g) (hands : g.Hands False) :
    Sound I s [] outer g.settle := by
  have hnone := temporaries_left hands h.yielded id
  refine ⟨h.parents, ?_, (h.accounts.settle h.yielded).of_eq ?_⟩
  · change [] :: g.yielded.tail = _
    rw [h.yielded]
    rfl
  · rw [hnone, zero_add]

/-- There is no string among what is yielded. -/
def Stringless (ys : List Yield) : Prop := ∀ y ∈ ys, y.value.strings = 0

theorem stringless_nil : Stringless [] := fun _ h => nomatch h

theorem stringless_singleton {type : ASTNodeType} {v : Value} (h : v.strings = 0) :
    Stringless [⟨type, v⟩] := List.forall_mem_singleton.mpr h

/-- Where no string is yielded, it does not matter what is taken. -/
theorem Sound.pass (h : Sound I s ys outer g) (hys : Stringless ys) :
    Sound I s [] outer g.settle :=
  h.drop fun y hy hne => absurd (hys y (by rwa [h.yielded] at hy)) hne

/-- What is yielded is taken. -/
theorem Sound.take (h : Sound I s ys outer g) (hands : g.Hands True) :
    g.settle.yielded = [] :: outer ∧
      Accounts I ((ys.map fun y => y.value.strings).sum + s.strings) s.mem g.settle := by
  refine ⟨?_, (h.accounts.settle h.yielded).of_eq ?_⟩
  · change [] :: g.yielded.tail = _
    rw [h.yielded]
    rfl
  · rw [temporaries_taken hands h.yielded trivial]

/-- A value is freed: only the memory changes. -/
structure Freed (I : σ → Finset Int64 → Prop) (all : Multiset Int64) (s : Interp σ)
    (g : StringLedger) (t : Interp σ) (g' : StringLedger) : Prop where
  same : t = { s with mem := t.mem }
  yielded : g'.yielded = g.yielded
  accounts : Accounts I all t.mem g'

theorem Freed.trans {all' : Multiset Int64} {u : Interp σ} {g₁ g₂ : StringLedger}
    (h : Freed I all s g t g₁) (h' : Freed I all' t g₁ u g₂) : Freed I all' s g u g₂ := by
  refine ⟨?_, h'.yielded.trans h.yielded, h'.accounts⟩
  rw [h'.same, h.same]

theorem Freed.sound {g' : StringLedger} (h : Freed I s.strings s g t g')
    (hparents : s.parents = []) (hyielded : g.yielded = ys :: outer) : Sound I t ys outer g' := by
  rw [h.same]
  exact ⟨hparents, h.yielded.trans hyielded, h.accounts⟩

theorem owning_valueFree (hm : Lawful m I) {v : Value}
    (h : Accounts I (v.strings + all) s.mem g) :
    Owning g (valueFree m v s) (Freed I all s g) := by
  unfold valueFree
  split
  case h_1 p =>
      -- what is owned is there, so that the pointer is not NULL and `kfree` takes it
      have hlive := h.mem_live
      have hp : p ≠ 0 := fun h0 => h.null (h0 ▸ hlive)
      rw [if_neg hp]
      refine guards_emit (fun _ => hlive) fun _ => ?_
      rcases hm.kfree p s.mem g.live h.memory hlive with ⟨mem, hfree, hI⟩
      rw [hfree]
      exact guards_pure ⟨rfl, rfl, h.free hI⟩
  case h_2 hv =>
      refine guards_pure ⟨rfl, rfl, h.of_eq ?_⟩
      cases v with
      | string p => exact absurd rfl (hv p)
      | _ => exact zero_add _

/-- A string that is printed is taken. -/
theorem owning_valuePrint {type : ASTNodeType} {v : Value}
    (h : Sound I s (⟨type, v⟩ :: ys) outer g) (hys : Stringless ys) :
    Owning g (valuePrint m v s) fun t g' => (∃ out, t = { s with out := out }) ∧
      ∃ zs, Stringless zs ∧ g'.yielded = zs :: outer ∧
        Accounts I (v.strings + s.strings) s.mem g' := by
  cases v with
  | string p =>
      have hsum : ((⟨type, .string p⟩ :: ys).map fun y => y.value.strings).sum = {p} := by
        rw [List.map_cons, List.sum_cons, List.sum_eq_zero, add_zero]
        · rfl
        · intro x hx
          rcases List.mem_map.mp hx with ⟨y, hy, rfl⟩
          exact hys y hy
      refine guards_emit (fun he => ?_) fun he => ?_
      · have htaken := (h.take he.2).2
        rw [hsum] at htaken
        exact htaken.mem_live
      · rcases h.take he.2 with ⟨hyielded, haccounts⟩
        rw [hsum] at haccounts
        exact guards_pure ⟨⟨_, rfl⟩, [], stringless_nil, hyielded, haccounts⟩
  | _ =>
      refine guards_pure ⟨⟨_, rfl⟩, _, ?_, h.yielded, h.accounts.of_eq (zero_add _).symm⟩
      exact List.forall_mem_cons.mpr ⟨rfl, hys⟩

/-- What a declaration or a return has been given: nothing, or one value. -/
def Given (v : Value) (ys : List Yield) : Prop :=
  ys = [] ∧ v.strings = 0 ∨ ∃ type, ys = [⟨type, v⟩]

theorem Given.sum {v : Value} (h : Given v ys) :
    (ys.map fun y => y.value.strings).sum = v.strings := by
  rcases h with ⟨rfl, hv⟩ | ⟨type, rfl⟩
  · exact hv.symm
  · exact List.sum_singleton

theorem sound_of_accounts (hparents : s.parents = []) (hyielded : g.yielded = ys :: outer)
    (h : Accounts I (frameStrings s.env + s.returnValue.strings) s.mem g) :
    Sound I s ys outer g := ⟨hparents, hyielded, h.of_eq (strings_eq hparents).symm⟩

/-- A variable owns the new value, and nobody the old one. -/
theorem Accounts.assign {name : List Char} {v old : Value} (hparents : s.parents = [])
    (h : Accounts I (v.strings + s.strings) mem g) (hold : lookup name s.env = some old) :
    Accounts I (old.strings +
      (frameStrings (PolskiScript.assign name v s.env) + s.returnValue.strings)) mem g := by
  refine h.of_eq ?_
  rw [strings_eq hparents, ← add_assoc, ← frameStrings_assign hold v, add_assoc]

/-- A definition takes the value over, and frees the one that it replaces. -/
theorem owning_envDefine (hm : Lawful m I) {name : List Char} {v : Value}
    (h : Sound I s ys outer g) (hv : Given v ys) :
    Owning g (envDefine m name v s) fun t g' => Sound I t [] outer g' := by
  unfold envDefine
  refine guards_ite (fun _ => ?_) fun _ => ?_
  -- the environment is full, and nobody takes the value
  · refine owning_settle rfl trivial fun hands => guards_pure (h.drop ?_)
    exact hands.of_iff ⟨nofun, False.elim⟩
  refine owning_settle rfl trivial fun hands => ?_
  rcases h.take (hands.of_iff ⟨fun _ => trivial, fun _ => rfl⟩) with ⟨hyielded, haccounts⟩
  rw [hv.sum] at haccounts
  split
  case h_1 old hold =>
      refine guards_bind (owning_valueFree hm (haccounts.assign h.parents hold)) fun t g' ht => ?_
      refine guards_pure (sound_of_accounts ?_ (ht.yielded.trans hyielded) ?_)
      · rw [ht.same]
        exact h.parents
      · rw [ht.same]
        exact ht.accounts
  case h_2 =>
      refine guards_pure (sound_of_accounts h.parents hyielded (haccounts.of_eq ?_))
      rw [strings_eq h.parents, frameStrings_append, add_assoc]

/-- So does an assignment. -/
theorem owning_envSet (hm : Lawful m I) {name : List Char} {type : ASTNodeType} {v : Value}
    (h : Sound I s [⟨type, v⟩] outer g) :
    Owning g (envSet m name v s) fun r g' => Sound I r.2 [] outer g' := by
  have hget : envGet name s.frames = lookup name s.env := by
    rw [Interp.frames, h.parents, envGet]
    cases lookup name s.env <;> rfl
  unfold envSet
  rw [hget]
  split
  case h_1 old hold =>
      refine owning_settle rfl trivial fun hands => ?_
      rcases h.take (hands.of_iff ⟨fun _ => trivial, fun _ => rfl⟩) with ⟨hyielded, haccounts⟩
      rw [List.map_singleton, List.sum_singleton] at haccounts
      refine guards_bind (owning_valueFree hm (haccounts.assign h.parents hold)) fun t g' ht => ?_
      -- there is one environment, the one in which the variable is
      have hframes : assignFrames name v t.frames = [assign name v s.env] := by
        rw [ht.same, Interp.frames]
        dsimp only
        rw [assignFrames, hold, h.parents]
      rw [hframes]
      refine guards_pure (sound_of_accounts rfl (ht.yielded.trans hyielded) ?_)
      rw [ht.same]
      exact ht.accounts
  case h_2 =>
      refine owning_settle rfl trivial fun hands => guards_pure (h.drop ?_)
      exact hands.of_iff ⟨nofun, False.elim⟩

theorem owning_intArith {op : IntOp} {a b : Int64} (h : Sound I s ys outer g) :
    Owning g ((intArith op a b : Run σ Int64) >>= fun i => pure (Value.int i, s)) fun r g' =>
      Sound I r.2 ys outer g' := by
  refine guards_bind (M := fun _ g' => g' = g) ?_ ?_
  · refine guards_emit (fun _ => trivial) fun _ => ?_
    exact guards_ite (fun _ => guards_stop nofun) fun _ => guards_pure rfl
  · rintro i g' rfl
    exact guards_pure h

/-- An operator that frees its operands was given strings that it owns. -/
theorem owning_binaryOp (hm : Lawful m I) {op : List Char} {left right : Value}
    {ltype rtype : ASTNodeType} (h : Sound I s [⟨rtype, right⟩, ⟨ltype, left⟩] outer g)
    (hands : g.Hands (binaryFrees op left right)) :
    Owning g.settle (binaryOp m op left right s) fun r g' => Sound I r.2 [] outer g' := by
  unfold binaryOp
  have hdrop : ¬binaryFrees op left right → Sound I s [] outer g.settle := fun hno =>
    h.drop (hands.of_iff ⟨fun hf => hno hf, False.elim⟩)
  split
  case h_1 harith =>
      have hs := hdrop fun hf => nomatch harith.symm.trans hf.1
      exact owning_intArith hs
  case h_2 harith =>
      exact guards_pure (hdrop fun hf => nomatch harith.symm.trans hf.1)
  case h_3 harith =>
      have hs := hdrop fun hf => nomatch harith.symm.trans hf.1
      exact guards_pure ((hs.fail _).null hm)
  case h_4 harith =>
      split
      case h_1 hcmp =>
          have hs := hdrop fun hf => nomatch hcmp.symm.trans hf.2
          exact guards_pure (hs.null hm)
      case h_2 hcmp =>
          rcases h.take (hands.of_iff ⟨fun _ => trivial, fun _ => ⟨harith, hcmp⟩⟩) with
            ⟨hyielded, haccounts⟩
          -- both operands are freed, so that both came from literals
          have hboth : Accounts I (left.strings + (right.strings + s.strings)) s.mem g.settle := by
            refine haccounts.of_eq ?_
            simp only [List.map_cons, List.map_nil, List.sum_cons, List.sum_nil, add_zero]
            abel
          refine guards_bind (owning_valueFree hm hboth) fun t g₁ ht => ?_
          refine guards_bind (owning_valueFree hm ht.accounts) fun u g₂ hu => ?_
          have hs : Sound I u [] outer g₂ := (ht.trans hu).sound h.parents hyielded
          exact guards_pure (hs.null hm)

theorem owning_unaryOp (hm : Lawful m I) {op : List Char} {operand : Value} {type : ASTNodeType}
    (h : Sound I s [⟨type, operand⟩] outer g) (hands : g.Hands (op.headD nul ≠ '!')) :
    Owning g.settle (unaryOp m op operand s) fun r g' => Sound I r.2 [] outer g' := by
  unfold unaryOp
  split
  case h_1 hop hint =>
      exact owning_intArith (h.pass (stringless_singleton rfl))
  case h_2 => exact guards_pure (h.pass (stringless_singleton rfl))
  case h_3 hop =>
      have hs := h.drop (hands.of_iff ⟨fun hne => hne hop, False.elim⟩)
      exact guards_pure (hs.null hm)
  case h_4 hop _ _ =>
      rcases h.take (hands.of_iff ⟨fun _ => trivial, fun _ hnot => hop hnot⟩) with
        ⟨hyielded, haccounts⟩
      rw [List.map_singleton, List.sum_singleton] at haccounts
      refine guards_bind (owning_valueFree hm haccounts) fun t g' ht => ?_
      have hs := ht.sound h.parents hyielded
      exact guards_pure (hs.null hm)

end PolandOS.PolskiScript
