import Mathlib.Tactic.Common

/-! # Computations that log what they do

`Logged ε κ α` is a computation that may stop for a reason in `κ` and otherwise
returns an `α`; on the way it logs events in `ε`. The log is a history variable:
it lets a statement speak about every step of a run, also of a run that stops.
-/

namespace Logging

/-- A computation with its log. -/
structure Logged (ε κ α : Type*) where
  log : List ε
  result : Except κ α

variable {ε κ α β : Type}

namespace Logged

protected def pure (a : α) : Logged ε κ α := ⟨[], .ok a⟩

protected def bind (x : Logged ε κ α) (f : α → Logged ε κ β) : Logged ε κ β :=
  match x.result with
  | .error e => ⟨x.log, .error e⟩
  | .ok a => ⟨x.log ++ (f a).log, (f a).result⟩

instance : Monad (Logged ε κ) where
  pure := Logged.pure
  bind := Logged.bind

/-- Log one event. -/
def emit (e : ε) : Logged ε κ Unit := ⟨[e], .ok ()⟩

/-- Stop. -/
def stop (k : κ) : Logged ε κ α := ⟨[], .error k⟩

/-- A step that logs nothing. -/
def ofOption (k : κ) : Option α → Logged ε κ α
  | none => stop k
  | some a => ⟨[], .ok a⟩

/-- The same computation, with its events read as other events. -/
def mapLog {ε' : Type} (g : ε → ε') (x : Logged ε κ α) : Logged ε' κ α := ⟨x.log.map g, x.result⟩

variable {x : Logged ε κ α} {f : α → Logged ε κ β}

@[simp] theorem result_mapLog {ε' : Type} (g : ε → ε') : (x.mapLog g).result = x.result := rfl

@[simp] theorem result_pure (a : α) : (pure a : Logged ε κ α).result = .ok a := rfl

@[simp] theorem log_pure (a : α) : (pure a : Logged ε κ α).log = [] := rfl

@[simp] theorem result_emit (e : ε) : (emit e : Logged ε κ Unit).result = .ok () := rfl

@[simp] theorem log_emit (e : ε) : (emit e : Logged ε κ Unit).log = [e] := rfl

@[simp] theorem result_stop (k : κ) : (stop k : Logged ε κ α).result = .error k := rfl

@[simp] theorem log_stop (k : κ) : (stop k : Logged ε κ α).log = [] := rfl

theorem bind_of_ok {a : α} (h : x.result = .ok a) :
    x >>= f = ⟨x.log ++ (f a).log, (f a).result⟩ := by
  change Logged.bind x f = _
  rw [Logged.bind, h]

theorem bind_of_error {k : κ} (h : x.result = .error k) : x >>= f = ⟨x.log, .error k⟩ := by
  change Logged.bind x f = _
  rw [Logged.bind, h]

theorem result_bind_of_ok {a : α} (h : x.result = .ok a) :
    (x >>= f).result = (f a).result := by rw [bind_of_ok h]

/-- The result alone is a computation that may stop. -/
theorem result_bind_eq : (x >>= f).result = x.result.bind fun a => (f a).result := by
  cases h : x.result with
  | error k => rw [bind_of_error h, Except.bind]
  | ok a => rw [bind_of_ok h, Except.bind]

/-- What is known of the first part of what is returned. -/
theorem exists_of_toOption {x : Logged ε κ (α × β)} {a : α}
    (h : x.result.toOption.map Prod.fst = some a) : ∃ b, x.result = .ok (a, b) := by
  cases hres : x.result with
  | error k =>
      rw [hres] at h
      cases h
  | ok r =>
      rw [hres] at h
      cases h
      exact ⟨r.2, rfl⟩

theorem log_bind_ne_nil (hx : x.log ≠ []) : (x >>= f).log ≠ [] := by
  cases h : x.result with
  | error k => rwa [bind_of_error h]
  | ok a =>
      rw [bind_of_ok h]
      exact List.append_ne_nil_of_left_ne_nil hx _

@[simp] theorem pure_bind (a : α) (f : α → Logged ε κ β) : pure a >>= f = f a := rfl

/-- The steps of a computation that returns. -/
theorem result_bind {b : β} :
    (x >>= f).result = .ok b ↔ ∃ a, x.result = .ok a ∧ (f a).result = .ok b := by
  cases h : x.result with
  | error k => simp [bind_of_error h]
  | ok a => simp [bind_of_ok h]

/-- An event of a computation is an event of one of its steps. -/
theorem mem_log_bind {e : ε} :
    e ∈ (x >>= f).log ↔ e ∈ x.log ∨ ∃ a, x.result = .ok a ∧ e ∈ (f a).log := by
  cases h : x.result with
  | error k => simp [bind_of_error h]
  | ok a => simp [bind_of_ok h]

@[simp] theorem result_ofOption {k : κ} {o : Option α} {a : α} :
    (ofOption k o : Logged ε κ α).result = .ok a ↔ o = some a := by
  cases o <;> simp [ofOption, stop]

@[simp] theorem log_ofOption {k : κ} {o : Option α} : (ofOption k o : Logged ε κ α).log = [] := by
  cases o <;> rfl

/-- Every event of the computation satisfies `P`. -/
def All (P : ε → Prop) (x : Logged ε κ α) : Prop := ∀ e ∈ x.log, P e

variable {P : ε → Prop}

theorem all_bind : All P (x >>= f) ↔ All P x ∧ ∀ a, x.result = .ok a → All P (f a) := by
  simp only [All, mem_log_bind]
  constructor
  · intro h
    exact ⟨fun e he => h e (.inl he), fun a ha e he => h e (.inr ⟨a, ha, he⟩)⟩
  · rintro ⟨hx, hf⟩ e (he | ⟨a, ha, he⟩)
    · exact hx e he
    · exact hf a ha e he

theorem all_bind_of_ok {a : α} (h : x.result = .ok a) :
    All P (x >>= f) ↔ All P x ∧ All P (f a) := by
  rw [all_bind]
  constructor
  · rintro ⟨hx, hf⟩
    exact ⟨hx, hf a h⟩
  · rintro ⟨hx, hf⟩
    refine ⟨hx, fun b hb => ?_⟩
    rw [h] at hb
    cases hb
    exact hf

@[simp] theorem all_pure (a : α) : All P (pure a : Logged ε κ α) := by simp [All]

@[simp] theorem all_emit {e : ε} : All P (emit e : Logged ε κ Unit) ↔ P e := by simp [All]

@[simp] theorem all_stop (k : κ) : All P (stop k : Logged ε κ α) := by simp [All]

@[simp] theorem all_ofOption (k : κ) (o : Option α) : All P (ofOption k o : Logged ε κ α) := by
  simp [All]

theorem all_mapLog {ε' : Type} {g : ε → ε'} {P' : ε' → Prop} :
    (x.mapLog g).All P' ↔ x.All fun e => P' (g e) := by
  simp [All, mapLog]

/-! ## Values that tell about the log

A returned value can show whether every event so far satisfied `P`. `Tracks` says
so of a computation, given what is known before it; it composes along `>>=`. -/

/-- What `x` returns satisfies `Q`, and `G` exactly when `pre` held before
and every event of `x` satisfies `P`. -/
def Tracks (P : ε → Prop) (pre : Prop) (x : Logged ε κ α) (Q G : α → Prop) : Prop :=
  ∀ a, x.result = .ok a → Q a ∧ (G a ↔ pre ∧ x.All P)

variable {pre pre' : Prop} {Q G : α → Prop} {Q' G' : β → Prop}

theorem tracks_pure {a : α} (hQ : Q a) (hgood : G a ↔ pre) :
    Tracks P pre (pure a : Logged ε κ α) Q G := by
  intro b hb
  cases hb
  exact ⟨hQ, by simp [hgood]⟩

theorem tracks_stop (k : κ) : Tracks P pre (stop k : Logged ε κ α) Q G := by
  intro b hb
  cases hb

theorem tracks_bind (hx : Tracks P pre x Q G)
    (hf : ∀ a, Q a → Tracks P (G a) (f a) Q' G') : Tracks P pre (x >>= f) Q' G' := by
  intro b hb
  rcases result_bind.mp hb with ⟨a, ha, hfa⟩
  rcases hx a ha with ⟨hQ, hgood⟩
  rcases hf a hQ b hfa with ⟨hQ', hgood'⟩
  refine ⟨hQ', ?_⟩
  rw [hgood', hgood, all_bind_of_ok ha, and_assoc]

/-- A step whose events all satisfy `P` changes nothing. -/
theorem tracks_silent (hx : x.All P) (hf : ∀ a, Tracks P pre (f a) Q' G') :
    Tracks P pre (x >>= f) Q' G' := by
  refine tracks_bind (Q := fun _ => True) (G := fun _ => pre) ?_ fun a _ => hf a
  intro a _
  exact ⟨trivial, by simp [hx]⟩

/-- A step that is followed on its own, with `pre` put aside. -/
theorem tracks_frame (hx : Tracks P True x Q G)
    (hf : ∀ a, Q a → Tracks P (pre ∧ G a) (f a) Q' G') :
    Tracks P pre (x >>= f) Q' G' := by
  refine tracks_bind (Q := Q) (G := fun a => pre ∧ G a) ?_ hf
  intro a ha
  rcases hx a ha with ⟨hQ, hgood⟩
  refine ⟨hQ, ?_⟩
  change pre ∧ G a ↔ pre ∧ All P x
  rw [hgood, true_and]

theorem tracks_ite {c : Prop} [Decidable c] {x y : Logged ε κ α}
    (hx : c → Tracks P pre x Q G) (hy : ¬c → Tracks P pre y Q G) :
    Tracks P pre (if c then x else y) Q G := by
  split
  · exact hx ‹_›
  · exact hy ‹_›

theorem Tracks.congr (h : Tracks P pre x Q G) (hpre : pre ↔ pre') :
    Tracks P pre' x Q G := by
  rw [← propext hpre]
  exact h

/-! ## Total correctness under assumptions on the log -/

/-- If every event of `x` satisfies `P`, then `x` returns something with `post`,
and every event satisfies `R`. -/
def Total (P R : ε → Prop) (x : Logged ε κ α) (post : α → Prop) : Prop :=
  x.All P → ∃ a, x.result = .ok a ∧ post a ∧ x.All R

section Total

variable {R : ε → Prop} {M post' : α → Prop} {post : β → Prop}

theorem total_pure {a : α} (h : M a) : Total P R (pure a : Logged ε κ α) M :=
  fun _ => ⟨a, rfl, h, all_pure a⟩

theorem total_bind (hx : Total P R x M) (hf : ∀ a, M a → Total P R (f a) post) :
    Total P R (x >>= f) post := by
  intro h
  rcases hx (all_bind.mp h).1 with ⟨a, ha, hmid, hxR⟩
  rcases hf a hmid ((all_bind_of_ok ha).mp h).2 with ⟨b, hb, hpost, hfR⟩
  exact ⟨b, (result_bind_of_ok ha).trans hb, hpost, (all_bind_of_ok ha).mpr ⟨hxR, hfR⟩⟩

/-- The event's assumption is known from here on. -/
theorem total_emit {e : ε} {f : Unit → Logged ε κ β} (hR : R e)
    (hf : P e → Total P R (f ()) post) : Total P R (emit e >>= f) post := by
  refine total_bind (M := fun _ => P e) ?_ fun _ => hf
  intro h
  exact ⟨(), rfl, all_emit.mp h, all_emit.mpr hR⟩

theorem Total.mono (h : Total P R x M) (hpost : ∀ a, M a → post' a) :
    Total P R x post' := by
  intro hx
  rcases h hx with ⟨a, ha, hmid, hR⟩
  exact ⟨a, ha, hpost a hmid, hR⟩

theorem total_ite {c : Prop} [Decidable c] {x y : Logged ε κ α} (hx : c → Total P R x M)
    (hy : ¬c → Total P R y M) : Total P R (if c then x else y) M := by
  split
  · exact hx ‹_›
  · exact hy ‹_›

end Total

/-! ## What a return says about the log -/

/-- A computation that returns has only events with `P`. -/
def Sure (P : ε → Prop) (x : Logged ε κ α) : Prop := ∀ a, x.result = .ok a → x.All P

theorem Sure.of_all (h : x.All P) : Sure P x := fun _ _ => h

theorem sure_bind (hx : Sure P x) (hf : ∀ a, x.result = .ok a → Sure P (f a)) :
    Sure P (x >>= f) := by
  intro b hb
  rcases result_bind.mp hb with ⟨a, ha, hfa⟩
  exact (all_bind_of_ok ha).mpr ⟨hx a ha, hf a ha b hfa⟩

theorem sure_ite {c : Prop} [Decidable c] {x y : Logged ε κ α} (hx : c → Sure P x)
    (hy : ¬c → Sure P y) : Sure P (if c then x else y) := by
  split
  · exact hx ‹_›
  · exact hy ‹_›

/-! ## Reasons to stop that do not occur -/

/-- The computation does not stop for the reason `k`. -/
def Avoids (k : κ) (x : Logged ε κ α) : Prop := x.result ≠ .error k

section Avoids

variable {k : κ}

theorem avoids_pure (a : α) : Avoids k (pure a : Logged ε κ α) := fun h => nomatch h

theorem avoids_emit (e : ε) : Avoids k (emit e : Logged ε κ Unit) := fun h => nomatch h

theorem avoids_bind (hx : Avoids k x) (hf : ∀ a, x.result = .ok a → Avoids k (f a)) :
    Avoids k (x >>= f) := by
  cases h : x.result with
  | error j =>
      rw [Avoids, bind_of_error h]
      intro hk
      cases hk
      exact hx h
  | ok a =>
      rw [Avoids, bind_of_ok h]
      exact hf a h

theorem avoids_ite {c : Prop} [Decidable c] {x y : Logged ε κ α} (hx : c → Avoids k x)
    (hy : ¬c → Avoids k y) : Avoids k (if c then x else y) := by
  split
  · exact hx ‹_›
  · exact hy ‹_›

theorem avoids_ofOption {j : κ} {o : Option α} (h : j = k → o.isSome) :
    Avoids k (ofOption j o : Logged ε κ α) := by
  cases o with
  | some a => exact fun h => nomatch h
  | none =>
      intro hj
      cases hj
      exact absurd (h rfl) (by simp)

end Avoids

/-! ## Two readings of a log -/

/-- The events of `x` all satisfy `P` exactly when they all satisfy `P'`; and what
`x` returns satisfies `post`. -/
def Agree (P P' : ε → Prop) (x : Logged ε κ α) (post : α → Prop) : Prop :=
  (x.All P ↔ x.All P') ∧ ∀ a, x.result = .ok a → post a

section Agree

variable {P P' : ε → Prop} {M : α → Prop} {post : β → Prop}

theorem agree_pure {a : α} (h : M a) : Agree P P' (pure a : Logged ε κ α) M := by
  refine ⟨by simp, fun b hb => ?_⟩
  cases hb
  exact h

theorem agree_stop (k : κ) : Agree P P' (stop k : Logged ε κ α) M :=
  ⟨by simp, fun _ h => nomatch h⟩

theorem agree_bind (hx : Agree P P' x M) (hf : ∀ a, M a → Agree P P' (f a) post) :
    Agree P P' (x >>= f) post := by
  constructor
  · rw [all_bind, all_bind, hx.1]
    refine and_congr_right fun _ => forall_congr' fun a => ?_
    exact forall_congr' fun ha => (hf a (hx.2 a ha)).1
  · intro b hb
    rcases result_bind.mp hb with ⟨a, ha, hfa⟩
    exact (hf a (hx.2 a ha)).2 b hfa

/-- An event that only `P'` speaks about, before the computation in which `P`
says the same. -/
theorem agree_emit_bind {e : ε} {y : Unit → Logged ε κ β} (hP : P e)
    (hy : (y ()).All P ↔ P' e ∧ (y ()).All P') (hpost : ∀ b, (y ()).result = .ok b → post b) :
    Agree P P' (emit e >>= y) post := by
  constructor
  · rw [all_bind_of_ok (a := ()) rfl, all_bind_of_ok (a := ()) rfl, all_emit, all_emit]
    simp [hP, hy]
  · intro b hb
    rw [result_bind_of_ok (a := ()) rfl] at hb
    exact hpost b hb

theorem agree_emit {e : ε} (he : P e ↔ P' e) :
    Agree P P' (emit e : Logged ε κ Unit) fun _ => True :=
  ⟨by simp [he], fun _ _ => trivial⟩

theorem agree_ite {c : Prop} [Decidable c] {x y : Logged ε κ α} (hx : c → Agree P P' x M)
    (hy : ¬c → Agree P P' y M) : Agree P P' (if c then x else y) M := by
  split
  · exact hx ‹_›
  · exact hy ‹_›

theorem Agree.mono {M' : α → Prop} (h : Agree P P' x M) (hpost : ∀ a, M a → M' a) :
    Agree P P' x M' := ⟨h.1, fun a ha => hpost a (h.2 a ha)⟩

end Agree

/-! ## What a return ensures -/

/-- What `x` returns satisfies `post`. -/
def Ensures (x : Logged ε κ α) (post : α → Prop) : Prop := ∀ a, x.result = .ok a → post a

section Ensures

variable {M : α → Prop} {post : β → Prop}

theorem ensures_pure {a : α} (h : M a) : Ensures (pure a : Logged ε κ α) M := by
  intro b hb
  cases hb
  exact h

theorem ensures_stop (k : κ) : Ensures (stop k : Logged ε κ α) M := fun _ h => nomatch h

theorem ensures_bind (hx : Ensures x M) (hf : ∀ a, M a → Ensures (f a) post) :
    Ensures (x >>= f) post := by
  intro b hb
  rcases result_bind.mp hb with ⟨a, ha, hfa⟩
  exact hf a (hx a ha) b hfa

/-- A step of which only the effect on what follows matters. -/
theorem ensures_skip (hf : ∀ a, Ensures (f a) post) : Ensures (x >>= f) post :=
  ensures_bind (M := fun _ => True) (fun _ _ => trivial) fun a _ => hf a

theorem ensures_ite {c : Prop} [Decidable c] {x y : Logged ε κ α} (hx : c → Ensures x M)
    (hy : ¬c → Ensures y M) : Ensures (if c then x else y) M := by
  split
  · exact hx ‹_›
  · exact hy ‹_›

end Ensures

/-! ## Computations that return more often -/

/-- What `x` returns, `y` returns. -/
def Extends (x y : Logged ε κ α) : Prop := ∀ a, x.result = .ok a → y.result = .ok a

section Extends

theorem extends_refl (x : Logged ε κ α) : Extends x x := fun _ h => h

theorem extends_stop {k : κ} {y : Logged ε κ α} : Extends (stop k) y := fun _ h => nomatch h

theorem extends_bind {y : Logged ε κ α} {g : α → Logged ε κ β} (hx : Extends x y)
    (hf : ∀ a, Extends (f a) (g a)) : Extends (x >>= f) (y >>= g) := by
  intro b hb
  rcases result_bind.mp hb with ⟨a, ha, hfa⟩
  exact result_bind.mpr ⟨a, hx a ha, hf a b hfa⟩

theorem extends_ite {c : Prop} [Decidable c] {x x' y y' : Logged ε κ α} (hx : Extends x x')
    (hy : Extends y y') : Extends (if c then x else y) (if c then x' else y') := by
  split
  · exact hx
  · exact hy

end Extends

/-! ## Runs that return -/

/-- `x` returns `a`, and every event on the way satisfies `P`. -/
def Yields (P : ε → Prop) (x : Logged ε κ α) (a : α) : Prop := x.result = .ok a ∧ x.All P

theorem yields_bind {b : β} :
    Yields P (x >>= f) b ↔ ∃ a, Yields P x a ∧ Yields P (f a) b := by
  constructor
  · rintro ⟨h, hall⟩
    rcases result_bind.mp h with ⟨a, ha, hfa⟩
    rcases (all_bind_of_ok ha).mp hall with ⟨hx, hf⟩
    exact ⟨a, ⟨ha, hx⟩, hfa, hf⟩
  · rintro ⟨a, ⟨ha, hx⟩, hfa, hf⟩
    exact ⟨(result_bind_of_ok ha).trans hfa, (all_bind_of_ok ha).mpr ⟨hx, hf⟩⟩

@[simp] theorem yields_pure {a b : α} : Yields P (pure a : Logged ε κ α) b ↔ b = a := by
  constructor
  · rintro ⟨h, -⟩
    cases h
    rfl
  · rintro rfl
    exact ⟨rfl, all_pure b⟩

@[simp] theorem yields_emit {e : ε} {u : Unit} :
    Yields P (emit e : Logged ε κ Unit) u ↔ P e := by
  simp [Yields]

@[simp] theorem yields_ofOption {k : κ} {o : Option α} {a : α} :
    Yields P (ofOption k o : Logged ε κ α) a ↔ o = some a := by
  simp [Yields]

end Logged

end Logging
