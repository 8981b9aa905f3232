import Mathlib.Data.List.Forall2
import PolandOS.Lib.Logged

/-! # Two computations side by side

Rules for two logged computations that take the same steps, on related data. Of the first
one the events are known to satisfy `P`; then the logs are related event by event, and both
computations end in the same way. Where the second one computes with images of the data of the
first, its events may instead satisfy a condition of their own exactly when those of the first do.
-/

namespace Logging.Logged

variable {ε ε' κ α α' β β' : Type}

/-- Both stop for the same reason, or both return, and what they return is related. -/
inductive SameEnd (M : α → α' → Prop) : Except κ α → Except κ α' → Prop
  | stopped (k : κ) : SameEnd M (.error k) (.error k)
  | returned {a : α} {a' : α'} : M a a' → SameEnd M (.ok a) (.ok a')

/-- The computations take related steps and end in the same way. -/
def Paired (P : ε → Prop) (E : ε → ε' → Prop) (x : Logged ε κ α) (x' : Logged ε' κ α')
    (M : α → α' → Prop) : Prop :=
  x.All P → List.Forall₂ E x.log x'.log ∧ SameEnd M x.result x'.result

variable {P : ε → Prop} {E : ε → ε' → Prop} {M M' : α → α' → Prop} {post : β → β' → Prop}
  {x : Logged ε κ α} {x' : Logged ε' κ α'} {f : α → Logged ε κ β} {f' : α' → Logged ε' κ β'}

theorem SameEnd.mono {r : Except κ α} {r' : Except κ α'} (h : SameEnd M r r')
    (himp : ∀ a a', M a a' → M' a a') : SameEnd M' r r' := by
  cases h with
  | stopped k => exact .stopped k
  | returned ha => exact .returned (himp _ _ ha)

theorem paired_pure {a : α} {a' : α'} (h : M a a') :
    Paired P E (pure a : Logged ε κ α) (pure a' : Logged ε' κ α') M :=
  fun _ => ⟨.nil, .returned h⟩

theorem paired_stop (k : κ) : Paired P E (stop k : Logged ε κ α) (stop k : Logged ε' κ α') M :=
  fun _ => ⟨.nil, .stopped k⟩

theorem paired_bind (hx : Paired P E x x' M) (hf : ∀ a a', M a a' → Paired P E (f a) (f' a') post) :
    Paired P E (x >>= f) (x' >>= f') post := by
  intro hP
  have hends : ∀ r r', SameEnd M r r' → x.result = r → x'.result = r' →
      List.Forall₂ E x.log x'.log →
      List.Forall₂ E (x >>= f).log (x' >>= f').log ∧
        SameEnd post (x >>= f).result (x' >>= f').result := by
    rintro _ _ (k | ha) hr hr' hlog
    · rw [bind_of_error hr, bind_of_error hr']
      exact ⟨hlog, .stopped k⟩
    · rw [bind_of_ok hr, bind_of_ok hr']
      have hrest := hf _ _ ha ((all_bind_of_ok hr).mp hP).2
      exact ⟨List.rel_append hlog hrest.1, hrest.2⟩
  have hfirst : x.All P := by
    intro e he
    exact hP e (mem_log_bind.mpr (.inl he))
  exact hends _ _ (hx hfirst).2 rfl rfl (hx hfirst).1

/-- Two events that are related. -/
theorem paired_emit {e : ε} {e' : ε'} {f : Unit → Logged ε κ β} {f' : Unit → Logged ε' κ β'}
    (he : P e → E e e') (hf : P e → Paired P E (f ()) (f' ()) post) :
    Paired P E (emit e >>= f) (emit e' >>= f') post := by
  intro hP
  have hall := (all_bind_of_ok (a := ()) rfl).mp hP
  have hPe : P e := hall.1 e (List.mem_singleton_self e)
  have hrest := hf hPe hall.2
  exact ⟨.cons (he hPe) hrest.1, hrest.2⟩

theorem paired_ofOption {k : κ} {o : Option α} {o' : Option α'} (h : Option.Rel M o o') :
    Paired P E (ofOption k o : Logged ε κ α) (ofOption k o' : Logged ε' κ α') M := by
  cases h with
  | none => exact paired_stop k
  | some ha => exact paired_pure ha

theorem paired_ite {c c' : Prop} [Decidable c] [Decidable c'] {x y : Logged ε κ α}
    {x' y' : Logged ε' κ α'} (hc : c ↔ c') (hx : c → Paired P E x x' M)
    (hy : ¬c → Paired P E y y' M) :
    Paired P E (if c then x else y) (if c' then x' else y') M := by
  by_cases h : c
  · rw [if_pos h, if_pos (hc.mp h)]
    exact hx h
  · rw [if_neg h, if_neg (mt hc.mpr h)]
    exact hy h

theorem Paired.mono (h : Paired P E x x' M) (himp : ∀ a a', M a a' → M' a a') :
    Paired P E x x' M' := by
  intro hP
  rcases h hP with ⟨hlog, hend⟩
  exact ⟨hlog, hend.mono himp⟩

/-- One computation, with its events read in two ways. -/
theorem paired_mapLog {δ : Type} {g : δ → ε} {g' : δ → ε'} (hg : ∀ d, E (g d) (g' d))
    (y : Logged δ κ α) : Paired P E (y.mapLog g) (y.mapLog g') Eq := by
  intro _
  refine ⟨?_, ?_⟩
  · change List.Forall₂ E (y.log.map g) (y.log.map g')
    rw [List.forall₂_map_left_iff, List.forall₂_map_right_iff]
    exact List.forall₂_same.mpr fun d _ => hg d
  · change SameEnd Eq y.result y.result
    cases y.result with
    | error k => exact .stopped k
    | ok a => exact .returned rfl

/-! ## A computation and its image -/

/-- The events of the one all satisfy `P` exactly if those of the other all satisfy `P'`; and
then the other ends as the one does, with the image of what that returns. -/
def Mirrored (P : ε → Prop) (P' : ε' → Prop) (g : α → α') (x : Logged ε κ α)
    (x' : Logged ε' κ α') : Prop :=
  (x.All P ↔ x'.All P') ∧ (x.All P → x'.result = x.result.map g)

section Mirrored

variable {P' : ε' → Prop} {g : α → α'} {h : β → β'}

theorem mirrored_pure {a : α} {a' : α'} (ha : g a = a') :
    Mirrored P P' g (pure a : Logged ε κ α) (pure a' : Logged ε' κ α') := by
  refine ⟨iff_of_true (all_pure a) (all_pure a'), fun _ => ?_⟩
  rw [← ha]
  rfl

theorem mirrored_stop (k : κ) :
    Mirrored P P' g (stop k : Logged ε κ α) (stop k : Logged ε' κ α') :=
  ⟨iff_of_true (all_stop k) (all_stop k), fun _ => rfl⟩

/-- The second parts are compared on what the first one returns and on its image. -/
theorem mirrored_bind (hx : Mirrored P P' g x x') (hf : ∀ a, Mirrored P P' h (f a) (f' (g a))) :
    Mirrored P P' h (x >>= f) (x' >>= f') := by
  rcases hx with ⟨hall, hresult⟩
  by_cases hP : x.All P
  · cases hr : x.result with
    | error k =>
        have hr' : x'.result = .error k := by
          rw [hresult hP, hr]
          rfl
        rw [bind_of_error hr, bind_of_error hr']
        exact ⟨hall, fun _ => rfl⟩
    | ok a =>
        have hr' : x'.result = .ok (g a) := by
          rw [hresult hP, hr]
          rfl
        refine ⟨?_, fun hbind => ?_⟩
        · rw [all_bind_of_ok hr, all_bind_of_ok hr', hall, (hf a).1]
        · rw [result_bind_of_ok hr, result_bind_of_ok hr']
          exact (hf a).2 ((all_bind_of_ok hr).mp hbind).2
  · refine ⟨iff_of_false (fun hbind => hP (all_bind.mp hbind).1) fun hbind => ?_,
      fun hbind => absurd (all_bind.mp hbind).1 hP⟩
    exact hP (hall.mpr (all_bind.mp hbind).1)

/-- An event that the image has not. -/
theorem mirrored_silent {e : ε} {f : Unit → Logged ε κ β} {y : Logged ε' κ β'} (he : P e)
    (hf : Mirrored P P' h (f ()) y) : Mirrored P P' h (emit e >>= f) y := by
  have hiff : (emit e >>= f).All P ↔ (f ()).All P :=
    (all_bind_of_ok (a := ()) rfl).trans (and_iff_right (all_emit.mpr he))
  refine ⟨hiff.trans hf.1, fun hP => ?_⟩
  rw [result_bind_of_ok (a := ()) rfl]
  exact hf.2 (hiff.mp hP)

/-- The same, behind the last step. -/
theorem mirrored_silent_end {e : α → ε} (he : ∀ a, P (e a)) (hx : Mirrored P P' g x x') :
    Mirrored P P' g (x >>= fun a => emit (e a) >>= fun _ => pure a) x' := by
  cases hr : x.result with
  | error k =>
      rw [bind_of_error hr]
      refine ⟨hx.1, fun hP => ?_⟩
      rw [hx.2 hP, hr, Except.map]
  | ok a =>
      have hlast : (emit (e a) >>= fun _ => pure a : Logged ε κ α).All P :=
        (all_bind_of_ok (a := ()) rfl).mpr ⟨all_emit.mpr (he a), all_pure a⟩
      refine ⟨(all_bind_of_ok hr).trans ((and_iff_left hlast).trans hx.1), fun hP => ?_⟩
      rw [hx.2 ((all_bind_of_ok hr).mp hP).1, hr, result_bind_of_ok hr]
      rfl

/-- Two events of which the one satisfies `P` exactly if the other satisfies `P'`. -/
theorem mirrored_emit {e : ε} {e' : ε'} {f : Unit → Logged ε κ β} {f' : Unit → Logged ε' κ β'}
    (he : P e ↔ P' e') (hf : P e → Mirrored P P' h (f ()) (f' ())) :
    Mirrored P P' h (emit e >>= f) (emit e' >>= f') := by
  have hleft : (emit e >>= f).All P ↔ P e ∧ (f ()).All P :=
    (all_bind_of_ok (a := ()) rfl).trans (and_congr_left' all_emit)
  have hright : (emit e' >>= f').All P' ↔ P' e' ∧ (f' ()).All P' :=
    (all_bind_of_ok (a := ()) rfl).trans (and_congr_left' all_emit)
  refine ⟨?_, fun hP => ?_⟩
  · rw [hleft, hright, ← he]
    exact and_congr_right fun hPe => (hf hPe).1
  · rw [result_bind_of_ok (a := ()) rfl, result_bind_of_ok (a := ()) rfl]
    exact (hf (hleft.mp hP).1).2 (hleft.mp hP).2

theorem mirrored_ofOption {k : κ} {o : Option α} {o' : Option α'} (ho : o' = o.map g) :
    Mirrored P P' g (ofOption k o : Logged ε κ α) (ofOption k o' : Logged ε' κ α') := by
  subst ho
  cases o with
  | none => exact mirrored_stop k
  | some a => exact mirrored_pure rfl

theorem mirrored_ite {c c' : Prop} [Decidable c] [Decidable c'] {x y : Logged ε κ α}
    {x' y' : Logged ε' κ α'} (hc : c ↔ c') (hx : c → Mirrored P P' g x x')
    (hy : ¬c → Mirrored P P' g y y') :
    Mirrored P P' g (if c then x else y) (if c' then x' else y') := by
  by_cases hcond : c
  · rw [if_pos hcond, if_pos (hc.mp hcond)]
    exact hx hcond
  · rw [if_neg hcond, if_neg (mt hc.mpr hcond)]
    exact hy hcond

end Mirrored

end Logging.Logged
