import PolandOS.Lib.Logged

/-! # Logged computations as runs of small steps

A step relation `σ → List ε → σ → Prop` says what may happen to a state at once, and
what is logged then. `Traces` says that a logged computation is a run of such steps,
whether it returns or stops; one rule for each construct proves it. What a run
preserves is then a matter of single steps: `Star.invariant` for states, and
`Star.history` for states together with a history that the log unfolds. `Follows` is
the rule for a history alone, and `Guards` for one that also keeps a computation from
stopping.
-/

namespace Logging

variable {σ ε κ α β γ : Type}

/-- Steps in a row, and their log. -/
inductive Star (step : σ → List ε → σ → Prop) (s : σ) : List ε → σ → Prop
  | refl : Star step s [] s
  | tail {es es' : List ε} {t u : σ} : Star step s es t → step t es' u → Star step s (es ++ es') u

variable {step step' : σ → List ε → σ → Prop} {s t u : σ} {es es' : List ε}

theorem Star.single (h : step s es t) : Star step s es t := .tail .refl h

theorem Star.trans (h : Star step s es t) (h' : Star step t es' u) : Star step s (es ++ es') u := by
  induction h' with
  | refl => rwa [List.append_nil]
  | tail _ hstep ih =>
      rw [← List.append_assoc]
      exact .tail ih hstep

theorem Star.mono (himp : ∀ s es t, step s es t → step' s es t) (h : Star step s es t) :
    Star step' s es t := by
  induction h with
  | refl => exact .refl
  | tail _ hstep ih => exact .tail ih (himp _ _ _ hstep)

/-- The invariant rule. -/
theorem Star.invariant {I : σ → Prop} (hstep : ∀ s es t, I s → step s es t → I t)
    (h : Star step s es t) (hs : I s) : I t := by
  induction h with
  | refl => exact hs
  | tail _ h ih => exact hstep _ _ _ ih h

/-! ## Histories -/

/-- Every event of a log satisfies `P`, given the history before it. -/
def Along (upd : γ → ε → γ) (P : γ → ε → Prop) : γ → List ε → Prop
  | _, [] => True
  | g, e :: es => P g e ∧ Along upd P (upd g e) es

variable {upd : γ → ε → γ} {P Q : γ → ε → Prop} {g : γ}

@[simp] theorem along_nil : Along upd P g [] := trivial

@[simp] theorem along_cons {e : ε} :
    Along upd P g (e :: es) ↔ P g e ∧ Along upd P (upd g e) es := Iff.rfl

theorem along_append :
    Along upd P g (es ++ es') ↔ Along upd P g es ∧ Along upd P (es.foldl upd g) es' := by
  induction es generalizing g with
  | nil => simp
  | cons e es ih => simp [ih, and_assoc]

instance Along.decidable [∀ g e, Decidable (P g e)] :
    ∀ (g : γ) (es : List ε), Decidable (Along upd P g es)
  | _, [] => .isTrue trivial
  | g, e :: es =>
    have : Decidable (Along upd P (upd g e) es) := Along.decidable (upd g e) es
    inferInstanceAs (Decidable (P g e ∧ Along upd P (upd g e) es))

theorem Along.mono (himp : ∀ g e, P g e → Q g e) (h : Along upd P g es) : Along upd Q g es := by
  induction es generalizing g with
  | nil => trivial
  | cons e es ih => exact ⟨himp _ _ h.1, ih h.2⟩

theorem along_and :
    Along upd (fun g e => P g e ∧ Q g e) g es ↔ Along upd P g es ∧ Along upd Q g es := by
  induction es generalizing g with
  | nil => simp
  | cons e es ih =>
      rw [along_cons, along_cons, along_cons, ih]
      tauto

/-- What holds of every event does not depend on the history. -/
theorem along_of_forall {R : ε → Prop} (h : ∀ e ∈ es, R e) :
    Along upd (fun _ => R) g es := by
  induction es generalizing g with
  | nil => trivial
  | cons e es ih =>
      rw [List.forall_mem_cons] at h
      exact ⟨h.1, ih h.2⟩

/-- Two statements about the events that agree in the states that are reached. -/
theorem along_congr {I : γ → Prop} (hI : ∀ g e, I g → I (upd g e))
    (h : ∀ g e, I g → (P g e ↔ Q g e)) (hg : I g) : Along upd P g es ↔ Along upd Q g es := by
  induction es generalizing g with
  | nil => exact Iff.rfl
  | cons e es ih => rw [along_cons, along_cons, h g e hg, ih (hI g e hg)]

/-- The same, event by event. -/
theorem along_iff :
    Along upd P g es ↔ ∀ pre e, pre ++ [e] <+: es → P (pre.foldl upd g) e := by
  induction es generalizing g with
  | nil => simp
  | cons e es ih =>
      rw [along_cons, ih]
      constructor
      · rintro ⟨he, hes⟩ pre e' hpre
        cases pre with
        | nil =>
            cases (List.cons_prefix_cons.mp hpre).1
            exact he
        | cons c pre =>
            rcases List.cons_prefix_cons.mp hpre with ⟨rfl, hrest⟩
            exact hes pre e' hrest
      · intro h
        refine ⟨h [] e ⟨es, rfl⟩, ?_⟩
        intro pre e' hpre
        exact h (e :: pre) e' (List.cons_prefix_cons.mpr ⟨rfl, hpre⟩)

/-- A statement about the beginnings of a list. -/
theorem forall_prefix_cons {P : List ε → Prop} {e : ε} :
    (∀ p, p <+: e :: es → P p) ↔ P [] ∧ ∀ p, p <+: es → P (e :: p) := by
  constructor
  · intro h
    exact ⟨h [] List.nil_prefix, fun p hp => h (e :: p) (List.cons_prefix_cons.mpr ⟨rfl, hp⟩)⟩
  · rintro ⟨hnil, hcons⟩ p hp
    rcases List.prefix_cons_iff.mp hp with rfl | ⟨t, rfl, ht⟩
    · exact hnil
    · exact hcons t ht

/-- Where an event keeps `A` exactly if it satisfies `P`, all states that are reached satisfy
`A` exactly if all events satisfy `P`. -/
theorem forall_prefix_iff_along {I A : γ → Prop} (hI : ∀ g e, I g → I (upd g e))
    (hA : ∀ g e, I g → A g → (A (upd g e) ↔ P g e)) (hg : I g) (h : A g) :
    (∀ p, p <+: es → A (p.foldl upd g)) ↔ Along upd P g es := by
  induction es generalizing g with
  | nil =>
      refine ⟨fun _ => trivial, fun _ p hp => ?_⟩
      rwa [List.prefix_nil.mp hp]
  | cons e es ih =>
      rw [forall_prefix_cons, along_cons, ← hA g e hg h]
      constructor
      · rintro ⟨-, hall⟩
        have hnext : A (upd g e) := hall [] List.nil_prefix
        exact ⟨hnext, (ih (hI g e hg) hnext).mp hall⟩
      · rintro ⟨hnext, halong⟩
        exact ⟨h, (ih (hI g e hg) hnext).mpr halong⟩

/-- The rule for a state and a history: where the events of a run satisfy `P`, they
satisfy `Q`, and the invariant holds at the end. -/
theorem Star.history {I : σ → γ → Prop}
    (hstep : ∀ s g es t, I s g → step s es t → Along upd P g es →
      Along upd Q g es ∧ I t (es.foldl upd g))
    (h : Star step s es t) (hs : I s g) (hP : Along upd P g es) :
    Along upd Q g es ∧ I t (es.foldl upd g) := by
  induction h with
  | refl => exact ⟨trivial, hs⟩
  | tail _ h ih =>
      rw [along_append] at hP ⊢
      rcases ih hP.1 with ⟨hQ, hI⟩
      rcases hstep _ _ _ _ hI h hP.2 with ⟨hQ', hI'⟩
      rw [List.foldl_append]
      exact ⟨⟨hQ, hQ'⟩, hI'⟩

/-! ## Computations with a history -/

/-- Where the events of the computation satisfy `P` along the history, they satisfy `Q`;
and what it returns satisfies `post`, with the history at its end. -/
def Follows (upd : γ → ε → γ) (P Q : γ → ε → Prop) (g : γ) (x : Logged ε κ α)
    (post : α → γ → Prop) : Prop :=
  Along upd P g x.log → Along upd Q g x.log ∧ ∀ a, x.result = .ok a → post a (x.log.foldl upd g)

section Follows

variable {x : Logged ε κ α} {f : α → Logged ε κ β} {M post' : α → γ → Prop} {post : β → γ → Prop}

theorem follows_pure {a : α} (h : M a g) : Follows upd P Q g (pure a : Logged ε κ α) M := by
  intro _
  refine ⟨trivial, fun b hb => ?_⟩
  cases hb
  exact h

theorem follows_stop (k : κ) : Follows upd P Q g (Logged.stop k : Logged ε κ α) M :=
  fun _ => ⟨trivial, fun _ h => nomatch h⟩

theorem follows_bind (hx : Follows upd P Q g x M)
    (hf : ∀ a g', M a g' → Follows upd P Q g' (f a) post) :
    Follows upd P Q g (x >>= f) post := by
  intro hP
  cases hres : x.result with
  | error k =>
      rw [Logged.bind_of_error hres] at hP ⊢
      exact ⟨(hx hP).1, fun _ h => nomatch h⟩
  | ok a =>
      rw [Logged.bind_of_ok hres] at hP ⊢
      rcases along_append.mp hP with ⟨hPx, hPf⟩
      rcases hx hPx with ⟨hQx, hM⟩
      rcases hf a _ (hM a hres) hPf with ⟨hQf, hpost⟩
      refine ⟨along_append.mpr ⟨hQx, hQf⟩, fun b hb => ?_⟩
      rw [List.foldl_append]
      exact hpost b hb

/-- What holds of the event before what follows it. -/
theorem follows_emit {e : ε} {f : Unit → Logged ε κ β} (hQ : P g e → Q g e)
    (hf : P g e → Follows upd P Q (upd g e) (f ()) post) :
    Follows upd P Q g (Logged.emit e >>= f) post := by
  rintro ⟨he, hrest⟩
  rcases hf he hrest with ⟨hQf, hpost⟩
  exact ⟨⟨hQ he, hQf⟩, hpost⟩

theorem follows_ofOption {k : κ} {o : Option α} (h : ∀ a, o = some a → M a g) :
    Follows upd P Q g (Logged.ofOption k o : Logged ε κ α) M := by
  cases o with
  | none => exact follows_stop k
  | some a => exact follows_pure (h a rfl)

theorem follows_ite {c : Prop} [Decidable c] {x y : Logged ε κ α}
    (hx : c → Follows upd P Q g x M) (hy : ¬c → Follows upd P Q g y M) :
    Follows upd P Q g (if c then x else y) M := by
  split
  case isTrue h => exact hx h
  case isFalse h => exact hy h

theorem Follows.mono (h : Follows upd P Q g x M) (himp : ∀ a g', M a g' → post' a g') :
    Follows upd P Q g x post' :=
  fun hP => ⟨(h hP).1, fun a ha => himp a _ ((h hP).2 a ha)⟩

/-- The events of another computation, which are not part of the history. -/
theorem follows_mapLog {δ : Type} {read : δ → ε} {x : Logged δ κ α} (hupd : ∀ d, upd g (read d) = g)
    (hQ : ∀ d, Q g (read d)) :
    Follows upd P Q g (x.mapLog read) fun a g' => x.result = .ok a ∧ g' = g := by
  have hlog : ∀ ds : List δ, Along upd Q g (ds.map read) ∧ (ds.map read).foldl upd g = g := by
    intro ds
    induction ds with
    | nil => exact ⟨trivial, rfl⟩
    | cons d ds ih =>
        rw [List.map_cons, along_cons, List.foldl_cons, hupd]
        exact ⟨⟨hQ d, ih.1⟩, ih.2⟩
  exact fun _ => ⟨(hlog x.log).1, fun a ha => ⟨ha, (hlog x.log).2⟩⟩

end Follows

/-! ### Computations that do not stop for a reason -/

/-- As `Follows`; and where the events satisfy `P`, the computation does not stop for the
reason `k`. -/
structure Guards (k : κ) (upd : γ → ε → γ) (P Q : γ → ε → Prop) (g : γ) (x : Logged ε κ α)
    (post : α → γ → Prop) : Prop where
  follows : Follows upd P Q g x post
  avoids : Along upd P g x.log → x.result ≠ .error k

section Guards

variable {k k' : κ} {x : Logged ε κ α} {f : α → Logged ε κ β} {M post' : α → γ → Prop}
  {post : β → γ → Prop}

theorem guards_pure {a : α} (h : M a g) : Guards k upd P Q g (pure a : Logged ε κ α) M :=
  ⟨follows_pure h, fun _ => nofun⟩

theorem guards_stop (hk : k' ≠ k) : Guards k upd P Q g (Logged.stop k' : Logged ε κ α) M :=
  ⟨follows_stop k', fun _ h => hk (Except.error.inj h)⟩

theorem guards_bind (hx : Guards k upd P Q g x M)
    (hf : ∀ a g', M a g' → Guards k upd P Q g' (f a) post) :
    Guards k upd P Q g (x >>= f) post := by
  refine ⟨follows_bind hx.follows fun a g' h => (hf a g' h).follows, fun hP => ?_⟩
  cases hres : x.result with
  | error k' =>
      rw [Logged.bind_of_error hres] at hP ⊢
      intro h
      rw [Except.error.inj h] at hres
      exact hx.avoids hP hres
  | ok a =>
      rw [Logged.bind_of_ok hres] at hP ⊢
      rcases along_append.mp hP with ⟨hPx, hPf⟩
      exact (hf a _ ((hx.follows hPx).2 a hres)).avoids hPf

theorem guards_emit {e : ε} {f : Unit → Logged ε κ β} (hQ : P g e → Q g e)
    (hf : P g e → Guards k upd P Q (upd g e) (f ()) post) :
    Guards k upd P Q g (Logged.emit e >>= f) post :=
  ⟨follows_emit hQ fun he => (hf he).follows, fun hP => (hf hP.1).avoids hP.2⟩

/-- What may be missing is there, or it is missed for another reason. -/
theorem guards_ofOption {o : Option α} (hk : k' ≠ k ∨ o.isSome) (h : ∀ a, o = some a → M a g) :
    Guards k upd P Q g (Logged.ofOption k' o : Logged ε κ α) M := by
  cases o with
  | none => exact guards_stop (hk.resolve_right nofun)
  | some a => exact guards_pure (h a rfl)

theorem guards_ite {c : Prop} [Decidable c] {x y : Logged ε κ α}
    (hx : c → Guards k upd P Q g x M) (hy : ¬c → Guards k upd P Q g y M) :
    Guards k upd P Q g (if c then x else y) M := by
  split
  case isTrue h => exact hx h
  case isFalse h => exact hy h

theorem Guards.mono (h : Guards k upd P Q g x M) (himp : ∀ a g', M a g' → post' a g') :
    Guards k upd P Q g x post' :=
  ⟨h.follows.mono himp, h.avoids⟩

/-- What is returned is known besides. -/
theorem guards_result (h : Guards k upd P Q g x M) :
    Guards k upd P Q g x fun a g' => M a g' ∧ x.result = .ok a :=
  ⟨fun hP => ⟨(h.follows hP).1, fun a ha => ⟨(h.follows hP).2 a ha, ha⟩⟩, h.avoids⟩

end Guards

/-! ### Where nothing is assumed of the log -/

theorem along_true : Along upd (fun _ _ => True) g es := along_iff.mpr fun _ _ _ => trivial

/-- What the computation returns satisfies `post`, with the history at its end. -/
abbrev Leaves (upd : γ → ε → γ) (g : γ) (x : Logged ε κ α) (post : α → γ → Prop) : Prop :=
  Follows upd (fun _ _ => True) (fun _ _ => True) g x post

theorem Follows.returned {x : Logged ε κ α} {post : α → γ → Prop} (h : Leaves upd g x post) {a : α}
    (ha : x.result = .ok a) : post a (x.log.foldl upd g) := (h along_true).2 a ha

/-- The last value that the events of a log show. -/
def latest (f : ε → Option α) (es : List ε) : Option α := (es.filterMap f).getLast?

/-- The history that keeps it. -/
def keepLatest (f : ε → Option α) (g : Option α) (e : ε) : Option α := (f e).or g

theorem latest_cons (f : ε → Option α) (e : ε) : latest f (e :: es) = (latest f es).or (f e) := by
  unfold latest
  cases he : f e with
  | none => rw [List.filterMap_cons_none he, Option.or_none]
  | some a =>
      rw [List.filterMap_cons_some he, List.getLast?_cons]
      cases (es.filterMap f).getLast? <;> rfl

theorem foldl_keepLatest (f : ε → Option α) (g : Option α) :
    es.foldl (keepLatest f) g = (latest f es).or g := by
  induction es generalizing g with
  | nil => rfl
  | cons e es ih => rw [List.foldl_cons, ih, latest_cons, keepLatest, Option.or_assoc]

/-- What a history shows, where every event shows it anew or leaves it as it was. -/
theorem foldl_latest {v : γ → α} {f : ε → Option α}
    (h : ∀ g e, v (upd g e) = (f e).getD (v g)) (g : γ) (es : List ε) :
    v (es.foldl upd g) = (latest f es).getD (v g) := by
  induction es generalizing g with
  | nil => rfl
  | cons e es ih =>
      rw [List.foldl_cons, ih, latest_cons, h]
      cases latest f es <;> rfl

/-- It is shown by an event of the log. -/
theorem mem_of_latest {f : ε → Option α} {a : α} (h : latest f es = some a) :
    ∃ e ∈ es, f e = some a := List.mem_filterMap.mp (List.mem_of_getLast? h)

/-! ### Without a history -/

/-- Where the events of the computation satisfy `P`, they satisfy `Q`; and what it
returns satisfies `post`. -/
abbrev Under (P Q : ε → Prop) (x : Logged ε κ α) (post : α → Prop) : Prop :=
  Follows (fun (_ : Unit) _ => ()) (fun _ => P) (fun _ => Q) () x fun a _ => post a

theorem along_unit {P : ε → Prop} {u : Unit} :
    Along (fun (_ : Unit) _ => ()) (fun _ => P) u es ↔ ∀ e ∈ es, P e := by
  induction es with
  | nil => simp
  | cons e es ih => rw [along_cons, List.forall_mem_cons, ih]

theorem under_iff {P Q : ε → Prop} {x : Logged ε κ α} {post : α → Prop} :
    Under P Q x post ↔ (x.All P → x.All Q ∧ ∀ a, x.result = .ok a → post a) := by
  unfold Under Follows
  rw [along_unit, along_unit]
  rfl

/-! ## Computations -/

/-- The computation is a run from `s`; where it returns, `v` reads its last state off
what it returns. -/
def Traces (step : σ → List ε → σ → Prop) (v : α → σ) (x : Logged ε κ α) (s : σ) : Prop :=
  ∃ t, Star step s x.log t ∧ ∀ a, x.result = .ok a → v a = t

variable {x : Logged ε κ α} {f : α → Logged ε κ β} {v : α → σ} {v' : β → σ}

theorem Traces.star (h : Traces step v x s) {a : α} (ha : x.result = .ok a) :
    Star step s x.log (v a) := by
  rcases h with ⟨t, ht, hv⟩
  rwa [hv a ha]

theorem traces_pure {a : α} (h : v a = s) : Traces step v (pure a : Logged ε κ α) s := by
  refine ⟨s, .refl, ?_⟩
  intro b hb
  cases hb
  exact h

theorem traces_stop (k : κ) : Traces step v (Logged.stop k : Logged ε κ α) s :=
  ⟨s, .refl, fun _ h => nomatch h⟩

/-- A computation that is one step. -/
theorem traces_step {a : α} (h : step s es (v a)) (hx : x = ⟨es, .ok a⟩) :
    Traces step v x s := by
  subst hx
  refine ⟨v a, .single h, ?_⟩
  intro b hb
  cases hb
  rfl

theorem traces_bind (hx : Traces step v x s)
    (hf : ∀ a, x.result = .ok a → Traces step v' (f a) (v a)) :
    Traces step v' (x >>= f) s := by
  cases hres : x.result with
  | error k =>
      rcases hx with ⟨t, ht, -⟩
      rw [Logged.bind_of_error hres]
      exact ⟨t, ht, fun _ h => nomatch h⟩
  | ok a =>
      have hstar := hx.star hres
      rcases hf a hres with ⟨u, hu, hv⟩
      rw [Logged.bind_of_ok hres]
      exact ⟨u, hstar.trans hu, hv⟩

/-- A first computation that is one step. -/
theorem traces_step_bind {a : α} (h : step s es t) (hx : x = ⟨es, .ok a⟩)
    (hf : Traces step v' (f a) t) : Traces step v' (x >>= f) s := by
  rcases hf with ⟨u, hu, hv⟩
  rw [Logged.bind_of_ok (a := a) (congrArg _ hx), hx]
  exact ⟨u, (Star.single h).trans hu, hv⟩

/-- Two events that are one step. -/
theorem traces_emit_pair {e e' : ε} {f : Unit → Unit → Logged ε κ β} (h : step s [e, e'] t)
    (hf : Traces step v' (f () ()) t) :
    Traces step v' (Logged.emit e >>= fun u => Logged.emit e' >>= f u) s := by
  rcases hf with ⟨u, hu, hv⟩
  exact ⟨u, (Star.single h).trans hu, hv⟩

/-- A step that logs nothing before the computation. -/
theorem traces_after (h : step s [] t) (hx : Traces step v x t) : Traces step v x s := by
  rcases hx with ⟨u, hu, hv⟩
  exact ⟨u, (Star.single h).trans hu, hv⟩

/-- A step that logs nothing behind the computation. -/
theorem Traces.after {v' : α → σ} (h : Traces step v x s) (hstep : ∀ a, step (v a) [] (v' a)) :
    Traces step v' x s := by
  cases hres : x.result with
  | error k =>
      rcases h with ⟨t, ht, -⟩
      exact ⟨t, ht, fun a ha => by cases hres.symm.trans ha⟩
  | ok a =>
      refine ⟨v' a, ?_, fun b hb => by cases hres.symm.trans hb; rfl⟩
      have hstar := (h.star hres).tail (hstep a)
      rwa [List.append_nil] at hstar

theorem traces_ite {c : Prop} [Decidable c] {x y : Logged ε κ α} (hx : c → Traces step v x s)
    (hy : ¬c → Traces step v y s) : Traces step v (if c then x else y) s := by
  split
  case isTrue h => exact hx h
  case isFalse h => exact hy h

/-- What a computation returns, with a history that the steps keep true. -/
theorem Traces.leaves {I : σ → γ → Prop} (h : Traces step v x s)
    (hstep : ∀ s g es t, I s g → step s es t → I t (es.foldl upd g)) (hs : I s g) :
    Leaves upd g x fun a g' => I (v a) g' := by
  rcases h with ⟨t, hstar, hv⟩
  have hlast : I t (x.log.foldl upd g) := by
    refine (hstar.history (P := fun _ _ => True) (Q := fun _ _ => True) ?_ hs along_true).2
    intro s g es t hI h _
    exact ⟨along_true, hstep s g es t hI h⟩
  intro _
  refine ⟨along_true, fun a ha => ?_⟩
  rwa [← hv a ha] at hlast

theorem Traces.mono (himp : ∀ s es t, step s es t → step' s es t) (h : Traces step v x s) :
    Traces step' v x s := by
  rcases h with ⟨t, ht, hv⟩
  exact ⟨t, ht.mono himp, hv⟩

end Logging
