import PolandOS.Lang.Structured
import PolandOS.Lang.Scoping

/-! # Environments as finite maps

A scope is a table that is searched from its beginning. `env_define` looks at the room that
is left before it looks for the name.

* `Reached.scopes`: no name occurs twice in a scope, and no scope has more than 256 variables
* `define_takes_effect_iff`: a definition takes effect, but in a full scope that has the name
-/

namespace PolandOS.PolskiScript

open Logging

variable {σ : Type} {m : Memory σ} {name : List Char} {v : Value} {s s' : Interp σ}
  {frame : Frame} {frames : List Frame}

/-! ## The table -/

theorem lookup_eq_none_iff : lookup name frame = none ↔ name ∉ frame.map Prod.fst := by
  induction frame with
  | nil => simp [lookup]
  | cons e frame ih =>
      rcases e with ⟨n, old⟩
      rw [lookup_cons, List.map_cons, List.mem_cons]
      by_cases hn : n = name
      · simp [hn]
      · simp [hn, Ne.symm hn, ih]

/-- An assignment changes no name. -/
theorem map_fst_assign : (assign name v frame).map Prod.fst = frame.map Prod.fst := by
  induction frame with
  | nil => rfl
  | cons e frame ih =>
      rcases e with ⟨n, old⟩
      rw [assign]
      split
      · rfl
      · rw [List.map_cons, ih, List.map_cons]

theorem length_assign : (assign name v frame).length = frame.length := by
  have hnames : (assign name v frame).map Prod.fst = frame.map Prod.fst := map_fst_assign
  simpa only [List.length_map] using congrArg List.length hnames

/-! ## The operations -/

theorem frames_valueFree (v : Value) (s : Interp σ) :
    Logged.Ensures (valueFree m v s) fun t => t.env = s.env ∧ t.parents = s.parents :=
  fun _ ht => ((follows_valueFree s.view v s).returned ht).2

/-- What `env_define` can do to the scope. -/
theorem envDefine_cases (h : (envDefine m name v s).result = .ok s') :
    s'.parents = s.parents ∧
      (s.env.length ≥ envMaxVars ∧ s'.env = s.env ∨
        s.env.length < envMaxVars ∧ (lookup name s.env).isSome ∧ s'.env = assign name v s.env ∨
        s.env.length < envMaxVars ∧ lookup name s.env = none ∧ s'.env = s.env ++ [(name, v)]) := by
  unfold envDefine at h
  split at h
  case isTrue hfull =>
    cases h
    exact ⟨rfl, .inl ⟨hfull, rfl⟩⟩
  case isFalse hroom =>
    have hlt := Nat.lt_of_not_le hroom
    rcases Logged.result_bind.mp h with ⟨-, -, h⟩
    cases hlook : lookup name s.env with
    | none =>
        rw [hlook] at h
        cases h
        exact ⟨rfl, .inr (.inr ⟨hlt, rfl, rfl⟩)⟩
    | some old =>
        rw [hlook] at h
        rcases Logged.result_bind.mp h with ⟨t, ht, h⟩
        rcases frames_valueFree old s t ht with ⟨henv, hparents⟩
        cases h
        refine ⟨hparents, .inr (.inl ⟨hlt, rfl, ?_⟩)⟩
        rw [← henv]

/-- What `env_set` can do to the scopes. -/
theorem envSet_cases {found : Bool} (h : (envSet m name v s).result = .ok (found, s')) :
    s'.frames = s.frames ∨ s'.frames = assignFrames name v s.frames := by
  unfold envSet at h
  cases hget : envGet name s.frames with
  | none =>
      rw [hget] at h
      cases h
      exact .inl rfl
  | some old =>
      rw [hget] at h
      rcases Logged.result_bind.mp h with ⟨-, -, h⟩
      rcases Logged.result_bind.mp h with ⟨t, ht, h⟩
      rcases frames_valueFree old s t ht with ⟨henv, hparents⟩
      have hframes : t.frames = s.frames := by rw [Interp.frames, Interp.frames, henv, hparents]
      have hne : assignFrames name v s.frames ≠ [] := by
        unfold Interp.frames assignFrames
        split <;> simp
      cases h
      right
      rw [← hframes] at hne ⊢
      exact frames_withFrames hne t

/-- The replaced value is freed without `kpanic`. -/
def Frees (m : Memory σ) (s : Interp σ) (old : Value) : Prop :=
  ∃ t, (valueFree m old s).result = .ok t

/-- `env_define` returns, unless the memory does not take the replaced value back. -/
theorem envDefine_returns (hfree : ∀ old, lookup name s.env = some old → Frees m s old) :
    ∃ s', (envDefine m name v s).result = .ok s' := by
  unfold envDefine
  split
  · exact ⟨_, rfl⟩
  cases hlook : lookup name s.env with
  | none => exact ⟨_, rfl⟩
  | some old =>
      rcases hfree old hlook with ⟨t, ht⟩
      have hbind : ∀ f : Interp σ → Run σ (Interp σ),
          (valueFree m old s >>= f).result = (f t).result := fun f => Logged.result_bind_of_ok ht
      exact ⟨_, (Logged.result_bind_of_ok rfl).trans (hbind _)⟩

/-! ## Scopes -/

/-- A scope of the environments that occur. -/
structure Scope (frame : Frame) : Prop where
  nodup : (frame.map Prod.fst).Nodup
  size : frame.length ≤ envMaxVars

/-- The environments that `env_create`, `env_define` and `env_set` make, with their parents. -/
inductive Reached (m : Memory σ) : List Frame → Prop
  | create : Reached m [[]]
  | nest {frames : List Frame} : Reached m frames → Reached m ([] :: frames)
  | define {s s' : Interp σ} {name : List Char} {v : Value} : Reached m s.frames →
      (envDefine m name v s).result = .ok s' → Reached m s'.frames
  | set {s s' : Interp σ} {name : List Char} {v : Value} {found : Bool} : Reached m s.frames →
      (envSet m name v s).result = .ok (found, s') → Reached m s'.frames

theorem Scope.assign (h : Scope frame) (name : List Char) (v : Value) :
    Scope (assign name v frame) := by
  refine ⟨?_, ?_⟩
  · rw [map_fst_assign]
    exact h.nodup
  · rw [length_assign]
    exact h.size

theorem Scope.append (h : Scope frame) (hlook : lookup name frame = none)
    (hroom : frame.length < envMaxVars) (v : Value) : Scope (frame ++ [(name, v)]) := by
  refine ⟨?_, ?_⟩
  · rw [List.map_append, List.map_singleton]
    refine List.nodup_append.mpr ⟨h.nodup, by simp, fun x hx y hy => ?_⟩
    rintro rfl
    rw [List.mem_singleton.mp hy] at hx
    exact lookup_eq_none_iff.mp hlook hx
  · rw [List.length_append]
    exact hroom

/-- A definition keeps its scope. -/
theorem Scope.define (h : Scope s.env) (hdef : (envDefine m name v s).result = .ok s') :
    Scope s'.env := by
  rcases (envDefine_cases hdef).2 with ⟨-, henv⟩ | ⟨-, -, henv⟩ | ⟨hroom, hlook, henv⟩
  · rw [henv]
    exact h
  · rw [henv]
    exact h.assign name v
  · rw [henv]
    exact h.append hlook hroom v

/-- An assignment keeps all scopes. -/
theorem scopes_assignFrames (h : ∀ frame ∈ frames, Scope frame) :
    ∀ frame ∈ assignFrames name v frames, Scope frame := by
  induction frames with
  | nil => exact h
  | cons frame parents ih =>
      rcases List.forall_mem_cons.mp h with ⟨hframe, hparents⟩
      rw [assignFrames]
      split
      · exact List.forall_mem_cons.mpr ⟨hframe.assign name v, hparents⟩
      · exact List.forall_mem_cons.mpr ⟨hframe, ih hparents⟩

theorem Reached.scopes (h : Reached m frames) : ∀ frame ∈ frames, Scope frame := by
  have hempty : Scope [] := ⟨List.nodup_nil, Nat.zero_le _⟩
  induction h with
  | create => exact List.forall_mem_singleton.mpr hempty
  | nest _ ih => exact List.forall_mem_cons.mpr ⟨hempty, ih⟩
  | define _ hdef ih =>
      rcases List.forall_mem_cons.mp ih with ⟨henv, hparents⟩
      refine List.forall_mem_cons.mpr ⟨henv.define hdef, ?_⟩
      rw [(envDefine_cases hdef).1]
      exact hparents
  | set _ hset ih =>
      rcases envSet_cases hset with hframes | hframes
      · rw [hframes]
        exact ih
      · rw [hframes]
        exact scopes_assignFrames ih

/-! ## Definitions -/

/-- The effect of a definition. -/
structure Defined (name : List Char) (v : Value) (s s' : Interp σ) : Prop where
  own : envGet name s'.frames = some v
  others : ∀ x ≠ name, envGet x s'.frames = envGet x s.frames
  nodup : (s'.env.map Prod.fst).Nodup
  count : (lookup name s.env).isSome → s'.env.length ≤ s.env.length

/-- `env_define` returns if it can free what it replaces, and then it has taken effect. -/
structure TakesEffect (m : Memory σ) (name : List Char) (v : Value) (s : Interp σ) : Prop where
  returns : (∀ old, lookup name s.env = some old → Frees m s old) →
    ∃ s', (envDefine m name v s).result = .ok s'
  defined : ∀ s', (envDefine m name v s).result = .ok s' → Defined name v s s'

/-- The frames of which the first one is another. -/
theorem envGet_update (hparents : s'.parents = s.parents)
    (henv : ∀ x, lookup x s'.env = if x = name then some v else lookup x s.env) :
    envGet name s'.frames = some v ∧ ∀ x ≠ name, envGet x s'.frames = envGet x s.frames := by
  unfold Interp.frames
  refine ⟨?_, fun x hx => ?_⟩
  · rw [envGet_cons, henv, if_pos rfl, Option.some_or]
  · rw [envGet_cons, envGet_cons, henv, if_neg hx, hparents]

/-- Where there is room a definition takes effect. -/
theorem defined_of_room (hscope : Scope s.env) (hroom : s.env.length < envMaxVars)
    (hdef : (envDefine m name v s).result = .ok s') : Defined name v s s' := by
  rcases envDefine_cases hdef with ⟨hparents, ⟨hfull, -⟩ | ⟨-, hlook, henv⟩ | ⟨-, hlook, henv⟩⟩
  · exact absurd hroom (Nat.not_lt_of_le hfull)
  · have hget := envGet_update hparents fun x => by
      rw [henv, lookup_assign x v hlook]
    refine ⟨hget.1, hget.2, (hscope.define hdef).nodup, fun _ => ?_⟩
    rw [henv, length_assign]
  · have hget := envGet_update hparents fun x => by
      rw [henv, lookup_append x v hlook]
    refine ⟨hget.1, hget.2, (hscope.define hdef).nodup, fun hsome => ?_⟩
    rw [hlook] at hsome
    cases hsome

/-- A definition takes effect, in a scope that has the name or has room for it, exactly if the
scope is not full or the variable has the value already. -/
theorem define_takes_effect_iff (m : Memory σ) (s : Interp σ) (hreached : Reached m s.frames)
    (name : List Char) (v : Value) :
    ((lookup name s.env).isSome ∨ s.env.length < envMaxVars → TakesEffect m name v s) ↔
      (s.env.length < envMaxVars ∨ lookup name s.env = none ∨ lookup name s.env = some v) := by
  have hscope : Scope s.env := hreached.scopes s.env (List.mem_cons_self ..)
  by_cases hroom : s.env.length < envMaxVars
  · refine iff_of_true (fun _ => ⟨envDefine_returns, fun s' => ?_⟩) (.inl hroom)
    exact defined_of_room hscope hroom
  -- a full scope is left as it is, also where it has the name
  have hsame : (envDefine m name v s).result = .ok s := by
    rw [envDefine, if_pos (Nat.le_of_not_lt hroom)]
    rfl
  cases hlook : lookup name s.env with
  | none =>
      refine iff_of_true (fun h => absurd h ?_) (.inr (.inl rfl))
      rintro (h | h)
      · cases h
      · exact hroom h
  | some old =>
      have hget : envGet name s.frames = some old := by
        rw [Interp.frames, envGet_cons, hlook, Option.some_or]
      constructor
      · intro h
        have howns := ((h (.inl rfl)).defined s hsame).own
        rw [hget] at howns
        exact .inr (.inr howns)
      · rintro (h | h | h)
        · exact absurd h hroom
        · cases h
        · refine fun _ => ⟨envDefine_returns, fun s' hs' => ?_⟩
          cases hsame.symm.trans hs'
          exact ⟨hget.trans h, fun _ _ => rfl, hscope.nodup, fun _ => Nat.le_refl _⟩

/-- An interpreter with one scope. -/
def withScope (frame : Frame) : Interp Unit :=
  { interpreterInit plainMemory () with env := frame }

/-- So many variables, all of them zero. -/
def zeros (n : Nat) : Frame := (List.range n).map fun i => (List.replicate i 'a', .int 0)

theorem length_zeros (n : Nat) : (zeros n).length = n := by
  rw [zeros, List.length_map, List.length_range]

/-- A scope with so many variables is reached by definitions. -/
theorem reached_zeros {n : Nat} (hn : n ≤ envMaxVars) : Reached plainMemory [zeros n] := by
  induction n with
  | zero => exact .create
  | succ n ih =>
      have hfresh : lookup (List.replicate n 'a') (zeros n) = none := by
        refine lookup_eq_none_iff.mpr fun hmem => ?_
        rw [zeros, List.map_map] at hmem
        rcases List.mem_map.mp hmem with ⟨i, hi, heq⟩
        have hlen : i = n := by simpa using congrArg List.length heq
        exact absurd (List.mem_range.mp hi) (by omega)
      -- the names are of different lengths
      have hdef : (envDefine plainMemory (List.replicate n 'a') (.int 0)
          (withScope (zeros n))).result = .ok (withScope (zeros (n + 1))) := by
        have hroom : ¬(withScope (zeros n)).env.length ≥ envMaxVars := by
          change ¬(zeros n).length ≥ _
          rw [length_zeros]
          omega
        have hlook : lookup (List.replicate n 'a') (withScope (zeros n)).env = none := hfresh
        have hsucc : zeros (n + 1) = zeros n ++ [(List.replicate n 'a', .int 0)] := by
          rw [zeros, List.range_succ, List.map_append]
          rfl
        rw [envDefine, if_neg hroom, hlook, hsucc]
        rfl
      have hprev : Reached plainMemory (withScope (zeros n)).frames := ih (by omega)
      exact .define hprev hdef

/-- One of three variables is defined again. -/
theorem define_takes_effect_iff_again :
    TakesEffect plainMemory ['a'] (.int 1) (withScope (zeros 3)) :=
  (define_takes_effect_iff plainMemory (withScope (zeros 3)) (reached_zeros (by decide)) ['a']
    (.int 1)).mpr (.inl (by decide)) (.inl (by decide))

/-- In a full scope a variable keeps its value when it is defined again. -/
theorem full_scope_ignores_definition : Reached plainMemory (withScope (zeros 256)).frames ∧
    (lookup ['a'] (withScope (zeros 256)).env).isSome ∧
    ¬TakesEffect plainMemory ['a'] (.int 1) (withScope (zeros 256)) := by
  have hlook : lookup ['a'] (zeros 256) = some (.int 0) := rfl
  have hfull : (withScope (zeros 256)).env.length ≥ envMaxVars := (length_zeros 256).ge
  have hsame : (envDefine plainMemory ['a'] (.int 1) (withScope (zeros 256))).result =
      .ok (withScope (zeros 256)) := by
    rw [envDefine, if_pos hfull]
    rfl
  refine ⟨reached_zeros (Nat.le_refl _), ?_, fun h => ?_⟩
  · exact Option.isSome_of_mem hlook
  · have howns := (h.defined _ hsame).own
    rw [Interp.frames, envGet_cons] at howns
    change (lookup ['a'] (zeros 256)).or _ = _ at howns
    rw [hlook] at howns
    cases howns

end PolandOS.PolskiScript
