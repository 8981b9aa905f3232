import PolandOS.Lang.Environments

/-! # Assignment and lookup along the scopes

`env_get` as the pointer that it returns, and `env_set` with a search of its own.
`env_set_agrees`: `env_set` writes to the variable that `env_get` finds and to no other.
-/

namespace PolandOS.PolskiScript

open Logging

/-! ## The source -/

namespace Chain

variable {σ : Type}

/-- A `Value *`: how many environments up, and the index of the variable. -/
structure Binding where
  scope : Nat
  index : Nat

/-- The environment above. -/
def Binding.up (b : Binding) : Binding := { b with scope := b.scope + 1 }

/-- `env_get`, of environments of which each is the parent of the one before. -/
def envGet (name : List Char) : List Frame → Option Binding
  | [] => none
  | frame :: parents =>
    match frame.findIdx? (·.1 == name) with
    | some i => some ⟨0, i⟩
    | none => (envGet name parents).map .up

/-- The loop of `env_set`; `none` where no variable has the name. -/
def setIn (m : Memory σ) (name : List Char) (v : Value) :
    Frame → Interp σ → Run σ (Option Frame × Interp σ)
  | [], s => return (none, s)
  | (n, old) :: frame, s =>
    if n == name then do
      let s ← valueFree m old s
      return (some ((n, v) :: frame), s)
    else do
      let (frame', s) ← setIn m name v frame s
      return (frame'.map ((n, old) :: ·), s)

/-- `env_set`, with the environments that it leaves behind. -/
def envSet (m : Memory σ) (name : List Char) (v : Value) :
    List Frame → Interp σ → Run σ (Bool × List Frame × Interp σ)
  | [], s => return (false, [], s)
  | frame :: parents, s => do
    let (frame', s) ← setIn m name v frame s
    match frame' with
    | some frame' => return (true, frame' :: parents, s)
    | none => do
      let (found, parents', s) ← envSet m name v parents s
      return (found, frame :: parents', s)

/-- The name and the value of a variable. -/
def deref (frames : List Frame) (b : Binding) : Option (List Char × Value) :=
  frames[b.scope]?.bind (·[b.index]?)

/-- The environments with another value in a variable. -/
def write (frames : List Frame) (b : Binding) (e : List Char × Value) : List Frame :=
  frames.modify b.scope (·.set b.index e)

/-! ## The search -/

variable {m : Memory σ} {name x : List Char} {v old : Value} {s : Interp σ} {frame : Frame}
  {frames frames' : List Frame} {b b' : Binding} {i k : Nat} {e : List Char × Value}

/-- What is found in a scope. -/
theorem findIdx?_name (h : frame.findIdx? (·.1 == name) = some i) :
    ∃ old, frame[i]? = some (name, old) := by
  rcases List.findIdx?_eq_some_iff_getElem.mp h with ⟨hi, hname, -⟩
  refine ⟨frame[i].2, ?_⟩
  rw [List.getElem?_eq_getElem hi, ← beq_iff_eq.mp hname]

/-- What `env_get` finds has the name. -/
theorem deref_envGet (h : envGet name frames = some b) :
    ∃ old, deref frames b = some (name, old) := by
  induction frames generalizing b with
  | nil => cases h
  | cons frame parents ih =>
      rw [envGet] at h
      cases hfind : frame.findIdx? (·.1 == name) with
      | some i =>
          rw [hfind] at h
          cases h
          exact findIdx?_name hfind
      | none =>
          rw [hfind] at h
          rcases Option.map_eq_some_iff.mp h with ⟨b', hb', rfl⟩
          exact ih hb'

/-- `env_get` looks at the names only. -/
theorem envGet_congr (h : frames'.map (·.map Prod.fst) = frames.map (·.map Prod.fst)) :
    envGet x frames' = envGet x frames := by
  induction frames generalizing frames' with
  | nil => rw [List.map_eq_nil_iff.mp h]
  | cons frame parents ih =>
      cases frames' with
      | nil => cases h
      | cons frame' parents' =>
          rw [List.map_cons, List.map_cons, List.cons.injEq] at h
          have hfind : frame'.findIdx? (·.1 == x) = frame.findIdx? (·.1 == x) := by
            have hmap := congrArg (List.findIdx? (· == x)) h.1
            rwa [List.findIdx?_map, List.findIdx?_map] at hmap
          rw [envGet, envGet, hfind, ih h.2]

/-! ## One variable is written -/

theorem deref_write_self (h : deref frames b = some (x, old)) :
    deref (write frames b e) b = some e := by
  rcases Option.bind_eq_some_iff.mp h with ⟨frame, hframe, hentry⟩
  have hlt := (List.getElem?_eq_some_iff.mp hentry).1
  rw [deref, write, List.getElem?_modify_eq, hframe]
  exact List.getElem?_set_self hlt

theorem deref_write_ne (h : b' ≠ b) : deref (write frames b e) b' = deref frames b' := by
  rcases b with ⟨scope, index⟩
  rcases b' with ⟨scope', index'⟩
  rw [deref, write, deref]
  dsimp only
  by_cases hscope : scope = scope'
  · subst hscope
    have hindex : index ≠ index' := by
      rintro rfl
      exact h rfl
    rw [List.getElem?_modify_eq]
    cases frames[scope]? with
    | none => rfl
    | some frame => exact List.getElem?_set_ne hindex
  · rw [List.getElem?_modify_ne _ _ hscope]

/-- The name that is written is the one that is there. -/
theorem names_write (h : deref frames b = some (name, old)) :
    (write frames b (name, v)).map (·.map Prod.fst) = frames.map (·.map Prod.fst) := by
  rcases Option.bind_eq_some_iff.mp h with ⟨frame, hframe, hentry⟩
  have hsame : (frame.set b.index (name, v)).map Prod.fst = frame.map Prod.fst := by
    have hname : (frame.map Prod.fst)[b.index]? = some name := by
      rw [List.getElem?_map, hentry]
      rfl
    rcases List.getElem?_eq_some_iff.mp hname with ⟨hlt, hname⟩
    rw [List.map_set]
    subst hname
    exact List.set_getElem_self hlt
  -- only the scope that is written could have other names
  refine List.ext_getElem? fun i => ?_
  rw [List.getElem?_map, List.getElem?_map, write]
  by_cases hi : b.scope = i
  · subst hi
    rw [List.getElem?_modify_eq, hframe]
    exact congrArg some hsame
  · rw [List.getElem?_modify_ne _ _ hi]

theorem deref_drop (k : Nat) (b : Binding) :
    deref (frames.drop k) b = deref frames ⟨k + b.scope, b.index⟩ := by
  rw [deref, List.getElem?_drop, deref]

/-! ## The assignment -/

theorem setIn_none (h : frame.findIdx? (·.1 == name) = none) :
    (setIn m name v frame s).result = .ok (none, s) := by
  induction frame with
  | nil => rfl
  | cons entry frame ih =>
      rw [List.findIdx?_cons] at h
      split at h
      case isTrue => cases h
      case isFalse hname =>
        have hrest := ih (Option.map_eq_none_iff.mp h)
        rw [setIn, if_neg hname, Logged.result_bind_of_ok hrest]
        rfl

theorem setIn_some (h : frame.findIdx? (·.1 == name) = some i)
    (hentry : frame[i]? = some (name, old)) :
    (setIn m name v frame s).result =
      (valueFree m old s).result.map fun t => (some (frame.set i (name, v)), t) := by
  induction frame generalizing i with
  | nil => cases h
  | cons entry frame ih =>
      rw [List.findIdx?_cons] at h
      split at h
      case isTrue hname =>
        cases h
        cases hentry
        -- the loop frees and writes here, and does not go on
        rw [setIn, if_pos hname, Logged.result_bind_eq]
        rfl
      case isFalse hname =>
        rcases Option.map_eq_some_iff.mp h with ⟨j, hj, rfl⟩
        rw [setIn, if_neg hname, Logged.result_bind_eq, ih hj hentry]
        cases (valueFree m old s).result with
        | error => rfl
        | ok t => rfl

theorem envSet_none (h : envGet name frames = none) :
    (envSet m name v frames s).result = .ok (false, frames, s) := by
  induction frames with
  | nil => rfl
  | cons frame parents ih =>
      rw [envGet] at h
      cases hfind : frame.findIdx? (·.1 == name) with
      | some i =>
          rw [hfind] at h
          cases h
      | none =>
          rw [hfind] at h
          rw [envSet, Logged.result_bind_of_ok (setIn_none hfind)]
          exact Logged.result_bind_of_ok (ih (Option.map_eq_none_iff.mp h))

/-- Where the name is bound, the value in that binding is freed and overwritten, and nothing
else. -/
theorem envSet_some (h : envGet name frames = some b)
    (hentry : deref frames b = some (name, old)) :
    (envSet m name v frames s).result =
      (valueFree m old s).result.map fun t => (true, write frames b (name, v), t) := by
  induction frames generalizing b with
  | nil => cases h
  | cons frame parents ih =>
      rw [envGet] at h
      cases hfind : frame.findIdx? (·.1 == name) with
      | some i =>
          rw [hfind] at h
          cases h
          rw [envSet, Logged.result_bind_eq, setIn_some hfind hentry]
          cases (valueFree m old s).result with
          | error => rfl
          | ok t => rfl
      | none =>
          rw [hfind] at h
          rcases Option.map_eq_some_iff.mp h with ⟨b', hb', rfl⟩
          rw [envSet, Logged.result_bind_of_ok (setIn_none hfind)]
          dsimp only
          rw [Logged.result_bind_eq, ih hb' hentry]
          cases (valueFree m old s).result with
          | error => rfl
          | ok t => rfl

/-! ## The interpreter's environments -/

theorem lookup_eq : lookup name frame =
    (frame.findIdx? (·.1 == name)).bind fun i => frame[i]?.map Prod.snd := by
  induction frame with
  | nil => rfl
  | cons entry frame ih =>
      rcases entry with ⟨n, old⟩
      rw [lookup_cons, List.findIdx?_cons]
      by_cases hn : n = name
      · rw [if_pos hn, if_pos (beq_iff_eq.mpr hn)]
        rfl
      · rw [if_neg hn, if_neg (fun heq => hn (beq_iff_eq.mp heq)), ih, Option.bind_map]
        rfl

/-- `env_get` of the interpreter looks where the pointer points. -/
theorem envGet_eq : PolskiScript.envGet name frames =
    (envGet name frames).bind fun b => (deref frames b).map Prod.snd := by
  induction frames with
  | nil => rfl
  | cons frame parents ih =>
      rw [envGet_cons, envGet, lookup_eq, ih]
      cases hfind : frame.findIdx? (·.1 == name) with
      | none =>
          dsimp only
          rw [Option.bind_none, Option.none_or, Option.bind_map]
          rfl
      | some i =>
          rcases findIdx?_name hfind with ⟨old, hentry⟩
          rw [Option.bind_some, hentry]
          exact (congrArg (Option.map Prod.snd) hentry).symm

theorem assign_eq (h : frame.findIdx? (·.1 == name) = some i) :
    assign name v frame = frame.set i (name, v) := by
  induction frame generalizing i with
  | nil => cases h
  | cons entry frame ih =>
      rcases entry with ⟨n, old⟩
      rw [List.findIdx?_cons] at h
      rw [assign]
      split at h
      case isTrue hname =>
        cases h
        have hn : n = name := beq_iff_eq.mp hname
        rw [if_pos hname, hn]
        rfl
      case isFalse hname =>
        rcases Option.map_eq_some_iff.mp h with ⟨j, hj, rfl⟩
        rw [if_neg hname, ih hj]
        rfl

theorem assignFrames_eq (h : envGet name frames = some b) :
    assignFrames name v frames = write frames b (name, v) := by
  induction frames generalizing b with
  | nil => cases h
  | cons frame parents ih =>
      rw [envGet] at h
      rw [assignFrames, lookup_eq]
      cases hfind : frame.findIdx? (·.1 == name) with
      | some i =>
          rw [hfind] at h
          cases h
          rcases findIdx?_name hfind with ⟨old, hentry⟩
          rw [Option.bind_some, hentry]
          exact congrArg (· :: parents) (assign_eq hfind)
      | none =>
          rw [hfind] at h
          rcases Option.map_eq_some_iff.mp h with ⟨b', hb', rfl⟩
          exact congrArg (frame :: ·) (ih hb')

/-- `env_set` of the interpreter is this one. -/
theorem envSet_eq : (PolskiScript.envSet m name v s).result =
    (envSet m name v s.frames s).result.map fun r => (r.1, r.2.2.withFrames r.2.1) := by
  unfold PolskiScript.envSet
  cases hget : envGet name s.frames with
  | none =>
      rw [envGet_eq, hget, envSet_none hget]
      rfl
  | some b =>
      rcases deref_envGet hget with ⟨old, hentry⟩
      rw [envGet_eq, hget, envSet_some hget hentry, Option.bind_some, hentry]
      dsimp only [Option.map_some]
      rw [Logged.result_bind_of_ok (Logged.result_emit _), Logged.result_bind_eq]
      cases hfree : (valueFree m old s).result with
      | error => rfl
      | ok t =>
          rcases frames_valueFree old s t hfree with ⟨henv, hparents⟩
          have hframes : t.frames = s.frames := by rw [Interp.frames, Interp.frames, henv, hparents]
          change Except.ok (true, t.withFrames (assignFrames name v t.frames)) = _
          rw [hframes, assignFrames_eq hget]
          rfl

/-! ## Both agree -/

/-- What `env_set` leaves where `env_get` finds the variable `b`: its value is another, and all
that is looked up is the same, unless it is the name where `b` is seen. -/
structure Assigned (name : List Char) (v : Value) (frames frames' : List Frame) (b : Binding) :
    Prop where
  found : envGet name frames' = some b
  value : deref frames' b = some (name, v)
  others : ∀ b' ≠ b, deref frames' b' = deref frames b'
  lookups : ∀ k x, x ≠ name ∨ b.scope < k →
    envGet x (frames'.drop k) = envGet x (frames.drop k) ∧
      ∀ b', envGet x (frames.drop k) = some b' →
        deref (frames'.drop k) b' = deref (frames.drop k) b'

theorem assigned_write (h : envGet name frames = some b) :
    Assigned name v frames (write frames b (name, v)) b := by
  rcases deref_envGet h with ⟨old, hentry⟩
  have hnames := names_write (v := v) hentry
  refine ⟨(envGet_congr hnames).trans h, deref_write_self hentry, fun b' => deref_write_ne, ?_⟩
  intro k x hx
  have hdrop : ((write frames b (name, v)).drop k).map (·.map Prod.fst) =
      (frames.drop k).map (·.map Prod.fst) := by
    rw [List.map_drop, List.map_drop, hnames]
  refine ⟨envGet_congr hdrop, fun b' hb' => ?_⟩
  rw [deref_drop, deref_drop]
  refine deref_write_ne fun heq => ?_
  -- what is found has the name that is looked up
  rcases deref_envGet hb' with ⟨other, hother⟩
  rw [deref_drop, heq, hentry] at hother
  cases hother
  have hscope := congrArg Binding.scope heq
  rcases hx with hx | hx
  · exact hx rfl
  · dsimp only at hscope
    omega

/-- `env_set` returns, unless `kpanic` is called for the value that is replaced, and it returns
true exactly if `env_get` finds a variable; only this variable is written. -/
theorem env_set_agrees (m : Memory σ) (name : List Char) (v : Value) (frames : List Frame)
    (s : Interp σ) :
    ((∃ r, (envSet m name v frames s).result = .ok r) ↔
      ∀ b n old, envGet name frames = some b → deref frames b = some (n, old) → Frees m s old) ∧
    ∀ found frames' s', (envSet m name v frames s).result = .ok (found, frames', s') →
      (found = true ↔ envGet name frames ≠ none) ∧
      (∀ b, envGet name frames = some b → Assigned name v frames frames' b) ∧
      (envGet name frames = none → frames' = frames ∧ s' = s) := by
  -- whether the name is found decides what `env_set` is
  cases hget : envGet name frames with
  | none =>
      have hresult : (envSet m name v frames s).result = .ok (false, frames, s) :=
        envSet_none hget
      refine ⟨iff_of_true ⟨_, hresult⟩ (fun _ _ _ h => nomatch h), ?_⟩
      intro found frames' s' h
      cases hresult.symm.trans h
      refine ⟨?_, (fun _ h => nomatch h), fun _ => ⟨rfl, rfl⟩⟩
      exact iff_of_false Bool.false_ne_true fun h => h rfl
  | some b =>
      rcases deref_envGet hget with ⟨old, hentry⟩
      have hresult := envSet_some (m := m) (v := v) (s := s) hget hentry
      constructor
      · rw [hresult]
        constructor
        · rintro ⟨r, hr⟩ b' n old' hb' hentry'
          cases hb'
          cases hentry.symm.trans hentry'
          cases hfree : (valueFree m old s).result with
          | error k =>
              rw [hfree] at hr
              cases hr
          | ok t => exact ⟨t, hfree⟩
        · intro h
          rcases h b name old rfl hentry with ⟨t, ht⟩
          rw [ht]
          exact ⟨_, rfl⟩
      · intro found frames' s' h
        rw [hresult] at h
        cases hfree : (valueFree m old s).result with
        | error k =>
            rw [hfree] at h
            cases h
        | ok t =>
            rw [hfree] at h
            cases h
            refine ⟨iff_of_true rfl (fun h => nomatch h), fun b' hb' => ?_, fun h => nomatch h⟩
            cases hb'
            exact assigned_write hget

end Chain

end PolandOS.PolskiScript
