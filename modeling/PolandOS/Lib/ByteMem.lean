import Mathlib.Tactic.Ring
import Mathlib.Data.Nat.Bitwise

/-! # Byte-addressed memory

A flat memory of bytes under a 64-bit address space. Every access takes its
address modulo `2 ^ 64`, so a pointer that runs past the top of the address
space wraps to the bottom, as machine pointers do. On top of single bytes:

* little-endian words (`readLE`, `writeLE`);
* the bulk loops of a C library (`memset`, `memcpy`, `memmove`);
* lists of bytes that are stored one after another (`store`).

For each operation there are two lemmas: what it leaves at the bytes it
touches, and that it leaves every other byte alone (the frame).
-/

namespace ByteMem

/-- A memory: the byte stored at each address. -/
abbrev Mem := Nat → UInt8

/-- Store one byte. -/
def set (m : Mem) (a : Nat) (v : UInt8) : Mem :=
  fun x => if x = a then v else m x

@[simp] theorem set_self (m : Mem) (a : Nat) (v : UInt8) : set m a v a = v := by
  simp [set]

theorem set_ne (m : Mem) {a x : Nat} (v : UInt8) (h : x ≠ a) : set m a v x = m x := by
  simp [set, h]

/-- The address of byte `i` of an object at `a`. -/
def byteAt (a i : Nat) : Nat := (a + i) % 2 ^ 64

theorem byteAt_succ (a i : Nat) : byteAt (a + 1) i = byteAt a (i + 1) := by
  simp only [byteAt]
  congr 1
  omega

theorem byteAt_add (a k i : Nat) : byteAt (a + k) i = byteAt a (k + i) := by
  rw [byteAt, byteAt, Nat.add_assoc]

/-- Distinct byte offsets below `2 ^ 64` are distinct addresses. -/
theorem byteAt_inj {a i j : Nat} (hi : i < 2 ^ 64) (hj : j < 2 ^ 64)
    (h : byteAt a i = byteAt a j) : i = j := by
  unfold byteAt at h
  omega

theorem byteAt_byteAt (a i j : Nat) : byteAt (byteAt a i) j = byteAt a (i + j) := by
  unfold byteAt
  omega

/-- Inside the address space nothing wraps. -/
theorem byteAt_eq {a i : Nat} (h : a + i < 2 ^ 64) : byteAt a i = a + i :=
  Nat.mod_eq_of_lt h

/-! ## Little-endian words -/

/-- Read `n` bytes at `a`, least significant first. -/
def readLE (m : Mem) (a : Nat) : Nat → Nat
  | 0 => 0
  | n + 1 => (m (a % 2 ^ 64)).toNat + 256 * readLE m (a + 1) n

/-- Write the `n` low bytes of `v` at `a`, least significant first. -/
def writeLE (m : Mem) (a : Nat) : Nat → Nat → Mem
  | 0, _ => m
  | n + 1, v => writeLE (set m (a % 2 ^ 64) (UInt8.ofNat v)) (a + 1) n (v / 256)

theorem readLE_lt (m : Mem) (a n : Nat) : readLE m a n < 256 ^ n := by
  induction n generalizing a with
  | zero => simp [readLE]
  | succ n ih =>
      have hb : (m (a % 2 ^ 64)).toNat < 256 := UInt8.toNat_lt _
      have hr := ih (a + 1)
      rw [readLE, pow_succ 256 n]
      omega

/-- A read depends only on the bytes it covers. -/
theorem readLE_congr {m m' : Mem} {a n : Nat}
    (h : ∀ i < n, m' (byteAt a i) = m (byteAt a i)) : readLE m' a n = readLE m a n := by
  induction n generalizing a with
  | zero => rfl
  | succ n ih =>
      have h0 : m' (a % 2 ^ 64) = m (a % 2 ^ 64) := by simpa [byteAt] using h 0 (by omega)
      have hr : readLE m' (a + 1) n = readLE m (a + 1) n := by
        apply ih
        intro i hi
        simpa [byteAt_succ] using h (i + 1) (by omega)
      rw [readLE, readLE, h0, hr]

theorem readLE_zero {m : Mem} {a n : Nat} (h : ∀ i < n, m (byteAt a i) = 0) :
    readLE m a n = 0 := by
  induction n generalizing a with
  | zero => rfl
  | succ n ih =>
      have h0 : m (a % 2 ^ 64) = 0 := by simpa [byteAt] using h 0 (by omega)
      have htail := ih (a := a + 1) fun i hi => by
        rw [byteAt_succ]
        exact h (i + 1) (by omega)
      rw [readLE, h0, htail]
      rfl

/-- A read of more bytes is the read of the first ones and that of the rest. -/
theorem readLE_add (m : Mem) (a n k : Nat) :
    readLE m a (n + k) = readLE m a n + 256 ^ n * readLE m (a + n) k := by
  induction n generalizing a with
  | zero => simp [readLE]
  | succ n ih =>
      have hoff : a + 1 + n = a + (n + 1) := by omega
      rw [Nat.add_right_comm, readLE, readLE, ih, hoff]
      ring

/-- A write leaves every byte outside its range alone. -/
theorem writeLE_frame (m : Mem) {a n x : Nat} (v : Nat)
    (h : ∀ i < n, x ≠ byteAt a i) : writeLE m a n v x = m x := by
  induction n generalizing m a v with
  | zero => rfl
  | succ n ih =>
      have h0 : x ≠ a % 2 ^ 64 := by simpa [byteAt] using h 0 (by omega)
      rw [writeLE, ih _ _ fun i hi => by simpa [byteAt_succ] using h (i + 1) (by omega)]
      exact set_ne m _ h0

/-- Reading back what was written gives the value, cut to the width. -/
theorem readLE_writeLE (m : Mem) {a n : Nat} (v : Nat) (hn : n ≤ 2 ^ 64) :
    readLE (writeLE m a n v) a n = v % 256 ^ n := by
  induction n generalizing m a v with
  | zero => simp [readLE, Nat.mod_one]
  | succ n ih =>
      have hlow : writeLE m a (n + 1) v (a % 2 ^ 64) = UInt8.ofNat v := by
        rw [writeLE, writeLE_frame]
        · simp
        · intro i hi
          simp only [byteAt]
          omega
      have hhigh : readLE (writeLE m a (n + 1) v) (a + 1) n = v / 256 % 256 ^ n := by
        rw [writeLE, ih _ _ (by omega)]
      rw [readLE, hlow, hhigh, pow_succ 256 n, Nat.mul_comm (256 ^ n) 256, Nat.mod_mul]
      simp [UInt8.toNat_ofNat']

/-- Two byte ranges that share no address. -/
def Apart (a n b k : Nat) : Prop := ∀ i < n, ∀ j < k, byteAt a i ≠ byteAt b j

/-- Ranges that lie inside the address space one after the other are apart. -/
theorem apart_of_le {a n b k : Nat} (ha : a + n ≤ 2 ^ 64) (hb : b + k ≤ 2 ^ 64)
    (h : a + n ≤ b ∨ b + k ≤ a) : Apart a n b k := by
  intro i hi j hj
  rw [byteAt_eq (by omega), byteAt_eq (by omega)]
  omega

/-- Of a range that is apart, the byte behind the other one can only be the first. -/
theorem Apart.behind {a n b k j : Nat} (h : Apart a n b k) (hn : 0 < n)
    (hfirst : byteAt a n ≠ byteAt b 0) (hj : j < k) : byteAt a n ≠ byteAt b j := by
  cases j with
  | zero => exact hfirst
  | succ j =>
      intro heq
      refine h (n - 1) (by omega) j (by omega) ?_
      unfold byteAt at heq ⊢
      omega

theorem readLE_writeLE_apart (m : Mem) {a n b k : Nat} (v : Nat) (h : Apart a n b k) :
    readLE (writeLE m b k v) a n = readLE m a n := by
  apply readLE_congr
  intro i hi
  exact writeLE_frame m v fun j hj => h i hi j hj

/-! ## Bulk loops -/

/-- `while (n--) *p++ = c`. -/
def memset (m : Mem) (dst : Nat) (c : UInt8) : Nat → Mem
  | 0 => m
  | n + 1 => memset (set m (dst % 2 ^ 64) c) (dst + 1) c n

/-- `while (n--) *d++ = *s++`: each byte is read after the earlier ones were
stored. -/
def memcpy (m : Mem) (dst src : Nat) : Nat → Mem
  | 0 => m
  | n + 1 => memcpy (set m (dst % 2 ^ 64) (m (src % 2 ^ 64))) (dst + 1) (src + 1) n

theorem memset_frame (m : Mem) {dst n x : Nat} (c : UInt8)
    (h : ∀ i < n, x ≠ byteAt dst i) : memset m dst c n x = m x := by
  induction n generalizing m dst with
  | zero => rfl
  | succ n ih =>
      have h0 : x ≠ dst % 2 ^ 64 := by simpa [byteAt] using h 0 (by omega)
      rw [memset, ih _ fun i hi => by simpa [byteAt_succ] using h (i + 1) (by omega)]
      exact set_ne m _ h0

/-- Every byte of the range holds the fill value. A byte that the wrapped loop
meets twice is filled twice, so no bound on the length is needed. -/
theorem memset_fill (m : Mem) {dst n i : Nat} (c : UInt8) (hi : i < n) :
    memset m dst c n (byteAt dst i) = c := by
  induction n generalizing m dst i with
  | zero => omega
  | succ n ih =>
      rw [memset]
      cases i with
      | succ i =>
          rw [← byteAt_succ]
          exact ih _ (by omega)
      | zero =>
          by_cases hw : ∃ j < n, byteAt dst 0 = byteAt (dst + 1) j
          · obtain ⟨j, hj, he⟩ := hw
            rw [he]
            exact ih _ hj
          · push Not at hw
            rw [memset_frame _ _ hw]
            simp [byteAt]

theorem memcpy_frame (m : Mem) {dst src n x : Nat}
    (h : ∀ i < n, x ≠ byteAt dst i) : memcpy m dst src n x = m x := by
  induction n generalizing m dst src with
  | zero => rfl
  | succ n ih =>
      have h0 : x ≠ dst % 2 ^ 64 := by simpa [byteAt] using h 0 (by omega)
      rw [memcpy, ih _ fun i hi => by simpa [byteAt_succ] using h (i + 1) (by omega)]
      exact set_ne m _ h0

/-- A copy between ranges that share no address brings every byte over. -/
theorem memcpy_copy (m : Mem) {dst src n i : Nat} (hap : Apart dst n src n) (hn : n ≤ 2 ^ 64)
    (hi : i < n) : memcpy m dst src n (byteAt dst i) = m (byteAt src i) := by
  induction n generalizing m dst src i with
  | zero => omega
  | succ n ih =>
      rw [memcpy]
      cases i with
      | zero =>
          have hlater : ∀ j < n, byteAt dst 0 ≠ byteAt (dst + 1) j := by
            intro j hj heq
            rw [byteAt_succ] at heq
            have hinj := byteAt_inj (by omega) (by omega) heq
            omega
          rw [memcpy_frame _ hlater]
          simp [byteAt]
      | succ i =>
          have htail : Apart (dst + 1) n (src + 1) n := by
            intro a ha b hb
            rw [byteAt_succ, byteAt_succ]
            exact hap (a + 1) (by omega) (b + 1) (by omega)
          have hsrc : byteAt src (i + 1) ≠ dst % 2 ^ 64 := fun heq =>
            hap 0 (by omega) (i + 1) hi (by rw [heq]; simp [byteAt])
          rw [← byteAt_succ, ih _ htail (by omega) (by omega), byteAt_succ]
          exact set_ne m _ hsrc

/-- `d += n; s += n; while (n--) *--d = *--s`. -/
def memcpyBack (m : Mem) (dst src : Nat) : Nat → Mem
  | 0 => m
  | n + 1 => memcpyBack (set m (byteAt dst n) (m (byteAt src n))) dst src n

/-- A copy between ranges that may overlap: the loop begins at the end of the range that is
not overwritten. -/
def memmove (m : Mem) (dst src n : Nat) : Mem :=
  if dst < src then memcpy m dst src n
  else if src < dst then memcpyBack m dst src n
  else m

/-- A copy to lower addresses brings every byte over, also where the ranges overlap. -/
theorem memmove_down (m : Mem) {dst src n i : Nat} (hlt : dst < src) (hsrc : src + n ≤ 2 ^ 64)
    (hi : i < n) : memmove m dst src n (dst + i) = m (src + i) := by
  rw [memmove, if_pos hlt]
  induction n generalizing m dst src i with
  | zero => omega
  | succ n ih =>
      rw [memcpy]
      cases i with
      | zero =>
          have hlater : ∀ j < n, dst + 0 ≠ byteAt (dst + 1) j := by
            intro j hj
            rw [byteAt_eq (by omega)]
            omega
          rw [memcpy_frame _ hlater, Nat.mod_eq_of_lt (by omega : dst < 2 ^ 64),
            Nat.mod_eq_of_lt (by omega : src < 2 ^ 64)]
          exact set_self _ _ _
      | succ i =>
          have hdst' : dst + (i + 1) = dst + 1 + i := by omega
          have hsrc' : src + (i + 1) = src + 1 + i := by omega
          rw [hdst', hsrc', ih _ (by omega) (by omega) (by omega)]
          exact set_ne m _ (by omega)

theorem memcpyBack_frame (m : Mem) {dst src n x : Nat} (h : ∀ i < n, x ≠ byteAt dst i) :
    memcpyBack m dst src n x = m x := by
  induction n generalizing m with
  | zero => rfl
  | succ n ih =>
      rw [memcpyBack, ih _ fun i hi => h i (Nat.lt_succ_of_lt hi)]
      exact set_ne m _ (h n (Nat.lt_succ_self n))

/-- A copy to higher addresses brings every byte over, also where the ranges overlap. -/
theorem memmove_up (m : Mem) {dst src n i : Nat} (hlt : src < dst) (hdst : dst + n ≤ 2 ^ 64)
    (hi : i < n) : memmove m dst src n (dst + i) = m (src + i) := by
  rw [memmove, if_neg (Nat.not_lt_of_lt hlt), if_pos hlt]
  induction n generalizing m with
  | zero => omega
  | succ n ih =>
      rw [memcpyBack, byteAt_eq (by omega : dst + n < 2 ^ 64),
        byteAt_eq (by omega : src + n < 2 ^ 64)]
      rcases Nat.lt_succ_iff_lt_or_eq.mp hi with hin | rfl
      · rw [ih _ (by omega) hin]
        exact set_ne m _ (by omega)
      · -- the last byte is written first, and the rest of the loop stays below it
        rw [memcpyBack_frame, set_self]
        intro j hj
        rw [byteAt_eq (by omega)]
        omega

theorem memmove_frame (m : Mem) {dst src n x : Nat} (h : ∀ i < n, x ≠ byteAt dst i) :
    memmove m dst src n x = m x := by
  unfold memmove
  split
  · exact memcpy_frame m h
  split
  · exact memcpyBack_frame m h
  · rfl

/-! ## Lists of stores -/

/-- Bytes stored one after another, each with its address. -/
def store (m : Mem) (ws : List (Nat × UInt8)) : Mem := ws.foldl (fun m w => set m w.1 w.2) m

variable {ws ws' : List (Nat × UInt8)} {x : Nat}

theorem store_append (m : Mem) : store m (ws ++ ws') = store (store m ws) ws' :=
  List.foldl_append

theorem store_frame (m : Mem) (h : ∀ w ∈ ws, x ≠ w.1) : store m ws x = m x := by
  induction ws generalizing m with
  | nil => rfl
  | cons w ws ih =>
      rcases List.forall_mem_cons.mp h with ⟨hw, hws⟩
      exact (ih _ hws).trans (set_ne m _ hw)

/-- A byte that is stored, where all stores to its address agree. -/
theorem store_mem (m : Mem) {v : UInt8} (hmem : (x, v) ∈ ws)
    (hv : ∀ w ∈ ws, w.1 = x → w.2 = v) : store m ws x = v := by
  induction ws generalizing m with
  | nil => cases hmem
  | cons w ws ih =>
      rcases List.forall_mem_cons.mp hv with ⟨hw, hws⟩
      change store (set m w.1 w.2) ws x = v
      by_cases hlater : (x, v) ∈ ws
      · exact ih _ hlater hws
      · have hx : (x, v) = w := (List.mem_cons.mp hmem).resolve_right hlater
        subst hx
        rw [store_frame, set_self]
        intro w' hw' heq
        have hw'v : w' = (x, v) := Prod.ext heq.symm (hws w' hw' heq.symm)
        exact hlater (hw'v ▸ hw')

/-- The order of stores does not matter where all stores to one address agree. -/
theorem store_congr (m : Mem) (h : ∀ w, w ∈ ws ↔ w ∈ ws')
    (hv : ∀ w ∈ ws, ∀ w' ∈ ws, w.1 = w'.1 → w.2 = w'.2) : store m ws = store m ws' := by
  funext x
  by_cases hx : ∃ w ∈ ws, w.1 = x
  · rcases hx with ⟨w, hw, rfl⟩
    have hagree : ∀ w' ∈ ws, w'.1 = w.1 → w'.2 = w.2 := fun w' hw' heq => hv w' hw' w hw heq
    rw [store_mem m hw hagree, store_mem m ((h w).mp hw)]
    intro w' hw'
    exact hagree w' ((h w').mpr hw')
  · push Not at hx
    have hws : ∀ w ∈ ws, x ≠ w.1 := fun w hw heq => hx w hw heq.symm
    rw [store_frame m hws, store_frame m fun w hw => hws w ((h w).mpr hw)]

/-- A word is stored byte by byte. -/
theorem writeLE_eq_store (m : Mem) (a n v : Nat) : writeLE m a n v =
    store m ((List.range n).map fun i => (byteAt a i, UInt8.ofNat (v / 256 ^ i))) := by
  induction n generalizing m a v with
  | zero => rfl
  | succ n ih =>
      rw [writeLE, ih, List.range_succ_eq_map, List.map_cons, List.map_map]
      have htail : ((fun i => (byteAt a i, UInt8.ofNat (v / 256 ^ i))) ∘ Nat.succ) =
          fun i => (byteAt (a + 1) i, UInt8.ofNat (v / 256 / 256 ^ i)) := by
        funext i
        rw [Function.comp_apply, byteAt_succ, Nat.div_div_eq_div_mul, ← pow_succ']
      rw [htail]
      simp only [store, List.foldl_cons, byteAt, pow_zero, Nat.div_one, Nat.add_zero]

end ByteMem
