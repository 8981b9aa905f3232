import PolandOS.Lib.SlotTable
import PolandOS.Net.State

/-! # The ARP cache

`arp_cache` of `kernel/net/arp.c` is a table of 32 slots from addresses to MAC addresses.
`arp_cache_update` enters an entry into it, and `arp_cache_lookup` looks one up.
-/

namespace PolandOS.Net

open Logging SlotTable

/-- `arp_init`. -/
def arpInit (s : Host) : Host :=
  { s with arpCache := fun _ => ⟨0, Vector.replicate 6 0, false⟩ }

/-- The calls of `arp_cache_update`, one after the other. -/
def arpCacheUpdates : List (UInt32 × Mac) → Host → Rx Host
  | [], s => return s
  | (ip, mac) :: rest, s => do
    let s ← arpCacheUpdate ip mac s
    arpCacheUpdates rest s

/-- The cache as a table. -/
def arpTable (s : Host) : Table 32 UInt32 Mac := fun i =>
  if (s.arpCache i).valid then some ((s.arpCache i).ip, (s.arpCache i).mac) else none

variable {s t : Host}

theorem arpTable_eq_some {i : Fin 32} {ip : UInt32} {mac : Mac} :
    arpTable s i = some (ip, mac) ↔ s.arpCache i = ⟨ip, mac, true⟩ := by
  unfold arpTable
  rcases s.arpCache i with ⟨ip', mac', valid⟩
  cases valid <;> simp

theorem arpTable_update (i : Fin 32) (ip : UInt32) (mac : Mac) :
    arpTable { s with arpCache := Function.update s.arpCache i ⟨ip, mac, true⟩ } =
      place (arpTable s) i ip mac := by
  funext j
  unfold arpTable place
  by_cases hj : j = i
  · subst hj
    simp
  · simp [Function.update_of_ne hj]

/-- The first pass over the cache, of `arp_cache_update` and of `arp_cache_lookup`. -/
theorem find_arpTable (ip : UInt32) : ((List.finRange 32).find? fun i =>
    (s.arpCache i).valid && (s.arpCache i).ip == ip) = find (arpTable s) ip := by
  unfold find
  congr 1
  funext i
  rw [Bool.eq_iff_iff, decide_eq_true_iff, fst_eq_some_iff]
  simp only [arpTable_eq_some]
  rcases s.arpCache i with ⟨ip', mac', valid⟩
  cases valid <;> simp

/-- A lookup gives the entry of the address. -/
theorem arpCacheLookup_eq (ip : UInt32) :
    arpCacheLookup ip s = (lookup (arpTable s) ip).map fun mac => ⟨ip, mac, true⟩ := by
  rw [arpCacheLookup, find_arpTable, lookup]
  cases h : find (arpTable s) ip with
  | none => rfl
  | some i =>
      obtain ⟨mac, hmac⟩ := eq_some_of_find h
      simp [hmac, arpTable_eq_some.1 hmac]

/-- An update enters the address into the table. -/
theorem arpCacheUpdate_enter (ip : UInt32) (mac : Mac) (s : Host) :
    ∃ t, arpCacheUpdate ip mac s = ⟨[.copy .arpMac 0 6], .ok t⟩ ∧
      arpTable t = enter (arpTable s) ip mac := by
  have hfree : (fun i => !(s.arpCache i).valid) = fun i => (arpTable s i).isNone := by
    funext i
    unfold arpTable
    cases (s.arpCache i).valid <;> rfl
  rw [arpCacheUpdate, find_arpTable, hfree, enter]
  cases hfind : find (arpTable s) ip with
  | some i =>
      obtain ⟨mac', hmac⟩ := eq_some_of_find hfind
      refine ⟨_, rfl, ?_⟩
      rw [arpTable_eq_some.1 hmac]
      exact arpTable_update i ip mac
  | none =>
      cases (List.finRange 32).find? fun i => (arpTable s i).isNone with
      | some i => exact ⟨_, rfl, arpTable_update i ip mac⟩
      | none => exact ⟨_, rfl, arpTable_update 0 ip mac⟩

/-- The updates keep every address in one slot. -/
theorem arpCacheUpdates_unique (calls : List (UInt32 × Mac)) (h : KeysUnique (arpTable s)) :
    ∃ t, (arpCacheUpdates calls s).result = .ok t ∧ KeysUnique (arpTable t) := by
  induction calls generalizing s with
  | nil => exact ⟨s, rfl, h⟩
  | cons call calls ih =>
      obtain ⟨ip, mac⟩ := call
      obtain ⟨t, ht, htable⟩ := arpCacheUpdate_enter ip mac s
      obtain ⟨u, hu, hunique⟩ := ih (s := t) (htable ▸ h.enter ip mac)
      exact ⟨u, Logged.result_bind.2 ⟨t, congrArg Logged.result ht, hu⟩, hunique⟩

/-- After any calls of `arp_cache_update`, every address is in one slot, and one more call
has its address found with its MAC address. The others are found as before, but for the
one of slot 0 where the address is new and no slot is free. -/
theorem arp_cache_map (s : Host) (calls : List (UInt32 × Mac)) :
    ∃ t, (arpCacheUpdates calls (arpInit s)).result = .ok t ∧
      (∀ i j, (t.arpCache i).valid = true → (t.arpCache j).valid = true →
        (t.arpCache i).ip = (t.arpCache j).ip → i = j) ∧
      ∀ ip mac, ∃ u, (arpCacheUpdate ip mac t).result = .ok u ∧
        (arpCacheLookup ip u).map ARPEntry.mac = some mac ∧
        ∀ ip' ≠ ip,
          ((arpCacheLookup ip t = none ∧ (∀ i, (t.arpCache i).valid = true) ∧
            ip' = (t.arpCache 0).ip) → arpCacheLookup ip' u = none) ∧
          (¬(arpCacheLookup ip t = none ∧ (∀ i, (t.arpCache i).valid = true) ∧
            ip' = (t.arpCache 0).ip) → arpCacheLookup ip' u = arpCacheLookup ip' t) := by
  -- unique addresses are the invariant of the updates
  have hempty : KeysUnique (arpTable (arpInit s)) := by
    intro i j k v w hi
    simp [arpTable, arpInit] at hi
  obtain ⟨t, ht, hunique⟩ := arpCacheUpdates_unique calls hempty
  have hslot : ∀ i, (t.arpCache i).valid = true →
      arpTable t i = some ((t.arpCache i).ip, (t.arpCache i).mac) := fun i hi => if_pos hi
  refine ⟨t, ht, fun i j hi hj hip => ?_, fun ip mac => ?_⟩
  · refine hunique i j (t.arpCache i).ip _ (t.arpCache j).mac (hslot i hi) ?_
    rw [hip]
    exact hslot j hj
  · obtain ⟨u, hu, htable⟩ := arpCacheUpdate_enter ip mac t
    obtain ⟨hself, hothers⟩ := lookup_enter hunique ip mac
    have hmiss : arpCacheLookup ip t = none ↔ lookup (arpTable t) ip = none := by
      rw [arpCacheLookup_eq, Option.map_eq_none_iff]
    have hfull : (∀ i, (t.arpCache i).valid = true) ↔ Full (arpTable t) := by
      refine forall_congr' fun i => ?_
      unfold arpTable
      cases (t.arpCache i).valid <;> simp
    refine ⟨u, congrArg Logged.result hu, ?_, fun ip' hne => ?_⟩
    · rw [arpCacheLookup_eq, htable, hself]
      rfl
    · obtain ⟨hevicted, hkept⟩ := hothers ip' hne
      -- entry 0 is the one that a full cache gives up
      have hfirst : (∀ i, (t.arpCache i).valid = true) →
          (ip' = (t.arpCache 0).ip ↔ ∃ w, arpTable t 0 = some (ip', w)) := by
        intro hall
        rw [hslot 0 (hall 0)]
        simp [eq_comm]
      rw [hmiss, arpCacheLookup_eq (s := u), arpCacheLookup_eq (s := t), htable]
      constructor
      · rintro ⟨hnone, hall, hip⟩
        rw [hevicted ⟨hnone, hfull.1 hall, (hfirst hall).1 hip⟩]
        rfl
      · intro h
        rw [hkept]
        rintro ⟨hnone, hall, hip⟩
        exact h ⟨hnone, hfull.2 hall, (hfirst (hfull.2 hall)).2 hip⟩

end PolandOS.Net
