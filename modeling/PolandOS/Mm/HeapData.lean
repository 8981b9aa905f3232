import PolandOS.Mm.HeapSizes

/-! # The data in blocks that are resized

`krealloc` shrinks a block in place, by writing a header into what was payload, or moves it to a
block that it takes, and gives the old one back.

* `krealloc_preserves`: the first bytes of the resized block are those of the old one, as many as
  fit in both; where there is no room the old block stays; and no other block changes.
-/

namespace PolandOS.Heap

open ByteMem Tiling Runs

/-- The usable size of the block at `p`. -/
def usable (w : World) (p : Nat) : Nat := size w.heap.mem (sub64 p headerAligned)

/-- The block at `r` is still held, and its size and its bytes are unchanged. -/
structure Kept (w w' : World) (r : Nat) : Prop where
  held : r ∈ w'.live
  size : usable w' r = usable w r
  bytes : ∀ i < usable w r, w'.heap.mem (r + i) = w.heap.mem (r + i)

section

variable {w w' : World} {lo total : Nat} {cells cells' : List Cell}

theorem Represents.usable_eq (hr : Represents w.heap lo cells) {r j : Nat}
    (hlive : (r, j) ∈ live 32 lo cells) : usable w r = j := (hr.block_header hlive).2.1

/-- A cell of both tilings, with its bytes. -/
theorem kept_of (hr : Represents w.heap lo cells) (hr' : Represents w'.heap lo cells') {r j : Nat}
    (hlive : (r, j) ∈ live 32 lo cells) (hlive' : (r, j) ∈ live 32 lo cells') (hheld : r ∈ w'.live)
    (hbytes : ∀ i < j, w'.heap.mem (r + i) = w.heap.mem (r + i)) : Kept w w' r := by
  have husable := hr.usable_eq hlive
  refine ⟨hheld, (hr'.usable_eq hlive').trans husable.symm, ?_⟩
  rwa [husable]

/-- Writes to the headers of a longer list leave payloads alone. -/
theorem payload_grows {m m' : Mem} {bs : List Nat} (hg : Grows bs (addrs 32 lo cells') m m')
    {r j i : Nat} (hlive : (r, j) ∈ live 32 lo cells') (hi : i < j) : m' (r + i) = m (r + i) :=
  hg.frame _ (payload_not_inHeader hlive ⟨by omega, by omega⟩)

/-- So do writes to the headers of a list that gets shorter. -/
theorem payload_retires {m m' : Mem} {bs : List Nat} (hret : Retires (addrs 32 lo cells) bs m m')
    {r j i : Nat} (hlive : (r, j) ∈ live 32 lo cells) (hi : i < j) : m' (r + i) = m (r + i) :=
  hret.frame _ (payload_not_inHeader hlive ⟨by omega, by omega⟩)

/-- What a move leaves behind: the new block, and the others. -/
theorem Moves.bytes {s s' : HeapState} {newSize p n q k : Nat} {mid : HeapState}
    {midCells : List Cell} (h : Moves s s' lo cells cells' newSize p n q k mid midCells)
    (hp : (p, n) ∈ live 32 lo cells) (hle : n ≤ k) :
    (∀ i < n, s'.mem (q + i) = s.mem (p + i)) ∧
      ∀ r j, (r, j) ∈ live 32 lo cells → r ≠ p →
        (r, j) ∈ live 32 lo cells' ∧ ∀ i < j, s'.mem (r + i) = s.mem (r + i) := by
  have hqmid : (q, k) ∈ live 32 lo midCells := h.perm.symm.subset (by simp)
  have hmid : ∀ r j, (r, j) ∈ live 32 lo cells → (r, j) ∈ live 32 lo midCells :=
    fun r j hlive => h.perm.symm.subset (List.mem_cons_of_mem _ hlive)
  -- the block that was taken is none of those that were there
  have hfresh : ∀ r j, (r, j) ∈ live 32 lo cells → r ≠ q := by
    rintro r j hlive rfl
    have hnodup := (h.perm.map Prod.fst).nodup (live_nodup 32 (by decide) lo midCells)
    exact (List.nodup_cons.mp hnodup).1 (List.mem_map.mpr ⟨(r, j), hlive, rfl⟩)
  have hend : ∀ r j, (r, j) ∈ live 32 lo midCells → r + j < 2 ^ 64 :=
    fun r j hlive => (h.rep.block_header hlive).2.2.2
  have hqend := hend q k hqmid
  have hpend := hend p n (hmid p n hp)
  constructor
  · intro i hi
    have hout : s'.mem (q + i) = memcpy mid.mem q p n (q + i) :=
      payload_retires h.retires hqmid (by omega)
    have hapart : p + n ≤ q ∨ q + k ≤ p :=
      live_apart 32 (hmid p n hp) hqmid (hfresh p n hp)
    have hcopy : memcpy mid.mem q p n (byteAt q i) = mid.mem (byteAt p i) :=
      memcpy_copy mid.mem (apart_of_le (by omega) (by omega) (by omega)) (by omega) hi
    rw [byteAt_eq (by omega), byteAt_eq (by omega)] at hcopy
    rw [hout, hcopy]
    exact payload_grows h.grows (hmid p n hp) hi
  · intro r j hlive hne
    have hrmid := hmid r j hlive
    constructor
    · have hmem := h.released.subset hrmid
      rcases List.mem_cons.mp hmem with heq | hmem
      · exact absurd (congrArg Prod.fst heq) hne
      · exact hmem
    · intro i hi
      have hout : s'.mem (r + i) = memcpy mid.mem q p n (r + i) :=
        payload_retires h.retires hrmid hi
      have hapart : r + j ≤ q ∨ q + k ≤ r := live_apart 32 hrmid hqmid (hfresh r j hlive)
      have hkeep : memcpy mid.mem q p n (r + i) = mid.mem (r + i) := by
        apply memcpy_frame
        intro x hx
        rw [byteAt_eq (by omega)]
        omega
      rw [hout, hkeep]
      exact payload_grows h.grows hrmid hi

/-- `krealloc` of a live block. -/
theorem Inv.krealloc_kept (hi : Inv lo total w cells) {p n q : Nat} (hp : p ∈ w.live) (hn : n ≠ 0)
    (hroom : n + 15 < 2 ^ 64) (hret : Returns w (.krealloc p n) q w') :
    (q ≠ 0 → q ∈ w'.live ∧
        ∀ i < min (usable w p) n, w'.heap.mem (q + i) = w.heap.mem (p + i)) ∧
      (q = 0 → Kept w w' p) ∧ ∀ r ∈ w.live, r ≠ p → Kept w w' r := by
  have hheld := fun hq => hret.held hq
  obtain ⟨⟨-, hexec⟩, hres⟩ := hret
  dsimp only at hres
  rw [exec_krealloc hres] at hexec
  have hw' := Except.ok.inj hexec
  obtain ⟨k, hk⟩ := hi.mem_live hp
  have husable := hi.rep.usable_eq hk
  have hle := le_rounded hroom
  rw [husable]
  have hother : ∀ r ∈ w.live, r ≠ p → r ∈ w'.live := by
    intro r hr hne
    rw [← hw']
    have herase : r ∈ w.live.erase p := (List.mem_erase_of_ne hne).mpr hr
    dsimp only
    split
    · exact hr
    · unfold Heap.hold
      split
      · exact herase
      · exact List.mem_cons_of_mem _ herase
  -- in place the blocks only grow; otherwise the bytes are copied before the old block is freed
  by_cases hfit : rounded n ≤ k
  · obtain ⟨s1, cells1, hcode, hrep, -, -, ⟨k', others, hle', hperm, hperm'⟩, hgrows, -⟩ :=
      krealloc_fits hi.rep hn hk hfit
    obtain ⟨rfl, hs⟩ := Prod.mk.inj (Except.ok.inj (hcode.symm.trans hres))
    have hp0 : p ≠ 0 := (hi.rep.block_header hk).2.2.1
    have hpk' : (p, k') ∈ live 32 lo cells1 := hperm'.symm.subset (by simp)
    subst hs
    refine ⟨fun hq => ⟨hheld hq, fun i hi => ?_⟩, fun hq => absurd hq hp0, fun r hr hne => ?_⟩
    · exact payload_grows hgrows hpk' (by omega)
    · obtain ⟨j, hj⟩ := hi.mem_live hr
      have hj' : (r, j) ∈ live 32 lo cells1 := by
        rcases List.mem_cons.mp (hperm.subset hj) with heq | hmem
        · exact absurd (congrArg Prod.fst heq) hne
        · exact hperm'.symm.subset (List.mem_cons_of_mem _ hmem)
      exact kept_of hi.rep hrep hj hj' (hother r hr hne) fun i hi => payload_grows hgrows hj' hi
  · obtain ⟨q1, s1, cells1, hcode, hed, hmoves⟩ := krealloc_move hi.rep hn hk (by omega)
    obtain ⟨rfl, rfl⟩ := Prod.mk.inj (Except.ok.inj (hcode.symm.trans hres))
    rcases hmoves with ⟨hq, hs, -⟩ | ⟨hq, j, mid, midCells, hlej, hmove⟩
    · -- NULL: nothing has changed
      have hsame : w' = w := by
        rw [← hw', if_pos ⟨hq, hn⟩, hs]
      rw [hsame]
      refine ⟨fun h => absurd hq h, fun _ => ⟨hp, rfl, fun _ _ => rfl⟩, fun r hr _ => ?_⟩
      exact ⟨hr, rfl, fun _ _ => rfl⟩
    · obtain ⟨hcopied, hothers⟩ := hmove.bytes hk (by omega)
      refine ⟨fun hq => ⟨hheld hq, fun i hi => hcopied i (by omega)⟩, fun h => absurd h hq,
        fun r hr hne => ?_⟩
      obtain ⟨i, hlive⟩ := hi.mem_live hr
      obtain ⟨hlive', hbytes⟩ := hothers r i hlive hne
      exact kept_of hi.rep hed.rep hlive hlive' (hother r hr hne) hbytes

variable {m : Mem} {heapStart heapSize : Nat} {s₀ : HeapState}

/-- In every reachable heap: a block that `krealloc` returns holds the bytes of the old one, as
many as fit in both; if it returns NULL the old block stays as it is; and every other block that
is held stays as it is. -/
theorem krealloc_preserves (hr : RegionOk heapStart heapSize)
    (hi : heapInit m heapStart heapSize = .ok s₀) (hrun : Run Step ⟨s₀, []⟩ w) {p n q : Nat}
    (hp : p ∈ w.live) (hn : 0 < n) (hroom : n + 15 < 2 ^ 64)
    (hret : Returns w (.krealloc p n) q w') :
    (q ≠ 0 → q ∈ w'.live ∧
        ∀ i < min (usable w p) n, w'.heap.mem (q + i) = w.heap.mem (p + i)) ∧
      (q = 0 → Kept w w' p) ∧ ∀ r ∈ w.live, r ≠ p → Kept w w' r := by
  rcases run_reach hr hi hrun with ⟨cells, hinv⟩ | hdead
  · exact hinv.krealloc_kept hp (by omega) hroom hret
  · exfalso
    -- a dead heap catches every pointer
    obtain ⟨hdvd, hpos, -⟩ := hdead.live p hp
    have hres := hret.2
    dsimp only at hres
    rw [(hdead.caught hdvd (by omega)).2 n (by omega)] at hres
    cases hres

/-- `krealloc_preserves` for a block that grows and so has to move. -/
theorem krealloc_preserves_moved : ∃ s₀ w w', heapInit (fun _ => 0) 0x100000 0x1000 = .ok s₀ ∧
    exec ⟨s₀, []⟩ (.kmalloc 64) = .ok w ∧ Returns w (.krealloc 0x100020 80) 0x100080 w' ∧
    ((0x100080 ≠ 0 → 0x100080 ∈ w'.live ∧
        ∀ i < min (usable w 0x100020) 80, w'.heap.mem (0x100080 + i) = w.heap.mem (0x100020 + i)) ∧
      (0x100080 = 0 → Kept w w' 0x100020) ∧ ∀ r ∈ w.live, r ≠ 0x100020 → Kept w w' r) := by
  have hr : RegionOk 0x100000 0x1000 := ⟨by decide, by decide⟩
  obtain ⟨s₀, w, h0, h1, hlive, hcode⟩ : ∃ s₀ w, heapInit (fun _ => 0) 0x100000 0x1000 = .ok s₀ ∧
      exec ⟨s₀, []⟩ (.kmalloc 64) = .ok w ∧ w.live = [0x100020] ∧
      (krealloc w.heap 0x100020 80).toOption.map Prod.fst = some 0x100080 :=
    ⟨_, _, rfl, rfl, rfl, by decide +kernel⟩
  cases hk : krealloc w.heap 0x100020 80 with
  | error e =>
      rw [hk] at hcode
      cases hcode
  | ok r =>
      obtain ⟨q, s'⟩ := r
      rw [hk] at hcode
      obtain rfl : q = 0x100080 := Option.some.inj hcode
      have hmem : 0x100020 ∈ w.live := by
        rw [hlive]
        exact List.mem_cons_self
      have hret : Returns w (.krealloc 0x100020 80) 0x100080 ⟨s', _⟩ :=
        ⟨⟨.inr hmem, exec_krealloc hk⟩, hk⟩
      have hrun : Run Step ⟨s₀, []⟩ w := .tail (e := .kmalloc 64) .refl ⟨trivial, h1⟩
      exact ⟨s₀, w, _, h0, h1, hret,
        krealloc_preserves hr h0 hrun hmem (by decide) (by decide) hret⟩

end

end PolandOS.Heap
