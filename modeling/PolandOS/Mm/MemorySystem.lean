import PolandOS.Mm.PagingSupply

/-! # The memory system

The clients of `pmm.c`, the page tables of `vmm.c` and the bitmap share one memory, and all
calls come in any order. A client holds the frames it was given by `pmm_alloc`,
`pmm_alloc_pages` or `vmm_map_region` and has not given back, and may write and free only
these.

* `vmm_init_needs`: the frames that the kernel needs to come up
* `memory_isolation`: nobody's call disturbs what others hold
* `paging_needs`: the frames that a call on the page tables needs
-/

namespace PolandOS.Mm

open ByteMem Ghost Vmm Runs Supply

/-! ## Calls on the frame manager -/

section

variable {p p' : Pmm.PmmState} {c : Pmm.Call} {a : Nat}

/-- What a call returns. -/
def answer (p : Pmm.PmmState) : Pmm.Call → Except Halt (Nat × Pmm.PmmState)
  | .alloc => .ok (Pmm.pmmAlloc p)
  | .allocPages n => Pmm.pmmAllocPages p n
  | .free q => .ok (0, Pmm.pmmFree p q)
  | .store q b => .ok (0, { p with mem := set p.mem (byteAt p.hhdmOffset q) b })

/-- What its caller holds afterwards. -/
def holdings (a : Nat) (held : List Nat) : Pmm.Call → List Nat
  | .alloc => Pmm.hold a 1 held
  | .allocPages n => Pmm.hold a n held
  | .free q => held.erase (q / Pmm.pageSize)
  | .store _ _ => held

theorem exec_eq (p : Pmm.PmmState) (held : List Nat) (c : Pmm.Call) :
    Pmm.exec ⟨p, held⟩ c = (answer p c).map fun r => (r.1, ⟨r.2, holdings r.1 held c⟩) := by
  cases c with
  | alloc => rfl
  | allocPages n => rfl
  | free q => rfl
  | store q b => rfl

/-- The call does not free frame `f`. -/
def Spared (f : Nat) (c : Pmm.Call) : Prop := ∀ q, c = .free q → q / Pmm.pageSize ≠ f

/-- A frame that is held afterwards was held before, or has been granted. -/
theorem mem_holdings {held : List Nat} (hnodup : held.Nodup) {f : Nat} :
    f ∈ holdings a held c ↔ (f ∈ held ∧ Spared f c) ∨
      (a ≠ 0 ∧ a / Pmm.pageSize ≤ f ∧ f < a / Pmm.pageSize + c.pages) := by
  have hhold : ∀ n, f ∈ Pmm.hold a n held ↔ f ∈ held ∨
      (a ≠ 0 ∧ a / Pmm.pageSize ≤ f ∧ f < a / Pmm.pageSize + n) := by
    intro n
    unfold Pmm.hold
    by_cases hne : a = 0
    · rw [if_pos hne]
      simp [hne]
    · rw [if_neg hne, List.mem_append, List.mem_range'_1]
      simp [hne, or_comm]
  cases c with
  | alloc => simpa [holdings, Spared, Pmm.Call.pages] using hhold 1
  | allocPages n => simpa [holdings, Spared, Pmm.Call.pages] using hhold n
  | free q =>
      have hno : ¬(a / Pmm.pageSize ≤ f ∧ f < a / Pmm.pageSize + 0) := by omega
      simp only [holdings, hnodup.mem_erase_iff, Spared, Pmm.Call.free.injEq, forall_eq',
        Pmm.Call.pages, hno, and_false, or_false]
      rw [and_comm, ne_comm]
  | store q b =>
      simp [holdings, Spared, Pmm.Call.pages]

theorem markPages_steady (p : Pmm.PmmState) (i n : Nat) : Steady p (Pmm.markPages p i n) := by
  induction n generalizing p i with
  | zero => exact .refl p
  | succ n ih =>
      rw [Pmm.markPages]
      exact Steady.trans (q := Pmm.markUsed p i) ⟨rfl, rfl, rfl⟩ (ih _ _)

theorem allocPagesLoop_steady {n count i : Nat} {r : Nat × Pmm.PmmState}
    (h : Pmm.allocPagesLoop p count n i = .ok r) : Steady p r.2 := by
  induction n generalizing i with
  | zero => cases h
  | succ n ih =>
      rw [Pmm.allocPagesLoop] at h
      split at h
      · split at h
        · rw [← Except.ok.inj h]
          have hmarked := markPages_steady p i count
          constructor
          · exact hmarked.hhdmOffset
          · exact hmarked.bitmapFrames
          · exact hmarked.maxPhys
        · exact ih h
      · rw [← Except.ok.inj h]
        exact .refl p

/-- No call moves the bitmap or the direct map. -/
theorem answer_steady {r : Nat × Pmm.PmmState} (h : answer p c = .ok r) : Steady p r.2 := by
  cases c with
  | alloc =>
      obtain rfl := Except.ok.inj h
      exact pmmAlloc_steady p
  | allocPages n =>
      have hanswer : Pmm.pmmAllocPages p n = .ok r := h
      unfold Pmm.pmmAllocPages at hanswer
      split at hanswer
      · obtain rfl := Except.ok.inj hanswer
        exact .refl p
      · exact allocPagesLoop_steady hanswer
  | free q =>
      obtain rfl := Except.ok.inj h
      unfold Pmm.pmmFree
      dsimp only
      split
      · exact .refl p
      · split
        · exact ⟨rfl, rfl, rfl⟩
        · exact .refl p
  | store q b =>
      obtain rfl := Except.ok.inj h
      exact ⟨rfl, rfl, rfl⟩

/-- A call writes the bitmap, the frames it grants and the byte it stores. -/
structure Served (entries : List Pmm.MemmapEntry) (p : Pmm.PmmState) (held : List Nat)
    (c : Pmm.Call) (a : Nat) (p' : Pmm.PmmState) : Prop where
  inv : Pmm.Inv entries p' (holdings a held c)
  hhdm : p'.hhdmOffset = p.hhdmOffset
  granted : a ≠ 0 → Pmm.Granted entries p held a c.pages p'
  bytes : ∀ f ∈ held, ∀ k < pageSize, (∀ b, c ≠ .store (f * pageSize + k) b) →
    p'.mem (byteAt p.hhdmOffset (f * pageSize + k)) = p.mem (byteAt p.hhdmOffset (f * pageSize + k))

variable {entries : List Pmm.MemmapEntry} {held : List Nat}

/-- A byte of a frame of physical memory. -/
theorem byte_lt {f k : Nat} (hf : f * pageSize < 2 ^ 52) (hk : k < pageSize) :
    f * pageSize + k < 2 ^ 64 := by
  have hpage : pageSize < 2 ^ 52 := by decide
  omega

/-- A call changes no byte of a frame that is held, but the one that it stores. -/
theorem answer_bytes (hi : Pmm.Inv entries p held) (hd : DirectMapped entries p.hhdmOffset)
    (hadm : Pmm.Admissible ⟨p, held⟩ c) {r : Nat × Pmm.PmmState} (h : answer p c = .ok r)
    {f k : Nat} (hf : f ∈ held) (hk : k < pageSize)
    (hstore : ∀ b, c ≠ .store (f * pageSize + k) b) :
    r.2.mem (byteAt p.hhdmOffset (f * pageSize + k)) =
      p.mem (byteAt p.hhdmOffset (f * pageSize + k)) := by
  have hb : Books entries p.hhdmOffset ⟨p, held⟩ p.mem := ⟨hi, rfl⟩
  have hframe : Held ⟨p, held⟩ (f * pageSize) := by
    refine ⟨Nat.dvd_mul_left _ _, ?_⟩
    rwa [mul_div_pageSize]
  cases c with
  | alloc =>
      obtain rfl := Except.ok.inj h
      rcases Pmm.pmmAlloc_spec hi with hnone | ⟨g, -, hg, -⟩
      · rw [hnone]
      · exact hb.granted_others hd hg hframe hk
  | allocPages n =>
      have hanswer : Pmm.pmmAllocPages p n = .ok r := h
      rcases Pmm.pmmAllocPages_spec hi hadm with hnone | ⟨g, t, hsome, hg, -⟩
      · obtain rfl := Except.ok.inj (hnone.symm.trans hanswer)
        rfl
      · obtain rfl := Except.ok.inj (hsome.symm.trans hanswer)
        exact hb.granted_others hd hg hframe hk
  | free q =>
      obtain rfl := Except.ok.inj h
      unfold Pmm.pmmFree
      dsimp only
      split
      · rfl
      next hlt =>
        split
        · -- one byte of the bitmap is written
          exact set_ne _ _ (hb.byteAt_ne_bitmap hd hframe hk
            (hi.placed.byte_lt (Nat.lt_of_not_le hlt)))
        · rfl
  | store q b =>
      -- the byte that is stored is another one of physical memory, and so of virtual memory
      have hwidth := (hd.frame (hi.owned f hf).2).1.2
      have hwidth' := (hd.frame (hi.owned _ hadm).2).1.2
      have hlt : f * pageSize + k < 2 ^ 64 := byte_lt hwidth hk
      have hlt' : q < 2 ^ 64 := by
        rw [← Nat.div_add_mod' q pageSize]
        exact byte_lt hwidth' (Nat.mod_lt _ (by decide))
      obtain rfl := Except.ok.inj h
      refine set_ne _ _ fun heq => ?_
      rw [byteAt_inj hlt hlt' heq] at hstore
      exact hstore b rfl

/-- Every admissible call of a client returns. -/
theorem answer_spec (hi : Pmm.Inv entries p held) (hd : DirectMapped entries p.hhdmOffset)
    (hadm : Pmm.Admissible ⟨p, held⟩ c) :
    ∃ a p', answer p c = .ok (a, p') ∧ Served entries p held c a p' := by
  obtain ⟨a, ⟨p', held'⟩, hexec, hgranted, hinv⟩ := Pmm.exec_spec hi hadm
  rw [exec_eq] at hexec
  cases hanswer : answer p c with
  | error e =>
      rw [hanswer] at hexec
      cases hexec
  | ok r =>
      rw [hanswer] at hexec
      obtain ⟨rfl, rfl, rfl⟩ : r.1 = a ∧ r.2 = p' ∧ holdings r.1 held c = held' := by
        simpa [Except.map] using hexec
      exact ⟨r.1, r.2, rfl, hinv, (answer_steady hanswer).hhdmOffset, hgranted,
        fun f hf k hk hstore => answer_bytes hi hd hadm hanswer hf hk hstore⟩

/-- A granted frame was held by nobody. -/
theorem Served.granted_fresh (h : Served entries p held c a p') (hne : a ≠ 0) {f : Nat}
    (hlo : a / Pmm.pageSize ≤ f) (hhi : f < a / Pmm.pageSize + c.pages) : f ∉ held := by
  intro hmem
  have hgranted := h.granted hne
  have hphys : a / Pmm.pageSize * Pmm.pageSize = a := Nat.div_mul_cancel hgranted.aligned
  have hapart := hgranted.held f hmem
  rw [← hphys, ← Nat.add_mul] at hapart
  have hpage : 0 < Pmm.pageSize := by decide
  have hle := Nat.mul_le_mul_right Pmm.pageSize hlo
  have hlt := Nat.mul_lt_mul_of_pos_right hhi hpage
  omega

/-- A granted frame is zeroed. -/
theorem Served.granted_zeroed (h : Served entries p held c a p') (hne : a ≠ 0) {f k : Nat}
    (hlo : a / Pmm.pageSize ≤ f) (hhi : f < a / Pmm.pageSize + c.pages)
    (hk : k < Pmm.pageSize) :
    p'.mem (byteAt p.hhdmOffset (f * Pmm.pageSize + k)) = 0 := by
  have hgranted := h.granted hne
  have hphys : a / Pmm.pageSize * Pmm.pageSize = a := Nat.div_mul_cancel hgranted.aligned
  have hstart : a / Pmm.pageSize * Pmm.pageSize + (f - a / Pmm.pageSize) * Pmm.pageSize =
      f * Pmm.pageSize := by
    rw [← Nat.add_mul, Nat.add_sub_cancel' hlo]
  rw [hphys] at hstart
  have hoffset : (f - a / Pmm.pageSize) * Pmm.pageSize + k < c.pages * Pmm.pageSize := by
    have hcount : f - a / Pmm.pageSize + 1 ≤ c.pages := by omega
    have hmul := Nat.mul_le_mul_right Pmm.pageSize hcount
    rw [Nat.add_mul, Nat.one_mul] at hmul
    omega
  have hzero := hgranted.zeroed _ hoffset
  rwa [← Nat.add_assoc, hstart] at hzero

end

/-! ## The system -/

/-- Memory, the statics of both managers, and the numbers of the frames that clients hold. -/
structure System where
  vmm : State
  held : List Nat

/-- The frame manager's part of the state. -/
def System.pmm (s : System) : Pmm.PmmState := { s.vmm.pmm with mem := s.vmm.mem }

/-- What can happen: a client calls `pmm.c` or writes one of its frames, `vmm_map` or
`vmm_unmap` is called, or `vmm_map_region`. -/
inductive Op where
  | client (c : Pmm.Call)
  | paging (c : Vmm.Call)
  | region (virt size flags : Nat)

/-- The frames that the pages of a region are mapped to. -/
def regionFrames (v : State) (virt size : Nat) : List Nat :=
  (List.range (regionPages size)).map fun i => vmmGetPhys v (add64 virt (i * pageSize)) / pageSize

/-- The frames behind a region are held by the client that asked for it. -/
def exec (s : System) : Op → Except Halt (Nat × System)
  | .client c =>
    (Pmm.exec ⟨s.pmm, s.held⟩ c).map fun r =>
      (r.1, ⟨{ s.vmm with mem := r.2.pmm.mem, pmm := r.2.pmm }, r.2.held⟩)
  | .paging c => (Vmm.exec frames s.vmm c).map fun v => (0, { s with vmm := v })
  | .region virt size flags =>
    (vmmMapRegion frames s.vmm virt size flags).map fun v =>
      (0, ⟨v, regionFrames v virt size ++ s.held⟩)

/-- Clients free and write only what they hold; the page tables are called for addresses
outside large pages. -/
def Admissible (s : System) : Op → Prop
  | .client c => Pmm.Admissible ⟨s.pmm, s.held⟩ c
  | .paging c => CallOk s.vmm c
  | .region virt size flags => flags < 2 ^ 64 ∧ flags &&& physAddrMask = 0 ∧
      size + 4095 < 2 ^ 64 ∧ RegionSmall s.vmm virt size

def Step (s : System) (op : Op) (s' : System) : Prop :=
  Admissible s op ∧ ∃ a, exec s op = .ok (a, s')

/-- Nobody's call disturbs what others hold. -/
structure Isolated (entries : List Pmm.MemmapEntry) (h : Nat) (s : System) (op : Op)
    (s' : System) : Prop where
  /-- What is held is usable memory, apart from the bitmap. -/
  usable : ∀ f ∈ s'.held, Pmm.Ownable entries s'.pmm f
  /-- Nothing is held twice. -/
  once : s'.held.Nodup
  /-- No table is held. -/
  noTable : ∀ q t, tableAt s'.vmm (pml4Frame s'.vmm) q = some t → t / pageSize ∉ s'.held
  /-- What is held anew is zeroed. -/
  zeroed : ∀ f ∈ s'.held, f ∉ s.held → ∀ k < pageSize,
    s'.vmm.mem (byteAt h (f * pageSize + k)) = 0
  /-- Only its holder changes a byte of what is held. -/
  bytes : ∀ f ∈ s.held, ∀ k < pageSize, (∀ b, op ≠ .client (.store (f * pageSize + k) b)) →
    s'.vmm.mem (byteAt h (f * pageSize + k)) = s.vmm.mem (byteAt h (f * pageSize + k))
  /-- Only the page-table code changes a translation. -/
  maps : ∀ c, op = .client c → ∀ v, (Translated s'.vmm v ↔ Translated s.vmm v) ∧
    vmmGetPhys s'.vmm v = vmmGetPhys s.vmm v

/-- The ledger behind a state. -/
structure Coherent (entries : List Pmm.MemmapEntry) (L₀ : Ledgered) (root : Nat) (s : System)
    (L : Ledgered) : Prop where
  erased : erase L = s.vmm
  reached : Reached Held L₀ L root
  books : Books entries L₀.hhdmOffset L.pmm L.mem
  held : ∀ f ∈ s.held, Data L root (f * pageSize)
  once : s.held.Nodup

section

variable {entries : List Pmm.MemmapEntry} {L₀ L : Ledgered} {root : Nat} {s s' : System}

theorem Coherent.sound (hc : Coherent entries L₀ root s L) :
    Sound entries L₀.hhdmOffset L root := ⟨hc.reached.hhdm, hc.books, hc.reached.inv⟩

theorem Coherent.mem_ledger (hc : Coherent entries L₀ root s L) {f : Nat} (hf : f ∈ s.held) :
    f ∈ L.pmm.held := by
  have hmem := (hc.held f hf).1.2
  rwa [mul_div_pageSize] at hmem

theorem Coherent.noTable (hc : Coherent entries L₀ root s L) {q : List (Fin 512)} {t : Nat}
    (ht : tableAt L root q = some t) : t / pageSize ∉ s.held := by
  intro hheld
  have hdata := hc.held _ hheld
  rw [Nat.div_mul_cancel (hc.reached.inv.frames q t ht).1.1] at hdata
  exact hdata.2 q ht

theorem Coherent.pmm_eq (hc : Coherent entries L₀ root s L) :
    s.pmm = { L.pmm.pmm with mem := L.mem } := by
  rw [System.pmm, ← hc.erased]
  rfl

/-- A state with a ledger that agrees with it has kept its promises. -/
theorem Coherent.isolated (hc : Coherent entries L₀ root s' L) {op : Op}
    (hzeroed : ∀ f ∈ s'.held, f ∉ s.held → ∀ k < pageSize,
      s'.vmm.mem (byteAt L₀.hhdmOffset (f * pageSize + k)) = 0)
    (hbytes : ∀ f ∈ s.held, ∀ k < pageSize,
      (∀ b, op ≠ .client (.store (f * pageSize + k) b)) →
      s'.vmm.mem (byteAt L₀.hhdmOffset (f * pageSize + k)) =
        s.vmm.mem (byteAt L₀.hhdmOffset (f * pageSize + k)))
    (hmaps : ∀ c, op = .client c → ∀ v, (Translated s'.vmm v ↔ Translated s.vmm v) ∧
      vmmGetPhys s'.vmm v = vmmGetPhys s.vmm v) : Isolated entries L₀.hhdmOffset s op s' := by
  constructor
  · intro f hf
    rw [hc.pmm_eq]
    exact (hc.books.inv.owned f (hc.mem_ledger hf)).2
  · exact hc.once
  · intro q t ht
    rw [← hc.erased] at ht
    have hroot : pml4Frame (erase L) = root := hc.reached.inv.pml4Frame
    rw [hroot] at ht
    exact hc.noTable ht
  · exact hzeroed
  · exact hbytes
  · exact hmaps

/-! ## Calls of clients -/

/-- The clients' part of the ledger is a ledger of its own. -/
theorem Coherent.inv (hc : Coherent entries L₀ root s L) : Pmm.Inv entries s.pmm s.held := by
  rw [hc.pmm_eq]
  have hi := hc.books.inv
  refine hi.update ⟨rfl, rfl, rfl⟩ hi.hint ?_ ?_ hc.once
  · intro f hf hclear
    obtain ⟨hown, hfree⟩ := hi.clear f hf hclear
    exact ⟨hown, fun hmem => hfree (hc.mem_ledger hmem)⟩
  · intro f hf
    exact hi.owned f (hc.mem_ledger hf)

/-- The ledger after a call of a client. -/
def Ledgered.after (L : Ledgered) (a : Nat) (p' : Pmm.PmmState) (c : Pmm.Call) : Ledgered :=
  ⟨p'.mem, L.hhdmOffset, L.kernelPml4, ⟨p', holdings a L.pmm.held c⟩⟩

variable {c : Pmm.Call} {a : Nat} {p' : Pmm.PmmState}

/-- A frame of the ledger that clients do not hold is not freed. -/
theorem spared_of_not_held (hadm : Pmm.Admissible ⟨s.pmm, s.held⟩ c) {f : Nat}
    (hf : f ∉ s.held) : Spared f c := by
  rintro q rfl rfl
  exact hf hadm

/-- No byte of a table is written by a client. -/
theorem Coherent.tablesKept (hc : Coherent entries L₀ root s L)
    (hadm : Pmm.Admissible ⟨s.pmm, s.held⟩ c)
    (hserved : Served entries s.pmm L.pmm.held c a p') :
    TablesKept Held L (L.after a p' c) root := by
  constructor
  · rfl
  · rfl
  · intro q t ht
    have hheld := (hc.reached.inv.frames q t ht).2
    have hfree := hc.noTable ht
    have hphys : t / pageSize * pageSize = t := Nat.div_mul_cancel hheld.1
    constructor
    · refine ⟨hheld.1, (mem_holdings hc.books.inv.nodup).2 (.inl ⟨hheld.2, ?_⟩)⟩
      exact spared_of_not_held hadm hfree
    · intro k hk
      have hoff : s.pmm.hhdmOffset = L.hhdmOffset := by
        rw [hc.pmm_eq]
        exact hc.books.hhdm.trans hc.reached.hhdm.symm
      have hmem : s.pmm.mem = L.mem := by rw [hc.pmm_eq]
      have hbytes := hserved.bytes _ hheld.2 k hk ?_
      · rwa [hphys, hoff, hmem] at hbytes
      · -- a store into a table would need a client that holds it
        rintro b rfl
        have hquot : (t / pageSize * pageSize + k) / Pmm.pageSize = t / pageSize := by
          rw [hphys]
          unfold Pmm.pageSize
          unfold pageSize at hk hphys ⊢
          omega
        have hmem : (t / pageSize * pageSize + k) / Pmm.pageSize ∈ s.held := hadm
        rw [hquot] at hmem
        exact hfree hmem

/-- The memory map of the state is that of the ledger. -/
theorem Coherent.hhdm (hc : Coherent entries L₀ root s L) :
    s.pmm.hhdmOffset = L₀.hhdmOffset := by
  rw [hc.pmm_eq]
  exact hc.books.hhdm

/-- The ledger accounts for the state. -/
theorem Coherent.ledgerInv (hc : Coherent entries L₀ root s L) :
    Pmm.Inv entries s.pmm L.pmm.held := by
  rw [hc.pmm_eq]
  exact hc.books.inv

/-- What a client may call for, the ledger allows. -/
theorem Coherent.admissible (hc : Coherent entries L₀ root s L)
    (hadm : Pmm.Admissible ⟨s.pmm, s.held⟩ c) : Pmm.Admissible ⟨s.pmm, L.pmm.held⟩ c := by
  cases c with
  | alloc => trivial
  | allocPages n => exact hadm
  | free q => exact hc.mem_ledger hadm
  | store q b => exact hc.mem_ledger hadm

/-- The state after a call of a client. -/
def System.after (s : System) (a : Nat) (p' : Pmm.PmmState) (c : Pmm.Call) : System :=
  ⟨{ s.vmm with mem := p'.mem, pmm := p' }, holdings a s.held c⟩

theorem exec_client (hanswer : answer s.pmm c = .ok (a, p')) :
    exec s (.client c) = .ok (a, s.after a p' c) := by
  rw [exec, exec_eq, hanswer]
  rfl

/-- The ledger after a call of a client is reached by a step that keeps the tables. -/
theorem Coherent.reached_after (hc : Coherent entries L₀ root s L)
    (hd : DirectMapped entries L₀.hhdmOffset)
    (hkept : TablesKept Held L (L.after a p' c) root) : Reached Held L₀ (L.after a p' c) root := by
  have hA : Lawful (ledger entries L₀.hhdmOffset) Held L₀.hhdmOffset := ledger_lawful hd
  have hrest : Guarded (OpStep (ledger entries L₀.hhdmOffset) Held) OpOk L .rest
      (L.after a p' c) := by
    refine ⟨trivial, ?_⟩
    change TablesKept Held L (L.after a p' c) (pml4Frame L)
    rw [hc.reached.inv.pml4Frame]
    exact hkept
  exact hc.reached.step hA hrest

/-- What clients hold after a call is data. -/
theorem Coherent.data_after (hc : Coherent entries L₀ root s L)
    (hledger : Served entries s.pmm L.pmm.held c a p')
    (hkept : TablesKept Held L (L.after a p' c) root) {f : Nat}
    (hf : f ∈ holdings a s.held c) : Data (L.after a p' c) root (f * pageSize) := by
  have hnodup := hc.ledgerInv.nodup
  have hledgered : f ∈ holdings a L.pmm.held c ∧
      ∀ q, tableAt L root q ≠ some (f * pageSize) := by
    rcases (mem_holdings hc.once).1 hf with ⟨hold, hspared⟩ | hgranted
    · exact ⟨(mem_holdings hnodup).2 (.inl ⟨hc.mem_ledger hold, hspared⟩), (hc.held f hold).2⟩
    · -- a table is in the ledger already, and a granted frame is not
      refine ⟨(mem_holdings hnodup).2 (.inr hgranted), fun q hq => ?_⟩
      have htable := (hc.reached.inv.frames q _ hq).2.2
      rw [mul_div_pageSize] at htable
      exact hledger.granted_fresh hgranted.1 hgranted.2.1 hgranted.2.2 htable
  refine ⟨⟨Nat.dvd_mul_left _ _, ?_⟩, fun q hq => ?_⟩
  · rw [mul_div_pageSize]
    exact hledgered.1
  · rw [hkept.tableAt] at hq
    exact hledgered.2 q hq

/-- A call of a client keeps state and ledger in agreement. -/
theorem Coherent.after (hc : Coherent entries L₀ root s L)
    (hd : DirectMapped entries L₀.hhdmOffset)
    (hclient : Served entries s.pmm s.held c a p')
    (hledger : Served entries s.pmm L.pmm.held c a p')
    (hkept : TablesKept Held L (L.after a p' c) root) :
    Coherent entries L₀ root (s.after a p' c) (L.after a p' c) := by
  constructor
  · rw [System.after, ← hc.erased]
    rfl
  · exact hc.reached_after hd hkept
  · exact ⟨hledger.inv, hledger.hhdm.trans hc.hhdm⟩
  · intro f hf
    exact hc.data_after hledger hkept hf
  · exact hclient.inv.nodup

/-- A call that keeps the tables keeps the translations. -/
theorem Coherent.maps_after (hc : Coherent entries L₀ root s L)
    (hkept : TablesKept Held L (L.after a p' c) root)
    (hafter : Coherent entries L₀ root (s.after a p' c) (L.after a p' c)) (v : Nat) :
    (Translated (s.after a p' c).vmm v ↔ Translated s.vmm v) ∧
      vmmGetPhys (s.after a p' c).vmm v = vmmGetPhys s.vmm v := by
  have hplace := hkept.place v
  have hroot : pml4Frame L = root := hc.reached.inv.pml4Frame
  have hroot' : pml4Frame (L.after a p' c) = root := hafter.reached.inv.pml4Frame
  rw [← hafter.erased, ← hc.erased]
  constructor
  · change place (L.after a p' c) (pml4Frame (L.after a p' c)) v ≠ none ↔
      place L (pml4Frame L) v ≠ none
    rw [hroot, hroot', hplace]
  · change vmmGetPhys (L.after a p' c) v = vmmGetPhys L v
    rw [vmmGetPhys_place hafter.reached.inv, vmmGetPhys_place hc.reached.inv, hplace]

/-- A client's call is answered, state and ledger stay in agreement, and nobody else is
disturbed: it takes what nobody holds, gives up its own, and writes into its own. -/
theorem Coherent.client (hc : Coherent entries L₀ root s L)
    (hd : DirectMapped entries L₀.hhdmOffset) (hadm : Pmm.Admissible ⟨s.pmm, s.held⟩ c) :
    ∃ a s', exec s (.client c) = .ok (a, s') ∧ (∃ L', Coherent entries L₀ root s' L') ∧
      Isolated entries L₀.hhdmOffset s (.client c) s' := by
  have hmapped : DirectMapped entries s.pmm.hhdmOffset := by rwa [hc.hhdm]
  -- the call is served twice over: from what clients hold, and from the whole ledger
  obtain ⟨a, p', hanswer, hclient⟩ := answer_spec hc.inv hmapped hadm
  obtain ⟨a', p'', hanswer', hledger⟩ := answer_spec hc.ledgerInv hmapped (hc.admissible hadm)
  obtain ⟨rfl, rfl⟩ := Prod.mk.inj (Except.ok.inj (hanswer.symm.trans hanswer'))
  have hkept := hc.tablesKept hadm hledger
  have hafter := hc.after hd hclient hledger hkept
  refine ⟨a, _, exec_client hanswer, ⟨_, hafter⟩, hafter.isolated ?_ ?_ ?_⟩
  · intro f hf hfree k hk
    rcases (mem_holdings hc.once).1 hf with ⟨hold, -⟩ | ⟨hne, hlo, hhi⟩
    · exact absurd hold hfree
    · have hzero := hclient.granted_zeroed hne hlo hhi hk
      rwa [hc.hhdm] at hzero
  · intro f hf k hk hstore
    have hbytes := hclient.bytes f hf k hk fun b hb => hstore b (congrArg _ hb)
    rwa [hc.hhdm] at hbytes
  · intro d _ v
    exact hc.maps_after hkept hafter v

/-! ## Calls on the page tables -/

/-- What the page-table code leaves in the frames of clients. -/
theorem Coherent.bytes (hc : Coherent entries L₀ root s L) {L' : Ledgered} {held : List Nat}
    (hk : Kept entries L₀.hhdmOffset L root L') {f : Nat} (hf : f ∈ s.held) {k : Nat}
    (hlt : k < pageSize) :
    (System.mk (erase L') held).vmm.mem (byteAt L₀.hhdmOffset (f * pageSize + k)) =
      s.vmm.mem (byteAt L₀.hhdmOffset (f * pageSize + k)) := by
  have hbytes := hk.2.bytes _ (hc.held f hf) k hlt
  rw [hc.reached.hhdm] at hbytes
  rw [← hc.erased]
  exact hbytes

theorem Coherent.page (hc : Coherent entries L₀ root s L) {L' : Ledgered} (op : Op)
    (hr : Reached Held L₀ L' root) (hk : Kept entries L₀.hhdmOffset L root L')
    (hop : ∀ c, op ≠ .client c) :
    Coherent entries L₀ root ⟨erase L', s.held⟩ L' ∧
      Isolated entries L₀.hhdmOffset s op ⟨erase L', s.held⟩ := by
  have hcoherent : Coherent entries L₀ root ⟨erase L', s.held⟩ L' := by
    constructor
    · rfl
    · exact hr
    · exact hk.1.books
    · intro f hf
      exact hk.2.data (hc.held f hf)
    · exact hc.once
  refine ⟨hcoherent, hcoherent.isolated ?_ ?_ ?_⟩
  · intro f hf hfree
    exact absurd hf hfree
  · intro f hf k hlt _
    exact hc.bytes hk hf hlt
  · intro c hc
    exact absurd hc (hop c)

/-- A call on the page tables takes frames that nobody holds, and writes to none that is held. -/
theorem Coherent.paging (hc : Coherent entries L₀ root s L)
    (hd : DirectMapped entries L₀.hhdmOffset) {c : Vmm.Call} (hok : CallOk s.vmm c) {a : Nat}
    (h : exec s (.paging c) = .ok (a, s')) :
    (∃ L', Coherent entries L₀ root s' L') ∧
      Isolated entries L₀.hhdmOffset s (.paging c) s' := by
  have hA : Lawful (ledger entries L₀.hhdmOffset) Held L₀.hhdmOffset := ledger_lawful hd
  have hokL : CallOk L c := by
    rw [← hc.erased] at hok
    cases c with
    | map virt phys flags => exact hok
    | unmap virt => exact hok
  -- the call with the ledger
  obtain ⟨L', hL', hkept, rfl⟩ : ∃ L', Vmm.exec (ledger entries L₀.hhdmOffset) L c = .ok L' ∧
      Kept entries L₀.hhdmOffset L root L' ∧ s' = ⟨erase L', s.held⟩ := by
    cases c with
    | map virt phys flags =>
        cases hmap : vmmMap frames s.vmm virt phys flags with
        | error e =>
            rw [exec, Vmm.exec, hmap] at h
            cases h
        | ok v =>
            rw [exec, Vmm.exec, hmap] at h
            rw [← hc.erased] at hmap
            obtain ⟨L', hL', rfl, hkept⟩ :=
              (vmmMap_erases hd hc.sound hokL.1 hokL.2.1 hokL.2.2).of_ok hmap
            exact ⟨L', hL', hkept, (congrArg Prod.snd (Except.ok.inj h)).symm⟩
    | unmap virt =>
        refine ⟨vmmUnmap L virt, rfl, vmmUnmap_kept hd hc.sound hokL, ?_⟩
        have hs' : s' = ⟨vmmUnmap s.vmm virt, s.held⟩ :=
          (congrArg Prod.snd (Except.ok.inj h)).symm
        rw [hs', ← hc.erased, ← vmmUnmap_erase]
  have hcall : Guarded (OpStep (ledger entries L₀.hhdmOffset) Held) OpOk L (.call c) L' :=
    ⟨hokL, hL'⟩
  have hreached := hc.reached.step hA hcall
  obtain ⟨hcoherent, hisolated⟩ := hc.page (.paging c) hreached hkept
    fun d hd => Op.noConfusion hd
  exact ⟨⟨L', hcoherent⟩, hisolated⟩

/-- The frames behind the pages of a region. -/
theorem Provided.regionFrames_eq {virt size flags : Nat} {frames : List Nat} {L' : Ledgered}
    {h : Nat} (hp : Provided entries h L root virt flags 0 frames L')
    (hlen : frames.length = regionPages size) (hmask : flags &&& physAddrMask = 0)
    (hpages : ∀ i < frames.length, ∀ j < frames.length,
      SamePage (add64 virt (i * pageSize)) (add64 virt (j * pageSize)) → i = j) :
    regionFrames (erase L') virt size = frames.map (· / pageSize) := by
  apply List.ext_getElem
  · simp [regionFrames, hlen]
  · intro i hi hi'
    have hin : i < frames.length := by simpa using hi'
    have hmem : frames[i] ∈ frames := List.getElem_mem hin
    have hplace := hp.region.place_page hpages hin (v := add64 virt (i * pageSize)) rfl
    have hphys : vmmGetPhys L' (add64 virt (i * pageSize)) =
        frames[i] + add64 virt (i * pageSize) % pageSize := by
      rw [vmmGetPhys_place hp.region.inv, hplace, List.getD_eq_getElem _ _ hin, Option.elim_some,
        translate_smallEntry (hp.region.frame _ hmem) hmask]
    obtain ⟨q, hq⟩ := (hp.region.frame _ hmem).1
    have hlow : add64 virt (i * pageSize) % pageSize < pageSize := Nat.mod_lt _ (by decide)
    simp only [regionFrames, List.getElem_map, List.getElem_range]
    change vmmGetPhys L' (add64 virt (i * pageSize)) / pageSize = _
    rw [hphys, hq, Nat.mul_add_div (by decide), Nat.div_eq_of_lt hlow, Nat.add_zero,
      Nat.mul_div_cancel_left _ (by decide)]

/-- `vmm_map_region` takes its frames from the allocator, and the clients notice nothing. -/
theorem Coherent.region (hc : Coherent entries L₀ root s L)
    (hd : DirectMapped entries L₀.hhdmOffset) {virt size flags : Nat}
    (hok : Admissible s (.region virt size flags)) {a : Nat}
    (h : exec s (.region virt size flags) = .ok (a, s')) :
    (∃ L', Coherent entries L₀ root s' L') ∧
      Isolated entries L₀.hhdmOffset s (.region virt size flags) s' := by
  obtain ⟨hflags, hmask, hsize, hsmall⟩ := hok
  have hA : Lawful (ledger entries L₀.hhdmOffset) Held L₀.hhdmOffset := ledger_lawful hd
  have hsmallL : RegionSmall L virt size := by
    rw [← hc.erased] at hsmall
    exact hsmall
  cases hmap : vmmMapRegion frames s.vmm virt size flags with
  | error e =>
      rw [exec, hmap] at h
      cases h
  | ok v =>
      rw [exec, hmap] at h
      rw [← hc.erased] at hmap
      obtain ⟨L', hL', rfl, frames, hlen, hp⟩ :=
        (vmmMapRegion_erases hd hc.sound hflags hsize hsmallL).of_ok hmap
      have hs' : s' = ⟨erase L', regionFrames (erase L') virt size ++ s.held⟩ :=
        (congrArg Prod.snd (Except.ok.inj h)).symm
      rw [hp.regionFrames_eq hlen hmask (by
        rw [hlen]
        exact fun i hi j hj => hc.reached.region_pages hsmallL hi hj)] at hs'
      subst hs'
      have hcall : Guarded (OpStep (ledger entries L₀.hhdmOffset) Held) OpOk L
          (.region virt size flags) L' := ⟨⟨hflags, hsize, hsmallL⟩, hL'⟩
      have hreached := hc.reached.step hA hcall
      have hphys : ∀ g ∈ frames, g / pageSize * pageSize = g :=
        fun g hg => Nat.div_mul_cancel (hp.region.frame g hg).1
      -- the new frames are not yet held
      have hnew : ∀ g ∈ frames, g / pageSize ∉ s.held := by
        intro g hg hold
        have hdata := hc.held _ hold
        rw [hphys g hg] at hdata
        exact hp.region.fresh g hg hdata.1
      have hcoherent : Coherent entries L₀ root
          ⟨erase L', frames.map (· / pageSize) ++ s.held⟩ L' := by
        constructor
        · rfl
        · exact hreached
        · exact hp.kept.1.books
        · intro f hf
          rcases List.mem_append.1 hf with hf | hf
          · obtain ⟨g, hg, rfl⟩ := List.mem_map.1 hf
            rw [hphys g hg]
            exact hp.data g hg
          · exact hp.kept.2.data (hc.held f hf)
        · refine List.nodup_append.2 ⟨?_, hc.once, ?_⟩
          · refine List.Nodup.map_on ?_ hp.region.nodup
            intro x hx y hy hxy
            rw [← hphys x hx, ← hphys y hy, hxy]
          · rintro f hf g hg rfl
            obtain ⟨x, hx, rfl⟩ := List.mem_map.1 hf
            exact hnew x hx hg
      refine ⟨⟨L', hcoherent⟩, hcoherent.isolated ?_ ?_ ?_⟩
      · intro f hf hfree k hk
        rcases List.mem_append.1 hf with hf | hf
        · obtain ⟨g, hg, rfl⟩ := List.mem_map.1 hf
          rw [hphys g hg]
          exact hp.zeroed g hg k hk
        · exact absurd hf hfree
      · intro f hf k hk _
        exact hc.bytes hp.kept hf hk
      · intro c hc
        cases hc

/-! ## Every run -/

theorem Coherent.exec (hc : Coherent entries L₀ root s L)
    (hd : DirectMapped entries L₀.hhdmOffset) {op : Op} (hadm : Admissible s op) {a : Nat}
    (h : exec s op = .ok (a, s')) :
    (∃ L', Coherent entries L₀ root s' L') ∧ Isolated entries L₀.hhdmOffset s op s' := by
  cases op with
  | client c =>
      obtain ⟨a', s'', hexec, hcoherent, hisolated⟩ := hc.client hd hadm
      obtain ⟨-, rfl⟩ := Prod.mk.inj (Except.ok.inj (hexec.symm.trans h))
      exact ⟨hcoherent, hisolated⟩
  | paging c => exact hc.paging hd hadm h
  | region virt size flags => exact hc.region hd hadm h

end

/-- The system comes up: `pmm_init`, any calls of clients, such as that for the stack of the
double fault handler, and `vmm_init`. -/
structure Boots (entries : List Pmm.MemmapEntry) (h kernelPhys kernelVirt kernelSize : Nat)
    (s : System) : Prop where
  runs : ∃ m p₀ w, Pmm.pmmInit (.boot m) entries h = .ok p₀ ∧ Run Pmm.Step ⟨p₀, []⟩ w ∧
    vmmInit frames ⟨w.pmm.mem, h, 0, w.pmm⟩ kernelPhys kernelVirt kernelSize = .ok s.vmm ∧
    s.held = w.held

/-- What the boot loader promises. -/
structure BootArgs (entries : List Pmm.MemmapEntry) (h kernelVirt kernelSize : Nat) : Prop where
  memmap : Pmm.MemmapOk entries
  offset : h < 2 ^ 64
  direct : DirectMapped entries h
  width : (Pmm.scanEntries 0 entries).2 ≤ 2 ^ 52
  outside : KernelOutside h (Pmm.scanEntries 0 entries).2 kernelVirt kernelSize

section

variable {entries : List Pmm.MemmapEntry} {h kernelPhys kernelVirt kernelSize : Nat}

theorem clearFrames_steady (p : Pmm.PmmState) (f n : Nat) : Steady p (Pmm.clearFrames p f n) := by
  induction n generalizing p f with
  | zero => exact .refl p
  | succ n ih =>
      rw [Pmm.clearFrames]
      refine Steady.trans ?_ (ih _ _)
      split
      · exact ⟨rfl, rfl, rfl⟩
      · exact .refl p

theorem clearUsable_steady (p : Pmm.PmmState) (entries : List Pmm.MemmapEntry) :
    Steady p (Pmm.clearUsable p entries) := by
  induction entries generalizing p with
  | nil => exact .refl p
  | cons e entries ih =>
      rw [Pmm.clearUsable]
      split
      · exact Steady.trans (q := { p with totalMem := add64 p.totalMem e.length }) ⟨rfl, rfl, rfl⟩
          ((clearFrames_steady _ _ _).trans (ih _))
      · exact ih p

theorem markBitmapPages_steady (p : Pmm.PmmState) (f n : Nat) :
    Steady p (Pmm.markBitmapPages p f n) := by
  induction n generalizing p f with
  | zero => exact .refl p
  | succ n ih =>
      rw [Pmm.markBitmapPages]
      refine Steady.trans ?_ (ih _ _)
      split
      · exact .refl p
      · exact ⟨rfl, rfl, rfl⟩

/-- The passes of `pmm_init`, which end with the count of used memory. -/
theorem passes_statics {p t : Pmm.PmmState} {f n u : Nat}
    (ht : Pmm.markBitmapPages (Pmm.clearUsable p entries) f n = t) :
    ({ t with usedMem := u } : Pmm.PmmState).hhdmOffset = p.hhdmOffset ∧
      ({ t with usedMem := u } : Pmm.PmmState).maxPhys = p.maxPhys := by
  have hsteady : Steady p t := by
    rw [← ht]
    exact (clearUsable_steady p entries).trans (markBitmapPages_steady _ f n)
  exact ⟨hsteady.hhdmOffset, hsteady.maxPhys⟩

theorem pmmInit_statics {m : Mem} {p₀ : Pmm.PmmState}
    (hinit : Pmm.pmmInit (.boot m) entries h = .ok p₀) :
    p₀.hhdmOffset = h ∧ p₀.maxPhys = (Pmm.scanEntries 0 entries).2 := by
  obtain ⟨⟨highest, maxPhys⟩, hscan⟩ : ∃ r, Pmm.scanEntries 0 entries = r := ⟨_, rfl⟩
  have hscan' : Pmm.scanEntries (Pmm.PmmState.boot m).maxPhys entries = (highest, maxPhys) := hscan
  simp only [Pmm.pmmInit, hscan'] at hinit
  rw [hscan]
  split at hinit
  · cases hinit
  generalize ht : Pmm.markBitmapPages _ _ _ = t at hinit
  generalize sub64 t.totalMem _ = used at hinit
  obtain rfl := Except.ok.inj hinit
  exact passes_statics ht

theorem run_steady {w w' : Pmm.World} (hrun : Run Pmm.Step w w') : Steady w.pmm w'.pmm := by
  refine hrun.invariant (I := fun w' => Steady w.pmm w'.pmm) (.refl _) ?_
  rintro ⟨p, held⟩ c w'' hsteady ⟨-, a, hexec⟩
  rw [exec_eq] at hexec
  cases hanswer : answer p c with
  | error e =>
      rw [hanswer] at hexec
      cases hexec
  | ok r =>
      rw [hanswer] at hexec
      obtain rfl := congrArg Prod.snd (Except.ok.inj hexec)
      exact hsteady.trans (answer_steady hanswer)

/-- What `vmm_init` finds. -/
theorem early_books {m : Mem} {p₀ : Pmm.PmmState} {w : Pmm.World}
    (hargs : BootArgs entries h kernelVirt kernelSize)
    (hpmm : Pmm.pmmInit (.boot m) entries h = .ok p₀) (hearly : Run Pmm.Step ⟨p₀, []⟩ w) :
    Books entries h w w.pmm.mem ∧
      maxPhysAtInit (ledger entries h) ⟨w.pmm.mem, h, 0, w⟩ = (Pmm.scanEntries 0 entries).2 := by
  obtain ⟨hoff, hmax⟩ := pmmInit_statics hpmm
  have hsteady := run_steady hearly
  have hb : Books entries h w w.pmm.mem :=
    ⟨Pmm.run_inv hargs.memmap hargs.offset hpmm hearly, hsteady.hhdmOffset.trans hoff⟩
  refine ⟨hb, ?_⟩
  rw [maxPhysAtInit, hb.served, ← hmax, ← hsteady.maxPhys]
  exact (pmmAlloc_steady _).maxPhys

theorem early_outside {m : Mem} {p₀ : Pmm.PmmState} {w : Pmm.World}
    (hargs : BootArgs entries h kernelVirt kernelSize)
    (hpmm : Pmm.pmmInit (.boot m) entries h = .ok p₀) (hearly : Run Pmm.Step ⟨p₀, []⟩ w) :
    KernelOutside h (maxPhysAtInit (ledger entries h) ⟨w.pmm.mem, h, 0, w⟩) kernelVirt
      kernelSize := by
  rw [(early_books hargs hpmm hearly).2]
  exact hargs.outside

/-- The frames that `vmm_init` needs are used up when it returns. -/
theorem early_needs (kernelPhys : Nat) {m : Mem} {p₀ : Pmm.PmmState} {w : Pmm.World}
    (hargs : BootArgs entries h kernelVirt kernelSize) (hzero : ¬Pmm.UsableFrame entries 0)
    (hpmm : Pmm.pmmInit (.boot m) entries h = .ok p₀) (hearly : Run Pmm.Step ⟨p₀, []⟩ w) :
    Needs (Pmm.countFree w.pmm w.pmm.bitmapFrames)
      ((directTables h (Pmm.scanEntries 0 entries).2 ∪
        rangeTables kernelVirt (ksizeAligned kernelSize / pageSize)).card + 1)
      (vmmInit frames ⟨w.pmm.mem, h, 0, w.pmm⟩ kernelPhys kernelVirt kernelSize) freeFrames := by
  obtain ⟨hb, hmax⟩ := early_books hargs hpmm hearly
  have herases : Erases erase (Initialised entries h ⟨w.pmm.mem, h, 0, w⟩)
      (vmmInit (ledger entries h) ⟨w.pmm.mem, h, 0, w⟩ kernelPhys kernelVirt kernelSize) _ :=
    vmmInit_erases hargs.direct hb rfl (early_outside hargs hpmm hearly)
  exact Needs.erase herases (vmmInit_needs hargs.direct hzero hb rfl hmax hargs.outside)

/-- Sixteen usable frames, and a device below 1 GiB. -/
def smallMap : List Pmm.MemmapEntry := [⟨0x1000, 0x10000, 0⟩, ⟨0x3FFFF000, 0x1000, 1⟩]

theorem smallMap_args : BootArgs smallMap 0xFFFF800000000000 0xFFFFFFFF80000000 0x1000 := by
  constructor
  · exact ⟨by decide, by decide⟩
  · decide
  · unfold DirectMapped
    decide
  · decide
  · exact machine_outside

theorem smallMap_zero : ¬Pmm.UsableFrame smallMap 0 := by
  unfold Pmm.UsableFrame
  decide

theorem smallMap_free : ∃ p₀, Pmm.pmmInit (.boot fun _ => 0) smallMap 0xFFFF800000000000 = .ok p₀ ∧
    Pmm.countFree p₀ p₀.bitmapFrames = 15 := by
  have hcount : (Pmm.pmmInit (.boot fun _ => 0) smallMap 0xFFFF800000000000).map
      (fun p => Pmm.countFree p p.bitmapFrames) = .ok 15 := by decide +kernel
  obtain ⟨p₀, hp⟩ : ∃ p₀, Pmm.pmmInit (.boot fun _ => 0) smallMap 0xFFFF800000000000 = .ok p₀ :=
    ⟨_, rfl⟩
  rw [hp] at hcount
  exact ⟨p₀, hp, Except.ok.inj hcount⟩

/-- The tables of 4 GiB of direct map, and of the page of the kernel image. -/
def smallTables : Finset (List (Fin 512)) :=
  {[256], [256, 0], [256, 1], [256, 2], [256, 3]} ∪ {[511], [511, 510], [511, 510, 0]}

/-- The tables of the direct map of four gigabytes. -/
theorem directTables_small {maxPhys : Nat} (hmax : hhdmMapSize maxPhys / 0x200000 = 2048) :
    directTables 0xFFFF800000000000 maxPhys ⊆ smallTables := by
  intro q hq
  rw [directTables, Finset.mem_biUnion, hmax] at hq
  obtain ⟨k, hk, hq⟩ := hq
  rw [Finset.mem_range] at hk
  have haddr : add64 (k * 0x200000) 0xFFFF800000000000 = 0xFFFF800000000000 + k * 0x200000 := by
    unfold add64
    omega
  have hpml4 : pos (pml4Idx (add64 (k * 0x200000) 0xFFFF800000000000)) = 256 := by
    apply Fin.ext
    rw [haddr]
    simp only [pos, pml4Idx, Nat.shiftRight_eq_div_pow, Nat.and_two_pow_sub_one_eq_mod _ 9]
    change _ = 256
    omega
  have hpdpt : (pos (pdptIdx (add64 (k * 0x200000) 0xFFFF800000000000))).val = k / 512 := by
    rw [haddr]
    simp only [pos, pdptIdx, Nat.shiftRight_eq_div_pow, Nat.and_two_pow_sub_one_eq_mod _ 9]
    omega
  rw [upperTables, hpml4, Finset.mem_union, Finset.mem_singleton, Finset.mem_singleton] at hq
  generalize pos (pdptIdx (add64 (k * 0x200000) 0xFFFF800000000000)) = i at hq hpdpt
  have hquarter : i = 0 ∨ i = 1 ∨ i = 2 ∨ i = 3 := by
    rw [Fin.ext_iff, Fin.ext_iff, Fin.ext_iff, Fin.ext_iff]
    change i.val = 0 ∨ i.val = 1 ∨ i.val = 2 ∨ i.val = 3
    omega
  rcases hq with rfl | rfl
  · decide
  · rcases hquarter with rfl | rfl | rfl | rfl
    all_goals decide

theorem rangeTables_small : rangeTables 0xFFFFFFFF80000000 1 ⊆ smallTables := by
  decide

theorem smallTables_card {maxPhys : Nat} (hmax : hhdmMapSize maxPhys / 0x200000 = 2048) :
    (directTables 0xFFFF800000000000 maxPhys ∪ rangeTables 0xFFFFFFFF80000000 1).card ≤ 8 := by
  have hsub := Finset.union_subset (directTables_small hmax) rangeTables_small
  exact (Finset.card_le_card hsub).trans (by decide)

theorem smallMap_boots :
    ∃ s, Boots smallMap 0xFFFF800000000000 0x200000 0xFFFFFFFF80000000 0x1000 s := by
  obtain ⟨p₀, hp, hfree⟩ := smallMap_free
  have hneeds := early_needs 0x200000 smallMap_args smallMap_zero hp .refl
  have hmax : hhdmMapSize (Pmm.scanEntries 0 smallMap).2 / 0x200000 = 2048 := by decide
  have hcard := smallTables_card hmax
  rw [ksizeAligned_page] at hneeds
  obtain ⟨v, hv⟩ := hneeds.returns.2 (by rw [hfree]; omega)
  exact ⟨⟨v, []⟩, _, p₀, ⟨p₀, []⟩, hp, .refl, hv, rfl⟩

/-- `vmm_init` returns if and only if there is a frame for the PML4 and one for each table
of the direct map and of the kernel image, and it uses no others. -/
theorem vmm_init_needs (kernelPhys : Nat) {m : Mem} {p₀ : Pmm.PmmState} {w : Pmm.World}
    (hargs : BootArgs entries h kernelVirt kernelSize) (hzero : ¬Pmm.UsableFrame entries 0)
    (hpmm : Pmm.pmmInit (.boot m) entries h = .ok p₀) (hearly : Run Pmm.Step ⟨p₀, []⟩ w) :
    ((∃ v, vmmInit frames ⟨w.pmm.mem, h, 0, w.pmm⟩ kernelPhys kernelVirt kernelSize = .ok v) ↔
      (directTables h (Pmm.scanEntries 0 entries).2 ∪
        rangeTables kernelVirt (ksizeAligned kernelSize / pageSize)).card + 1 ≤
          Pmm.countFree w.pmm w.pmm.bitmapFrames) ∧
    ∀ v, vmmInit frames ⟨w.pmm.mem, h, 0, w.pmm⟩ kernelPhys kernelVirt kernelSize = .ok v →
      freeFrames v + ((directTables h (Pmm.scanEntries 0 entries).2 ∪
        rangeTables kernelVirt (ksizeAligned kernelSize / pageSize)).card + 1) =
          Pmm.countFree w.pmm w.pmm.bitmapFrames := by
  have hneeds := early_needs kernelPhys hargs hzero hpmm hearly
  exact ⟨hneeds.returns, hneeds.uses⟩

/-- It comes up with the fifteen frames that the bitmap leaves. -/
theorem vmm_init_needs_small : ∃ p₀ v,
    Pmm.pmmInit (.boot fun _ => 0) smallMap 0xFFFF800000000000 = .ok p₀ ∧
    vmmInit frames ⟨p₀.mem, 0xFFFF800000000000, 0, p₀⟩ 0x200000 0xFFFFFFFF80000000 0x1000 =
      .ok v ∧ 6 ≤ freeFrames v := by
  obtain ⟨p₀, hp, hfree⟩ := smallMap_free
  have hneeds := vmm_init_needs 0x200000 smallMap_args smallMap_zero hp .refl
  have hmax : hhdmMapSize (Pmm.scanEntries 0 smallMap).2 / 0x200000 = 2048 := by decide
  have hcard := smallTables_card hmax
  rw [ksizeAligned_page] at hneeds
  obtain ⟨v, hv⟩ := hneeds.1.2 (by rw [hfree]; omega)
  have huses := hneeds.2 v hv
  rw [hfree] at huses
  exact ⟨p₀, v, hp, hv, by omega⟩

/-- A system that comes up does so with a ledger. -/
theorem boots_ledger {s : System} (hargs : BootArgs entries h kernelVirt kernelSize)
    (hboot : Boots entries h kernelPhys kernelVirt kernelSize s) :
    ∃ L₀ L : Ledgered, L₀.hhdmOffset = h ∧
      maxPhysAtInit (ledger entries h) L₀ = (Pmm.scanEntries 0 entries).2 ∧
      vmmInit (ledger entries h) L₀ kernelPhys kernelVirt kernelSize = .ok L ∧
      erase L = s.vmm ∧ Initialised entries h L₀ L ∧ L₀.pmm.held = s.held ∧ s.held.Nodup := by
  obtain ⟨m, p₀, w, hpmm, hearly, hvmm, hheld⟩ := hboot.runs
  obtain ⟨hb, hmax⟩ := early_books hargs hpmm hearly
  obtain ⟨L, hL, herased, hinit⟩ := (vmmInit_erases (s := ⟨w.pmm.mem, h, 0, w⟩) hargs.direct hb
    rfl (early_outside hargs hpmm hearly)).of_ok hvmm
  refine ⟨_, L, rfl, hmax, hL, herased, hinit, hheld.symm, ?_⟩
  rw [hheld]
  exact hb.inv.nodup

theorem boots_coherent {s : System} (hargs : BootArgs entries h kernelVirt kernelSize)
    (hboot : Boots entries h kernelPhys kernelVirt kernelSize s) :
    ∃ L₀ root L, L₀.hhdmOffset = h ∧ Coherent entries L₀ root s L := by
  obtain ⟨L₀, L, rfl, hmax, hL, herased, hinit, hheld, hnodup⟩ := boots_ledger hargs hboot
  have hout := hargs.outside
  rw [← hmax] at hout
  obtain ⟨root, hreached⟩ := vmmInit_reached (ledger_lawful hargs.direct)
    (by rw [hmax]; exact hargs.width) hout hL
  obtain ⟨root', hsound, hdata⟩ := hinit.sound
  obtain rfl : root = root' := hreached.inv.pml4Frame.symm.trans hsound.inv.pml4Frame
  refine ⟨L₀, root, L, rfl, herased, hreached, hsound.books, ?_, hnodup⟩
  intro f hf
  refine hdata _ ⟨Nat.dvd_mul_left _ _, ?_⟩
  rw [mul_div_pageSize, hheld]
  exact hf

/-- There are no large pages outside the direct map. -/
theorem boots_noHuge {s : System} (hargs : BootArgs entries h kernelVirt kernelSize)
    (hboot : Boots entries h kernelPhys kernelVirt kernelSize s) {v : Nat}
    (hv : ¬InDirectMap h (Pmm.scanEntries 0 entries).2 v) : NoHuge s.vmm v := by
  obtain ⟨L₀, L, rfl, hmax, hL, herased, -⟩ := boots_ledger hargs hboot
  have hout := hargs.outside
  rw [← hmax] at hout hv
  rw [← herased]
  exact noHuge_outside (s := L) (ledger_lawful hargs.direct) hout hL .refl hv

/-- The system and its ledger agree in every state of every run. -/
theorem run_coherent {s₀ s : System} (hargs : BootArgs entries h kernelVirt kernelSize)
    (hboot : Boots entries h kernelPhys kernelVirt kernelSize s₀) (hrun : Run Step s₀ s) :
    ∃ L₀ root L, L₀.hhdmOffset = h ∧ Coherent entries L₀ root s L := by
  obtain ⟨L₀, root, L, rfl, hc⟩ := boots_coherent hargs hboot
  have hinv : ∃ L, Coherent entries L₀ root s L := by
    refine hrun.invariant (I := fun s => ∃ L, Coherent entries L₀ root s L) ⟨L, hc⟩ ?_
    rintro t e t' ⟨L, hc⟩ ⟨hadm, a, hexec⟩
    exact (hc.exec hargs.direct hadm hexec).1
  obtain ⟨L, hc⟩ := hinv
  exact ⟨L₀, root, L, rfl, hc⟩

/-- In every run of the system after `vmm_init`, with the calls on frames and on page tables
in any order: a call of a client returns, and whatever call returns, no frame has two
holders, and none is held that is a page table, part of the bitmap or no usable memory; what
is held anew is zeroed; no call but its holder's changes a byte that is held, and no call of
a client changes a translation. -/
theorem memory_isolation {s₀ s : System} (hargs : BootArgs entries h kernelVirt kernelSize)
    (hboot : Boots entries h kernelPhys kernelVirt kernelSize s₀) (hrun : Run Step s₀ s) {op : Op}
    (hadm : Admissible s op) :
    (∀ c, op = .client c → ∃ a s', exec s op = .ok (a, s')) ∧
      ∀ a s', exec s op = .ok (a, s') → Isolated entries h s op s' := by
  obtain ⟨L₀, root, L, rfl, hc⟩ := run_coherent hargs hboot hrun
  constructor
  · rintro c rfl
    obtain ⟨a, s', hexec, -, -⟩ := hc.client hargs.direct hadm
    exact ⟨a, s', hexec⟩
  · intro a s' hexec
    exact (hc.exec hargs.direct hadm hexec).2

/-- The first frame for a client. -/
theorem memory_isolation_small : ∃ s a s',
    Boots smallMap 0xFFFF800000000000 0x200000 0xFFFFFFFF80000000 0x1000 s ∧
    exec s (.client .alloc) = .ok (a, s') ∧
    Isolated smallMap 0xFFFF800000000000 s (.client .alloc) s' := by
  obtain ⟨s, hs⟩ := smallMap_boots
  have hadm : Admissible s (.client .alloc) := trivial
  obtain ⟨hreturns, hisolated⟩ := memory_isolation smallMap_args hs .refl hadm
  obtain ⟨a, s', hexec⟩ := hreturns .alloc rfl
  exact ⟨s, a, s', hs, hexec, hisolated a s' hexec⟩

/-- In every state of every run, `vmm_map` and `vmm_map_region` return if and only if there
is a frame for each table that is missing on the way to the pages, and for
`vmm_map_region` one for each page; they use these frames, and no others. -/
theorem paging_needs {s₀ s : System} (hargs : BootArgs entries h kernelVirt kernelSize)
    (hzero : ¬Pmm.UsableFrame entries 0)
    (hboot : Boots entries h kernelPhys kernelVirt kernelSize s₀) (hrun : Run Step s₀ s) :
    (∀ virt phys flags, Admissible s (.paging (.map virt phys flags)) →
      Needs (freeFrames s.vmm) (missing s.vmm (pml4Frame s.vmm) (pageTables virt))
        (exec s (.paging (.map virt phys flags))) fun r => freeFrames r.2.vmm) ∧
    ∀ virt size flags, Admissible s (.region virt size flags) →
      Needs (freeFrames s.vmm)
        (regionPages size + missing s.vmm (pml4Frame s.vmm) (rangeTables virt (regionPages size)))
        (exec s (.region virt size flags)) fun r => freeFrames r.2.vmm := by
  obtain ⟨L₀, root, L, rfl, hc⟩ := run_coherent hargs hboot hrun
  have hs := hc.sound
  have hroot : pml4Frame s.vmm = root := by
    rw [← hc.erased]
    exact hs.inv.pml4Frame
  -- free frames and missing tables are those of the ledger
  have hleft : freeFrames s.vmm = left L := by rw [left, hc.erased]
  have hmissing : ∀ Q, missing s.vmm root Q = missing L root Q := by
    intro Q
    rw [← hc.erased]
    rfl
  rw [hroot, hleft]
  constructor
  · intro virt phys flags hadm
    rw [Admissible, ← hc.erased] at hadm
    obtain ⟨hv, hphys, hflags⟩ := hadm
    have hneeds := (vmmMap_makes hargs.direct hzero hs hv hphys hflags).needs
    have herases := vmmMap_erases hargs.direct hs hv hphys hflags
    rw [hc.erased] at herases
    rw [hmissing]
    refine Needs.map ?_
    exact Needs.erase herases hneeds
  · intro virt size flags hadm
    rw [Admissible, ← hc.erased] at hadm
    obtain ⟨hflags, -, hsize, hsmall⟩ := hadm
    have herases := vmmMapRegion_erases hargs.direct hs hflags hsize hsmall
    rw [hc.erased] at herases
    have hneeds := vmmMapRegion_needs hargs.direct hzero hs hflags hsize hsmall
    rw [hmissing]
    refine Needs.map ?_
    exact Needs.erase herases hneeds

/-- A page of the heap. -/
theorem paging_needs_small : ∃ s,
    Boots smallMap 0xFFFF800000000000 0x200000 0xFFFFFFFF80000000 0x1000 s ∧
    Needs (freeFrames s.vmm) (missing s.vmm (pml4Frame s.vmm) (pageTables 0xFFFFC00000000000))
      (exec s (.paging (.map 0xFFFFC00000000000 0x300000 3))) fun r => freeFrames r.2.vmm := by
  obtain ⟨s, hs⟩ := smallMap_boots
  have hsmall : NoHuge s.vmm 0xFFFFC00000000000 :=
    boots_noHuge smallMap_args hs (outside_bump (by decide) (by decide))
  exact ⟨s, hs, (paging_needs smallMap_args smallMap_zero hs .refl).1 _ _ _
    ⟨hsmall, by decide, by decide⟩⟩

end

end PolandOS.Mm
