import Mathlib.Data.UInt
import PolandOS.Lib.ByteMem
import PolandOS.Lib.Logged
import PolandOS.Machine

/-! # The tables of ACPI

`parse_madt`, `parse_mcfg` and the loops over the entries of the XSDT and the RSDT in
`kernel/acpi/acpi.c`, with all bytes that they read. `reads_within_iff` says of which tables
nothing is read behind the end.
-/

namespace PolandOS.Acpi

open ByteMem Logging Logged

/-! ## The parsers -/

/-- Some bytes of a table are read. -/
structure Read where
  table : Nat
  off : Nat
  size : Nat
  deriving DecidableEq, Repr

/-- What is printed, with the numbers in it. -/
inductive Message
  | cpu (apicId : Nat)
  | ioapic (addr gsiBase : Nat)
  | madt (lapicPhys ioapicPhys : UInt64)
  | mcfg (base seg startBus endBus : Nat)
  | tables (n : UInt32)
  | badChecksum
  deriving DecidableEq, Repr

/-- The globals of `acpi.c`, without those of the tables that are not modelled, and
`ioapic_base`. -/
structure Globals where
  lapicPhys : UInt64
  ioapicPhys : UInt64
  ioapicGsiBase : UInt32
  ioapicBase : UInt64
  mcfgPhys : UInt64
  mcfgLen : UInt64
  tables : List Nat
  printed : List Message
  deriving DecidableEq, Repr

def Globals.print (s : Globals) (m : Message) : Globals := { s with printed := s.printed ++ [m] }

/-- `ACPI_MAX_TABLES`. -/
def acpiMaxTables : Nat := 64

/-- `sizeof(ACPITableHeader)`. -/
def headerSize : Nat := 36

/-- `sizeof(MADT)`. -/
def madtSize : Nat := 44

/-- `sizeof(MCFGTable)`. -/
def mcfgSize : Nat := 44

/-- `sizeof(MCFGAllocation)`. -/
def mcfgAllocationSize : Nat := 16

/-- Some bytes at an offset of the table. -/
def load (mem : Mem) (t off size : Nat) : Logged Read Empty Nat :=
  ⟨[⟨t, off, size⟩], .ok (readLE mem (t + off) size)⟩

/-- The loop of `acpi_validate_checksum`, with so many bytes to go. -/
def checksumLoop (mem : Mem) (t : Nat) : Nat → Nat → UInt8 → Logged Read Empty UInt8
  | 0, _, sum => pure sum
  | k + 1, i, sum => do
    let byte ← load mem t i 1
    checksumLoop mem t k (i + 1) (sum + byte.toUInt8)

/-- `acpi_validate_checksum`. -/
def acpiValidateChecksum (mem : Mem) (t : Nat) : Logged Read Empty Bool := do
  let length ← load mem t 4 4
  let sum ← checksumLoop mem t length 0 0
  pure (sum == 0)

/-- The switch of `parse_madt`, on an entry at the offset `p`. -/
def madtEntry (mem : Mem) (t p type : Nat) (s : Globals) : Logged Read Empty Globals :=
  if type = 0 then do
    let flags ← load mem t (p + 4) 4
    if flags % 2 = 1 then do
      let apicId ← load mem t (p + 3) 1
      pure (s.print (.cpu apicId))
    else pure s
  else if type = 1 then do
    let addr ← load mem t (p + 4) 4
    let gsiBase ← load mem t (p + 8) 4
    let s := if s.ioapicPhys = 0 then
        { s with
          ioapicPhys := addr.toUInt64
          ioapicGsiBase := gsiBase.toUInt32
          ioapicBase := addr.toUInt64 }
      else s
    pure (s.print (.ioapic addr gsiBase))
  else if type = 5 then do
    let addr64 ← load mem t (p + 4) 8
    pure { s with lapicPhys := addr64.toUInt64 }
  else pure s

/-- The loop of `parse_madt`. `stop` is the offset of `end`. -/
def madtLoop (mem : Mem) (t stop p : Nat) (s : Globals) : Logged Read Empty Globals :=
  if _hp : p < stop then do
    let length ← load mem t (p + 1) 1
    if _hlength : length < 2 then pure s
    else do
      let type ← load mem t p 1
      let s ← madtEntry mem t p type s
      madtLoop mem t stop (p + length) s
  else pure s
termination_by stop - p

/-- `parse_madt`. -/
def parseMadt (mem : Mem) (t : Nat) (s : Globals) : Logged Read Empty Globals := do
  let lapicAddr ← load mem t 36 4
  let length ← load mem t 4 4
  let entriesLen : UInt32 := length.toUInt32 - madtSize.toUInt32
  let s ← madtLoop mem t (madtSize + entriesLen.toNat) madtSize
    { s with lapicPhys := lapicAddr.toUInt64 }
  pure (s.print (.madt s.lapicPhys s.ioapicPhys))

/-- `parse_mcfg`. -/
def parseMcfg (mem : Mem) (t : Nat) (s : Globals) : Logged Read Empty Globals := do
  let length ← load mem t 4 4
  let remaining : UInt32 := length.toUInt32 - mcfgSize.toUInt32
  if remaining ≥ mcfgAllocationSize.toUInt32 then do
    let base ← load mem t mcfgSize 8
    let seg ← load mem t (mcfgSize + 8) 2
    let startBus ← load mem t (mcfgSize + 10) 1
    let endBus ← load mem t (mcfgSize + 11) 1
    pure ({ s with mcfgPhys := base.toUInt64, mcfgLen := length.toUInt64 }.print
      (.mcfg base seg startBus endBus))
  else pure s

/-- The loops over the entries of the XSDT and the RSDT, with `k` entries of `width` bytes to
go. -/
def entryLoop (mem : Mem) (hhdm t width : Nat) : Nat → Nat → Globals → Logged Read Empty Globals
  | 0, _, s => pure s
  | k + 1, i, s =>
    if s.tables.length < acpiMaxTables then do
      let phys ← load mem t (headerSize + width * i) width
      let tbl := add64 phys hhdm
      let valid ← acpiValidateChecksum mem tbl
      entryLoop mem hhdm t width k (i + 1)
        (if valid then { s with tables := s.tables ++ [tbl] } else s)
    else pure s

/-- A branch of `acpi_init`: the checksum, the number of the entries and the loop. -/
def loadEntries (mem : Mem) (hhdm t width : Nat) (s : Globals) : Logged Read Empty Globals := do
  let valid ← acpiValidateChecksum mem t
  if valid then do
    let length ← load mem t 4 4
    let n : UInt32 := ((length.toUInt64 - headerSize.toUInt64) / width.toUInt64).toUInt32
    entryLoop mem hhdm t width n.toNat 0 (s.print (.tables n))
  else pure (s.print .badChecksum)

/-- The branch of the XSDT. -/
def loadXsdt (mem : Mem) (hhdm t : Nat) (s : Globals) : Logged Read Empty Globals :=
  loadEntries mem hhdm t 8 s

/-- The branch of the RSDT. -/
def loadRsdt (mem : Mem) (hhdm t : Nat) (s : Globals) : Logged Read Empty Globals :=
  loadEntries mem hhdm t 4 s

/-! ## Which tables -/

/-- `header.length`. -/
def tableLength (mem : Mem) (t : Nat) : Nat := readLE mem (t + 4) 4

/-- A byte of a table. -/
def tableByte (mem : Mem) (t off : Nat) : Nat := readLE mem (t + off) 1

/-- The bytes of the table sum to zero. -/
def SumsToZero (mem : Mem) (t : Nat) : Prop :=
  ((List.range (tableLength mem t)).map fun i => (tableByte mem t i).toUInt8).sum = 0

instance (mem : Mem) (t : Nat) : Decidable (SumsToZero mem t) := inferInstanceAs (Decidable (_ = _))

/-- What is read belongs to the header or to the length that the header gives. -/
def Within (mem : Mem) (r : Read) : Prop :=
  r.off + r.size ≤ headerSize ∨ r.off + r.size ≤ tableLength mem r.table

/-- Following the lengths of the entries from `p` on leads to an entry at `q`. -/
inductive EntryFrom (mem : Mem) (t : Nat) : Nat → Nat → Prop
  | here (p : Nat) : EntryFrom mem t p p
  | next {p q : Nat} (hp : p < tableLength mem t) (hlength : 2 ≤ tableByte mem t (p + 1))
      (h : EntryFrom mem t (p + tableByte mem t (p + 1)) q) : EntryFrom mem t p q

/-- How much `parse_madt` uses of an entry of this type. -/
def entrySize (type : Nat) : Nat :=
  if type = 0 then 8 else if type = 1 then 12 else if type = 5 then 12 else 2

/-- An entry ends with the table, as far as it is used; where its length is less than two,
only this length is. -/
def EntryFits (mem : Mem) (t p : Nat) : Prop :=
  p + 2 ≤ tableLength mem t ∧ (2 ≤ tableByte mem t (p + 1) →
    p + entrySize (tableByte mem t p) ≤ tableLength mem t)

/-- The parsers of a table. -/
inductive TableParser
  | madt
  | mcfg
  | xsdt
  | rsdt
  deriving DecidableEq, Repr

def TableParser.run (mem : Mem) (hhdm t : Nat) (s : Globals) : TableParser → Logged Read Empty Globals
  | madt => parseMadt mem t s
  | mcfg => parseMcfg mem t s
  | xsdt => loadXsdt mem hhdm t s
  | rsdt => loadRsdt mem hhdm t s

/-- The tables of which nothing is read behind the end: those that are as long as the fixed
part, and for the MADT the entries end with the table. The loops of the XSDT and the RSDT do
not begin where no more tables are taken. -/
def TableParser.Fits (mem : Mem) (t : Nat) (s : Globals) : TableParser → Prop
  | madt => madtSize ≤ tableLength mem t ∧
      ∀ p, EntryFrom mem t madtSize p → p < tableLength mem t → EntryFits mem t p
  | mcfg => mcfgSize ≤ tableLength mem t
  | xsdt => headerSize ≤ tableLength mem t ∨ acpiMaxTables ≤ s.tables.length
  | rsdt => headerSize ≤ tableLength mem t ∨ acpiMaxTables ≤ s.tables.length

/-! ## What is read -/

variable {mem : Mem} {hhdm t p : Nat} {s : Globals} {α : Type}

theorem tableLength_lt (mem : Mem) (t : Nat) : tableLength mem t < 2 ^ 32 := readLE_lt mem (t + 4) 4

theorem within_header {off size : Nat} (h : off + size ≤ headerSize) : Within mem ⟨t, off, size⟩ :=
  .inl h

/-- Behind the header. -/
theorem within_iff {off size : Nat} (hoff : headerSize ≤ off) (hsize : 0 < size) :
    Within mem ⟨t, off, size⟩ ↔ off + size ≤ tableLength mem t := by
  unfold Within
  dsimp only
  omega

theorem exists_ok (x : Logged Read Empty α) : ∃ a, x.result = .ok a := by
  cases h : x.result with
  | error k => exact nomatch k
  | ok a => exact ⟨a, rfl⟩

theorem all_load_bind {P : Read → Prop} {off n : Nat} {f : Nat → Logged Read Empty α} :
    (load mem t off n >>= f).All P ↔ P ⟨t, off, n⟩ ∧ (f (readLE mem (t + off) n)).All P := by
  rw [all_bind_of_ok (a := readLE mem (t + off) n) rfl]
  exact and_congr (by simp [All, load]) Iff.rfl

theorem result_load_bind {off n : Nat} {f : Nat → Logged Read Empty α} :
    (load mem t off n >>= f).result = (f (readLE mem (t + off) n)).result :=
  result_bind_of_ok rfl

/-- All bytes of a table are read, and their sum is computed. -/
theorem checksumLoop_eq (k i : Nat) (sum : UInt8) :
    (checksumLoop mem t k i sum).result =
        .ok (sum + ((List.range' i k).map fun i => (tableByte mem t i).toUInt8).sum) ∧
      (i + k ≤ tableLength mem t → (checksumLoop mem t k i sum).All (Within mem)) := by
  induction k generalizing i sum with
  | zero => exact ⟨by simp [checksumLoop], fun _ => all_pure _⟩
  | succ k ih =>
      rcases ih (i + 1) (sum + (tableByte mem t i).toUInt8) with ⟨hresult, hall⟩
      rw [checksumLoop, result_load_bind, all_load_bind]
      constructor
      · change (checksumLoop mem t k (i + 1) (sum + (tableByte mem t i).toUInt8)).result = _
        rw [hresult, List.range'_succ, List.map_cons, List.sum_cons, UInt8.add_assoc]
      · intro hle
        exact ⟨.inr (by change i + 1 ≤ tableLength mem t; omega), hall (by omega)⟩

/-- `acpi_validate_checksum` stays in the table, and says whether the bytes sum to zero. -/
theorem acpiValidateChecksum_eq (mem : Mem) (t : Nat) :
    (acpiValidateChecksum mem t).result = .ok (decide (SumsToZero mem t)) ∧
      (acpiValidateChecksum mem t).All (Within mem) := by
  unfold acpiValidateChecksum
  rw [result_load_bind, all_load_bind]
  change ((checksumLoop mem t (tableLength mem t) 0 0 >>= fun sum => pure (sum == 0))).result = _ ∧
    _ ∧ (checksumLoop mem t (tableLength mem t) 0 0 >>= fun sum => pure (sum == 0)).All (Within mem)
  have hloop : (checksumLoop mem t (tableLength mem t) 0 0).result = _ ∧ _ := checksumLoop_eq _ _ _
  rcases hloop with ⟨hresult, hall⟩
  rw [result_bind_of_ok hresult, all_bind_of_ok hresult, UInt8.zero_add, ← List.range_eq_range']
  exact ⟨rfl, within_header (by decide), hall (by omega), all_pure _⟩

/-! ## The MADT -/

/-- An entry is used as far as its type says. -/
theorem all_madtEntry_iff {type : Nat} (hp : headerSize ≤ p) (htwo : p + 2 ≤ tableLength mem t) :
    (madtEntry mem t p type s).All (Within mem) ↔ p + entrySize type ≤ tableLength mem t := by
  unfold madtEntry entrySize
  by_cases hcpu : type = 0
  · rw [if_pos hcpu, if_pos hcpu, all_load_bind, within_iff (by omega) (by omega)]
    by_cases hflags : readLE mem (t + (p + 4)) 4 % 2 = 1
    · rw [if_pos hflags, all_load_bind, within_iff (by omega) (by omega)]
      simp only [all_pure, and_true]
      omega
    · rw [if_neg hflags]
      simp only [all_pure, and_true]
  rw [if_neg hcpu, if_neg hcpu]
  by_cases hioapic : type = 1
  · rw [if_pos hioapic, if_pos hioapic, all_load_bind, all_load_bind,
      within_iff (by omega) (by omega), within_iff (by omega) (by omega)]
    simp only [all_pure, and_true]
    omega
  rw [if_neg hioapic, if_neg hioapic]
  by_cases haddress : type = 5
  · rw [if_pos haddress, if_pos haddress, all_load_bind, within_iff (by omega) (by omega)]
    simp only [all_pure, and_true]
  · rw [if_neg haddress, if_neg haddress]
    simp only [all_pure, true_iff]
    exact htwo

/-- The loop stays in the table exactly if all entries that it comes to end with it. -/
theorem all_madtLoop_iff (hp : headerSize ≤ p) :
    (madtLoop mem t (tableLength mem t) p s).All (Within mem) ↔
      ∀ q, EntryFrom mem t p q → q < tableLength mem t → EntryFits mem t q := by
  -- induction on what is left of the table
  induction hn : tableLength mem t - p using Nat.strongRecOn generalizing p s with
  | ind n ih =>
  rw [madtLoop]
  by_cases hlt : p < tableLength mem t
  · rw [dif_pos hlt, all_load_bind]
    have hfirst : Within mem ⟨t, p + 1, 1⟩ ↔ p + 2 ≤ tableLength mem t :=
      within_iff (by omega) (by omega)
    have hbyte : readLE mem (t + (p + 1)) 1 = tableByte mem t (p + 1) := rfl
    rw [hfirst, hbyte]
    by_cases hlength : tableByte mem t (p + 1) < 2
    · -- the last entry: only its length has been read
      rw [dif_pos hlength]
      simp only [all_pure, and_true]
      constructor
      · intro htwo q hq _
        cases hq with
        | here => exact ⟨htwo, fun h => absurd hlength (Nat.not_lt.mpr h)⟩
        | next _ h => exact absurd hlength (Nat.not_lt.mpr h)
      · intro hall
        exact (hall p (.here p) hlt).1
    · have hge : 2 ≤ tableByte mem t (p + 1) := Nat.le_of_not_lt hlength
      rw [dif_neg hlength, all_load_bind]
      rcases exists_ok (madtEntry mem t p (tableByte mem t p) s) with ⟨s', hs'⟩
      have htype : readLE mem (t + p) 1 = tableByte mem t p := rfl
      have hrest := ih (tableLength mem t - (p + tableByte mem t (p + 1))) (by omega)
        (p := p + tableByte mem t (p + 1)) (s := s') (by omega) rfl
      rw [htype, all_bind_of_ok hs', hrest]
      constructor
      · rintro ⟨htwo, -, hentry, hall⟩ q hq hqlt
        rw [all_madtEntry_iff hp htwo] at hentry
        cases hq with
        | here => exact ⟨htwo, fun _ => hentry⟩
        | next _ _ h => exact hall q h hqlt
      · intro hall
        have hfits := hall p (.here p) hlt
        refine ⟨hfits.1, .inr ?_, (all_madtEntry_iff hp hfits.1).mpr (hfits.2 hge),
          fun q hq hqlt => hall q (.next hlt hge hq) hqlt⟩
        change p + 1 ≤ tableLength mem t
        omega
  · rw [dif_neg hlt]
    simp only [all_pure, true_iff]
    intro q hq hqlt
    cases hq with
    | here => exact absurd hqlt hlt
    | next h => exact absurd h hlt

theorem toNat_toUInt32 {n : Nat} (h : n < 2 ^ 32) : n.toUInt32.toNat = n := Nat.mod_eq_of_lt h

/-- What is left of a table behind its fixed part, in 32 bits. -/
theorem sub_toUInt32 {n k : Nat} (hn : n < 2 ^ 32) (hk : k < 2 ^ 32) :
    (n.toUInt32 - k.toUInt32).toNat = if k ≤ n then n - k else 2 ^ 32 + n - k := by
  rw [UInt32.toNat_sub, toNat_toUInt32 hn, toNat_toUInt32 hk]
  split <;> omega

/-- A loop that begins at the end of the table or behind it leaves the table. -/
theorem not_all_madtLoop {stop : Nat} (hp : headerSize ≤ p) (hstop : p < stop)
    (hlength : tableLength mem t < p + 2) : ¬(madtLoop mem t stop p s).All (Within mem) := by
  rw [madtLoop, dif_pos hstop, all_load_bind, within_iff (by omega) (by omega)]
  rintro ⟨hle, -⟩
  omega

/-- `parse_madt` stays inside the table exactly if the fixed part and all entries do. -/
theorem all_parseMadt_iff :
    (parseMadt mem t s).All (Within mem) ↔ TableParser.madt.Fits mem t s := by
  have hsizes : headerSize + 8 = madtSize := rfl
  have hlt := tableLength_lt mem t
  have hlength : readLE mem (t + 4) 4 = tableLength mem t := rfl
  unfold parseMadt TableParser.Fits
  rw [all_load_bind, all_load_bind, hlength]
  dsimp only
  rw [sub_toUInt32 hlt (by decide)]
  generalize { s with lapicPhys := (readLE mem (t + 36) 4).toUInt64 } = s'
  by_cases hlong : madtSize ≤ tableLength mem t
  · have hstop : madtSize + (tableLength mem t - madtSize) = tableLength mem t := by omega
    have hlapic : Within mem ⟨t, 36, 4⟩ := (within_iff (by decide) (by decide)).mpr (by
      change headerSize + 4 ≤ _
      omega)
    rw [if_pos hlong, hstop]
    rcases exists_ok (madtLoop mem t (tableLength mem t) madtSize s') with ⟨s'', hs''⟩
    rw [all_bind_of_ok hs'', all_madtLoop_iff (by omega)]
    simp only [hlapic, within_header (show 4 + 4 ≤ headerSize by decide), hlong, all_pure,
      true_and, and_true]
  · -- the length wraps around, and the loop begins behind the table
    have hsmall : madtSize < 2 ^ 32 := by decide
    rw [if_neg hlong]
    constructor
    · rintro ⟨-, -, hall⟩
      rw [all_bind] at hall
      exact absurd hall.1 (not_all_madtLoop (by omega) (by omega) (by omega))
    · rintro ⟨hle, -⟩
      exact absurd hle hlong

/-! ## The other tables -/

/-- `parse_mcfg` stays inside the table exactly if the first allocation does. -/
theorem all_parseMcfg_iff :
    (parseMcfg mem t s).All (Within mem) ↔ TableParser.mcfg.Fits mem t s := by
  have hsizes : headerSize + 8 = mcfgSize := rfl
  have hlt := tableLength_lt mem t
  have hlength : readLE mem (t + 4) 4 = tableLength mem t := rfl
  have hsixteen : mcfgAllocationSize.toUInt32.toNat = 16 := by decide
  have hroom : (tableLength mem t).toUInt32 - mcfgSize.toUInt32 ≥ mcfgAllocationSize.toUInt32 ↔
      16 ≤ if mcfgSize ≤ tableLength mem t then tableLength mem t - mcfgSize
        else 2 ^ 32 + tableLength mem t - mcfgSize := by
    rw [ge_iff_le, UInt32.le_iff_toNat_le, sub_toUInt32 hlt (by decide), hsixteen]
  unfold parseMcfg TableParser.Fits
  rw [all_load_bind, hlength]
  dsimp only
  simp only [within_header (show 4 + 4 ≤ headerSize by decide), true_and]
  by_cases hlong : mcfgSize ≤ tableLength mem t
  · rw [if_pos hlong] at hroom
    by_cases hfits : 16 ≤ tableLength mem t - mcfgSize
    · rw [if_pos (hroom.mpr hfits), all_load_bind, all_load_bind, all_load_bind, all_load_bind,
        within_iff (by omega) (by omega), within_iff (by omega) (by omega),
        within_iff (by omega) (by omega), within_iff (by omega) (by omega)]
      simp only [all_pure, and_true]
      omega
    · rw [if_neg fun h => hfits (hroom.mp h)]
      simp only [all_pure, hlong]
  · -- what remains wraps around, and is taken for enough
    have hsmall : mcfgSize < 2 ^ 31 := by decide
    rw [if_neg hlong] at hroom
    rw [if_pos (hroom.mpr (by omega)), all_load_bind, within_iff (by omega) (by omega)]
    constructor
    · rintro ⟨hle, -⟩
      omega
    · intro hle
      exact absurd hle hlong

/-- The loop stays in the table if the entries do. -/
theorem all_entryLoop {width k i : Nat} (hwidth : 0 < width)
    (hfits : headerSize + width * (i + k) ≤ tableLength mem t) :
    (entryLoop mem hhdm t width k i s).All (Within mem) := by
  induction k generalizing i s with
  | zero => exact all_pure _
  | succ k ih =>
      rw [entryLoop]
      split
      · rw [all_load_bind, within_iff (by omega) hwidth]
        rcases acpiValidateChecksum_eq mem
          (add64 (readLE mem (t + (headerSize + width * i)) width) hhdm) with ⟨hresult, hall⟩
        rw [all_bind_of_ok hresult]
        have hnext : width * (i + 1) ≤ width * (i + (k + 1)) :=
          Nat.mul_le_mul_left width (by omega)
        have hrest : headerSize + width * (i + 1 + k) ≤ tableLength mem t := by
          rwa [Nat.add_assoc i, Nat.add_comm 1 k]
        refine ⟨?_, hall, ih hrest⟩
        rw [Nat.mul_succ] at hnext
        omega
      · exact all_pure _

/-- It leaves a table that is shorter than its header. -/
theorem not_all_entryLoop {width k : Nat} (hwidth : 0 < width) (hk : 0 < k)
    (hroom : s.tables.length < acpiMaxTables) (hshort : tableLength mem t < headerSize) :
    ¬(entryLoop mem hhdm t width k 0 s).All (Within mem) := by
  match k, hk with
  | k + 1, _ =>
      rw [entryLoop, if_pos hroom, all_load_bind, within_iff (by omega) hwidth]
      rintro ⟨hle, -⟩
      omega

/-- It does not begin where no more tables are taken. -/
theorem all_entryLoop_full {width k : Nat} (hfull : ¬s.tables.length < acpiMaxTables) :
    (entryLoop mem hhdm t width k 0 s).All (Within mem) := by
  match k with
  | 0 => exact all_pure _
  | k + 1 =>
      rw [entryLoop, if_neg hfull]
      exact all_pure _

/-- The number of the entries. -/
theorem entries_toNat {n : Nat} (width : Nat) (hwidth : width < 2 ^ 64) (hn : n < 2 ^ 32) :
    ((n.toUInt64 - headerSize.toUInt64) / width.toUInt64).toUInt32.toNat =
      (if headerSize ≤ n then n - headerSize else 2 ^ 64 + n - headerSize) / width % 2 ^ 32 := by
  have hcast : ∀ a < 2 ^ 64, a.toUInt64.toNat = a := fun a ha => Nat.mod_eq_of_lt ha
  have hsmall : headerSize < 2 ^ 32 := by decide
  rw [UInt64.toNat_toUInt32, UInt64.toNat_div, UInt64.toNat_sub, hcast n (by omega),
    hcast headerSize (by omega), hcast width hwidth]
  congr 2
  split <;> omega

/-- The loop over the entries stays inside a table that is as long as its header, and reads
nothing when the list of tables is full. -/
theorem all_loadEntries_iff {width : Nat} (hwidth : width = 4 ∨ width = 8)
    (hsum : SumsToZero mem t) : (loadEntries mem hhdm t width s).All (Within mem) ↔
      headerSize ≤ tableLength mem t ∨ acpiMaxTables ≤ s.tables.length := by
  have hlt := tableLength_lt mem t
  have hlength : readLE mem (t + 4) 4 = tableLength mem t := rfl
  rcases acpiValidateChecksum_eq mem t with ⟨hresult, hall⟩
  rw [decide_eq_true hsum] at hresult
  unfold loadEntries
  rw [all_bind_of_ok hresult, if_pos rfl, all_load_bind, hlength]
  simp only [hall, within_header (show 4 + 4 ≤ headerSize by decide), true_and]
  have hn := entries_toNat width (by omega) hlt
  generalize ((tableLength mem t).toUInt64 - headerSize.toUInt64) / width.toUInt64 = q at hn ⊢
  by_cases hroom : s.tables.length < acpiMaxTables
  · by_cases hlong : headerSize ≤ tableLength mem t
    · rw [if_pos hlong] at hn
      have hmul : width * ((tableLength mem t - headerSize) / width) ≤
          tableLength mem t - headerSize := Nat.mul_div_le _ _
      have hle : (tableLength mem t - headerSize) / width ≤ tableLength mem t - headerSize :=
        Nat.div_le_self _ _
      rw [Nat.mod_eq_of_lt (by omega)] at hn
      have hfits : headerSize + width * (0 + q.toUInt32.toNat) ≤ tableLength mem t := by
        rw [hn, Nat.zero_add]
        omega
      simp only [all_entryLoop (by omega) hfits, hlong, true_or]
    · -- the length wraps around, and the number of the entries is not zero
      rw [if_neg hlong] at hn
      have hpos : 0 < q.toUInt32.toNat := by
        rw [hn]
        unfold headerSize at hlong ⊢
        rcases hwidth with rfl | rfl <;> omega
      have hnot : ¬(entryLoop mem hhdm t width q.toUInt32.toNat 0
          (s.print (.tables q.toUInt32))).All (Within mem) :=
        not_all_entryLoop (by omega) hpos hroom (Nat.lt_of_not_le hlong)
      simp only [hnot, hlong, false_or, false_iff]
      exact Nat.not_le.mpr hroom
  · have hfull : (entryLoop mem hhdm t width q.toUInt32.toNat 0
        (s.print (.tables q.toUInt32))).All (Within mem) := all_entryLoop_full hroom
    simp only [hfull, Nat.le_of_not_lt hroom, or_true]

/-- Every table whose bytes sum to zero is gone through to the end, and no byte is read that
belongs neither to the header nor to the length that it gives, exactly if the table is as long
as its fixed part and the entries of the MADT end with it. -/
theorem reads_within_iff (k : TableParser) (mem : Mem) (hhdm t : Nat) (s : Globals)
    (hsum : SumsToZero mem t) :
    ((∃ s', (k.run mem hhdm t s).result = .ok s') ∧ (k.run mem hhdm t s).All (Within mem)) ↔
      k.Fits mem t s := by
  rw [and_iff_right (exists_ok _)]
  cases k with
  | madt => exact all_parseMadt_iff
  | mcfg => exact all_parseMcfg_iff
  | xsdt => exact all_loadEntries_iff (.inr rfl) hsum
  | rsdt => exact all_loadEntries_iff (.inl rfl) hsum

/-- The boot finds nothing yet. -/
def noTables : Globals := ⟨0, 0, 0, 0, 0, 0, [], []⟩

/-- A MADT with the entries of a processor and an I/O APIC. -/
def twoEntries : Mem := fun a =>
  match a with
  | 4 => 64
  | 9 => 162
  | 44 => 0
  | 45 => 8
  | 52 => 1
  | 53 => 12
  | 54 => 2
  | 58 => 7
  | _ => 0

theorem reads_within_iff_entries : SumsToZero twoEntries 0 ∧
    (((∃ s', (TableParser.madt.run twoEntries 0 0 noTables).result = .ok s') ∧
      (TableParser.madt.run twoEntries 0 0 noTables).All (Within twoEntries)) ↔
        TableParser.madt.Fits twoEntries 0 noTables) :=
  have hsum : SumsToZero twoEntries 0 := by decide +kernel
  ⟨hsum, reads_within_iff .madt _ 0 0 noTables hsum⟩

/-- A MADT of this length, with the checksum that makes the sum zero. -/
def shortMadt (length : UInt8) : Mem := fun a =>
  if a = 4 then length else if a = 9 then 0 - length else 0

/-- Behind one byte of an entry the next one is read, which is not in the table. -/
theorem madt_read_behind_end : SumsToZero (shortMadt 45) 0 ∧
    ¬(parseMadt (shortMadt 45) 0 noTables).All (Within (shortMadt 45)) := by
  refine ⟨by decide, fun hall => ?_⟩
  rw [all_parseMadt_iff] at hall
  have hfits := hall.2 44 (.here 44) (by decide)
  exact absurd hfits.1 (by decide)

end PolandOS.Acpi
