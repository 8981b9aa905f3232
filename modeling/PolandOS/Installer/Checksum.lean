import PolandOS.Lib.CrcPoly
import PolandOS.Installer.Report

/-! # The checksums of the installer

The installer computes CRC-32 in two places: in `crc32`, and again in the loop over the
sectors of the partition table that it has read back.
-/

namespace PolandOS.Installer

open Staging Staged

/-- Sectors of 512 bytes, one after the other in one buffer. -/
def concatenated (sectors : List Block) : Block :=
  fun i => sectors.getD (i / 512) zeroBlock (i % 512)

theorem blockBytes_concatenated (sectors : List Block) :
    blockBytes (concatenated sectors) (512 * sectors.length) =
      sectors.flatMap fun b => blockBytes b 512 := by
  induction sectors with
  | nil => rfl
  | cons b sectors ih =>
      have hfirst : (List.range 512).map (concatenated (b :: sectors)) = blockBytes b 512 := by
        refine List.map_congr_left fun i hi => ?_
        have hi : i < 512 := List.mem_range.1 hi
        simp only [concatenated, Nat.div_eq_of_lt hi, Nat.mod_eq_of_lt hi, List.getD_cons_zero]
      have hrest : concatenated (b :: sectors) ∘ (512 + ·) = concatenated sectors := by
        funext i
        simp only [concatenated, Function.comp_apply, Nat.add_mod_left,
          Nat.add_div_left i (by decide : 0 < 512), List.getD_cons_succ]
      rw [List.flatMap_cons, ← ih, List.length_cons, Nat.mul_succ, Nat.add_comm, blockBytes,
        List.range_add, List.map_append, List.map_map, hfirst, hrest]
      rfl

variable {m : InstallMachine} {s : InstallState}

/-- The loop is left only for a read that does not succeed. -/
theorem readEntries_left (is : List Nat) (crc : UInt32) :
    Outcome (fun _ _ => True) (fun _ _ => ∃ k < is.length, m.succeeds (s.commands + k) = false)
      (readEntries m is crc) s := by
  induction is generalizing s crc with
  | nil => exact outcome_pure trivial
  | cons i is ih =>
      have hread : Outcome (fun _ t => t.commands = s.commands + 1)
          (fun _ _ => m.succeeds s.commands = false)
          (readBlockOr m (2 + i) "Blad odczytu wpisow partycji!") s := by
        refine outcome_bind (Q := fun buf t => t.commands = s.commands + 1 ∧
          (buf = none → m.succeeds s.commands = false)) ⟨rfl, by simp⟩ ?_
        rintro buf t ⟨ht, hnone⟩
        exact outcome_ofOption (fun _ _ => ht) hnone
      refine outcome_bind (hread.mono (fun _ _ h => h) ?_) ?_
      · exact fun _ _ h => ⟨0, by simp, h⟩
      · rintro buf t ht
        refine (ih _).mono (fun _ _ _ => trivial) ?_
        rintro _ _ ⟨k, hk, hfail⟩
        refine ⟨k + 1, by simpa using hk, ?_⟩
        rwa [show s.commands + (k + 1) = t.commands + k by omega]

/-- `crc32` is the CRC-32 of IEEE 802.3, and the loop over sectors that are read back
computes that of the sectors together. -/
theorem crc32_ieee :
    (∀ (data : Block) (len : Nat), crc32 data len = Crc.ieee (blockBytes data len)) ∧
    ∀ (m : InstallMachine) (sectors : List Block) (s : InstallState),
      (∀ i (h : i < sectors.length), s.disk (2 + i) = sectors[i]) →
      Outcome (fun r _ => ~~~r = crc32 (concatenated sectors) (512 * sectors.length))
        (fun _ _ => ∃ k < sectors.length, m.succeeds (s.commands + k) = false)
        (readEntries m (List.range sectors.length) 0xFFFFFFFF) s := by
  refine ⟨fun data len => Crc.checksum_eq_ieee _, fun m sectors s hdisk => ?_⟩
  have hsectors : (List.range sectors.length).map (fun i => s.disk (2 + i)) = sectors := by
    refine List.ext_getElem (by simp) fun i h _ => ?_
    rw [List.getElem_map, List.getElem_range, hdisk i (by simpa using h)]
  have hbytes : (List.range sectors.length).flatMap (fun i => blockBytes (s.disk (2 + i)) 512) =
      blockBytes (concatenated sectors) (512 * sectors.length) := by
    rw [blockBytes_concatenated]
    conv_rhs => rw [← hsectors]
    rw [List.flatMap_map]
  refine ((readEntries_outcome _ _).and (readEntries_left _ _)).mono ?_ fun _ _ h => ?_
  · rintro r t ⟨⟨hr, -, -⟩, -⟩
    rw [hr, hbytes, crc32, Crc.checksum]
  · simpa using h.2

/-- Two sectors of entries. -/
def entrySectors : List Block := [fun i => UInt8.ofNat i, fun i => UInt8.ofNat (3 * i)]

theorem crc32_ieee_entries :
    Outcome (fun r _ => ~~~r = crc32 (concatenated entrySectors) 1024)
      (fun _ _ => ∃ k < 2, (smallMachine none).succeeds k = false)
      (readEntries (smallMachine none) (List.range 2) 0xFFFFFFFF)
      ⟨fun lba => entrySectors.getD (lba - 2) zeroBlock, 0⟩ := by
  have h := crc32_ieee.2 (smallMachine none) entrySectors
    ⟨fun lba => entrySectors.getD (lba - 2) zeroBlock, 0⟩ ?_
  · simpa [entrySectors] using h
  · intro i hi
    change entrySectors.getD (2 + i - 2) zeroBlock = _
    rw [Nat.add_sub_cancel_left, List.getD_eq_getElem _ _ hi]

end PolandOS.Installer
