import Mathlib.Algebra.Order.BigOperators.Group.List
import PolandOS.Lib.OnesComplement
import PolandOS.Net.Bytes

/-! # Checksums

`ip_checksum`, `udp_checksum` and `tcp_checksum`. The last two add the words of the
pseudo-header in network byte order and those of the segment in host byte order.
`transport_checksums_iff` says when that makes no difference.
-/

namespace PolandOS.Net

open OnesComplement

/-- The loop over the words of the data, and the odd byte behind it. -/
def sumWords : List UInt8 → UInt32 → UInt32
  | lo :: hi :: rest, sum => sumWords rest (sum + (load16 lo hi).toUInt32)
  | [lo], sum => sum + lo.toUInt32
  | [], sum => sum

/-- The loop over the pseudo-header: `(ph_bytes[i] << 8) | ph_bytes[i + 1]`. -/
def sumPseudo : List UInt8 → UInt32 → UInt32
  | hi :: lo :: rest, sum => sumPseudo rest (sum + ((hi.toUInt32 <<< 8) ||| lo.toUInt32))
  | _, sum => sum

/-- `while (sum >> 16) sum = (sum & 0xFFFF) + (sum >> 16)`, for so many rounds. -/
def foldCarries : Nat → UInt32 → UInt32
  | 0, sum => sum
  | rounds + 1, sum =>
    if sum >>> 16 = 0 then sum else foldCarries rounds ((sum &&& (0xFFFF : UInt32)) + (sum >>> 16))

/-- The rounds of that loop; two are enough. -/
def foldLimit : Nat := 2

/-- `ip_checksum`. -/
def ipChecksum (data : List UInt8) : UInt16 := (~~~ foldCarries foldLimit (sumWords data 0)).toUInt16

/-- The bytes of `TCPPseudo` and `UDPPseudo`. -/
def pseudoBytes (src dst : UInt32) (protocol : UInt8) (len : UInt16) : List UInt8 :=
  u32Bytes src ++ u32Bytes dst ++ [0, protocol] ++ u16Bytes (htons len)

/-- The common body of `tcp_checksum` and `udp_checksum`. -/
def transportChecksum (protocol : UInt8) (src dst : UInt32) (segment : List UInt8) : UInt16 :=
  let sum := sumPseudo (pseudoBytes src dst protocol segment.length.toUInt16) 0
  (~~~ foldCarries foldLimit (sumWords segment sum)).toUInt16

/-- `IP_PROTO_ICMP`. -/
def ipProtoIcmp : UInt8 := 1

/-- `IP_PROTO_TCP`. -/
def ipProtoTcp : UInt8 := 6

/-- `IP_PROTO_UDP`. -/
def ipProtoUdp : UInt8 := 17

/-- `tcp_checksum`. -/
def tcpChecksum (src dst : UInt32) (segment : List UInt8) : UInt16 :=
  transportChecksum ipProtoTcp src dst segment

/-- `udp_checksum`. -/
def udpChecksum (src dst : UInt32) (data : List UInt8) : UInt16 :=
  transportChecksum ipProtoUdp src dst data

/-! ## The sums -/

theorem toNat_sumWords (bs : List UInt8) (sum : UInt32) :
    (sumWords bs sum).toNat = (sum.toNat + (littleWords bs).sum) % 2 ^ 32 := by
  have hsum := sum.toNat_lt
  fun_induction sumWords bs sum with
  | case1 lo hi rest sum ih =>
      rw [ih (UInt32.toNat_lt _), UInt32.toNat_add, UInt16.toNat_toUInt32, toNat_load16, littleWords,
        List.sum_cons]
      omega
  | case2 lo sum =>
      rw [UInt32.toNat_add, UInt8.toNat_toUInt32, littleWords, List.sum_singleton]
  | case3 sum => simp [littleWords]

theorem toNat_bigWord (hi lo : UInt8) :
    ((hi.toUInt32 <<< 8) ||| lo.toUInt32).toNat = hi.toNat * 256 + lo.toNat := by
  have hlo := lo.toNat_lt
  have hhi := hi.toNat_lt
  have hor := Nat.two_pow_add_eq_or_of_lt hlo hi.toNat
  simp only [UInt32.toNat_or, UInt32.toNat_shiftLeft, UInt8.toNat_toUInt32,
    UInt32.reduceToNat, Nat.reduceMod, Nat.shiftLeft_eq]
  rw [Nat.mod_eq_of_lt (by omega), Nat.mul_comm _ (2 ^ 8), ← hor]

theorem toNat_sumPseudo {bs : List UInt8} (h : bs.length % 2 = 0) (sum : UInt32) :
    (sumPseudo bs sum).toNat = (sum.toNat + (bigWords bs).sum) % 2 ^ 32 := by
  have hsum := sum.toNat_lt
  fun_induction bigWords bs generalizing sum with
  | case1 hi lo rest ih =>
      have hrest : rest.length % 2 = 0 := by
        simp only [List.length_cons] at h
        omega
      rw [sumPseudo, ih hrest _ (UInt32.toNat_lt _), UInt32.toNat_add, toNat_bigWord, List.sum_cons]
      omega
  | case2 hi => cases h
  | case3 => simp [sumPseudo]

/-- A round of the folding loop. -/
theorem toNat_fold (sum : UInt32) : ((sum &&& (0xFFFF : UInt32)) + (sum >>> 16)).toNat =
    sum.toNat % 65536 + sum.toNat / 65536 := by
  have hsum := sum.toNat_lt
  have hmask : sum.toNat &&& (2 ^ 16 - 1) = sum.toNat % 2 ^ 16 := Nat.and_two_pow_sub_one_eq_mod _ 16
  simp only [UInt32.toNat_add, UInt32.toNat_and, UInt32.toNat_shiftRight, UInt32.reduceToNat,
    Nat.reduceMod, Nat.shiftRight_eq_div_pow]
  rw [show (65535 : Nat) = 2 ^ 16 - 1 from rfl, hmask]
  omega

theorem shiftRight_eq_zero (sum : UInt32) : sum >>> 16 = 0 ↔ sum.toNat < 65536 := by
  rw [← UInt32.toNat_inj]
  simp only [UInt32.toNat_shiftRight, UInt32.reduceToNat, Nat.reduceMod,
    Nat.shiftRight_eq_div_pow]
  omega

/-- The folding loop computes the one's complement sum. -/
theorem toNat_foldCarries (sum : UInt32) :
    (foldCarries foldLimit sum).toNat = norm sum.toNat := by
  have hsum := sum.toNat_lt
  have hround := toNat_fold sum
  unfold foldLimit foldCarries
  split
  case isTrue h => exact (norm_of_lt ((shiftRight_eq_zero sum).mp h)).symm
  case isFalse h =>
    unfold foldCarries
    split
    case isTrue h' =>
      rw [shiftRight_eq_zero] at h'
      rw [← norm_of_lt h', hround, norm_carry]
    case isFalse h' =>
      have hround' := toNat_fold ((sum &&& (0xFFFF : UInt32)) + (sum >>> 16))
      -- the second round leaves no carry
      have hlt : (sum.toNat % 65536 + sum.toNat / 65536) % 65536 +
          (sum.toNat % 65536 + sum.toNat / 65536) / 65536 < 65536 := by omega
      rw [foldCarries, hround', hround, ← norm_of_lt hlt, norm_carry, norm_carry]

/-- The folding loop is over after its two rounds. -/
theorem foldCarries_done (sum : UInt32) : foldCarries foldLimit sum >>> 16 = 0 := by
  rw [shiftRight_eq_zero, toNat_foldCarries]
  exact norm_lt _

theorem toNat_complement {sum : UInt32} (h : sum.toNat < 65536) :
    (~~~ sum).toUInt16.toNat = 65535 - sum.toNat := by
  rw [UInt32.toNat_toUInt16, UInt32.toNat_not, UInt32.size]
  omega

/-- What the checksum functions return. -/
theorem toNat_folded (sum : UInt32) :
    (~~~ foldCarries foldLimit sum).toUInt16.toNat = 65535 - norm sum.toNat := by
  have hlt : (foldCarries foldLimit sum).toNat < 65536 := by
    rw [toNat_foldCarries]
    exact norm_lt _
  rw [toNat_complement hlt, toNat_foldCarries]

theorem u16Bytes_eq_wire (v : UInt16) : u16Bytes v = wire (swap v.toNat) := by
  have hv := v.toNat_lt
  have hdiv : swap v.toNat / 256 = v.toNat % 256 := by
    unfold swap
    omega
  have hmod : swap v.toNat % 256 = v.toNat / 256 := by
    unfold swap
    omega
  have hlow : v.toUInt8 = UInt8.ofNat (swap v.toNat / 256) := by
    apply UInt8.toNat_inj.mp
    rw [UInt16.toNat_toUInt8, UInt8.toNat_ofNat', hdiv, Nat.mod_mod]
  have hhigh : (v >>> 8).toUInt8 = UInt8.ofNat (swap v.toNat) := by
    apply UInt8.toNat_inj.mp
    rw [UInt16.toNat_toUInt8, UInt8.toNat_ofNat', UInt16.toNat_shiftRight]
    simp only [UInt16.reduceToNat, Nat.reduceMod, Nat.shiftRight_eq_div_pow]
    omega
  rw [u16Bytes, wire, hlow, hhigh]

/-- What `ip_checksum` returns: no sum wraps. -/
theorem toNat_ipChecksum {bs : List UInt8} (h : bs.length < 65536) :
    (ipChecksum bs).toNat = 65535 - norm (littleWords bs).sum := by
  have hwords := littleWords_sum_le bs
  have hzero : (0 : UInt32).toNat = 0 := rfl
  unfold ipChecksum
  rw [toNat_folded, toNat_sumWords, hzero, Nat.zero_add, Nat.mod_eq_of_lt (by omega)]

/-- The loop over the words, part by part. -/
theorem sumWords_append {as bs : List UInt8} (h : as.length % 2 = 0) (sum : UInt32) :
    sumWords (as ++ bs) sum = sumWords bs (sumWords as sum) := by
  fun_induction sumWords as sum with
  | case1 lo hi rest sum ih =>
      have hrest : rest.length % 2 = 0 := by
        simp only [List.length_cons] at h
        omega
      rw [List.cons_append, List.cons_append, sumWords, ih hrest]
  | case2 lo sum => cases h
  | case3 sum => rfl

/-- A loop that is over stays over. -/
theorem foldCarries_more {rounds : Nat} {sum : UInt32} (h : foldCarries rounds sum >>> 16 = 0)
    (more : Nat) : foldCarries (rounds + more) sum = foldCarries rounds sum := by
  induction rounds generalizing sum with
  | zero =>
      cases more with
      | zero => rfl
      | succ more =>
          have hover : sum >>> 16 = 0 := h
          rw [Nat.zero_add]
          exact if_pos hover
  | succ rounds ih =>
      rw [Nat.add_right_comm, foldCarries, foldCarries]
      by_cases hover : sum >>> 16 = 0
      · rw [if_pos hover, if_pos hover]
      · rw [if_neg hover, if_neg hover]
        rw [foldCarries, if_neg hover] at h
        exact ih h

/-! ## The Internet checksum -/

/-- The stored bytes of `ip_checksum` are the checksum of RFC 1071. The accumulator never
wraps, not in any round of the first loop, the second loop is over after two rounds, and
where the field at an even offset was zero the stored bytes make the sum of all words
0xFFFF. -/
theorem ip_checksum_internet {bs : List UInt8} (h : bs.length ≤ 65535) :
    u16Bytes (ipChecksum bs) = wire (checksum bs) ∧
    (∀ before after, bs = before ++ after → before.length % 2 = 0 →
      sumWords bs 0 = sumWords after (sumWords before 0) ∧
        (sumWords before 0).toNat = (littleWords before).sum) ∧
    (sumWords bs 0).toNat = (littleWords bs).sum ∧
    (∀ rounds, foldCarries (2 + rounds) (sumWords bs 0) = foldCarries 2 (sumWords bs 0) ∧
      foldCarries 2 (sumWords bs 0) >>> 16 = 0) ∧
    ∀ before after, bs = before ++ [0, 0] ++ after → before.length % 2 = 0 →
      OnesComplement.sum (bigWords (before ++ u16Bytes (ipChecksum bs) ++ after)) = 0xFFFF := by
  have hstored : u16Bytes (ipChecksum bs) = wire (checksum bs) := by
    rw [u16Bytes_eq_wire, toNat_ipChecksum (by omega), swap_compl (norm_lt _),
      swap_norm_littleWords, checksum, sum_eq_norm (bigWords_lt bs)]
  have hsum : ∀ part : List UInt8, part.length ≤ bs.length →
      (sumWords part 0).toNat = (littleWords part).sum := by
    intro part hpart
    have hwords := littleWords_sum_le part
    have hzero : (0 : UInt32).toNat = 0 := rfl
    rw [toNat_sumWords, hzero, Nat.zero_add, Nat.mod_eq_of_lt (by omega)]
  refine ⟨hstored, fun before after hbs heven => ?_, hsum bs le_rfl, fun rounds => ?_,
    fun before after hbs heven => ?_⟩
  · constructor
    · rw [hbs, sumWords_append heven]
    · apply hsum
      rw [hbs, List.length_append]
      exact Nat.le_add_right _ _
  · exact ⟨foldCarries_more (foldCarries_done _) rounds, foldCarries_done _⟩
  · rw [hstored, hbs]
    exact sum_with_checksum heven

/-- A header with its checksum zero. -/
theorem ip_checksum_internet_header :
    u16Bytes (ipChecksum [0x45, 0, 0, 20, 0, 1, 0, 0, 64, 17, 0, 0, 10, 0, 0, 1, 10, 0, 0, 2]) =
      wire (checksum [0x45, 0, 0, 20, 0, 1, 0, 0, 64, 17, 0, 0, 10, 0, 0, 1, 10, 0, 0, 2]) :=
  (ip_checksum_internet (by decide)).1

/-- The sum of the words of the pseudo-header in network byte order. -/
def pseudoSum (src dst : UInt32) (protocol : UInt8) (len : UInt16) : Nat :=
  (bigWords (pseudoBytes src dst protocol len)).sum

theorem length_pseudoBytes (src dst : UInt32) (protocol : UInt8) (len : UInt16) :
    (pseudoBytes src dst protocol len).length = 12 := rfl

/-- The protocol is among the words. -/
theorem protocol_le_pseudoSum (src dst : UInt32) (protocol : UInt8) (len : UInt16) :
    protocol.toNat ≤ pseudoSum src dst protocol len := by
  simp [pseudoSum, pseudoBytes, u32Bytes, u16Bytes, bigWords]
  omega

theorem pseudoSum_le (src dst : UInt32) (protocol : UInt8) (len : UInt16) :
    pseudoSum src dst protocol len ≤ 6 * 65535 := by
  have hwords := bigWords_lt (pseudoBytes src dst protocol len)
  have hlen : (bigWords (pseudoBytes src dst protocol len)).length = 6 := rfl
  have hsum := List.sum_le_card_nsmul _ 65535 fun w hw => Nat.le_of_lt_succ (hwords w hw)
  rw [hlen] at hsum
  unfold pseudoSum
  simpa using hsum

/-- What the code sums up: no sum wraps. -/
theorem toNat_transportChecksum (protocol : UInt8) (src dst : UInt32) {segment : List UInt8}
    (h : segment.length < 65536) :
    (transportChecksum protocol src dst segment).toNat =
      65535 - norm (pseudoSum src dst protocol segment.length.toUInt16 +
        (littleWords segment).sum) := by
  have hpseudo := pseudoSum_le src dst protocol segment.length.toUInt16
  have hwords := littleWords_sum_le segment
  have heven : (pseudoBytes src dst protocol segment.length.toUInt16).length % 2 = 0 := by
    rw [length_pseudoBytes]
  unfold transportChecksum
  rw [toNat_folded, toNat_sumWords, toNat_sumPseudo heven]
  have hzero : (0 : UInt32).toNat = 0 := rfl
  rw [hzero, Nat.zero_add]
  unfold pseudoSum at hpseudo ⊢
  rw [Nat.mod_eq_of_lt (by omega), Nat.mod_eq_of_lt (by omega)]

/-- The stored bytes of a checksum are the checksum of RFC 1071 over the pseudo-header
and the segment. -/
def Conforms (protocol : UInt8) (src dst : UInt32) (segment : List UInt8) (cksum : UInt16) : Prop :=
  u16Bytes cksum =
    wire (checksum (pseudoBytes src dst protocol segment.length.toUInt16 ++ segment))

instance (protocol : UInt8) (src dst : UInt32) (segment : List UInt8) (cksum : UInt16) :
    Decidable (Conforms protocol src dst segment cksum) := by
  unfold Conforms
  infer_instance

/-- The words of the two byte orders may be mixed exactly when the sum of the
pseudo-header is its own swap. -/
theorem transportChecksum_conforms_iff {protocol : UInt8} (hprotocol : 0 < protocol.toNat)
    (src dst : UInt32) {segment : List UInt8} (h : segment.length < 65536) :
    Conforms protocol src dst segment (transportChecksum protocol src dst segment) ↔
      257 ∣ pseudoSum src dst protocol segment.length.toUInt16 := by
  have hpos := protocol_le_pseudoSum src dst protocol segment.length.toUInt16
  have hlittle := littleWords_sum segment
  have hcode := toNat_transportChecksum protocol src dst h
  have hspec : checksum (pseudoBytes src dst protocol segment.length.toUInt16 ++ segment) =
      65535 - norm (pseudoSum src dst protocol segment.length.toUInt16 +
        (bigWords segment).sum) := by
    have heven : (pseudoBytes src dst protocol segment.length.toUInt16).length % 2 = 0 := by
      rw [length_pseudoBytes]
    rw [checksum, sum_eq_norm (bigWords_lt _), bigWords_append heven, List.sum_append]
    rfl
  unfold Conforms
  rw [u16Bytes_eq_wire, hspec, hcode]
  generalize pseudoSum src dst protocol segment.length.toUInt16 = p at hpos ⊢
  have hlt := norm_lt (p + (littleWords segment).sum)
  have hlt' := norm_lt (p + (bigWords segment).sum)
  rw [wire_inj (swap_lt (by omega)) (by omega), swap_compl hlt, swap_norm]
  have hswap := norm_lt (256 * (p + (littleWords segment).sum))
  have hcancel : 65535 - norm (256 * (p + (littleWords segment).sum)) =
      65535 - norm (p + (bigWords segment).sum) ↔
      norm (256 * (p + (littleWords segment).sum)) = norm (p + (bigWords segment).sum) := by
    omega
  rw [hcancel, norm_eq_iff (by omega) (by omega)]
  omega

/-- The checksums of TCP and UDP are those of the standard exactly where the sum of the
pseudo-header's words is a multiple of 257. -/
theorem transport_checksums_iff (src dst : UInt32) {segment : List UInt8}
    (h : segment.length ≤ 1480) :
    (Conforms ipProtoTcp src dst segment (tcpChecksum src dst segment) ↔
      257 ∣ pseudoSum src dst ipProtoTcp segment.length.toUInt16) ∧
    (Conforms ipProtoUdp src dst segment (udpChecksum src dst segment) ↔
      257 ∣ pseudoSum src dst ipProtoUdp segment.length.toUInt16) := by
  have hlen : segment.length < 65536 := by omega
  constructor
  · exact transportChecksum_conforms_iff (by decide) src dst hlen
  · exact transportChecksum_conforms_iff (by decide) src dst hlen

/-- A SYN from port 49152 to port 80, with the checksum zero. -/
def synSegment : List UInt8 :=
  [0xC0, 0, 0, 80, 0, 0, 0, 1, 0, 0, 0, 0, 0x50, 0x02, 0x10, 0, 0, 0, 0, 0]

/-- From 10.0.2.15 to 10.0.2.240 the words of the pseudo-header sum up to a multiple of
257. -/
theorem transport_checksums_multiple :
    Conforms ipProtoTcp 0x0F02000A 0xF002000A synSegment
      (tcpChecksum 0x0F02000A 0xF002000A synSegment) := by
  have hlen : synSegment.length ≤ 1480 := by decide
  exact (transport_checksums_iff 0x0F02000A 0xF002000A hlen).1.mpr (by decide)

/-- From 10.0.2.15 to 10.0.2.2 the SYN gets another checksum. -/
theorem transport_checksum_differs :
    ¬Conforms ipProtoTcp 0x0F02000A 0x0202000A synSegment
      (tcpChecksum 0x0F02000A 0x0202000A synSegment) := by
  decide

end PolandOS.Net
