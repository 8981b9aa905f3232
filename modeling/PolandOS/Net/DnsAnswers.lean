import PolandOS.Lib.Rfc1035
import PolandOS.Net.Dns

/-! # What `dns_resolve` makes of an answer

`dns_scan_resolves`: a response is read as RFC 1035 prescribes, and the cursor only goes
forward, unless its header is that of an answer and the walk through its sections meets one
of three things (`Trapped`): a length byte that is reserved, a compression pointer behind the
labels of an answer's name, or a record whose length carries the cursor of 16 bits past its
end.
-/

namespace PolandOS.Net

open Logging Rfc1035

/-! ## What is misread -/

/-- From here on the labels run into a length byte that the loop takes for another: a
reserved one, or a pointer that the loop does not know. -/
inductive Misread (m : View) (len : Nat) (pointers : Bool) : Nat → Prop
  | here {p : Nat} : p < len → 64 ≤ (m p).toNat → ((m p).toNat < 192 ∨ pointers = false) →
      Misread m len pointers p
  | label {p : Nat} : 0 < (m p).toNat → (m p).toNat < 64 → p + 1 + (m p).toNat ≤ len →
      Misread m len pointers (p + 1 + (m p).toNat) → Misread m len pointers p

/-- One of the questions from here on has a name that is misread. -/
inductive QuestionTrap (m : View) (len : Nat) : Nat → Nat → Prop
  | name {n p : Nat} : Misread m len true p → QuestionTrap m len (n + 1) p
  | next {n p q : Nat} : Name m len p q → q + 4 ≤ len → QuestionTrap m len n (q + 4) →
      QuestionTrap m len (n + 1) p

/-- One of the answers up to the first address has a name that is misread, or a length that
does not fit the cursor. -/
inductive AnswerTrap (m : View) (len : Nat) : Nat → Nat → Prop
  | name {n p : Nat} : (m p).toNat < 192 → Misread m len false p → AnswerTrap m len (n + 1) p
  | wrap {n p q : Nat} : Name m len p q → q + 10 ≤ len → ¬IsAddress m q →
      65536 ≤ q + 10 + be16 m (q + 8) → AnswerTrap m len (n + 1) p
  | next {n p q : Nat} : Name m len p q → ¬IsAddress m q → q + 10 + be16 m (q + 8) ≤ len →
      AnswerTrap m len n (q + 10 + be16 m (q + 8)) → AnswerTrap m len (n + 1) p

/-- The walk through the sections meets something that is misread. -/
def Trapped (m : View) (len : Nat) : Prop :=
  QuestionTrap m len (be16 m 4) 12 ∨
    ∃ p, Questions m len (be16 m 4) 12 p ∧ AnswerTrap m len (be16 m 6) p

/-- The header is that of an answer to the query with this number: it is all there, and it has
the number and an answer. -/
structure Headed (txid : UInt16) (m : View) (len : Nat) : Prop where
  complete : 12 ≤ len
  id : be16 m 0 = txid.toNat
  answers : be16 m 6 ≠ 0

variable {m : View} {len : UInt16} {pointers : Bool} {n : Nat}

theorem Misread.start {len p : Nat} (h : Misread m len pointers p) : p < len := by
  cases h with
  | here hp => exact hp
  | label hpos _ hp => omega

theorem QuestionTrap.start {len p : Nat} (h : QuestionTrap m len n p) : p < len := by
  cases h with
  | name hname => exact hname.start
  | next hname => exact hname.start

theorem AnswerTrap.start {len p : Nat} (h : AnswerTrap m len n p) : p < len := by
  cases h with
  | name _ hname => exact hname.start
  | wrap hname => exact hname.start
  | next hname => exact hname.start

theorem firstAddress_start {len p a : Nat} (h : FirstAddress m len n p a) : p < len := by
  cases h with
  | here hname => exact hname.start
  | skip hname => exact hname.start

/-! ## Bytes -/

theorem pointer_iff (b : UInt8) : b &&& 0xC0 = 0xC0 ↔ 192 ≤ b.toNat := by
  have hall : ∀ k < 256, k &&& 192 = 192 ↔ 192 ≤ k := by decide +kernel
  rw [← UInt8.toNat_inj, UInt8.toNat_and]
  exact hall b.toNat b.toNat_lt

theorem toNat_respU16 (m : View) (p : Nat) : (respU16 m p).toNat = be16 m p := by
  have hload : respU16 m p = load16 (m (p + 1)) (m p) := UInt16.or_comm ..
  rw [hload, toNat_load16, be16]
  omega

theorem toNat_ntohs_u16 (m : View) (p : Nat) : (ntohs (m.u16 p)).toNat = be16 m p := by
  have hbytes := u16Bytes_load16 (m p) (m (p + 1))
  have hswap : ntohs (m.u16 p) = load16 (m (p + 1)) (m p) := by
    change htons (load16 (m p) (m (p + 1))) = _
    simp only [u16Bytes, List.cons.injEq, and_true] at hbytes
    rw [htons_eq, hbytes.1, hbytes.2]
  rw [hswap, toNat_load16, be16]
  omega

theorem isAddress_iff (m : View) (q : Nat) :
    IsAddress m q ↔ respU16 m q = 1 ∧ respU16 m (q + 8) = 4 := by
  rw [IsAddress, ← toNat_respU16, ← toNat_respU16, ← UInt16.toNat_inj, ← UInt16.toNat_inj]
  rfl

/-! ## The scan -/

/-- The scan ends with a result that satisfies `post`, and its cursor only goes forward. -/
abbrev Scans {α : Type} (x : Scan α) (post : α → Prop) : Prop :=
  Logged.Total (fun _ => True) (fun e => e.1 ≤ e.2) x post

theorem scans_advance {rpos k : UInt16} (h : rpos.toNat + k.toNat < 65536) :
    Scans (advance rpos k) fun q => q.toNat = rpos.toNat + k.toNat := by
  have hnat : (rpos + k).toNat = rpos.toNat + k.toNat := by
    rw [UInt16.toNat_add]
    exact Nat.mod_eq_of_lt h
  refine Logged.total_emit ?_ fun _ => Logged.total_pure hnat
  rw [UInt16.le_iff_toNat_le, hnat]
  exact Nat.le_add_right ..

/-- The cursor is behind the name, or there is none and it is past the end. -/
def AtNameEnd (m : View) (len p q : Nat) : Prop :=
  q ≤ len + 256 ∧ (Name m len p q ∨ len ≤ q ∧ ∀ e, ¬Name m len p e)

/-- Behind a pointer, which may be cut off. -/
theorem atNameEnd_pointer {len p : Nat} (hp : p < len) (h : 192 ≤ (m p).toNat) :
    AtNameEnd m len p (p + 2) := by
  refine ⟨by omega, ?_⟩
  by_cases hfits : p + 2 ≤ len
  · exact .inl (.pointer hfits h)
  · refine .inr ⟨by omega, fun e hname => ?_⟩
    cases hname with
    | root _ hzero =>
        rw [hzero] at h
        exact absurd h (by decide)
    | pointer hle => exact hfits hle
    | label _ hlt => omega

/-- Behind a label, what holds of the rest holds of the name. -/
theorem AtNameEnd.label {len p q : Nat} (hpos : 0 < (m p).toNat) (hlt : (m p).toNat < 64)
    (h : AtNameEnd m len (p + 1 + (m p).toNat) q) : AtNameEnd m len p q := by
  refine ⟨h.1, ?_⟩
  rcases h.2 with hname | ⟨hend, hnone⟩
  · exact .inl (.label hpos hlt (Nat.le_of_lt hname.start) hname)
  · exact .inr ⟨hend, fun e hname => hnone e (hname.of_label hpos hlt).2⟩

/-- The walk over a name ends behind it, unless a label is taken for a pointer. -/
theorem scans_skipLabels (hlen : len.toNat ≤ 512) {fuel : Nat} {p : UInt16}
    (hfuel : len.toNat - p.toNat < fuel) (hp : p.toNat ≤ len.toNat + 256)
    (hclean : ¬Misread m len.toNat pointers p.toNat) :
    Scans (skipLabels pointers m len fuel p) fun q => AtNameEnd m len.toNat p.toNat q.toNat := by
  induction fuel generalizing p with
  | zero => omega
  | succ fuel ih =>
      unfold skipLabels
      refine Logged.total_ite (fun hlt => ?_) fun hge => ?_
      · have hin : p.toNat < len.toNat := UInt16.lt_iff_toNat_lt.mp hlt
        refine Logged.total_ite (fun hzero => ?_) fun hzero => ?_
        · refine (scans_advance (by change _ + 1 < _; omega)).mono fun q hq => ?_
          rw [hq]
          exact ⟨by change _ + 1 ≤ _; omega, .inl (.root hin hzero)⟩
        refine Logged.total_ite (fun hptr => ?_) fun hptr => ?_
        · refine (scans_advance (by change _ + 2 < _; omega)).mono fun q hq => ?_
          rw [hq]
          exact atNameEnd_pointer hin ((pointer_iff _).mp hptr.2)
        -- a length byte that is neither reserved nor a pointer is a label's
        have hpos : 0 < (m p.toNat).toNat :=
          Nat.pos_of_ne_zero fun h => hzero (UInt8.toNat_inj.mp h)
        have hlabel : (m p.toNat).toNat < 64 := by
          by_contra hbig
          refine hclean (.here hin (Nat.le_of_not_lt hbig) ?_)
          rw [pointer_iff] at hptr
          cases pointers with
          | true => exact .inl (Nat.lt_of_not_le fun h => hptr ⟨rfl, h⟩)
          | false => exact .inr rfl
        have hstep : (1 + (m p.toNat).toUInt16).toNat = 1 + (m p.toNat).toNat := by
          rw [UInt16.toNat_add, UInt8.toNat_toUInt16]
          change (1 + _) % 65536 = _
          omega
        refine Logged.total_bind (scans_advance (by omega)) fun q hq => ?_
        rw [hstep, ← Nat.add_assoc] at hq
        have hrest : Scans (skipLabels pointers m len fuel q) fun q' =>
            AtNameEnd m len.toNat q.toNat q'.toNat := by
          refine ih (by omega) (by omega) fun hmis => hclean ?_
          have hstart := hmis.start
          rw [hq] at hmis hstart
          exact .label hpos hlabel (Nat.le_of_lt hstart) hmis
        refine hrest.mono fun q' hq' => AtNameEnd.label hpos hlabel ?_
        rwa [← hq]
      · refine Logged.total_pure ⟨hp, .inr ⟨?_, fun e hname => ?_⟩⟩
        · exact UInt16.le_iff_toNat_le.mp (UInt16.not_lt.mp hge)
        · exact hge (UInt16.lt_iff_toNat_lt.mpr hname.start)

/-! ## The sections -/

/-- The cursor is behind the questions, or they are not all there and it is past the end. -/
def AtQuestionsEnd (m : View) (len n p q : Nat) : Prop :=
  Questions m len n p q ∨ len ≤ q ∧ ∀ e, ¬Questions m len n p e

/-- No question starts behind the end. -/
theorem questions_from_end {len p e : Nat} (h : Questions m len n p e) (hp : len ≤ p) : e = p := by
  cases h with
  | nil => rfl
  | cons hname => exact absurd hname.start (Nat.not_lt.mpr hp)

/-- Behind one question, what holds of the others holds of all. -/
theorem AtNameEnd.questions {len p q e : Nat} (h : AtNameEnd m len p q)
    (hrest : AtQuestionsEnd m len n (q + 4) e) : AtQuestionsEnd m len (n + 1) p e := by
  by_cases hfits : q + 4 ≤ len
  · rcases h.2 with hname | ⟨hend, -⟩
    · rcases hrest with hrest | ⟨hend, hnone⟩
      · exact .inl (.cons hname hfits hrest)
      · refine .inr ⟨hend, fun e' hall => ?_⟩
        cases hall with
        | cons hname' _ hrest' =>
            rw [hname'.unique hname] at hrest'
            exact hnone e' hrest'
    · omega
  · -- the question is cut off
    refine .inr ⟨?_, fun e' hall => ?_⟩
    · rcases hrest with hrest | ⟨hend, -⟩
      · rw [questions_from_end hrest (by omega)]
        omega
      · exact hend
    · cases hall with
      | cons hname' hle =>
          rcases h.2 with hname | ⟨-, hnone⟩
          · rw [hname'.unique hname] at hle
            exact hfits hle
          · exact hnone _ hname'

/-- The walk over the questions ends behind the last one. -/
theorem scans_skipQuestions (hlen : len.toNat ≤ 512) {fuel : Nat} (hfuel : len.toNat < fuel)
    {p : UInt16} (hclean : ¬QuestionTrap m len.toNat n p.toNat) :
    Scans (skipQuestions m len fuel n p) fun q =>
      AtQuestionsEnd m len.toNat n p.toNat q.toNat := by
  induction n generalizing p with
  | zero => exact Logged.total_pure (.inl .nil)
  | succ n ih =>
      refine Logged.total_ite (fun hlt => ?_) fun hge => ?_
      · have hin : p.toNat < len.toNat := UInt16.lt_iff_toNat_lt.mp hlt
        refine Logged.total_bind (scans_skipLabels hlen (by omega) (by omega)
          fun hmis => hclean (.name hmis)) fun q hq => ?_
        have hbound := hq.1
        refine Logged.total_bind (scans_advance (by change _ + 4 < _; omega)) fun r hr => ?_
        change r.toNat = q.toNat + 4 at hr
        have hrest : ¬QuestionTrap m len.toNat n r.toNat := by
          intro htrap
          have hstart := htrap.start
          rw [hr] at htrap hstart
          rcases hq.2 with hname | ⟨hend, -⟩
          · exact hclean (.next hname (Nat.le_of_lt hstart) htrap)
          · omega
        refine (ih hrest).mono fun e he => AtNameEnd.questions hq ?_
        rwa [← hr]
      · refine Logged.total_pure (.inr ⟨?_, fun e hall => ?_⟩)
        · exact UInt16.le_iff_toNat_le.mp (UInt16.not_lt.mp hge)
        · cases hall with
          | cons hname => exact hge (UInt16.lt_iff_toNat_lt.mpr hname.start)

theorem scans_skipAnswerName (hlen : len.toNat ≤ 512) {fuel : Nat} (hfuel : len.toNat < fuel)
    {p : UInt16} (hin : p.toNat < len.toNat) (hclean : ¬AnswerTrap m len.toNat (n + 1) p.toNat) :
    Scans (skipAnswerName m len fuel p) fun q => AtNameEnd m len.toNat p.toNat q.toNat := by
  refine Logged.total_ite (fun hptr => ?_) fun hptr => ?_
  · refine (scans_advance (by change _ + 2 < _; omega)).mono fun q hq => ?_
    rw [hq]
    exact atNameEnd_pointer hin ((pointer_iff _).mp hptr)
  · rw [pointer_iff] at hptr
    exact scans_skipLabels hlen (by omega) (by omega)
      fun hmis => hclean (.name (Nat.lt_of_not_le hptr) hmis)

/-- What the answers from here on resolve to. -/
def ReadsAddress (m : View) (len n p : Nat) (ip : Option UInt32) : Prop :=
  ∀ x, ip = some x ↔ ∃ a, FirstAddress m len n p a ∧ x = m.u32 a

theorem readsAddress_none {len p : Nat} (h : ∀ a, ¬FirstAddress m len n p a) :
    ReadsAddress m len n p none := by
  intro x
  constructor
  · intro hx
    cases hx
  · rintro ⟨a, ha, -⟩
    exact absurd ha (h a)

/-- Where the name is not followed by the rest of a record. -/
theorem no_record {len p q : Nat} (h : AtNameEnd m len p q) (hcut : len < q + 10) (a : Nat) :
    ¬FirstAddress m len n p a := by
  intro hfirst
  rcases h.2 with hname | ⟨-, hnone⟩
  · cases hfirst with
    | here hname' =>
        have := hname'.unique hname
        omega
    | skip hname' =>
        have := hname'.unique hname
        omega
  · cases hfirst with
    | here hname' => exact hnone _ hname'
    | skip hname' => exact hnone _ hname'

/-- An address is the first one. -/
theorem readsAddress_here {len p q : Nat} (hname : Name m len p q) (hfits : q + 14 ≤ len)
    (haddr : IsAddress m q) : ReadsAddress m len (n + 1) p (some (m.u32 (q + 10))) := by
  intro x
  constructor
  · intro hx
    cases hx
    exact ⟨q + 10, .here hname hfits haddr, rfl⟩
  · rintro ⟨a, ha, rfl⟩
    cases ha with
    | here hname' => rw [hname'.unique hname]
    | skip hname' hother =>
        rw [hname'.unique hname] at hother
        exact absurd haddr hother

/-- A record that is none, or is cut off: what holds behind it holds from it on. -/
theorem ReadsAddress.skip {len p q : Nat} {ip : Option UInt32} (hname : Name m len p q)
    (hother : IsAddress m q → len < q + 14)
    (h : ReadsAddress m len n (q + 10 + be16 m (q + 8)) ip) :
    ReadsAddress m len (n + 1) p ip := by
  intro x
  rw [h x]
  constructor
  · rintro ⟨a, ha, rfl⟩
    have hstart := firstAddress_start ha
    refine ⟨a, .skip hname (fun haddr => ?_) (Nat.le_of_lt hstart) ha, rfl⟩
    have hcut := hother haddr
    rw [haddr.2] at hstart
    omega
  · rintro ⟨a, ha, rfl⟩
    cases ha with
    | here hname' hfits haddr =>
        rw [hname'.unique hname] at hfits haddr
        have := hother haddr
        omega
    | skip hname' _ _ hrest =>
        rw [hname'.unique hname] at hrest
        exact ⟨a, hrest, rfl⟩

/-- The walk over the answers stops at the first address. -/
theorem scans_readAnswers (hlen : len.toNat ≤ 512) {fuel : Nat} (hfuel : len.toNat < fuel)
    {p : UInt16} (hclean : ¬AnswerTrap m len.toNat n p.toNat) :
    Scans (readAnswers m len fuel n p) (ReadsAddress m len.toNat n p.toNat) := by
  induction n generalizing p with
  | zero => exact Logged.total_pure (readsAddress_none fun a ha => nomatch ha)
  | succ n ih =>
      refine Logged.total_ite (fun hlt => ?_) fun hge => ?_
      · have hin : p.toNat < len.toNat := UInt16.lt_iff_toNat_lt.mp hlt
        refine Logged.total_bind (scans_skipAnswerName hlen hfuel hin hclean) fun q hq => ?_
        refine Logged.total_ite (fun hcut => ?_) fun hfits => ?_
        · exact Logged.total_pure (readsAddress_none (no_record hq hcut))
        have hname : Name m len.toNat p.toNat q.toNat := by
          rcases hq.2 with hname | ⟨hend, -⟩
          · exact hname
          · omega
        refine Logged.total_bind (scans_advance (by change _ + 10 < _; omega)) fun r hr => ?_
        change r.toNat = q.toNat + 10 at hr
        refine Logged.total_ite (fun haddr => ?_) fun hother => ?_
        · rw [hr]
          exact Logged.total_pure (readsAddress_here hname (by omega)
            ((isAddress_iff m _).mpr ⟨haddr.1, haddr.2.1⟩))
        · have hcut : IsAddress m q.toNat → len.toNat < q.toNat + 14 := by
            intro haddr
            rw [isAddress_iff] at haddr
            by_contra hle
            exact hother ⟨haddr.1, haddr.2, by omega⟩
          have hrdlen := toNat_respU16 m (q.toNat + 8)
          -- the length of an address is 4, any other must not wrap the cursor
          have hroom : r.toNat + (respU16 m (q.toNat + 8)).toNat < 65536 := by
            by_contra hwrap
            by_cases haddr : IsAddress m q.toNat
            · have := haddr.2
              omega
            · exact hclean (.wrap hname (by omega) haddr (by omega))
          refine Logged.total_bind (scans_advance hroom) fun r' hr' => ?_
          rw [hr, hrdlen] at hr'
          have hrest : ¬AnswerTrap m len.toNat n r'.toNat := by
            intro htrap
            have hstart := htrap.start
            rw [hr'] at htrap hstart
            refine hclean (.next hname (fun haddr => ?_) (Nat.le_of_lt hstart) htrap)
            have := hcut haddr
            have := haddr.2
            omega
          refine (ih hrest).mono fun ip hip => ReadsAddress.skip hname hcut ?_
          rwa [← hr']
      · refine Logged.total_pure (readsAddress_none fun a ha => ?_)
        exact hge (UInt16.lt_iff_toNat_lt.mpr (firstAddress_start ha))

/-! ## The response -/

/-- The message answers the query with this number, and its first address is `x`. -/
structure Answers (txid : UInt16) (m : View) (len : Nat) (x : UInt32) : Prop where
  header : 12 ≤ len
  id : be16 m 0 = txid.toNat
  address : ∃ a, Resolves m len a ∧ x = m.u32 a

/-- Without a trap, the scan finds the first address of the answers, or nothing. -/
theorem scans_dnsScan (hlen : len.toNat ≤ 512) {fuel : Nat} (hfuel : len.toNat < fuel)
    (txid : UInt16) (hclean : Headed txid m len.toNat → ¬Trapped m len.toNat) :
    Scans (dnsScan txid m len fuel) fun ip => ∀ x, ip = some x ↔ Answers txid m len.toNat x := by
  have hnone : (∀ x, ¬Answers txid m len.toNat x) →
      ∀ x, (none : Option UInt32) = some x ↔ Answers txid m len.toNat x := fun h x =>
    ⟨nofun, fun hx => absurd hx (h x)⟩
  refine Logged.total_ite (fun hshort => ?_) fun hheader => ?_
  · refine Logged.total_pure (hnone fun x hx => ?_)
    exact Nat.not_lt.mpr hx.header (UInt16.lt_iff_toNat_lt.mp hshort)
  have hheader : 12 ≤ len.toNat := UInt16.le_iff_toNat_le.mp (UInt16.not_lt.mp hheader)
  refine Logged.total_ite (fun hid => ?_) fun hid => ?_
  · refine Logged.total_pure (hnone fun x hx => hid (UInt16.toNat_inj.mp ?_))
    rw [toNat_ntohs_u16]
    exact hx.id
  have hid : be16 m 0 = txid.toNat := by
    rw [← toNat_ntohs_u16, Decidable.of_not_not hid]
  refine Logged.total_ite (fun hempty => ?_) fun hempty => ?_
  · refine Logged.total_pure (hnone fun x hx => ?_)
    rcases hx.address with ⟨a, ⟨p, -, hfirst⟩, -⟩
    rw [← toNat_ntohs_u16, hempty] at hfirst
    cases hfirst
  -- behind the checks the sections are walked through
  have hclean : ¬Trapped m len.toNat := by
    refine hclean ⟨hheader, hid, fun hzero => hempty ?_⟩
    rw [← UInt16.toNat_inj, toNat_ntohs_u16]
    exact hzero
  rw [toNat_ntohs_u16, toNat_ntohs_u16]
  refine Logged.total_bind (scans_skipQuestions (p := 12) hlen hfuel fun htrap =>
    hclean (.inl htrap)) fun p hp => ?_
  have hanswers : ¬AnswerTrap m len.toNat (be16 m 6) p.toNat := by
    intro htrap
    rcases hp with hquestions | ⟨hend, -⟩
    · exact hclean (.inr ⟨_, hquestions, htrap⟩)
    · exact Nat.not_lt.mpr hend htrap.start
  refine (scans_readAnswers hlen hfuel hanswers).mono fun ip hip x => ?_
  rw [hip x]
  constructor
  · rintro ⟨a, ha, rfl⟩
    rcases hp with hquestions | ⟨hend, -⟩
    · exact ⟨hheader, hid, a, ⟨_, hquestions, ha⟩, rfl⟩
    · exact absurd (firstAddress_start ha) (Nat.not_lt.mpr hend)
  · rintro ⟨-, -, a, ⟨q, hquestions', ha⟩, rfl⟩
    rcases hp with hquestions | ⟨-, hnone⟩
    · rw [hquestions'.unique hquestions] at ha
      exact ⟨a, ha, rfl⟩
    · exact absurd hquestions' (hnone q)

/-! ## Every scan ends -/

/-- The scan ends. -/
def Ends {α : Type} (x : Scan α) : Prop := ∃ a, x.result = .ok a

theorem ends_bind {α β : Type} {x : Scan α} {f : α → Scan β} (hx : Ends x)
    (hf : ∀ a, x.result = .ok a → Ends (f a)) : Ends (x >>= f) := by
  rcases hx with ⟨a, ha⟩
  rcases hf a ha with ⟨b, hb⟩
  exact ⟨b, Logged.result_bind.mpr ⟨a, ha, hb⟩⟩

theorem ends_ite {α : Type} {c : Prop} [Decidable c] {x y : Scan α} (hx : c → Ends x)
    (hy : ¬c → Ends y) : Ends (if c then x else y) := by
  split
  · exact hx ‹_›
  · exact hy ‹_›

theorem ends_advance (rpos k : UInt16) : Ends (advance rpos k) := ⟨_, rfl⟩

/-- A label gets the cursor on, as the end is far from where it wraps. -/
theorem ends_skipLabels (hlen : len.toNat ≤ 1500) {fuel : Nat} {p : UInt16}
    (hfuel : len.toNat - p.toNat < fuel) : Ends (skipLabels pointers m len fuel p) := by
  induction fuel generalizing p with
  | zero => omega
  | succ fuel ih =>
      unfold skipLabels
      refine ends_ite (fun hlt => ?_) fun _ => ⟨_, rfl⟩
      refine ends_ite (fun _ => ends_advance ..) fun _ => ?_
      refine ends_ite (fun _ => ends_advance ..) fun _ => ?_
      refine ends_bind (ends_advance ..) fun q hq => ih ?_
      have hin : p.toNat < len.toNat := UInt16.lt_iff_toNat_lt.mp hlt
      have hbyte := (m p.toNat).toNat_lt
      have hnat : q.toNat = p.toNat + (1 + (m p.toNat).toNat) := by
        cases hq
        rw [UInt16.toNat_add, UInt16.toNat_add, UInt8.toNat_toUInt16]
        change (_ + (1 + _) % 65536) % 65536 = _
        omega
      omega

theorem ends_skipQuestions (hlen : len.toNat ≤ 1500) {fuel : Nat} (hfuel : len.toNat < fuel)
    (p : UInt16) : Ends (skipQuestions m len fuel n p) := by
  induction n generalizing p with
  | zero => exact ⟨_, rfl⟩
  | succ n ih =>
      refine ends_ite (fun _ => ?_) fun _ => ⟨_, rfl⟩
      refine ends_bind (ends_skipLabels hlen (by omega)) fun q _ => ?_
      exact ends_bind (ends_advance ..) fun r _ => ih r

theorem ends_readAnswers (hlen : len.toNat ≤ 1500) {fuel : Nat} (hfuel : len.toNat < fuel)
    (p : UInt16) : Ends (readAnswers m len fuel n p) := by
  induction n generalizing p with
  | zero => exact ⟨_, rfl⟩
  | succ n ih =>
      refine ends_ite (fun _ => ?_) fun _ => ⟨_, rfl⟩
      refine ends_bind (ends_ite (fun _ => ends_advance ..) fun _ =>
        ends_skipLabels hlen (by omega)) fun q _ => ?_
      refine ends_ite (fun _ => ⟨_, rfl⟩) fun _ => ?_
      refine ends_bind (ends_advance ..) fun r _ => ?_
      refine ends_ite (fun _ => ⟨_, rfl⟩) fun _ => ?_
      exact ends_bind (ends_advance ..) fun r' _ => ih r'

/-- Whatever a datagram holds, its scan ends. -/
theorem scanReply_ends (txid : UInt16) {data : List UInt8} (hlen : data.length ≤ 1500) :
    Ends (scanReply txid data) := by
  have hnat : data.length.toUInt16.toNat ≤ 1500 := (Nat.mod_le _ _).trans hlen
  refine ends_ite (fun _ => ⟨_, rfl⟩) fun _ => ?_
  refine ends_ite (fun _ => ⟨_, rfl⟩) fun _ => ?_
  refine ends_ite (fun _ => ⟨_, rfl⟩) fun _ => ?_
  refine ends_bind (ends_skipQuestions hnat (Nat.lt_succ_self _) _) fun p _ => ?_
  exact ends_readAnswers hnat (Nat.lt_succ_self _) p

/-! ## `dns_resolve` -/

/-- Behind an exchange, `dns_resolve` returns what the scan of the reply returns. -/
theorem dnsResolve_of_reply {d : Devices} {fuel : Nat} {hostname : List UInt8} {r r' : Resolver}
    {rcv : Received} {ip : Option UInt32}
    (hreply : (dnsExchange d fuel hostname r).result = .ok (some rcv, r'))
    (hscan : (scanReply r.txid rcv.data).result = .ok ip) :
    (dnsResolve d fuel hostname r).result = .ok (ip, r') := by
  unfold dnsResolve
  rw [Logged.result_bind_of_ok hreply]
  dsimp only
  rw [hscan]
  rfl

/-- A response of at most 512 bytes is read as RFC 1035 prescribes, and the cursor only goes
forward, unless it has the header of an answer and its walk meets something that is misread. -/
theorem dns_scan_resolves (d : Devices) (fuel : Nat) (hostname : List UInt8) (r r' : Resolver)
    (rcv : Received) (hreply : (dnsExchange d fuel hostname r).result = .ok (some rcv, r'))
    (hlen : rcv.data.length ≤ 512)
    (hclean : Headed r.txid (respView rcv.data) rcv.data.length →
      ¬Trapped (respView rcv.data) rcv.data.length) :
    ∃ ip, (dnsResolve d fuel hostname r).result = .ok (ip, r') ∧
      (∀ x, ip = some x ↔ Answers r.txid (respView rcv.data) rcv.data.length x) ∧
      ∀ e ∈ (scanReply r.txid rcv.data).log, e.1 ≤ e.2 := by
  have hnat : rcv.data.length.toUInt16.toNat = rcv.data.length := Nat.mod_eq_of_lt (by omega)
  have hscan := @scans_dnsScan (respView rcv.data) rcv.data.length.toUInt16
    (by omega) _ (Nat.lt_succ_self _) r.txid (by rwa [hnat])
  rw [hnat] at hscan
  rcases hscan fun _ _ => trivial with ⟨ip, hip, hanswers, hforward⟩
  have hip' : (scanReply r.txid rcv.data).result = .ok ip := by
    unfold scanReply
    dsimp only
    rwa [hnat]
  refine ⟨ip, dnsResolve_of_reply hreply hip', hanswers, ?_⟩
  unfold scanReply
  dsimp only
  rwa [hnat]

/-! ## Two responses -/

/-- The address record 1.2.3.4, for the name in front of it. -/
def addressRecord : List UInt8 := [0, 1, 0, 1, 0, 0, 0, 0, 0, 4, 1, 2, 3, 4]

/-- One answer, for this name. -/
def oneAnswer (name : List UInt8) : List UInt8 :=
  dnsHeader 0x4F53 0x8180 0 1 0 0 ++ name ++ addressRecord

/-- The peer answers with a compressed name. -/
theorem dns_scan_resolves_compressed : ∃ r' ip,
    (dnsResolve (respondingPeer (oneAnswer [0xC0, 0x0C])) 8 [0x61] peerResolver).result =
      .ok (ip, r') ∧
    ∀ x, ip = some x ↔
      Answers 0x4F53 (respView (oneAnswer [0xC0, 0x0C])) (oneAnswer [0xC0, 0x0C]).length x := by
  have hexchange : (dnsExchange (respondingPeer (oneAnswer [0xC0, 0x0C])) 8 [0x61]
      peerResolver).result.toOption.map Prod.fst =
      some (some ⟨oneAnswer [0xC0, 0x0C], peerIp, 53⟩) := by decide
  rcases Logged.exists_of_toOption hexchange with ⟨r', hreply⟩
  have hquestions : be16 (respView (oneAnswer [0xC0, 0x0C])) 4 = 0 := by decide
  have hanswers : be16 (respView (oneAnswer [0xC0, 0x0C])) 6 = 1 := by decide
  have hname : Name (respView (oneAnswer [0xC0, 0x0C])) 28 12 14 :=
    .pointer (by decide) (by decide)
  have haddr : IsAddress (respView (oneAnswer [0xC0, 0x0C])) 14 := by decide
  have hclean : ¬Trapped (respView (oneAnswer [0xC0, 0x0C])) 28 := by
    unfold Trapped
    rw [hquestions, hanswers]
    rintro (htrap | ⟨p, hp, htrap⟩)
    · cases htrap
    · cases hp
      cases htrap with
      | name hlt => exact absurd hlt (by decide)
      | wrap hname' _ hother =>
          rw [hname'.unique hname] at hother
          exact hother haddr
      | next hname' hother =>
          rw [hname'.unique hname] at hother
          exact hother haddr
  rcases dns_scan_resolves _ 8 [0x61] peerResolver r' _ hreply (by decide)
      (fun _ => hclean) with
    ⟨ip, hresolve, hiff, -⟩
  exact ⟨r', ip, hresolve, hiff⟩

/-- A name that ends with a pointer behind a label is legal, and its address is not found. -/
theorem label_pointer_unresolved :
    ¬∀ (d : Devices) (fuel : Nat) (hostname : List UInt8) (r r' : Resolver) (rcv : Received),
      (dnsExchange d fuel hostname r).result = .ok (some rcv, r') → rcv.data.length ≤ 512 →
      ∃ ip, (dnsResolve d fuel hostname r).result = .ok (ip, r') ∧
        (∀ x, ip = some x ↔ Answers r.txid (respView rcv.data) rcv.data.length x) ∧
        ∀ e ∈ (scanReply r.txid rcv.data).log, e.1 ≤ e.2 := by
  intro h
  have hexchange : (dnsExchange (respondingPeer (oneAnswer [1, 0x61, 0xC0, 0x0C])) 8 [0x61]
      peerResolver).result.toOption.map Prod.fst =
      some (some ⟨oneAnswer [1, 0x61, 0xC0, 0x0C], peerIp, 53⟩) := by decide
  have hnone : (dnsResolve (respondingPeer (oneAnswer [1, 0x61, 0xC0, 0x0C])) 8 [0x61]
      peerResolver).result.toOption.map Prod.fst = some none := by decide
  rcases Logged.exists_of_toOption hexchange with ⟨r', hreply⟩
  rcases h _ 8 [0x61] peerResolver r' _ hreply (by decide) with ⟨ip, hresolve, hiff, -⟩
  rw [hresolve] at hnone
  cases hnone
  refine absurd ((hiff 0x04030201).mpr ⟨by decide, by decide, 26, ?_, ?_⟩) nofun
  · have hquestions : be16 (respView (oneAnswer [1, 0x61, 0xC0, 0x0C])) 4 = 0 := by decide
    have hanswers : be16 (respView (oneAnswer [1, 0x61, 0xC0, 0x0C])) 6 = 1 := by decide
    unfold Resolves
    rw [hquestions, hanswers]
    refine ⟨12, .nil, .here (q := 16) ?_ (by decide) (by decide)⟩
    exact .label (by decide) (by decide) (by decide)
      (.pointer (by decide) (by decide))
  · decide

end PolandOS.Net
