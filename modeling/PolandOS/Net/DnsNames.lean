import Mathlib.Data.List.TakeWhile
import PolandOS.Lib.Rfc1035
import PolandOS.Net.Dns
import PolandOS.Net.SendReports

/-! # The name in a DNS query

`dns_encode_name` writes a label for whatever stands between two dots, with its length cut
to a byte. `dns_name_encoded_iff`: what it writes is a name that stands for the hostname
exactly when the labels of the hostname are those of a valid name; and nothing but the state
of the network makes `dns_resolve` refuse a hostname.
-/

namespace PolandOS.Net

open Logging Rfc1035

/-! ## Labels -/

/-- The labels of a hostname are what stands between its dots. A dot at the end ends the
last of them. -/
inductive HostLabels : List UInt8 → List (List UInt8) → Prop
  | nil : HostLabels [] []
  | last {l : List UInt8} : l ≠ [] → dot ∉ l → HostLabels l [l]
  | cons {l t : List UInt8} {ls : List (List UInt8)} : dot ∉ l → HostLabels t ls →
      HostLabels (l ++ dot :: t) (l :: ls)

/-- The labels, joined with dots, are the hostname, up to a dot at its end. -/
def Joined (labels : List (List UInt8)) (hostname : List UInt8) : Prop :=
  List.intercalate [dot] labels = hostname ∨ List.intercalate [dot] labels ++ [dot] = hostname

variable {hostname : List UInt8} {labels : List (List UInt8)}

/-- A hostname is cut at its first dot. -/
theorem cut_label (start : List UInt8) : dot ∉ start.takeWhile (· ≠ dot) ∧
    (start = start.takeWhile (· ≠ dot) ∨ ∃ t, start = start.takeWhile (· ≠ dot) ++ dot :: t) := by
  induction start with
  | nil => exact ⟨List.not_mem_nil, .inl rfl⟩
  | cons c cs ih =>
      by_cases hc : c = dot
      · subst hc
        exact ⟨by simp, .inr ⟨cs, by simp⟩⟩
      · rw [List.takeWhile_cons_of_pos (by simpa using hc)]
        refine ⟨fun hmem => (List.mem_cons.mp hmem).elim (fun h => hc h.symm) ih.1, ?_⟩
        rcases ih.2 with hall | ⟨t, ht⟩
        · exact .inl (congrArg _ hall)
        · exact .inr ⟨t, congrArg _ ht⟩

/-- Every hostname has labels. -/
theorem exists_hostLabels (hostname : List UInt8) : ∃ labels, HostLabels hostname labels := by
  induction hlen : hostname.length using Nat.strong_induction_on generalizing hostname with
  | _ n ih =>
      rcases cut_label hostname with ⟨hdot, hall | ⟨t, ht⟩⟩
      · cases hostname with
        | nil => exact ⟨_, .nil⟩
        | cons c cs => exact ⟨_, .last (List.cons_ne_nil _ _) (hall ▸ hdot)⟩
      · have hshort : t.length < n := by
          rw [← hlen, ht, List.length_append, List.length_cons]
          omega
        rcases ih t.length hshort t rfl with ⟨labels, hlabels⟩
        rw [ht]
        exact ⟨_, .cons hdot hlabels⟩

theorem forall_ne_dot {l : List UInt8} (h : dot ∉ l) (c : UInt8) (hc : c ∈ l) :
    decide (c ≠ dot) = true := by
  rw [decide_eq_true_iff]
  rintro rfl
  exact h hc

theorem takeWhile_label {l : List UInt8} (h : dot ∉ l) (t : List UInt8) :
    (l ++ dot :: t).takeWhile (· ≠ dot) = l := by
  rw [List.takeWhile_append_of_pos (forall_ne_dot h), List.takeWhile_cons_of_neg (by simp),
    List.append_nil]

theorem takeWhile_last {l : List UInt8} (h : dot ∉ l) : l.takeWhile (· ≠ dot) = l :=
  List.takeWhile_eq_self_iff.mpr (forall_ne_dot h)

/-! ## What is written -/

/-- A label as `dns_encode_name` writes it. -/
def narrowLabel (label : List UInt8) : List UInt8 :=
  label.length.toUInt8 :: label.take label.length.toUInt8.toNat

theorem encodeLabels_step {start label rest : List UInt8} {fuel : Nat} (hne : start ≠ [])
    (hlabel : start.takeWhile (· ≠ dot) = label) (hstart : start = label ++ rest) :
    encodeLabels (fuel + 1) start = narrowLabel label ++ encodeLabels fuel (rest.drop 1) := by
  have hle : label.length.toUInt8.toNat ≤ label.length := Nat.mod_le _ _
  cases start with
  | nil => exact absurd rfl hne
  | cons c cs =>
      have hloop : encodeLabels (fuel + 1) (c :: cs) =
          ((c :: cs).takeWhile (· ≠ dot)).length.toUInt8 ::
            (c :: cs).take ((c :: cs).takeWhile (· ≠ dot)).length.toUInt8.toNat ++
            encodeLabels fuel (((c :: cs).drop ((c :: cs).takeWhile (· ≠ dot)).length).drop 1) := rfl
      rw [hloop, hlabel, hstart, List.drop_left, List.take_append_of_le_length hle]
      rfl

/-- It writes one label for each label of the hostname. -/
theorem encodeLabels_eq (h : HostLabels hostname labels) {fuel : Nat}
    (hfuel : hostname.length ≤ fuel) :
    encodeLabels fuel hostname = labels.flatMap narrowLabel := by
  induction h generalizing fuel with
  | nil => cases fuel <;> rfl
  | @last l hne hdot =>
      cases fuel with
      | zero => exact absurd (List.length_eq_zero_iff.mp (Nat.le_zero.mp hfuel)) hne
      | succ fuel =>
          rw [encodeLabels_step hne (takeWhile_last hdot) (List.append_nil l).symm]
          cases fuel <;> simp [encodeLabels]
  | @cons l t ls hdot _ ih =>
      rw [List.length_append, List.length_cons] at hfuel
      cases fuel with
      | zero => omega
      | succ fuel =>
          rw [encodeLabels_step (by simp) (takeWhile_label hdot t) rfl, List.drop_succ_cons,
            List.drop_zero, ih (by omega), List.flatMap_cons]

theorem dnsEncodeName_eq (h : HostLabels hostname labels) :
    dnsEncodeName hostname = labels.flatMap narrowLabel ++ [0] := by
  rw [dnsEncodeName, encodeLabels_eq h (Nat.le_refl _)]

theorem narrowLabel_eq {label : List UInt8} (h : label.length ≤ 63) :
    narrowLabel label = encodeLabel label := by
  have hnat : label.length.toUInt8.toNat = label.length := Nat.mod_eq_of_lt (by omega)
  rw [narrowLabel, hnat, List.take_length, encodeLabel]

/-- Short labels are written as they are. -/
theorem flatMap_narrowLabel (h : ∀ l ∈ labels, l.length ≤ 63) :
    labels.flatMap narrowLabel ++ [0] = encodeName labels := by
  rw [encodeName]
  congr 1
  exact List.flatMap_congr fun l hl => narrowLabel_eq (h l hl)

theorem hostLabels_joined (h : HostLabels hostname labels) : Joined labels hostname := by
  induction h with
  | nil => exact .inl rfl
  | last => exact .inl List.intercalate_singleton
  | @cons l t ls _ hrest ih =>
      cases hrest with
      | nil => exact .inr (by rw [List.intercalate_singleton])
      | last | cons =>
          rw [Joined, List.intercalate_cons_of_ne_nil (List.cons_ne_nil _ _)]
          rcases ih with hjoin | hjoin
          · exact .inl (by rw [hjoin]; simp)
          · exact .inr (by rw [List.append_assoc, hjoin]; simp)

/-! ## Whose name it is -/

/-- What is joined starts with the first label; behind it comes the end or a dot. -/
theorem joined_cons {l : List UInt8} {ls : List (List UInt8)} (h : Joined (l :: ls) hostname) :
    hostname = l ∧ ls = [] ∨ ∃ t, hostname = l ++ dot :: t ∧ Joined ls t := by
  cases ls with
  | nil =>
      rw [Joined, List.intercalate_singleton] at h
      rcases h with hjoin | hjoin
      · exact .inl ⟨hjoin.symm, rfl⟩
      · exact .inr ⟨[], hjoin.symm, .inl rfl⟩
  | cons l' ls =>
      rw [Joined, List.intercalate_cons_of_ne_nil (List.cons_ne_nil _ _)] at h
      refine .inr ?_
      rcases h with hjoin | hjoin
      · exact ⟨_, by rw [← hjoin, List.append_assoc]; rfl, .inl rfl⟩
      · refine ⟨_, ?_, .inr rfl⟩
        rw [← hjoin]
        simp

/-- A label that is written in full ends where the hostname has a dot, or ends. -/
theorem label_unique {l l' t : List UInt8} (hdot : dot ∉ l) (hpre : l' <+: l)
    (h : l ++ t = l' ∨ ∃ t', l ++ t = l' ++ dot :: t') : l = l' := by
  rcases hpre with ⟨s, rfl⟩
  cases s with
  | nil => exact List.append_nil l'
  | cons c cs =>
      rcases h with h | ⟨t', h⟩
      · have hlen := congrArg List.length h
        simp only [List.length_append, List.length_cons] at hlen
        omega
      · -- the byte behind it would be a dot inside the label
        rw [List.append_assoc, List.append_cancel_left_eq] at h
        cases h
        exact absurd (by simp) hdot

/-- The name that is written starts with as much of the first label as it says. -/
theorem label_of_narrow {l l' rest rest' : List UInt8} (hlen : l'.length ≤ 63)
    (h : narrowLabel l ++ rest = encodeLabel l' ++ rest') : l' <+: l ∧
      (l = l' → rest = rest') := by
  have hle : l.length.toUInt8.toNat ≤ l.length := Nat.mod_le _ _
  have hnat' : l'.length.toUInt8.toNat = l'.length := Nat.mod_eq_of_lt (by omega)
  rw [narrowLabel, encodeLabel, List.cons_append, List.cons_append, List.cons.injEq] at h
  rcases h with ⟨hcount, htail⟩
  rw [hcount, hnat'] at htail
  rw [hcount, hnat'] at hle
  rcases List.append_inj htail (by rw [List.length_take_of_le hle]) with ⟨htake, hrest⟩
  exact ⟨htake ▸ List.take_prefix .., fun _ => hrest⟩

/-- If what is written is a valid name for the hostname, then it is made of its labels. -/
theorem name_unique (h : HostLabels hostname labels) {labels' : List (List UInt8)}
    (hvalid : ∀ l ∈ labels', 1 ≤ l.length ∧ l.length ≤ 63) (hjoined : Joined labels' hostname)
    (hname : labels.flatMap narrowLabel ++ [0] = encodeName labels') : labels' = labels := by
  -- the first label is that of the hostname, and the rest by induction
  induction h generalizing labels' with
  | nil =>
      cases labels' with
      | nil => rfl
      | cons l' ls' =>
          rcases joined_cons hjoined with ⟨hnil, -⟩ | ⟨t, ht, -⟩
          · have := (hvalid l' (List.mem_cons_self ..)).1
            rw [← hnil] at this
            exact absurd this (by decide)
          · simp at ht
  | @last l hne hdot =>
      cases labels' with
      | nil =>
          rcases hjoined with hjoin | hjoin
          · exact absurd hjoin.symm hne
          · exact absurd (hjoin ▸ List.mem_singleton_self dot) hdot
      | cons l' ls' =>
          rw [List.flatMap_cons, List.append_assoc, encodeName_cons] at hname
          have hpre := (label_of_narrow (hvalid l' (List.mem_cons_self ..)).2 hname).1
          rcases joined_cons hjoined with ⟨hsame, hnil⟩ | ⟨t, ht, -⟩
          · rw [hsame, hnil]
          · exact absurd (ht ▸ by simp) hdot
  | @cons l t ls hdot _ ih =>
      cases labels' with
      | nil =>
          rcases hjoined with hjoin | hjoin
          · simp at hjoin
          · -- the hostname is a dot, which is written as an empty label
            cases l with
            | nil => simp [narrowLabel] at hname
            | cons c cs => simp at hjoin
      | cons l' ls' =>
          rw [List.flatMap_cons, List.append_assoc, encodeName_cons] at hname
          rcases label_of_narrow (hvalid l' (List.mem_cons_self ..)).2 hname with ⟨hpre, hrest⟩
          rcases joined_cons hjoined with ⟨hsame, -⟩ | ⟨t', ht', hjoined'⟩
          · have hsame' := label_unique hdot hpre (.inl hsame)
            simp [hsame'] at hsame
          · have hl := label_unique hdot hpre (.inr ⟨t', ht'⟩)
            subst hl
            have ht := List.append_cancel_left ht'
            cases ht
            rw [ih (fun k hk => hvalid k (List.mem_cons_of_mem _ hk)) hjoined' (hrest rfl)]

/-! ## Refusals -/

variable {d : Devices} {rx : Receiver} {fuel : Nat}

theorem length_labels (h : HostLabels hostname labels) :
    (labels.flatMap narrowLabel).length ≤ hostname.length + 1 := by
  have hnarrow : ∀ l : List UInt8, (narrowLabel l).length ≤ l.length + 1 := by
    intro l
    rw [narrowLabel, List.length_cons, List.length_take]
    omega
  induction h with
  | nil => exact Nat.zero_le _
  | @last l _ _ =>
      rw [List.flatMap_cons, List.flatMap_nil, List.append_nil]
      exact hnarrow l
  | @cons l _ _ _ _ ih =>
      have := hnarrow l
      rw [List.flatMap_cons, List.length_append, List.length_append, List.length_cons]
      omega

theorem length_dnsQuery (txid : UInt16) (hostname : List UInt8) :
    (dnsQuery txid hostname).length ≤ hostname.length + 18 := by
  rcases exists_hostLabels hostname with ⟨labels, hlabels⟩
  have := length_labels hlabels
  have hheader : (dnsHeader txid 0x0100 1 0 0 0).length = 12 := rfl
  rw [dnsQuery, dnsEncodeName_eq hlabels]
  simp only [List.length_append, hheader, List.length_cons, List.length_nil]
  omega

/-- A packet that is small enough does not go unnoticed. -/
theorem ipv4Send_log {dst : UInt32} {protocol : UInt8} {payload : List UInt8} {s : Host}
    (h : payload.length ≤ 1480) : (ipv4Send d rx fuel dst protocol payload s).log ≠ [] := by
  unfold ipv4Send
  rw [if_neg (Nat.not_lt.mpr h)]
  dsimp only
  generalize (if dst &&& s.subnet = s.ip &&& s.subnet then dst else s.gateway) = hop
  unfold arpResolve
  cases arpCacheLookup hop s with
  | none =>
      -- the wait is logged before anything else
      exact Logged.log_bind_ne_nil (Logged.log_bind_ne_nil (List.cons_ne_nil _ _))
  | some entry =>
      have hfits : ¬1500 < 20 + payload.length := by omega
      simp only [Logged.pure_bind, ethSend, List.length_append, length_ipv4Header, gt_iff_lt, hfits,
        if_false]
      exact List.cons_ne_nil _ _

/-- `udp_send` on a socket of an application, with little data. -/
theorem udpSend_log {i : Fin 8} {ip : UInt32} {port : UInt16} {data : List UInt8} {s : Host}
    (hactive : (s.udpSockets i).active = true) (hdata : data.length ≤ 1472) :
    (udpSend d fuel (i : Nat) ip port data s).log ≠ [] := by
  have hslot : udpSlot (i : Nat) = some i := by
    rw [udpSlot, dif_pos (by omega)]
    rfl
  unfold udpSend
  rw [hslot]
  dsimp only
  rw [if_neg (by simp [hactive]), if_neg (Nat.not_lt.mpr hdata)]
  refine ipv4Send_log ?_
  rw [List.length_append]
  change 8 + data.length ≤ 1480
  omega

/-- The resolver is not configured, or has no socket to ask with. -/
def Resolver.refuses (r : Resolver) : Prop :=
  r.configured = false ∨ ∀ i, (r.host.udpSockets i).active = true

/-- `dns_resolve` returns -1 and has sent nothing. -/
def Refused (d : Devices) (fuel : Nat) (hostname : List UInt8) (r : Resolver) : Prop :=
  (dnsResolve d fuel hostname r).log = [] ∧
    ∃ r', (dnsResolve d fuel hostname r).result = .ok (none, r')

/-- `dns_resolve` sends nothing exactly if the resolver refuses all hostnames. -/
theorem refused_iff {r : Resolver} (hlen : hostname.length ≤ 490) :
    Refused d fuel hostname r ↔ r.refuses := by
  unfold Refused dnsResolve dnsExchange
  by_cases hconfigured : r.configured = true
  swap
  · have hoff : r.configured = false := by simpa using hconfigured
    rw [if_pos (by simp [hoff])]
    exact iff_of_true ⟨rfl, _, rfl⟩ (.inl hoff)
  rw [if_neg (by simp [hconfigured])]
  unfold udpOpen
  cases hslot : (List.finRange 8).find? fun i => !(r.host.udpSockets i).active with
  | none =>
      have hall : ∀ i, (r.host.udpSockets i).active = true := by
        intro i
        simpa using List.find?_eq_none.mp hslot i (List.mem_finRange i)
      exact iff_of_true ⟨rfl, _, rfl⟩ (.inr hall)
  | some i =>
      have hfree := List.find?_some hslot
      have hquery := length_dnsQuery r.txid hostname
      refine iff_of_false ?_ ?_
      · -- the query goes to `udp_send`, which shows in the log
        rintro ⟨hnil, -⟩
        dsimp only at hnil
        rw [if_neg (by omega)] at hnil
        refine Logged.log_bind_ne_nil (Logged.log_bind_ne_nil ?_) hnil
        exact udpSend_log (by simp [Host.setUdp]) (by omega)
      · rintro (hoff | hall)
        · exact absurd (hconfigured.symm.trans hoff) (by decide)
        · simp [hall i] at hfree

/-! ## Names -/

/-- What `dns_encode_name` writes is a name for the hostname, and its length is a `u16`. -/
def Encodes (hostname : List UInt8) : Prop :=
  ∃ labels, ValidName labels ∧ dnsEncodeName hostname = encodeName labels ∧
    Joined labels hostname ∧ (dnsEncodeName hostname).length < 65536

/-- What is written for a hostname is a name for it exactly when its labels make up one. -/
theorem encodes_iff (hlabels : HostLabels hostname labels) : Encodes hostname ↔ ValidName labels := by
  constructor
  · rintro ⟨labels', hvalid, hname, hjoined, -⟩
    rw [dnsEncodeName_eq hlabels] at hname
    rwa [name_unique hlabels hvalid.label hjoined hname] at hvalid
  · intro hvalid
    have hname : dnsEncodeName hostname = encodeName labels := by
      rw [dnsEncodeName_eq hlabels, flatMap_narrowLabel fun l hl => (hvalid.label l hl).2]
    refine ⟨labels, hvalid, hname, hostLabels_joined hlabels, ?_⟩
    rw [hname]
    exact Nat.lt_of_le_of_lt hvalid.total (by decide)

/-- A hostname is refused or becomes a name for it exactly when the resolver refuses all of
them, or the labels of the hostname make up a valid name. -/
theorem dns_name_encoded_iff (d : Devices) (fuel : Nat) (r : Resolver) (hostname : List UInt8)
    (labels : List (List UInt8)) (hlen : hostname.length ≤ 490)
    (hlabels : HostLabels hostname labels) :
    Refused d fuel hostname r ∨ Encodes hostname ↔ r.refuses ∨ ValidName labels := by
  rw [refused_iff hlen, encodes_iff hlabels]

/-- `a.b`. -/
theorem dns_name_encoded_iff_two :
    Refused quietDevices 0 [0x61, dot, 0x62] peerResolver ∨ Encodes [0x61, dot, 0x62] :=
  (dns_name_encoded_iff quietDevices 0 peerResolver [0x61, dot, 0x62] [[0x61], [0x62]] (by decide)
    (.cons (l := [0x61]) (by decide) (.last (by decide) (by decide)))).mpr
    (.inr ⟨by decide, by decide⟩)

/-- `a..b`: the empty label in the middle is written as the end of the name. -/
theorem empty_label_encoded :
    ¬∀ (d : Devices) (fuel : Nat) (r : Resolver) (hostname : List UInt8), hostname ≠ [] →
      hostname.length ≤ 490 → 0 ∉ hostname → Refused d fuel hostname r ∨ Encodes hostname := by
  intro h
  have hlabels : HostLabels [0x61, dot, dot, 0x62] [[0x61], [], [0x62]] :=
    .cons (l := [0x61]) (by decide)
      (.cons (l := []) (by decide) (.last (by decide) (by decide)))
  rcases h quietDevices 0 peerResolver [0x61, dot, dot, 0x62] (by decide) (by decide) (by decide) with
    hrefused | hencodes
  · rcases (refused_iff (by decide)).mp hrefused with hoff | hall
    · exact absurd hoff (by decide)
    · exact absurd (hall 0) (by decide)
  · exact absurd (((encodes_iff hlabels).mp hencodes).label [] (by decide)).1 (by decide)

end PolandOS.Net
