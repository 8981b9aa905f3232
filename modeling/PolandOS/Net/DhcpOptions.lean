import PolandOS.Lib.Rfc2132
import PolandOS.Net.DhcpWaits
import PolandOS.Net.ReceiveBuffer

/-! # The options of a DHCP message

`add_option` and `parse_options` of `kernel/net/dhcp.c` with their 16-bit cursors, against
the layout of options. What is read is logged by its index.
-/

namespace PolandOS.Net.Dhcp

open Logging Rfc2132

/-! ## The parser -/

/-- The loop of `parse_options` is not done yet. -/
inductive OptStop where
  | outOfFuel

/-- A part of `parse_options`. -/
abbrev OptScan := Logged Nat OptStop

/-- `opts[i]`. -/
def readByte (opts : View) (i : Nat) : OptScan UInt8 := do
  Logged.emit i
  return opts i

/-- `memcpy(dst, &opts[i], 4)`. -/
def readWord (opts : View) (i : Nat) : OptScan UInt32 := do
  let b₀ ← readByte opts i
  let b₁ ← readByte opts (i + 1)
  let b₂ ← readByte opts (i + 2)
  let b₃ ← readByte opts (i + 3)
  return load32 b₀ b₁ b₂ b₃

/-- The `switch`. -/
def storeAt (opts : View) (i : Nat) (code len : UInt8) (out : Parsed) : OptScan Parsed :=
  if code = dhcpOptMsgtype then
    if len ≥ 1 then do return { out with msgType := ← readByte opts i } else return out
  else if code = dhcpOptSubnet then
    if len ≥ 4 then do return { out with subnet := ← readWord opts i } else return out
  else if code = dhcpOptRouter then
    if len ≥ 4 then do return { out with router := ← readWord opts i } else return out
  else if code = dhcpOptDns then
    if len ≥ 4 then do return { out with dns := ← readWord opts i } else return out
  else if code = dhcpOptServerid then
    if len ≥ 4 then do return { out with serverId := ← readWord opts i } else return out
  else return out

/-- `parse_options` from a cursor on. -/
def parseOptionsAt (opts : View) (optsLen : UInt16) : Nat → UInt16 → Parsed → OptScan Parsed
  | 0, _, _ => Logged.stop .outOfFuel
  | fuel + 1, i, out =>
    if i < optsLen then do
      let code ← readByte opts i.toNat
      let i := i + 1
      if code = dhcpOptPad then parseOptionsAt opts optsLen fuel i out
      else if code = dhcpOptEnd then return out
      else if i ≥ optsLen then return out
      else do
        let len ← readByte opts i.toNat
        let i := i + 1
        if i.toNat + len.toNat > optsLen.toNat then return out
        else do
          let out ← storeAt opts i.toNat code len out
          parseOptionsAt opts optsLen fuel (i + len.toUInt16) out
    else return out

/-! ## The writer -/

/-- `buf[(*pos)++] = x`. -/
def putByte (w : View × UInt16) (x : UInt8) : View × UInt16 :=
  (Function.update w.1 w.2.toNat x, w.2 + 1)

/-- `add_option`, at a position of a buffer. -/
def addOptionAt (type : UInt8) (data : List UInt8) (w : View × UInt16) : View × UInt16 :=
  data.foldl putByte (putByte (putByte w type) data.length.toUInt8)

/-- Options from the start of a buffer on, and `DHCP_OPT_END`. -/
def writeOptions (os : List Opt) (buf : View) : View × UInt16 :=
  putByte (os.foldl (fun w o => addOptionAt o.1 o.2 w) (buf, 0)) dhcpOptEnd

/-! ## What is read -/

theorem bytes_succ (v : View) (i n : Nat) : v.bytes i (n + 1) = v i :: v.bytes (i + 1) n := by
  rw [Nat.add_comm n 1, bytes_append]
  rfl

theorem bytes_take (v : View) (i : Nat) {k n : Nat} (h : k ≤ n) :
    (v.bytes i n).take k = v.bytes i k := by
  obtain ⟨m, rfl⟩ := Nat.exists_eq_add_of_le h
  rw [bytes_append, List.take_left' (length_bytes ..)]

theorem bytes_drop (v : View) (i : Nat) {k n : Nat} (h : k ≤ n) :
    (v.bytes i n).drop k = v.bytes (i + k) (n - k) := by
  obtain ⟨m, rfl⟩ := Nat.exists_eq_add_of_le h
  rw [bytes_append, List.drop_left' (length_bytes ..), Nat.add_sub_cancel_left]

theorem word_bytes (v : View) (i n : Nat) :
    word (v.bytes i n) = if 4 ≤ n then some (v.u32 i) else none := by
  rcases n with - | - | - | - | n
  · rfl
  · rfl
  · rfl
  · rfl
  · rw [if_pos (by omega)]
    simp only [bytes_succ]
    rfl

theorem head?_bytes (v : View) (i n : Nat) :
    (v.bytes i n).head? = if 1 ≤ n then some (v i) else none := by
  cases n with
  | zero => rfl
  | succ n =>
      rw [if_pos (by omega), bytes_succ]
      rfl

variable {opts : View} {i : Nat} {len : UInt8} {out : Parsed}

/-- A case of the `switch` for four bytes. -/
theorem storeWord_eq (f : UInt32 → Parsed) :
    (if len ≥ 4 then do return f (← readWord opts i) else return out : OptScan Parsed).result =
      .ok (((word (opts.bytes i len.toNat)).map f).getD out) ∧
    (if len ≥ 4 then do return f (← readWord opts i) else return out : OptScan Parsed).All
      (· < i + len.toNat) := by
  have hlen : len ≥ 4 ↔ 4 ≤ len.toNat := UInt8.le_iff_toNat_le
  have hread : readWord opts i = ⟨[i, i + 1, i + 2, i + 3], .ok (opts.u32 i)⟩ := rfl
  rw [word_bytes]
  by_cases h : 4 ≤ len.toNat
  · rw [if_pos (hlen.2 h), if_pos h, hread]
    refine ⟨rfl, fun k hk => ?_⟩
    change k ∈ [i, i + 1, i + 2, i + 3] at hk
    simp only [List.mem_cons, List.not_mem_nil, or_false] at hk
    omega
  · rw [if_neg (mt hlen.1 h), if_neg h]
    exact ⟨rfl, Logged.all_pure out⟩

/-- The case for one byte. -/
theorem storeByte_eq (f : UInt8 → Parsed) :
    (if len ≥ 1 then do return f (← readByte opts i) else return out : OptScan Parsed).result =
      .ok (((opts.bytes i len.toNat).head?.map f).getD out) ∧
    (if len ≥ 1 then do return f (← readByte opts i) else return out : OptScan Parsed).All
      (· < i + len.toNat) := by
  have hlen : len ≥ 1 ↔ 1 ≤ len.toNat := UInt8.le_iff_toNat_le
  have hread : readByte opts i = ⟨[i], .ok (opts i)⟩ := rfl
  rw [head?_bytes]
  by_cases h : 1 ≤ len.toNat
  · rw [if_pos (hlen.2 h), if_pos h, hread]
    refine ⟨rfl, fun k hk => ?_⟩
    change k ∈ [i] at hk
    rw [List.mem_singleton] at hk
    omega
  · rw [if_neg (mt hlen.1 h), if_neg h]
    exact ⟨rfl, Logged.all_pure out⟩

/-- The `switch` stores what the option holds, and reads only its data. -/
theorem storeAt_eq (code : UInt8) :
    (storeAt opts i code len out).result = .ok (out.store (code, opts.bytes i len.toNat)) ∧
    (storeAt opts i code len out).All (· < i + len.toNat) := by
  have hstore {α : Type} (o : Option α) (f : α → Parsed) (g : α → Parsed)
      (h : ∀ a, f a = g a) (old : α) (hold : f old = out) :
      f (o.getD old) = (o.map g).getD out := by
    cases o with
    | none => exact hold
    | some a => exact h a
  unfold storeAt Parsed.store
  dsimp only
  split
  · rw [hstore _ (fun v => { out with msgType := v }) _ (fun _ => rfl) _ rfl]
    exact storeByte_eq _
  split
  · rw [hstore _ (fun v => { out with subnet := v }) _ (fun _ => rfl) _ rfl]
    exact storeWord_eq _
  split
  · rw [hstore _ (fun v => { out with router := v }) _ (fun _ => rfl) _ rfl]
    exact storeWord_eq _
  split
  · rw [hstore _ (fun v => { out with dns := v }) _ (fun _ => rfl) _ rfl]
    exact storeWord_eq _
  split
  · rw [hstore _ (fun v => { out with serverId := v }) _ (fun _ => rfl) _ rfl]
    exact storeWord_eq _
  · exact ⟨rfl, Logged.all_pure out⟩

/-! ## The loop -/

variable {optsLen : UInt16}

theorem toNat_succ_of_lt {i : UInt16} (h : i < optsLen) : (i + 1).toNat = i.toNat + 1 := by
  have hlt : i.toNat < optsLen.toNat := h
  have hmax := optsLen.toNat_lt
  rw [UInt16.toNat_add]
  exact Nat.mod_eq_of_lt (by have : (1 : UInt16).toNat = 1 := rfl; omega)

theorem result_readByte {β : Type} (k : Nat) (f : UInt8 → OptScan β) :
    (readByte opts k >>= f).result = (f (opts k)).result := Logged.result_bind_of_ok rfl

/-- A byte is read within the options. -/
theorem all_readByte {β : Type} (k : Nat) (f : UInt8 → OptScan β) (hk : k < optsLen.toNat) :
    (readByte opts k >>= f).All (· < optsLen.toNat) ↔ (f (opts k)).All (· < optsLen.toNat) := by
  have hread : (readByte opts k).All (· < optsLen.toNat) := by
    rintro _ (_ | _)
    · exact hk
    · contradiction
  rw [Logged.all_bind_of_ok (x := readByte opts k) rfl]
  exact and_iff_right hread

/-- With fuel for every byte that is left, the loop ends. It makes of these bytes what the
list version does, and reads no other ones. -/
theorem parseOptionsAt_eq (fuel : Nat) (i : UInt16) (out : Parsed) (hi : i.toNat ≤ optsLen.toNat)
    (hfuel : optsLen.toNat - i.toNat < fuel) :
    (parseOptionsAt opts optsLen fuel i out).result =
      .ok (parseFrom fuel (opts.bytes i.toNat (optsLen.toNat - i.toNat)) out) ∧
    (parseOptionsAt opts optsLen fuel i out).All (· < optsLen.toNat) := by
  -- each round takes the cursor on, and the bytes behind it are what is left to decode
  induction fuel generalizing i out with
  | zero => omega
  | succ fuel ih =>
      rw [parseOptionsAt]
      by_cases hlt : i < optsLen
      · have hlt' : i.toNat < optsLen.toNat := hlt
        have hnext := toNat_succ_of_lt hlt
        obtain ⟨n, hn⟩ : ∃ n, optsLen.toNat - i.toNat = n + 1 := ⟨_, (Nat.succ_pred (by omega)).symm⟩
        have hleft : optsLen.toNat - (i.toNat + 1) = n := by omega
        rw [if_pos hlt, result_readByte, all_readByte _ _ hlt', hn, bytes_succ]
        generalize opts i.toNat = code
        rw [parseFrom.eq_def]
        dsimp only
        -- a pad has no length byte, and the end option stops the loop
        by_cases hpad : code = dhcpOptPad
        · have hrest := ih (i + 1) out (by omega) (by omega)
          rw [if_pos hpad, if_pos hpad]
          rwa [hnext, hleft] at hrest
        rw [if_neg hpad, if_neg hpad]
        by_cases hend : code = dhcpOptEnd
        · rw [if_pos hend, if_pos hend]
          exact ⟨rfl, Logged.all_pure out⟩
        rw [if_neg hend, if_neg hend]
        -- the code is the last byte, without a length
        by_cases hlast : i + 1 ≥ optsLen
        · have hge : optsLen.toNat ≤ (i + 1).toNat := hlast
          obtain rfl : n = 0 := by omega
          rw [if_pos hlast]
          exact ⟨rfl, Logged.all_pure out⟩
        · have hlt₁ : i + 1 < optsLen := UInt16.not_le.1 hlast
          have hlt₁' : (i + 1).toNat < optsLen.toNat := hlt₁
          have hnext₁ := toNat_succ_of_lt hlt₁
          obtain ⟨m, rfl⟩ : ∃ m, n = m + 1 := ⟨n - 1, by omega⟩
          rw [if_neg hlast, result_readByte, all_readByte _ _ hlt₁', bytes_succ, hnext]
          generalize opts (i.toNat + 1) = len
          dsimp only
          rw [length_bytes, hnext₁, hnext]
          -- an option that is cut off is dropped, and the loop stops
          have hcut : i.toNat + 1 + 1 + len.toNat > optsLen.toNat ↔ m < len.toNat := by omega
          by_cases hlong : m < len.toNat
          · rw [if_pos (hcut.2 hlong), if_pos hlong]
            exact ⟨rfl, Logged.all_pure out⟩
          · obtain ⟨hstored, hreads⟩ := @storeAt_eq opts (i.toNat + 1 + 1) len out code
            have hcursor : (i + 1 + 1 + len.toUInt16).toNat = i.toNat + 1 + 1 + len.toNat := by
              rw [UInt16.toNat_add, hnext₁, hnext, UInt8.toNat_toUInt16]
              have hmax := optsLen.toNat_lt
              exact Nat.mod_eq_of_lt (by omega)
            have hrest := ih (i + 1 + 1 + len.toUInt16)
              (out.store (code, opts.bytes (i.toNat + 1 + 1) len.toNat)) (by omega) (by omega)
            rw [hcursor, show optsLen.toNat - (i.toNat + 1 + 1 + len.toNat) = m - len.toNat by omega]
              at hrest
            rw [if_neg (mt hcut.1 hlong), if_neg hlong, Logged.result_bind_of_ok hstored,
              Logged.all_bind_of_ok hstored, bytes_drop _ _ (by omega), bytes_take _ _ (by omega)]
            refine ⟨hrest.1, fun k hk => ?_, hrest.2⟩
            have := hreads k hk
            omega
      · have hdone : optsLen.toNat - i.toNat = 0 := by
          have : ¬i.toNat < optsLen.toNat := hlt
          omega
        rw [if_neg hlt, hdone]
        exact ⟨rfl, Logged.all_pure out⟩

/-! ## The options of a string -/

/-- What the loop reads is a decoding, with fuel for all bytes. -/
theorem decodes_optionsFrom (n : Nat) (bytes : List UInt8) (h : bytes.length ≤ n) :
    Decodes bytes (optionsFrom n bytes) := by
  induction n generalizing bytes with
  | zero =>
      obtain rfl := List.length_eq_zero_iff.1 (Nat.le_zero.1 h)
      exact .nil
  | succ n ih =>
      rcases bytes with - | ⟨code, rest⟩
      · exact .nil
      rw [List.length_cons] at h
      rw [optionsFrom.eq_def]
      dsimp only
      by_cases hpad : code = dhcpOptPad
      · rw [if_pos hpad, hpad]
        exact .pad (ih rest (by omega))
      rw [if_neg hpad]
      by_cases hend : code = dhcpOptEnd
      · rw [if_pos hend, hend]
        exact .ended rest
      rw [if_neg hend]
      rcases rest with - | ⟨len, rest⟩
      · exact .noLength hpad hend
      rw [List.length_cons] at h
      dsimp only
      by_cases hcut : rest.length < len.toNat
      · rw [if_pos hcut]
        exact .cut hpad hend hcut
      · rw [if_neg hcut]
        refine decodes_of_le hpad hend (Nat.le_of_not_lt hcut) (ih _ ?_)
        rw [List.length_drop]
        omega

/-- And it is the only one. -/
theorem optionsFrom_of_decodes {bytes : List UInt8} {os : List Opt} (h : Decodes bytes os) {n : Nat}
    (hn : bytes.length ≤ n) : optionsFrom n bytes = os := by
  induction h generalizing n with
  | nil => cases n <;> rfl
  | pad _ ih =>
      obtain ⟨n, rfl⟩ := Nat.exists_eq_succ_of_ne_zero (n := n) (by rintro rfl; simp at hn)
      exact ih (by simpa using hn)
  | ended bytes =>
      obtain ⟨n, rfl⟩ := Nat.exists_eq_succ_of_ne_zero (n := n) (by rintro rfl; simp at hn)
      rfl
  | noLength hpad hend =>
      obtain ⟨n, rfl⟩ := Nat.exists_eq_succ_of_ne_zero (n := n) (by rintro rfl; simp at hn)
      exact (if_neg hpad).trans (if_neg hend)
  | cut hpad hend hcut =>
      obtain ⟨n, rfl⟩ := Nat.exists_eq_succ_of_ne_zero (n := n) (by rintro rfl; simp at hn)
      exact (if_neg hpad).trans ((if_neg hend).trans (if_pos hcut))
  | @option o bytes os ho _ ih =>
      obtain ⟨n, rfl⟩ := Nat.exists_eq_succ_of_ne_zero (n := n) (by rintro rfl; simp [encode] at hn)
      have hlen := ho.toNat_length
      have hfit : ¬(o.2 ++ bytes).length < o.2.length.toUInt8.toNat := by
        rw [hlen, List.length_append]
        omega
      refine (if_neg ho.ne_pad).trans ((if_neg ho.ne_end).trans ((if_neg hfit).trans ?_))
      have hrest : optionsFrom n bytes = os := ih (by simp [encode] at hn; omega)
      rw [hlen, List.append_eq, List.take_left' rfl, List.drop_left' rfl, hrest]

/-! ## What is written -/

/-- Bytes that are put one after the other. -/
theorem putBytes_eq (bs : List UInt8) (w : View × UInt16) (hfit : w.2.toNat + bs.length < 2 ^ 16) :
    (bs.foldl putByte w).2.toNat = w.2.toNat + bs.length ∧
    (bs.foldl putByte w).1.bytes 0 (w.2.toNat + bs.length) = w.1.bytes 0 w.2.toNat ++ bs := by
  induction bs generalizing w with
  | nil => simp
  | cons b bs ih =>
      rw [List.length_cons] at hfit
      have hpos : (w.2 + 1).toNat = w.2.toNat + 1 := by
        rw [UInt16.toNat_add]
        exact Nat.mod_eq_of_lt (by have : (1 : UInt16).toNat = 1 := rfl; omega)
      obtain ⟨hlen, hbytes⟩ := ih (putByte w b) (by simp only [putByte, hpos]; omega)
      have hput : (putByte w b).1.bytes 0 (w.2.toNat + 1) = w.1.bytes 0 w.2.toNat ++ [b] := by
        rw [bytes_append]
        refine congrArg₂ (· ++ ·) (List.map_congr_left fun i hi => ?_) ?_
        · have hi : i < w.2.toNat := List.mem_range.1 hi
          exact Function.update_of_ne (by omega) _ _
        · simp [View.bytes, putByte]
      have hnext : (putByte w b).2.toNat = w.2.toNat + 1 := hpos
      rw [hnext] at hlen hbytes
      rw [hput, List.append_assoc] at hbytes
      rw [List.foldl_cons, List.length_cons, Nat.add_comm bs.length, ← Nat.add_assoc]
      exact ⟨hlen, hbytes⟩

theorem addOptionAt_eq (o : Opt) (w : View × UInt16) :
    addOptionAt o.1 o.2 w = (encode o).foldl putByte w := rfl

theorem writeOptions_eq (os : List Opt) (buf : View) :
    writeOptions os buf = (os.flatMap encode ++ [dhcpOptEnd]).foldl putByte (buf, 0) := by
  have hall : ∀ w, os.foldl (fun w o => addOptionAt o.1 o.2 w) w =
      (os.flatMap encode).foldl putByte w := by
    induction os with
    | nil => exact fun _ => rfl
    | cons o os ih =>
        intro w
        rw [List.foldl_cons, ih, List.flatMap_cons, List.foldl_append, addOptionAt_eq]
  rw [writeOptions, hall, List.foldl_append]
  rfl

/-! ## The codec -/

/-- The outputs are those of the last options that carry enough data, else the old ones. -/
structure LatestOf (os : List Opt) (old out : Parsed) : Prop where
  msgType : out.msgType = (latest typeOf os).getD old.msgType
  settings : ∀ x : Setting, out.get x = (latest x.value os).getD (old.get x)

theorem latestOf_foldl (os : List Opt) (old : Parsed) :
    LatestOf os old (os.foldl Parsed.store old) :=
  ⟨foldl_latest (v := Parsed.msgType) msgType_store old os,
    fun x => foldl_latest (v := fun out : Parsed => out.get x) (get_store x) old os⟩

/-- `parse_options` ends, reads inside of the string, and leaves the outputs like that. -/
def Parses (opts : View) (optsLen : UInt16) (old : Parsed) (os : List Opt) : Prop :=
  ∃ out, LatestOf os old out ∧ ∀ fuel > optsLen.toNat,
    (parseOptionsAt opts optsLen fuel 0 old).result = .ok out ∧
    (parseOptionsAt opts optsLen fuel 0 old).All (· < optsLen.toNat)

/-- The parser with its cursor is the one over lists. -/
theorem parseOptionsAt_parseOptions (opts : View) (optsLen : UInt16) (old : Parsed) {fuel : Nat}
    (hfuel : fuel > optsLen.toNat) : (parseOptionsAt opts optsLen fuel 0 old).result =
      .ok (parseOptions (opts.bytes 0 optsLen.toNat) old) := by
  have hdecodes := decodes_optionsFrom _ _ (Nat.le_refl (opts.bytes 0 optsLen.toNat).length)
  have hlen : (opts.bytes 0 optsLen.toNat).length ≤ fuel := by
    rw [length_bytes]
    omega
  rw [(parseOptionsAt_eq fuel 0 old (Nat.zero_le _) hfuel).1, parseOptions, parseFrom_eq,
    parseFrom_eq, ← optionsFrom_of_decodes hdecodes hlen]
  rfl

theorem parses_of_decodes {opts : View} {optsLen : UInt16} (old : Parsed) {os : List Opt}
    (h : Decodes (opts.bytes 0 optsLen.toNat) os) : Parses opts optsLen old os := by
  refine ⟨os.foldl Parsed.store old, latestOf_foldl os old, fun fuel hfuel => ⟨?_, ?_⟩⟩
  · rw [parseOptionsAt_parseOptions opts optsLen old hfuel, parseOptions, parseFrom_eq,
      optionsFrom_of_decodes h (Nat.le_refl _)]
  · exact (parseOptionsAt_eq fuel 0 old (Nat.zero_le _) hfuel).2

/-- Every string holds one list of options, and `parse_options` leaves what the last ones of
it carry. A list that `add_option` has written, and an END behind it, is the list it holds. -/
theorem dhcp_option_codec :
    (∀ (opts : View) (optsLen : UInt16) (old : Parsed),
      (∃ os, Decodes (opts.bytes 0 optsLen.toNat) os) ∧
      ∀ os, Decodes (opts.bytes 0 optsLen.toNat) os → Parses opts optsLen old os) ∧
    ∀ (os : List Opt), (∀ o ∈ os, ValidOpt o) → (os.flatMap encode).length + 1 < 2 ^ 16 →
      ∀ (buf : View) (old : Parsed),
        Parses (writeOptions os buf).1 (writeOptions os buf).2 old os := by
  refine ⟨fun opts optsLen old => ⟨⟨_, decodes_optionsFrom _ _ (Nat.le_refl _)⟩,
    fun os => parses_of_decodes old⟩, fun os hos hfit buf old => parses_of_decodes old ?_⟩
  have hput := putBytes_eq (os.flatMap encode ++ [dhcpOptEnd]) (buf, 0) (by simpa using hfit)
  rw [← writeOptions_eq] at hput
  obtain ⟨hlen, hbytes⟩ := hput
  have hzero : (buf, (0 : UInt16)).2.toNat = 0 := rfl
  rw [hlen, hbytes, hzero]
  exact decodes_encode hos []

end PolandOS.Net.Dhcp
