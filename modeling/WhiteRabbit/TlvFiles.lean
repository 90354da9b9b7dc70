import Mathlib.Tactic.NormNum
import WhiteRabbit.PrefixCodes

/-!
# Files that program the EEPROM

A file with the suffix `.tlv` holds records of an address and data. It is read twice: once to see
whether it is well formed, and once to write its records to the EEPROM.
-/

namespace WhiteRabbit.Fmc

open PrefixCodes

def einval : ℤ := 22

/-- One call of the write operation. -/
structure EepromWrite where
  addr : ℕ
  data : List UInt8
  deriving DecidableEq

/-- What the write operation returns for the last of some calls. -/
structure EepromDevice where
  writeEe : List EepromWrite → ℤ

def getUnalignedLe16 (lo hi : UInt8) : ℕ := lo.toNat + 256 * hi.toNat

/-- The loop of `fwe_run_tlv`: the bytes from `p` on, and how many of them are left. Where more than five
are left there are five to look at, so the last case of the match does not come up. -/
def tlvLoop (fmc : EepromDevice) (write : Bool) :
    ℕ → List UInt8 → ℤ → List EepromWrite → ℤ × List EepromWrite
  | 0, _, _, done => (0, done)
  | fuel + 1, p, len, done =>
    if 5 < len then
      match p with
      | tag :: addrLo :: addrHi :: lenLo :: lenHi :: rest =>
        let thisaddr := getUnalignedLe16 addrLo addrHi
        let thislen := getUnalignedLe16 lenLo lenHi
        if tag ≠ 0x77 ∨ len < thislen + 5 then (-einval, done)
        else
          let done := if write then done ++ [⟨thisaddr, rest.take thislen⟩] else done
          let err := if write then fmc.writeEe done else 0
          if err < 0 then (err, done)
          else tlvLoop fmc write fuel (rest.drop thislen) (len - (5 + thislen)) done
      | _ => (-einval, done)
    else (0, done)

/-- `int len = fw->size`. -/
def intSize (data : List UInt8) : ℤ := Int.bmod data.length (2 ^ 32)

/-- `fwe_run_tlv`. -/
def fweRunTlv (fmc : EepromDevice) (data : List UInt8) (write : Bool) (done : List EepromWrite) :
    ℤ × List EepromWrite :=
  tlvLoop fmc write (intSize data).toNat data (intSize data) done

/-- `fwe_run_bin`. -/
def fweRunBin (fmc : EepromDevice) (data : List UInt8) : ℤ × List EepromWrite :=
  let ret := fmc.writeEe [⟨0, data⟩]
  (if ret < 0 then ret else 0, [⟨0, data⟩])

/-- The name of a file. From a shorter one `last4` would point before the string. -/
structure FileName where
  chars : List Char
  four : 4 ≤ chars.length

/-- `fwe_run`: what it returns, and the writes. -/
def fweRun (fmc : EepromDevice) (data : List UInt8) (s : FileName) : ℤ × List EepromWrite :=
  let last4 := s.chars.drop (s.chars.length - 4)
  if last4 = ['.', 'b', 'i', 'n'] then fweRunBin fmc data
  else if last4 = ['.', 't', 'l', 'v'] then
    let (err, done) := fweRunTlv fmc data false []
    if err = 0 then fweRunTlv fmc data true done else (err, done)
  else (-einval, [])

/-- A record of a file. -/
structure TlvRecord where
  addr : ℕ
  data : List UInt8
  addr_lt : addr < 2 ^ 16
  length_lt : data.length < 2 ^ 16

namespace TlvRecord

def lowByte (n : ℕ) : UInt8 := UInt8.ofNat (n % 256)

def highByte (n : ℕ) : UInt8 := UInt8.ofNat (n / 256)

/-- 'w' addr16 len16 data... -/
def encode (r : TlvRecord) : List UInt8 :=
  0x77 :: lowByte r.addr :: highByte r.addr :: lowByte r.data.length :: highByte r.data.length :: r.data

def write (r : TlvRecord) : EepromWrite := ⟨r.addr, r.data⟩

end TlvRecord

/-- Records are read while more than five bytes are left of a number of bytes. -/
inductive TlvReads : ℤ → List UInt8 → List TlvRecord → Prop where
  | stop {len : ℤ} {data : List UInt8} (h : len ≤ 5) : TlvReads len data []
  | next {len : ℤ} {data : List UInt8} {r : TlvRecord} {rs : List TlvRecord} (h : 5 < len)
      (hfits : (r.encode.length : ℤ) ≤ len) (hrest : TlvReads (len - r.encode.length) data rs) :
      TlvReads len (r.encode ++ data) (r :: rs)

/-- The whole file is a sequence of records. -/
def IsTlv (data : List UInt8) : Prop := ∃ rs : List TlvRecord, data = rs.flatMap TlvRecord.encode

/-- Writes in order, up to the first that fails. -/
def issue (fmc : EepromDevice) : List EepromWrite → List EepromWrite → ℤ × List EepromWrite
  | done, [] => (0, done)
  | done, w :: ws =>
    if fmc.writeEe (done ++ [w]) < 0 then (fmc.writeEe (done ++ [w]), done ++ [w])
    else issue fmc (done ++ [w]) ws

/-- One of the writes fails. -/
def Fails (fmc : EepromDevice) (ws : List EepromWrite) : Prop :=
  ∃ pre w, pre ++ [w] <+: ws ∧ fmc.writeEe (pre ++ [w]) < 0

/-- The records of a file are written, and a file that does not consist of records is refused. -/
structure TlvExact (fmc : EepromDevice) (data : List UInt8) (s : FileName) : Prop where
  accepted : ∀ rs : List TlvRecord, data = rs.flatMap TlvRecord.encode →
    fweRun fmc data s = issue fmc [] (rs.map TlvRecord.write)
  refused : ¬ IsTlv data → (fweRun fmc data s).1 < 0 ∧ (fweRun fmc data s).2 = []

/-- The condition under which a file is accepted exactly. Either the reading ends without an error: then
the file consists of the records that are read, or it consists of more of them and one of the writes
fails. Or the reading ends with an error: then the file does not consist of records. -/
def ReadWhole (fmc : EepromDevice) (data : List UInt8) : Prop :=
  (∃ rs, TlvReads (intSize data) data rs ∧ IsTlv data ∧
    (data = rs.flatMap TlvRecord.encode ∨ Fails fmc (rs.map TlvRecord.write))) ∨
  ((¬ ∃ rs, TlvReads (intSize data) data rs) ∧ ¬ IsTlv data)

namespace TlvRecord

theorem le16_bytes {n : ℕ} (h : n < 2 ^ 16) : getUnalignedLe16 (lowByte n) (highByte n) = n := by
  rw [getUnalignedLe16, lowByte, highByte, UInt8.toNat_ofNat', UInt8.toNat_ofNat']
  omega

theorem bytes_le16 (lo hi : UInt8) :
    lowByte (getUnalignedLe16 lo hi) = lo ∧ highByte (getUnalignedLe16 lo hi) = hi := by
  have hlo := lo.toNat_lt
  have hhi := hi.toNat_lt
  constructor
  · rw [← UInt8.toNat_inj, lowByte, getUnalignedLe16, UInt8.toNat_ofNat']
    omega
  · rw [← UInt8.toNat_inj, highByte, getUnalignedLe16, UInt8.toNat_ofNat']
    omega

theorem le16_lt (lo hi : UInt8) : getUnalignedLe16 lo hi < 2 ^ 16 := by
  have hlo := lo.toNat_lt
  have hhi := hi.toNat_lt
  rw [getUnalignedLe16]
  omega

@[simp] theorem encode_length (r : TlvRecord) : r.encode.length = r.data.length + 5 := rfl

theorem encode_prefixCode : PrefixCode encode where
  first := by
    intro a b x y h
    simp only [encode, List.cons_append, List.cons.injEq, true_and] at h
    obtain ⟨haddrLo, haddrHi, hlenLo, hlenHi, hdata⟩ := h
    have haddr : a.addr = b.addr := by
      rw [← le16_bytes a.addr_lt, ← le16_bytes b.addr_lt, haddrLo, haddrHi]
    have hlength : a.data.length = b.data.length := by
      rw [← le16_bytes a.length_lt, ← le16_bytes b.length_lt, hlenLo, hlenHi]
    obtain ⟨hdata, -⟩ := List.append_inj hdata hlength
    cases a
    cases b
    simp_all
  ne_nil := fun r => List.cons_ne_nil _ _

/-- The record at the front of some bytes. -/
theorem exists_encode (addrLo addrHi lenLo lenHi : UInt8) (rest : List UInt8)
    (h : getUnalignedLe16 lenLo lenHi ≤ rest.length) : ∃ r : TlvRecord,
      0x77 :: addrLo :: addrHi :: lenLo :: lenHi :: rest =
          r.encode ++ rest.drop (getUnalignedLe16 lenLo lenHi) ∧
        r.data.length = getUnalignedLe16 lenLo lenHi := by
  have hlength : (rest.take (getUnalignedLe16 lenLo lenHi)).length = getUnalignedLe16 lenLo lenHi :=
    List.length_take_of_le h
  refine ⟨⟨getUnalignedLe16 addrLo addrHi, rest.take (getUnalignedLe16 lenLo lenHi), le16_lt _ _, ?_⟩,
    ?_, hlength⟩
  · rw [hlength]
    exact le16_lt _ _
  · rw [encode]
    dsimp only
    rw [hlength, (bytes_le16 addrLo addrHi).1, (bytes_le16 addrLo addrHi).2, (bytes_le16 lenLo lenHi).1,
      (bytes_le16 lenLo lenHi).2]
    simp

end TlvRecord

open TlvRecord

variable {fmc : EepromDevice} {data : List UInt8} {len : ℤ} {fuel : ℕ} {rs : List TlvRecord}
  {done : List EepromWrite}

theorem tlvLoop_cons (write : Bool) (tag addrLo addrHi lenLo lenHi : UInt8) (rest : List UInt8) :
    tlvLoop fmc write (fuel + 1) (tag :: addrLo :: addrHi :: lenLo :: lenHi :: rest) len done =
      if 5 < len then
        if tag ≠ 0x77 ∨ len < getUnalignedLe16 lenLo lenHi + 5 then (-einval, done)
        else
          let done := if write then
              done ++ [⟨getUnalignedLe16 addrLo addrHi, rest.take (getUnalignedLe16 lenLo lenHi)⟩]
            else done
          let err := if write then fmc.writeEe done else 0
          if err < 0 then (err, done)
          else tlvLoop fmc write fuel (rest.drop (getUnalignedLe16 lenLo lenHi))
            (len - (5 + getUnalignedLe16 lenLo lenHi)) done
      else (0, done) := rfl

/-- What the loop does with the record at the front. -/
theorem tlvLoop_encode (r : TlvRecord) (write : Bool) (h : 5 < len) (hfits : (r.encode.length : ℤ) ≤ len) :
    tlvLoop fmc write (fuel + 1) (r.encode ++ data) len done =
      if write then
        if fmc.writeEe (done ++ [r.write]) < 0 then (fmc.writeEe (done ++ [r.write]), done ++ [r.write])
        else tlvLoop fmc write fuel data (len - r.encode.length) (done ++ [r.write])
      else tlvLoop fmc write fuel data (len - r.encode.length) done := by
  rw [encode_length] at hfits
  have hbad : ¬ ((0x77 : UInt8) ≠ 0x77 ∨ len < (r.data.length : ℤ) + 5) := by
    push_cast at hfits
    simp only [ne_eq, not_true_eq_false, false_or]
    omega
  have hrest : len - (5 + (r.data.length : ℤ)) = len - (r.encode.length : ℤ) := by
    rw [encode_length]
    omega
  rw [encode, List.cons_append, List.cons_append, List.cons_append, List.cons_append, List.cons_append,
    tlvLoop_cons, if_pos h, ← encode]
  simp only [le16_bytes r.addr_lt, le16_bytes r.length_lt, if_neg hbad, List.take_left,
    List.drop_left, hrest]
  cases write with
  | false => simp
  | true => simp [TlvRecord.write]

theorem TlvReads.loop (h : TlvReads len data rs) (hfuel : len.toNat ≤ fuel) (done : List EepromWrite) :
    tlvLoop fmc false fuel data len done = (0, done) ∧
      tlvLoop fmc true fuel data len done = issue fmc done (rs.map TlvRecord.write) := by
  induction h generalizing fuel done with
  | @stop len data h =>
    cases fuel with
    | zero => exact ⟨rfl, rfl⟩
    | succ fuel =>
      have hloop (write : Bool) : tlvLoop fmc write (fuel + 1) data len done = (0, done) := by
        unfold tlvLoop
        exact if_neg (by omega)
      exact ⟨hloop false, hloop true⟩
  | @next len data r rs h hfits hrest ih =>
    obtain ⟨fuel, rfl⟩ : ∃ n, fuel = n + 1 := ⟨fuel - 1, by omega⟩
    have hfuel' : (len - (r.encode.length : ℤ)).toNat ≤ fuel := by
      rw [encode_length] at hfits ⊢
      omega
    rw [tlvLoop_encode r false h hfits, tlvLoop_encode r true h hfits, List.map_cons, issue]
    simp only [Bool.false_eq_true, if_false, if_true]
    refine ⟨(ih hfuel' done).1, ?_⟩
    rw [(ih hfuel' _).2]

/-- Where the records do not go on, the first reading ends with an error. -/
theorem tlvLoop_bad (h : ¬ ∃ rs, TlvReads len data rs) (hlen : len ≤ data.length)
    (hfuel : len.toNat ≤ fuel) (done : List EepromWrite) :
    tlvLoop fmc false fuel data len done = (-einval, done) := by
  induction fuel generalizing data len with
  | zero => exact absurd ⟨[], .stop (by omega)⟩ h
  | succ fuel ih =>
    have hfive : 5 < len := by
      by_contra hle
      exact h ⟨[], .stop (by omega)⟩
    unfold tlvLoop
    rw [if_pos hfive]
    split
    · rename_i tag addrLo addrHi lenLo lenHi rest
      dsimp only
      split
      · rfl
      · rename_i hgood
        obtain ⟨htag, hfits⟩ := not_or.mp hgood
        obtain rfl := not_not.mp htag
        simp only [List.length_cons] at hlen
        push_cast at hlen
        obtain ⟨r, hr, hlength⟩ := exists_encode addrLo addrHi lenLo lenHi rest (by omega)
        simp only [Bool.false_eq_true, if_false, show ¬ (0 : ℤ) < 0 by omega]
        apply ih
        · rintro ⟨rs, hrs⟩
          refine h ⟨r :: rs, ?_⟩
          rw [hr]
          refine .next hfive ?_ ?_
          · rw [encode_length, hlength]
            push_cast
            omega
          · rw [encode_length, hlength]
            rwa [Nat.cast_add, Int.add_comm]
        · rw [List.length_drop]
          omega
        · omega
    · rfl

theorem intSize_le (data : List UInt8) : intSize data ≤ data.length := by
  have hbmod (n : ℕ) : Int.bmod n (2 ^ 32) ≤ n := by
    have hle : ((2 : ℕ) ^ 32 : ℕ) = 4294967296 := by norm_num
    rw [hle, Int.bmod_def]
    split <;> omega
  exact hbmod data.length

theorem intSize_eq (h : data.length < 2 ^ 31) : intSize data = data.length := by
  have hbmod : ∀ n : ℕ, n < 2147483648 → Int.bmod n (2 ^ 32) = n := by
    intro n hn
    exact Int.bmod_eq_of_le (by omega) (by omega)
  exact hbmod _ (by omega)

/-- The records that are read are the beginning of the file, and what is left is not looked at. -/
theorem TlvReads.append (h : TlvReads len data rs) :
    ∃ left, rs.flatMap encode ++ left = data ∧ len + left.length ≤ data.length + 5 := by
  induction h with
  | @stop _ data h => exact ⟨data, rfl, by omega⟩
  | @next _ _ r _ _ _ _ ih =>
    obtain ⟨left, rfl, hleft⟩ := ih
    refine ⟨left, by rw [List.flatMap_cons, List.append_assoc], ?_⟩
    rw [List.length_append]
    push_cast
    omega

/-- There is only one way to read a file. -/
theorem TlvReads.unique (h : TlvReads len data rs) {rs' : List TlvRecord} (h' : TlvReads len data rs') :
    rs = rs' := by
  induction h generalizing rs' with
  | stop h =>
    cases h' with
    | stop _ => rfl
    | next hlen => omega
  | @next len data r rs hlen _ _ ih =>
    generalize hbytes : r.encode ++ data = bytes at h'
    cases h' with
    | stop h => omega
    | next _ _ hrest =>
      obtain rfl := encode_prefixCode.first hbytes
      obtain rfl := List.append_cancel_left hbytes
      rw [ih hrest]

/-- Records and at most five bytes behind them are read, if the last record is not empty or there are such
bytes. -/
theorem reads_of_append (rs : List TlvRecord) {left : List UInt8} (hleft : left.length ≤ 5)
    (hlast : left ≠ [] ∨ ∀ r ∈ rs.getLast?, r.data ≠ []) :
    TlvReads (rs.flatMap encode ++ left).length (rs.flatMap encode ++ left) rs := by
  induction rs with
  | nil => exact .stop (by simpa using hleft)
  | cons r rs ih =>
    have hmore : 5 < (r.encode ++ (rs.flatMap encode ++ left)).length := by
      rw [List.length_append, encode_length, List.length_append]
      cases hlast with
      | inl hne =>
        have hpos := List.length_pos_iff.mpr hne
        omega
      | inr hdata =>
        cases rs with
        | nil =>
          have hpos := List.length_pos_iff.mpr (hdata r rfl)
          omega
        | cons r' rs =>
          rw [List.flatMap_cons, List.length_append, encode_length]
          omega
    rw [List.flatMap_cons, List.append_assoc]
    refine .next (by exact_mod_cast hmore) (by rw [List.length_append]; omega) ?_
    have hrest := ih <| hlast.imp_right fun hdata last hmem => by
      cases rs with
      | nil => cases hmem
      | cons r' rs => exact hdata last (by rwa [List.getLast?_cons_cons])
    rwa [List.length_append, Nat.cast_add, add_sub_cancel_left]

theorem issue_append (ws vs : List EepromWrite) : issue fmc done (ws ++ vs) =
    if (issue fmc done ws).1 < 0 then issue fmc done ws else issue fmc (done ++ ws) vs := by
  induction ws generalizing done with
  | nil => simp [issue]
  | cons w ws ih =>
    rw [List.cons_append, issue, issue]
    by_cases hw : fmc.writeEe (done ++ [w]) < 0
    · simp only [if_pos hw]
    · simp only [if_neg hw]
      rw [ih, List.append_assoc]
      rfl

theorem issue_length (ws : List EepromWrite) : done.length ≤ (issue fmc done ws).2.length := by
  induction ws generalizing done with
  | nil => rfl
  | cons w ws ih =>
    have hstep : done.length ≤ (done ++ [w]).length := by
      rw [List.length_append]
      omega
    rw [issue]
    split
    · exact hstep
    · exact hstep.trans ih

/-- The first of some writes is issued. -/
theorem issue_cons_length (fmc : EepromDevice) (done : List EepromWrite) (w : EepromWrite)
    (ws : List EepromWrite) : done.length < (issue fmc done (w :: ws)).2.length := by
  have hstep : done.length < (done ++ [w]).length := by
    rw [List.length_append]
    exact Nat.lt_succ_self _
  rw [issue]
  split
  · exact hstep
  · exact hstep.trans_le (issue_length ws)

theorem issue_of_not_neg {ws : List EepromWrite} (h : ¬ (issue fmc done ws).1 < 0) :
    issue fmc done ws = (0, done ++ ws) := by
  induction ws generalizing done with
  | nil => rw [issue, List.append_nil]
  | cons w ws ih =>
    rw [issue] at h ⊢
    split at h
    · contradiction
    · rename_i hw
      rw [if_neg hw, ih h, List.append_assoc]
      rfl

theorem issue_neg_iff (done ws : List EepromWrite) : (issue fmc done ws).1 < 0 ↔
    ∃ pre w, pre ++ [w] <+: ws ∧ fmc.writeEe (done ++ (pre ++ [w])) < 0 := by
  induction ws generalizing done with
  | nil => simp [issue]
  | cons v ws ih =>
    rw [issue]
    split
    · rename_i hv
      exact iff_of_true hv ⟨[], v, List.cons_prefix_cons.mpr ⟨rfl, List.nil_prefix⟩, hv⟩
    · rename_i hv
      rw [ih]
      constructor
      · rintro ⟨pre, w, hpre, hw⟩
        refine ⟨v :: pre, w, List.cons_prefix_cons.mpr ⟨rfl, hpre⟩, ?_⟩
        rwa [List.append_assoc] at hw
      · rintro ⟨pre, w, hpre, hw⟩
        cases pre with
        | nil =>
          obtain ⟨rfl, -⟩ := List.cons_prefix_cons.mp hpre
          contradiction
        | cons u pre =>
          obtain ⟨rfl, hrest⟩ := List.cons_prefix_cons.mp hpre
          refine ⟨pre, w, hrest, ?_⟩
          rwa [List.append_assoc]

theorem fails_iff {ws : List EepromWrite} : Fails fmc ws ↔ (issue fmc [] ws).1 < 0 :=
  (issue_neg_iff [] ws).symm

theorem fweRun_tlv {s : FileName} (hs : s.chars.drop (s.chars.length - 4) = ['.', 't', 'l', 'v']) :
    fweRun fmc data s = if (fweRunTlv fmc data false []).1 = 0 then
      fweRunTlv fmc data true (fweRunTlv fmc data false []).2 else fweRunTlv fmc data false [] := by
  rw [fweRun]
  generalize fweRunTlv fmc data false [] = dry
  obtain ⟨err, done⟩ := dry
  dsimp only
  rw [hs, if_neg (by decide), if_pos rfl]

/-- Where the reading ends, the records that it read are written. -/
theorem TlvReads.fweRun (h : TlvReads (intSize data) data rs) {s : FileName}
    (hs : s.chars.drop (s.chars.length - 4) = ['.', 't', 'l', 'v']) :
    fweRun fmc data s = issue fmc [] (rs.map TlvRecord.write) := by
  have hdry : fweRunTlv fmc data false [] = (0, []) := (h.loop (Nat.le_refl _) []).1
  have hwrite : fweRunTlv fmc data true [] = issue fmc [] (rs.map TlvRecord.write) :=
    (h.loop (Nat.le_refl _) []).2
  rw [fweRun_tlv hs, hdry, if_pos rfl, hwrite]

theorem fweRun_bad (h : ¬ ∃ rs, TlvReads (intSize data) data rs) {s : FileName}
    (hs : s.chars.drop (s.chars.length - 4) = ['.', 't', 'l', 'v']) :
    fweRun fmc data s = (-einval, []) := by
  have hdry : fweRunTlv fmc data false [] = (-einval, []) :=
    tlvLoop_bad h (intSize_le data) (Nat.le_refl _) []
  rw [fweRun_tlv hs, hdry, if_neg (by decide)]

/-- More records than are read: what is written tells them apart, unless a write fails. -/
theorem issue_eq_iff {all : List TlvRecord} (h : rs <+: all) :
    issue fmc [] (rs.map TlvRecord.write) = issue fmc [] (all.map TlvRecord.write) ↔
      rs = all ∨ Fails fmc (rs.map TlvRecord.write) := by
  obtain ⟨more, rfl⟩ := h
  rw [fails_iff, List.map_append, issue_append]
  split
  · rename_i hfail
    exact iff_of_true rfl (Or.inr hfail)
  · rename_i hfail
    cases more with
    | nil => exact iff_of_true (by rw [issue_of_not_neg hfail]; rfl) (Or.inl (List.append_nil rs).symm)
    | cons r more =>
      refine iff_of_false ?_ ?_
      · intro heq
        have hlonger : (rs.map TlvRecord.write).length <
            (issue fmc [] (rs.map TlvRecord.write)).2.length := by
          rw [heq]
          exact issue_cons_length _ _ _ _
        rw [issue_of_not_neg hfail] at hlonger
        exact absurd hlonger (Nat.lt_irrefl _)
      · rintro (heq | hfail')
        · simp at heq
        · contradiction

/-- Where the reading ends, it is exact if and only if the file consists of the records that are read, or
of more records and a write fails. -/
theorem TlvReads.tlvExact_iff (h : TlvReads (intSize data) data rs) {s : FileName}
    (hs : s.chars.drop (s.chars.length - 4) = ['.', 't', 'l', 'v']) : TlvExact fmc data s ↔
      IsTlv data ∧ (data = rs.flatMap encode ∨ Fails fmc (rs.map TlvRecord.write)) := by
  constructor
  · intro hexact
    have htlv : IsTlv data := by
      by_contra hnot
      obtain ⟨hneg, hnone⟩ := hexact.refused hnot
      rw [h.fweRun hs] at hneg hnone
      cases hrs : rs with
      | nil =>
        rw [hrs] at hneg
        exact absurd hneg (by simp [issue])
      | cons r more =>
        rw [hrs, List.map_cons] at hnone
        have hissued := issue_cons_length fmc [] r.write (more.map TlvRecord.write)
        rw [hnone] at hissued
        exact absurd hissued (Nat.lt_irrefl _)
    refine ⟨htlv, ?_⟩
    obtain ⟨all, hall⟩ := htlv
    obtain ⟨left, hleft, -⟩ := h.append
    have hprefix : rs <+: all := encode_prefixCode.prefix_of_flatMap_append (hleft.trans hall)
    have heq := hexact.accepted all hall
    rw [h.fweRun hs, issue_eq_iff hprefix] at heq
    obtain rfl | hfail := heq
    · exact Or.inl hall
    · exact Or.inr hfail
  · rintro ⟨htlv, hwhole⟩
    refine ⟨?_, fun hnot => absurd htlv hnot⟩
    intro all hall
    obtain ⟨left, hleft, -⟩ := h.append
    have hprefix : rs <+: all := encode_prefixCode.prefix_of_flatMap_append (hleft.trans hall)
    rw [h.fweRun hs, issue_eq_iff hprefix]
    obtain hdata | hfail := hwhole
    · exact Or.inl (encode_prefixCode.flatMap_injective (hdata.symm.trans hall))
    · exact Or.inr hfail

/-- Where the reading ends with an error, it is exact if and only if the file does not consist of records. -/
theorem tlvExact_iff_of_bad (h : ¬ ∃ rs, TlvReads (intSize data) data rs) {s : FileName}
    (hs : s.chars.drop (s.chars.length - 4) = ['.', 't', 'l', 'v']) :
    TlvExact fmc data s ↔ ¬ IsTlv data := by
  constructor
  · rintro hexact ⟨all, hall⟩
    have heq := hexact.accepted all hall
    rw [fweRun_bad h hs] at heq
    cases hrs : all with
    | nil =>
      rw [hrs] at heq
      exact absurd (congrArg Prod.fst heq) (by simp [issue, einval])
    | cons r more =>
      rw [hrs, List.map_cons] at heq
      have hissued := issue_cons_length fmc [] r.write (more.map TlvRecord.write)
      rw [← heq] at hissued
      exact absurd hissued (Nat.lt_irrefl _)
  · intro hnot
    refine ⟨fun all hall => absurd ⟨all, hall⟩ hnot, fun _ => ?_⟩
    rw [fweRun_bad h hs]
    exact ⟨by decide, rfl⟩

/-- On the bytes of a file below 2 GiB: no stray bytes are behind the records, and the last record is not
empty unless an earlier write fails. -/
theorem readWhole_iff (h : data.length < 2 ^ 31) : ReadWhole fmc data ↔
    (∀ (rs : List TlvRecord) left, data = rs.flatMap encode ++ left → left.length ≤ 5 → IsTlv left) ∧
      ∀ (rs : List TlvRecord) r, data = rs.flatMap encode ++ encode r → r.data = [] →
        Fails fmc (rs.map TlvRecord.write) := by
  rw [ReadWhole, intSize_eq h]
  constructor
  · rintro (⟨rs, hrs, ⟨all, hall⟩, hwhole⟩ | ⟨hnone, hnot⟩)
    · refine ⟨fun rs' left hdata _ => ?_, fun rs' r hdata hempty => ?_⟩
      · obtain ⟨more, rfl⟩ := encode_prefixCode.prefix_of_flatMap_append (hdata.symm.trans hall)
        rw [hdata, List.flatMap_append] at hall
        exact ⟨more, List.append_cancel_left hall⟩
      · have hread := reads_of_append rs' (by rw [encode_length, hempty]; rfl : (encode r).length ≤ 5)
          (.inl (List.cons_ne_nil _ _))
        rw [← hdata] at hread
        obtain rfl := hrs.unique hread
        refine hwhole.resolve_left fun hend => ?_
        rw [hdata] at hend
        exact encode_prefixCode.ne_nil r (List.append_right_eq_self.mp hend)
    · refine ⟨fun rs left hdata hleft => ?_, fun rs r hdata _ => ?_⟩
      · by_contra hstray
        have hne : left ≠ [] := fun hnil => hstray ⟨[], hnil⟩
        have hread := reads_of_append rs hleft (.inl hne)
        rw [← hdata] at hread
        exact hnone ⟨rs, hread⟩
      · exact absurd ⟨rs ++ [r], by rw [hdata, List.flatMap_append, List.flatMap_singleton]⟩ hnot
  · rintro ⟨hstray, hempty⟩
    by_cases hreads : ∃ rs, TlvReads data.length data rs
    · obtain ⟨rs, hrs⟩ := hreads
      obtain ⟨left, hdata, hlen⟩ := hrs.append
      have hleft : left.length ≤ 5 := by omega
      obtain ⟨more, hmore⟩ := hstray rs left hdata.symm hleft
      refine .inl ⟨rs, hrs, ⟨rs ++ more, by rw [List.flatMap_append, ← hmore, hdata]⟩, ?_⟩
      cases more with
      | nil =>
        rw [← hdata, hmore]
        exact .inl (List.append_nil _)
      | cons r more =>
        have hlength := congrArg List.length hmore
        rw [List.flatMap_cons, List.length_append, encode_length] at hlength
        have hnil : more = [] := by
          cases more with
          | nil => rfl
          | cons r' more =>
            rw [List.flatMap_cons, List.length_append, encode_length] at hlength
            omega
        subst hnil
        rw [List.flatMap_singleton] at hmore
        exact .inr (hempty rs r (hmore ▸ hdata.symm) (List.length_eq_zero_iff.mp (by omega)))
    · refine .inr ⟨hreads, ?_⟩
      rintro ⟨all, hall⟩
      apply hreads
      rcases List.eq_nil_or_concat' all with rfl | ⟨init, r, rfl⟩
      · exact ⟨[], .stop (by rw [hall]; decide)⟩
      · rw [List.flatMap_append, List.flatMap_singleton] at hall
        by_cases hr : r.data = []
        · rw [hall]
          exact ⟨init, reads_of_append init (by rw [encode_length, hr]; rfl) (.inl (List.cons_ne_nil _ _))⟩
        · have hnone : ([] : List UInt8).length ≤ 5 := Nat.zero_le 5
          have hread := reads_of_append (init ++ [r]) hnone (.inr (by simpa using hr))
          rw [List.append_nil, List.flatMap_append, List.flatMap_singleton, ← hall] at hread
          exact ⟨_, hread⟩

/-- A file with the suffix `.tlv` is accepted exactly if and only if its end is not cut off by the reading. -/
theorem tlv_exact_iff (fmc : EepromDevice) (data : List UInt8) (s : FileName)
    (hs : s.chars.drop (s.chars.length - 4) = ['.', 't', 'l', 'v']) :
    TlvExact fmc data s ↔ ReadWhole fmc data := by
  rw [ReadWhole]
  by_cases h : ∃ rs, TlvReads (intSize data) data rs
  · obtain ⟨rs, hrs⟩ := h
    rw [hrs.tlvExact_iff hs]
    constructor
    · rintro ⟨htlv, hwhole⟩
      exact Or.inl ⟨rs, hrs, htlv, hwhole⟩
    · rintro (⟨rs', hrs', htlv, hwhole⟩ | ⟨hnone, -⟩)
      · exact (hrs.tlvExact_iff hs).mp ((hrs'.tlvExact_iff hs).mpr ⟨htlv, hwhole⟩)
      · exact absurd ⟨rs, hrs⟩ hnone
  · rw [tlvExact_iff_of_bad h hs]
    constructor
    · exact fun hnot => Or.inr ⟨h, hnot⟩
    · rintro (⟨rs, hrs, -⟩ | ⟨-, hnot⟩)
      · exact absurd ⟨rs, hrs⟩ h
      · exact hnot

/-- A record of one byte for the address 2, to an EEPROM that takes every write. -/
theorem tlv_exact_record :
    TlvExact ⟨fun _ => 0⟩ [0x77, 2, 0, 1, 0, 0xab] ⟨['a', '.', 't', 'l', 'v'], by decide⟩ := by
  refine (tlv_exact_iff _ _ _ (by decide)).mpr (Or.inl ?_)
  let r : TlvRecord := ⟨2, [0xab], by decide, by decide⟩
  have hread : TlvReads 6 (r.encode ++ []) [r] :=
    TlvReads.next (by decide) (by decide) (TlvReads.stop (by decide))
  have hbytes : r.encode ++ [] = [0x77, 2, 0, 1, 0, 0xab] := by decide
  have hsize : intSize [0x77, 2, 0, 1, 0, 0xab] = 6 := by decide
  rw [hbytes, ← hsize] at hread
  exact ⟨[r], hread, ⟨[r], by decide⟩, Or.inl (by decide)⟩

/-- A file of one byte that is not a record is taken without an error. -/
theorem stray_byte : ¬ TlvExact ⟨fun _ => 0⟩ [0x77] ⟨['a', '.', 't', 'l', 'v'], by decide⟩ := by
  intro h
  have hnot : ¬ IsTlv [0x77] := by
    rintro ⟨rs, hrs⟩
    cases rs with
    | nil => cases hrs
    | cons r rs =>
      have hlength := congrArg List.length hrs
      simp only [List.flatMap_cons, List.length_append, encode_length, List.length_singleton] at hlength
      omega
  exact absurd (h.refused hnot).1 (by decide)

end WhiteRabbit.Fmc
