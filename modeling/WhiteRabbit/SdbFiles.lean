import WhiteRabbit.CStrings
import WhiteRabbit.FirstMatches
import WhiteRabbit.MemoryWords
import WhiteRabbit.SdbArrays

/-!
# Files in an SDB table

A filesystem finds its files in an SDB table, by the name or by the id in the records. The table is mapped
or it is read by a driver, and its numbers are big endian on hosts of either byte order.
-/

namespace WhiteRabbit.Fmc

open BigEndian CStrings MemoryWords
open Etherbone (field)

/-- The image under a filesystem, mapped or behind a driver, and the byte order of the host. -/
structure SdbImage where
  endian : Endian
  mapped : Bool
  cell : ℤ → UInt8
  entrypoint : ℕ
  entrypoint_lt : entrypoint < 2 ^ 64

/-- The fields of a filesystem that the library changes. The record `currentp` points to is told by its place
in the image, and `nleft`, an `int`, by its value as an unsigned one. -/
structure Sdbfs where
  currentp : Option ℤ
  nleft : ℕ
  fOffset : ℕ
  fLen : ℕ
  readOffset : ℕ

def SdbCopy.name (r : SdbCopy) : Bytes := (r.bytes.drop 44).take 19

/-- `htons`, `htonl`. -/
def htonWord (e : Endian) (n value : ℕ) : ℕ := e.value (encode n value)

def htonll (e : Endian) (ll : ℕ) : ℕ :=
  if htonWord e 4 1 = 1 then ll
  else htonWord e 4 (ll >>> 32) ||| htonWord e 4 (ll % 2 ^ 32) <<< 32

namespace SdbImage

variable (img : SdbImage)

/-- The record at a place. -/
def record (place : ℤ) : SdbCopy where
  bytes := (List.range 64).map fun k : ℕ => img.cell (place + k)
  length_eq := by simp

/-- A field of a record as the host loads it. -/
def load (place : ℤ) (offset n : ℕ) : ℕ := img.endian.value (((img.record place).bytes.drop offset).take n)

/-- The place that is read: a driver takes its offset as an `int`. -/
def sdbfsReadentry (offset : ℕ) : ℤ := if img.mapped then offset else Int.bmod offset (2 ^ 32)

def sdbfsScan (fs : Sdbfs) (newscan : Bool) : Sdbfs × Option ℤ :=
  if newscan then
    let ret := img.sdbfsReadentry img.entrypoint
    let nleft := (htonWord img.endian 2 (img.load ret 4 2) + (2 ^ 32 - 1)) % 2 ^ 32
    ({ fs with fOffset := img.entrypoint, nleft := nleft }, some ret)
  else
    let fs := { fs with fOffset := (fs.fOffset + 64) % 2 ^ 64 }
    if fs.nleft = 0 then (fs, none)
    else ({ fs with nleft := fs.nleft - 1 }, some (img.sdbfsReadentry fs.fOffset))

/-- `currentp` is set, and `__open`. -/
def openRecord (fs : Sdbfs) (d : ℤ) : Sdbfs :=
  let fOffset := htonll img.endian (img.load d 8 8)
  { fs with
    currentp := some d
    fOffset := fOffset
    fLen := (htonll img.endian (img.load d 16 8) + 1 + (2 ^ 64 - fOffset)) % 2 ^ 64
    readOffset := 0 }

/-- The loops of `sdbfs_open_name` and `sdbfs_open_id`, in a number of rounds. -/
def openLoop (found : ℤ → Bool) : ℕ → Sdbfs → Option (Sdbfs × ℤ)
  | 0, _ => none
  | rounds + 1, fs =>
    match img.sdbfsScan fs false with
    | (fs, none) => some (fs, -enoent)
    | (fs, some d) => if found d then some (img.openRecord fs d, 0) else openLoop found rounds fs

/-- A new scan, the interconnect is ignored, and a loop that goes on while there are records. -/
def openFirst (found : ℤ → Bool) (fs : Sdbfs) : Option (Sdbfs × ℤ) :=
  let fs := (img.sdbfsScan fs true).1
  img.openLoop found (fs.nleft + 1) fs

def nameFound (name : CString) (d : ℤ) : Bool :=
  let len := name.chars.length
  strncmp len name.chars (img.record d).name = 0 && (19 ≤ len || (img.record d).name.getD len 0 = 0x20)

def idFound (vid did : ℕ) (d : ℤ) : Bool := vid = img.load d 24 8 && did = img.load d 32 4

def sdbfsOpenName (fs : Sdbfs) (name : CString) : Option (Sdbfs × ℤ) :=
  if 19 < name.chars.length then some (fs, -enoent) else img.openFirst (img.nameFound name) fs

def sdbfsOpenId (fs : Sdbfs) (vid did : ℕ) : Option (Sdbfs × ℤ) := img.openFirst (img.idFound vid did) fs

/-- The results of so many calls that go on with a scan. -/
def nextResults : ℕ → Sdbfs → List (Option ℤ)
  | 0, _ => []
  | calls + 1, fs => (img.sdbfsScan fs false).2 :: nextResults calls (img.sdbfsScan fs false).1

def scanResults (fs : Sdbfs) (calls : ℕ) : List (Option ℤ) :=
  (img.sdbfsScan fs true).2 :: img.nextResults calls (img.sdbfsScan fs true).1

/-- The length of the table, which counts the interconnect. -/
def sdbRecords : ℕ := field (img.record img.entrypoint).bytes 4 2

/-- Where an entry of the table is. -/
def place (i : ℕ) : ℤ := img.entrypoint + 64 * i

/-- The entries after the first. -/
def later : List ℤ := (List.range' 1 (img.sdbRecords - 1)).map img.place

/-- The filesystem has the file of a record open, from its start. -/
structure Opened (d : ℤ) (fs : Sdbfs) : Prop where
  currentp : fs.currentp = some d
  fOffset : fs.fOffset = (img.record d).addrFirst
  fLen : fs.fLen = ((img.record d).addrLast + 1 + (2 ^ 64 - (img.record d).addrFirst)) % 2 ^ 64
  readOffset : fs.readOffset = 0

/-- The first of the entries that is sought is opened, if there is one. -/
def OpensFirst (entries : List ℤ) (sought : ℤ → Bool) (fs : Sdbfs) (result : Option (Sdbfs × ℤ)) : Prop :=
  match entries.find? sought with
  | some d => ∃ t, result = some (t, 0) ∧ img.Opened d t
  | none => ∃ t, result = some (t, -enoent) ∧ t.currentp = fs.currentp

def hasName (name : CString) (d : ℤ) : Bool :=
  (img.record d).name = name.chars ++ List.replicate (19 - name.chars.length) 0x20

def hasId (id : ℕ × ℕ) (d : ℤ) : Bool := ((img.record d).vendorId, (img.record d).deviceId) = id

/-- A scan returns all entries in order, and the lookups find the first entry they seek. -/
structure FindsFiles (fs : Sdbfs) : Prop where
  scan : img.scanResults fs (max img.sdbRecords 1) =
    (List.range (max img.sdbRecords 1)).map (fun i => some (img.place i)) ++ [none]
  openId : ∀ vid did, img.OpensFirst img.later (img.hasId (vid, did)) fs (img.sdbfsOpenId fs vid did)
  openName : ∀ name, img.OpensFirst img.later (img.hasName name) fs (img.sdbfsOpenName fs name)

/-- The last entry can be reached with the offsets of a mapped image or of a driver. -/
def InReach : Prop := img.place (img.sdbRecords - 1) < if img.mapped then 2 ^ 64 else 2 ^ 31

/-- The ids of the record read the same in both directions. -/
def SameInBothOrders (d : ℤ) : Prop :=
  (((img.record d).bytes.drop 24).take 8).reverse = ((img.record d).bytes.drop 24).take 8 ∧
    (((img.record d).bytes.drop 32).take 4).reverse = ((img.record d).bytes.drop 32).take 4

/-- Where the beginning of a name stops at a blank but the name goes on, an earlier entry is named by the
beginning alone. -/
def CutNamesFirst : Prop :=
  ∀ (name : CString) (pre : List ℤ) (d : ℤ) (post : List ℤ), img.later = pre ++ d :: post →
    name.chars ++ [0x20] <+: (img.record d).name → img.hasName name d = false →
    ∃ e ∈ pre, img.hasName name e = true

section ByteOrder

theorem htonWord_value (e : Endian) (bs : Bytes) : htonWord e bs.length (e.value bs) = decode bs := by
  cases e with
  | big => rw [htonWord, Endian.value, Endian.value, encode_decode]
  | little =>
    have h := encode_decode bs.reverse
    rw [List.length_reverse] at h
    rw [htonWord, Endian.value, Endian.value, h, List.reverse_reverse]

/-- Swapped in halves, eight bytes are swapped. -/
theorem htonll_value (e : Endian) (bs : Bytes) (hlength : bs.length = 8) : htonll e (e.value bs) = decode bs := by
  cases e with
  | big =>
    rw [htonll, if_pos (by decide)]
    rfl
  | little =>
    obtain ⟨hi, lo, rfl, hhi, hlo⟩ : ∃ hi lo : Bytes, bs = hi ++ lo ∧ hi.length = 4 ∧ lo.length = 4 :=
      ⟨bs.take 4, bs.drop 4, (List.take_append_drop 4 bs).symm, by simp [hlength], by simp [hlength]⟩
    have hvalue : Endian.little.value (hi ++ lo) = Endian.little.value lo * 2 ^ 32 + Endian.little.value hi := by
      have hpow : (256 : ℕ) ^ hi.reverse.length = 2 ^ 32 := by
        rw [List.length_reverse, hhi]
        rfl
      rw [Endian.value, List.reverse_append, decode_append, hpow]
      rfl
    have hlt : Endian.little.value hi < 2 ^ 32 := by
      have h := Endian.value_lt .little hi
      rwa [hhi] at h
    have hshift : (Endian.little.value lo * 2 ^ 32 + Endian.little.value hi) >>> 32 = Endian.little.value lo := by
      rw [Nat.shiftRight_eq_div_pow, Nat.add_comm, Nat.add_mul_div_right _ _ (by decide), Nat.div_eq_of_lt hlt,
        Nat.zero_add]
    have hmod : (Endian.little.value lo * 2 ^ 32 + Endian.little.value hi) % 2 ^ 32 = Endian.little.value hi := by
      rw [Nat.add_comm, Nat.add_mul_mod_self_right, Nat.mod_eq_of_lt hlt]
    have hhalf : ∀ half : Bytes, half.length = 4 → htonWord .little 4 (Endian.little.value half) = decode half := by
      intro half hhalf
      have h := htonWord_value .little half
      rwa [hhalf] at h
    have hdecode : decode lo < 2 ^ 32 := by
      have h := decode_lt lo
      rwa [hlo] at h
    rw [htonll, if_neg (by decide), hvalue, hshift, hmod, hhalf lo hlo, hhalf hi hhi, decode_append, hlo, Nat.or_comm,
      ← Nat.shiftLeft_add_eq_or_of_lt hdecode, Nat.shiftLeft_eq]
    rfl

end ByteOrder

variable {img}

theorem length_part (img : SdbImage) (d : ℤ) {offset n : ℕ} (h : offset + n ≤ 64) :
    (((img.record d).bytes.drop offset).take n).length = n := by
  rw [List.length_take, List.length_drop, (img.record d).length_eq]
  omega

theorem openRecord_opened (img : SdbImage) (fs : Sdbfs) (d : ℤ) : img.Opened d (img.openRecord fs d) := by
  have hword : ∀ offset, offset + 8 ≤ 64 →
      htonll img.endian (img.load d offset 8) = field (img.record d).bytes offset 8 := fun offset h =>
    htonll_value img.endian _ (length_part img d h)
  refine ⟨rfl, hword 8 (by decide), ?_, rfl⟩
  simp only [openRecord, hword 8 (by decide), hword 16 (by decide)]
  rfl

section Scan

theorem scan_next {fs : Sdbfs} (h : fs.nleft ≠ 0) : img.sdbfsScan fs false =
    ({ fs with fOffset := (fs.fOffset + 64) % 2 ^ 64, nleft := fs.nleft - 1 },
      some (img.sdbfsReadentry ((fs.fOffset + 64) % 2 ^ 64))) := by
  simp [sdbfsScan, h]

theorem scan_end {fs : Sdbfs} (h : fs.nleft = 0) :
    img.sdbfsScan fs false = ({ fs with fOffset := (fs.fOffset + 64) % 2 ^ 64 }, none) := by
  simp [sdbfsScan, h]

/-- What is left of a scan that has come to the entry `i`. -/
theorem nextResults_eq (img : SdbImage) {i : ℕ} (fs : Sdbfs)
    (hoffset : fs.fOffset = (img.entrypoint + 64 * i) % 2 ^ 64) :
    img.nextResults (fs.nleft + 1) fs = (List.range' (i + 1) fs.nleft).map
        (fun j => some (img.sdbfsReadentry ((img.entrypoint + 64 * j) % 2 ^ 64))) ++ [none] := by
  induction hn : fs.nleft generalizing i fs with
  | zero => rw [nextResults, scan_end hn]; rfl
  | succ n ih =>
    have hnext : (fs.fOffset + 64) % 2 ^ 64 = (img.entrypoint + 64 * (i + 1)) % 2 ^ 64 := by omega
    rw [nextResults, scan_next (by omega), hnext, List.range'_succ, List.map_cons, List.cons_append]
    congr 1
    exact ih { fs with fOffset := (img.entrypoint + 64 * (i + 1)) % 2 ^ 64, nleft := fs.nleft - 1 } rfl (by simp [hn])

/-- Where the first entry is read, the table has its length. -/
theorem load_records (h : img.sdbfsReadentry img.entrypoint = img.entrypoint) :
    htonWord img.endian 2 (img.load (img.sdbfsReadentry img.entrypoint) 4 2) = img.sdbRecords := by
  have hlength := length_part img img.entrypoint (show 4 + 2 ≤ 64 by decide)
  have hvalue := htonWord_value img.endian (((img.record img.entrypoint).bytes.drop 4).take 2)
  rw [hlength] at hvalue
  rw [h]
  exact hvalue

theorem sdbRecords_lt (img : SdbImage) : img.sdbRecords < 2 ^ 16 := by
  have h := decode_lt (((img.record img.entrypoint).bytes.drop 4).take 2)
  rw [length_part img _ (by decide)] at h
  exact h

theorem readentry_eq_place_iff (img : SdbImage) (i : ℕ) :
    img.sdbfsReadentry ((img.entrypoint + 64 * i) % 2 ^ 64) = img.place i ↔
      img.place i < if img.mapped then 2 ^ 64 else 2 ^ 31 := by
  rw [sdbfsReadentry, place]
  split
  · omega
  · rw [Int.bmod_def]
    split <;> omega

/-- The filesystem after the interconnect of a table with records was read. -/
theorem scan_first (fs : Sdbfs) (h : img.sdbfsReadentry img.entrypoint = img.entrypoint) (hn : 1 ≤ img.sdbRecords) :
    img.sdbfsScan fs true = ({ fs with fOffset := img.entrypoint, nleft := img.sdbRecords - 1 },
      some (img.place 0)) := by
  have hlt := img.sdbRecords_lt
  have hleft : (img.sdbRecords + (2 ^ 32 - 1)) % 2 ^ 32 = img.sdbRecords - 1 := by omega
  have hplace : img.place 0 = img.entrypoint := by simp [place]
  rw [sdbfsScan, if_pos rfl]
  simp only
  rw [load_records h, hleft, h, hplace]

theorem inReach_of_le (h : img.InReach) {i : ℕ} (hi : i ≤ img.sdbRecords - 1) :
    img.sdbfsReadentry ((img.entrypoint + 64 * i) % 2 ^ 64) = img.place i := by
  rw [readentry_eq_place_iff]
  have hle : img.place i ≤ img.place (img.sdbRecords - 1) := by
    rw [place, place]
    omega
  exact Int.lt_of_le_of_lt hle h

theorem readentry_entrypoint (h : img.InReach) : img.sdbfsReadentry img.entrypoint = img.entrypoint := by
  have hfirst := inReach_of_le h (Nat.zero_le _)
  rwa [Nat.mul_zero, Nat.add_zero, Nat.mod_eq_of_lt img.entrypoint_lt, place, Nat.cast_zero, mul_zero,
    add_zero] at hfirst

/-- A scan is right where there is an entry and the last one can be reached. -/
theorem scan_iff (img : SdbImage) (fs : Sdbfs) :
    img.scanResults fs (max img.sdbRecords 1) =
        (List.range (max img.sdbRecords 1)).map (fun i => some (img.place i)) ++ [none] ↔
      1 ≤ img.sdbRecords ∧ img.InReach := by
  have hresults : img.sdbfsReadentry img.entrypoint = img.entrypoint → 1 ≤ img.sdbRecords →
      img.scanResults fs (max img.sdbRecords 1) = (List.range img.sdbRecords).map
        (fun i => some (img.sdbfsReadentry ((img.entrypoint + 64 * i) % 2 ^ 64))) ++ [none] := by
    intro hfirst hn
    have hplace : img.sdbfsReadentry ((img.entrypoint + 64 * 0) % 2 ^ 64) = img.place 0 := by
      rw [Nat.mul_zero, Nat.add_zero, Nat.mod_eq_of_lt img.entrypoint_lt, hfirst]
      simp [place]
    have hnext := nextResults_eq img (i := 0)
      { fs with fOffset := img.entrypoint, nleft := img.sdbRecords - 1 }
      (by rw [Nat.mul_zero, Nat.add_zero, Nat.mod_eq_of_lt img.entrypoint_lt])
    obtain ⟨n, hsucc⟩ : ∃ n, img.sdbRecords = n + 1 := ⟨img.sdbRecords - 1, by omega⟩
    rw [scanResults, scan_first fs hfirst hn, Nat.max_eq_left hn]
    simp only [hsucc, Nat.add_sub_cancel] at hnext ⊢
    rw [hnext, List.range_eq_range', List.range'_succ, List.map_cons, hplace]
    rfl
  constructor
  · intro h
    have hfirst : img.sdbfsReadentry img.entrypoint = img.entrypoint := by
      obtain ⟨n, hsucc⟩ : ∃ n, max img.sdbRecords 1 = n + 1 := ⟨max img.sdbRecords 1 - 1, by omega⟩
      rw [hsucc, List.range_eq_range', List.range'_succ, List.map_cons] at h
      simpa [sdbfsScan, scanResults, place] using (List.cons.inj h).1
    have hn : 1 ≤ img.sdbRecords := by
      -- an empty table has a first entry, and `nleft` is then -1
      by_contra hn
      have hzero : img.sdbRecords = 0 := by omega
      have hleft : (img.sdbfsScan fs true).1.nleft = 2 ^ 32 - 1 := by
        rw [sdbfsScan, if_pos rfl]
        simp only
        rw [load_records hfirst, hzero]
        rfl
      rw [hzero, scanResults] at h
      have hsecond := (List.cons.inj h).2
      rw [show max 0 1 = 0 + 1 from rfl, nextResults, scan_next (by rw [hleft]; decide)] at hsecond
      cases hsecond
    refine ⟨hn, ?_⟩
    rw [hresults hfirst hn, Nat.max_eq_left hn, List.append_left_inj, List.map_inj_left] at h
    have hlast := h (img.sdbRecords - 1) (List.mem_range.mpr (by omega))
    exact (readentry_eq_place_iff img _).mp (Option.some.inj hlast)
  · rintro ⟨hn, hreach⟩
    rw [hresults (readentry_entrypoint hreach) hn, Nat.max_eq_left hn, List.append_left_inj, List.map_inj_left]
    intro i hi
    rw [inReach_of_le hreach (by have := List.mem_range.mp hi; omega)]

end Scan

section Lookup

variable {found sought : ℤ → Bool} {entries : List ℤ}

/-- One result opens the first entry of two searches only where these find the same one. -/
theorem OpensFirst.iff {fs : Sdbfs} {result : Option (Sdbfs × ℤ)} (h : img.OpensFirst entries found fs result) :
    img.OpensFirst entries sought fs result ↔ entries.find? found = entries.find? sought := by
  rw [OpensFirst] at h
  constructor
  · intro h'
    rw [OpensFirst] at h'
    cases hf : entries.find? found with
    | none =>
      rw [hf] at h
      obtain ⟨t, rfl, -⟩ := h
      cases hs : entries.find? sought with
      | none => rfl
      | some d =>
        rw [hs] at h'
        obtain ⟨u, hu, -⟩ := h'
        cases hu
    | some d =>
      rw [hf] at h
      obtain ⟨t, rfl, ht⟩ := h
      cases hs : entries.find? sought with
      | none =>
        rw [hs] at h'
        obtain ⟨u, hu, -⟩ := h'
        cases hu
      | some e =>
        rw [hs] at h'
        obtain ⟨u, hu, hopened⟩ := h'
        cases hu
        exact ht.currentp.symm.trans hopened.currentp
  · intro hsame
    rwa [OpensFirst, ← hsame]

/-- The loop from the entry `i` on. -/
theorem openLoop_opensFirst (hreach : img.InReach) {n i : ℕ} (fs : Sdbfs) (hleft : fs.nleft = n)
    (hoffset : fs.fOffset = (img.entrypoint + 64 * i) % 2 ^ 64) (hi : i + n ≤ img.sdbRecords - 1) :
    img.OpensFirst ((List.range' (i + 1) n).map img.place) found fs (img.openLoop found (n + 1) fs) := by
  induction n generalizing i fs with
  | zero =>
    rw [openLoop, scan_end hleft]
    exact ⟨_, rfl, rfl⟩
  | succ n ih =>
    have hnext : (fs.fOffset + 64) % 2 ^ 64 = (img.entrypoint + 64 * (i + 1)) % 2 ^ 64 := by omega
    rw [openLoop, scan_next (by omega), hnext, inReach_of_le hreach (by omega)]
    simp only
    rw [List.range'_succ, List.map_cons]
    cases hfound : found (img.place (i + 1)) with
    | true =>
      rw [OpensFirst, List.find?_cons_of_pos hfound]
      exact ⟨_, rfl, openRecord_opened img _ _⟩
    | false =>
      rw [OpensFirst, List.find?_cons_of_neg (by simp [hfound])]
      exact ih { fs with fOffset := (img.entrypoint + 64 * (i + 1)) % 2 ^ 64, nleft := fs.nleft - 1 }
        (by simp [hleft]) rfl (by omega)

theorem openFirst_opensFirst (hn : 1 ≤ img.sdbRecords) (hreach : img.InReach) (fs : Sdbfs) :
    img.OpensFirst img.later found fs (img.openFirst found fs) := by
  rw [openFirst, scan_first fs (readentry_entrypoint hreach) hn]
  refine openLoop_opensFirst (i := 0) hreach _ rfl ?_ (by omega)
  rw [Nat.mul_zero, Nat.add_zero, Nat.mod_eq_of_lt img.entrypoint_lt]

end Lookup

section Ids

theorem load_eq (d : ℤ) {offset n : ℕ} (h : offset + n ≤ 64) :
    img.load d offset n = img.endian.value (encode n (field (img.record d).bytes offset n)) := by
  have hlength := length_part img d h
  have hencode := encode_decode (((img.record d).bytes.drop offset).take n)
  rw [hlength] at hencode
  rw [load, field, hencode]

/-- A word is loaded as it is meant on a big-endian host, and else if it reads the same in both directions. -/
theorem load_eq_field_iff (d : ℤ) (offset n : ℕ) :
    img.load d offset n = field (img.record d).bytes offset n ↔ img.endian = .big ∨
      (((img.record d).bytes.drop offset).take n).reverse = ((img.record d).bytes.drop offset).take n := by
  rw [load, field]
  cases img.endian with
  | big => exact iff_of_true rfl (.inl rfl)
  | little =>
    rw [or_iff_right (by simp)]
    constructor
    · intro h
      have hencode := encode_decode (((img.record d).bytes.drop offset).take n).reverse
      rw [Endian.value] at h
      rw [h, List.length_reverse, encode_decode] at hencode
      exact hencode.symm
    · intro h
      rw [Endian.value, h]

theorem find_id_iff (img : SdbImage) :
    (∀ vid did, img.later.find? (img.idFound vid did) = img.later.find? (img.hasId (vid, did))) ↔
      img.endian = .big ∨ ∀ d ∈ img.later, img.SameInBothOrders d := by
  let key : ℤ → ℕ × ℕ := fun d => ((img.record d).vendorId, (img.record d).deviceId)
  let loaded : ℕ × ℕ → ℕ × ℕ := fun id => (img.endian.value (encode 8 id.1), img.endian.value (encode 4 id.2))
  have hloaded : ∀ d, loaded (key d) = (img.load d 24 8, img.load d 32 4) := fun d =>
    Prod.ext (load_eq d (by decide)).symm (load_eq d (by decide)).symm
  have hfound : ∀ vid did, img.idFound vid did = fun d => decide (loaded (key d) = (vid, did)) := by
    intro vid did
    funext d
    rw [idFound, hloaded, Bool.eq_iff_iff, Bool.and_eq_true, decide_eq_true_iff, decide_eq_true_iff,
      decide_eq_true_iff, Prod.mk.injEq, eq_comm, @eq_comm ℕ did]
  have hkeeps : ∀ d, loaded (key d) = key d ↔ img.endian = .big ∨ img.SameInBothOrders d := by
    intro d
    rw [hloaded, Prod.mk.injEq, SameInBothOrders, or_and_left]
    exact and_congr (load_eq_field_iff d 24 8) (load_eq_field_iff d 32 4)
  have hrenamed := FirstMatches.find_renamed_iff img.later key loaded
  have hpair : (∀ vid did, img.later.find? (img.idFound vid did) = img.later.find? (img.hasId (vid, did))) ↔
      ∀ id, img.later.find? (fun d => decide (loaded (key d) = id)) = img.later.find? fun d => decide (key d = id) := by
    constructor
    · intro h id
      rw [← hfound id.1 id.2]
      exact h id.1 id.2
    · intro h vid did
      rw [hfound]
      exact h (vid, did)
  rw [hpair, hrenamed]
  simp only [hkeeps]
  constructor
  · intro h
    by_cases hbig : img.endian = .big
    · exact .inl hbig
    · exact .inr fun d hd => (h d hd).resolve_left hbig
  · rintro (hbig | hsame) d hd
    · exact .inl hbig
    · exact .inr (hsame d hd)

end Ids

section Names

theorem length_name (img : SdbImage) (d : ℤ) : (img.record d).name.length = 19 := length_part img d (by decide)

theorem concat_prefix_iff {name bs : Bytes} (hlength : name.length < bs.length) (c : UInt8) :
    name ++ [c] <+: bs ↔ name <+: bs ∧ bs.getD name.length 0 = c := by
  constructor
  · rintro ⟨rest, rfl⟩
    exact ⟨⟨[c] ++ rest, by simp⟩, by simp⟩
  · rintro ⟨⟨rest, rfl⟩, hc⟩
    cases rest with
    | nil => simp at hlength
    | cons b rest =>
      simp only [List.getD_append_right _ _ _ _ le_rfl, Nat.sub_self, List.getD_cons_zero] at hc
      exact ⟨rest, by simp [hc]⟩

/-- What the comparison of the names looks for. -/
theorem nameFound_iff (name : CString) (hlength : name.chars.length ≤ 19) (d : ℤ) :
    img.nameFound name d = true ↔ img.hasName name d = true ∨ name.chars ++ [0x20] <+: (img.record d).name := by
  have hname := length_name img d
  rw [nameFound, hasName, Bool.and_eq_true, decide_eq_true_iff, decide_eq_true_iff, Bool.or_eq_true,
    decide_eq_true_iff, decide_eq_true_iff, strncmp_eq_zero_iff name.noNul (by omega)]
  by_cases hfull : name.chars.length = 19
  · have hlong : ¬ name.chars ++ [0x20] <+: (img.record d).name := by
      intro h
      have hle := h.length_le
      rw [List.length_append, hfull, hname] at hle
      exact absurd hle (by decide)
    rw [or_iff_left hlong, hfull, Nat.sub_self, List.replicate_zero, List.append_nil]
    constructor
    · rintro ⟨hbegins, -⟩
      exact (hbegins.eq_of_length (by omega)).symm
    · intro h
      exact ⟨by rw [h], .inl le_rfl⟩
  · have hshort : ¬ 19 ≤ name.chars.length := by omega
    rw [or_iff_right hshort, ← concat_prefix_iff (by omega)]
    refine ⟨Or.inr, fun h => h.elim (fun hpadded => ?_) id⟩
    obtain ⟨k, hk⟩ : ∃ k, 19 - name.chars.length = k + 1 := ⟨18 - name.chars.length, by omega⟩
    rw [hpadded, hk, List.replicate_succ]
    exact ⟨List.replicate k 0x20, by simp⟩

/-- The names that are looked for in vain. -/
theorem hasName_long (name : CString) (hlength : 19 < name.chars.length) (d : ℤ) : img.hasName name d = false := by
  have hname := length_name img d
  rw [hasName, decide_eq_false_iff_not]
  intro h
  rw [h, List.length_append] at hname
  omega

theorem find_name_iff (img : SdbImage) :
    (∀ name : CString, name.chars.length ≤ 19 →
        img.later.find? (img.nameFound name) = img.later.find? (img.hasName name)) ↔ img.CutNamesFirst := by
  let found : CString → ℤ → Bool := fun name d => decide (name.chars.length ≤ 19) && img.nameFound name d
  have hfound : ∀ name d, found name d = true ↔
      img.hasName name d = true ∨ name.chars ++ [0x20] <+: (img.record d).name := by
    intro name d
    by_cases hlength : name.chars.length ≤ 19
    · rw [← nameFound_iff name hlength]
      simp [found, hlength]
    · have hlong : ¬ name.chars ++ [0x20] <+: (img.record d).name := by
        intro h
        have hle := h.length_le
        rw [List.length_append, length_name img] at hle
        omega
      simp [found, hlength, hlong, hasName_long name (by omega)]
  have hloose := FirstMatches.find_loose_iff img.later
    fun name d h => (hfound name d).mpr (.inl h)
  have hshort : (∀ name : CString, name.chars.length ≤ 19 →
        img.later.find? (img.nameFound name) = img.later.find? (img.hasName name)) ↔
      ∀ name, img.later.find? (found name) = img.later.find? (img.hasName name) := by
    refine forall_congr' fun name => ?_
    by_cases hlength : name.chars.length ≤ 19
    · have hsame : found name = img.nameFound name := by
        funext d
        simp [found, hlength]
      rw [forall_prop_of_true hlength, hsame]
    · have hnone : found name = img.hasName name := by
        funext d
        rw [hasName_long name (by omega)]
        simp [found, hlength]
      exact iff_of_true (fun h => absurd h hlength) (by rw [hnone])
  rw [hshort, hloose, CutNamesFirst]
  refine forall_congr' fun name => forall_congr' fun pre => forall_congr' fun d => forall_congr' fun post =>
    forall_congr' fun hlater => ?_
  rw [hfound]
  constructor
  · exact fun h hcut hnot => h (.inr hcut) hnot
  · exact fun h hf hnot => h (hf.resolve_left (by simp [hnot])) hnot

end Names

/-- The files of an image are found by every lookup exactly where the table has an entry and can be reached, the
host loads all ids as they are meant, and no beginning of a name is found before a file with this name. -/
theorem findsFiles_iff (img : SdbImage) (fs : Sdbfs) : img.FindsFiles fs ↔
    (1 ≤ img.sdbRecords ∧ img.InReach) ∧ (img.endian = .big ∨ ∀ d ∈ img.later, img.SameInBothOrders d) ∧
      img.CutNamesFirst := by
  have hids : 1 ≤ img.sdbRecords → img.InReach → ∀ vid did,
      (img.OpensFirst img.later (img.hasId (vid, did)) fs (img.sdbfsOpenId fs vid did) ↔
        img.later.find? (img.idFound vid did) = img.later.find? (img.hasId (vid, did))) :=
    fun hn hreach vid did => (openFirst_opensFirst hn hreach fs).iff
  have hnames : 1 ≤ img.sdbRecords → img.InReach → ∀ name,
      (img.OpensFirst img.later (img.hasName name) fs (img.sdbfsOpenName fs name) ↔ (name.chars.length ≤ 19 →
        img.later.find? (img.nameFound name) = img.later.find? (img.hasName name))) := by
    intro hn hreach name
    rw [sdbfsOpenName]
    split_ifs with hlong
    · refine iff_of_true ?_ fun h => absurd hlong (by omega)
      have hnone : img.later.find? (img.hasName name) = none :=
        List.find?_eq_none.mpr fun d _ => by simp [hasName_long name hlong d]
      rw [OpensFirst, hnone]
      exact ⟨fs, rfl, rfl⟩
    · rw [forall_prop_of_true (by omega)]
      exact (openFirst_opensFirst hn hreach fs).iff
  constructor
  · intro h
    obtain ⟨hn, hreach⟩ := (scan_iff img fs).mp h.scan
    exact ⟨⟨hn, hreach⟩, (find_id_iff img).mp fun vid did => (hids hn hreach vid did).mp (h.openId vid did),
      (find_name_iff img).mp fun name => (hnames hn hreach name).mp (h.openName name)⟩
  · rintro ⟨⟨hn, hreach⟩, hid, hname⟩
    exact ⟨(scan_iff img fs).mpr ⟨hn, hreach⟩,
      fun vid did => (hids hn hreach vid did).mpr ((find_id_iff img).mpr hid vid did),
      fun name => (hnames hn hreach name).mpr ((find_name_iff img).mpr hname name)⟩

/-- A table with one file, made by vendor 0xce42, mapped on a little-endian host. -/
def oneFile : SdbImage where
  endian := .little
  mapped := true
  cell place := (Etherbone.SdbInterconnect.bytes
      { sdbMagic := Etherbone.sdbMagic
        sdbRecords := 2
        sdbVersion := 1
        sdbBusType := 2
        sdbComponent := ⟨0, 0xff, ⟨0xce42, 1, 1, 0, List.replicate 19 0x20, 0⟩⟩ } ++
    Etherbone.SdbDevice.bytes
      { abiClass := 0
        abiVerMajor := 1
        abiVerMinor := 0
        busSpecific := 0
        sdbComponent := ⟨0x80, 0xff, ⟨0xce42, 1, 1, 0, List.replicate 19 0x2e, 1⟩⟩ }).getD place.toNat 0
  entrypoint := 0
  entrypoint_lt := by decide

/-- The host compares its own numbers with the bytes of the ids. -/
theorem oneFile_lost : (oneFile.sdbfsOpenId ⟨none, 0, 0, 0, 0⟩ 0xce42 1).map Prod.snd = some (-enoent) ∧
    ¬ oneFile.FindsFiles ⟨none, 0, 0, 0, 0⟩ := by
  have hresult : (oneFile.sdbfsOpenId ⟨none, 0, 0, 0, 0⟩ 0xce42 1).map Prod.snd = some (-enoent) := by
    decide +kernel
  have hfirst : oneFile.later.find? (oneFile.hasId (0xce42, 1)) = some 64 := by
    decide +kernel
  refine ⟨hresult, fun h => ?_⟩
  have hopens := h.openId 0xce42 1
  rw [OpensFirst, hfirst] at hopens
  obtain ⟨t, ht, -⟩ := hopens
  rw [ht] at hresult
  cases hresult

end SdbImage

end WhiteRabbit.Fmc
