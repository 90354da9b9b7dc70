import WhiteRabbit.SdbFiles
import WhiteRabbit.StepRuns

/-!
# Reads from the files of an SDB table

A read goes on from the offset where the one before stopped, or it names an offset of its own. Offsets and
counts are of type `int`, places and lengths of type `unsigned long`.
-/

namespace WhiteRabbit.Fmc

open StepRuns

/-- The arguments of a read; a negative offset goes on from the last one. -/
structure ReadCall where
  offset : ℤ
  count : ℕ
  offset_lt : offset < 2 ^ 31
  count_lt : count < 2 ^ 31

/-- The copy that a read asks for, from a place in the image. -/
structure Fetch where
  place : ℤ
  size : ℤ

def Fetch.places (f : Fetch) : List ℤ := (List.range f.size.toNat).map fun i : ℕ => f.place + i

structure ReadResult where
  fs : Sdbfs
  ret : ℤ
  fetch : Fetch

/-- Conversions to `int` and to `unsigned long`. -/
def toInt (x : ℤ) : ℤ := Int.bmod x (2 ^ 32)
def toULong (x : ℤ) : ℕ := (x % 2 ^ 64).toNat

namespace SdbImage

variable (img : SdbImage)

/-- `sdbfs_fread` on a file that is open. Sums of type `int` wrap around. -/
def sdbfsFread (fs : Sdbfs) (offset count : ℤ) : ReadResult :=
  let offset := if offset < 0 then toInt fs.readOffset else offset
  let count := if fs.fLen < toULong (toInt (offset + count)) then toInt (toULong (fs.fLen - offset)) else count
  { fs := { fs with readOffset := toULong (toInt (offset + count)) }
    ret := count
    fetch :=
      if img.mapped then ⟨fs.fOffset + offset, toULong count⟩ else ⟨toInt (toULong (fs.fOffset + offset)), count⟩ }

def readCall (fs : Sdbfs) (c : ReadCall) : ReadResult := img.sdbfsFread fs c.offset c.count

def readStep (fs : Sdbfs) (c : ReadCall) : Option Sdbfs := some (img.readCall fs c).fs

/-- The places that a row of reads takes its bytes from. -/
def placesRead : Sdbfs → List ReadCall → List ℤ
  | _, [] => []
  | fs, c :: cs => (img.readCall fs c).fetch.places ++ placesRead (img.readCall fs c).fs cs

end SdbImage

/-- Where a read starts, and how many bytes there are for it. -/
def ReadCall.start (c : ReadCall) (fs : Sdbfs) : ℕ := if c.offset < 0 then fs.readOffset else c.offset.toNat
def ReadCall.length (c : ReadCall) (fs : Sdbfs) : ℕ := min c.count (fs.fLen - c.start fs)

/-- The bytes of a file, by their places. -/
def Sdbfs.content (fs : Sdbfs) (start length : ℕ) : List ℤ :=
  (List.range' start length).map fun i : ℕ => (fs.fOffset : ℤ) + i

/-- A read gives the bytes there are, and the next one goes on behind them. -/
structure SdbImage.ReadExact (img : SdbImage) (fs : Sdbfs) (c : ReadCall) : Prop where
  ret : (img.readCall fs c).ret = c.length fs
  places : (img.readCall fs c).fetch.places = fs.content (c.start fs) (c.length fs)
  inside : ∀ p ∈ (img.readCall fs c).fetch.places, (fs.fOffset : ℤ) ≤ p ∧ p < fs.fOffset + fs.fLen
  readOffset : (img.readCall fs c).fs.readOffset = c.start fs + c.length fs

/-- The read starts in the file or at its end, it ends at an offset that is an `int`, and a driver is given
one. -/
structure SdbImage.InRange (img : SdbImage) (fs : Sdbfs) (c : ReadCall) : Prop where
  start : c.start fs ≤ fs.fLen
  stop : c.start fs + c.length fs < 2 ^ 31
  place : img.mapped = true ∨ c.length fs = 0 ∨ fs.fOffset + c.start fs < 2 ^ 31

namespace SdbImage

variable {img : SdbImage} {fs : Sdbfs} {c : ReadCall}

theorem toInt_eq (x : ℤ) : toInt x = if x % 2 ^ 32 < 2 ^ 31 then x % 2 ^ 32 else x % 2 ^ 32 - 2 ^ 32 := by
  rw [toInt, Int.bmod_def]
  rfl

theorem start_lt (hoffset : fs.readOffset < 2 ^ 31) (c : ReadCall) : c.start fs < 2 ^ 31 := by
  have hlt := c.offset_lt
  rw [ReadCall.start]
  split <;> omega

/-- The offset a read works with. -/
theorem readCall_eq (hoffset : fs.readOffset < 2 ^ 31) (c : ReadCall) :
    img.readCall fs c = img.sdbfsFread fs (c.start fs) c.count := by
  have hlt := c.offset_lt
  have hstart : (if c.offset < 0 then toInt fs.readOffset else c.offset) = c.start fs := by
    rw [ReadCall.start]
    split
    · rw [toInt_eq]
      omega
    · omega
  have hnonneg : ¬ (c.start fs : ℤ) < 0 := by omega
  simp only [readCall, sdbfsFread, hstart, if_neg hnonneg]

/-- A filesystem with an open file, after some reads. -/
structure Reading (first : Sdbfs) (fs : Sdbfs) : Prop where
  fOffset : fs.fOffset = first.fOffset
  fLen : fs.fLen = first.fLen
  fLen_lt : fs.fLen < 2 ^ 64
  readOffset : fs.readOffset < 2 ^ 31

/-- The count that a read returns. -/
def clamped (fs : Sdbfs) (start count : ℕ) : ℤ :=
  if fs.fLen < toULong (toInt (start + count : ℤ)) then toInt (toULong (fs.fLen - start)) else count

theorem toULong_toInt {x : ℤ} (h : 0 ≤ x) (hlt : x < 2 ^ 32) :
    (toULong (toInt x) : ℤ) = if x < 2 ^ 31 then x else x - 2 ^ 32 + 2 ^ 64 := by
  rw [toULong, toInt_eq]
  split <;> split <;> omega

theorem clamped_eq {start count : ℕ} (hlen : fs.fLen < 2 ^ 64) (hstart : start < 2 ^ 31) (hcount : count < 2 ^ 31)
    (hle : start ≤ fs.fLen) (hstop : start + min count (fs.fLen - start) < 2 ^ 31) :
    clamped fs start count = (min count (fs.fLen - start) : ℕ) := by
  have hsum := toULong_toInt (x := start + count) (by omega) (by omega)
  have hrest : (toULong (fs.fLen - start : ℤ) : ℤ) = fs.fLen - start := by
    rw [toULong]
    omega
  have hint := toInt_eq (fs.fLen - start)
  rw [clamped, hrest]
  split_ifs at hsum hint ⊢ <;> omega

/-- A read that starts behind the end of the file returns a negative count. -/
theorem clamped_neg {start count : ℕ} (hstart : start < 2 ^ 31) (hcount : count < 2 ^ 31)
    (hlt : fs.fLen < start) : clamped fs start count < 0 := by
  have hsum := toULong_toInt (x := start + count) (by omega) (by omega)
  have hrest : (toULong (fs.fLen - start : ℤ) : ℤ) = fs.fLen - start + 2 ^ 64 := by
    rw [toULong]
    omega
  have hint := toInt_eq (fs.fLen - start + 2 ^ 64)
  rw [clamped, hrest]
  split_ifs at hsum hint ⊢ <;> omega

theorem length_lt (fs : Sdbfs) (c : ReadCall) : c.length fs < 2 ^ 31 := by
  have hlt := c.count_lt
  rw [ReadCall.length]
  omega

theorem ret_eq (hoffset : fs.readOffset < 2 ^ 31) (c : ReadCall) :
    (img.readCall fs c).ret = clamped fs (c.start fs) c.count := by
  have hnonneg : ¬ (c.start fs : ℤ) < 0 := by omega
  rw [readCall_eq hoffset]
  simp only [sdbfsFread, if_neg hnonneg]
  rfl

/-- The offset behind the read, and the copy, where the count is as it has to be. -/
theorem result_eq (hoffset : fs.readOffset < 2 ^ 31) (hret : clamped fs (c.start fs) c.count = c.length fs) :
    (img.readCall fs c).fs = { fs with readOffset := toULong (toInt (c.start fs + c.length fs)) } ∧
      (img.readCall fs c).fetch = if img.mapped then ⟨fs.fOffset + c.start fs, toULong (c.length fs)⟩
        else ⟨toInt (toULong (fs.fOffset + c.start fs)), c.length fs⟩ := by
  have hnonneg : ¬ (c.start fs : ℤ) < 0 := by omega
  rw [clamped] at hret
  rw [readCall_eq hoffset]
  simp only [sdbfsFread, if_neg hnonneg, hret]
  exact ⟨trivial, trivial⟩

theorem places_eq_content_iff (place : ℤ) (start length : ℕ) :
    Fetch.places ⟨place, length⟩ = fs.content start length ↔ length = 0 ∨ place = fs.fOffset + start := by
  rw [Fetch.places, Sdbfs.content, Int.toNat_natCast, List.range'_eq_map_range, List.map_map]
  constructor
  · intro h
    cases length with
    | zero => exact .inl rfl
    | succ n =>
      have hfirst := List.map_inj_left.mp h 0 (by simp)
      exact .inr (by simpa using hfirst)
  · rintro (rfl | rfl)
    · rfl
    · refine List.map_congr_left fun i _ => ?_
      simp only [Function.comp_apply]
      omega

theorem places_iff (hoffset : fs.readOffset < 2 ^ 31) (hplace : fs.fOffset < 2 ^ 64)
    (hret : clamped fs (c.start fs) c.count = c.length fs) :
    (img.readCall fs c).fetch.places = fs.content (c.start fs) (c.length fs) ↔
      img.mapped = true ∨ c.length fs = 0 ∨ fs.fOffset + c.start fs < 2 ^ 31 := by
  have hlength := length_lt fs c
  have hstart := start_lt hoffset c
  rw [(result_eq hoffset hret).2]
  cases img.mapped with
  | true =>
    have hsize : toULong (c.length fs) = c.length fs := by
      rw [toULong]
      omega
    rw [if_pos rfl, hsize, places_eq_content_iff]
    simp
  | false =>
    have hint := toInt_eq (toULong (fs.fOffset + c.start fs))
    have hlong : (toULong (fs.fOffset + c.start fs) : ℤ) = (fs.fOffset + c.start fs) % 2 ^ 64 := by
      rw [toULong]
      omega
    have hnever : ¬ false = true := Bool.false_ne_true
    rw [if_neg hnever, places_eq_content_iff, or_iff_right hnever]
    refine or_congr_right ?_
    split_ifs at hint <;> omega

/-- A read is exact where it is in range. -/
theorem readExact_iff (img : SdbImage) (hlen : fs.fLen < 2 ^ 64) (hplace : fs.fOffset < 2 ^ 64)
    (hoffset : fs.readOffset < 2 ^ 31) (c : ReadCall) : img.ReadExact fs c ↔ img.InRange fs c := by
  have hstart := start_lt hoffset c
  have hlength := length_lt fs c
  have hwrap := toULong_toInt (x := c.start fs + c.length fs) (by omega) (by omega)
  constructor
  · intro h
    have hret : clamped fs (c.start fs) c.count = c.length fs := (ret_eq hoffset c).symm.trans h.ret
    have hoff := h.readOffset
    rw [(result_eq hoffset hret).1] at hoff
    refine ⟨?_, ?_, (places_iff hoffset hplace hret).mp h.places⟩
    · by_contra hbehind
      have hneg := clamped_neg hstart c.count_lt (Nat.lt_of_not_le hbehind)
      omega
    · simp only at hoff
      split_ifs at hwrap <;> omega
  · intro h
    have hret : clamped fs (c.start fs) c.count = c.length fs :=
      clamped_eq hlen hstart c.count_lt h.start h.stop
    have hplaces := (places_iff hoffset hplace hret).mpr h.place
    refine ⟨(ret_eq hoffset c).trans hret, hplaces, ?_, ?_⟩
    · rw [hplaces]
      intro p hp
      obtain ⟨i, hi, rfl⟩ := List.mem_map.mp hp
      obtain ⟨hlow, hhigh⟩ := List.mem_range'_1.mp hi
      have hend : c.start fs + c.length fs ≤ fs.fLen := by
        have hle := h.start
        rw [ReadCall.length]
        omega
      omega
    · rw [(result_eq hoffset hret).1]
      have hstop := h.stop
      simp only
      split_ifs at hwrap <;> omega

/-- Reads in range keep the file open. -/
theorem InRange.next (hplace : fs.fOffset < 2 ^ 64) {first : Sdbfs} (h : Reading first fs) (hin : img.InRange fs c) :
    (img.readCall fs c).fs = { fs with readOffset := c.start fs + c.length fs } ∧
      Reading first (img.readCall fs c).fs := by
  have hexact := (readExact_iff img h.fLen_lt hplace h.readOffset c).mpr hin
  have hret : clamped fs (c.start fs) c.count = c.length fs := (ret_eq h.readOffset c).symm.trans hexact.ret
  have hoff := hexact.readOffset
  rw [(result_eq h.readOffset hret).1] at hoff ⊢
  simp only at hoff
  rw [hoff]
  exact ⟨rfl, h.fOffset, h.fLen, h.fLen_lt, hin.stop⟩

theorem content_append (fs : Sdbfs) (start n m : ℕ) :
    fs.content start n ++ fs.content (start + n) m = fs.content start (n + m) := by
  rw [Sdbfs.content, Sdbfs.content, Sdbfs.content, ← List.map_append, List.range'_append_1]

/-- Reads that all go on take the bytes one after the other, as many as there are. -/
theorem placesRead_content {first : Sdbfs} (hplace : first.fOffset < 2 ^ 64) (h : Reading first fs)
    {calls : List ReadCall} (hgoOn : ∀ c ∈ calls, c.offset < 0)
    (hobeys : Obeys img.readStep img.InRange fs calls) :
    img.placesRead fs calls =
      fs.content fs.readOffset (min (calls.map ReadCall.count).sum (fs.fLen - fs.readOffset)) := by
  induction calls generalizing fs with
  | nil => simp [placesRead, Sdbfs.content]
  | cons c calls ih =>
    obtain ⟨hin, hrest⟩ := hobeys
    have hplace' : fs.fOffset < 2 ^ 64 := h.fOffset ▸ hplace
    obtain ⟨hnext, hreading⟩ := hin.next hplace' h
    have hexact := (readExact_iff img h.fLen_lt hplace' h.readOffset c).mpr hin
    have hstart : c.start fs = fs.readOffset := if_pos (hgoOn c (by simp))
    have hlength : c.length fs = min c.count (fs.fLen - fs.readOffset) := by rw [ReadCall.length, hstart]
    have htail := ih hreading (fun b hb => hgoOn b (by simp [hb])) (hrest _ rfl)
    rw [placesRead, hexact.places, htail, hnext]
    change _ ++ fs.content (c.start fs + c.length fs) _ = _
    rw [content_append, hstart, hlength, List.map_cons, List.sum_cons]
    congr 1
    simp only
    omega

/-- The reads of an open file are exact, and those that go on give its bytes from the start. -/
structure ReadsExactly (img : SdbImage) (fs : Sdbfs) (calls : List ReadCall) : Prop where
  each : ∀ pre c t u, pre ++ [c] <+: calls → run img.readStep fs pre = some t → img.readStep t c = some u →
    img.ReadExact t c
  goOn : ∀ pre, pre <+: calls → (∀ c ∈ pre, c.offset < 0) →
    img.placesRead fs pre = fs.content 0 (min (pre.map ReadCall.count).sum fs.fLen)

theorem openRecord_reading (img : SdbImage) (fs : Sdbfs) (d : ℤ) :
    Reading (img.openRecord fs d) (img.openRecord fs d) ∧ (img.openRecord fs d).fOffset < 2 ^ 64 := by
  have hopened := openRecord_opened img fs d
  have haddress : (img.record d).addrFirst < 2 ^ 64 := by
    have h := BigEndian.decode_lt (((img.record d).bytes.drop 8).take 8)
    rwa [length_part img d (by decide)] at h
  refine ⟨⟨rfl, rfl, ?_, ?_⟩, ?_⟩
  · rw [hopened.fLen]
    exact Nat.mod_lt _ (by decide)
  · rw [hopened.readOffset]
    decide
  · rw [hopened.fOffset]
    exact haddress

theorem run_readStep (img : SdbImage) (fs : Sdbfs) (calls : List ReadCall) :
    ∃ t, run img.readStep fs calls = some t := by
  induction calls generalizing fs with
  | nil => exact ⟨fs, rfl⟩
  | cons c calls ih => exact ih (img.readCall fs c).fs

/-- All reads of a file are exact where each of them is in range when it is made. -/
theorem readsExactly_iff (img : SdbImage) (fs : Sdbfs) (d : ℤ) (calls : List ReadCall) :
    img.ReadsExactly (img.openRecord fs d) calls ↔ Obeys img.readStep img.InRange (img.openRecord fs d) calls := by
  obtain ⟨hopen, hplace⟩ := openRecord_reading img fs d
  have hsteps := @steps_iff_obeys _ _ img.readStep img.InRange (Reading (img.openRecord fs d))
    (fun t c _ => img.ReadExact t c)
    (fun {t c u} hI hu => by
      have hplace' : t.fOffset < 2 ^ 64 := hI.fOffset ▸ hplace
      have hiff := readExact_iff img hI.fLen_lt hplace' hI.readOffset c
      cases hu
      exact ⟨hiff, fun hexact => ((hiff.mp hexact).next hplace' hI).2⟩)
    (fun hnone => by cases hnone) _ hopen calls
  constructor
  · intro h
    exact hsteps.mp h.each
  · intro hobeys
    refine ⟨hsteps.mpr hobeys, fun pre hpre hgoOn => ?_⟩
    obtain ⟨post, rfl⟩ := hpre
    obtain ⟨t, ht⟩ := run_readStep img (img.openRecord fs d) pre
    have hzero : (img.openRecord fs d).readOffset = 0 := (openRecord_opened img fs d).readOffset
    have hcontent := placesRead_content hplace hopen hgoOn (hobeys.append ht).1
    rwa [hzero, Nat.sub_zero] at hcontent

/-- One byte behind the end of a file. -/
def behindEnd : ReadCall := ⟨0x100, 1, by decide, by decide⟩

/-- The file has 128 bytes, and the copy has 128 bytes less than all there are. -/
theorem behindEnd_copies : (oneFile.readCall (oneFile.openRecord ⟨none, 0, 0, 0, 0⟩ 64) behindEnd).ret = -128 ∧
    (oneFile.readCall (oneFile.openRecord ⟨none, 0, 0, 0, 0⟩ 64) behindEnd).fetch.size = 2 ^ 64 - 128 ∧
    ¬ oneFile.ReadsExactly (oneFile.openRecord ⟨none, 0, 0, 0, 0⟩ 64) [behindEnd] := by
  have hret : (oneFile.readCall (oneFile.openRecord ⟨none, 0, 0, 0, 0⟩ 64) behindEnd).ret = -128 := by
    decide +kernel
  have hsize : (oneFile.readCall (oneFile.openRecord ⟨none, 0, 0, 0, 0⟩ 64) behindEnd).fetch.size = 2 ^ 64 - 128 := by
    decide +kernel
  refine ⟨hret, hsize, fun h => ?_⟩
  have hexact := (h.each [] behindEnd _ _ (List.prefix_refl _) rfl rfl).ret
  rw [hret] at hexact
  omega

end SdbImage

end WhiteRabbit.Fmc
