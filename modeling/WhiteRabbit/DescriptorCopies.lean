import WhiteRabbit.MemoryWords
import WhiteRabbit.NicTransmitRing

/-!
# Copies to and from the memory of a descriptor

Each descriptor of the network interface has 2 kB of memory. Frames are copied there and back in whole
words, two bytes behind the start of a word, so that a copy takes a few bytes around the frame along.
-/

namespace WhiteRabbit.Nic

open MemoryWords

def wrnDdataOffset : ℕ := 2
def wrnNrTxdesc : ℕ := wrnNrDesc

/-- `enum wrn_ddir`. -/
inductive WrnDdir where
  | rx
  | tx
  deriving DecidableEq

/-- `__wrn_desc_offset`. -/
def wrnDescOffset (dir : WrnDdir) (nr : ℕ) : ℕ :=
  let nr := if dir = .rx then nr + wrnNrTxdesc else nr
  0x800 * nr

/-- `__wrn_desc_mem`. -/
def wrnDescMem (databuf : ℕ) (dir : WrnDdir) (nr : ℕ) : ℕ := databuf + wrnDescOffset dir nr

/-- A word of four bytes, least significant byte first. -/
def getLe32 (m : Memory) (a : ℕ) : ℕ := Endian.little.value (window m a 4)

def putLe32 (m : Memory) (a value : ℕ) : Memory := store m a (Endian.little.bytes 4 value)

/-- The pointers to and from in the rounds of a copy loop. -/
def copyRounds (dst src size : ℕ) : List (ℕ × ℕ) :=
  if 0 < size then (dst, src) :: copyRounds (dst + 4) (src + 4) (size - 4) else []
termination_by size

/-- The rounds of `__wrn_copy_out`. -/
def copyOutRounds (dst src size : ℕ) : List (ℕ × ℕ) :=
  copyRounds dst (src - wrnDdataOffset) (size + wrnDdataOffset)

/-- The rounds of `__wrn_copy_in`. -/
def copyInRounds (dst src size : ℕ) : List (ℕ × ℕ) :=
  copyRounds (dst - wrnDdataOffset) src (size + wrnDdataOffset)

/-- A loop that reads a word and writes it in each round. -/
def copyWords (target source : Memory) (rounds : List (ℕ × ℕ)) : Memory :=
  rounds.foldl (fun target r => putLe32 target r.1 (getLe32 source r.2)) target

/-- `__wrn_copy_out`, from the host memory into that of the device. -/
def wrnCopyOut (io host : Memory) (dst src size : ℕ) : Memory := copyWords io host (copyOutRounds dst src size)

/-- `__wrn_copy_in`, from the memory of the device into that of the host. -/
def wrnCopyIn (host io : Memory) (dst src size : ℕ) : Memory := copyWords host io (copyInRounds dst src size)

/-- The pointers of a `sk_buff`. -/
structure SkBuff where
  head : ℕ
  data : ℕ
  tail : ℕ
  fin : ℕ

namespace SkBuff

/-- The kernel leaves some room of its own before the data. -/
def netdevAllocSkb (head headroom size : ℕ) : SkBuff :=
  ⟨head, head + headroom, head + headroom, head + headroom + size⟩

def skbReserve (skb : SkBuff) (len : ℕ) : SkBuff := { skb with data := skb.data + len, tail := skb.tail + len }

/-- The place for new data is what `skb_put` returns. -/
def skbPut (skb : SkBuff) (len : ℕ) : ℕ × SkBuff := (skb.tail, { skb with tail := skb.tail + len })

end SkBuff

/-- Where `__wrn_rx_descriptor` copies a frame to. -/
def rxSkb (head headroom len : ℕ) : ℕ × SkBuff :=
  ((SkBuff.netdevAllocSkb head headroom (len + 16)).skbReserve 2).skbPut len

section Loop

variable {dst src size : ℕ}

/-- A loop takes as many words as hold its bytes. -/
theorem copyRounds_eq (dst src size : ℕ) : copyRounds dst src size =
    (List.range ((size + 3) / 4)).map fun k => (dst + 4 * k, src + 4 * k) := by
  induction dst, src, size using copyRounds.induct with
  | case1 dst src size hpos ih =>
    have hrounds : (size + 3) / 4 = (size - 4 + 3) / 4 + 1 := by omega
    rw [copyRounds, if_pos hpos, ih, hrounds, List.range_succ_eq_map, List.map_cons, List.map_map]
    congr 1
    apply List.map_congr_left
    intro k _
    simp only [Function.comp_apply, Nat.succ_eq_add_one]
    rw [show dst + 4 + 4 * k = dst + 4 * (k + 1) by omega, show src + 4 + 4 * k = src + 4 * (k + 1) by omega]
  | case2 dst src size hzero =>
    have hrounds : (size + 3) / 4 = 0 := by omega
    rw [copyRounds, if_neg hzero, hrounds]
    rfl

theorem putLe32_getLe32 (target source : Memory) (a b : ℕ) :
    putLe32 target a (getLe32 source b) = store target a (window source b 4) := by
  have hbytes := Endian.little.bytes_value (window source b 4)
  rw [length_window] at hbytes
  rw [putLe32, getLe32, hbytes]

theorem copyWords_append (target source : Memory) (rounds rounds' : List (ℕ × ℕ)) :
    copyWords target source (rounds ++ rounds') = copyWords (copyWords target source rounds) source rounds' :=
  List.foldl_append

/-- The words of a loop are one piece of memory. -/
theorem copyWords_range (target source : Memory) (dst src n : ℕ) :
    copyWords target source ((List.range n).map fun k => (dst + 4 * k, src + 4 * k)) =
      store target dst (window source src (4 * n)) := by
  induction n with
  | zero => exact (store_nil target dst).symm
  | succ n ih =>
    have hlast : ∀ (m : Memory) (r : ℕ × ℕ), copyWords m source [r] = putLe32 m r.1 (getLe32 source r.2) :=
      fun _ _ => rfl
    rw [List.range_succ, List.map_append, copyWords_append, ih, List.map_singleton, hlast, putLe32_getLe32,
      Nat.mul_succ, window_add, store_append, length_window]

/-- The bytes that a copy of a frame moves, the offset and the rest of the last word included. -/
def copySpan (size : ℕ) : ℕ := 4 * ((size + wrnDdataOffset + 3) / 4)

theorem copySpan_bounds (size : ℕ) : size + 2 ≤ copySpan size ∧ copySpan size < size + 2 + 4 := by
  rw [copySpan, wrnDdataOffset]
  omega

theorem wrnCopyOut_eq (io host : Memory) (dst src size : ℕ) : wrnCopyOut io host dst src size =
    store io dst (window host (src - wrnDdataOffset) (copySpan size)) := by
  rw [wrnCopyOut, copyOutRounds, copyRounds_eq, copyWords_range, copySpan]

theorem wrnCopyIn_eq (host io : Memory) (dst src size : ℕ) : wrnCopyIn host io dst src size =
    store host (dst - wrnDdataOffset) (window io src (copySpan size)) := by
  rw [wrnCopyIn, copyInRounds, copyRounds_eq, copyWords_range, copySpan]

/-- Memories that agree on some bytes agree on each part of them. -/
theorem window_part {m m' : Memory} {a b before n after : ℕ}
    (h : window m a (before + n + after) = window m' b (before + n + after)) :
    window m (a + before) n = window m' (b + before) n := by
  rw [window_add, window_add, window_add m', window_add m'] at h
  have hfirst := (List.append_inj h (by simp)).1
  exact (List.append_inj hfirst (by simp)).2

/-- What was copied out is copied in again. -/
theorem copy_back (io host host' : Memory) {area data dest : ℕ} (hdata : wrnDdataOffset ≤ data)
    (hdest : wrnDdataOffset ≤ dest) (len : ℕ) :
    window (wrnCopyIn host' (wrnCopyOut io host area data len) dest area len) dest len = window host data len := by
  obtain ⟨rest, hspan⟩ := Nat.exists_eq_add_of_le (copySpan_bounds len).1
  have hspan : copySpan len = wrnDdataOffset + len + rest := by rw [hspan, wrnDdataOffset, Nat.add_comm len]
  have hout := window_store io area (window host (data - wrnDdataOffset) (copySpan len))
  have hin := window_store host' (dest - wrnDdataOffset)
    (window (wrnCopyOut io host area data len) area (copySpan len))
  rw [length_window] at hout hin
  rw [← wrnCopyIn_eq, wrnCopyOut_eq, hout, hspan] at hin
  have hpart := window_part hin
  rw [Nat.sub_add_cancel hdest, Nat.sub_add_cancel hdata] at hpart
  rw [wrnCopyOut_eq, hspan]
  exact hpart

end Loop

/-- The words of a copy lie within the bytes that it moves, and are aligned where it starts aligned. -/
theorem rounds_within (dst src size : ℕ) : ∀ r ∈ copyRounds dst src (size + wrnDdataOffset),
    (dst ≤ r.1 ∧ r.1 + 4 ≤ dst + copySpan size ∧ 4 ∣ r.1 - dst) ∧
      src ≤ r.2 ∧ r.2 + 4 ≤ src + copySpan size := by
  rw [copyRounds_eq]
  intro r hr
  obtain ⟨k, hk, rfl⟩ := List.mem_map.mp hr
  have hlt := List.mem_range.mp hk
  dsimp only
  rw [copySpan]
  refine ⟨⟨by omega, by omega, ?_⟩, by omega, by omega⟩
  rw [Nat.add_sub_cancel_left]
  exact Nat.dvd_mul_right 4 k

/-- The areas of the descriptors lie one behind the other. -/
theorem descOffset_disjoint {dir dir' : WrnDdir} {nr nr' : ℕ} (hnr : nr < wrnNrDesc) (hnr' : nr' < wrnNrDesc)
    (hne : (dir, nr) ≠ (dir', nr')) : wrnDescOffset dir nr + 0x800 ≤ wrnDescOffset dir' nr' ∨
      wrnDescOffset dir' nr' + 0x800 ≤ wrnDescOffset dir nr := by
  rw [wrnNrDesc] at hnr hnr'
  rw [wrnDescOffset, wrnDescOffset, wrnNrTxdesc, wrnNrDesc]
  cases dir <;> cases dir' <;> simp at hne ⊢ <;> omega

/-- A copy of a frame of some length through the memory of one descriptor. -/
structure CopiesFrame (databuf : ℕ) (dir : WrnDdir) (nr len : ℕ) : Prop where
  back : ∀ io host host' data dest, wrnDdataOffset ≤ data → wrnDdataOffset ≤ dest →
    window (wrnCopyIn host' (wrnCopyOut io host (wrnDescMem databuf dir nr) data len) dest
      (wrnDescMem databuf dir nr) len) dest len = window host data len
  outArea : ∀ data, ∀ r ∈ copyOutRounds (wrnDescMem databuf dir nr) data len,
    wrnDescMem databuf dir nr ≤ r.1 ∧ r.1 + 4 ≤ wrnDescMem databuf dir nr + 0x800 ∧
      4 ∣ r.1 - wrnDescMem databuf dir nr
  outReads : ∀ data, wrnDdataOffset ≤ data → ∀ r ∈ copyOutRounds (wrnDescMem databuf dir nr) data len,
    data ≤ r.2 + wrnDdataOffset ∧ r.2 + 4 < data + len + 4
  inArea : ∀ dest, ∀ r ∈ copyInRounds dest (wrnDescMem databuf dir nr) len,
    wrnDescMem databuf dir nr ≤ r.2 ∧ r.2 + 4 ≤ wrnDescMem databuf dir nr + 0x800
  inWrites : ∀ dest, wrnDdataOffset ≤ dest → ∀ r ∈ copyInRounds dest (wrnDescMem databuf dir nr) len,
    dest ≤ r.1 + wrnDdataOffset ∧ r.1 + 4 < dest + len + 4
  room : ∀ head headroom, ∀ r ∈ copyInRounds (rxSkb head headroom len).1 (wrnDescMem databuf dir nr) len,
    (rxSkb head headroom len).2.head + headroom ≤ r.1 ∧ r.1 + 4 ≤ (rxSkb head headroom len).2.fin
  apart : ∀ dir' nr', nr' < wrnNrDesc → (dir, nr) ≠ (dir', nr') →
    wrnDescMem databuf dir nr + 0x800 ≤ wrnDescMem databuf dir' nr' ∨
      wrnDescMem databuf dir' nr' + 0x800 ≤ wrnDescMem databuf dir nr

theorem copies_frame (databuf : ℕ) (dir : WrnDdir) {nr len : ℕ} (hnr : nr < wrnNrDesc) (hlen : len ≤ wrnMtu) :
    CopiesFrame databuf dir nr len := by
  obtain ⟨hspan, hspan'⟩ := copySpan_bounds len
  have harea : copySpan len ≤ 0x800 := by
    rw [wrnMtu] at hlen
    omega
  refine ⟨fun io host host' data dest hdata hdest => copy_back io host host' hdata hdest len, ?_, ?_, ?_, ?_, ?_, ?_⟩
  · intro data r hr
    obtain ⟨⟨hlo, hhi, haligned⟩, -⟩ := rounds_within _ _ _ r hr
    exact ⟨hlo, hhi.trans (Nat.add_le_add_left harea _), haligned⟩
  · intro data hdata r hr
    obtain ⟨-, hlo, hhi⟩ := rounds_within _ _ _ r hr
    rw [wrnDdataOffset] at *
    omega
  · intro dest r hr
    obtain ⟨-, hlo, hhi⟩ := rounds_within _ _ _ r hr
    exact ⟨hlo, hhi.trans (Nat.add_le_add_left harea _)⟩
  · intro dest hdest r hr
    obtain ⟨⟨hlo, hhi, -⟩, -⟩ := rounds_within _ _ _ r hr
    rw [wrnDdataOffset] at *
    omega
  · intro head headroom r hr
    obtain ⟨⟨hlo, hhi, -⟩, -⟩ := rounds_within _ _ _ r hr
    simp only [rxSkb, SkBuff.netdevAllocSkb, SkBuff.skbReserve, SkBuff.skbPut, wrnDdataOffset] at *
    omega
  · intro dir' nr' hnr' hne
    have hdisjoint := descOffset_disjoint hnr hnr' hne
    rw [wrnDescMem, wrnDescMem]
    omega

/-- The longest frame through the last area. -/
theorem copies_frame_last : CopiesFrame 0x8000 .rx 7 1540 :=
  copies_frame 0x8000 .rx (by decide) (by decide)

end WhiteRabbit.Nic
