import Mathlib.Algebra.Order.BigOperators.Group.List
import Mathlib.Data.Nat.Bitwise
import Mathlib.Tactic.Ring
import WhiteRabbit.OnesComplement

/-!
# Checksums of UDP and IP headers

A packet of the embedded processor gets its UDP and IP headers in front of the payload, each
with a checksum over what it covers.
-/

namespace WhiteRabbit.Etherbone.Lm32
open OnesComplement

def ipProto : ℕ := 9
def ipChksum : ℕ := 10
def ipSpa : ℕ := 12
def ipDpa : ℕ := 16
def udpSpp : ℕ := 20
def udpDpp : ℕ := 22
def udpLen : ℕ := 24
def udpChksum : ℕ := 26
def ipHdrLen : ℕ := 20
def udpHdrLen : ℕ := 8

structure Ipv4 where
  b0 : UInt8
  b1 : UInt8
  b2 : UInt8
  b3 : UInt8

def Ipv4.bytes (ip : Ipv4) : List UInt8 := [ip.b0, ip.b1, ip.b2, ip.b3]

/-- The two bytes of a port, as they lie in memory. -/
structure Port where
  b0 : UInt8
  b1 : UInt8

def Port.bytes (p : Port) : List UInt8 := [p.b0, p.b1]

/-- Add the carries, again in case this add had a carry, invert and truncate to 16 bit. -/
def foldCarries (sum : ℕ) : ℕ :=
  let sum := ((sum >>> 16) + (sum &&& 0xffff)) % 2 ^ 32
  let sum := (sum + (sum >>> 16)) % 2 ^ 32
  (2 ^ 32 - 1 - sum) &&& 0xffff

def myIpChecksum (buf : List UInt8) (shorts : ℕ) : ℕ :=
  foldCarries ((List.range shorts).foldl
    (fun sum i => (sum + ((buf.getD (2 * i) 0).toNat <<< 8 ||| (buf.getD (2 * i + 1) 0).toNat)) % 2 ^ 32) 0)

/-- A word of the header. -/
def hdrWord (hdrbuf : List UInt8) (at' : ℕ) : ℕ :=
  ((hdrbuf.getD (at' + 0) 0).toNat <<< 8 &&& 0xFF00) ||| ((hdrbuf.getD (at' + 1) 0).toNat &&& 0x00FF)

def udpPseudosum (hdrbuf : List UInt8) : ℕ :=
  hdrWord hdrbuf ipSpa + hdrWord hdrbuf (ipSpa + 2) + hdrWord hdrbuf ipDpa + hdrWord hdrbuf (ipDpa + 2) +
    ((hdrbuf.getD ipProto 0).toNat &&& 0x00FF) + hdrWord hdrbuf udpSpp + hdrWord hdrbuf udpDpp +
    hdrWord hdrbuf udpLen + hdrWord hdrbuf udpChksum

/-- The sum over the data, which is read in pairs of bytes. An odd length adds the byte behind the one that
follows the last pair. -/
def udpDataSum (databuf : ℕ → UInt8) (len : ℕ) : ℕ :=
  let rounds := (len + 1) / 2
  let sum := (List.range rounds).foldl
    (fun sum i =>
      (sum + (((databuf (2 * i + 0)).toNat <<< 8 &&& 0xFF00) ||| ((databuf (2 * i + 1)).toNat &&& 0x00FF))) % 2 ^ 32) 0
  if len &&& 0x01 ≠ 0 then (sum + (databuf (2 * rounds + 1)).toNat <<< 8) % 2 ^ 32 else sum

def udpChecksum (hdrbuf : List UInt8) (databuf : ℕ → UInt8) (len : ℕ) : ℕ :=
  foldCarries ((udpDataSum databuf len + (udpPseudosum hdrbuf + len + 8)) % 2 ^ 32)

/-- The IP header before its checksum is known. -/
def ipHdr (iptol : ℕ) (spa dpa : Ipv4) : List UInt8 :=
  [0x45, 0x00, UInt8.ofNat (iptol >>> 8), UInt8.ofNat (iptol &&& 0xff), 0x00, 0x00, 0x00, 0x00, 0x10, 0x11,
    0x00, 0x00] ++ spa.bytes ++ dpa.bytes

def setChksum (hdr : List UInt8) (at' sum : ℕ) : List UInt8 :=
  (hdr.set (at' + 0) (UInt8.ofNat (sum >>> 8))).set (at' + 1) (UInt8.ofNat sum)

def createUdpIpHdr (spa dpa : Ipv4) (myPort port : Port) (databuf : ℕ → UInt8) (len : ℕ) : List UInt8 :=
  let iptol := (len + ipHdrLen + udpHdrLen) % 2 ^ 16
  let udplen := (len + udpHdrLen) % 2 ^ 16
  let ip := setChksum (ipHdr iptol spa dpa) ipChksum (myIpChecksum (ipHdr iptol spa dpa) 10)
  let hdr := ip ++ myPort.bytes ++ port.bytes ++ [UInt8.ofNat (udplen >>> 8), UInt8.ofNat udplen, 0x00, 0x00]
  setChksum hdr udpChksum (udpChecksum hdr databuf len)

theorem foldCarries_eq {s : ℕ} (hpos : 0 < s) (hlt : s < 2 ^ 32) :
    foldCarries s = (65535 - s % 65535) % 65535 := by
  have hmask : ∀ x : ℕ, x &&& 0xffff = x % 2 ^ 16 := fun x => Nat.and_two_pow_sub_one_eq_mod x 16
  obtain ⟨t, ht, hmod, htpos, htle⟩ : ∃ t, s / 2 ^ 16 + s % 2 ^ 16 = t ∧ s % 65535 = t % 65535 ∧
    0 < t ∧ t ≤ 131070 :=
    ⟨_, rfl, by omega, by omega, by omega⟩
  simp only [foldCarries, hmask, Nat.shiftRight_eq_div_pow, ht, hmod]
  rw [Nat.mod_eq_of_lt (show t < 2 ^ 32 by omega), Nat.mod_eq_of_lt (show t + t / 2 ^ 16 < 2 ^ 32 by omega)]
  rcases Nat.lt_or_ge t (2 ^ 16) with hcarry | hcarry
  · rw [Nat.div_eq_of_lt hcarry]
    omega
  · have hone : t / 2 ^ 16 = 1 := by omega
    rw [hone]
    omega

/-- A sum with its checksum is all ones. -/
theorem dvd_add_foldCarries {s : ℕ} (hpos : 0 < s) (hlt : s < 2 ^ 32) : 65535 ∣ s + foldCarries s := by
  rw [foldCarries_eq hpos hlt]
  omega

theorem foldCarries_eq_zero_iff {s : ℕ} (hpos : 0 < s) (hlt : s < 2 ^ 32) : foldCarries s = 0 ↔ 65535 ∣ s := by
  rw [foldCarries_eq hpos hlt]
  omega

theorem foldCarries_lt {s : ℕ} (hpos : 0 < s) (hlt : s < 2 ^ 32) : foldCarries s < 2 ^ 16 := by
  rw [foldCarries_eq hpos hlt]
  omega

/-- Sums in 32 bits. -/
theorem foldl_add_mod (f : ℕ → ℕ) (l : List ℕ) (x : ℕ) :
    l.foldl (fun sum i => (sum + f i) % 2 ^ 32) (x % 2 ^ 32) = (x + (l.map f).sum) % 2 ^ 32 := by
  induction l generalizing x with
  | nil => rfl
  | cons i l ih =>
    have hstep : (x % 2 ^ 32 + f i) % 2 ^ 32 = (x + f i) % 2 ^ 32 := by omega
    rw [List.foldl_cons, hstep, ih, List.map_cons, List.sum_cons, Nat.add_assoc]

theorem shift_or (a b : UInt8) : a.toNat <<< 8 ||| b.toNat = a.toNat * 256 + b.toNat := by
  rw [← Nat.shiftLeft_add_eq_or_of_lt b.toNat_lt, Nat.shiftLeft_eq]

theorem masked_shift_or (a b : UInt8) :
    (a.toNat <<< 8 &&& 0xFF00) ||| (b.toNat &&& 0x00FF) = a.toNat * 256 + b.toNat := by
  have hmask : ∀ x : UInt8, x.toNat &&& 0x00FF = x.toNat := fun x => by
    rw [show (0x00FF : ℕ) = 2 ^ 8 - 1 from rfl, Nat.and_two_pow_sub_one_eq_mod, Nat.mod_eq_of_lt x.toNat_lt]
  rw [show (0xFF00 : ℕ) = 0x00FF <<< 8 from rfl, ← Nat.shiftLeft_and_distrib, hmask, hmask, shift_or]

/-- The memory at the data holds a payload. -/
def Holds (databuf : ℕ → UInt8) (payload : List UInt8) : Prop := ∀ i < payload.length, databuf i = payload.getD i 0

theorem udpDataSum_even {databuf : ℕ → UInt8} {payload : List UInt8} (hdata : Holds databuf payload)
    (heven : payload.length % 2 = 0) (hlen : payload.length ≤ 65507) :
    udpDataSum databuf payload.length = (words payload).sum := by
  have hodd : ¬ payload.length &&& 0x01 ≠ 0 := by
    rw [show (0x01 : ℕ) = 2 ^ 1 - 1 from rfl, Nat.and_two_pow_sub_one_eq_mod]
    omega
  have hrounds : (payload.length + 1) / 2 = payload.length / 2 := by omega
  have hle := sum_words_le payload
  have hmap : ((List.range (payload.length / 2)).map fun i =>
      (databuf (2 * i + 0)).toNat * 256 + (databuf (2 * i + 1)).toNat) =
      (List.range (payload.length / 2)).map fun i =>
        (payload.getD (2 * i) 0).toNat * 256 + (payload.getD (2 * i + 1) 0).toNat := by
    apply List.map_congr_left
    intro i hi
    have hi := List.mem_range.mp hi
    rw [Nat.add_zero, hdata (2 * i) (by omega), hdata (2 * i + 1) (by omega)]
  have hfold := foldl_add_mod
    (fun i => (databuf (2 * i + 0)).toNat * 256 + (databuf (2 * i + 1)).toNat) (List.range (payload.length / 2)) 0
  rw [Nat.zero_mod, Nat.zero_add, hmap, sum_words_even payload heven] at hfold
  simp only [udpDataSum, if_neg hodd, hrounds, masked_shift_or]
  rw [hfold, Nat.mod_eq_of_lt (by omega)]

theorem udpDataSum_odd {databuf : ℕ → UInt8} {len : ℕ} (hodd : len % 2 = 1) :
    udpDataSum databuf len = (((List.range (len / 2)).map fun i =>
      (databuf (2 * i + 0)).toNat * 256 + (databuf (2 * i + 1)).toNat).sum +
        (databuf (len - 1)).toNat * 256 + (databuf len).toNat + (databuf (len + 2)).toNat * 256) % 2 ^ 32 := by
  have hbit : len &&& 0x01 ≠ 0 := by
    rw [show (0x01 : ℕ) = 2 ^ 1 - 1 from rfl, Nat.and_two_pow_sub_one_eq_mod]
    omega
  have hrounds : (len + 1) / 2 = len / 2 + 1 := by omega
  have hfold := foldl_add_mod
    (fun i => (databuf (2 * i + 0)).toNat * 256 + (databuf (2 * i + 1)).toNat) (List.range (len / 2 + 1)) 0
  rw [Nat.zero_mod, Nat.zero_add, List.range_succ, List.map_append, List.sum_append, List.map_singleton,
    List.sum_singleton, show 2 * (len / 2) + 0 = len - 1 by omega, show 2 * (len / 2) + 1 = len by omega] at hfold
  simp only [udpDataSum, if_pos hbit, hrounds, masked_shift_or, List.range_succ]
  rw [hfold, Nat.shiftLeft_eq, show 2 * (len / 2 + 1) + 1 = len + 2 by omega]
  omega

/-- The bytes of the headers, with their checksums. -/
def udpIpHdr (iptol udplen ipSum sum : ℕ) (spa dpa : Ipv4) (myPort port : Port) : List UInt8 :=
  [0x45, 0x00, UInt8.ofNat (iptol >>> 8), UInt8.ofNat (iptol &&& 0xff), 0x00, 0x00, 0x00, 0x00, 0x10, 0x11,
    UInt8.ofNat (ipSum >>> 8), UInt8.ofNat ipSum, spa.b0, spa.b1, spa.b2, spa.b3, dpa.b0, dpa.b1, dpa.b2, dpa.b3,
    myPort.b0, myPort.b1, port.b0, port.b1, UInt8.ofNat (udplen >>> 8), UInt8.ofNat udplen,
    UInt8.ofNat (sum >>> 8), UInt8.ofNat sum]

variable (spa dpa : Ipv4) (myPort port : Port)

theorem createUdpIpHdr_eq (databuf : ℕ → UInt8) {len : ℕ} (hlen : len ≤ 65507) :
    createUdpIpHdr spa dpa myPort port databuf len =
      udpIpHdr (len + 28) (len + 8) (myIpChecksum (ipHdr (len + 28) spa dpa) 10)
        (udpChecksum (udpIpHdr (len + 28) (len + 8) (myIpChecksum (ipHdr (len + 28) spa dpa) 10) 0 spa dpa myPort port)
          databuf len) spa dpa myPort port := by
  have htol : (len + ipHdrLen + udpHdrLen) % 2 ^ 16 = len + 28 := by
    rw [ipHdrLen, udpHdrLen]
    omega
  have hudp : (len + udpHdrLen) % 2 ^ 16 = len + 8 := by
    rw [udpHdrLen]
    omega
  rw [createUdpIpHdr, htol, hudp]
  rfl

/-- The sum over an IP header without its checksum. -/
def ipHdrSum (len : ℕ) : ℕ := 0x4500 + (len + 28) + 0x1011 + (words (spa.bytes ++ dpa.bytes)).sum

theorem length_word {x : ℕ} (hx : x < 2 ^ 16) :
    (UInt8.ofNat (x >>> 8)).toNat * 256 + (UInt8.ofNat (x &&& 0xff)).toNat = x := by
  have hlow : UInt8.ofNat (x &&& 0xff) = UInt8.ofNat x := by
    apply UInt8.toNat_inj.mp
    rw [UInt8.toNat_ofNat', UInt8.toNat_ofNat', show (0xff : ℕ) = 2 ^ 8 - 1 from rfl,
      Nat.and_two_pow_sub_one_eq_mod, Nat.mod_mod]
  rw [hlow, word_of_bytes hx]

/-- The sum over an IP header with any length and checksum. -/
theorem sum_words_ip (t0 t1 c0 c1 : UInt8) :
    (words [0x45, 0x00, t0, t1, 0x00, 0x00, 0x00, 0x00, 0x10, 0x11, c0, c1, spa.b0, spa.b1, spa.b2, spa.b3,
      dpa.b0, dpa.b1, dpa.b2, dpa.b3]).sum =
      0x4500 + (t0.toNat * 256 + t1.toNat) + 0x1011 + (c0.toNat * 256 + c1.toNat) +
        (words (spa.bytes ++ dpa.bytes)).sum := by
  simp only [Ipv4.bytes, List.cons_append, List.nil_append, words, List.sum_cons, List.sum_nil, UInt8.toNat_ofNat]
  omega

theorem myIpChecksum_eq {len : ℕ} (hlen : len ≤ 65507) :
    myIpChecksum (ipHdr (len + 28) spa dpa) 10 = foldCarries (ipHdrSum spa dpa len) := by
  have hword := length_word (show len + 28 < 2 ^ 16 by omega)
  have hle := sum_words_le (spa.bytes ++ dpa.bytes)
  have hfold := foldl_add_mod (fun i => ((ipHdr (len + 28) spa dpa).getD (2 * i) 0).toNat * 256 +
    ((ipHdr (len + 28) spa dpa).getD (2 * i + 1) 0).toNat) (List.range 10) 0
  have hlength : (ipHdr (len + 28) spa dpa).length = 20 := rfl
  have heven := sum_words_even (ipHdr (len + 28) spa dpa) (by rw [hlength])
  rw [hlength] at heven
  have hsum : (words (ipHdr (len + 28) spa dpa)).sum = ipHdrSum spa dpa len := by
    have hzero : (0x00 : UInt8).toNat = 0 := rfl
    have hip := sum_words_ip spa dpa (UInt8.ofNat ((len + 28) >>> 8)) (UInt8.ofNat (len + 28 &&& 0xff)) 0 0
    rw [hword, hzero] at hip
    exact hip
  have hlt : ipHdrSum spa dpa len < 2 ^ 32 := by
    have hfour : (spa.bytes ++ dpa.bytes).length = 8 := rfl
    rw [hfour] at hle
    rw [ipHdrSum]
    omega
  rw [Nat.zero_mod, Nat.zero_add, heven, hsum, Nat.mod_eq_of_lt hlt] at hfold
  simp only [myIpChecksum, shift_or]
  rw [hfold]

/-- The sum over the pseudo header, the UDP header without its checksum and the payload. -/
def udpSum (payload : List UInt8) : ℕ :=
  (words (spa.bytes ++ dpa.bytes ++ myPort.bytes ++ port.bytes)).sum + 0x11 + 2 * (payload.length + 8) +
    (words payload).sum

theorem udpPseudosum_eq (iptol ipSum : ℕ) {len : ℕ} (hlen : len ≤ 65507) :
    udpPseudosum (udpIpHdr iptol (len + 8) ipSum 0 spa dpa myPort port) =
      (words (spa.bytes ++ dpa.bytes ++ myPort.bytes ++ port.bytes)).sum + 0x11 + (len + 8) := by
  obtain ⟨hdr, hhdr⟩ : ∃ hdr, udpIpHdr iptol (len + 8) ipSum 0 spa dpa myPort port = hdr := ⟨_, rfl⟩
  have hword := word_of_bytes (show len + 8 < 2 ^ 16 by omega)
  have hspa : hdrWord hdr ipSpa = spa.b0.toNat * 256 + spa.b1.toNat := hhdr ▸ masked_shift_or _ _
  have hspa' : hdrWord hdr (ipSpa + 2) = spa.b2.toNat * 256 + spa.b3.toNat := hhdr ▸ masked_shift_or _ _
  have hdpa : hdrWord hdr ipDpa = dpa.b0.toNat * 256 + dpa.b1.toNat := hhdr ▸ masked_shift_or _ _
  have hdpa' : hdrWord hdr (ipDpa + 2) = dpa.b2.toNat * 256 + dpa.b3.toNat := hhdr ▸ masked_shift_or _ _
  have hproto : (hdr.getD ipProto 0).toNat &&& 0x00FF = 0x11 := by
    rw [← hhdr]
    exact show (0x11 : UInt8).toNat &&& 0x00FF = 0x11 by decide
  have hspp : hdrWord hdr udpSpp = myPort.b0.toNat * 256 + myPort.b1.toNat := hhdr ▸ masked_shift_or _ _
  have hdpp : hdrWord hdr udpDpp = port.b0.toNat * 256 + port.b1.toNat := hhdr ▸ masked_shift_or _ _
  have hlength : hdrWord hdr udpLen = len + 8 := by
    rw [← hhdr]
    exact (masked_shift_or (UInt8.ofNat ((len + 8) >>> 8)) (UInt8.ofNat (len + 8))).trans hword
  have hchksum : hdrWord hdr udpChksum = 0 := by
    rw [← hhdr]
    exact masked_shift_or (UInt8.ofNat (0 >>> 8)) (UInt8.ofNat 0)
  rw [hhdr, udpPseudosum, hspa, hspa', hdpa, hdpa', hproto, hspp, hdpp, hlength, hchksum]
  simp only [Ipv4.bytes, Port.bytes, List.cons_append, List.nil_append, words, List.sum_cons, List.sum_nil]
  ring

theorem udpChecksum_even {databuf : ℕ → UInt8} {payload : List UInt8} (hdata : Holds databuf payload)
    (heven : payload.length % 2 = 0) (hlen : payload.length ≤ 65507) (iptol ipSum : ℕ) :
    udpChecksum (udpIpHdr iptol (payload.length + 8) ipSum 0 spa dpa myPort port) databuf payload.length =
      foldCarries (udpSum spa dpa myPort port payload) ∧
    0 < udpSum spa dpa myPort port payload ∧ udpSum spa dpa myPort port payload < 2 ^ 32 := by
  have hle := sum_words_le payload
  have hle' := sum_words_le (spa.bytes ++ dpa.bytes ++ myPort.bytes ++ port.bytes)
  have hfour : (spa.bytes ++ dpa.bytes ++ myPort.bytes ++ port.bytes).length = 12 := rfl
  rw [hfour] at hle'
  have hlt : udpSum spa dpa myPort port payload < 2 ^ 32 := by
    rw [udpSum]
    omega
  refine ⟨?_, by rw [udpSum]; omega, hlt⟩
  have hsum : udpDataSum databuf payload.length +
      (udpPseudosum (udpIpHdr iptol (payload.length + 8) ipSum 0 spa dpa myPort port) + payload.length + 8) =
      udpSum spa dpa myPort port payload := by
    rw [udpDataSum_even hdata heven hlen, udpPseudosum_eq spa dpa myPort port iptol ipSum hlen, udpSum]
    omega
  rw [udpChecksum, hsum, Nat.mod_eq_of_lt hlt]

/-- The pseudo header of a packet. -/
def pseudoHeader (hdr payload : List UInt8) : List ℕ :=
  words (hdr.drop 12 |>.take 8) ++ [0x11, payload.length + 8]

/-- A packet that verifies: its IP header, its UDP header with the payload, and its UDP checksum is present. -/
structure Verifies (hdr payload : List UInt8) : Prop where
  ip : onesSum (words (hdr.take 20)) = 0xFFFF
  udp : onesSum (pseudoHeader hdr payload ++ words (hdr.drop 20 ++ payload)) = 0xFFFF
  present : hdr.drop 26 ≠ [0, 0]

/-- Whatever lies behind the payload in memory, the headers are the same and the packet verifies. -/
def HeadersVerify (payload : List UInt8) : Prop := ∀ databuf, Holds databuf payload →
  Verifies (createUdpIpHdr spa dpa myPort port databuf payload.length) payload ∧
    createUdpIpHdr spa dpa myPort port databuf payload.length =
      createUdpIpHdr spa dpa myPort port (fun i => payload.getD i 0) payload.length

theorem ip_verifies {len : ℕ} (hlen : len ≤ 65507) (udplen sum : ℕ) : onesSum (words
    ((udpIpHdr (len + 28) udplen (foldCarries (ipHdrSum spa dpa len)) sum spa dpa myPort port).take 20)) = 0xFFFF := by
  have hle := sum_words_le (spa.bytes ++ dpa.bytes)
  have height : (spa.bytes ++ dpa.bytes).length = 8 := rfl
  rw [height] at hle
  have hpos : 0 < ipHdrSum spa dpa len := by
    rw [ipHdrSum]
    omega
  have hlt : ipHdrSum spa dpa len < 2 ^ 32 := by
    rw [ipHdrSum]
    omega
  have hdvd := dvd_add_foldCarries hpos hlt
  have hword := length_word (show len + 28 < 2 ^ 16 by omega)
  have hchksum := word_of_bytes (foldCarries_lt hpos hlt)
  have hsum : (words ((udpIpHdr (len + 28) udplen (foldCarries (ipHdrSum spa dpa len)) sum spa dpa myPort port).take
      20)).sum = ipHdrSum spa dpa len + foldCarries (ipHdrSum spa dpa len) := by
    have hip := sum_words_ip spa dpa (UInt8.ofNat ((len + 28) >>> 8)) (UInt8.ofNat (len + 28 &&& 0xff))
      (UInt8.ofNat (foldCarries (ipHdrSum spa dpa len) >>> 8)) (UInt8.ofNat (foldCarries (ipHdrSum spa dpa len)))
    rw [hword, hchksum] at hip
    refine hip.trans ?_
    rw [ipHdrSum]
    omega
  rw [onesSum_ones_iff (words_le _) (by omega), hsum]
  exact hdvd

theorem udp_words_sum (iptol ipSum sum : ℕ) (payload : List UInt8) (hlen : payload.length ≤ 65507)
    (hsum : sum < 2 ^ 16) :
    (pseudoHeader (udpIpHdr iptol (payload.length + 8) ipSum sum spa dpa myPort port) payload ++
      words ((udpIpHdr iptol (payload.length + 8) ipSum sum spa dpa myPort port).drop 20 ++ payload)).sum =
      udpSum spa dpa myPort port payload + sum := by
  have hword := word_of_bytes (show payload.length + 8 < 2 ^ 16 by omega)
  have hchksum := word_of_bytes hsum
  have hpseudo : (pseudoHeader (udpIpHdr iptol (payload.length + 8) ipSum sum spa dpa myPort port) payload).sum =
      (words (spa.bytes ++ dpa.bytes)).sum + (0x11 + (payload.length + 8)) := by
    rw [pseudoHeader, List.sum_append]
    rfl
  have hudp : (words ((udpIpHdr iptol (payload.length + 8) ipSum sum spa dpa myPort port).drop 20 ++ payload)).sum =
      (words (myPort.bytes ++ port.bytes)).sum + (payload.length + 8) + sum + (words payload).sum := by
    obtain ⟨u0, hu0⟩ : ∃ u, UInt8.ofNat ((payload.length + 8) >>> 8) = u := ⟨_, rfl⟩
    obtain ⟨u1, hu1⟩ : ∃ u, UInt8.ofNat (payload.length + 8) = u := ⟨_, rfl⟩
    obtain ⟨s0, hs0⟩ : ∃ u, UInt8.ofNat (sum >>> 8) = u := ⟨_, rfl⟩
    obtain ⟨s1, hs1⟩ : ∃ u, UInt8.ofNat sum = u := ⟨_, rfl⟩
    rw [hu0, hu1] at hword
    rw [hs0, hs1] at hchksum
    simp only [udpIpHdr, hu0, hu1, hs0, hs1, List.drop_succ_cons, List.drop_zero, Port.bytes, List.cons_append,
      List.nil_append, words, List.sum_cons, List.sum_nil, hword, hchksum]
    ring
  rw [List.sum_append, hpseudo, hudp, udpSum]
  simp only [Ipv4.bytes, Port.bytes, List.cons_append, List.nil_append, words, List.sum_cons, List.sum_nil]
  ring

theorem pseudoHeader_le {hdr payload : List UInt8} (hlen : payload.length ≤ 65507) :
    ∀ w ∈ pseudoHeader hdr payload, w < 2 ^ 16 := by
  intro w hw
  rw [pseudoHeader, List.mem_append] at hw
  rcases hw with hw | hw
  · exact words_le _ w hw
  · rw [List.mem_cons, List.mem_singleton] at hw
    omega

/-- The bytes of a checksum tell it. -/
theorem bytes_inj {x y : ℕ} (hx : x < 2 ^ 16) (hy : y < 2 ^ 16)
    (h : [UInt8.ofNat (x >>> 8), UInt8.ofNat x] = [UInt8.ofNat (y >>> 8), UInt8.ofNat y]) : x = y := by
  rw [List.cons.injEq, List.cons.injEq] at h
  rw [← word_of_bytes hx, ← word_of_bytes hy, h.1, h.2.1]

/-- For an even length the headers verify, with a checksum unless the sum is a multiple of 65535. -/
theorem headersVerify_even {payload : List UInt8} (hlen : payload.length ≤ 65507)
    (heven : payload.length % 2 = 0) :
    HeadersVerify spa dpa myPort port payload ↔ ¬ 65535 ∣ udpSum spa dpa myPort port payload := by
  have hhdr : ∀ databuf, Holds databuf payload → createUdpIpHdr spa dpa myPort port databuf payload.length =
      udpIpHdr (payload.length + 28) (payload.length + 8) (foldCarries (ipHdrSum spa dpa payload.length))
        (foldCarries (udpSum spa dpa myPort port payload)) spa dpa myPort port := by
    intro databuf hdata
    obtain ⟨hchksum, -⟩ := udpChecksum_even spa dpa myPort port hdata heven hlen (payload.length + 28)
      (foldCarries (ipHdrSum spa dpa payload.length))
    rw [createUdpIpHdr_eq spa dpa myPort port databuf hlen, myIpChecksum_eq spa dpa hlen, hchksum]
  have hself : Holds (fun i => payload.getD i 0) payload := fun _ _ => rfl
  obtain ⟨-, hpos, hlt⟩ := udpChecksum_even spa dpa myPort port hself heven hlen 0 0
  have hpresent : (udpIpHdr (payload.length + 28) (payload.length + 8) (foldCarries (ipHdrSum spa dpa payload.length))
      (foldCarries (udpSum spa dpa myPort port payload)) spa dpa myPort port).drop 26 ≠ [0, 0] ↔
      ¬ 65535 ∣ udpSum spa dpa myPort port payload := by
    rw [← foldCarries_eq_zero_iff hpos hlt]
    refine not_congr ⟨fun h => bytes_inj (foldCarries_lt hpos hlt) (show 0 < 2 ^ 16 by decide) h, fun h => ?_⟩
    rw [h]
    rfl
  constructor
  · intro h
    obtain ⟨hverifies, -⟩ := h _ hself
    rw [hhdr _ hself] at hverifies
    exact hpresent.mp hverifies.present
  · intro h databuf hdata
    rw [hhdr databuf hdata, hhdr _ hself]
    refine ⟨⟨ip_verifies spa dpa myPort port hlen _ _, ?_, hpresent.mpr h⟩, rfl⟩
    have hsum := udp_words_sum spa dpa myPort port (payload.length + 28)
      (foldCarries (ipHdrSum spa dpa payload.length)) _ payload hlen (foldCarries_lt hpos hlt)
    rw [onesSum_ones_iff ?_ (by rw [hsum]; omega), hsum]
    · exact dvd_add_foldCarries hpos hlt
    · intro w hw
      rcases List.mem_append.mp hw with hw | hw
      · exact pseudoHeader_le hlen w hw
      · exact words_le _ w hw

/-- For an odd length the checksum takes in the byte behind the payload. -/
theorem udpChecksum_odd {payload : List UInt8} (hlen : payload.length ≤ 65507) (hodd : payload.length % 2 = 1)
    (iptol ipSum : ℕ) : ∃ x, 0 < x ∧ x + 256 < 2 ^ 32 ∧ ∀ databuf, Holds databuf payload →
      (databuf (payload.length + 2)).toNat = 0 →
      udpChecksum (udpIpHdr iptol (payload.length + 8) ipSum 0 spa dpa myPort port) databuf payload.length =
        foldCarries (x + (databuf payload.length).toNat) := by
  obtain ⟨pairs, hpairs⟩ : ∃ pairs, ((List.range (payload.length / 2)).map fun i =>
    (payload.getD (2 * i) 0).toNat * 256 + (payload.getD (2 * i + 1) 0).toNat).sum = pairs := ⟨_, rfl⟩
  have hle : pairs ≤ payload.length / 2 * 65535 := by
    have hcard := List.sum_le_card_nsmul ((List.range (payload.length / 2)).map fun i =>
      (payload.getD (2 * i) 0).toNat * 256 + (payload.getD (2 * i + 1) 0).toNat) 65535 (by
        intro w hw
        obtain ⟨i, -, rfl⟩ := List.mem_map.mp hw
        have h0 := (payload.getD (2 * i) 0).toNat_lt
        have h1 := (payload.getD (2 * i + 1) 0).toNat_lt
        omega)
    rwa [hpairs, List.length_map, List.length_range, nsmul_eq_mul, Nat.cast_id] at hcard
  obtain ⟨last, hlast⟩ : ∃ last, (payload.getD (payload.length - 1) 0).toNat = last := ⟨_, rfl⟩
  have hlastlt : last < 2 ^ 8 := hlast ▸ UInt8.toNat_lt _
  obtain ⟨ports, hports⟩ : ∃ ports, (words (spa.bytes ++ dpa.bytes ++ myPort.bytes ++ port.bytes)).sum = ports :=
    ⟨_, rfl⟩
  have hportsle := sum_words_le (spa.bytes ++ dpa.bytes ++ myPort.bytes ++ port.bytes)
  have htwelve : (spa.bytes ++ dpa.bytes ++ myPort.bytes ++ port.bytes).length = 12 := rfl
  rw [hports, htwelve] at hportsle
  refine ⟨pairs + last * 256 + (ports + 0x11 + (payload.length + 8) + payload.length + 8), by omega, by omega,
    fun databuf hdata hzero => ?_⟩
  have hnext := (databuf payload.length).toNat_lt
  have hmap : ((List.range (payload.length / 2)).map fun i =>
      (databuf (2 * i + 0)).toNat * 256 + (databuf (2 * i + 1)).toNat) =
      (List.range (payload.length / 2)).map fun i =>
        (payload.getD (2 * i) 0).toNat * 256 + (payload.getD (2 * i + 1) 0).toNat := by
    apply List.map_congr_left
    intro i hi
    have hi := List.mem_range.mp hi
    rw [Nat.add_zero, hdata (2 * i) (by omega), hdata (2 * i + 1) (by omega)]
  have hsum : udpDataSum databuf payload.length = pairs + last * 256 + (databuf payload.length).toNat := by
    rw [udpDataSum_odd hodd, hmap, hpairs, hdata (payload.length - 1) (by omega), hlast, hzero]
    omega
  rw [udpChecksum, hsum, udpPseudosum_eq spa dpa myPort port iptol ipSum hlen, hports]
  congr 1
  omega

theorem headersVerify_odd {payload : List UInt8} (hlen : payload.length ≤ 65507) (hodd : payload.length % 2 = 1) :
    ¬ HeadersVerify spa dpa myPort port payload := by
  intro h
  obtain ⟨x, hpos, hlt, hchksum⟩ := udpChecksum_odd spa dpa myPort port hlen hodd (payload.length + 28)
    (myIpChecksum (ipHdr (payload.length + 28) spa dpa) 10)
  have hself : Holds (fun i => payload.getD i 0) payload := fun _ _ => rfl
  have hother : Holds (fun i => if i = payload.length then 1 else payload.getD i 0) payload := fun i hi =>
    if_neg (Nat.ne_of_lt hi)
  have hbehind : ∀ i, payload.getD (payload.length + i) 0 = 0 := fun i =>
    List.getD_eq_default _ _ (Nat.le_add_right _ _)
  have h0 := hchksum _ hself (by rw [hbehind]; rfl)
  have h1 := hchksum _ hother (by rw [if_neg (by omega), hbehind]; rfl)
  have hsame := (h _ hother).2
  rw [createUdpIpHdr_eq spa dpa myPort port _ hlen, createUdpIpHdr_eq spa dpa myPort port _ hlen, h0, h1] at hsame
  have hlow : (payload.getD payload.length 0).toNat = 0 := by
    rw [show payload.getD payload.length 0 = 0 from hbehind 0]
    rfl
  have hone : (if payload.length = payload.length then 1 else payload.getD payload.length 0 : UInt8).toNat = 1 := by
    rw [if_pos rfl]
    rfl
  rw [hlow, hone] at hsame
  have hequal := bytes_inj (foldCarries_lt (by omega) (by omega)) (foldCarries_lt (by omega) (by omega))
    (congrArg (List.drop 26) hsame)
  rw [foldCarries_eq (by omega) (by omega), foldCarries_eq (by omega) (by omega)] at hequal
  omega

/-- Headers verify, and depend on nothing but the payload, exactly when its length is even and the sum of what the
UDP checksum covers is no multiple of 65535. -/
theorem headersVerify_iff {payload : List UInt8} (hlen : payload.length ≤ 65507) :
    HeadersVerify spa dpa myPort port payload ↔
      payload.length % 2 = 0 ∧ ¬ 65535 ∣ udpSum spa dpa myPort port payload := by
  rcases Nat.mod_two_eq_zero_or_one payload.length with heven | hodd
  · rw [headersVerify_even spa dpa myPort port hlen heven, and_iff_right heven]
  · refine ⟨fun h => absurd h (headersVerify_odd spa dpa myPort port hlen hodd), fun h => ?_⟩
    omega

theorem headersVerify_four :
    HeadersVerify ⟨10, 0, 0, 1⟩ ⟨10, 0, 0, 2⟩ ⟨0xEB, 0xD0⟩ ⟨0xEB, 0xD0⟩ [0x4e, 0x6f, 0x10, 0x44] :=
  (headersVerify_iff _ _ _ _ (by decide)).mpr ⟨by decide, by decide⟩

/-- A payload of one byte, and one of two bytes that gets the checksum zero. -/
theorem headers_fail : ¬ HeadersVerify ⟨10, 0, 0, 1⟩ ⟨10, 0, 0, 2⟩ ⟨0xEB, 0xD0⟩ ⟨0xEB, 0xD0⟩ [0x4e] ∧
    ¬ HeadersVerify ⟨10, 0, 0, 1⟩ ⟨10, 0, 0, 2⟩ ⟨0xEB, 0xD0⟩ ⟨0xEB, 0xD0⟩ [0x14, 0x36] := by
  refine ⟨headersVerify_odd _ _ _ _ (by decide) (by decide), ?_⟩
  rw [headersVerify_even _ _ _ _ (by decide) (by decide)]
  decide

end WhiteRabbit.Etherbone.Lm32
