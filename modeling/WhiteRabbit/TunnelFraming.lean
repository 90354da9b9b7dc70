import Mathlib.Data.Nat.Bitwise
import WhiteRabbit.ChunkedStreams

/-!
# Packets through a tunnel

A tunnel carries packets over a stream: the length of each in two bytes, then its bytes. The
device at one end and the relay at the other each take the stream apart again.
-/

namespace WhiteRabbit.Etherbone.Tunnel
open ChunkedStreams

def maxMtu : ℕ := 4096

/-- What `eb_tunnel_send` puts into the stream. -/
def ebTunnelSend (buf : List ℕ) : List ℕ :=
  let lenBuf := [buf.length >>> 8 &&& 0xFF, buf.length &&& 0xFF]
  lenBuf ++ buf

/-- What the relay puts into the stream for a packet it has received: a buffer with room for the
length in front. -/
def relaySend (buf : List ℕ) : List ℕ :=
  let buffer := 0 :: 0 :: buf
  ((buffer.set 0 (buf.length >>> 8 &&& 0xFF)).set 1 (buf.length &&& 0xFF)).take (buf.length + 2)

theorem relaySend_eq (buf : List ℕ) : relaySend buf = ebTunnelSend buf := by
  simp [relaySend, ebTunnelSend]

/-- `eb_posix_tcp_recv`: it waits for bytes, and an empty read counts as an error. -/
inductive TcpRecv where
  | waits
  | failed
  | got (bytes : List ℕ) (rest : List (List ℕ))

def ebPosixTcpRecv (chunks : List (List ℕ)) (len : ℕ) : TcpRecv :=
  if len = 0 then .failed
  else if chunks = [] then .waits
  else .got (recv len chunks).1 (recv len chunks).2

/-- `eb_posix_tcp_poll`: it does not wait. -/
def ebPosixTcpPoll (chunks : List (List ℕ)) (len : ℕ) : Option (List ℕ × List (List ℕ)) :=
  if chunks = [] then none else some (recv len chunks)

/-- How a poll of the tunnel ends. -/
inductive Polled where
  | idle
  | waits
  | failed
  | packet (buf : List ℕ)
  deriving DecidableEq

/-- The rest of `eb_tunnel_poll`, from the length on. -/
def ebTunnelBody (maxlen : ℕ) (lenBuf : List ℕ) (chunks : List (List ℕ)) : Polled × List (List ℕ) :=
  let len := lenBuf.getD 0 0 <<< 8 ||| lenBuf.getD 1 0
  if maxlen < len then (.failed, chunks)
  else
    match ebPosixTcpRecv chunks len with
    | .waits => (.waits, chunks)
    | .failed => (.failed, chunks)
    | .got buf rest => if buf.length ≠ len then (.failed, rest) else (.packet buf, rest)

/-- `eb_tunnel_poll`. -/
def ebTunnelPoll (maxlen : ℕ) (chunks : List (List ℕ)) : Polled × List (List ℕ) :=
  match ebPosixTcpPoll chunks 2 with
  | none => (.idle, chunks)
  | some (lenBuf, chunks) =>
    if lenBuf.length = 1 then
      match ebPosixTcpRecv chunks 1 with
      | .waits => (.waits, chunks)
      | .failed => (.failed, chunks)
      | .got next rest => if next.length ≠ 1 then (.failed, rest) else ebTunnelBody maxlen (lenBuf ++ next) rest
    else ebTunnelBody maxlen lenBuf chunks

/-- The rest of one turn of the relay, from the number of bytes of the length on. -/
def relayBody (len : ℕ) (lenBuf : List ℕ) (chunks : List (List ℕ)) : Polled × List (List ℕ) :=
  if len ≠ 2 then (.failed, chunks)
  else
    let len := lenBuf.getD 0 0 <<< 8 ||| lenBuf.getD 1 0
    if maxMtu < len then (.failed, chunks)
    else
      match ebPosixTcpRecv chunks len with
      | .waits => (.waits, chunks)
      | .failed => (.failed, chunks)
      | .got buffer rest => if buffer.length ≠ len then (.failed, rest) else (.packet buffer, rest)

/-- One turn of the relay's loop over the stream of a client. -/
def relayTurn (chunks : List (List ℕ)) : Polled × List (List ℕ) :=
  match ebPosixTcpPoll chunks 2 with
  | none => (.idle, chunks)
  | some (lenBuf, chunks) =>
    if lenBuf.length = 1 then
      match ebPosixTcpRecv chunks 1 with
      | .waits => (.waits, chunks)
      | .failed => relayBody (1 - 1) lenBuf chunks
      | .got next rest => relayBody (1 + next.length) (lenBuf ++ next) rest
    else relayBody lenBuf.length lenBuf chunks

/-- How the receiving side stands. -/
inductive Standing where
  | up
  | waits
  | failed
  deriving DecidableEq

/-- The packets that polls deliver. Each poll finds bytes ready or not. -/
def receive (poll : List (List ℕ) → Polled × List (List ℕ)) :
    List Bool → List (List ℕ) → List (List ℕ) × Standing
  | [], _ => ([], .up)
  | false :: ready, chunks => receive poll ready chunks
  | true :: ready, chunks =>
    match poll chunks with
    | (.idle, rest) => receive poll ready rest
    | (.waits, _) => ([], .waits)
    | (.failed, _) => ([], .failed)
    | (.packet buf, rest) => (buf :: (receive poll ready rest).1, (receive poll ready rest).2)

/-- However often it polls, the receiving side has got one packet after the other and is up. -/
def Delivers (poll : List (List ℕ) → Polled × List (List ℕ)) (packets chunks : List (List ℕ)) : Prop :=
  ∀ ready : List Bool, receive poll ready chunks = (packets.take (ready.count true), .up)

/-- No cut lies inside the bytes of a packet; the first one starts at `start`. -/
def BodiesWhole (cut : ℕ → Prop) : ℕ → List (List ℕ) → Prop
  | _, [] => True
  | start, p :: packets =>
    (∀ b, start + 2 < b → b < start + 2 + p.length → ¬ cut b) ∧ BodiesWhole cut (start + 2 + p.length) packets

theorem BodiesWhole.shift {cut cut' : ℕ → Prop} {k : ℕ} (h : ∀ b, 0 < b → (cut' b ↔ cut (b + k))) (start : ℕ)
    (packets : List (List ℕ)) : BodiesWhole cut' start packets ↔ BodiesWhole cut (start + k) packets := by
  induction packets generalizing start with
  | nil => rfl
  | cons p packets ih =>
    rw [BodiesWhole, BodiesWhole, ih, show start + 2 + p.length + k = start + k + 2 + p.length by omega]
    refine and_congr_left fun _ => ⟨fun hcut b hb hb' hc => ?_, fun hcut b hb hb' hc => ?_⟩
    · apply hcut (b - k) (by omega) (by omega)
      rw [h (b - k) (by omega), Nat.sub_add_cancel (by omega)]
      exact hc
    · exact hcut (b + k) (by omega) (by omega) ((h b (by omega)).mp hc)

/-- What a read leaves of a stream. -/
structure Left (chunks : List (List ℕ)) (k : ℕ) (bytes : List ℕ) (rest : List (List ℕ)) : Prop where
  bytes : rest.flatten = bytes
  nonempty : ∀ c ∈ rest, c ≠ []
  cut : ∀ b, 0 < b → (Cut rest b ↔ Cut chunks (b + k))

theorem left_recv {chunks : List (List ℕ)} {got bytes : List ℕ} {n : ℕ} (hne : ∀ c ∈ chunks, c ≠ [])
    (hgot : (recv n chunks).1 = got) (hs : chunks.flatten = got ++ bytes) :
    Left chunks got.length bytes (recv n chunks).2 := by
  refine ⟨?_, recv_rest n hne, fun b hb => ?_⟩
  · have happend := recv_append n chunks
    rw [hgot, hs] at happend
    exact List.append_cancel_left happend
  · rw [← hgot]
    exact recv_cut n chunks hb

theorem Left.trans {chunks rest rest' : List (List ℕ)} {k k' : ℕ} {bytes bytes' : List ℕ}
    (h : Left chunks k bytes rest) (h' : Left rest k' bytes' rest') : Left chunks (k' + k) bytes' rest' := by
  refine ⟨h'.bytes, h'.nonempty, fun b hb => ?_⟩
  rw [h'.cut b hb, h.cut (b + k') (by omega), Nat.add_assoc]

/-- The two bytes of the length come together or one by one. -/
theorem header_cases {chunks : List (List ℕ)} {x y : ℕ} {bytes : List ℕ} (hne : ∀ c ∈ chunks, c ≠ [])
    (hs : chunks.flatten = x :: y :: bytes) :
    (∃ rest, ebPosixTcpPoll chunks 2 = some ([x, y], rest) ∧ Left chunks 2 bytes rest) ∨
      ∃ mid rest, ebPosixTcpPoll chunks 2 = some ([x], mid) ∧ ebPosixTcpRecv mid 1 = .got [y] rest ∧
        Left chunks 2 bytes rest := by
  have hchunks : chunks ≠ [] := by
    rintro rfl
    cases hs
  have hpoll : ebPosixTcpPoll chunks 2 = some (recv 2 chunks) := if_neg hchunks
  have happend := recv_append 2 chunks
  have hle := recv_length_le 2 chunks
  have hpos := List.length_pos_iff.mpr (recv_ne_nil (show 0 < 2 by decide) hchunks hne)
  rw [hs] at happend
  rcases hgot : (recv 2 chunks).1 with _ | ⟨x', _ | ⟨y', _ | ⟨z, got⟩⟩⟩
  · rw [hgot] at hpos
    exact absurd hpos (by decide)
  · right
    rw [hgot, List.singleton_append, List.cons.injEq] at happend
    obtain ⟨rfl, hrest⟩ := happend
    have hleft : Left chunks 1 (y :: bytes) (recv 2 chunks).2 := left_recv hne hgot hs
    have hmid : (recv 2 chunks).2 ≠ [] := by
      intro he
      rw [he] at hrest
      cases hrest
    have hone : (recv 1 (recv 2 chunks).2).1 = [y] := by
      have happend' := recv_append 1 (recv 2 chunks).2
      have hle' := recv_length_le 1 (recv 2 chunks).2
      have hpos' := List.length_pos_iff.mpr (recv_ne_nil (show 0 < 1 by decide) hmid hleft.nonempty)
      obtain ⟨z, hz⟩ := List.length_eq_one_iff.mp (show (recv 1 (recv 2 chunks).2).1.length = 1 by omega)
      rw [hz, hrest, List.singleton_append, List.cons.injEq] at happend'
      rw [hz, happend'.1]
    refine ⟨(recv 2 chunks).2, (recv 1 (recv 2 chunks).2).2, ?_, ?_, ?_⟩
    · rw [hpoll, ← hgot]
    · rw [ebPosixTcpRecv, if_neg (by decide), if_neg hmid, hone]
    · exact hleft.trans (left_recv hleft.nonempty hone hleft.bytes)
  · left
    rw [hgot, List.cons_append, List.singleton_append, List.cons.injEq, List.cons.injEq] at happend
    obtain ⟨rfl, rfl, hrest⟩ := happend
    refine ⟨(recv 2 chunks).2, ?_, left_recv hne hgot hs⟩
    rw [hpoll, ← hgot]
  · rw [hgot, List.length_cons, List.length_cons, List.length_cons] at hle
    omega

theorem length_of_bytes {len : ℕ} (h : len ≤ maxMtu) :
    (len >>> 8 &&& 0xFF) <<< 8 ||| (len &&& 0xFF) = len := by
  have hmask : ∀ x : ℕ, x &&& 0xFF = x % 2 ^ 8 := fun x => Nat.and_two_pow_sub_one_eq_mod x 8
  have hlow : len % 2 ^ 8 < 2 ^ 8 := Nat.mod_lt len (by decide)
  rw [maxMtu] at h
  rw [hmask, hmask, ← Nat.shiftLeft_add_eq_or_of_lt hlow, Nat.shiftLeft_eq, Nat.shiftRight_eq_div_pow]
  omega

/-- A poll takes one packet off the stream, if no cut lies inside it, and fails else. -/
structure TakesPackets (poll : List (List ℕ) → Polled × List (List ℕ)) (mtu : ℕ) : Prop where
  idle : poll [] = (.idle, [])
  whole : ∀ {p bytes chunks}, 1 ≤ p.length → p.length ≤ mtu → (∀ c ∈ chunks, c ≠ []) →
    chunks.flatten = ebTunnelSend p ++ bytes → (∀ b, 2 < b → b < 2 + p.length → ¬ Cut chunks b) →
    ∃ rest, poll chunks = (.packet p, rest) ∧ Left chunks (p.length + 2) bytes rest
  torn : ∀ {p bytes chunks}, 1 ≤ p.length → p.length ≤ mtu → (∀ c ∈ chunks, c ≠ []) →
    chunks.flatten = ebTunnelSend p ++ bytes → ¬ (∀ b, 2 < b → b < 2 + p.length → ¬ Cut chunks b) →
    (poll chunks).1 = .failed

/-- The bytes of a packet are read whole or not. -/
theorem body_cases {chunks rest : List (List ℕ)} {p bytes : List ℕ} (hlen : 1 ≤ p.length)
    (h : Left chunks 2 (p ++ bytes) rest) : ∃ got rest', ebPosixTcpRecv rest p.length = .got got rest' ∧
      (got.length = p.length ↔ ∀ b, 2 < b → b < 2 + p.length → ¬ Cut chunks b) ∧
      (got.length = p.length → got = p ∧ Left chunks (p.length + 2) bytes rest') := by
  have hrest : rest ≠ [] := by
    rintro rfl
    have hnil := congrArg List.length h.bytes
    rw [List.flatten_nil, List.length_nil, List.length_append] at hnil
    omega
  have hroom : p.length ≤ rest.flatten.length := by
    rw [h.bytes, List.length_append]
    exact Nat.le_add_right _ _
  refine ⟨(recv p.length rest).1, (recv p.length rest).2, ?_, ?_, fun hfull => ?_⟩
  · rw [ebPosixTcpRecv, if_neg (by omega), if_neg hrest]
  · rw [recv_full_iff hlen h.nonempty hroom]
    constructor
    · intro hcut b hb hb' hc
      apply hcut (b - 2) (by omega) (by omega)
      rw [h.cut (b - 2) (by omega), Nat.sub_add_cancel (by omega)]
      exact hc
    · intro hcut b hb hb' hc
      exact hcut (b + 2) (by omega) (by omega) ((h.cut b hb).mp hc)
  · have happend := recv_append p.length rest
    rw [h.bytes] at happend
    have hgot := List.append_inj_left happend hfull
    refine ⟨hgot, h.trans ?_⟩
    exact left_recv h.nonempty hgot h.bytes

theorem ebTunnelBody_eq {maxlen : ℕ} {p : List ℕ} (hlen : p.length ≤ maxMtu) (hmax : p.length ≤ maxlen)
    {rest rest' : List (List ℕ)} {got : List ℕ} (hgot : ebPosixTcpRecv rest p.length = .got got rest') :
    ebTunnelBody maxlen [p.length >>> 8 &&& 0xFF, p.length &&& 0xFF] rest =
      if got.length = p.length then (.packet got, rest') else (.failed, rest') := by
  have hlength : [p.length >>> 8 &&& 0xFF, p.length &&& 0xFF].getD 0 0 <<< 8 |||
      [p.length >>> 8 &&& 0xFF, p.length &&& 0xFF].getD 1 0 = p.length := length_of_bytes hlen
  simp only [ebTunnelBody, hlength, if_neg (Nat.not_lt.mpr hmax), hgot, ne_eq, ite_not]

theorem relayBody_eq (lenBuf : List ℕ) (chunks : List (List ℕ)) :
    relayBody 2 lenBuf chunks = ebTunnelBody maxMtu lenBuf chunks := rfl

/-- The device and the relay take the same packets off the same streams. -/
theorem takesPackets_of_body {poll : List (List ℕ) → Polled × List (List ℕ)} {maxlen : ℕ}
    (hidle : poll [] = (.idle, []))
    (htogether : ∀ {chunks x y rest}, ebPosixTcpPoll chunks 2 = some ([x, y], rest) →
      poll chunks = ebTunnelBody maxlen [x, y] rest)
    (happart : ∀ {chunks x y mid rest}, ebPosixTcpPoll chunks 2 = some ([x], mid) →
      ebPosixTcpRecv mid 1 = .got [y] rest → poll chunks = ebTunnelBody maxlen [x, y] rest)
    {mtu : ℕ} (hmtu : mtu ≤ maxMtu) (hmax : mtu ≤ maxlen) : TakesPackets poll mtu := by
  have hpoll : ∀ {p bytes : List ℕ} {chunks : List (List ℕ)}, 1 ≤ p.length → p.length ≤ mtu →
    (∀ c ∈ chunks, c ≠ []) →
      chunks.flatten = ebTunnelSend p ++ bytes → ∃ got rest, (poll chunks =
        if got.length = p.length then (.packet got, rest) else (.failed, rest)) ∧
        (got.length = p.length ↔ ∀ b, 2 < b → b < 2 + p.length → ¬ Cut chunks b) ∧
        (got.length = p.length → got = p ∧ Left chunks (p.length + 2) bytes rest) := by
    intro p bytes chunks hlen hle hne hs
    obtain ⟨rest, hbody, hleft⟩ : ∃ rest, poll chunks =
        ebTunnelBody maxlen [p.length >>> 8 &&& 0xFF, p.length &&& 0xFF] rest ∧
          Left chunks 2 (p ++ bytes) rest := by
      rcases header_cases hne hs with ⟨rest, hpoll, hleft⟩ | ⟨mid, rest, hpoll, hrecv, hleft⟩
      · exact ⟨rest, htogether hpoll, hleft⟩
      · exact ⟨rest, happart hpoll hrecv, hleft⟩
    obtain ⟨got, rest', hgot, hiff, hfull⟩ := body_cases hlen hleft
    rw [ebTunnelBody_eq (hle.trans hmtu) (hle.trans hmax) hgot] at hbody
    exact ⟨got, rest', hbody, hiff, hfull⟩
  refine ⟨hidle, fun hlen hle hne hs hcut => ?_, fun hlen hle hne hs hcut => ?_⟩
  · obtain ⟨got, rest, hbody, hiff, hfull⟩ := hpoll hlen hle hne hs
    obtain ⟨rfl, hleft⟩ := hfull (hiff.mpr hcut)
    exact ⟨rest, by rw [hbody, if_pos rfl], hleft⟩
  · obtain ⟨got, rest, hbody, hiff, -⟩ := hpoll hlen hle hne hs
    rw [hbody, if_neg fun h => hcut (hiff.mp h)]

theorem ebTunnelPoll_takesPackets {mtu maxlen : ℕ} (hmtu : mtu ≤ maxMtu) (hmax : mtu ≤ maxlen) :
    TakesPackets (ebTunnelPoll maxlen) mtu := by
  have hidle : ebTunnelPoll maxlen [] = (.idle, []) := rfl
  refine takesPackets_of_body hidle (fun hpoll => ?_) (fun hpoll hrecv => ?_) hmtu hmax
  · rw [ebTunnelPoll, hpoll]
    rfl
  · rw [ebTunnelPoll, hpoll]
    dsimp only
    rw [if_pos (List.length_singleton), hrecv]
    rfl

theorem relayTurn_takesPackets {mtu : ℕ} (hmtu : mtu ≤ maxMtu) : TakesPackets relayTurn mtu := by
  have hidle : relayTurn [] = (.idle, []) := rfl
  refine takesPackets_of_body hidle (fun hpoll => ?_) (fun hpoll hrecv => ?_) hmtu hmtu
  · rw [← relayBody_eq, relayTurn, hpoll]
    rfl
  · rw [← relayBody_eq, relayTurn, hpoll]
    dsimp only
    rw [if_pos (List.length_singleton), hrecv]
    rfl

/-- Where polls take packets, all are delivered exactly when no cut lies inside one of them. -/
theorem TakesPackets.delivers_iff {poll : List (List ℕ) → Polled × List (List ℕ)} {mtu : ℕ}
    (h : TakesPackets poll mtu) {packets chunks : List (List ℕ)}
    (hp : ∀ p ∈ packets, 1 ≤ p.length ∧ p.length ≤ mtu) (hne : ∀ c ∈ chunks, c ≠ [])
    (hs : chunks.flatten = (packets.map ebTunnelSend).flatten) :
    Delivers poll packets chunks ↔ BodiesWhole (Cut chunks) 0 packets := by
  induction packets generalizing chunks with
  | nil =>
    have hchunks : chunks = [] := by
      cases chunks with
      | nil => rfl
      | cons c cs =>
        rw [List.flatten_cons, List.map_nil, List.flatten_nil, List.append_eq_nil_iff] at hs
        exact absurd hs.1 (hne c (List.mem_cons_self ..))
    rw [hchunks]
    refine ⟨fun _ => trivial, fun _ ready => ?_⟩
    rw [List.take_nil]
    induction ready with
    | nil => rfl
    | cons r ready ih =>
      cases r with
      | false => exact ih
      | true =>
        rw [receive, h.idle]
        exact ih
  | cons p packets ih =>
    obtain ⟨hlen, hle⟩ := hp p (List.mem_cons_self ..)
    rw [List.map_cons, List.flatten_cons] at hs
    rw [BodiesWhole, Nat.zero_add]
    by_cases hcut : ∀ b, 2 < b → b < 2 + p.length → ¬ Cut chunks b
    · obtain ⟨rest, hpoll, hleft⟩ := h.whole hlen hle hne hs hcut
      have hrest := ih (fun q hq => hp q (List.mem_cons_of_mem _ hq)) hleft.nonempty hleft.bytes
      have hshift := BodiesWhole.shift hleft.cut 0 packets
      rw [show 0 + (p.length + 2) = 2 + p.length by omega] at hshift
      rw [and_iff_right hcut, ← hshift, ← hrest]
      constructor
      · intro hdelivers ready
        have htrue := hdelivers (true :: ready)
        rw [receive, hpoll, List.count_cons_self, List.take_succ_cons, Prod.mk.injEq, List.cons.injEq] at htrue
        exact Prod.ext htrue.1.2 htrue.2
      · intro hdelivers ready
        induction ready with
        | nil => rfl
        | cons r ready ihr =>
          cases r with
          | false => exact ihr
          | true =>
            rw [receive, hpoll, List.count_cons_self, List.take_succ_cons]
            dsimp only
            rw [hdelivers ready]
    · refine ⟨fun hdelivers => ?_, fun hwhole => absurd hwhole.1 hcut⟩
      have htorn := h.torn hlen hle hne hs hcut
      have htrue := hdelivers [true]
      rw [receive] at htrue
      rcases hpoll : poll chunks with ⟨polled, rest⟩
      rw [hpoll] at htorn htrue
      dsimp only at htorn
      rw [htorn, Prod.mk.injEq] at htrue
      exact absurd htrue.2 (by decide)

/-- A tunnel delivers what was sent through it exactly when no chunk of the stream ends inside the bytes
of a packet, at the device as at the relay. -/
theorem tunnel_delivers_iff {mtu maxlen : ℕ} (hmtu : mtu ≤ maxMtu) (hmax : mtu ≤ maxlen)
    {packets chunks : List (List ℕ)} (hp : ∀ p ∈ packets, 1 ≤ p.length ∧ p.length ≤ mtu)
    (hne : ∀ c ∈ chunks, c ≠ []) :
    (chunks.flatten = (packets.map relaySend).flatten →
      (Delivers (ebTunnelPoll maxlen) packets chunks ↔ BodiesWhole (Cut chunks) 0 packets)) ∧
    (chunks.flatten = (packets.map ebTunnelSend).flatten →
      (Delivers relayTurn packets chunks ↔ BodiesWhole (Cut chunks) 0 packets)) := by
  constructor
  · intro hs
    rw [show relaySend = ebTunnelSend from funext relaySend_eq] at hs
    exact (ebTunnelPoll_takesPackets hmtu hmax).delivers_iff hp hne hs
  · intro hs
    exact (relayTurn_takesPackets hmtu).delivers_iff hp hne hs

/-- Two packets, where the length of the first one comes in two chunks and the second one is cut behind its
length. -/
theorem tunnel_delivers_two : Delivers (ebTunnelPoll 1472) [[7, 8], [9]] [[0], [2, 7, 8, 0, 1], [9]] ∧
    Delivers relayTurn [[7, 8], [9]] [[0], [2, 7, 8, 0, 1], [9]] := by
  have hmtu : 2 ≤ maxMtu := by decide
  have hp : ∀ p ∈ ([[7, 8], [9]] : List (List ℕ)), 1 ≤ p.length ∧ p.length ≤ 2 := by decide
  have hne : ∀ c ∈ ([[0], [2, 7, 8, 0, 1], [9]] : List (List ℕ)), c ≠ [] := by decide
  obtain ⟨hpoll, hrelay⟩ := tunnel_delivers_iff hmtu (show 2 ≤ 1472 by decide) hp hne
  have hwhole : BodiesWhole (Cut [[0], [2, 7, 8, 0, 1], [9]]) 0 [[7, 8], [9]] := by
    refine ⟨fun b hb hb' => ?_, fun b hb hb' => ?_, trivial⟩
    · have hthree : b = 3 := by
        simp at hb'
        omega
      rintro ⟨k, hk⟩
      rw [hthree] at hk
      rcases k with _ | _ | _ | k <;> simp at hk
    · simp at hb hb'
      omega
  exact ⟨(hpoll rfl).mpr hwhole, (hrelay rfl).mpr hwhole⟩

/-- A packet that comes in two chunks is not delivered. -/
theorem torn_packet : ¬ Delivers (ebTunnelPoll 1472) [[7, 8]] [[0, 2, 7], [8]] ∧
    ¬ Delivers relayTurn [[7, 8]] [[0, 2, 7], [8]] :=
  ⟨fun h => absurd (h [true]) (by decide), fun h => absurd (h [true]) (by decide)⟩

end WhiteRabbit.Etherbone.Tunnel
