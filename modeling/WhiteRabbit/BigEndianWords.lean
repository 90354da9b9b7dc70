import Mathlib.Data.List.Basic
import Mathlib.Data.Nat.Bitwise
import Mathlib.Tactic.Linarith
import Mathlib.Tactic.Positivity
import Mathlib.Tactic.Ring

/-!
# Fixed-size big-endian words

A word of `n` bytes is written most significant byte first. Writing truncates the
value to `n` bytes, and reading back returns exactly the truncated value.
-/

namespace WhiteRabbit.BigEndian

abbrev Bytes := List UInt8

/-- The low `n` bytes of `v`, most significant byte first. -/
def encode : ℕ → ℕ → Bytes
  | 0, _ => []
  | n + 1, v => UInt8.ofNat (v / 256 ^ n) :: encode n v

/-- The number a byte string denotes, most significant byte first. -/
def decode (bs : Bytes) : ℕ := bs.foldl (fun acc b => acc * 256 + b.toNat) 0

/-- Several words of `n` bytes, one after the other. -/
def encodeAll (n : ℕ) (vs : List ℕ) : Bytes := vs.flatMap (encode n)

@[simp] theorem length_encode (n v : ℕ) : (encode n v).length = n := by
  induction n with
  | zero => rfl
  | succ n ih => simp [encode, ih]

@[simp] theorem encodeAll_nil (n : ℕ) : encodeAll n [] = [] := rfl

@[simp] theorem encodeAll_cons (n v : ℕ) (vs : List ℕ) :
    encodeAll n (v :: vs) = encode n v ++ encodeAll n vs := rfl

@[simp] theorem length_encodeAll (n : ℕ) (vs : List ℕ) :
    (encodeAll n vs).length = vs.length * n := by
  induction vs with
  | nil => simp
  | cons v vs ih => simp [ih, Nat.add_mul, Nat.add_comm]

theorem encodeAll_append (n : ℕ) (vs ws : List ℕ) :
    encodeAll n (vs ++ ws) = encodeAll n vs ++ encodeAll n ws := by
  simp [encodeAll]

private theorem foldl_decode (bs : Bytes) (acc : ℕ) :
    bs.foldl (fun acc b => acc * 256 + b.toNat) acc = acc * 256 ^ bs.length + decode bs := by
  induction bs generalizing acc with
  | nil => simp [decode]
  | cons b bs ih =>
    have hd : decode (b :: bs) = bs.foldl (fun acc b => acc * 256 + b.toNat) b.toNat := by
      simp [decode]
    rw [List.foldl_cons, hd, ih, ih b.toNat, List.length_cons]
    ring

@[simp] theorem decode_nil : decode [] = 0 := rfl

theorem decode_cons (b : UInt8) (bs : Bytes) :
    decode (b :: bs) = b.toNat * 256 ^ bs.length + decode bs := by
  simpa [decode] using foldl_decode bs b.toNat

theorem decode_lt (bs : Bytes) : decode bs < 256 ^ bs.length := by
  induction bs with
  | nil => simp
  | cons b bs ih =>
    have hb : b.toNat < 256 := b.toNat_lt
    have hp : (b.toNat + 1) * 256 ^ bs.length ≤ 256 * 256 ^ bs.length :=
      Nat.mul_le_mul_right _ hb
    rw [decode_cons, List.length_cons, pow_succ]
    linarith

/-- Reading back a written word truncates the value to the word. -/
theorem decode_encode (n v : ℕ) : decode (encode n v) = v % 256 ^ n := by
  induction n with
  | zero => simp [encode, Nat.mod_one]
  | succ n ih =>
    have hs : 256 ^ (n + 1) = 256 ^ n * 2 ^ 8 := pow_succ 256 n
    rw [encode, decode_cons, length_encode, ih, UInt8.toNat_ofNat', hs, Nat.mod_mul,
      Nat.add_comm, Nat.mul_comm]

theorem decode_encode_of_lt {n v : ℕ} (h : v < 256 ^ n) : decode (encode n v) = v := by
  rw [decode_encode, Nat.mod_eq_of_lt h]

/-- Truncating to a longer word first does not change the shorter one. -/
theorem encode_mod (n m v : ℕ) (h : n ≤ m) : encode n (v % 256 ^ m) = encode n v := by
  induction n with
  | zero => rfl
  | succ n ih =>
    have hs : 256 ^ m = 256 ^ n * (256 * 256 ^ (m - (n + 1))) := by
      rw [← pow_succ', ← pow_add]; congr 1; omega
    rw [encode, encode, ih (by omega)]
    congr 1
    apply UInt8.toNat_inj.mp
    rw [UInt8.toNat_ofNat', UInt8.toNat_ofNat', hs, Nat.mod_mul_right_div_self,
      Nat.mod_mul_right_mod]

/-- Writing a read word back restores its bytes. -/
theorem encode_decode (bs : Bytes) : encode bs.length (decode bs) = bs := by
  induction bs with
  | nil => rfl
  | cons b bs ih =>
    have hl := decode_lt bs
    have hq : decode (b :: bs) / 256 ^ bs.length = b.toNat := by
      rw [decode_cons, Nat.mul_comm, Nat.mul_add_div (by positivity), Nat.div_eq_of_lt hl]
      simp
    have hr : encode bs.length (decode (b :: bs)) = encode bs.length (decode bs) := by
      rw [← encode_mod _ _ (decode (b :: bs)) (Nat.le_refl _), decode_cons,
        Nat.mul_add_mod_self_right, Nat.mod_eq_of_lt hl]
    rw [List.length_cons, encode, hq, hr, ih, UInt8.ofNat_toNat]

end WhiteRabbit.BigEndian
