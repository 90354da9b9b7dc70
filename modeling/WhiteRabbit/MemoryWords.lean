import WhiteRabbit.BigEndianWords

/-!
# Words in a memory of bytes

A word of several bytes lies in consecutive cells, in one of two byte orders. A window of a memory
splits into smaller windows, and a store into smaller stores, in either order of the parts.
-/

namespace WhiteRabbit.MemoryWords

open BigEndian

inductive Endian where
  | big | little
  deriving DecidableEq, Repr

abbrev Memory := ℕ → UInt8

/-- The low `n` bytes of `v`, least significant byte first, as a loop that shifts them out takes them. -/
def lowBytes : ℕ → ℕ → Bytes
  | 0, _ => []
  | n + 1, v => UInt8.ofNat (v &&& 0xff) :: lowBytes n (v >>> 8)

/-- Bytes that a loop shifts in, first one first, into a variable with `range` values. -/
def shiftIn (range : ℕ) (bs : Bytes) : ℕ := bs.foldl (fun v b => (v <<< 8 ||| b.toNat) % range) 0

/-- The number that consecutive bytes denote. -/
def Endian.value : Endian → Bytes → ℕ
  | .big, bs => decode bs
  | .little, bs => decode bs.reverse

/-- The bytes of a number in the order of their addresses. -/
def Endian.bytes : Endian → ℕ → ℕ → Bytes
  | .big, n, v => encode n v
  | .little, n, v => (encode n v).reverse

section Loops

theorem decode_concat (bs : Bytes) (b : UInt8) : decode (bs ++ [b]) = decode bs * 256 + b.toNat := by
  simp [decode]

theorem encode_concat (n v : ℕ) : encode (n + 1) v = encode n (v / 256) ++ [UInt8.ofNat v] := by
  induction n with
  | zero => simp [encode]
  | succ n ih =>
    have hd : v / 256 ^ (n + 1) = v / 256 / 256 ^ n := by
      rw [Nat.div_div_eq_div_mul, pow_succ']
    rw [encode, ih, hd]
    rfl

theorem ofNat_and (v : ℕ) : UInt8.ofNat (v &&& 0xff) = UInt8.ofNat v := by
  apply UInt8.toNat_inj.mp
  rw [UInt8.toNat_ofNat', UInt8.toNat_ofNat', show (0xff : ℕ) = 2 ^ 8 - 1 by rfl,
    Nat.and_two_pow_sub_one_eq_mod, Nat.mod_mod]

theorem lowBytes_eq (n v : ℕ) : lowBytes n v = (encode n v).reverse := by
  induction n generalizing v with
  | zero => rfl
  | succ n ih =>
    rw [lowBytes, ih, ofNat_and, encode_concat, List.reverse_append, Nat.shiftRight_eq_div_pow]
    rfl

/-- Shifting in bytes that fit the variable. -/
theorem shiftIn_eq {range : ℕ} (bs : Bytes) (h : 256 ^ bs.length ≤ range) : shiftIn range bs = decode bs := by
  induction bs using List.reverseRecOn with
  | nil => rfl
  | append_singleton bs b ih =>
    have hlen : 256 ^ (bs ++ [b]).length = 256 * 256 ^ bs.length := by
      rw [List.length_append, List.length_singleton, pow_succ']
    have hbs : 256 ^ bs.length ≤ range := by
      rw [hlen] at h
      omega
    have hor : decode bs <<< 8 ||| b.toNat = decode (bs ++ [b]) := by
      rw [decode_concat, ← Nat.shiftLeft_add_eq_or_of_lt b.toNat_lt, Nat.shiftLeft_eq]
    have hlt : decode (bs ++ [b]) < range := (decode_lt _).trans_le h
    have hfold : shiftIn range (bs ++ [b]) = (shiftIn range bs <<< 8 ||| b.toNat) % range := by
      simp [shiftIn]
    rw [hfold, ih hbs, hor, Nat.mod_eq_of_lt hlt]

end Loops

namespace Endian

variable (e : Endian)

@[simp] theorem length_bytes (n v : ℕ) : (e.bytes n v).length = n := by
  cases e <;> simp [bytes]

@[simp] theorem value_nil : e.value [] = 0 := by
  cases e <;> rfl

theorem value_lt (bs : Bytes) : e.value bs < 256 ^ bs.length := by
  cases e with
  | big => exact decode_lt bs
  | little => simpa [value] using decode_lt bs.reverse

theorem value_bytes (n v : ℕ) : e.value (e.bytes n v) = v % 256 ^ n := by
  cases e <;> simp [value, bytes, decode_encode]

theorem bytes_value (bs : Bytes) : e.bytes bs.length (e.value bs) = bs := by
  cases e with
  | big => exact encode_decode bs
  | little =>
    have h := encode_decode bs.reverse
    rw [List.length_reverse] at h
    rw [bytes, value, h, List.reverse_reverse]

theorem bytes_mod (n v : ℕ) : e.bytes n (v % 256 ^ n) = e.bytes n v := by
  cases e <;> simp [bytes, encode_mod n n v le_rfl]

end Endian

theorem decode_append (bs cs : Bytes) : decode (bs ++ cs) = decode bs * 256 ^ cs.length + decode cs := by
  induction bs with
  | nil => simp
  | cons b bs ih =>
    rw [List.cons_append, decode_cons, ih, decode_cons, List.length_append, pow_add]
    ring

theorem encode_append (n k v : ℕ) : encode (n + k) v = encode n (v / 256 ^ k) ++ encode k v := by
  induction n with
  | zero => simp [encode]
  | succ n ih =>
    rw [Nat.succ_add, encode, ih, encode, Nat.div_div_eq_div_mul, ← pow_add, Nat.add_comm k n]
    rfl

/-- The first bytes are the high ones in big endian, the low ones in little endian. -/
theorem value_append_big (bs cs : Bytes) :
    Endian.big.value (bs ++ cs) = Endian.big.value bs * 256 ^ cs.length + Endian.big.value cs :=
      decode_append bs cs

theorem value_append_little (bs cs : Bytes) :
    Endian.little.value (bs ++ cs) = Endian.little.value cs * 256 ^ bs.length + Endian.little.value bs := by
  rw [Endian.value, List.reverse_append, decode_append, List.length_reverse]
  rfl

theorem bytes_add_big (n k v : ℕ) :
    Endian.big.bytes (n + k) v = Endian.big.bytes n (v / 256 ^ k) ++ Endian.big.bytes k v := encode_append n k v

theorem bytes_add_little (n k v : ℕ) :
    Endian.little.bytes (n + k) v = Endian.little.bytes n v ++ Endian.little.bytes k (v / 256 ^ n) := by
  rw [Endian.bytes, Nat.add_comm, encode_append, List.reverse_append]
  rfl

section Windows

variable (m : Memory) (a : ℕ)

/-- The `n` bytes from `a` on. -/
def window (n : ℕ) : Bytes := (List.range n).map fun i => m (a + i)

/-- Put bytes at `a` and after it. -/
def store (bs : Bytes) : Memory := fun x => if a ≤ x then (bs[x - a]?).getD (m x) else m x

@[simp] theorem length_window (n : ℕ) : (window m a n).length = n := by simp [window]

theorem window_add (n k : ℕ) : window m a (n + k) = window m a n ++ window m (a + n) k := by
  simp [window, List.range_add, Function.comp_def, Nat.add_assoc]

theorem window_congr {m m' : Memory} {n : ℕ} (h : ∀ i < n, m (a + i) = m' (a + i)) :
    window m a n = window m' a n := by
  apply List.map_congr_left
  intro i hi
  exact h i (List.mem_range.mp hi)

theorem store_of_lt {bs : Bytes} {x : ℕ} (h : x < a) : store m a bs x = m x := by
  rw [store, if_neg (by omega)]

theorem store_of_ge {bs : Bytes} {x : ℕ} (h : a + bs.length ≤ x) : store m a bs x = m x := by
  rw [store, if_pos (by omega), List.getElem?_eq_none (by omega)]
  rfl

theorem store_add {bs : Bytes} {i : ℕ} (h : i < bs.length) : store m a bs (a + i) = bs[i] := by
  rw [store, if_pos (by omega), Nat.add_sub_cancel_left, List.getElem?_eq_getElem h]
  rfl

theorem window_store (bs : Bytes) : window (store m a bs) a bs.length = bs := by
  apply List.ext_getElem
  · simp
  · intro i _ hi
    rw [← store_add m a hi]
    simp [window]

theorem store_window (n : ℕ) : store m a (window m a n) = m := by
  funext x
  by_cases h : a ≤ x ∧ x < a + n
  · obtain ⟨i, rfl⟩ := Nat.exists_eq_add_of_le h.1
    rw [store_add m a (by simp; omega)]
    simp [window]
  · rcases Nat.lt_or_ge x a with hx | hx
    · exact store_of_lt m a hx
    · exact store_of_ge m a (by rw [length_window]; omega)

@[simp] theorem store_nil : store m a [] = m := by
  funext x
  simp [store]

/-- A store in two parts, the first part first. -/
theorem store_append (bs cs : Bytes) : store m a (bs ++ cs) = store (store m a bs) (a + bs.length) cs := by
  funext x
  rcases Nat.lt_or_ge x (a + bs.length) with hx | hx
  · rw [store_of_lt _ _ hx, store, store, List.getElem?_append]
    split
    · rw [if_pos (by omega)]
    · rfl
  · have hsub : x - a - bs.length = x - (a + bs.length) := by omega
    rw [store, store, if_pos (by omega), if_pos hx, List.getElem?_append_right (by omega), hsub,
      store_of_ge _ _ hx]

/-- A store in two parts, the last part first. -/
theorem store_append' (bs cs : Bytes) : store m a (bs ++ cs) = store (store m (a + bs.length) cs) a bs := by
  funext x
  rcases Nat.lt_or_ge x (a + bs.length) with hx | hx
  · rw [store, store, List.getElem?_append, store_of_lt _ _ hx]
    split
    · rw [if_pos (by omega)]
    · rfl
  · have hsub : x - a - bs.length = x - (a + bs.length) := by omega
    rw [store_of_ge _ _ hx, store, store, if_pos (by omega), if_pos hx,
      List.getElem?_append_right (by omega), hsub]

/-- Storing what is there around some bytes stores only these. -/
theorem store_between (n k : ℕ) (bs : Bytes) :
    store m a (window m a n ++ bs ++ window m (a + n + bs.length) k) = store m (a + n) bs := by
  have hsame : window m (a + n + bs.length) k = window (store m (a + n) bs) (a + n + bs.length) k :=
    window_congr _ fun i _ => (store_of_ge m (a + n) (Nat.le_add_right _ i)).symm
  rw [store_append, store_append, store_window, length_window, List.length_append, length_window,
    ← Nat.add_assoc, hsame, store_window]

theorem store_singleton (b : UInt8) : store m a [b] = Function.update m a b := by
  funext x
  rcases Nat.lt_trichotomy x a with hx | rfl | hx
  · rw [store_of_lt m a hx, Function.update_of_ne hx.ne]
  · rw [store, if_pos le_rfl, Nat.sub_self, Function.update_self]
    rfl
  · rw [store_of_ge m a (Nat.succ_le_of_lt hx), Function.update_of_ne hx.ne']

end Windows

section Fields

variable {n k w low mid high : ℕ}

/-- Shifting and masking picks a field. -/
theorem shift_field (hlow : low < 2 ^ k) (hmid : mid < 2 ^ n) :
    (2 ^ k * (2 ^ n * high + mid) + low) >>> k &&& (2 ^ n - 1) = mid := by
  rw [Nat.shiftRight_eq_div_pow, Nat.and_two_pow_sub_one_eq_mod, Nat.mul_add_div (Nat.two_pow_pos k),
    Nat.div_eq_of_lt hlow, Nat.add_zero, Nat.mul_add_mod, Nat.mod_eq_of_lt hmid]

/-- Clearing a field and putting another value there. -/
theorem replace_field {v : ℕ} (hlow : low < 2 ^ k) (hmid : mid < 2 ^ n) (hv : v < 2 ^ n)
    (hw : 2 ^ k * (2 ^ n * high + mid) + low < 2 ^ w) (hnw : k + n ≤ w) :
    v <<< k ||| (2 ^ k * (2 ^ n * high + mid) + low) &&& (2 ^ w - 1 - (2 ^ n - 1) <<< k) =
      2 ^ k * (2 ^ n * high + v) + low := by
  have hmask : (2 ^ n - 1) <<< k < 2 ^ w := by
    rw [Nat.shiftLeft_eq]
    calc (2 ^ n - 1) * 2 ^ k < 2 ^ n * 2 ^ k :=
          Nat.mul_lt_mul_of_pos_right (Nat.sub_lt (Nat.two_pow_pos n) Nat.one_pos) (Nat.two_pow_pos k)
      _ = 2 ^ (k + n) := by rw [Nat.pow_add, Nat.mul_comm]
      _ ≤ 2 ^ w := Nat.pow_le_pow_right (by decide) hnw
  have hbelow : ∀ i, (2 ^ k * (2 ^ n * high + mid) + low).testBit i = true → i < w := by
    intro i hi
    by_contra hge
    rw [Nat.testBit_lt_two_pow (hw.trans_le (Nat.pow_le_pow_right (by decide) (not_lt.mp hge)))] at hi
    cases hi
  have hbits : ∀ i, (2 ^ w - 1 - (2 ^ n - 1) <<< k).testBit i =
      (decide (i < w) && !(decide (k ≤ i) && decide (i - k < n))) := by
    intro i
    rw [Nat.sub_sub, Nat.add_comm 1, Nat.testBit_two_pow_sub_succ hmask, Nat.testBit_shiftLeft,
      Nat.testBit_two_pow_sub_one]
  apply Nat.eq_of_testBit_eq
  intro i
  have hi := hbelow i
  rw [Nat.testBit_two_pow_mul_add _ hlow] at hi
  rw [Nat.testBit_or, Nat.testBit_and, hbits, Nat.testBit_shiftLeft, Nat.testBit_two_pow_mul_add _ hlow,
    Nat.testBit_two_pow_mul_add _ hlow]
  by_cases hik : i < k
  · have hwi : i < w := by omega
    simp [hik, hwi, show ¬ k ≤ i by omega]
  · rw [if_neg hik, Nat.testBit_two_pow_mul_add _ hmid] at hi
    rw [if_neg hik, if_neg hik, Nat.testBit_two_pow_mul_add _ hmid, Nat.testBit_two_pow_mul_add _ hv]
    by_cases hin : i - k < n
    · simp [hin, show k ≤ i by omega]
    · have hvbit : v.testBit (i - k) = false :=
        Nat.testBit_lt_two_pow (hv.trans_le (Nat.pow_le_pow_right (by decide) (not_lt.mp hin)))
      rw [if_neg hin] at hi
      rw [if_neg hin, if_neg hin, hvbit]
      cases hhigh : high.testBit (i - k - n) with
      | false => simp
      | true => simp [hi hhigh, hin]

end Fields

end WhiteRabbit.MemoryWords
