import WhiteRabbit.AccessLogs

/-!
# The strings of a mezzanine

The EEPROM of a mezzanine begins with a header that tells where the board area is. The area has a
length, and strings that each tell how long they are.
-/

namespace WhiteRabbit.Fmc

open AccessLogs

/-- The EEPROM in memory. Behind its length there is something else. -/
structure EepromImage where
  len : ℕ
  byte : ℕ → UInt8

abbrev Reading (α : Type) := Logged ℕ α

namespace EepromImage

variable (img : EepromImage)

def read (addr : ℕ) : Reading UInt8 := Logged.read img.byte addr

/-- The loop of a checksum, with a bound that is read each time. -/
def sumLoop (bound : Reading ℕ) (ptr : ℕ) : ℕ → ℕ → ℕ → Reading ℕ
  | 0, _, sum => pure sum
  | fuel + 1, i, sum => do
    let n ← bound
    if i < n then
      let b ← img.read (ptr + i)
      sumLoop bound ptr fuel (i + 1) (sum + b.toNat)
    else pure sum

/-- The header has eight bytes. -/
def fruHeaderCksumOk (header : ℕ) : Reading Bool := do
  let sum ← img.sumLoop (pure 8) header 9 0 0
  return sum &&& 0xff = 0

/-- The area has at most 8 * 255 bytes. -/
def fruBiaCksumOk (bia : ℕ) : Reading Bool := do
  let bound : Reading ℕ := do
    let areaLen ← img.read (bia + 1)
    return 8 * areaLen.toNat
  let sum ← img.sumLoop bound bia (8 * 255 + 1) 0 0
  return sum &&& 0xff = 0

def fruGetBoardArea (header : ℕ) : Reading ℕ := do
  let boardAreaOff ← img.read (header + 3)
  return header + 8 * boardAreaOff.toNat

def fruLength (tl : ℕ) : Reading ℕ := do
  let typeLength ← img.read tl
  return (typeLength &&& 0x3f).toNat + 1

def fruStrlen (tl : ℕ) : Reading ℕ := do
  let length ← img.fruLength tl
  return length - 1

def memcpy (src : ℕ) : ℕ → Reading (List UInt8)
  | 0 => pure []
  | n + 1 => do
    let b ← img.read src
    let rest ← memcpy (src + 1) n
    return b :: rest

def fruStrcpy (tl : ℕ) : Reading (List UInt8) := do
  let len ← img.fruStrlen tl
  let data ← img.memcpy (tl + 1) len
  return data ++ [0]

def fruNextTl (tl : ℕ) : Reading ℕ := do
  let length ← img.fruLength tl
  return tl + length

def fruIsEof (tl : ℕ) : Reading Bool := do
  let typeLength ← img.read tl
  return typeLength = 0xc1

/-- The loop of `__fru_get_board_tl`. -/
def walkTl : ℕ → ℕ → Reading ℕ
  | 0, tl => pure tl
  | nr + 1, tl => do
    let eof ← img.fruIsEof tl
    if eof then pure tl
    else
      let next ← img.fruNextTl tl
      walkTl nr next

/-- `__fru_get_board_tl`. -/
def fruGetBoardTl (header nr : ℕ) : Reading (Option ℕ) := do
  let bia ← img.fruGetBoardArea header
  let tl ← img.walkTl nr (bia + 6)
  let eof ← img.fruIsEof tl
  return if eof then none else some tl

/-- `__fru_alloc_get_tl`. `fruAlloc` tells whether there is memory of a size. -/
def fruAllocGetTl (fruAlloc : ℕ → Bool) (header nr : ℕ) : Reading (Option (List UInt8)) := do
  let tl ← img.fruGetBoardTl header nr
  match tl with
  | none => return none
  | some tl =>
    let _ ← img.fruStrlen tl
    let size ← img.fruStrlen tl
    if fruAlloc (size + 1) then
      let res ← img.fruStrcpy tl
      return some res
    else return none

def fruGetBoardManufacturer (fruAlloc : ℕ → Bool) (header : ℕ) : Reading (Option (List UInt8)) :=
  img.fruAllocGetTl fruAlloc header 0

def fruGetProductName (fruAlloc : ℕ → Bool) (header : ℕ) : Reading (Option (List UInt8)) :=
  img.fruAllocGetTl fruAlloc header 1

/-- What `fmc_fill_id_info` learns from an EEPROM: manufacturer and product name. -/
def fmcFillIdInfo (fruAlloc : ℕ → Bool) : Reading (Option (Option (List UInt8) × Option (List UInt8))) := do
  let format ← img.read 0
  if format ≠ 1 then return none
  else
    let headerOk ← img.fruHeaderCksumOk 0
    if !headerOk then return none
    else
      let bia ← img.fruGetBoardArea 0
      let biaOk ← img.fruBiaCksumOk bia
      if !biaOk then return none
      else
        let manufacturer ← img.fruGetBoardManufacturer fruAlloc 0
        let productName ← img.fruGetProductName fruAlloc 0
        return some (manufacturer, productName)

/-- The header and the board area pass the checks of `fmc_fill_id_info`. -/
structure Passes : Prop where
  format : img.byte 0 = 1
  header : (img.fruHeaderCksumOk 0).value = true
  area : (img.fruBiaCksumOk (img.fruGetBoardArea 0).value).value = true

/-- Where the board area is. -/
def areaOff : ℕ := 8 * (img.byte 3).toNat

/-- The length of the board area in bytes. -/
def areaLen : ℕ := 8 * (img.byte (img.areaOff + 1)).toNat

def InArea (addr : ℕ) : Prop := img.areaOff ≤ addr ∧ addr < img.areaOff + img.areaLen ∧ addr < img.len

/-- The length of the data of the field at `tl`. -/
def dataLength (tl : ℕ) : ℕ := (img.byte tl &&& 0x3f).toNat

def data (tl : ℕ) : List UInt8 := (List.range' (tl + 1) (img.dataLength tl)).map img.byte

def firstTl : ℕ := img.areaOff + 6

def secondTl : ℕ := img.firstTl + (img.dataLength img.firstTl + 1)

/-- The data of a field as a string, if there is memory for it. -/
def string (fruAlloc : ℕ → Bool) (tl : ℕ) : Option (List UInt8) :=
  if fruAlloc (img.dataLength tl + 1) then some (img.data tl ++ [0]) else none

/-- The checksum and the strings are taken from the board area, where the header says that it is, and the
strings are the data of the first two fields before the terminator. An image that passes the checks is asked
for both. -/
structure FruExact : Prop where
  cksum : (img.fruBiaCksumOk img.areaOff).Within img.InArea
  manufacturerReads : ∀ fruAlloc,
    (img.fruGetBoardManufacturer fruAlloc 0).Within fun addr => addr = 3 ∨ img.InArea addr
  productReads : ∀ fruAlloc,
    (img.fruGetProductName fruAlloc 0).Within fun addr => addr = 3 ∨ img.InArea addr
  manufacturer : ∀ fruAlloc, (img.fruGetBoardManufacturer fruAlloc 0).value =
    if img.byte img.firstTl = 0xc1 then none else img.string fruAlloc img.firstTl
  productName : ∀ fruAlloc, (img.fruGetProductName fruAlloc 0).value =
    if img.byte img.firstTl = 0xc1 ∨ img.byte img.secondTl = 0xc1 then none
    else img.string fruAlloc img.secondTl
  info : img.Passes → ∀ fruAlloc, (img.fmcFillIdInfo fruAlloc).value =
    some ((img.fruGetBoardManufacturer fruAlloc 0).value, (img.fruGetProductName fruAlloc 0).value)

/-- The board area is not empty and is in the image, and the two fields before the terminator are in the
area. -/
structure FieldsInside : Prop where
  nonempty : 0 < img.areaLen
  inImage : img.areaOff + img.areaLen ≤ img.len
  fields : img.byte img.firstTl = 0xc1 ∨ img.secondTl < img.areaOff + img.areaLen ∧
    (img.byte img.secondTl = 0xc1 ∨ img.secondTl + 1 + img.dataLength img.secondTl ≤ img.areaOff + img.areaLen)

section Reads

variable {img} {S : ℕ → Prop} {bound : Reading ℕ} {fruAlloc : ℕ → Bool} {header nr tl src n : ℕ}

@[simp] theorem value_read {addr : ℕ} : (img.read addr).value = img.byte addr := rfl

@[simp] theorem within_read {addr : ℕ} : (img.read addr).Within S ↔ S addr := Logged.within_read

/-- A checksum reads its bound, and the bytes before the bound. -/
theorem sumLoop_within {ptr fuel i sum : ℕ} (hle : i ≤ bound.value) (hfuel : bound.value < i + fuel) :
    (img.sumLoop bound ptr fuel i sum).Within S ↔
      bound.Within S ∧ ∀ k, i ≤ k → k < bound.value → S (ptr + k) := by
  induction fuel generalizing i sum with
  | zero => omega
  | succ fuel ih =>
    rw [sumLoop, Logged.within_bind]
    by_cases hlt : i < bound.value
    · rw [if_pos hlt, Logged.within_bind, within_read, ih hlt (by omega)]
      constructor
      · rintro ⟨hbound, hfirst, -, hrest⟩
        refine ⟨hbound, fun k hik hk => ?_⟩
        obtain rfl | hik := Nat.eq_or_lt_of_le hik
        · exact hfirst
        · exact hrest k hik hk
      · rintro ⟨hbound, hall⟩
        exact ⟨hbound, hall i (Nat.le_refl i) hlt, hbound, fun k hik hk => hall k (Nat.le_of_succ_le hik) hk⟩
    · rw [if_neg hlt]
      have hnone : ∀ k, i ≤ k → k < bound.value → S (ptr + k) :=
        fun k hik hk => absurd (Nat.lt_of_le_of_lt hik hk) hlt
      simp only [Logged.within_pure, and_true]
      exact ⟨fun hbound => ⟨hbound, hnone⟩, And.left⟩

theorem memcpy_value : (img.memcpy src n).value = (List.range' src n).map img.byte := by
  induction n generalizing src with
  | zero => rfl
  | succ n ih =>
    rw [memcpy, List.range'_succ, List.map_cons, ← ih]
    rfl

theorem memcpy_within : (img.memcpy src n).Within S ↔ ∀ k < n, S (src + k) := by
  induction n generalizing src with
  | zero => simp [memcpy]
  | succ n ih =>
    simp only [memcpy, Logged.within_bind, within_read, ih, Logged.within_pure, and_true]
    rw [Nat.forall_lt_succ_left]
    simp only [Nat.add_zero, Nat.add_assoc, Nat.add_comm 1]

theorem fruIsEof_value : (img.fruIsEof tl).value = decide (img.byte tl = 0xc1) := rfl

theorem fruIsEof_within : (img.fruIsEof tl).Within S ↔ S tl := by simp [fruIsEof]

theorem fruStrlen_value : (img.fruStrlen tl).value = img.dataLength tl := rfl

theorem fruStrlen_within : (img.fruStrlen tl).Within S ↔ S tl := by simp [fruStrlen, fruLength]

theorem fruNextTl_within : (img.fruNextTl tl).Within S ↔ S tl := by simp [fruNextTl, fruLength]

theorem fruStrcpy_value : (img.fruStrcpy tl).value = img.data tl ++ [0] := by
  simp only [fruStrcpy, Logged.value_bind, memcpy_value, Logged.value_pure, fruStrlen_value, data]

theorem fruStrcpy_within : (img.fruStrcpy tl).Within S ↔ S tl ∧ ∀ k < img.dataLength tl, S (tl + 1 + k) := by
  simp only [fruStrcpy, Logged.within_bind, memcpy_within, Logged.within_pure, fruStrlen_within,
    fruStrlen_value, and_true]

theorem fruGetBoardArea_value : (img.fruGetBoardArea 0).value = img.areaOff := Nat.zero_add _

theorem fruGetBoardArea_within : (img.fruGetBoardArea 0).Within S ↔ S 3 := by simp [fruGetBoardArea]

theorem walkTl_zero : img.walkTl 0 tl = pure tl := rfl

/-- One turn of the walk, from a field that is not the terminator. -/
theorem walkTl_one_value : (img.walkTl 1 tl).value =
    if img.byte tl = 0xc1 then tl else tl + (img.dataLength tl + 1) := by
  rw [walkTl, Logged.value_bind, fruIsEof_value]
  split
  · rename_i heof
    rw [if_pos (of_decide_eq_true heof)]
    rfl
  · rename_i heof
    rw [if_neg (decide_eq_true_iff.not.mp heof)]
    rfl

theorem walkTl_one_within : (img.walkTl 1 tl).Within S ↔ S tl := by
  rw [walkTl, Logged.within_bind, fruIsEof_within]
  split
  · simp
  · simp [walkTl_zero, fruNextTl_within]

theorem fruGetBoardTl_value : (img.fruGetBoardTl 0 nr).value =
    if img.byte (img.walkTl nr img.firstTl).value = 0xc1 then none
    else some (img.walkTl nr img.firstTl).value := by
  rw [fruGetBoardTl, Logged.value_bind, fruGetBoardArea_value]
  exact if_congr decide_eq_true_iff rfl rfl

theorem fruGetBoardTl_within : (img.fruGetBoardTl 0 nr).Within S ↔
    S 3 ∧ (img.walkTl nr img.firstTl).Within S ∧ S (img.walkTl nr img.firstTl).value := by
  simp only [fruGetBoardTl, Logged.within_bind, fruGetBoardArea_within, fruGetBoardArea_value, fruIsEof_within,
    Logged.within_pure, and_true, firstTl]

theorem fruAllocGetTl_value : (img.fruAllocGetTl fruAlloc header nr).value =
    (img.fruGetBoardTl header nr).value.bind (img.string fruAlloc) := by
  rw [fruAllocGetTl, Logged.value_bind]
  cases (img.fruGetBoardTl header nr).value with
  | none => rfl
  | some tl =>
    rw [Option.bind_some, string]
    by_cases halloc : fruAlloc (img.dataLength tl + 1) = true
    · have hsize : fruAlloc ((img.fruStrlen tl).value + 1) = true := halloc
      simp only [Logged.value_bind, if_pos hsize, if_pos halloc, fruStrcpy_value, Logged.value_pure]
    · have hsize : ¬ fruAlloc ((img.fruStrlen tl).value + 1) = true := halloc
      simp only [Logged.value_bind, if_neg hsize, if_neg halloc, Logged.value_pure]

theorem fruAllocGetTl_within : (img.fruAllocGetTl fruAlloc header nr).Within S ↔
    (img.fruGetBoardTl header nr).Within S ∧ ∀ tl ∈ (img.fruGetBoardTl header nr).value,
      S tl ∧ (fruAlloc (img.dataLength tl + 1) → ∀ k < img.dataLength tl, S (tl + 1 + k)) := by
  rw [fruAllocGetTl, Logged.within_bind]
  cases (img.fruGetBoardTl header nr).value with
  | none => simp
  | some tl =>
    by_cases halloc : fruAlloc (img.dataLength tl + 1) = true
    · have hsize : fruAlloc ((img.fruStrlen tl).value + 1) = true := halloc
      simp only [Logged.within_bind, if_pos hsize, fruStrlen_within, fruStrcpy_within, Logged.within_pure,
        and_true, Option.mem_some_iff, forall_eq', halloc, true_implies, and_self_left]
    · have hsize : ¬ fruAlloc ((img.fruStrlen tl).value + 1) = true := halloc
      simp only [Logged.within_bind, if_neg hsize, fruStrlen_within, Logged.within_pure, and_true, and_self,
        Option.mem_some_iff, forall_eq', halloc, Bool.false_eq_true, false_implies]

theorem fruBiaCksumOk_within {bia : ℕ} : (img.fruBiaCksumOk bia).Within S ↔
    S (bia + 1) ∧ ∀ k < 8 * (img.byte (bia + 1)).toNat, S (bia + k) := by
  have hlt := (img.byte (bia + 1)).toNat_lt
  rw [fruBiaCksumOk, Logged.within_bind, sumLoop_within (Nat.zero_le _) (by
    simp only [Logged.value_bind, value_read, Logged.value_pure]
    omega)]
  simp

/-- A string is read from the field at which the walk ends, unless that is the terminator. -/
theorem fruAllocGetTl_fields : (img.fruAllocGetTl fruAlloc 0 nr).Within S ↔
    S 3 ∧ (img.walkTl nr img.firstTl).Within S ∧ S (img.walkTl nr img.firstTl).value ∧
      (img.byte (img.walkTl nr img.firstTl).value = 0xc1 ∨
        (fruAlloc (img.dataLength (img.walkTl nr img.firstTl).value + 1) →
          ∀ k < img.dataLength (img.walkTl nr img.firstTl).value,
            S ((img.walkTl nr img.firstTl).value + 1 + k))) := by
  rw [fruAllocGetTl_within, fruGetBoardTl_within, fruGetBoardTl_value]
  by_cases heof : img.byte (img.walkTl nr img.firstTl).value = 0xc1
  · simp [heof]
  · rw [if_neg heof]
    simp only [heof, Option.mem_some_iff, forall_eq', false_or, and_assoc, and_self_left]

theorem manufacturer_within : (img.fruGetBoardManufacturer fruAlloc 0).Within S ↔
    S 3 ∧ S img.firstTl ∧ (img.byte img.firstTl = 0xc1 ∨
      (fruAlloc (img.dataLength img.firstTl + 1) →
        ∀ k < img.dataLength img.firstTl, S (img.firstTl + 1 + k))) := by
  rw [fruGetBoardManufacturer, fruAllocGetTl_fields, walkTl_zero]
  simp

theorem product_within : (img.fruGetProductName fruAlloc 0).Within S ↔
    S 3 ∧ S img.firstTl ∧ (img.byte img.firstTl = 0xc1 ∨ S img.secondTl ∧ (img.byte img.secondTl = 0xc1 ∨
      (fruAlloc (img.dataLength img.secondTl + 1) →
        ∀ k < img.dataLength img.secondTl, S (img.secondTl + 1 + k)))) := by
  rw [fruGetProductName, fruAllocGetTl_fields, walkTl_one_within, walkTl_one_value]
  by_cases heof : img.byte img.firstTl = 0xc1
  · simp [heof]
  · rw [if_neg heof]
    simp only [heof, false_or, secondTl]

theorem manufacturer_value : (img.fruGetBoardManufacturer fruAlloc 0).value =
    if img.byte img.firstTl = 0xc1 then none else img.string fruAlloc img.firstTl := by
  rw [fruGetBoardManufacturer, fruAllocGetTl_value, fruGetBoardTl_value, walkTl_zero, Logged.value_pure]
  split <;> rfl

theorem product_value : (img.fruGetProductName fruAlloc 0).value =
    if img.byte img.firstTl = 0xc1 ∨ img.byte img.secondTl = 0xc1 then none
    else img.string fruAlloc img.secondTl := by
  rw [fruGetProductName, fruAllocGetTl_value, fruGetBoardTl_value, walkTl_one_value]
  by_cases heof : img.byte img.firstTl = 0xc1
  · simp [heof]
  · rw [if_neg heof]
    simp only [heof, false_or, secondTl]
    split <;> rfl

theorem FieldsInside.inArea (h : img.FieldsInside) {addr : ℕ} (hle : img.areaOff ≤ addr)
    (hlt : addr < img.areaOff + img.areaLen) : img.InArea addr :=
  ⟨hle, hlt, Nat.lt_of_lt_of_le hlt h.inImage⟩

theorem FieldsInside.firstTl (h : img.FieldsInside) : img.InArea img.firstTl := by
  have hnonempty := h.nonempty
  refine h.inArea (Nat.le_add_right _ _) ?_
  rw [areaLen] at hnonempty ⊢
  rw [EepromImage.firstTl]
  omega

theorem Passes.fmcFillIdInfo_value (h : img.Passes) : (img.fmcFillIdInfo fruAlloc).value =
    some ((img.fruGetBoardManufacturer fruAlloc 0).value, (img.fruGetProductName fruAlloc 0).value) := by
  simp only [fmcFillIdInfo, Logged.value_bind, value_read, h.format, h.header, h.area, ne_eq, not_true_eq_false,
    if_false, Bool.not_true, Bool.false_eq_true, Logged.value_pure]

end Reads

/-- The strings are taken from the board area if and only if the area and the two fields are where they
should be. The image is any one, also one that does not pass the checks. -/
theorem fru_exact_iff (img : EepromImage) : img.FruExact ↔ img.FieldsInside := by
  have hfirst : 6 ≤ img.firstTl := Nat.le_add_left _ _
  have hsecond : img.firstTl + 1 ≤ img.secondTl := by
    rw [secondTl]
    omega
  constructor
  · intro h
    obtain ⟨hlen, harea⟩ := fruBiaCksumOk_within.mp h.cksum
    have hnonempty : 0 < img.areaLen := by
      have hlt := hlen.2.1
      omega
    have hinImage : img.areaOff + img.areaLen ≤ img.len := by
      have hlast := (harea (img.areaLen - 1) (by rw [areaLen] at hnonempty ⊢; omega)).2.2
      omega
    refine ⟨hnonempty, hinImage, ?_⟩
    obtain ⟨-, -, hfields⟩ := product_within.mp (h.productReads fun _ => true)
    obtain heof | ⟨hstart, hdata⟩ := hfields
    · exact Or.inl heof
    · have hstart' := (hstart.resolve_left (by omega)).2.1
      refine Or.inr ⟨hstart', hdata.imp_right fun hall => ?_⟩
      by_cases hempty : img.dataLength img.secondTl = 0
      · omega
      · have hlast := ((hall rfl (img.dataLength img.secondTl - 1) (by omega)).resolve_left (by omega)).2.1
        omega
  · intro h
    have hwithin : img.InArea img.firstTl := h.firstTl
    refine ⟨fruBiaCksumOk_within.mpr ?_, fun fruAlloc => manufacturer_within.mpr ?_,
      fun fruAlloc => product_within.mpr ?_, fun fruAlloc => manufacturer_value, fun fruAlloc => product_value,
      fun hpasses fruAlloc => hpasses.fmcFillIdInfo_value⟩
    · have hnonempty := h.nonempty
      refine ⟨h.inArea (Nat.le_succ _) ?_,
        fun k hk => h.inArea (Nat.le_add_right _ _) (Nat.add_lt_add_left hk _)⟩
      rw [areaLen] at hnonempty ⊢
      omega
    · refine ⟨Or.inl rfl, Or.inr hwithin, h.fields.imp_right fun hrest _ k hk => Or.inr ?_⟩
      have hlt := hrest.1
      have hle := hwithin.1
      rw [secondTl] at hlt
      exact h.inArea (by omega) (by omega)
    · refine ⟨Or.inl rfl, Or.inr hwithin, h.fields.imp_right fun hrest => ⟨Or.inr ?_, ?_⟩⟩
      · have hle := hwithin.1
        exact h.inArea (by omega) hrest.1
      · refine hrest.2.imp_right fun hlt _ k hk => Or.inr ?_
        have hle := hwithin.1
        exact h.inArea (by omega) (by omega)

/-- The board area has eight bytes, and its first field claims 63 bytes of data. -/
def longField : EepromImage where
  len := 16
  byte := fun i => [1, 0, 0, 1, 0, 0, 0, 254, 1, 1, 0, 0, 0, 0, 255, 255].getD i 0

theorem longField_passes : longField.Passes := ⟨by decide, by decide, by decide +kernel⟩

/-- The name of the manufacturer is read from behind the image. -/
theorem long_field : longField.Passes ∧ ¬ longField.FruExact := by
  refine ⟨longField_passes, fun h => ?_⟩
  obtain ⟨-, -, hdata⟩ := manufacturer_within.mp (h.manufacturerReads fun _ => true)
  have hbehind := hdata.resolve_left (by decide) rfl 1 (by decide)
  exact absurd (hbehind.resolve_left (by decide)).2.2 (by decide)

end EepromImage

end WhiteRabbit.Fmc
