import WhiteRabbit.BusOperations
import WhiteRabbit.BigEndianWords

/-!
# The records of an SDB table

A table is an interconnect record and further records of 64 bytes each, which are told apart by
their last byte. Numbers are big endian. Addresses are relative to the bus of the table, and
are made absolute when a table is decoded.
-/

namespace WhiteRabbit.Etherbone
open BigEndian

def sdbMagic : ℕ := 0x5344422D

def sdbRecordInterconnect : UInt8 := 0x00
def sdbRecordDevice : UInt8 := 0x01
def sdbRecordBridge : UInt8 := 0x02
def sdbRecordIntegration : UInt8 := 0x80

def sdbWishbone : ℕ := 0x00

structure SdbProduct where
  vendorId : ℕ
  deviceId : ℕ
  version : ℕ
  date : ℕ
  name : Bytes
  recordType : UInt8
  deriving DecidableEq

structure SdbComponent where
  addrFirst : ℕ
  addrLast : ℕ
  product : SdbProduct
  deriving DecidableEq

structure SdbInterconnect where
  sdbMagic : ℕ
  sdbRecords : ℕ
  sdbVersion : ℕ
  sdbBusType : ℕ
  sdbComponent : SdbComponent
  deriving DecidableEq

structure SdbDevice where
  abiClass : ℕ
  abiVerMajor : ℕ
  abiVerMinor : ℕ
  busSpecific : ℕ
  sdbComponent : SdbComponent
  deriving DecidableEq

structure SdbBridge where
  sdbChild : ℕ
  sdbComponent : SdbComponent
  deriving DecidableEq

structure SdbIntegration where
  reserved : Bytes
  product : SdbProduct
  deriving DecidableEq

/-- The union of the record structures. Records of other types are not decoded. -/
inductive SdbRecord where
  | device (r : SdbDevice)
  | bridge (r : SdbBridge)
  | integration (r : SdbIntegration)
  | other (bytes : Bytes)
  deriving DecidableEq

structure SdbTable where
  interconnect : SdbInterconnect
  record : List SdbRecord
  deriving DecidableEq

section Layout

def SdbProduct.bytes (x : SdbProduct) : Bytes :=
  encode 8 x.vendorId ++ (encode 4 x.deviceId ++ (encode 4 x.version ++ (encode 4 x.date ++
    (x.name ++ [x.recordType]))))

def SdbComponent.bytes (x : SdbComponent) : Bytes :=
  encode 8 x.addrFirst ++ (encode 8 x.addrLast ++ x.product.bytes)

def SdbInterconnect.bytes (x : SdbInterconnect) : Bytes :=
  encode 4 x.sdbMagic ++ (encode 2 x.sdbRecords ++ (encode 1 x.sdbVersion ++ (encode 1 x.sdbBusType ++
    x.sdbComponent.bytes)))

def SdbDevice.bytes (x : SdbDevice) : Bytes :=
  encode 2 x.abiClass ++ (encode 1 x.abiVerMajor ++ (encode 1 x.abiVerMinor ++ (encode 4 x.busSpecific ++
    x.sdbComponent.bytes)))

/-- The number in `n` bytes of a record. -/
def field (record : Bytes) (offset n : ℕ) : ℕ := decode ((record.drop offset).take n)

/-- `eb_sdb_product_decode` on the 40 bytes of a product. -/
def ebSdbProductDecode (product : Bytes) : SdbProduct where
  vendorId := field product 0 8
  deviceId := field product 8 4
  version := field product 12 4
  date := field product 16 4
  name := (product.drop 20).take 19
  recordType := product.getD 39 0

/-- `eb_sdb_component_decode` on the 56 bytes of a component. -/
def ebSdbComponentDecode (busBase : ℕ) (component : Bytes) : SdbComponent where
  addrFirst := (field component 0 8 + busBase) % 2 ^ 64
  addrLast := (field component 8 8 + busBase) % 2 ^ 64
  product := ebSdbProductDecode (component.drop 16)

/-- Bus endian fixup of the interconnect record. -/
def decodeInterconnect (busBase : ℕ) (record : Bytes) : SdbInterconnect where
  sdbMagic := field record 0 4
  sdbRecords := field record 4 2
  sdbVersion := field record 6 1
  sdbBusType := field record 7 1
  sdbComponent := ebSdbComponentDecode busBase (record.drop 8)

/-- One turn of the loop over the descriptor blocks. -/
def decodeRecord (busBase : ℕ) (record : Bytes) : SdbRecord :=
  let recordType := record.getD 63 0
  if recordType = sdbRecordDevice then
    .device
      { abiClass := field record 0 2
        abiVerMajor := field record 2 1
        abiVerMinor := field record 3 1
        busSpecific := field record 4 4
        sdbComponent := ebSdbComponentDecode busBase (record.drop 8) }
  else if recordType = sdbRecordBridge then
    .bridge
      { sdbChild := (field record 0 8 + busBase) % 2 ^ 64
        sdbComponent := ebSdbComponentDecode busBase (record.drop 8) }
  else if recordType = sdbRecordIntegration then
    .integration
      { reserved := record.take 24
        product := ebSdbProductDecode (record.drop 24) }
  else .other record

end Layout

/-- What fits the fields of a product. -/
structure SdbProduct.Valid (x : SdbProduct) : Prop where
  vendorId : x.vendorId < 256 ^ 8
  deviceId : x.deviceId < 256 ^ 4
  version : x.version < 256 ^ 4
  date : x.date < 256 ^ 4
  name : x.name.length = 19

structure SdbComponent.Valid (x : SdbComponent) : Prop where
  addrFirst : x.addrFirst < 256 ^ 8
  addrLast : x.addrLast < 256 ^ 8
  product : x.product.Valid

structure SdbDevice.Valid (x : SdbDevice) : Prop where
  abiClass : x.abiClass < 256 ^ 2
  abiVerMajor : x.abiVerMajor < 256 ^ 1
  abiVerMinor : x.abiVerMinor < 256 ^ 1
  busSpecific : x.busSpecific < 256 ^ 4
  sdbComponent : x.sdbComponent.Valid

structure SdbInterconnect.Valid (x : SdbInterconnect) : Prop where
  sdbMagic : x.sdbMagic < 256 ^ 4
  sdbRecords : x.sdbRecords < 256 ^ 2
  sdbVersion : x.sdbVersion < 256 ^ 1
  sdbBusType : x.sdbBusType < 256 ^ 1
  sdbComponent : x.sdbComponent.Valid

section RoundTrip

variable {n v offset : ℕ} {bs rest : Bytes}

/-- The first field of a record. -/
@[simp] theorem field_encode (h : v < 256 ^ n) : field (encode n v ++ rest) 0 n = v := by
  have htake : (encode n v ++ rest).take n = encode n v := List.take_left' (length_encode n v)
  rw [field, List.drop_zero, htake, decode_encode_of_lt h]

/-- A field behind another one. -/
theorem field_skip (h : bs.length ≤ offset) : field (bs ++ rest) offset n = field rest (offset - bs.length) n := by
  rw [field, List.drop_append, List.drop_eq_nil_of_le h, List.nil_append, field]

theorem field_behind (h : n ≤ offset) (m : ℕ) :
    field (encode n v ++ rest) offset m = field rest (offset - n) m := by
  have hlength := length_encode n v
  rw [field_skip (by rw [hlength]; exact h), hlength]

theorem drop_behind (h : n ≤ offset) : (encode n v ++ rest).drop offset = rest.drop (offset - n) := by
  have hlength := length_encode n v
  rw [List.drop_append, List.drop_eq_nil_of_le (by rw [hlength]; exact h), List.nil_append, hlength]

theorem SdbProduct.length_bytes {x : SdbProduct} (h : x.Valid) : x.bytes.length = 40 := by
  simp [bytes, h.name]

theorem SdbComponent.length_bytes {x : SdbComponent} (h : x.Valid) : x.bytes.length = 56 := by
  simp [bytes, SdbProduct.length_bytes h.product]

theorem SdbDevice.length_bytes {x : SdbDevice} (h : x.Valid) : x.bytes.length = 64 := by
  simp [bytes, SdbComponent.length_bytes h.sdbComponent]

theorem SdbInterconnect.length_bytes {x : SdbInterconnect} (h : x.Valid) : x.bytes.length = 64 := by
  simp [bytes, SdbComponent.length_bytes h.sdbComponent]

theorem ebSdbProductDecode_bytes {x : SdbProduct} (h : x.Valid) : ebSdbProductDecode x.bytes = x := by
  have hname := h.name
  have hdrop : x.bytes.drop 20 = x.name ++ [x.recordType] := by
    rw [SdbProduct.bytes, drop_behind (by decide), drop_behind (by decide), drop_behind (by decide),
      drop_behind (by decide)]
    rfl
  have hlast : x.bytes.getD 39 0 = x.recordType := by
    have : x.bytes[39]? = (x.bytes.drop 20)[19]? := by rw [List.getElem?_drop]
    rw [List.getD_eq_getElem?_getD, this, hdrop, List.getElem?_append_right (Nat.le_of_eq hname), hname]
    rfl
  rw [ebSdbProductDecode, hdrop, List.take_left' hname, hlast, SdbProduct.bytes, field_encode h.vendorId,
    field_behind (by decide), field_encode h.deviceId, field_behind (by decide), field_behind (by decide),
    field_encode h.version, field_behind (by decide), field_behind (by decide), field_behind (by decide),
    field_encode h.date]

theorem ebSdbComponentDecode_bytes {x : SdbComponent} (h : x.Valid) :
    ebSdbComponentDecode 0 x.bytes = x := by
  have h64 : 256 ^ 8 = 2 ^ 64 := by norm_num
  rw [ebSdbComponentDecode, SdbComponent.bytes, field_encode h.addrFirst, field_behind (by decide),
    field_encode h.addrLast, drop_behind (by decide), drop_behind (by decide), Nat.add_zero, Nat.add_zero,
    Nat.mod_eq_of_lt (h64 ▸ h.addrFirst), Nat.mod_eq_of_lt (h64 ▸ h.addrLast)]
  exact congrArg (SdbComponent.mk x.addrFirst x.addrLast) (ebSdbProductDecode_bytes h.product)

/-- The last byte of a record is its type. -/
theorem getD_component {x : SdbComponent} (h : x.Valid) : x.bytes.getD 55 0 = x.product.recordType := by
  have hdrop : x.bytes.drop 36 = x.product.name ++ [x.product.recordType] := by
    rw [SdbComponent.bytes, SdbProduct.bytes, drop_behind (by decide), drop_behind (by decide),
      drop_behind (by decide), drop_behind (by decide), drop_behind (by decide), drop_behind (by decide)]
    rfl
  have hlast : x.bytes[55]? = (x.bytes.drop 36)[19]? := by rw [List.getElem?_drop]
  have hname := h.product.name
  rw [List.getD_eq_getElem?_getD, hlast, hdrop, List.getElem?_append_right (Nat.le_of_eq hname), hname]
  rfl

theorem decodeInterconnect_bytes {x : SdbInterconnect} (h : x.Valid) : decodeInterconnect 0 x.bytes = x := by
  rw [decodeInterconnect, SdbInterconnect.bytes, field_encode h.sdbMagic, field_behind (by decide),
    field_encode h.sdbRecords, field_behind (by decide), field_behind (by decide),
    field_encode h.sdbVersion, field_behind (by decide), field_behind (by decide), field_behind (by decide),
    field_encode h.sdbBusType, drop_behind (by decide), drop_behind (by decide), drop_behind (by decide),
    drop_behind (by decide)]
  exact congrArg (SdbInterconnect.mk x.sdbMagic x.sdbRecords x.sdbVersion x.sdbBusType)
    (ebSdbComponentDecode_bytes h.sdbComponent)

theorem decodeRecord_device {x : SdbDevice} (h : x.Valid)
    (htype : x.sdbComponent.product.recordType = sdbRecordDevice) : decodeRecord 0 x.bytes = .device x := by
  have hlast : x.bytes.getD 63 0 = sdbRecordDevice := by
    have hdrop : x.bytes.drop 8 = x.sdbComponent.bytes := by
      rw [SdbDevice.bytes, drop_behind (by decide), drop_behind (by decide), drop_behind (by decide),
        drop_behind (by decide)]
      rfl
    have hindex : x.bytes[63]? = (x.bytes.drop 8)[55]? := by rw [List.getElem?_drop]
    rw [List.getD_eq_getElem?_getD, hindex, hdrop, ← List.getD_eq_getElem?_getD,
      getD_component h.sdbComponent, htype]
  rw [decodeRecord, if_pos hlast, SdbDevice.bytes, field_encode h.abiClass, field_behind (by decide),
    field_encode h.abiVerMajor, field_behind (by decide), field_behind (by decide),
    field_encode h.abiVerMinor, field_behind (by decide), field_behind (by decide), field_behind (by decide),
    field_encode h.busSpecific, drop_behind (by decide), drop_behind (by decide), drop_behind (by decide),
    drop_behind (by decide)]
  have hcomponent := ebSdbComponentDecode_bytes h.sdbComponent
  exact congrArg (fun c => SdbRecord.device ⟨x.abiClass, x.abiVerMajor, x.abiVerMinor, x.busSpecific, c⟩) hcomponent

end RoundTrip

end WhiteRabbit.Etherbone
