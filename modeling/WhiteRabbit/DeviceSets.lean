import Mathlib.Algebra.Ring.Int.Defs
import Mathlib.Data.List.Basic
import Mathlib.Data.List.Nodup

/-!
# Registration of device sets

A carrier registers all its devices at once: they share an array of their addresses. When one of them
fails, the earlier ones are undone, last one first.
-/

namespace WhiteRabbit.Fmc

/-- Strings found in the eeprom, by their addresses; the address 0 is NULL. -/
structure IdInfo where
  mezzanineName : ℕ
  manufacturer : ℕ
  productName : ℕ

/-- What the registration reads and writes of a device. -/
structure FmcDevice where
  version : ℕ
  flags : ℕ
  hwdev : ℕ
  eeprom : ℕ
  eepromAddr : ℕ
  carrierName : ℕ
  carrierData : ℕ
  deviceId : ℕ
  id : IdInfo
  nrSlots : ℕ
  devarray : ℕ

def fmcMajor : ℕ := 3
def fmcDeviceNoMezzanine : ℕ := 4

/-- The devices, what the kernel holds of them, and the arrays with their addresses. What is freed or put is
counted. -/
structure Registry (δ : Type*) where
  dev : δ → FmcDevice
  added : δ → Bool
  file : δ → Bool
  inits : δ → ℕ
  puts : δ → ℕ
  idFreed : δ → List IdInfo
  nextArray : ℕ
  arrays : ℕ → List δ
  arrayFrees : ℕ → ℕ

/-- How the calls go that may fail; `idInfo` is what is found for the device, if anything is. -/
structure RegisterOutcome where
  kmemdup : Bool
  idInfo : ℕ → Option IdInfo
  deviceAdd : ℕ → ℤ
  sysfsCreateBinFile : ℕ → ℤ

namespace RegisterOutcome

variable {out : RegisterOutcome} {i j : ℕ}

/-- What the two calls for the device with index `i` return: the first error, if there is one. -/
def error (out : RegisterOutcome) (i : ℕ) : ℤ :=
  if out.deviceAdd i < 0 then out.deviceAdd i
  else if out.sysfsCreateBinFile i < 0 then out.sysfsCreateBinFile i
  else 0

/-- The device with index `i` is the first one that fails. -/
def FailsAt (out : RegisterOutcome) (i : ℕ) : Prop := (∀ j < i, out.error j = 0) ∧ out.error i ≠ 0

theorem error_deviceAdd (h : out.deviceAdd i < 0) : out.error i = out.deviceAdd i := if_pos h

theorem error_file (hadd : ¬ out.deviceAdd i < 0) (h : out.sysfsCreateBinFile i < 0) :
    out.error i = out.sysfsCreateBinFile i := by
  rw [error, if_neg hadd, if_pos h]

theorem FailsAt.unique (hi : out.FailsAt i) (hj : out.FailsAt j) : i = j := by
  rcases Nat.lt_trichotomy i j with hlt | heq | hgt
  · exact absurd (hj.1 i hlt) hi.2
  · exact heq
  · exact absurd (hi.1 j hgt) hj.2

end RegisterOutcome

namespace Registry

variable {δ : Type*} [DecidableEq δ]

def enomem : ℤ := -12
def einval : ℤ := -22

def fmcCheckVersion (version : ℕ) : ℤ := if version >>> 16 ≠ fmcMajor then einval else 0

/-- One round of the check of all devices. -/
def check (fmc : FmcDevice) : ℤ :=
  if fmc.hwdev = 0 then einval
  else if fmc.flags &&& fmcDeviceNoMezzanine ≠ 0 then 0
  else if fmc.eeprom = 0 then einval
  else if fmc.eepromAddr = 0 then einval
  else if fmc.carrierName = 0 ∨ fmc.carrierData = 0 ∨ fmc.deviceId = 0 then einval
  else 0

def checkAll (s : Registry δ) : List δ → ℤ
  | [] => 0
  | d :: ds => if check (s.dev d) ≠ 0 then check (s.dev d) else checkAll s ds

def deviceInitialize (s : Registry δ) (d : δ) : Registry δ :=
  { s with inits := Function.update s.inits d (s.inits d + 1) }

def setDev (s : Registry δ) (d : δ) (fmc : FmcDevice) : Registry δ := { s with dev := Function.update s.dev d fmc }

def setAdded (s : Registry δ) (d : δ) (b : Bool) : Registry δ := { s with added := Function.update s.added d b }

def setFile (s : Registry δ) (d : δ) (b : Bool) : Registry δ := { s with file := Function.update s.file d b }

def fmcFillIdInfo (s : Registry δ) (d : δ) : Option IdInfo → Registry δ
  | none => s
  | some id => s.setDev d { s.dev d with id := id }

def fmcFreeIdInfo (s : Registry δ) (d : δ) : Registry δ :=
  { s with idFreed := Function.update s.idFreed d (s.idFreed d ++ [(s.dev d).id]) }

def putDevice (s : Registry δ) (d : δ) : Registry δ := { s with puts := Function.update s.puts d (s.puts d + 1) }

def kfree (s : Registry δ) (array : ℕ) : Registry δ :=
  { s with arrayFrees := Function.update s.arrayFrees array (s.arrayFrees array + 1) }

def kmemdup (s : Registry δ) (devs : List δ) : Registry δ :=
  { s with nextArray := s.nextArray + 1, arrays := Function.update s.arrays s.nextArray devs }

/-- One round of the loops that undo devices, here and in `fmc_device_unregister_n`. -/
def undoDevice (s : Registry δ) (d : δ) : Registry δ :=
  (((s.setFile d false).setAdded d false).fmcFreeIdInfo d).putDevice d

/-- `for (i--; i >= 0; i--)`. -/
def undoEarlier (devs : List δ) : ℕ → Registry δ → Registry δ
  | 0, s => s
  | i + 1, s =>
    match devs[i]? with
    | some d => undoEarlier devs i (s.undoDevice d)
    | none => undoEarlier devs i s

/-- The label `out`. -/
def registerOut (s : Registry δ) (devs : List δ) (devarray i : ℕ) (fmc : δ) : Registry δ :=
  undoEarlier devs i (((s.fmcFreeIdInfo fmc).putDevice fmc).kfree devarray)

/-- The label `out1`. -/
def registerOut1 (s : Registry δ) (devs : List δ) (devarray i : ℕ) (fmc : δ) : Registry δ :=
  (s.setAdded fmc false).registerOut devs devarray i fmc

/-- A device before it is added. -/
def prepare (s : Registry δ) (n devarray : ℕ) (fmc : δ) (idInfo : Option IdInfo) : Registry δ :=
  (((s.setDev fmc { s.dev fmc with nrSlots := n, devarray := devarray }).deviceInitialize fmc).fmcFillIdInfo fmc
    idInfo)

/-- The loop that registers the devices, from the one with index `i`. -/
def registerLoop (out : RegisterOutcome) (devs : List δ) (devarray : ℕ) :
    List δ → ℕ → Registry δ → Registry δ × ℤ
  | [], _, s => (s, 0)
  | fmc :: todo, i, s =>
    let s := s.prepare devs.length devarray fmc (out.idInfo i)
    if out.deviceAdd i < 0 then (s.registerOut devs devarray i fmc, out.deviceAdd i)
    else
      let s := s.setAdded fmc true
      if out.sysfsCreateBinFile i < 0 then (s.registerOut1 devs devarray i fmc, out.sysfsCreateBinFile i)
      else registerLoop out devs devarray todo (i + 1) (s.setFile fmc true)

def fmcDeviceRegisterN (out : RegisterOutcome) (s : Registry δ) (devs : List δ) : Registry δ × ℤ :=
  match devs with
  | [] => (s, 0)
  | first :: _ =>
    if fmcCheckVersion (s.dev first).version ≠ 0 then (s, einval)
    else if out.kmemdup = false then (s, enomem)
    else
      let devarray := s.nextArray
      let s := s.kmemdup devs
      if s.checkAll (s.arrays devarray) ≠ 0 then (s.kfree devarray, s.checkAll (s.arrays devarray))
      else s.registerLoop out devs devarray (s.arrays devarray) 0

def fmcDeviceUnregisterN (s : Registry δ) (devs : List δ) : Registry δ :=
  match devs with
  | [] => s
  | first :: _ => devs.foldl undoDevice (s.kfree (s.dev first).devarray)

/-- Nothing fails before the first device is initialised: the version, the array, the checks of all devices. -/
structure Validated (out : RegisterOutcome) (s : Registry δ) (devs : List δ) : Prop where
  version : ∀ first ∈ devs.head?, fmcCheckVersion (s.dev first).version = 0
  array : out.kmemdup = true
  checks : ∀ d ∈ devs, check (s.dev d) = 0

/-- The devices of the list are undone, each as often as it is there, and nothing else happens. -/
structure Undone (ds : List δ) (s t : Registry δ) : Prop where
  dev : t.dev = s.dev
  added : ∀ d, t.added d = if d ∈ ds then false else s.added d
  file : ∀ d, t.file d = if d ∈ ds then false else s.file d
  inits : t.inits = s.inits
  puts : ∀ d, t.puts d = s.puts d + ds.count d
  idFreed : ∀ d, t.idFreed d = s.idFreed d ++ List.replicate (ds.count d) (s.dev d).id
  nextArray : t.nextArray = s.nextArray
  arrays : t.arrays = s.arrays
  arrayFrees : t.arrayFrees = s.arrayFrees

/-- The devices `ds`, those of the set that were initialised, are undone, no device is left that was not there
before, and the array is freed if it was allocated. -/
structure RolledBack (ds devs : List δ) (s t : Registry δ) : Prop where
  earlier : ds <+: devs
  gone : ∀ d, (s.added d = false → t.added d = false) ∧ (s.file d = false → t.file d = false)
  inits : ∀ d, t.inits d = s.inits d + ds.count d
  puts : ∀ d, t.puts d = s.puts d + ds.count d
  idFreed : ∀ d, t.idFreed d = s.idFreed d ++ List.replicate (ds.count d) (t.dev d).id
  arrayFrees : ∀ a, t.arrayFrees a = s.arrayFrees a + if s.nextArray ≤ a ∧ a < t.nextArray then 1 else 0
  untouched : ∀ d, d ∉ ds → t.dev d = s.dev d ∧ t.added d = s.added d ∧ t.file d = s.file d

/-- The devices `ds` of the set are there with their files and share its array, and nothing is freed or put. -/
structure Registered (ds devs : List δ) (s t : Registry δ) : Prop where
  array : t.arrays s.nextArray = devs
  nextArray : t.nextArray = s.nextArray + 1
  added : ∀ d, t.added d = if d ∈ ds then true else s.added d
  file : ∀ d, t.file d = if d ∈ ds then true else s.file d
  shared : ∀ d ∈ ds, (t.dev d).devarray = s.nextArray ∧ (t.dev d).nrSlots = devs.length
  untouched : ∀ d, d ∉ ds → t.dev d = s.dev d
  inits : ∀ d, t.inits d = s.inits d + ds.count d
  puts : t.puts = s.puts
  idFreed : t.idFreed = s.idFreed
  arrayFrees : t.arrayFrees = s.arrayFrees

/-- The device is initialised, and still not added if it was not before. -/
structure Prepared (n devarray : ℕ) (fmc : δ) (s t : Registry δ) : Prop where
  self : (t.dev fmc).devarray = devarray ∧ (t.dev fmc).nrSlots = n
  dev : ∀ d, d ≠ fmc → t.dev d = s.dev d
  selfAdded : t.added fmc = s.added fmc ∨ t.added fmc = false
  added : ∀ d, d ≠ fmc → t.added d = s.added d
  file : t.file = s.file
  inits : ∀ d, t.inits d = s.inits d + [fmc].count d
  puts : t.puts = s.puts
  idFreed : t.idFreed = s.idFreed
  nextArray : t.nextArray = s.nextArray
  arrays : t.arrays = s.arrays
  arrayFrees : t.arrayFrees = s.arrayFrees

/-- The label `out`: the failing device is put, its strings and the array are freed, and the earlier
devices are undone. -/
structure Abandoned (ds : List δ) (fmc : δ) (devarray : ℕ) (s t : Registry δ) : Prop where
  dev : t.dev = s.dev
  added : ∀ d, t.added d = if d ∈ ds then false else s.added d
  file : ∀ d, t.file d = if d ∈ ds then false else s.file d
  inits : t.inits = s.inits
  puts : ∀ d, t.puts d = s.puts d + (ds ++ [fmc]).count d
  idFreed : ∀ d, t.idFreed d = s.idFreed d ++ List.replicate ((ds ++ [fmc]).count d) (s.dev d).id
  nextArray : t.nextArray = s.nextArray
  arrayFrees : ∀ a, t.arrayFrees a = s.arrayFrees a + if a = devarray then 1 else 0

variable {s t u v : Registry δ} {ds devs : List δ}

theorem Undone.refl (s : Registry δ) : Undone [] s s where
  dev := rfl
  added d := by simp
  file d := by simp
  inits := rfl
  puts d := by simp
  idFreed d := by simp
  nextArray := rfl
  arrays := rfl
  arrayFrees := rfl

theorem Undone.trans {xs ys : List δ} (h : Undone xs s t) (h' : Undone ys t u) : Undone (xs ++ ys) s u where
  dev := h'.dev.trans h.dev
  added d := by
    rw [h'.added, h.added]
    by_cases hx : d ∈ xs <;> by_cases hy : d ∈ ys <;> simp [hx, hy]
  file d := by
    rw [h'.file, h.file]
    by_cases hx : d ∈ xs <;> by_cases hy : d ∈ ys <;> simp [hx, hy]
  inits := h'.inits.trans h.inits
  puts d := by rw [h'.puts, h.puts, List.count_append, Nat.add_assoc]
  idFreed d := by
    rw [h'.idFreed, h.idFreed, h.dev, List.append_assoc, List.replicate_append_replicate, List.count_append]
  nextArray := h'.nextArray.trans h.nextArray
  arrays := h'.arrays.trans h.arrays
  arrayFrees := h'.arrayFrees.trans h.arrayFrees

theorem undoDevice_undone (s : Registry δ) (d : δ) : Undone [d] s (s.undoDevice d) where
  dev := rfl
  added e := by
    change Function.update s.added d false e = _
    by_cases he : e = d <;> simp [he]
  file e := by
    change Function.update s.file d false e = _
    by_cases he : e = d <;> simp [he]
  inits := rfl
  puts e := by
    change Function.update s.puts d (s.puts d + 1) e = _
    by_cases he : e = d
    · simp [he]
    · simp [he, Ne.symm he]
  idFreed e := by
    change Function.update s.idFreed d (s.idFreed d ++ [(s.dev d).id]) e = _
    by_cases he : e = d
    · simp [he]
    · simp [he, Ne.symm he]
  nextArray := rfl
  arrays := rfl
  arrayFrees := rfl

theorem foldl_undone (ds : List δ) (s : Registry δ) : Undone ds s (ds.foldl undoDevice s) := by
  induction ds generalizing s with
  | nil => exact Undone.refl s
  | cons d ds ih => exact (undoDevice_undone s d).trans (ih (s.undoDevice d))

/-- The loop goes back from the device before. -/
theorem undoEarlier_eq (devs : List δ) {i : ℕ} (hi : i ≤ devs.length) (s : Registry δ) :
    undoEarlier devs i s = (devs.take i).reverse.foldl undoDevice s := by
  induction i generalizing s with
  | zero => rfl
  | succ i ih =>
    have hlt : i < devs.length := hi
    rw [undoEarlier, List.getElem?_eq_getElem hlt]
    simp only
    rw [ih (Nat.le_of_lt hlt), List.take_succ_eq_append_getElem hlt, List.reverse_append]
    rfl

/-- The order of the devices makes no difference. -/
theorem Undone.reverse (h : Undone ds.reverse s t) : Undone ds s t where
  dev := h.dev
  added d := by simpa only [List.mem_reverse] using h.added d
  file d := by simpa only [List.mem_reverse] using h.file d
  inits := h.inits
  puts d := by rw [h.puts, List.count_reverse]
  idFreed d := by rw [h.idFreed, List.count_reverse]
  nextArray := h.nextArray
  arrays := h.arrays
  arrayFrees := h.arrayFrees

theorem undoEarlier_undone (devs : List δ) {i : ℕ} (hi : i ≤ devs.length) (s : Registry δ) :
    Undone (devs.take i) s (undoEarlier devs i s) := by
  rw [undoEarlier_eq devs hi]
  exact (foldl_undone _ s).reverse

theorem prepare_prepared (s : Registry δ) (n devarray : ℕ) (fmc : δ) (idInfo : Option IdInfo) :
    Prepared n devarray fmc s (s.prepare n devarray fmc idInfo) where
  self := by cases idInfo <;> simp [prepare, fmcFillIdInfo, setDev, deviceInitialize]
  dev d hd := by cases idInfo <;> simp [prepare, fmcFillIdInfo, setDev, deviceInitialize, hd]
  selfAdded := by cases idInfo <;> exact Or.inl rfl
  added d _ := by cases idInfo <;> rfl
  file := by cases idInfo <;> rfl
  inits d := by
    have hinits : (s.prepare n devarray fmc idInfo).inits = Function.update s.inits fmc (s.inits fmc + 1) := by
      cases idInfo <;> rfl
    rw [hinits]
    by_cases hd : d = fmc
    · simp [hd]
    · simp [hd, Ne.symm hd]
  puts := by cases idInfo <;> rfl
  idFreed := by cases idInfo <;> rfl
  nextArray := by cases idInfo <;> rfl
  arrays := by cases idInfo <;> rfl
  arrayFrees := by cases idInfo <;> rfl

/-- The label `out1` takes a device back that was added. -/
theorem Prepared.del {n devarray : ℕ} {fmc : δ} (h : Prepared n devarray fmc s t) :
    Prepared n devarray fmc s ((t.setAdded fmc true).setAdded fmc false) where
  self := h.self
  dev := h.dev
  selfAdded := Or.inr (Function.update_self ..)
  added d hd := by
    change Function.update (Function.update t.added fmc true) fmc false d = _
    rw [Function.update_of_ne hd, Function.update_of_ne hd, h.added d hd]
  file := h.file
  inits := h.inits
  puts := h.puts
  idFreed := h.idFreed
  nextArray := h.nextArray
  arrays := h.arrays
  arrayFrees := h.arrayFrees

/-- The device is added and gets its file. -/
theorem Registered.next {fmc : δ} (h : Registered ds devs s t) (hu : Prepared devs.length s.nextArray fmc t u) :
    Registered (ds ++ [fmc]) devs s ((u.setAdded fmc true).setFile fmc true) where
  array := (congrFun hu.arrays _).trans h.array
  nextArray := hu.nextArray.trans h.nextArray
  added d := by
    change Function.update u.added fmc true d = _
    by_cases hd : d = fmc
    · simp [hd]
    · simp [hd, hu.added d hd, h.added]
  file d := by
    change Function.update u.file fmc true d = _
    by_cases hd : d = fmc <;> simp [hd, hu.file, h.file]
  shared d hd := by
    change (u.dev d).devarray = _ ∧ (u.dev d).nrSlots = _
    by_cases heq : d = fmc
    · rw [heq]
      exact hu.self
    · rw [hu.dev d heq]
      exact h.shared d (by simpa [heq] using hd)
  untouched d hd := by
    change u.dev d = _
    simp only [List.mem_append, List.mem_singleton, not_or] at hd
    rw [hu.dev d hd.2, h.untouched d hd.1]
  inits d := by
    change u.inits d = _
    rw [hu.inits, h.inits, List.count_append, Nat.add_assoc]
  puts := hu.puts.trans h.puts
  idFreed := hu.idFreed.trans h.idFreed
  arrayFrees := hu.arrayFrees.trans h.arrayFrees

theorem registerOut_abandoned (u : Registry δ) (devs : List δ) {i : ℕ} (hi : i ≤ devs.length) (devarray : ℕ)
    (fmc : δ) : Abandoned (devs.take i) fmc devarray u (u.registerOut devs devarray i fmc) := by
  have hout := undoEarlier_undone devs hi (((u.fmcFreeIdInfo fmc).putDevice fmc).kfree devarray)
  have hputs : ∀ d, (((u.fmcFreeIdInfo fmc).putDevice fmc).kfree devarray).puts d =
      u.puts d + [fmc].count d := by
    intro d
    change Function.update u.puts fmc (u.puts fmc + 1) d = _
    by_cases hd : d = fmc
    · simp [hd]
    · simp [hd, Ne.symm hd]
  have hfreed : ∀ d, (((u.fmcFreeIdInfo fmc).putDevice fmc).kfree devarray).idFreed d =
      u.idFreed d ++ List.replicate ([fmc].count d) (u.dev d).id := by
    intro d
    change Function.update u.idFreed fmc (u.idFreed fmc ++ [(u.dev fmc).id]) d = _
    by_cases hd : d = fmc
    · simp [hd]
    · simp [hd, Ne.symm hd]
  exact
    { dev := hout.dev
      added := hout.added
      file := hout.file
      inits := hout.inits
      puts := fun d => by
        rw [registerOut, hout.puts, hputs, List.count_append]
        omega
      idFreed := fun d => by
        rw [registerOut, hout.idFreed, hfreed, List.count_append, List.append_assoc, Nat.add_comm]
        change _ ++ (_ ++ List.replicate _ (u.dev d).id) = _
        rw [List.replicate_append_replicate]
      nextArray := hout.nextArray
      arrayFrees := fun a => by
        rw [registerOut, hout.arrayFrees]
        change Function.update u.arrayFrees devarray (u.arrayFrees devarray + 1) a = _
        by_cases ha : a = devarray <;> simp [ha] }

/-- From the label `out` on, the device and the earlier ones are undone. -/
theorem Registered.rollBack {fmc : δ} (hpre : ds ++ [fmc] <+: devs) (h : Registered ds devs s t)
    (hu : Prepared devs.length s.nextArray fmc t u) (hv : Abandoned ds fmc s.nextArray u v) :
    RolledBack (ds ++ [fmc]) devs s v where
  earlier := hpre
  gone d := by
    rw [hv.added, hv.file, hu.file, h.file]
    split_ifs with hearlier
    · exact ⟨fun _ => rfl, fun _ => rfl⟩
    · refine ⟨fun hfresh => ?_, id⟩
      have hbefore : t.added d = false := by rw [h.added, if_neg hearlier, hfresh]
      -- the device that failed is not added, whichever of the two calls failed
      by_cases heq : d = fmc
      · subst heq
        rcases hu.selfAdded with hself | hself
        · rw [hself, hbefore]
        · exact hself
      · rw [hu.added d heq, hbefore]
  inits d := by rw [hv.inits, hu.inits, h.inits, List.count_append, Nat.add_assoc]
  puts d := by rw [hv.puts, hu.puts, h.puts]
  idFreed d := by rw [hv.idFreed, hv.dev, hu.idFreed, h.idFreed]
  arrayFrees a := by
    rw [hv.arrayFrees, hv.nextArray, hu.nextArray, h.nextArray, hu.arrayFrees, h.arrayFrees]
    by_cases ha : a = s.nextArray
    · simp [ha]
    · rw [if_neg ha, if_neg (by omega)]
  untouched d hd := by
    rw [List.mem_append, List.mem_singleton, not_or] at hd
    obtain ⟨hearlier, hself⟩ := hd
    rw [hv.dev, hv.added, hv.file, if_neg hearlier, if_neg hearlier, hu.file, hu.dev d hself, hu.added d hself,
      h.untouched d hearlier, h.added, h.file, if_neg hearlier, if_neg hearlier]
    exact ⟨rfl, rfl, rfl⟩

/-- From any point of the loop on, a device fails and the set is undone, or the loop comes to its end. -/
theorem registerLoop_spec (out : RegisterOutcome) {todo : List δ} {i : ℕ} (htodo : devs.drop i = todo)
    (hbefore : ∀ j < i, out.error j = 0) (h : Registered (devs.take i) devs s t) :
    (∃ k < devs.length, out.FailsAt k ∧ (t.registerLoop out devs s.nextArray todo i).2 = out.error k ∧
        RolledBack (devs.take (k + 1)) devs s (t.registerLoop out devs s.nextArray todo i).1) ∨
      ((∀ k < devs.length, out.error k = 0) ∧ (t.registerLoop out devs s.nextArray todo i).2 = 0 ∧
        Registered devs devs s (t.registerLoop out devs s.nextArray todo i).1) := by
  induction todo generalizing i t with
  | nil =>
    have hend : devs.length ≤ i := List.drop_eq_nil_iff.mp htodo
    rw [List.take_of_length_le hend] at h
    exact Or.inr ⟨fun k hk => hbefore k (Nat.lt_of_lt_of_le hk hend), rfl, h⟩
  | cons fmc todo ih =>
    have hi : i < devs.length := by
      by_contra hi
      rw [List.drop_eq_nil_of_le (Nat.le_of_not_lt hi)] at htodo
      cases htodo
    obtain ⟨rfl, hrest⟩ : devs[i] = fmc ∧ devs.drop (i + 1) = todo := by
      rw [List.drop_eq_getElem_cons hi] at htodo
      exact List.cons.inj htodo
    have hprepared := prepare_prepared t devs.length s.nextArray devs[i] (out.idInfo i)
    have htake : devs.take (i + 1) = devs.take i ++ [devs[i]] := List.take_succ_eq_append_getElem hi
    have hpre : devs.take i ++ [devs[i]] <+: devs := by
      rw [← htake]
      exact List.take_prefix _ _
    simp only [registerLoop]
    split_ifs with hadd hfile
    · have herror := RegisterOutcome.error_deviceAdd hadd
      have hfails : out.FailsAt i := ⟨hbefore, herror ▸ Int.ne_of_lt hadd⟩
      refine Or.inl ⟨i, hi, hfails, herror.symm, ?_⟩
      rw [htake]
      exact h.rollBack hpre hprepared (registerOut_abandoned _ devs (Nat.le_of_lt hi) _ _)
    · have herror := RegisterOutcome.error_file hadd hfile
      have hfails : out.FailsAt i := ⟨hbefore, herror ▸ Int.ne_of_lt hfile⟩
      refine Or.inl ⟨i, hi, hfails, herror.symm, ?_⟩
      rw [htake]
      exact h.rollBack hpre hprepared.del (registerOut_abandoned _ devs (Nat.le_of_lt hi) _ _)
    · have hnext := h.next hprepared
      rw [← htake] at hnext
      have hwell : out.error i = 0 := by rw [RegisterOutcome.error, if_neg hadd, if_neg hfile]
      refine ih hrest (fun j hj => ?_) hnext
      rcases Nat.lt_succ_iff_lt_or_eq.mp hj with hlt | rfl
      · exact hbefore j hlt
      · exact hwell

omit [DecidableEq δ] in
/-- The check finds the first device that does not pass. -/
theorem checkAll_eq_zero_iff (s : Registry δ) (devs : List δ) :
    s.checkAll devs = 0 ↔ ∀ d ∈ devs, check (s.dev d) = 0 := by
  induction devs with
  | nil => simp [checkAll]
  | cons d devs ih =>
    rw [checkAll, List.forall_mem_cons]
    split_ifs with hd
    · exact ⟨fun h => absurd h hd, fun h => absurd h.1 hd⟩
    · rw [ih]
      exact ⟨fun h => ⟨not_not.mp hd, h⟩, And.right⟩

theorem kmemdup_registered (s : Registry δ) (devs : List δ) : Registered [] devs s (s.kmemdup devs) where
  array := Function.update_self ..
  nextArray := rfl
  added d := by simp [kmemdup]
  file d := by simp [kmemdup]
  shared d hd := by simp at hd
  untouched d _ := rfl
  inits d := by simp [kmemdup]
  puts := rfl
  idFreed := rfl
  arrayFrees := rfl

/-- Where no device was initialised, at most the array was there. -/
theorem rolledBack_nil (s : Registry δ) (devs : List δ) :
    RolledBack [] devs s s ∧ RolledBack [] devs s ((s.kmemdup devs).kfree s.nextArray) := by
  have hgone : ∀ d, (s.added d = false → s.added d = false) ∧ (s.file d = false → s.file d = false) :=
    fun d => ⟨id, id⟩
  constructor
  · exact ⟨List.nil_prefix, hgone, by simp, by simp, by simp, fun a => by simp, fun d _ => ⟨rfl, rfl, rfl⟩⟩
  · refine ⟨List.nil_prefix, hgone, fun d => ?_, fun d => ?_, fun d => ?_, fun a => ?_,
      fun d _ => ⟨rfl, rfl, rfl⟩⟩
    · simp [kmemdup, kfree]
    · simp [kmemdup, kfree]
    · simp [kmemdup, kfree]
    · have hnext : ((s.kmemdup devs).kfree s.nextArray).nextArray = s.nextArray + 1 := rfl
      have hfrees : ((s.kmemdup devs).kfree s.nextArray).arrayFrees =
          Function.update s.arrayFrees s.nextArray (s.arrayFrees s.nextArray + 1) := rfl
      rw [hnext, hfrees]
      by_cases ha : a = s.nextArray
      · simp [ha]
      · rw [Function.update_of_ne ha, if_neg (by omega), Nat.add_zero]

/-- The devices of a set are different ones, so what is undone is undone once. -/
theorem RolledBack.once (h : RolledBack ds devs s t) (hset : devs.Nodup) {d : δ} (hd : d ∈ ds) :
    t.inits d = s.inits d + 1 ∧ t.puts d = s.puts d + 1 ∧ t.idFreed d = s.idFreed d ++ [(t.dev d).id] := by
  have hcount : ds.count d = 1 := List.count_eq_one_of_mem (hset.sublist h.earlier.sublist) hd
  refine ⟨by rw [h.inits, hcount], by rw [h.puts, hcount], ?_⟩
  have hfreed := h.idFreed d
  rwa [hcount] at hfreed

theorem unregister_undone (hne : devs ≠ []) {a : ℕ} (hshared : ∀ d ∈ devs, (s.dev d).devarray = a) :
    Undone devs (s.kfree a) (s.fmcDeviceUnregisterN devs) := by
  cases devs with
  | nil => exact absurd rfl hne
  | cons first rest =>
    rw [fmcDeviceUnregisterN, hshared first (by simp)]
    exact foldl_undone _ _

/-- The three ways a registration ends. -/
theorem register_n_cases (out : RegisterOutcome) (s : Registry δ) (hne : devs ≠ []) :
    (¬ Validated out s devs ∧ (s.fmcDeviceRegisterN out devs).2 ≠ 0 ∧
        RolledBack [] devs s (s.fmcDeviceRegisterN out devs).1) ∨
      (Validated out s devs ∧ ∃ k < devs.length, out.FailsAt k ∧ (s.fmcDeviceRegisterN out devs).2 = out.error k ∧
        RolledBack (devs.take (k + 1)) devs s (s.fmcDeviceRegisterN out devs).1) ∨
      (Validated out s devs ∧ (∀ k < devs.length, out.error k = 0) ∧ (s.fmcDeviceRegisterN out devs).2 = 0 ∧
        Registered devs devs s (s.fmcDeviceRegisterN out devs).1) := by
  cases devs with
  | nil => exact absurd rfl hne
  | cons first rest =>
    simp only [fmcDeviceRegisterN]
    have hstart := kmemdup_registered s (first :: rest)
    by_cases hversion : fmcCheckVersion (s.dev first).version ≠ 0
    · rw [if_pos hversion]
      exact Or.inl ⟨fun h => hversion (h.version first rfl), (by decide : einval ≠ 0), (rolledBack_nil s _).1⟩
    by_cases hdup : out.kmemdup = false
    · rw [if_neg hversion, if_pos hdup]
      refine Or.inl ⟨fun h => ?_, (by decide : enomem ≠ 0), (rolledBack_nil s _).1⟩
      rw [h.array] at hdup
      cases hdup
    rw [if_neg hversion, if_neg hdup, hstart.array]
    have hchecks : (s.kmemdup (first :: rest)).checkAll (first :: rest) = 0 ↔
        ∀ d ∈ first :: rest, check (s.dev d) = 0 := checkAll_eq_zero_iff _ _
    by_cases hcheck : (s.kmemdup (first :: rest)).checkAll (first :: rest) ≠ 0
    · rw [if_pos hcheck]
      exact Or.inl ⟨fun h => hcheck (hchecks.mpr h.checks), hcheck, (rolledBack_nil s _).2⟩
    · rw [if_neg hcheck]
      have hvalid : Validated out s (first :: rest) := by
        refine ⟨fun d hd => ?_, Bool.not_eq_false _ ▸ hdup, hchecks.mp (not_not.mp hcheck)⟩
        cases hd
        exact not_not.mp hversion
      have hloop := registerLoop_spec out (i := 0) rfl (fun j hj => absurd hj (Nat.not_lt_zero j)) hstart
      exact Or.inr (hloop.imp (fun h => ⟨hvalid, h⟩) fun h => ⟨hvalid, h⟩)

/-- A set is registered as a whole when nothing fails, and not at all wherever its registration fails: the devices up
to the first one that fails were initialised and are undone. The array the set shares is freed once, with the devices,
when it goes. -/
theorem register_n_all_or_nothing (out : RegisterOutcome) (s : Registry δ) (devs : List δ) (hne : devs ≠ []) :
    ((s.fmcDeviceRegisterN out devs).2 = 0 ↔ Validated out s devs ∧ ∀ k < devs.length, out.error k = 0) ∧
    ((s.fmcDeviceRegisterN out devs).2 ≠ 0 → ∃ ds, RolledBack ds devs s (s.fmcDeviceRegisterN out devs).1 ∧
      (¬ Validated out s devs → ds = []) ∧
      (Validated out s devs → ∀ k < devs.length, out.FailsAt k →
        (s.fmcDeviceRegisterN out devs).2 = out.error k ∧ ds = devs.take (k + 1)) ∧
      (devs.Nodup → ∀ d ∈ ds, let t := (s.fmcDeviceRegisterN out devs).1
        t.inits d = s.inits d + 1 ∧ t.puts d = s.puts d + 1 ∧ t.idFreed d = s.idFreed d ++ [(t.dev d).id])) ∧
    ((s.fmcDeviceRegisterN out devs).2 = 0 → Registered devs devs s (s.fmcDeviceRegisterN out devs).1 ∧
      ∀ u : Registry δ, (∀ d ∈ devs, (u.dev d).devarray = s.nextArray) →
        Undone devs (u.kfree s.nextArray) (u.fmcDeviceUnregisterN devs)) := by
  rcases register_n_cases out s hne with ⟨hinvalid, herror, hback⟩ | ⟨hvalid, k, hk, hfails, hret, hback⟩ |
    ⟨hvalid, hwell, hret, hregistered⟩
  · refine ⟨iff_of_false herror fun h => hinvalid h.1, fun _ => ?_, fun hok => absurd hok herror⟩
    exact ⟨[], hback, fun _ => rfl, fun h => absurd h hinvalid, fun hset d hd => hback.once hset hd⟩
  · have herror : (s.fmcDeviceRegisterN out devs).2 ≠ 0 := by
      rw [hret]
      exact hfails.2
    refine ⟨iff_of_false herror fun h => hfails.2 (h.2 k hk), fun _ => ?_, fun hok => absurd hok herror⟩
    refine ⟨_, hback, fun h => absurd hvalid h, fun _ j _ hj => ?_, fun hset d hd => hback.once hset hd⟩
    rw [hj.unique hfails]
    exact ⟨hret, rfl⟩
  · refine ⟨iff_of_true hret ⟨hvalid, hwell⟩, fun herror => absurd hret herror, fun _ => ⟨hregistered, ?_⟩⟩
    exact fun u hu => unregister_undone hne hu

/-- Two slots, the second one without a mezzanine. -/
def twoSlots : Registry ℕ where
  dev d := ⟨3 <<< 16, if d = 0 then 0 else fmcDeviceNoMezzanine, 8, 16, 0x50, 24, 32, 1, ⟨0, 0, 0⟩, 0, 0⟩
  added _ := false
  file _ := false
  inits _ := 0
  puts _ := 0
  idFreed _ := []
  nextArray := 1
  arrays _ := []
  arrayFrees _ := 0

/-- The device with index `failing` gets no file. -/
def noFile (failing : ℕ) : RegisterOutcome :=
  ⟨true, fun _ => none, fun _ => 0, fun i => if i = failing then enomem else 0⟩

theorem twoSlots_validated (failing : ℕ) : Validated (noFile failing) twoSlots [0, 1] where
  version := by simp [twoSlots, fmcCheckVersion, fmcMajor]
  array := rfl
  checks := by simp [twoSlots, check, fmcDeviceNoMezzanine]

/-- Both are registered, or none where the second one gets no file. -/
theorem twoSlots_all_or_nothing :
    ((twoSlots.fmcDeviceRegisterN (noFile 2) [0, 1]).2 = 0 ∧
        Registered [0, 1] [0, 1] twoSlots (twoSlots.fmcDeviceRegisterN (noFile 2) [0, 1]).1) ∧
      (twoSlots.fmcDeviceRegisterN (noFile 1) [0, 1]).2 = enomem ∧
        RolledBack [0, 1] [0, 1] twoSlots (twoSlots.fmcDeviceRegisterN (noFile 1) [0, 1]).1 := by
  obtain ⟨hzero, -, hregistered⟩ := register_n_all_or_nothing (noFile 2) twoSlots [0, 1] (List.cons_ne_nil _ _)
  have hok := hzero.mpr ⟨twoSlots_validated 2, by decide⟩
  obtain ⟨-, hback, -⟩ := register_n_all_or_nothing (noFile 1) twoSlots [0, 1] (List.cons_ne_nil _ _)
  obtain ⟨ds, hds, -, hfails, -⟩ := hback (by decide)
  have hfirst : (noFile 1).FailsAt 1 := ⟨by decide, by decide⟩
  obtain ⟨hret, rfl⟩ := hfails (twoSlots_validated 1) 1 (by decide) hfirst
  exact ⟨⟨hok, (hregistered hok).1⟩, hret, hds⟩

end Registry

end WhiteRabbit.Fmc
