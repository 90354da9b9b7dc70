import WhiteRabbit.SdbArrays

/-!
# Devices in the tables of a carrier

Each table of a tree says where its bus begins. A search for a device adds the beginnings of the
busses around a table to what it found in the table.
-/

namespace WhiteRabbit.Fmc

open Etherbone (sdbMagic)

variable {vid : BitVec 64} {did : BitVec 32}

def SdbCopy.Matches (vid : BitVec 64) (did : BitVec 32) (r : SdbCopy) : Prop :=
  r.recordType = sdbTypeDevice ∧ r.vendorId = vid.toNat ∧ r.deviceId = did.toNat

instance (vid : BitVec 64) (did : BitVec 32) : DecidablePred (SdbCopy.Matches vid did) :=
  fun _ => inferInstanceAs (Decidable (_ ∧ _ ∧ _))

/-- The size of a device. -/
def SdbCopy.size (r : SdbCopy) : BitVec 64 := BitVec.ofNat 64 r.addrLast + 1 - BitVec.ofNat 64 r.addrFirst

/-- The loop of `fmc_find_sdb_device` in a table at `base`, with `res` and `*sz`. There is no `*sz` for the
null pointer. -/
def findRows (vid : BitVec 64) (did : BitVec 32) (base : BitVec 64) :
    BitVec 64 → SdbRows → Option (BitVec 64) → BitVec 64 × Option (BitVec 64)
  | res, .nil, sz => (res, sz)
  | res, .failed r _ rest, sz =>
    if 0 ≤ res.toInt then (res + base, sz)
    else if r.Matches vid did then (BitVec.ofNat 64 r.addrFirst + base, sz.map fun _ => r.size)
    else findRows vid did base res rest sz
  | _, .table r info below rest, sz =>
    let (res, sz) := findRows vid did info.baseaddr (BitVec.ofInt 64 (-enodev)) below sz
    if 0 ≤ res.toInt then (res + base, sz)
    else if r.Matches vid did then (BitVec.ofNat 64 r.addrFirst + base, sz.map fun _ => r.size)
    else findRows vid did base res rest sz

/-- `fmc_find_sdb_device`: what it returns, and `*sz` afterwards. -/
def fmcFindSdbDevice (tree : SdbArray) (vid : BitVec 64) (did : BitVec 32) (sz : Option (BitVec 64)) :
    BitVec 64 × Option (BitVec 64) :=
  findRows vid did tree.baseaddr (BitVec.ofInt 64 (-enodev)) tree.rows sz

/-- The devices that `__fmc_show_sdb_tree` prints for a table at `base`, with the first address. -/
def SdbRows.shown (base : BitVec 64) : SdbRows → List (SdbCopy × BitVec 64)
  | .nil => []
  | .failed r _ rest =>
    if r.recordType = sdbTypeDevice then (r, BitVec.ofNat 64 r.addrFirst + base) :: rest.shown base
    else rest.shown base
  | .table r info below rest =>
    if r.recordType = sdbTypeDevice then (r, BitVec.ofNat 64 r.addrFirst + base) :: rest.shown base
    else if r.recordType = sdbTypeBridge then below.shown info.baseaddr ++ rest.shown base
    else rest.shown base

/-- A record of a tree, where its bus begins, and where the busses begin that are around this bus. -/
structure PlacedRecord where
  record : SdbCopy
  base : ℕ
  above : List ℕ

namespace PlacedRecord

def address (p : PlacedRecord) : ℕ := p.record.addrFirst + p.base

def isMatch (vid : BitVec 64) (did : BitVec 32) (p : PlacedRecord) : Bool := p.record.Matches vid did

/-- The address with the beginnings of the busses around. -/
def total (p : PlacedRecord) : ℕ := p.address + p.above.sum

end PlacedRecord

/-- The records of a table and of all that is below it, in depth-first order. The bus behind a bridge
begins at the first address of the bridge. -/
def SdbRows.placed (base : ℕ) (above : List ℕ) : SdbRows → List PlacedRecord
  | .nil => []
  | .failed r _ rest => ⟨r, base, above⟩ :: rest.placed base above
  | .table r _ below rest =>
    ⟨r, base, above⟩ :: (below.placed (r.addrFirst + base) (base :: above) ++ rest.placed base above)

namespace SdbArray

variable (tree : SdbArray)

def placed : List PlacedRecord := tree.rows.placed 0 []

/-- The tree is the result of a scan. -/
def Scanned : Prop := ∃ c ok fuel address heap heap',
  fmcScanSdbTree c ok fuel none address heap = some (0, some tree, heap')

/-- The absolute addresses of devices and bridges are positive numbers of the type `signed long`. -/
def AddressesBelow : Prop := ∀ p ∈ tree.placed,
  p.record.recordType = sdbTypeDevice ∨ p.record.recordType = sdbTypeBridge → p.address < 2 ^ 63

/-- The first device that matches is found at its absolute address, which is the one that is printed for it. -/
structure FindsExactly (vid : BitVec 64) (did : BitVec 32) (sz : Option (BitVec 64)) : Prop where
  found : ∀ p, tree.placed.find? (PlacedRecord.isMatch vid did) = some p →
    fmcFindSdbDevice tree vid did sz = (BitVec.ofNat 64 p.address, sz.map fun _ => p.record.size) ∧
      (tree.rows.shown tree.baseaddr).find? (fun d => d.1.Matches vid did) =
        some (p.record, BitVec.ofNat 64 p.address)
  missing : (fmcFindSdbDevice tree vid did sz).1 = BitVec.ofInt 64 (-enodev) ↔
    ∀ p ∈ tree.placed, ¬ p.record.Matches vid did

/-- The busses around the one of the first device that matches all begin at zero. -/
def AroundAtZero (vid : BitVec 64) (did : BitVec 32) : Prop :=
  ∀ p, tree.placed.find? (PlacedRecord.isMatch vid did) = some p → ∀ base ∈ p.above, base = 0

end SdbArray

/-- The tables of a tree say where their busses begin, and only bridges have tables below them. -/
def SdbRows.Based (base : BitVec 64) : SdbRows → Prop
  | .nil => True
  | .failed _ _ rest => rest.Based base
  | .table r info below rest =>
    r.recordType = sdbTypeBridge ∧ info.baseaddr = BitVec.ofNat 64 r.addrFirst + base ∧
      below.Based info.baseaddr ∧ rest.Based base

section Bases

variable {c : Carrier} {ok : ℕ → Bool} {scan : Scan} {convert : Bool} {sdbAddr regBase : BitVec 64}
  {n i level fuel : ℕ} {heap heap' : Heap} {tree : SdbArray}

/-- A scan finds a table whose busses begin where the register base says. -/
def Scan.KeepsBases (scan : Scan) : Prop :=
  ∀ {sdbAddr regBase level heap tree heap'}, scan sdbAddr regBase level heap = some (.ok tree, heap') →
    tree.baseaddr = 0 ∧ tree.rows.Based regBase

theorem scanRows_based (hscan : scan.KeepsBases) {rows : SdbRows}
    (h : scanRows c scan convert sdbAddr regBase level n i heap = some (rows, heap')) : rows.Based regBase := by
  induction n generalizing i heap rows heap' with
  | zero =>
    cases h
    trivial
  | succ n ih =>
    rw [scanRows] at h
    dsimp only at h
    split at h
    · rename_i hbridge
      obtain ⟨⟨sub, mid⟩, hsub, hmap⟩ := Option.bind_eq_some_iff.mp h
      obtain ⟨⟨rest, last⟩, hrest, heq⟩ := Option.map_eq_some_iff.mp hmap
      cases heq
      have hbased := ih hrest
      cases sub with
      | error err => exact hbased
      | ok tree => exact ⟨hbridge, rfl, (hscan hsub).2, hbased⟩
    · obtain ⟨⟨rest, last⟩, hrest, heq⟩ := Option.map_eq_some_iff.mp h
      cases heq
      have hbased := ih hrest
      exact hbased

theorem fmcScanTree_based (c : Carrier) (ok : ℕ → Bool) (fuel : ℕ) :
    Scan.KeepsBases (fmcScanTree c ok fuel) := by
  induction fuel with
  | zero => exact fun h => (by cases h)
  | succ fuel ih =>
    intro sdbAddr regBase level heap tree heap' h
    rw [fmcScanTree] at h
    split at h
    · cases h
    · split at h
      · cases h
      · dsimp only at h
        split at h
        · obtain ⟨rows, hrows, heq⟩ := Option.map_eq_some_iff.mp h
          cases heq
          exact ⟨rfl, scanRows_based ih hrows⟩
        · cases h

theorem SdbArray.Scanned.based (h : tree.Scanned) : tree.baseaddr = 0 ∧ tree.rows.Based 0 := by
  obtain ⟨c, ok, fuel, address, heap, heap', h⟩ := h
  rw [fmcScanSdbTree, if_neg (by simp)] at h
  obtain ⟨⟨sub, last⟩, hsub, heq⟩ := Option.map_eq_some_iff.mp h
  cases sub with
  | error err => cases heq
  | ok found =>
    cases heq
    exact fmcScanTree_based c ok fuel hsub

end Bases

section Search

variable {base : BitVec 64} {start : ℕ} {above : List ℕ} {rows : SdbRows} {res : BitVec 64}
  {sz : Option (BitVec 64)}

theorem enodev_neg : ¬ 0 ≤ (BitVec.ofInt 64 (-enodev)).toInt := by decide

theorem findRows_table (vid : BitVec 64) (did : BitVec 32) (base res : BitVec 64) (r : SdbCopy) (info : SdbInfo)
    (below rest : SdbRows) (sz : Option (BitVec 64)) :
    findRows vid did base res (.table r info below rest) sz =
      if 0 ≤ (findRows vid did info.baseaddr (BitVec.ofInt 64 (-enodev)) below sz).1.toInt then
        ((findRows vid did info.baseaddr (BitVec.ofInt 64 (-enodev)) below sz).1 + base,
          (findRows vid did info.baseaddr (BitVec.ofInt 64 (-enodev)) below sz).2)
      else if r.Matches vid did then (BitVec.ofNat 64 r.addrFirst + base,
        (findRows vid did info.baseaddr (BitVec.ofInt 64 (-enodev)) below sz).2.map fun _ => r.size)
      else findRows vid did base (findRows vid did info.baseaddr (BitVec.ofInt 64 (-enodev)) below sz).1 rest
        (findRows vid did info.baseaddr (BitVec.ofInt 64 (-enodev)) below sz).2 := rfl

/-- Where nothing matches, an error remains an error. -/
theorem findRows_neg (h : ∀ p ∈ rows.placed start above, ¬ p.record.Matches vid did) (hres : ¬ 0 ≤ res.toInt) :
    ¬ 0 ≤ (findRows vid did base res rows sz).1.toInt := by
  induction rows generalizing base start above res sz with
  | nil => exact hres
  | failed r err rest ih =>
    obtain ⟨hfirst, hrest⟩ := List.forall_mem_cons.mp h
    rw [findRows, if_neg hres, if_neg (show ¬ r.Matches vid did from hfirst)]
    exact ih hrest hres
  | table r info below rest ihbelow ihrest =>
    obtain ⟨hfirst, hmore⟩ := List.forall_mem_cons.mp h
    obtain ⟨hbelow, hrest⟩ := List.forall_mem_append.mp hmore
    rw [findRows_table, if_neg (ihbelow hbelow enodev_neg), if_neg (show ¬ r.Matches vid did from hfirst)]
    exact ihrest hrest (ihbelow hbelow enodev_neg)

theorem findRows_none (h : ∀ p ∈ rows.placed start above, ¬ p.record.Matches vid did) :
    findRows vid did base (BitVec.ofInt 64 (-enodev)) rows sz = (BitVec.ofInt 64 (-enodev), sz) := by
  induction rows generalizing base start above with
  | nil => rfl
  | failed r err rest ih =>
    obtain ⟨hfirst, hrest⟩ := List.forall_mem_cons.mp h
    rw [findRows, if_neg enodev_neg, if_neg (show ¬ r.Matches vid did from hfirst)]
    exact ih hrest
  | table r info below rest ihbelow ihrest =>
    obtain ⟨hfirst, hmore⟩ := List.forall_mem_cons.mp h
    obtain ⟨hbelow, hrest⟩ := List.forall_mem_append.mp hmore
    rw [findRows_table, ihbelow hbelow, if_neg enodev_neg, if_neg (show ¬ r.Matches vid did from hfirst)]
    exact ihrest hrest

/-- An address is taken for an error if it is too large for a `signed long`. -/
theorem ofNat_nonneg_iff {n : ℕ} (h : n < 2 ^ 64) : 0 ≤ (BitVec.ofNat 64 n).toInt ↔ n < 2 ^ 63 := by
  rw [← Int.not_lt, BitVec.toInt_neg_iff, BitVec.toNat_ofNat, Nat.mod_eq_of_lt h]
  omega

/-- The first device that matches is found at its address with the beginnings of the busses around it. If
that is too large for a `signed long`, it is taken for an error. -/
theorem findRows_first {p : PlacedRecord} (hbased : rows.Based base) (hbase : base = BitVec.ofNat 64 start)
    (hstart : start < 2 ^ 63)
    (hbelow : ∀ p ∈ rows.placed start above,
      p.record.recordType = sdbTypeDevice ∨ p.record.recordType = sdbTypeBridge → p.address < 2 ^ 63)
    (hfirst : (rows.placed start above).find? (PlacedRecord.isMatch vid did) = some p) :
    ∃ sum, sum + above.sum = p.total ∧
      (sum < 2 ^ 63 → findRows vid did base (BitVec.ofInt 64 (-enodev)) rows sz =
        (BitVec.ofNat 64 sum, sz.map fun _ => p.record.size)) ∧
      (2 ^ 63 ≤ sum → (rows.placed start above).countP (PlacedRecord.isMatch vid did) ≤ 1 →
        ¬ 0 ≤ (findRows vid did base (BitVec.ofInt 64 (-enodev)) rows sz).1.toInt) := by
  induction rows generalizing base start above with
  | nil => cases hfirst
  | failed r err rest ih =>
    obtain ⟨haddress, hrest⟩ := List.forall_mem_cons.mp hbelow
    by_cases hr : r.Matches vid did
    · have htrue : PlacedRecord.isMatch vid did ⟨r, start, above⟩ = true := decide_eq_true hr
      rw [SdbRows.placed, List.find?_cons_of_pos htrue] at hfirst
      cases hfirst
      have hlt : r.addrFirst + start < 2 ^ 63 := haddress (Or.inl hr.1)
      refine ⟨r.addrFirst + start, rfl, fun _ => ?_, fun hge => absurd hlt (Nat.not_lt.mpr hge)⟩
      rw [findRows, if_neg enodev_neg, if_pos hr, hbase, BitVec.ofNat_add]
    · have hfalse : ¬ PlacedRecord.isMatch vid did ⟨r, start, above⟩ = true := (decide_eq_true_iff).not.mpr hr
      rw [SdbRows.placed, List.find?_cons_of_neg hfalse] at hfirst
      rw [SdbRows.placed, List.countP_cons_of_neg hfalse, findRows, if_neg enodev_neg, if_neg hr]
      exact ih hbased hbase hstart hrest hfirst
  | table r info below rest ihbelow ihrest =>
    obtain ⟨hbridge, hinfo, hbasedBelow, hbasedRest⟩ := hbased
    obtain ⟨haddress, hmore⟩ := List.forall_mem_cons.mp hbelow
    obtain ⟨hplacedBelow, hplacedRest⟩ := List.forall_mem_append.mp hmore
    have hr : ¬ r.Matches vid did := fun h => absurd (hbridge.symm.trans h.1) (by decide)
    have hfalse : ¬ PlacedRecord.isMatch vid did ⟨r, start, above⟩ = true := (decide_eq_true_iff).not.mpr hr
    rw [SdbRows.placed, List.find?_cons_of_neg hfalse, List.find?_append] at hfirst
    rw [SdbRows.placed, List.countP_cons_of_neg hfalse, List.countP_append, findRows_table]
    cases hfind : (below.placed (r.addrFirst + start) (start :: above)).find?
        (PlacedRecord.isMatch vid did) with
    | none =>
      rw [hfind, Option.none_or] at hfirst
      have hnone : ∀ p ∈ below.placed (r.addrFirst + start) (start :: above), ¬ p.record.Matches vid did :=
        fun p hp => (decide_eq_true_iff).not.mp (List.find?_eq_none.mp hfind p hp)
      rw [findRows_none hnone, if_neg enodev_neg, if_neg hr]
      obtain ⟨sum, htotal, hlt, hge⟩ := ihrest hbasedRest hbase hstart hplacedRest hfirst
      exact ⟨sum, htotal, hlt, fun hle hcount => hge hle ((Nat.le_add_left _ _).trans hcount)⟩
    | some q =>
      rw [hfind, Option.some_or] at hfirst
      obtain rfl := Option.some.inj hfirst
      have hinside : info.baseaddr = BitVec.ofNat 64 (r.addrFirst + start) := by
        rw [hinfo, hbase, BitVec.ofNat_add]
      obtain ⟨sum, htotal, hlt, hge⟩ :=
        ihbelow hbasedBelow hinside (haddress (Or.inr hbridge)) hplacedBelow hfind
      have hadd : BitVec.ofNat 64 sum + base = BitVec.ofNat 64 (sum + start) := by rw [hbase, BitVec.ofNat_add]
      refine ⟨sum + start, ?_, fun hsum => ?_, fun hsum hcount => ?_⟩
      · rw [← htotal, List.sum_cons, Nat.add_assoc]
      · have hsum' : sum < 2 ^ 63 := Nat.lt_of_le_of_lt (Nat.le_add_right sum start) hsum
        rw [hlt hsum', if_pos ((ofNat_nonneg_iff (by omega)).mpr hsum'), hadd]
      · by_cases hsum' : sum < 2 ^ 63
        · rw [hlt hsum', if_pos ((ofNat_nonneg_iff (by omega)).mpr hsum'), hadd, ofNat_nonneg_iff (by omega)]
          exact Nat.not_lt.mpr hsum
        · have hone : 0 < (below.placed (r.addrFirst + start) (start :: above)).countP
              (PlacedRecord.isMatch vid did) :=
            List.countP_pos_iff.mpr ⟨q, List.mem_of_find?_eq_some hfind, List.find?_some hfind⟩
          have hnone : ∀ p ∈ rest.placed start above, ¬ p.record.Matches vid did := by
            have hzero := List.countP_eq_zero.mp (show (rest.placed start above).countP
              (PlacedRecord.isMatch vid did) = 0 by omega)
            exact fun p hp => (decide_eq_true_iff).not.mp (hzero p hp)
          have hneg := hge (Nat.not_lt.mp hsum') (by omega)
          rw [if_neg hneg, if_neg hr]
          exact findRows_neg hnone hneg

/-- The devices that are printed are those of the tree, each with its absolute address. -/
theorem shown_eq (hbased : rows.Based base) (hbase : base = BitVec.ofNat 64 start) :
    rows.shown base = ((rows.placed start above).filter fun p => p.record.recordType = sdbTypeDevice).map
      fun p => (p.record, BitVec.ofNat 64 p.address) := by
  induction rows generalizing base start above with
  | nil => rfl
  | failed r err rest ih =>
    rw [SdbRows.shown, SdbRows.placed, ih hbased hbase]
    split
    · rename_i hr
      rw [List.filter_cons_of_pos (by simpa using hr), List.map_cons, PlacedRecord.address,
        BitVec.ofNat_add, hbase]
    · rename_i hr
      rw [List.filter_cons_of_neg (by simpa using hr)]
  | table r info below rest ihbelow ihrest =>
    obtain ⟨hbridge, hinfo, hbasedBelow, hbasedRest⟩ := hbased
    have hr : ¬ r.recordType = sdbTypeDevice := fun h => absurd (hbridge.symm.trans h) (by decide)
    have hinside : info.baseaddr = BitVec.ofNat 64 (r.addrFirst + start) := by
      rw [hinfo, hbase, BitVec.ofNat_add]
    rw [SdbRows.shown, if_neg hr, if_pos hbridge, ihbelow hbasedBelow hinside, ihrest hbasedRest hbase,
      SdbRows.placed, List.filter_cons_of_neg (by simpa using hr), List.filter_append, List.map_append]

end Search

namespace SdbArray

variable {tree : SdbArray} {sz : Option (BitVec 64)}

theorem Scanned.shown_find (h : tree.Scanned) {p : PlacedRecord}
    (hfirst : tree.placed.find? (PlacedRecord.isMatch vid did) = some p) :
    (tree.rows.shown tree.baseaddr).find? (fun d => d.1.Matches vid did) =
      some (p.record, BitVec.ofNat 64 p.address) := by
  obtain ⟨hroot, hbased⟩ := h.based
  have hsame : (fun q : PlacedRecord => decide (decide (q.record.recordType = sdbTypeDevice) = true ∧
      decide (q.record.Matches vid did) = true)) = PlacedRecord.isMatch vid did := by
    funext q
    simp only [decide_eq_true_eq, PlacedRecord.isMatch, SdbCopy.Matches, ← and_assoc, and_self]
  have hshown : tree.rows.shown tree.baseaddr =
      (tree.placed.filter fun p => p.record.recordType = sdbTypeDevice).map
        fun p => (p.record, BitVec.ofNat 64 p.address) := by
    rw [hroot]
    exact shown_eq hbased rfl
  have hdevice : tree.placed.find? (fun q => decide (decide (q.record.recordType = sdbTypeDevice) = true ∧
      decide (q.record.Matches vid did) = true)) = some p := by
    rw [hsame]
    exact hfirst
  rw [hshown, List.find?_map, List.find?_filter]
  exact congrArg (Option.map _) hdevice

/-- The first device that matches is found at its address with the beginnings of the busses around it. -/
theorem Scanned.find_first (h : tree.Scanned) (hbelow : tree.AddressesBelow) {p : PlacedRecord}
    (hfirst : tree.placed.find? (PlacedRecord.isMatch vid did) = some p) (sz : Option (BitVec 64)) :
    (p.total < 2 ^ 63 → fmcFindSdbDevice tree vid did sz =
      (BitVec.ofNat 64 p.total, sz.map fun _ => p.record.size)) ∧
    (2 ^ 63 ≤ p.total → tree.placed.countP (PlacedRecord.isMatch vid did) ≤ 1 →
      ¬ 0 ≤ (fmcFindSdbDevice tree vid did sz).1.toInt) := by
  obtain ⟨hroot, hbased⟩ := h.based
  obtain ⟨sum, htotal, hfound⟩ := findRows_first hbased rfl (by decide) hbelow hfirst
  rw [List.sum_nil, Nat.add_zero] at htotal
  rw [fmcFindSdbDevice, hroot, ← htotal]
  exact hfound

/-- A search finds a device exactly if the busses around its bus all begin at zero. Where the sum of their
beginnings is too large for a `signed long` and a second device matches, the search may go on to that one. -/
theorem finds_exactly_iff (tree : SdbArray) (hscan : tree.Scanned) (hbelow : tree.AddressesBelow)
    (vid : BitVec 64) (did : BitVec 32) (sz : Option (BitVec 64)) :
    (tree.AroundAtZero vid did → tree.FindsExactly vid did sz) ∧
      ((∀ p, tree.placed.find? (PlacedRecord.isMatch vid did) = some p → p.total < 2 ^ 63) ∨
          tree.placed.countP (PlacedRecord.isMatch vid did) ≤ 1 →
        (tree.FindsExactly vid did sz ↔ tree.AroundAtZero vid did)) := by
  have haddress : ∀ p, tree.placed.find? (PlacedRecord.isMatch vid did) = some p → p.address < 2 ^ 63 := by
    intro p hfirst
    have hmatch : p.isMatch vid did = true := List.find?_some hfirst
    exact hbelow p (List.mem_of_find?_eq_some hfirst) (Or.inl (of_decide_eq_true hmatch).1)
  have henough : tree.AroundAtZero vid did → tree.FindsExactly vid did sz := by
    intro hzero
    have hfound : ∀ p, tree.placed.find? (PlacedRecord.isMatch vid did) = some p →
        fmcFindSdbDevice tree vid did sz = (BitVec.ofNat 64 p.address, sz.map fun _ => p.record.size) := by
      intro p hfirst
      have htotal : p.total = p.address := by
        rw [PlacedRecord.total, List.sum_eq_zero (hzero p hfirst), Nat.add_zero]
      have h := (hscan.find_first hbelow hfirst sz).1
      rw [htotal] at h
      exact h (haddress p hfirst)
    refine ⟨fun p hfirst => ⟨hfound p hfirst, hscan.shown_find hfirst⟩, fun hret => ?_, fun hnone => ?_⟩
    · cases hfirst : tree.placed.find? (PlacedRecord.isMatch vid did) with
      | none => exact fun p hp => (decide_eq_true_iff).not.mp (List.find?_eq_none.mp hfirst p hp)
      | some p =>
        rw [hfound p hfirst] at hret
        have hlt := haddress p hfirst
        have hneg := enodev_neg
        rw [← hret] at hneg
        exact absurd ((ofNat_nonneg_iff (by omega)).mpr hlt) hneg
    · rw [fmcFindSdbDevice, findRows_none hnone]
  refine ⟨henough, fun hcorner => ⟨fun hexact p hfirst => ?_, henough⟩⟩
  have hlt := haddress p hfirst
  obtain ⟨hsum, hlarge⟩ := hscan.find_first hbelow hfirst sz
  have hret := (hexact.found p hfirst).1
  by_cases htotal : p.total < 2 ^ 63
  · rw [hsum htotal, Prod.mk.injEq, ← BitVec.toNat_inj, BitVec.toNat_ofNat, BitVec.toNat_ofNat,
      Nat.mod_eq_of_lt (by omega), Nat.mod_eq_of_lt (by omega)] at hret
    have hzero : p.above.sum = 0 := by
      have hadd := hret.1
      rw [PlacedRecord.total] at hadd
      omega
    exact List.sum_eq_zero_iff.mp hzero
  · have hneg := hlarge (Nat.not_lt.mp htotal) (hcorner.resolve_left fun h => htotal (h p hfirst))
    rw [hret] at hneg
    exact absurd ((ofNat_nonneg_iff (by omega)).mpr hlt) hneg

end SdbArray

/-- The root table has a bridge to a bus that begins at 0x1000, and a device. This bus has a bridge to a
bus that begins at 0x1010, where there is a device. -/
def nestedCarrier : Carrier where
  littleEndian := true
  fmcReadl := fun offset =>
    if offset = 0 ∨ offset = 0x100 ∨ offset = 0x1000 then BitVec.ofNat 32 sdbMagic
    else if offset = 4 then 0x30000
    else if offset = 0x104 ∨ offset = 0x1004 then 0x20000
    -- the bridge and the device of the root table
    else if offset = 0x44 then 0x100
    else if offset = 0x4c then 0x1000
    else if offset = 0x7c then BitVec.ofNat 32 sdbTypeBridge.toNat
    else if offset = 0x9c then 2
    else if offset = 0xbc then BitVec.ofNat 32 sdbTypeDevice.toNat
    -- the bridge of the next table
    else if offset = 0x14c then 0x10
    else if offset = 0x17c then BitVec.ofNat 32 sdbTypeBridge.toNat
    -- the device of the last one
    else if offset = 0x105c then 1
    else if offset = 0x107c then BitVec.ofNat 32 sdbTypeDevice.toNat
    else 0

/-- The tree of the carrier. -/
def nestedTree : SdbArray where
  arr := 0
  record := 1
  subtree := 2
  level := 0
  baseaddr := 0
  rows := .failed (nestedCarrier.readRecord true 0 0) (-enodev)
    (.table (nestedCarrier.readRecord true 0 1) ⟨3, 4, 5, 1, 0x1000⟩
      (.failed (nestedCarrier.readRecord true 0x100 0) (-enodev)
        (.table (nestedCarrier.readRecord true 0x100 1) ⟨6, 7, 8, 2, 0x1010⟩
          (.failed (nestedCarrier.readRecord true 0x1000 0) (-enodev)
            (.failed (nestedCarrier.readRecord true 0x1000 1) (-enodev) .nil)) .nil))
      (.failed (nestedCarrier.readRecord true 0 2) (-enodev) .nil))

theorem nestedTree_scanned : nestedTree.Scanned :=
  ⟨nestedCarrier, fun _ => true, 3, 0, {}, _, rfl⟩

theorem nestedTree_below : nestedTree.AddressesBelow := by
  unfold SdbArray.AddressesBelow
  decide +kernel

/-- The device of the last table. -/
def innerDevice : PlacedRecord := ⟨nestedCarrier.readRecord true 0x1000 1, 0x1010, [0x1000, 0]⟩

theorem nestedTree_inner : nestedTree.placed.find? (PlacedRecord.isMatch 1 0) = some innerDevice := rfl

/-- The device of the root table is found, the one of the last table is not. -/
theorem nestedTree_finds : nestedTree.FindsExactly 2 0 (some 0) ∧ ¬ nestedTree.FindsExactly 1 0 (some 0) := by
  constructor
  · have hexact := SdbArray.finds_exactly_iff nestedTree nestedTree_scanned nestedTree_below 2 0 (some 0)
    refine hexact.1 fun p hp => ?_
    have hroot : nestedTree.placed.find? (PlacedRecord.isMatch 2 0) =
        some ⟨nestedCarrier.readRecord true 0 2, 0, []⟩ := rfl
    cases hroot.symm.trans hp
    exact fun base hbase => absurd hbase List.not_mem_nil
  · have hexact := (SdbArray.finds_exactly_iff nestedTree nestedTree_scanned nestedTree_below 1 0 (some 0)).2
      (Or.inr (by decide +kernel))
    intro hfinds
    exact absurd (hexact.mp hfinds innerDevice nestedTree_inner 0x1000 List.mem_cons_self) (by decide)

/-- The search adds where the bus in the middle begins. -/
theorem inner_device_address : nestedTree.Scanned ∧ nestedTree.AddressesBelow ∧
    ¬ nestedTree.FindsExactly 1 0 (some 0) := by
  refine ⟨nestedTree_scanned, nestedTree_below, fun hfinds => ?_⟩
  have hret := congrArg Prod.fst (hfinds.found innerDevice nestedTree_inner).1
  exact absurd hret (by decide +kernel)

end WhiteRabbit.Fmc
