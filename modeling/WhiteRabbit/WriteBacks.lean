import WhiteRabbit.ConfigReads
import WhiteRabbit.ResponseCursors

/-!
# The write-backs of a reply

Every word of a reply is written to the config space of the master. An even address names the response for
a read value, an odd one for error bits. The operations of a response in progress are in three parts: those
that are settled, those that wait for their error bits only, and those that nothing is known about.
-/

namespace WhiteRabbit.Etherbone

/-- A call of `eb_socket_write_config`. -/
structure WriteBack where
  widths : ℕ
  addr : ℕ
  value : ℕ
  deriving DecidableEq

def Access.writeBack : Access → Option WriteBack
  | .writeConfig widths addr value => some ⟨widths, addr, value⟩
  | _ => none

/-- The calls that the records of a reply make. -/
def writeBacks (p : Port) (replies : List Record) : List WriteBack :=
  (recordAccesses p replies).filterMap Access.writeBack

/-- The first operation of a kind, from a position on. -/
def findFrom (q : Operation → Bool) (ops : List Operation) (i : ℕ) : Option ℕ :=
  ((ops.drop i).findIdx? q).map (i + ·)

section Find

variable {q : Operation → Bool} {X Y Z ops ops' : List Operation}

theorem findFrom_none {i : ℕ} : findFrom q ops i = none ↔ ∀ op ∈ ops.drop i, q op = false := by
  rw [findFrom, Option.map_eq_none_iff, List.findIdx?_eq_none_iff]

theorem findFrom_head {op : Operation} (h : q op = true) : findFrom q (X ++ op :: Y) X.length = some X.length := by
  rw [findFrom, List.drop_left, List.findIdx?_cons, h]
  rfl

/-- Operations of another kind are passed over. -/
theorem findFrom_skip (h : ∀ op ∈ Z, q op = false) :
    findFrom q (X ++ Z ++ Y) X.length = findFrom q (X ++ Z ++ Y) (X.length + Z.length) := by
  have hnone : Z.findIdx? q = none := List.findIdx?_eq_none_iff.mpr h
  have hlength : X.length + Z.length = (X ++ Z).length := List.length_append.symm
  rw [findFrom, findFrom, hlength, List.drop_left, List.append_assoc, List.drop_left, List.findIdx?_append, hnone,
    Option.none_or, Option.map_map, ← hlength]
  congr 1
  funext i
  simp only [Function.comp_apply]
  omega

/-- Where something is found depends on the kinds only. -/
theorem findFrom_congr (h : ops.map q = ops'.map q) (i : ℕ) : findFrom q ops i = findFrom q ops' i := by
  have hkinds : ∀ l : List Operation, (l.drop i).findIdx? q = ((l.map q).drop i).findIdx? id := by
    intro l
    rw [← List.map_drop, List.findIdx?_map]
    rfl
  rw [findFrom, findFrom, hkinds, hkinds, h]

end Find

theorem modify_middle (X Y : List Operation) (op : Operation) (f : Operation → Operation) :
    (X ++ op :: Y).modify X.length f = X ++ f op :: Y := by
  induction X with
  | nil => rfl
  | cons x X ih => rw [List.cons_append, List.length_cons, List.modify_succ_cons, ih, List.cons_append]

theorem map_answered {ops ops' : List Operation} (h : List.Forall₂ Answered ops ops') :
    ops'.map Operation.isRead = ops.map Operation.isRead ∧ ops'.map Operation.isBus = ops.map Operation.isBus := by
  induction h with
  | nil => exact ⟨rfl, rfl⟩
  | cons hop _ ih =>
    simp only [List.map_cons]
    exact ⟨by rw [hop.isRead, ih.1], by rw [hop.isBus, ih.2]⟩

section Marks

variable {B C : List Operation}

/-- As many error bits as bus operations change nothing behind these. -/
theorem markErrors_append (value : ℕ) (B C : List Operation) :
    markErrors value (busCount B) (B ++ C) = markErrors value (busCount B) B ++ C := by
  induction B with
  | nil => simp [markErrors]
  | cons op B ih =>
    cases hcfg : op.cfgSpace with
    | true =>
      have hcount : busCount (op :: B) = busCount B := List.countP_cons_of_neg (by simp [Operation.isBus, hcfg])
      rw [hcount]
      cases hB : busCount B with
      | zero => simp [markErrors]
      | succ n =>
        rw [hB] at ih
        simp only [List.cons_append, markErrors, hcfg, if_true, ih]
    | false =>
      have hcount : busCount (op :: B) = busCount B + 1 := List.countP_cons_of_pos (by simp [Operation.isBus, hcfg])
      rw [hcount]
      simp only [List.cons_append, markErrors, hcfg, Bool.false_eq_true, if_false, ih]

/-- Marks for the first bus operations begin at the first of them. -/
theorem markErrors_skip (value : ℕ) {n : ℕ} {Z : List Operation} (hZ : ∀ op ∈ Z, op.isBus = false)
    (Y : List Operation) : markErrors value (n + 1) (Z ++ Y) = Z ++ markErrors value (n + 1) Y := by
  induction Z with
  | nil => rfl
  | cons op Z ih =>
    obtain ⟨hop, hZ⟩ := List.forall_mem_cons.mp hZ
    have hcfg : op.cfgSpace = true := by simpa [Operation.isBus] using hop
    simp only [List.cons_append, markErrors, hcfg, if_true, ih hZ]

theorem passBus_skip {n : ℕ} {Z : List Operation} (hZ : ∀ op ∈ Z, op.isBus = false) (Y : List Operation) :
    passBus (n + 1) (Z ++ Y) = Z.length + passBus (n + 1) Y := by
  induction Z with
  | nil => rw [List.length_nil, Nat.zero_add]; rfl
  | cons op Z ih =>
    obtain ⟨hop, hZ⟩ := List.forall_mem_cons.mp hZ
    have hcfg : op.cfgSpace = true := by simpa [Operation.isBus] using hop
    rw [List.cons_append, passBus, hcfg, if_pos rfl, ih hZ, List.length_cons]
    omega

/-- The walk over all bus operations of a list ends in it, and leaves only config operations behind. -/
theorem passBus_stop (B C : List Operation) :
    ∃ T Z, B = T ++ Z ∧ passBus (busCount B) (B ++ C) = T.length ∧ ∀ op ∈ Z, op.isBus = false := by
  induction B with
  | nil => exact ⟨[], [], rfl, by simp [passBus], by simp⟩
  | cons op B ih =>
    obtain ⟨T, Z, rfl, hpass, hZ⟩ := ih
    cases hcfg : op.cfgSpace with
    | true =>
      have hcount : busCount (op :: (T ++ Z)) = busCount (T ++ Z) :=
        List.countP_cons_of_neg (by simp [Operation.isBus, hcfg])
      rw [hcount]
      cases hB : busCount (T ++ Z) with
      | zero =>
        refine ⟨[], op :: (T ++ Z), rfl, by simp [passBus], ?_⟩
        intro x hx
        rcases List.mem_cons.mp hx with rfl | hx
        · simp [Operation.isBus, hcfg]
        · exact Bool.eq_false_iff.mpr (List.countP_eq_zero.mp hB x hx)
      | succ n =>
        rw [hB] at hpass
        refine ⟨op :: T, Z, rfl, ?_, hZ⟩
        rw [List.cons_append, passBus, hcfg, if_pos rfl, hpass, List.length_cons, Nat.add_comm]
    | false =>
      have hcount : busCount (op :: (T ++ Z)) = busCount (T ++ Z) + 1 :=
        List.countP_cons_of_pos (by simp [Operation.isBus, hcfg])
      refine ⟨op :: T, Z, rfl, ?_, hZ⟩
      rw [hcount, List.cons_append, passBus, hcfg, if_neg Bool.false_ne_true, hpass, List.length_cons, Nat.add_comm]

end Marks

namespace Response

/-- Both cursors are at the end. -/
def Complete (r : Response) : Prop := r.writeCursor = none ∧ r.statusCursor = none

instance (r : Response) : Decidable r.Complete := inferInstanceAs (Decidable (_ ∧ _))

/-- Write-backs to a response, each of which finds it incomplete and succeeds. Its callback runs when one
completes it. -/
inductive Writes : Response → List WriteBack → Response → Prop
  | nil (r : Response) : Writes r [] r
  | cons {r r' r'' : Response} {w : WriteBack} {ws : List WriteBack} : ¬ r.Complete →
      r.writeBack w.widths w.addr w.value = (r', if r'.Complete then some r'.status else none) →
      Writes r' ws r'' → Writes r (w :: ws) r''

theorem Writes.append {r r' r'' : Response} {ws ws' : List WriteBack} (h : Writes r ws r') (h' : Writes r' ws' r'') :
    Writes r (ws ++ ws') r'' := by
  induction h with
  | nil => exact h'
  | cons hopen hwrite _ ih => exact .cons hopen hwrite (ih h')

/-- How far a response has come, of a cycle whose error bits are `checked` or not. -/
structure Progress (r : Response) (checked : Bool) (settled pending rest : List Operation) : Prop where
  ops : r.ops = settled ++ pending ++ rest
  write : r.writeCursor = findFrom Operation.isRead r.ops (settled.length + pending.length)
  status : r.statusCursor = if checked then findFrom Operation.isBus r.ops settled.length else none

namespace Progress

variable {r : Response} {checked : Bool} {A B C : List Operation}

/-- The response of a cycle that was just sent. -/
theorem start (address deadline device : ℕ) (ops : List Operation) :
    Progress
      { address := address, deadline := deadline, device := device, ops := ops, writeCursor := ebFindRead ops 0
        statusCursor := if needsCheck ops then ebFindBus ops 0 else none } (needsCheck ops) [] [] ops where
  ops := rfl
  write := rfl
  status := rfl

theorem complete_iff (h : r.Progress checked A B C) :
    r.Complete ↔ (∀ op ∈ C, op.isRead = false) ∧ (checked = true → ∀ op ∈ B ++ C, op.isBus = false) := by
  have hread : r.writeCursor = none ↔ ∀ op ∈ C, op.isRead = false := by
    rw [h.write, findFrom_none, h.ops, List.drop_left' List.length_append]
  have hbus : r.statusCursor = none ↔ (checked = true → ∀ op ∈ B ++ C, op.isBus = false) := by
    rw [h.status]
    cases checked with
    | false => simp
    | true => rw [if_pos rfl, findFrom_none, h.ops, List.append_assoc, List.drop_left]; simp
  rw [Complete, hread, hbus]

/-- Writes do not wait for a value. -/
theorem skip {ws : List Operation} (hws : ∀ op ∈ ws, op.isWrite = true) (h : r.Progress checked A B (ws ++ C)) :
    r.Progress checked A (B ++ ws) C where
  ops := by rw [h.ops]; simp only [List.append_assoc]
  write := by
    have hnone : ∀ op ∈ ws, op.isRead = false := fun op hop => by rw [Operation.isRead, hws op hop]; rfl
    have hskip := findFrom_skip (X := A ++ B) (Y := C) hnone
    rw [h.write, h.ops, ← List.append_assoc, List.length_append, ← Nat.add_assoc, ← @List.length_append _ A]
    exact hskip
  status := h.status

/-- The value of the next read. -/
theorem value {op : Operation} (hread : op.isRead = true) (h : r.Progress checked A B (op :: C)) (widths value : ℕ)
    {addr : ℕ} (haddr : addr % 2 = 0) :
    ¬ r.Complete ∧ ∃ r', r.writeBack widths addr value = (r', if r'.Complete then some r'.status else none) ∧
      r'.Progress checked A (B ++ [{ op with value := value }]) C := by
  have hcursor : r.writeCursor = some (A ++ B).length := by
    rw [h.write, h.ops, ← List.length_append]
    exact findFrom_head hread
  have hmodify : r.ops.modify (A ++ B).length (fun op => { op with value := value }) =
      A ++ (B ++ [{ op with value := value }]) ++ C := by
    rw [h.ops, modify_middle]
    simp only [List.append_assoc, List.singleton_append]
  have hanswered : List.Forall₂ Answered r.ops (A ++ (B ++ [{ op with value := value }]) ++ C) := by
    rw [← hmodify]
    exact answered_modify r.ops _ value
  obtain ⟨hreads, hbus⟩ := map_answered hanswered
  refine ⟨fun hc => absurd (hcursor.symm.trans hc.1) (by simp),
    { r with
      ops := r.ops.modify (A ++ B).length fun op => { op with value := value }
      writeCursor := ebFindRead r.ops ((A ++ B).length + 1) }, ?_, ⟨hmodify, ?_, ?_⟩⟩
  · rw [writeBack, if_pos haddr, writeValue, hcursor]
    rfl
  · dsimp only
    rw [hmodify, findFrom_congr hreads]
    congr 1
    simp only [List.length_append, List.length_singleton]
    omega
  · dsimp only
    rw [hmodify, findFrom_congr hbus]
    exact h.status

/-- The values of a run of reads. -/
theorem values {rs rs' : List Operation} (hrs : List.Forall₂ (fun op op' => op' = { op with value := op'.value }) rs rs')
    (hreads : ∀ op ∈ rs, op.isRead = true) (widths : Operation → ℕ) {addr : ℕ} (haddr : addr % 2 = 0)
    (h : r.Progress checked A B (rs ++ C)) :
    ∃ r', Writes r (rs'.map fun op => ⟨widths op, addr, op.value⟩) r' ∧ r'.Progress checked A (B ++ rs') C := by
  induction hrs generalizing r B with
  | nil => exact ⟨r, .nil r, by rwa [List.append_nil]⟩
  | @cons op op' rs rs' hop _ ih =>
    obtain ⟨hread, hreads⟩ := List.forall_mem_cons.mp hreads
    obtain ⟨hopen, r₁, hwrite, h₁⟩ := h.value hread (widths op') op'.value haddr
    rw [← hop] at h₁
    obtain ⟨r₂, hwrites, h₂⟩ := ih hreads h₁
    exact ⟨r₂, .cons hopen hwrite hwrites, by rwa [List.append_assoc, List.singleton_append] at h₂⟩

/-- Error bits for all operations that wait for them. -/
theorem marked (h : r.Progress true A B C) (widths : ℕ) (hpos : 0 < busCount B)
    (hcount : busCount B = (widths &&& ebDataX) * 8 ∨
      busCount B ≤ (widths &&& ebDataX) * 8 ∧ busCount C = 0) (value : ℕ) {addr : ℕ} (haddr : addr % 2 = 1) :
    ¬ r.Complete ∧ ∃ r', r.writeBack widths addr value = (r', if r'.Complete then some r'.status else none) ∧
      r'.Progress true (A ++ markErrors value (busCount B) B) [] C := by
  -- the cursor is on the first bus operation that waits
  obtain ⟨Z, op, Y, hB, hZ, hbus⟩ : ∃ Z op Y, B = Z ++ op :: Y ∧ (∀ x ∈ Z, x.isBus = false) ∧ op.isBus = true := by
    obtain ⟨x, hx, hxbus⟩ := List.countP_pos_iff.mp hpos
    obtain ⟨op, Z, Y, hZ, hbus, hB, -⟩ := List.exists_of_eraseP hx hxbus
    exact ⟨Z, op, Y, hB, fun y hy => Bool.eq_false_iff.mpr (hZ y hy), hbus⟩
  have hsplit : r.ops = A ++ Z ++ (op :: (Y ++ C)) := by rw [h.ops, hB]; simp only [List.append_assoc, List.cons_append]
  have hcursor : r.statusCursor = some (A.length + Z.length) := by
    have hskip := findFrom_skip (X := A) (Y := op :: (Y ++ C)) hZ
    rw [h.status, if_pos rfl, hsplit, hskip, ← List.length_append]
    exact findFrom_head hbus
  have hdrop : r.ops.drop (A.length + Z.length) = op :: (Y ++ C) := by
    rw [hsplit, List.drop_left' List.length_append]
  have hrest : (op :: (Y ++ C)).countP Operation.isBus = busCount B + busCount C := by
    have hnone : busCount Z = 0 := List.countP_eq_zero.mpr fun x hx => by rw [hZ x hx]; exact Bool.false_ne_true
    rw [hB, busCount_append, hnone, Nat.zero_add, ← busCount_append]
    rfl
  have hcounted : r.counted widths = busCount B := by
    rw [counted, hcursor, Option.elim_some, hdrop, hrest]
    dsimp only
    split
    · omega
    · omega
  obtain ⟨n, hn⟩ : ∃ n, busCount B = n + 1 := ⟨busCount B - 1, by omega⟩
  have hmarks : r.ops.take (A.length + Z.length) ++ markErrors value (busCount B) (op :: (Y ++ C)) =
      A ++ markErrors value (busCount B) B ++ C := by
    have htake : r.ops.take (A.length + Z.length) = A ++ Z := by rw [hsplit, List.take_left' List.length_append]
    have hwhole : Z ++ (op :: (Y ++ C)) = B ++ C := by rw [hB]; simp only [List.append_assoc, List.cons_append]
    rw [htake, List.append_assoc, List.append_assoc, ← markErrors_append, ← hwhole, hn, markErrors_skip value hZ]
  obtain ⟨T, Z', hT, hpass, hZ'⟩ := passBus_stop B C
  have hpass' : A.length + Z.length + passBus (busCount B) (op :: (Y ++ C)) = A.length + T.length := by
    have hwhole : Z ++ (op :: (Y ++ C)) = B ++ C := by rw [hB]; simp only [List.append_assoc, List.cons_append]
    rw [← hpass, ← hwhole, hn, passBus_skip hZ, Nat.add_assoc]
  have hanswered : List.Forall₂ Answered r.ops (A ++ markErrors value (busCount B) B ++ C) := by
    rw [h.ops]
    exact List.rel_append (List.rel_append (answered_refl A) (answered_markErrors value _ B)) (answered_refl C)
  obtain ⟨hreads, hbuses⟩ := map_answered hanswered
  have hlength : (markErrors value (busCount B) B).length = B.length :=
    (answered_markErrors value (busCount B) B).length_eq.symm
  refine ⟨fun hc => absurd (hcursor.symm.trans hc.2) (by simp),
    { r with
      ops := r.ops.take (A.length + Z.length) ++ markErrors value (busCount B) (op :: (Y ++ C))
      statusCursor := ebFindBus r.ops (A.length + Z.length + passBus (busCount B) (op :: (Y ++ C))) },
    ?_, ⟨?_, ?_, ?_⟩⟩
  · have hodd : ¬ addr % 2 = 0 := by omega
    rw [writeBack, if_neg hodd, writeStatus_counted, hcursor, Option.bind_some, hcounted, if_neg (by omega), hdrop]
    rfl
  · dsimp only
    rw [hmarks, List.append_nil]
  · dsimp only
    rw [hmarks, findFrom_congr hreads, h.write]
    simp only [List.length_append, hlength, List.length_nil, Nat.add_zero]
  · dsimp only
    have hskip := findFrom_skip (X := A ++ T) (Y := C) hZ'
    have hops : A ++ T ++ Z' ++ C = r.ops := by rw [h.ops, hT]; simp only [List.append_assoc]
    rw [hops] at hskip
    rw [hmarks, findFrom_congr hbuses, if_pos rfl, hpass', List.length_append, hlength, hT, List.length_append,
      ← Nat.add_assoc, ← @List.length_append _ A, ← hskip]
    rfl

end Progress

end Response

end WhiteRabbit.Etherbone
