import Mathlib.Data.List.Chain
import Mathlib.Data.List.Induction
import WhiteRabbit.GroupPacking

/-!
# The sections of a packing

Which groups share a packet follows from the sizes of the groups alone. They fall into
sections: first groups that are too large for any packet, then groups that are kept, up to
the group that does not fit behind them. Each section is a packet. The items placed while a
packet was filled are those of its section, but for the head of its first group, which was
placed behind the packet before, and with the head of the group that ends it.
-/

namespace WhiteRabbit.GroupPacking

variable {α : Type*}

/-- The items of a list that fit into a room, from the front on. -/
def fitting (size : α → ℕ) : ℕ → List α → List α
  | _, [] => []
  | room, x :: xs => if size x ≤ room then x :: fitting size (room - size x) xs else []

section Fitting

variable {size : α → ℕ}

@[simp] theorem load_cons (size : α → ℕ) (x : α) (xs : List α) : load size (x :: xs) = size x + load size xs :=
  List.sum_cons

theorem fitting_prefix (size : α → ℕ) (room : ℕ) (xs : List α) : fitting size room xs <+: xs := by
  induction xs generalizing room with
  | nil => exact List.prefix_refl _
  | cons x xs ih =>
    rw [fitting]
    split
    · exact List.cons_prefix_cons.mpr ⟨rfl, ih _⟩
    · exact List.nil_prefix

theorem load_fitting (size : α → ℕ) (room : ℕ) (xs : List α) : load size (fitting size room xs) ≤ room := by
  induction xs generalizing room with
  | nil => exact Nat.zero_le _
  | cons x xs ih =>
    rw [fitting]
    split
    · have hrest := ih (room - size x)
      rw [load_cons]
      omega
    · exact Nat.zero_le _

/-- A list that fits is placed as a whole. -/
theorem fitting_all {room : ℕ} {xs : List α} (h : load size xs ≤ room) : fitting size room xs = xs := by
  induction xs generalizing room with
  | nil => rfl
  | cons x xs ih =>
    rw [load_cons] at h
    rw [fitting, if_pos (by omega), ih (by omega)]

theorem fitting_append {room : ℕ} {xs : List α} (h : load size xs ≤ room) (ys : List α) :
    fitting size room (xs ++ ys) = xs ++ fitting size (room - load size xs) ys := by
  induction xs generalizing room with
  | nil => rfl
  | cons x xs ih =>
    rw [load_cons] at h
    rw [List.cons_append, fitting, if_pos (by omega), ih (by omega), load_cons, Nat.sub_sub, List.cons_append]

/-- A larger room takes what a smaller one takes, and then what fits behind that. -/
theorem fitting_split {room more : ℕ} (h : room ≤ more) (xs : List α) : fitting size more xs =
    fitting size room xs ++
      fitting size (more - load size (fitting size room xs)) (xs.drop (fitting size room xs).length) := by
  obtain ⟨rest, hrest⟩ := fitting_prefix size room xs
  have hload := load_fitting size room xs
  generalize fitting size room xs = head at hrest hload ⊢
  subst hrest
  rw [List.drop_left, fitting_append (Nat.le_trans hload h)]

end Fitting

/-- Groups that are too large, and the groups of the packet that comes after them. -/
structure Section (α : Type*) where
  dropped : List (List α)
  kept : List (List α)

namespace Section

variable (size : α → ℕ) (cap : ℕ)

def groups (s : Section α) : List (List α) := s.dropped ++ s.kept

/-- A packet is sent because the next group does not fit behind it. -/
def Closes (s t : Section α) : Prop :=
  s.kept ≠ [] ∧ ∃ g ∈ t.groups.head?, cap < load size s.kept.flatten + load size g

end Section

section Sections

variable (size : α → ℕ) (cap : ℕ)

/-- The groups fall into the sections. -/
structure Divides (gs : List (List α)) (ss : List (Section α)) : Prop where
  groups : ss.flatMap Section.groups = gs
  dropped : ∀ s ∈ ss, ∀ g ∈ s.dropped, cap < load size g
  kept : ∀ s ∈ ss, load size s.kept.flatten ≤ cap
  closes : ss.IsChain (Section.Closes size cap)

/-- The head of the next group: what of it fits behind the groups of a packet. -/
def straddling (kept : List (List α)) (rest : List (Section α)) : List α :=
  fitting size (cap - load size kept.flatten) ((rest.flatMap Section.groups).headD [])

/-- What is placed while the packet of a section is filled; `moved` was placed before. -/
def formatted (moved : List α) (s : Section α) (rest : List (Section α)) : List α :=
  (s.groups.flatMap (fitting size cap)).drop moved.length ++ straddling size cap s.kept rest

/-- The packets of some sections. The last section may have none. -/
def sectionPackets : List α → List (Section α) → List (Packet α)
  | _, [] => []
  | moved, s :: rest =>
    (if s.kept = [] then [] else [⟨s.kept, formatted size cap moved s rest⟩]) ++
      sectionPackets (straddling size cap s.kept rest) rest

/-- No packet is filled over a bound, the head of the next group included, nor by the part of a large group that is
placed. -/
def Inside (bound : ℕ) : List (Section α) → Prop
  | [] => True
  | s :: rest => load size s.kept.flatten + load size (straddling size cap s.kept rest) ≤ bound ∧
      (∀ g ∈ s.dropped, load size (fitting size cap g) ≤ bound) ∧ Inside bound rest

end Sections

section Division

variable {size : α → ℕ} {cap : ℕ}

/-- Groups that fit together are placed as a whole. -/
theorem flatMap_fitting {gs : List (List α)} (h : load size gs.flatten ≤ cap) :
    gs.flatMap (fitting size cap) = gs.flatten := by
  induction gs with
  | nil => rfl
  | cons g gs ih =>
    rw [List.flatten_cons, load_append] at h
    rw [List.flatMap_cons, List.flatten_cons, fitting_all (by omega), ih (by omega)]

theorem formatted_eq {s : Section α} (h : load size s.kept.flatten ≤ cap) (moved : List α) (rest : List (Section α)) :
    formatted size cap moved s rest =
      (s.dropped.flatMap (fitting size cap) ++ s.kept.flatten).drop moved.length ++
        straddling size cap s.kept rest := by
  rw [formatted, Section.groups, List.flatMap_append, flatMap_fitting h]

theorem straddling_cons {kept : List (List α)} {s : Section α} {rest : List (Section α)} {g : List α}
    {gs : List (List α)} (h : s.groups = g :: gs) :
    straddling size cap kept (s :: rest) = fitting size (cap - load size kept.flatten) g := by
  rw [straddling, List.flatMap_cons, h]
  rfl

section Chains

variable {s : Section α} {ss : List (Section α)}

/-- Only the last section may be without a packet. -/
theorem eq_nil_of_chain (h : (s :: ss).IsChain (Section.Closes size cap)) (hnil : s.kept = []) : ss = [] := by
  cases ss with
  | nil => rfl
  | cons t ss => exact absurd hnil (List.isChain_cons_cons.mp h).1.1

/-- What comes behind a section does not depend on the groups it drops. -/
theorem chain_kept (h : (s :: ss).IsChain (Section.Closes size cap)) :
    ((⟨[], s.kept⟩ : Section α) :: ss).IsChain (Section.Closes size cap) := by
  cases ss with
  | nil => exact List.isChain_singleton _
  | cons t ss =>
    obtain ⟨hclose, hrest⟩ := List.isChain_cons_cons.mp h
    exact List.isChain_cons_cons.mpr ⟨hclose, hrest⟩

end Chains

namespace Divides

variable {gs : List (List α)} {ss : List (Section α)} {s : Section α} {g : List α}

/-- A group that does not fit behind the last packet starts a section. -/
theorem new (h : Divides size cap gs ss) (hgroups : s.groups = [g]) (hdropped : ∀ g ∈ s.dropped, cap < load size g)
    (hkept : load size s.kept.flatten ≤ cap) (hcloses : ∀ t ∈ ss.getLast?, t.Closes size cap s) :
    Divides size cap (gs ++ [g]) (ss ++ [s]) where
  groups := by
    rw [List.flatMap_append, h.groups]
    simp [hgroups]
  dropped t ht := by
    rcases List.mem_append.mp ht with ht | ht
    · exact h.dropped t ht
    · rw [List.mem_singleton.mp ht]
      exact hdropped
  kept t ht := by
    rcases List.mem_append.mp ht with ht | ht
    · exact h.kept t ht
    · rw [List.mem_singleton.mp ht]
      exact hkept
  closes := by
    rw [List.isChain_append]
    refine ⟨h.closes, List.isChain_singleton _, fun t ht u hu => ?_⟩
    cases hu
    exact hcloses t ht

/-- A group joins the last section. -/
theorem join {t : Section α} (h : Divides size cap gs (ss ++ [t])) (hgroups : s.groups = t.groups ++ [g])
    (hdropped : ∀ g ∈ s.dropped, cap < load size g) (hkept : load size s.kept.flatten ≤ cap) :
    Divides size cap (gs ++ [g]) (ss ++ [s]) where
  groups := by
    have hbefore := h.groups
    rw [List.flatMap_append, List.flatMap_singleton] at hbefore
    rw [List.flatMap_append, List.flatMap_singleton, hgroups, ← List.append_assoc, hbefore]
  dropped u hu := by
    rcases List.mem_append.mp hu with hu | hu
    · exact h.dropped u (List.mem_append_left _ hu)
    · rw [List.mem_singleton.mp hu]
      exact hdropped
  kept u hu := by
    rcases List.mem_append.mp hu with hu | hu
    · exact h.kept u (List.mem_append_left _ hu)
    · rw [List.mem_singleton.mp hu]
      exact hkept
  closes := by
    obtain ⟨hchain, -, hlast⟩ := List.isChain_append.mp h.closes
    rw [List.isChain_append]
    refine ⟨hchain, List.isChain_singleton _, fun u hu v hv => ?_⟩
    cases hv
    obtain ⟨hne, first, hfirst, hload⟩ := hlast u hu t rfl
    refine ⟨hne, first, ?_, hload⟩
    rw [hgroups, List.head?_append, Option.mem_def.mp hfirst]
    rfl

end Divides

/-- Every list of groups falls into sections. -/
theorem exists_divides (size : α → ℕ) (cap : ℕ) (gs : List (List α)) : ∃ ss, Divides size cap gs ss := by
  induction gs using List.reverseRecOn with
  | nil => exact ⟨[], rfl, by simp, by simp, List.isChain_nil⟩
  | append_singleton gs g ih =>
    obtain ⟨ss, h⟩ := ih
    rcases List.eq_nil_or_concat' ss with rfl | ⟨ss, s, rfl⟩
    · by_cases hg : load size g ≤ cap
      · exact ⟨_, h.new (s := ⟨[], [g]⟩) rfl (by simp) (by simpa using hg) (by simp)⟩
      · exact ⟨_, h.new (s := ⟨[g], []⟩) rfl (by simpa using hg) (by simp) (by simp)⟩
    · have hdropped := h.dropped s (by simp)
      have hkept := h.kept s (by simp)
      by_cases hg : load size g ≤ cap
      · by_cases hfit : load size s.kept.flatten + load size g ≤ cap
        · exact ⟨_, h.join (s := ⟨s.dropped, s.kept ++ [g]⟩) (by simp [Section.groups]) hdropped (by simpa using hfit)⟩
        · have hne : s.kept ≠ [] := by
            intro hnil
            rw [hnil] at hfit
            simp [hg] at hfit
          refine ⟨_, h.new (s := ⟨[], [g]⟩) rfl (by simp) (by simpa using hg) fun t ht => ?_⟩
          rw [List.getLast?_concat] at ht
          cases ht
          exact ⟨hne, g, rfl, Nat.lt_of_not_le hfit⟩
      · by_cases hnil : s.kept = []
        · refine ⟨_, h.join (s := ⟨s.dropped ++ [g], []⟩) (by simp [Section.groups, hnil]) (fun d hd => ?_) (by simp)⟩
          rcases List.mem_append.mp hd with hd | hd
          · exact hdropped d hd
          · rw [List.mem_singleton.mp hd]
            exact Nat.lt_of_not_le hg
        · refine ⟨_, h.new (s := ⟨[g], []⟩) rfl (by simpa using hg) (by simp) fun t ht => ?_⟩
          rw [List.getLast?_concat] at ht
          cases ht
          exact ⟨hnil, g, rfl, Nat.lt_of_lt_of_le (Nat.lt_of_not_le hg) (Nat.le_add_left _ _)⟩

end Division

section Placing

variable {size : α → ℕ} {cap : ℕ} {s : Packing α}

/-- Place items that there is room for. -/
def Packing.putAll (size : α → ℕ) (s : Packing α) (xs : List α) : Packing α :=
  { s with
    current := s.current ++ xs
    visited := s.visited ++ xs
    peak := max s.peak (s.fill size + load size xs) }

theorem Packing.put_fill (s : Packing α) (x : α) : (s.put size x).fill size = s.fill size + size x := by
  simp [fill, put, Nat.add_assoc]

theorem Packing.putAll_nil (h : s.fill size ≤ s.peak) : s.putAll size [] = s := by
  simp [putAll, h]

theorem Packing.putAll_cons (s : Packing α) (x : α) (xs : List α) :
    (s.put size x).putAll size xs = s.putAll size (x :: xs) := by
  have hpeak : max (max s.peak (s.fill size + size x)) (s.fill size + size x + load size xs) =
      max s.peak (s.fill size + load size (x :: xs)) := by
    rw [load_cons]
    omega
  simp only [putAll, put_fill]
  simp only [put, hpeak, List.append_assoc, List.singleton_append]

theorem placeAll_fits {xs : List α} (hpeak : s.fill size ≤ s.peak) (h : s.fill size + load size xs ≤ cap) :
    placeAll size cap s xs = (s.putAll size xs, true) := by
  induction xs generalizing s with
  | nil => rw [placeAll, Packing.putAll_nil hpeak]
  | cons x xs ih =>
    rw [load_cons] at h
    have hput : (s.put size x).fill size ≤ (s.put size x).peak := by
      rw [Packing.put_fill]
      exact Nat.le_max_right _ _
    rw [placeAll, place, if_pos (by omega)]
    dsimp only
    rw [ih hput (by rw [Packing.put_fill]; omega), Packing.putAll_cons]

/-- A packet without a closed group takes what it can. -/
theorem placeAll_stuck {xs : List α} (hpeak : s.fill size ≤ s.peak) (hclosed : s.closed = [])
    (hfill : s.fill size ≤ cap) (h : cap < s.fill size + load size xs) :
    placeAll size cap s xs = (s.putAll size (fitting size (cap - s.fill size) xs), false) := by
  induction xs generalizing s with
  | nil =>
    rw [load_nil] at h
    omega
  | cons x xs ih =>
    rw [load_cons] at h
    have hclose : s.close = s := by rw [Packing.close, if_pos hclosed]
    have hput : (s.put size x).fill size ≤ (s.put size x).peak := by
      rw [Packing.put_fill]
      exact Nat.le_max_right _ _
    rw [placeAll, place, hclose, fitting]
    by_cases hx : s.fill size + size x ≤ cap
    · rw [if_pos hx, if_pos (by omega)]
      dsimp only
      rw [ih hput hclosed (by rw [Packing.put_fill]; exact hx) (by rw [Packing.put_fill]; omega), Packing.putAll_cons,
        Packing.put_fill, Nat.sub_sub]
    · have hroom : ¬ size x ≤ cap - s.fill size := by omega
      simp only [if_neg hx, if_neg hroom]
      rw [Packing.putAll_nil hpeak]

/-- A packet with closed groups is sent when it is full, and the rest goes to the next one. -/
theorem placeAll_turn {xs : List α} (hpeak : s.fill size ≤ s.peak) (hclosed : s.closed ≠ [])
    (hfill : s.fill size ≤ cap) (h : cap < s.fill size + load size xs) : placeAll size cap s xs =
      placeAll size cap (s.putAll size (fitting size (cap - s.fill size) xs)).close
        (xs.drop (fitting size (cap - s.fill size) xs).length) := by
  induction xs generalizing s with
  | nil =>
    rw [load_nil] at h
    omega
  | cons x xs ih =>
    rw [load_cons] at h
    have hput : (s.put size x).fill size ≤ (s.put size x).peak := by
      rw [Packing.put_fill]
      exact Nat.le_max_right _ _
    rw [fitting]
    by_cases hx : s.fill size + size x ≤ cap
    · rw [placeAll, place, if_pos hx, if_pos (by omega)]
      dsimp only
      rw [ih hput hclosed (by rw [Packing.put_fill]; exact hx) (by rw [Packing.put_fill]; omega), Packing.putAll_cons,
        Packing.put_fill, Nat.sub_sub]
      rfl
    · have hempty : s.close.closed = [] := by rw [Packing.close, if_neg hclosed]
      have hclose : s.close.close = s.close := by rw [Packing.close, if_pos hempty]
      rw [if_neg (by omega), Packing.putAll_nil hpeak, List.length_nil, List.drop_zero, placeAll, placeAll, place, place,
        if_neg hx, hclose]
      dsimp only
      by_cases hroom : s.close.fill size + size x ≤ cap
      · simp only [if_pos hroom]
      · simp only [if_neg hroom]

end Placing

/-- What a packing has between two groups. `Peak` are the bounds of its largest fill. -/
structure Packing.Holds (size : α → ℕ) (s : Packing α) (packets : List (Packet α)) (closed : List (List α))
    (visited : List α) (Peak : ℕ → Prop) : Prop where
  packets : s.packets = packets
  closed : s.closed = closed
  current : s.current = []
  visited : s.visited = visited
  peaked : s.fill size ≤ s.peak
  peak : ∀ bound, s.peak ≤ bound ↔ Peak bound

namespace Packing.Holds

variable {size : α → ℕ} {cap : ℕ} {s : Packing α} {packets : List (Packet α)} {closed : List (List α)}
  {visited : List α} {Peak Peak' : ℕ → Prop} {g : List α}

theorem fill_eq (h : s.Holds size packets closed visited Peak) : s.fill size = load size closed.flatten := by
  rw [fill, h.closed, h.current, load_nil, Nat.add_zero]

theorem load_le (h : s.Holds size packets closed visited Peak) {bound : ℕ} (hbound : Peak bound) :
    load size closed.flatten ≤ bound := by
  rw [← h.fill_eq]
  exact Nat.le_trans h.peaked ((h.peak bound).mpr hbound)

theorem congr (h : s.Holds size packets closed visited Peak) (hpeak : ∀ bound, Peak bound ↔ Peak' bound) :
    s.Holds size packets closed visited Peak' :=
  ⟨h.packets, h.closed, h.current, h.visited, h.peaked, fun bound => (h.peak bound).trans (hpeak bound)⟩

theorem empty : (Packing.empty : Packing α).Holds size [] [] [] fun _ => True :=
  ⟨rfl, rfl, rfl, rfl, Nat.le_refl _, fun _ => iff_of_true (Nat.zero_le _) trivial⟩

/-- A group that fits joins the packet. -/
theorem fits (h : s.Holds size packets closed visited Peak) (hfit : load size closed.flatten + load size g ≤ cap) :
    (placeGroup size cap s g).1.Holds size packets (closed ++ [g]) (visited ++ g)
      fun bound => Peak bound ∧ load size closed.flatten + load size g ≤ bound := by
  have hall := placeAll_fits h.peaked (h.fill_eq ▸ hfit)
  rw [placeGroup, hall]
  refine ⟨h.packets, ?_, rfl, ?_, ?_, fun bound => ?_⟩
  · simp [putAll, h.closed, h.current]
  · simp [putAll, h.visited]
  · simp only [putAll, fill, h.closed, h.current]
    simp [Nat.le_max_right]
  · simp only [putAll, h.fill_eq, Nat.max_le, h.peak]

/-- A group that is too large leaves nothing but what was placed of it. -/
theorem large (h : s.Holds size packets [] visited Peak) (hlarge : cap < load size g) :
    (placeGroup size cap s g).1.Holds size packets [] (visited ++ fitting size cap g)
      fun bound => Peak bound ∧ load size (fitting size cap g) ≤ bound := by
  have hfill : s.fill size = 0 := h.fill_eq
  have hall := placeAll_stuck h.peaked h.closed (hfill ▸ Nat.zero_le cap) (by omega : cap < s.fill size + load size g)
  rw [hfill, Nat.sub_zero] at hall
  rw [placeGroup, hall]
  refine ⟨h.packets, h.closed, rfl, ?_, ?_, fun bound => ?_⟩
  · simp [putAll, h.visited]
  · simp [putAll, fill, h.closed]
  · simp only [putAll, hfill, Nat.zero_add, Nat.max_le, h.peak]

/-- A group that does not fit sends the packet, its head having been placed behind it. -/
theorem turn (h : s.Holds size packets closed visited Peak) (hne : closed ≠ [])
    (hcap : load size closed.flatten ≤ cap) (hover : cap < load size closed.flatten + load size g) :
    (placeGroup size cap s g).1.Holds size
      (packets ++ [⟨closed, visited ++ fitting size (cap - load size closed.flatten) g⟩])
      (if load size g ≤ cap then [g] else [])
      ((fitting size cap g).drop (fitting size (cap - load size closed.flatten) g).length)
      fun bound => Peak bound ∧
        load size closed.flatten + load size (fitting size (cap - load size closed.flatten) g) ≤ bound ∧
        load size (fitting size cap g) ≤ bound := by
  have hturn := placeAll_turn h.peaked (h.closed ▸ hne) (h.fill_eq ▸ hcap) (h.fill_eq ▸ hover)
  have hsplit := @fitting_split α size _ cap (Nat.sub_le cap (load size closed.flatten)) g
  obtain ⟨rest, hrest⟩ := fitting_prefix size (cap - load size closed.flatten) g
  rw [h.fill_eq] at hturn
  generalize fitting size (cap - load size closed.flatten) g = head at hturn hsplit hrest ⊢
  subst hrest
  rw [List.drop_left] at hturn hsplit
  -- the packet that was full is sent
  have hclosed : (s.putAll size head).closed = closed := h.closed
  have hsent : (s.putAll size head).close =
      ⟨packets ++ [⟨closed, visited ++ head⟩], [], head, [], max s.peak (load size closed.flatten + load size head)⟩ := by
    rw [close, hclosed, if_neg hne]
    simp [putAll, h.packets, h.current, h.visited, h.fill_eq]
  rw [hsent] at hturn
  generalize hstate : (⟨packets ++ [⟨closed, visited ++ head⟩], [], head, [],
    max s.peak (load size closed.flatten + load size head)⟩ : Packing α) = t at hturn
  have hfill : t.fill size = load size head := by rw [← hstate]; simp [fill]
  have hpeaked : t.fill size ≤ t.peak := by
    rw [hfill, ← hstate]
    exact Nat.le_trans (Nat.le_add_left _ _) (Nat.le_max_right _ _)
  rw [load_append] at hover ⊢
  rw [placeGroup, hturn]
  by_cases hfit : load size head + load size rest ≤ cap
  · have hwhole : fitting size cap (head ++ rest) = head ++ rest := fitting_all (by rw [load_append]; exact hfit)
    rw [placeAll_fits hpeaked (hfill ▸ hfit), if_pos hfit, hwhole, List.drop_left]
    refine ⟨?_, ?_, rfl, ?_, ?_, fun bound => ?_⟩
    · rw [putAll, ← hstate]
    · simp [putAll, ← hstate]
    · simp [putAll, ← hstate]
    · simp only [putAll, hfill]
      simp only [fill, ← hstate, List.nil_append, List.flatten_singleton, load_append, load_nil, Nat.add_zero]
      exact Nat.le_max_right _ _
    · simp only [putAll, hfill, load_append, Nat.max_le]
      rw [← hstate]
      simp only [Nat.max_le, h.peak, and_assoc]
  · have hover' : cap < t.fill size + load size rest := by omega
    have hheadcap : t.fill size ≤ cap := by
      rw [hfill]
      have hle := load_fitting size cap (head ++ rest)
      rw [hsplit, load_append] at hle
      omega
    have htclosed : t.closed = [] := by rw [← hstate]
    rw [placeAll_stuck hpeaked htclosed hheadcap hover', if_neg hfit, hsplit, List.drop_left, hfill]
    refine ⟨?_, ?_, rfl, ?_, ?_, fun bound => ?_⟩
    · rw [putAll, ← hstate]
    · simp [putAll, ← hstate]
    · simp [putAll, ← hstate]
    · simp [putAll, fill, ← hstate]
    · simp only [putAll, hfill, load_append, Nat.max_le]
      rw [← hstate]
      simp only [Nat.max_le, h.peak, and_assoc]

theorem packGroups_cons (s : Packing α) (g : List α) (gs : List (List α)) :
    (packGroups size cap s (g :: gs)).1 = (packGroups size cap (placeGroup size cap s g).1 gs).1 := rfl

theorem packGroups_append (s : Packing α) (gs hs : List (List α)) :
    (packGroups size cap s (gs ++ hs)).1 = (packGroups size cap (packGroups size cap s gs).1 hs).1 := by
  induction gs generalizing s with
  | nil => rfl
  | cons g gs ih => exact ih _

/-- Groups that fit join the packet. -/
theorem allFit (h : s.Holds size packets closed visited Peak) (gs : List (List α))
    (hfit : load size closed.flatten + load size gs.flatten ≤ cap) :
    (packGroups size cap s gs).1.Holds size packets (closed ++ gs) (visited ++ gs.flatMap (fitting size cap))
      fun bound => Peak bound ∧ load size closed.flatten + load size gs.flatten ≤ bound := by
  induction gs generalizing s closed visited Peak with
  | nil =>
    simp only [List.append_nil, List.flatMap_nil, List.flatten_nil, load_nil, Nat.add_zero]
    exact h.congr fun bound => ⟨fun hbound => ⟨hbound, h.load_le hbound⟩, And.left⟩
  | cons g gs ih =>
    rw [List.flatten_cons, load_append] at hfit
    have hg : load size closed.flatten + load size g ≤ cap := by omega
    have hfirst := h.fits hg
    have hload : load size (closed ++ [g]).flatten = load size closed.flatten + load size g := by simp
    have hall := ih hfirst (by omega)
    have hwhole : fitting size cap g = g := fitting_all (by omega)
    rw [packGroups_cons, List.flatMap_cons, hwhole, List.append_cons closed, ← List.append_assoc]
    refine hall.congr fun bound => ?_
    rw [hload, List.flatten_cons, load_append, Nat.add_assoc]
    exact ⟨fun hbound => ⟨hbound.1.1, hbound.2⟩, fun hbound => ⟨⟨hbound.1, by omega⟩, hbound.2⟩⟩

/-- What is left of a section: its large groups, unless a packet has begun, and its packet. -/
theorem rest (h : s.Holds size packets closed visited Peak) {large : List (List α)} (kept : List (List α))
    (hlarge : ∀ g ∈ large, cap < load size g) (hempty : large = [] ∨ closed = [])
    (hfit : load size closed.flatten + load size kept.flatten ≤ cap) :
    (packGroups size cap s (large ++ kept)).1.Holds size packets (closed ++ kept)
      (visited ++ (large ++ kept).flatMap (fitting size cap))
      fun bound => Peak bound ∧ (∀ g ∈ large, load size (fitting size cap g) ≤ bound) ∧
        load size closed.flatten + load size kept.flatten ≤ bound := by
  induction large generalizing s visited Peak with
  | nil =>
    refine (h.allFit kept hfit).congr fun bound => ?_
    simp
  | cons g large ih =>
    obtain ⟨hfirst, hlarge⟩ := List.forall_mem_cons.mp hlarge
    rcases hempty with hnil | rfl
    · cases hnil
    have hrest := ih (h.large hfirst) hlarge (.inr rfl)
    rw [List.cons_append, packGroups_cons, List.flatMap_cons, ← List.append_assoc]
    refine hrest.congr fun bound => ?_
    rw [List.forall_mem_cons, and_assoc, and_assoc]

/-- A section after a packet that is sent. -/
theorem next {t : Section α} (h : s.Holds size packets closed visited Peak)
    (hcap : load size closed.flatten ≤ cap) (hcloses : (⟨[], closed⟩ : Section α).Closes size cap t)
    (hdropped : ∀ g ∈ t.dropped, cap < load size g) (hkept : load size t.kept.flatten ≤ cap) (ss : List (Section α)) :
    (packGroups size cap s t.groups).1.Holds size
      (packets ++ [⟨closed, visited ++ straddling size cap closed (t :: ss)⟩]) t.kept
      ((t.groups.flatMap (fitting size cap)).drop (straddling size cap closed (t :: ss)).length)
      fun bound => Peak bound ∧
        load size closed.flatten + load size (straddling size cap closed (t :: ss)) ≤ bound ∧
        (∀ g ∈ t.dropped, load size (fitting size cap g) ≤ bound) ∧ load size t.kept.flatten ≤ bound := by
  obtain ⟨hne, g, hg, hover⟩ := hcloses
  obtain ⟨gs, hgroups⟩ : ∃ gs, t.groups = g :: gs := List.head?_eq_some_iff.mp hg
  have hturn := h.turn hne hcap hover
  have hlength : (fitting size (cap - load size closed.flatten) g).length ≤ (fitting size cap g).length := by
    rw [fitting_split (Nat.sub_le cap (load size closed.flatten)) g, List.length_append]
    exact Nat.le_add_right _ _
  rw [straddling_cons hgroups, hgroups, packGroups_cons, List.flatMap_cons,
    List.drop_append_of_le_length hlength]
  cases hlarge : t.dropped with
  | nil =>
    rw [Section.groups, hlarge, List.nil_append] at hgroups
    rw [hgroups] at hkept ⊢
    rw [List.flatten_cons, load_append] at hkept
    rw [if_pos (by omega)] at hturn
    have hrest := hturn.allFit gs (by simpa using hkept)
    refine hrest.congr fun bound => ?_
    have hwhole : fitting size cap g = g := fitting_all (by omega)
    simp only [hwhole, List.flatten_cons, List.flatten_nil, List.append_nil, load_append, List.not_mem_nil,
      false_imp_iff, implies_true, true_and]
    exact ⟨fun hbound => ⟨hbound.1.1, hbound.1.2.1, hbound.2⟩,
      fun hbound => ⟨⟨hbound.1, hbound.2.1, by omega⟩, hbound.2.2⟩⟩
  | cons d large =>
    rw [Section.groups, hlarge, List.cons_append] at hgroups
    obtain ⟨rfl, rfl⟩ := List.cons.inj hgroups
    rw [hlarge] at hdropped
    obtain ⟨hfirst, hdropped⟩ := List.forall_mem_cons.mp hdropped
    rw [if_neg (Nat.not_le.mpr hfirst)] at hturn
    have hrest := hturn.rest t.kept hdropped (.inr rfl) (by simpa using hkept)
    refine hrest.congr fun bound => ?_
    simp only [List.flatten_nil, load_nil, Nat.zero_add, List.forall_mem_cons, and_assoc]

/-- The sections after a packet that is being filled. -/
theorem sections {ss : List (Section α)} (h : s.Holds size packets closed visited Peak) (hne : closed ≠ [])
    (hcap : load size closed.flatten ≤ cap) (hdropped : ∀ t ∈ ss, ∀ g ∈ t.dropped, cap < load size g)
    (hkept : ∀ t ∈ ss, load size t.kept.flatten ≤ cap)
    (hcloses : ((⟨[], closed⟩ : Section α) :: ss).IsChain (Section.Closes size cap)) :
    (packGroups size cap s (ss.flatMap Section.groups)).1.close.packets =
        packets ++ ⟨closed, visited ++ straddling size cap closed ss⟩ ::
          sectionPackets size cap (straddling size cap closed ss) ss ∧
      ∀ bound, (packGroups size cap s (ss.flatMap Section.groups)).1.peak ≤ bound ↔ Peak bound ∧
        load size closed.flatten + load size (straddling size cap closed ss) ≤ bound ∧ Inside size cap bound ss := by
  induction ss generalizing s packets closed visited Peak with
  | nil =>
    have hnone : straddling size cap closed [] = [] := rfl
    rw [hnone, List.append_nil]
    refine ⟨?_, fun bound => ?_⟩
    · change s.close.packets = _
      rw [close, h.closed, if_neg hne, h.packets, h.visited]
      rfl
    · change s.peak ≤ bound ↔ _
      rw [h.peak, load_nil, Nat.add_zero, Inside, and_true]
      exact ⟨fun hbound => ⟨hbound, h.load_le hbound⟩, And.left⟩
  | cons t ss ih =>
    obtain ⟨hfirst, hchain⟩ := List.isChain_cons_cons.mp hcloses
    obtain ⟨hdroppedt, hdropped⟩ := List.forall_mem_cons.mp hdropped
    obtain ⟨hkeptt, hkept⟩ := List.forall_mem_cons.mp hkept
    have hnext := h.next hcap hfirst hdroppedt hkeptt ss
    rw [List.flatMap_cons, packGroups_append]
    generalize straddling size cap closed (t :: ss) = head at hnext ⊢
    by_cases hnil : t.kept = []
    · obtain rfl := eq_nil_of_chain hchain hnil
      have hnone : straddling size cap t.kept [] = [] := rfl
      refine ⟨?_, fun bound => ?_⟩
      · change (packGroups size cap s t.groups).1.close.packets = _
        rw [close, hnext.closed, if_pos hnil, hnext.packets, sectionPackets, if_pos hnil]
        rfl
      · change (packGroups size cap s t.groups).1.peak ≤ bound ↔ _
        rw [hnext.peak, Inside, hnone, Inside, load_nil, Nat.add_zero, and_true]
        exact ⟨fun hbound => ⟨hbound.1, hbound.2.1, hbound.2.2.2, hbound.2.2.1⟩,
          fun hbound => ⟨hbound.1, hbound.2.1, hbound.2.2.2, hbound.2.2.1⟩⟩
    · obtain ⟨hpackets, hpeak⟩ := ih hnext hnil hkeptt hdropped hkept (chain_kept hchain)
      refine ⟨?_, fun bound => ?_⟩
      · rw [hpackets, sectionPackets, if_neg hnil, formatted, List.append_assoc]
        rfl
      · rw [hpeak, Inside]
        exact ⟨fun hbound => ⟨hbound.1.1, hbound.1.2.1, hbound.2.1, hbound.1.2.2.1, hbound.2.2⟩,
          fun hbound => ⟨⟨hbound.1, hbound.2.1, hbound.2.2.2.1, by omega⟩, hbound.2.2.1, hbound.2.2.2.2⟩⟩

end Packing.Holds

/-- The packets of a packing are those of the sections, and so is its largest fill. -/
theorem pack_sections {size : α → ℕ} {cap : ℕ} {gs : List (List α)} {ss : List (Section α)}
    (h : Divides size cap gs ss) : pack size cap gs = sectionPackets size cap [] ss ∧
      ∀ bound, (packGroups size cap Packing.empty gs).1.peak ≤ bound ↔ Inside size cap bound ss := by
  obtain ⟨rfl, hdropped, hkept, hcloses⟩ := h
  rw [pack]
  cases ss with
  | nil => exact ⟨rfl, fun bound => iff_of_true (Nat.zero_le _) trivial⟩
  | cons s ss =>
    obtain ⟨hdropped₁, hdropped⟩ := List.forall_mem_cons.mp hdropped
    obtain ⟨hkept₁, hkept⟩ := List.forall_mem_cons.mp hkept
    have hfirst := Packing.Holds.empty.rest s.kept hdropped₁ (.inr rfl) (by simpa using hkept₁)
    rw [List.nil_append, List.nil_append] at hfirst
    rw [List.flatMap_cons, Packing.Holds.packGroups_append]
    change Packing.Holds size (packGroups size cap Packing.empty s.groups).1 _ _ _ _ at hfirst
    by_cases hnil : s.kept = []
    · obtain rfl := eq_nil_of_chain hcloses hnil
      have hnone : straddling size cap s.kept [] = [] := rfl
      refine ⟨?_, fun bound => ?_⟩
      · change (packGroups size cap Packing.empty s.groups).1.close.packets = _
        rw [Packing.close, hfirst.closed, if_pos hnil, hfirst.packets, sectionPackets, if_pos hnil]
        rfl
      · change (packGroups size cap Packing.empty s.groups).1.peak ≤ bound ↔ _
        rw [hfirst.peak, Inside, hnone, Inside, load_nil, Nat.add_zero, and_true]
        simp [and_comm]
    · obtain ⟨hpackets, hpeak⟩ := hfirst.sections hnil hkept₁ hdropped hkept (chain_kept hcloses)
      refine ⟨?_, fun bound => ?_⟩
      · rw [hpackets, sectionPackets, if_neg hnil, formatted]
        rfl
      · rw [hpeak, Inside]
        simp only [List.flatten_nil, load_nil, Nat.zero_add, true_and]
        exact ⟨fun hbound => ⟨hbound.2.1, hbound.1.1, hbound.2.2⟩,
          fun hbound => ⟨⟨hbound.2.1, by omega⟩, hbound.1, hbound.2.2⟩⟩

end WhiteRabbit.GroupPacking
