import WhiteRabbit.PendingSearch

/-!
# Forests that unfold a graph

Where no node leads back to itself, the nodes below a node form a finite tree; a node that is
reached in two ways stands in it twice. Taking a root out of a forest and putting what is below it
behind the other roots is a step of a search.
-/

namespace WhiteRabbit.UnfoldedForests

open PendingSearch Relation

/-- The first root with what is below it, and the other roots. -/
inductive Forest (N : Type*) where
  | nil
  | cons (node : N) (below rest : Forest N)

namespace Forest

variable {N β : Type*}

def roots : Forest N → List N
  | .nil => []
  | .cons node _ rest => node :: rest.roots

def size : Forest N → ℕ
  | .nil => 0
  | .cons _ below rest => 1 + below.size + rest.size

/-- What the nodes of a forest hold. -/
def items (f : N → List β) : Forest N → List β
  | .nil => []
  | .cons node below rest => f node ++ (below.items f ++ rest.items f)

def append : Forest N → Forest N → Forest N
  | .nil, g => g
  | .cons node below rest, g => .cons node below (rest.append g)

/-- Below each node are its children, and all nodes are valid. -/
def Unfolds (children : N → List N) (valid : N → Prop) : Forest N → Prop
  | .nil => True
  | .cons node below rest =>
    valid node ∧ below.roots = children node ∧ below.Unfolds children valid ∧ rest.Unfolds children valid

variable {children : N → List N} {valid : N → Prop} {f : N → List β}

@[simp] theorem roots_append (F G : Forest N) : (F.append G).roots = F.roots ++ G.roots := by
  induction F with
  | nil => rfl
  | cons node below rest _ ih => simp [append, roots, ih]

@[simp] theorem size_append (F G : Forest N) : (F.append G).size = F.size + G.size := by
  induction F with
  | nil => simp [append, size]
  | cons node below rest _ ih => simp [append, size, ih, Nat.add_assoc]

@[simp] theorem items_append (f : N → List β) (F G : Forest N) :
    (F.append G).items f = F.items f ++ G.items f := by
  induction F with
  | nil => rfl
  | cons node below rest _ ih => simp [append, items, ih]

theorem Unfolds.append {F G : Forest N} (hF : F.Unfolds children valid) (hG : G.Unfolds children valid) :
    (F.append G).Unfolds children valid := by
  induction F with
  | nil => exact hG
  | cons node below rest _ ih => exact ⟨hF.1, hF.2.1, hF.2.2.1, ih hF.2.2.2⟩

/-- A root is answered: its children take its place. -/
theorem Unfolds.answer {F : Forest N} {i : ℕ} {node : N} (hF : F.Unfolds children valid)
    (hi : F.roots[i]? = some node) :
    valid node ∧ ∃ G : Forest N, G.Unfolds children valid ∧ G.roots = F.roots.eraseIdx i ++ children node ∧
      (f node ++ G.items f).Perm (F.items f) ∧ G.size + 1 = F.size := by
  induction F generalizing i with
  | nil => simp [roots] at hi
  | cons first below rest _ ih =>
    obtain ⟨hvalid, hbelow, hbelow', hrest⟩ := hF
    cases i with
    | zero =>
      obtain rfl : first = node := by simpa [roots] using hi
      refine ⟨hvalid, rest.append below, hrest.append hbelow', ?_, ?_, ?_⟩
      · simp [roots, hbelow]
      · rw [items_append]
        exact List.perm_append_comm.append_left (f first)
      · rw [size_append, size]
        omega
    | succ i =>
      obtain ⟨hnode, G, hG, hroots, hitems, hsize⟩ := ih hrest (by simpa [roots] using hi)
      refine ⟨hnode, .cons first below G, ⟨hvalid, hbelow, hbelow', hG⟩, ?_, ?_, ?_⟩
      · simp [roots, hroots]
      · rw [items, items, ← List.append_assoc (f first), ← List.append_assoc (f first)]
        exact (List.perm_append_comm_assoc _ _ _).trans (hitems.append_left _)
      · rw [size, size]
        omega

theorem exists_of_singles {nodes : List N}
    (h : ∀ node ∈ nodes, ∃ F : Forest N, F.Unfolds children valid ∧ F.roots = [node]) :
    ∃ F : Forest N, F.Unfolds children valid ∧ F.roots = nodes := by
  induction nodes with
  | nil => exact ⟨.nil, trivial, rfl⟩
  | cons node nodes ih =>
    obtain ⟨F, hF, hFroots⟩ := h node (by simp)
    obtain ⟨G, hG, hGroots⟩ := ih fun other hother => h other (List.mem_cons_of_mem node hother)
    exact ⟨F.append G, hF.append hG, by rw [roots_append, hFroots, hGroots, List.singleton_append]⟩

/-- An accessible node unfolds into a tree. -/
theorem exists_of_acc {node : N} (hacc : Acc (Function.swap (Asks children)) node)
    (hvalid : ∀ reached, ReflTransGen (Asks children) node reached → valid reached) :
    ∃ F : Forest N, F.Unfolds children valid ∧ F.roots = [node] := by
  induction hacc with
  | intro node _ ih =>
    have hbelow : ∀ child ∈ children node, ∃ F : Forest N, F.Unfolds children valid ∧ F.roots = [child] :=
      fun child hchild => ih child hchild fun reached hreached => hvalid reached (.head hchild hreached)
    obtain ⟨below, hunfolds, hroots⟩ := exists_of_singles hbelow
    exact ⟨.cons node below .nil, ⟨hvalid node .refl, hroots, hunfolds, trivial⟩, rfl⟩

end Forest

end WhiteRabbit.UnfoldedForests
