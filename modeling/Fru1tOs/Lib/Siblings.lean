import Fru1tOs.Lib.MultiTree

/-!
# Siblings in multiway trees

The entries of a node and its children as lists (`entries`, `children`), and the merging of two
neighbouring children with the entry between them (`join`, `mergeAt`). A merge keeps the entries of
the tree, in order (`toList_mergeAt`), and the depth of the leaves (`Level.mergeAt`). In the lists
an entry and a child are erased (`entries_mergeAt`, `children_mergeAt`).
-/

namespace Lib

namespace MultiTree

variable {P K V : Type}

/-- The name of the root. -/
def name : MultiTree P K V .tree → P
  | leaf p _ => p
  | node p _ => p

/-- The entries of a node itself, or of a row itself. -/
def entries : {b : Kind} → MultiTree P K V b → List (K × V)
  | _, leaf _ es => es
  | _, node _ r => r.entries
  | _, last _ => []
  | _, cons _ k v r => (k, v) :: r.entries

/-- The children of a node, or the trees of a row. -/
def children : {b : Kind} → MultiTree P K V b → List (MultiTree P K V .tree)
  | _, leaf _ _ => []
  | _, node _ r => r.children
  | _, last t => [t]
  | _, cons t _ _ r => t :: r.children

/-- Both are leaves, or both are not. -/
def Alike : MultiTree P K V .tree → MultiTree P K V .tree → Prop
  | leaf _ _, leaf _ _ => True
  | node _ _, node _ _ => True
  | _, _ => False

/-- The first child. -/
def first : MultiTree P K V .row → MultiTree P K V .tree
  | last t => t
  | cons t _ _ _ => t

/-- A row with another first child. -/
def setFirst : MultiTree P K V .row → MultiTree P K V .tree → MultiTree P K V .row
  | last _, t => last t
  | cons _ k v r, t => cons t k v r

/-- A row, or that of a node, an entry after it, and another row. -/
def append : {b : Kind} → MultiTree P K V b → K → V → MultiTree P K V .row → MultiTree P K V b
  | _, leaf p es, _, _, _ => leaf p es
  | _, node p r, k, v, r' => node p (r.append k v r')
  | _, last t, k, v, r' => cons t k v r'
  | _, cons t k' v' r, k, v, r' => cons t k' v' (r.append k v r')

/-- Two trees that are alike and an entry between them, in the place of the first one. -/
def join : MultiTree P K V .tree → K → V → MultiTree P K V .tree → MultiTree P K V .tree
  | leaf p es, k, v, leaf _ es' => leaf p (es ++ (k, v) :: es')
  | t, k, v, node _ r' => t.append k v r'
  | t, _, _, _ => t

/-- The child `i`, the entry after it, and the next child. -/
def pairAt : {b : Kind} → MultiTree P K V b → ℕ →
    Option (MultiTree P K V .tree × (K × V) × MultiTree P K V .tree)
  | _, leaf _ _, _ => none
  | _, node _ r, i => r.pairAt i
  | _, last _, _ => none
  | _, cons t k v r, 0 => some (t, (k, v), r.first)
  | _, cons _ _ _ r, i + 1 => r.pairAt i

/-- The children `i` and `i + 1` are joined. -/
def mergeAt : {b : Kind} → MultiTree P K V b → ℕ → MultiTree P K V b
  | _, leaf p es, _ => leaf p es
  | _, node p r, i => node p (r.mergeAt i)
  | _, last t, _ => last t
  | _, cons t k v r, 0 => r.setFirst (t.join k v r.first)
  | _, cons t k v r, i + 1 => cons t k v (r.mergeAt i)

/-! ## Lists -/

section Lists

variable {b : Kind} {t₁ t₂ : MultiTree P K V .tree} {t : MultiTree P K V b}
  {r r' : MultiTree P K V .row} {e : K × V} {k : K} {v : V} {i : ℕ}

theorem length_entries_row : ∀ r : MultiTree P K V .row, r.entries.length = r.width
  | last t => by rw [entries, width, List.length_nil]
  | cons t k v r => by rw [entries, List.length_cons, length_entries_row r, width]

theorem entries_setFirst : (r.setFirst t₁).entries = r.entries := by
  cases r <;> rfl

theorem children_setFirst : (r.setFirst t₁).children = r.children.set 0 t₁ := by
  cases r <;> rfl

theorem entries_append : ∀ r : MultiTree P K V .row,
    (r.append k v r').entries = r.entries ++ (k, v) :: r'.entries
  | last _ => rfl
  | cons _ k' v' r => congrArg ((k', v') :: ·) (entries_append r)

theorem children_append : ∀ r : MultiTree P K V .row,
    (r.append k v r').children = r.children ++ r'.children
  | last _ => rfl
  | cons t _ _ r => congrArg (t :: ·) (children_append r)

theorem entries_join (h : Alike t₁ t₂) :
    (t₁.join k v t₂).entries = t₁.entries ++ (k, v) :: t₂.entries := by
  cases t₁ with
  | leaf p es =>
    cases t₂ with
    | leaf p' es' => rfl
    | node p' r' => exact h.elim
  | node p r =>
    cases t₂ with
    | leaf p' es' => exact h.elim
    | node p' r' => exact entries_append r

theorem children_join (h : Alike t₁ t₂) :
    (t₁.join k v t₂).children = t₁.children ++ t₂.children := by
  cases t₁ with
  | leaf p es =>
    cases t₂ with
    | leaf p' es' => rfl
    | node p' r' => exact h.elim
  | node p r =>
    cases t₂ with
    | leaf p' es' => exact h.elim
    | node p' r' => exact children_append r

theorem length_children_row : ∀ r : MultiTree P K V .row, r.children.length = r.width + 1
  | last t => by rw [children, width, List.length_singleton]
  | cons t k v r => by rw [children, List.length_cons, length_children_row r, width]

/-- A node has a child more than entries. A leaf has none. -/
theorem children_eq_nil_or (t : MultiTree P K V .tree) :
    t.children = [] ∨ t.children.length = t.entries.length + 1 := by
  cases t with
  | leaf p es => exact .inl rfl
  | node p r =>
    rw [children, entries, length_children_row, length_entries_row]
    exact .inr rfl

theorem Alike.children_eq_nil (h : Alike t₁ t₂) : t₁.children = [] ↔ t₂.children = [] := by
  cases t₁ with
  | leaf p es =>
    cases t₂ with
    | leaf p' es' => rfl
    | node p' r' => exact h.elim
  | node p r =>
    cases t₂ with
    | leaf p' es' => exact h.elim
    | node p' r' =>
      have hr := length_children_row r
      have hr' := length_children_row r'
      rw [children, children, ← List.length_eq_zero_iff, ← List.length_eq_zero_iff, hr, hr']
      simp

theorem pairAt_cons_zero {t : MultiTree P K V .tree} :
    (cons t k v r).pairAt 0 = some (t₁, e, t₂) ↔ t = t₁ ∧ (k, v) = e ∧ r.first = t₂ := by
  rw [pairAt, Option.some_inj, Prod.mk_inj, Prod.mk_inj]

/-- The pair in the lists. -/
theorem pairAt_eq_some : t.pairAt i = some (t₁, e, t₂) ↔
    t.children[i]? = some t₁ ∧ t.entries[i]? = some e ∧ t.children[i + 1]? = some t₂ := by
  induction t generalizing i with
  | leaf p es => simp [pairAt, children]
  | node p r ih => exact ih
  | last t ih => simp [pairAt, entries]
  | cons t k v r iht ihr =>
    cases i with
    | zero => cases r <;> simp [pairAt, entries, children, first]
    | succ i => simpa only [pairAt, entries, children, List.getElem?_cons_succ] using ihr

/-- The entry that was between the children is gone. -/
theorem entries_mergeAt (h : t.pairAt i = some (t₁, e, t₂)) :
    (t.mergeAt i).entries = t.entries.eraseIdx i := by
  induction t generalizing i with
  | leaf p es => cases h
  | node p r ih => exact ih h
  | last t ih => cases h
  | cons t k v r iht ihr =>
    cases i with
    | zero => rw [mergeAt, entries_setFirst, entries, List.eraseIdx_cons_zero]
    | succ i => rw [mergeAt, entries, entries, ihr h, List.eraseIdx_cons_succ]

/-- The children are one. -/
theorem children_mergeAt (h : t.pairAt i = some (t₁, e, t₂)) :
    (t.mergeAt i).children = (t.children.eraseIdx (i + 1)).set i (t₁.join e.1 e.2 t₂) := by
  induction t generalizing i with
  | leaf p es => cases h
  | node p r ih => exact ih h
  | last t ih => cases h
  | cons t k v r iht ihr =>
    cases i with
    | zero =>
      obtain ⟨rfl, rfl, rfl⟩ := pairAt_cons_zero.1 h
      rw [mergeAt, children_setFirst]
      cases r <;> rfl
    | succ i =>
      rw [mergeAt, children, children, ihr h, List.eraseIdx_cons_succ, List.set_cons_succ]

end Lists

/-! ## What is kept -/

section Keep

variable {b : Kind} {t₁ t₂ : MultiTree P K V .tree} {t : MultiTree P K V b}
  {r r' : MultiTree P K V .row} {e : K × V} {k : K} {v : V} {i n : ℕ}

theorem toList_append : ∀ r : MultiTree P K V .row,
    (r.append k v r').toList = r.toList ++ (k, v) :: r'.toList
  | last t => rfl
  | cons t k' v' r => by
    rw [append, toList, toList_append r, toList, List.append_assoc, List.cons_append]

theorem toList_join (h : Alike t₁ t₂) :
    (t₁.join k v t₂).toList = t₁.toList ++ (k, v) :: t₂.toList := by
  cases t₁ with
  | leaf p es =>
    cases t₂ with
    | leaf p' es' => rfl
    | node p' r' => exact h.elim
  | node p r =>
    cases t₂ with
    | leaf p' es' => exact h.elim
    | node p' r' => exact toList_append r

/-- A merge keeps the entries. -/
theorem toList_mergeAt (h : t.pairAt i = some (t₁, e, t₂)) (halike : Alike t₁ t₂) :
    (t.mergeAt i).toList = t.toList := by
  induction t generalizing i with
  | leaf p es => cases h
  | node p r ih => exact ih h
  | last t ih => cases h
  | cons t k v r iht ihr =>
    cases i with
    | zero =>
      obtain ⟨rfl, rfl, rfl⟩ := pairAt_cons_zero.1 h
      cases r with
      | last t' => exact toList_join halike
      | cons t' k' v' r =>
        have hjoin := toList_join (k := k) (v := v) halike
        rw [first] at hjoin
        rw [mergeAt, setFirst, toList, toList, toList, first, hjoin, List.append_assoc,
          List.cons_append]
    | succ i => rw [mergeAt, toList, toList, ihr h]

theorem level_append : ∀ r : MultiTree P K V .row, r.Level n → r'.Level n →
    (r.append k v r').Level n
  | last _, h, h' => ⟨h, h'⟩
  | cons _ _ _ r, h, h' => ⟨h.1, level_append r h.2 h'⟩

theorem level_join (h : t₁.Level n) (h' : t₂.Level n) (halike : Alike t₁ t₂) :
    (t₁.join k v t₂).Level n := by
  cases t₁ with
  | leaf p es =>
    cases t₂ with
    | leaf p' es' => exact h
    | node p' r' => exact halike.elim
  | node p r =>
    cases t₂ with
    | leaf p' es' => exact halike.elim
    | node p' r' =>
      obtain ⟨n', rfl, hr⟩ := h
      obtain ⟨n'', hn, hr'⟩ := h'
      obtain rfl := Nat.succ_injective hn
      exact ⟨n', rfl, level_append r hr hr'⟩

/-- A merge keeps the depth of the leaves. -/
theorem Level.mergeAt (hlevel : t.Level n) (h : t.pairAt i = some (t₁, e, t₂))
    (halike : Alike t₁ t₂) : (t.mergeAt i).Level n := by
  induction t generalizing i n with
  | leaf p es => cases h
  | node p r ih =>
    obtain ⟨n', rfl, hr⟩ := hlevel
    exact ⟨n', rfl, ih hr h⟩
  | last t ih => cases h
  | cons t k v r iht ihr =>
    cases i with
    | zero =>
      obtain ⟨rfl, rfl, rfl⟩ := pairAt_cons_zero.1 h
      cases r with
      | last t' => exact level_join hlevel.1 hlevel.2 halike
      | cons t' k' v' r => exact ⟨level_join hlevel.1 hlevel.2.1 halike, hlevel.2.2⟩
    | succ i => exact ⟨hlevel.1, ihr hlevel.2 h⟩

/-! ## Names -/

theorem name_mem_names (t : MultiTree P K V .tree) : t.name ∈ t.names := by
  cases t with
  | leaf p es => exact List.mem_singleton_self p
  | node p r => exact List.mem_cons_self

theorem name_join (h : Alike t₁ t₂) : (t₁.join k v t₂).name = t₁.name := by
  cases t₁ with
  | leaf p es =>
    cases t₂ with
    | leaf p' es' => rfl
    | node p' r' => exact h.elim
  | node p r =>
    cases t₂ with
    | leaf p' es' => exact h.elim
    | node p' r' => rfl

theorem name_mergeAt (t : MultiTree P K V .tree) : (t.mergeAt i).name = t.name := by
  cases t <;> rfl

/-- The nodes of a row are those of its children. -/
theorem names_row : ∀ r : MultiTree P K V .row, r.names = (r.children.map names).flatten
  | last t => by simp [names, children]
  | cons t _ _ r => by rw [names, names_row r, children, List.map_cons, List.flatten_cons]

/-- The nodes of a tree. -/
theorem names_tree (t : MultiTree P K V .tree) :
    t.names = t.name :: (t.children.map names).flatten := by
  cases t with
  | leaf p es => rfl
  | node p r => exact congrArg (p :: ·) (names_row r)

theorem names_append : ∀ r : MultiTree P K V .row,
    (r.append k v r').names = r.names ++ r'.names
  | last t => rfl
  | cons t k' v' r => by rw [append, names, names_append r, names, List.append_assoc]

/-- The nodes after a join, with the one that is left over. -/
theorem names_join (h : Alike t₁ t₂) :
    (t₂.name :: (t₁.join k v t₂).names).Perm (t₁.names ++ t₂.names) := by
  cases t₁ with
  | leaf p es =>
    cases t₂ with
    | leaf p' es' => exact List.Perm.swap p p' []
    | node p' r' => exact h.elim
  | node p r =>
    cases t₂ with
    | leaf p' es' => exact h.elim
    | node p' r' =>
      have hnames : ((node p r).join k v (node p' r')).names = p :: (r.names ++ r'.names) :=
        congrArg (p :: ·) (names_append r)
      rw [hnames]
      exact (List.Perm.swap p p' _).trans (List.Perm.cons p List.perm_middle.symm)

/-- The nodes after a merge, with the one that is left over. -/
theorem names_mergeAt (h : t.pairAt i = some (t₁, e, t₂)) (halike : Alike t₁ t₂) :
    (t₂.name :: (t.mergeAt i).names).Perm t.names := by
  induction t generalizing i with
  | leaf p es => cases h
  | node p r ih => exact (List.Perm.swap p t₂.name _).trans (List.Perm.cons p (ih h))
  | last t ih => cases h
  | cons t k v r iht ihr =>
    cases i with
    | zero =>
      obtain ⟨rfl, rfl, rfl⟩ := pairAt_cons_zero.1 h
      cases r with
      | last t' => exact names_join halike
      | cons t' k' v' r =>
        have hjoin := (names_join (k := k) (v := v) halike).append_right r.names
        rwa [List.append_assoc] at hjoin
    | succ i => exact List.perm_middle.symm.trans (List.Perm.append_left t.names (ihr h))

end Keep

end MultiTree

end Lib
