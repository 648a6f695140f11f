import StackAlgebra.Proofs.Expr.KeyOrder
import StackAlgebra.Proofs.Expr.Subexpression

/-!
# The canonical order of expressions

Expressions are ordered by their keys. The order is linear up to sameness: expressions that neither
comes before the other have one key, and having one key is the same as being equal up to the order
of terms and factors at any depth (`same_iff_reordered`). Where all terms and factors stand in
order, an expression can be told from its key (`eq_of_key_eq`); lists of such expressions that
permute each other sort to one list (`sort_eq_sort_of_perm`).
-/

namespace StackAlgebra.Expr

/-- Expressions are ordered by their keys. -/
instance : Preorder Expr := Preorder.lift key

/-- Any two expressions are in order one way round. -/
instance : Std.Total (α := Expr) (· ≤ ·) := ⟨fun a b => le_total a.key b.key⟩

/-- The order of expressions is decided by their keys. -/
instance : DecidableRel (α := Expr) (· ≤ ·) :=
  fun a b => inferInstanceAs (Decidable (a.key ≤ b.key))

/-- The comparison that puts an expression first is the strict order. -/
theorem cmp_eq_lt_iff {a b : Expr} : a.cmp b = .lt ↔ a < b := Iff.rfl

/-- Two expressions are the same exactly if their keys are. -/
theorem same_iff {a b : Expr} : a.same b = true ↔ a.key = b.key := by
  simp [same, cmp, Key.cmp_eq_iff]

/-- Every expression is the same as itself. -/
@[simp] theorem same_self (a : Expr) : a.same a = true := same_iff.mpr rfl

/-- The keys of expressions, one by one. -/
theorem keys_eq_map (es : List Expr) : keys es = es.map key := by
  induction es with
  | nil => rfl
  | cons e es ih => simp [keys, ih]

/-- A number comes before everything else. -/
theorem num_lt {e : Expr} (q : Rat) (h : e.isNum = false) : num q < e := by
  rw [← cmp_eq_lt_iff]
  exact Key.lt_of_rank_lt (by cases e <;> simp_all [isNum, key, Key.rank])

/-! ## Sorting -/

/-- To place an expression is to insert it in order. -/
theorem insert_eq_orderedInsert (a : Expr) (es : List Expr) :
    insert a es = es.orderedInsert (· ≤ ·) a := by
  induction es with
  | nil => rfl
  | cons b bs ih =>
    rw [List.orderedInsert_cons]
    simp only [insert, ih, cmp_eq_lt_iff]
    split_ifs with h1 h2 h2
    · exact absurd h2 h1.not_ge
    · rfl
    · rfl
    · exact absurd (Std.not_lt.mp h1) h2

/-- To sort expressions is to insert one after the other. -/
theorem sort_eq_insertionSort (es : List Expr) : sort es = es.insertionSort (· ≤ ·) := by
  induction es with
  | nil => rfl
  | cons e es ih =>
    rw [List.insertionSort_cons, ← ih, ← insert_eq_orderedInsert]
    rfl

/-- Sorting permutes. -/
theorem perm_sort (es : List Expr) : (sort es).Perm es := by
  rw [sort_eq_insertionSort]
  exact List.perm_insertionSort _ es

/-- Sorted expressions are in order. -/
theorem pairwise_sort (es : List Expr) : (sort es).Pairwise (· ≤ ·) := by
  rw [sort_eq_insertionSort]
  exact List.pairwise_insertionSort _ es

/-- Expressions that are in order stay as they are. -/
theorem sort_of_pairwise {es : List Expr} (h : es.Pairwise (· ≤ ·)) : sort es = es := by
  rw [sort_eq_insertionSort]
  exact h.insertionSort_eq

/-! ## Expressions that can be compared -/

/-- Any two of the expressions are comparable, said of pairs. -/
theorem areComparable_iff {es : List Expr} :
    areComparable es = true ↔ es.Pairwise (fun a b => a.key.comparable b.key = true) := by
  rw [areComparable, Key.areComparable_iff, keys_eq_map, List.pairwise_map]

/-- Whether any two expressions of a list can be compared does not depend on their order. -/
theorem areComparable_of_perm {es ds : List Expr} (h : es.Perm ds) (he : areComparable es = true) :
    areComparable ds = true := by
  rw [areComparable, keys_eq_map] at he ⊢
  exact Key.areComparable_of_perm (h.map key) he

/-- Any two expressions of a part of a list can be compared if any two of the list can. -/
theorem areComparable_of_sublist {es ds : List Expr} (h : ds.Sublist es)
    (he : areComparable es = true) : areComparable ds = true := by
  rw [areComparable_iff] at he ⊢
  exact he.sublist h

/-- A number can be compared with everything. -/
theorem areComparable_num_cons (q : Rat) {es : List Expr} (he : areComparable es = true) :
    areComparable (num q :: es) = true := by
  rw [areComparable_iff] at he ⊢
  refine List.pairwise_cons.mpr ⟨fun e _ => ?_, he⟩
  cases e <;> rfl

/-! ## Expressions of one key -/

/-- The places of the functions of one operand. -/
theorem unary_kind_bounds (f : UnaryFunction) : 3 ≤ f.kind ∧ f.kind ≤ 8 := by
  cases f <;> decide

/-- The places of the functions of an angle. -/
theorem angle_kind_bounds (f : AngleFunction) : 11 ≤ f.kind ∧ f.kind ≤ 16 := by
  cases f <;> decide

/-- The place of a function of one operand tells which one it is. -/
theorem unary_kind_injective {f g : UnaryFunction} (h : f.kind = g.kind) : f = g := by
  cases f <;> cases g <;> first | rfl | cases h

/-- The place of a function of an angle tells which one it is. -/
theorem angle_kind_injective {f g : AngleFunction} (h : f.kind = g.kind) : f = g := by
  cases f <;> cases g <;> first | rfl | cases h

/-- The name of a constant tells which one it is. -/
theorem constant_name_injective {c d : Constant} (h : c.name = d.name) : c = d := by
  cases c <;> cases d <;> first | rfl | exact absurd h (by decide)

/-- What two expressions of one key have in common: they are of one kind, and so are their parts,
term by term and factor by factor where these are sorted by their keys. -/
inductive SameKind : Expr → Expr → Prop where
  | num (q : Rat) : SameKind (num q) (num q)
  | const (c : Constant) : SameKind (const c) (const c)
  | var (x : String) : SameKind (var x) (var x)
  | sum {ts us : List Expr} (h : (ts.map key).Perm (us.map key)) : SameKind (sum ts) (sum us)
  | product {fs gs : List Expr} (h : (fs.map key).Perm (gs.map key)) :
      SameKind (product fs) (product gs)
  | power {b e c d : Expr} (hb : b.key = c.key) (he : e.key = d.key) :
      SameKind (power b e) (power c d)
  | unary (f : UnaryFunction) {x y : Expr} (h : x.key = y.key) : SameKind (unary f x) (unary f y)
  | log {x b y c : Expr} (hx : x.key = y.key) (hb : b.key = c.key) : SameKind (log x b) (log y c)
  | mod {x d y c : Expr} (hx : x.key = y.key) (hd : d.key = c.key) : SameKind (mod x d) (mod y c)
  | angle (f : AngleFunction) {x y : Expr} (m : Option String) (h : x.key = y.key) :
      SameKind (angle f x m) (angle f y m)

/-- Expressions of one key are of one kind, and so are their parts. -/
theorem sameKind_of_key_eq {a b : Expr} (h : a.key = b.key) : SameKind a b := by
  -- Each kind has a place of its own, and those of the functions lie within bounds.
  cases a with
  | num q => cases b <;> simp [key] at h; exact h ▸ .num q
  | const c => cases b <;> simp [key] at h; exact constant_name_injective h ▸ .const c
  | var x => cases b <;> simp [key] at h; exact h ▸ .var x
  | sum ts =>
    cases b with
    | sum us =>
      simp only [key, Key.node.injEq, true_and, keys_eq_map] at h
      exact .sum (Key.sort_eq_sort_iff.mp h)
    | unary f x => have := unary_kind_bounds f; simp [key] at h; omega
    | angle f x m => have := angle_kind_bounds f; simp [key] at h; omega
    | _ => simp [key] at h
  | product fs =>
    cases b with
    | product gs =>
      simp only [key, Key.node.injEq, true_and, keys_eq_map] at h
      exact .product (Key.sort_eq_sort_iff.mp h)
    | unary f x => have := unary_kind_bounds f; simp [key] at h; omega
    | angle f x m => have := angle_kind_bounds f; simp [key] at h; omega
    | _ => simp [key] at h
  | power x y =>
    cases b with
    | power c d =>
      simp only [key, Key.node.injEq, true_and, List.cons.injEq, and_true] at h
      exact .power h.1 h.2
    | unary f x => have := unary_kind_bounds f; simp [key] at h
    | angle f x m => have := angle_kind_bounds f; simp [key] at h; omega
    | _ => simp [key] at h
  | unary f x =>
    have := unary_kind_bounds f
    cases b with
    | unary g y =>
      simp only [key, Key.node.injEq, List.cons.injEq, and_true] at h
      exact unary_kind_injective h.1 ▸ .unary f h.2
    | angle g y m => have := angle_kind_bounds g; simp [key] at h
    | _ => simp [key] at h <;> omega
  | log x c =>
    cases b with
    | log y d =>
      simp only [key, Key.node.injEq, true_and, List.cons.injEq, and_true] at h
      exact .log h.1 h.2
    | angle f x m => have := angle_kind_bounds f; simp [key] at h; omega
    | _ => simp [key] at h
  | mod x c =>
    cases b with
    | mod y d =>
      simp only [key, Key.node.injEq, true_and, List.cons.injEq, and_true] at h
      exact .mod h.1 h.2
    | angle f x m => have := angle_kind_bounds f; simp [key] at h; omega
    | _ => simp [key] at h
  | angle f x m =>
    have := angle_kind_bounds f
    cases b with
    | angle g y n =>
      simp only [key, Key.node.injEq, List.cons.injEq, and_true, Key.measure.injEq] at h
      exact angle_kind_injective h.1 ▸ h.2.2 ▸ .angle f m h.2.1
    | unary g y => have := unary_kind_bounds g; simp [key] at h
    | _ => simp [key] at h <;> omega

/-! ## Ordered expressions -/

/-- The terms or factors of the expression itself, if it has any, stand in order. -/
def InOrder : Expr → Prop
  | sum es | product es => es.Pairwise (· ≤ ·)
  | _ => True

/-- Of two ordered lists with the same keys the members correspond. -/
theorem eq_of_perm_keys {es ds : List Expr} (hes : es.Pairwise (· ≤ ·)) (hds : ds.Pairwise (· ≤ ·))
    (hkey : (es.map key).Perm (ds.map key)) (h : ∀ e ∈ es, ∀ d ∈ ds, e.key = d.key → e = d) :
    es = ds := by
  -- Ordered keys that permute each other are the same keys one by one.
  have hes' : (es.map key).Pairwise (· ≤ ·) := List.pairwise_map.mpr hes
  have hds' : (ds.map key).Pairwise (· ≤ ·) := List.pairwise_map.mpr hds
  have heq : es.map key = ds.map key := hkey.eq_of_pairwise' hes' hds'
  clear hes hds hkey hes' hds'
  induction es generalizing ds with
  | nil => simpa using heq.symm
  | cons e es ih =>
    cases ds with
    | nil => simp at heq
    | cons d ds =>
      simp only [List.map_cons, List.cons.injEq] at heq
      rw [h e (by simp) d (by simp) heq.1,
        ih (fun a ha b hb => h a (by simp [ha]) b (by simp [hb])) heq.2]

/-- Where all terms and factors stand in order, an expression can be told from its key. -/
theorem eq_of_key_eq {a b : Expr} (ha : a.Everywhere InOrder) (hs : b.Everywhere InOrder)
    (h : a.key = b.key) : a = b := by
  induction a using induction_on_children generalizing b with
  | step a ih =>
    -- By induction, children of one key are equal.
    have child {c d : Expr} (hc : c ∈ a.children) (hd : d ∈ b.children)
        (h : c.key = d.key) : c = d :=
      ih c hc (ha.child hc) (hs.child hd) h
    cases sameKind_of_key_eq h with
    | num q | const c | var x => rfl
    | sum hp => rw [eq_of_perm_keys ha.here hs.here hp fun _ he _ hd => child he hd]
    | product hp => rw [eq_of_perm_keys ha.here hs.here hp fun _ he _ hd => child he hd]
    | power hb he =>
      rw [child (by simp) (by simp) hb,
        child (by simp) (by simp) he]
    | unary f hx => rw [child (by simp) (by simp) hx]
    | log hx hb =>
      rw [child (by simp) (by simp) hx,
        child (by simp) (by simp) hb]
    | mod hx hd =>
      rw [child (by simp) (by simp) hx,
        child (by simp) (by simp) hd]
    | angle f m hx => rw [child (by simp) (by simp) hx]

/-- Ordered expressions that permute each other sort to one list. -/
theorem sort_eq_sort_of_perm {es ds : List Expr} (h : es.Perm ds)
    (hes : ∀ e ∈ es, e.Everywhere InOrder) : sort es = sort ds := by
  have hp : (sort es).Perm (sort ds) := (perm_sort es).trans (h.trans (perm_sort ds).symm)
  refine eq_of_perm_keys (pairwise_sort es) (pairwise_sort ds) (hp.map key) fun e he d hd => ?_
  have hd' := h.mem_iff.mpr ((perm_sort ds).mem_iff.mp hd)
  exact eq_of_key_eq (hes e ((perm_sort es).mem_iff.mp he)) (hes d hd')

/-! ## Reordering -/

/-- Two expressions are equal up to the order of terms and factors at any depth: the terms or
factors of both can be matched in pairs. -/
inductive Reordered : Expr → Expr → Prop where
  | num (q : Rat) : Reordered (num q) (num q)
  | const (c : Constant) : Reordered (const c) (const c)
  | var (x : String) : Reordered (var x) (var x)
  | sum {ts us : List Expr} (pairs : List (Expr × Expr)) (hts : ts.Perm (pairs.map Prod.fst))
      (hus : us.Perm (pairs.map Prod.snd)) (h : ∀ p ∈ pairs, Reordered p.1 p.2) :
      Reordered (sum ts) (sum us)
  | product {fs gs : List Expr} (pairs : List (Expr × Expr)) (hfs : fs.Perm (pairs.map Prod.fst))
      (hgs : gs.Perm (pairs.map Prod.snd)) (h : ∀ p ∈ pairs, Reordered p.1 p.2) :
      Reordered (product fs) (product gs)
  | power {b e c d : Expr} (hb : Reordered b c) (he : Reordered e d) :
      Reordered (power b e) (power c d)
  | unary (f : UnaryFunction) {x y : Expr} (h : Reordered x y) : Reordered (unary f x) (unary f y)
  | log {x b y c : Expr} (hx : Reordered x y) (hb : Reordered b c) : Reordered (log x b) (log y c)
  | mod {x d y c : Expr} (hx : Reordered x y) (hd : Reordered d c) : Reordered (mod x d) (mod y c)
  | angle (f : AngleFunction) {x y : Expr} (m : Option String) (h : Reordered x y) :
      Reordered (angle f x m) (angle f y m)

/-- Lists with the same keys in some order can be matched in pairs of one key. -/
theorem exists_pairs_of_perm_keys {es ds : List Expr} (h : (es.map key).Perm (ds.map key)) :
    ∃ pairs : List (Expr × Expr), es = pairs.map Prod.fst ∧ ds.Perm (pairs.map Prod.snd) ∧
      ∀ p ∈ pairs, p.1.key = p.2.key := by
  induction es generalizing ds with
  | nil =>
    have : ds = [] := by simpa using h
    exact ⟨[], rfl, by simp [this], by simp⟩
  | cons e es ih =>
    -- The first expression is matched with one of its key, and what is left has the same keys
    -- again.
    obtain ⟨d, hd, hed⟩ := List.mem_map.mp (h.mem_iff.mp List.mem_cons_self)
    obtain ⟨l, r, rfl⟩ := List.append_of_mem hd
    have hlr : (l ++ d :: r).Perm (d :: (l ++ r)) := List.perm_middle
    have hrest : (es.map key).Perm ((l ++ r).map key) := by
      have h1 := h.trans (hlr.map key)
      rw [List.map_cons, List.map_cons, hed] at h1
      exact h1.cons_inv
    obtain ⟨pairs, h1, h2, h3⟩ := ih hrest
    refine ⟨(e, d) :: pairs, by simp [h1], hlr.trans (h2.cons d), ?_⟩
    simpa [hed] using h3

/-- Matched in pairs of one key, lists have the same keys in some order. -/
theorem perm_keys_of_pairs {es ds : List Expr} {pairs : List (Expr × Expr)}
    (hes : es.Perm (pairs.map Prod.fst)) (hds : ds.Perm (pairs.map Prod.snd))
    (h : ∀ p ∈ pairs, p.1.key = p.2.key) : (es.map key).Perm (ds.map key) := by
  have heq : (pairs.map Prod.fst).map key = (pairs.map Prod.snd).map key := by
    simpa using h
  exact (hes.map key).trans (heq ▸ (hds.map key).symm)

/-- Reordering keeps the key. -/
theorem Reordered.key_eq {a b : Expr} (h : Reordered a b) : a.key = b.key := by
  induction h with
  | num q | const c | var x => rfl
  | sum pairs hts hus _ ih =>
    simp only [key, keys_eq_map, Key.sort_eq_sort_iff.mpr (perm_keys_of_pairs hts hus ih)]
  | product pairs hfs hgs _ ih =>
    simp only [key, keys_eq_map, Key.sort_eq_sort_iff.mpr (perm_keys_of_pairs hfs hgs ih)]
  | power _ _ hb he => simp only [key, hb, he]
  | unary f _ hx => simp only [key, hx]
  | log _ _ hx hb => simp only [key, hx, hb]
  | mod _ _ hx hd => simp only [key, hx, hd]
  | angle f m _ hx => simp only [key, hx]

/-- Expressions of one key are equal up to the order of terms and factors. -/
theorem reordered_of_key_eq {a b : Expr} (h : a.key = b.key) : Reordered a b := by
  induction a using induction_on_children generalizing b with
  | step a ih =>
    cases sameKind_of_key_eq h with
    | num q => exact .num q
    | const c => exact .const c
    | var x => exact .var x
    | sum hp =>
      obtain ⟨pairs, rfl, h2, h3⟩ := exists_pairs_of_perm_keys hp
      exact .sum pairs (.refl _) h2 fun p hp => ih p.1 (List.mem_map_of_mem hp) (h3 p hp)
    | product hp =>
      obtain ⟨pairs, rfl, h2, h3⟩ := exists_pairs_of_perm_keys hp
      exact .product pairs (.refl _) h2 fun p hp => ih p.1 (List.mem_map_of_mem hp) (h3 p hp)
    | power hb he => exact .power (ih _ (by simp) hb) (ih _ (by simp) he)
    | unary f hx => exact .unary f (ih _ (by simp) hx)
    | log hx hb => exact .log (ih _ (by simp) hx) (ih _ (by simp) hb)
    | mod hx hd => exact .mod (ih _ (by simp) hx) (ih _ (by simp) hd)
    | angle f m hx => exact .angle f m (ih _ (by simp) hx)

/-- Expressions are the same exactly if they are equal up to the order of terms and factors. -/
theorem same_iff_reordered {a b : Expr} : a.same b = true ↔ Reordered a b := by
  rw [same_iff]
  exact ⟨reordered_of_key_eq, Reordered.key_eq⟩

end StackAlgebra.Expr
