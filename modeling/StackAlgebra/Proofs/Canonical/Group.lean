import StackAlgebra.Canonical.Group
import StackAlgebra.Proofs.Expr.Order
import Mathlib.Data.List.Induction
import Mathlib.Data.List.Perm.Lattice
import Mathlib.Algebra.BigOperators.Group.List.Basic

/-!
# What grouping does

`group` opens one group for each key among the labels, and each group holds, in their order, the
values that came with its key (`groups_group`). Where labels can be told from their keys the groups
hold all that was there and nothing else (`perm_flatMap_group`), and members in another order make
the same groups in another order (`exists_perm_group`). Members that differ in their keys stay alone
(`group_of_pairwise`).
-/

namespace StackAlgebra.Canonical

open scoped List

variable {α : Type}

/-- The values of the members whose label is the same as `b`. -/
def valuesOf (b : Expr) (l : List (Expr × α)) : List α :=
  (l.filter fun x => x.1.same b).map Prod.snd

/-- A label can be told from its key. -/
def HasKeyedLabels (l : List (Expr × α)) : Prop :=
  ∀ x ∈ l, ∀ y ∈ l, x.1.key = y.1.key → x.1 = y.1

/-- `gs` are the groups of the members `l`: one for each key, with all values that came with it. -/
structure Groups (l : List (Expr × α)) (gs : List (Expr × List α)) : Prop where
  distinct : gs.Pairwise fun g h => g.1.key ≠ h.1.key
  values : ∀ g ∈ gs, g.2 = valuesOf g.1 l
  covers : ∀ x ∈ l, ∃ g ∈ gs, g.1.key = x.1.key

/-- The values that came with the key of `b`, after one more member. -/
theorem valuesOf_append (b : Expr) (l : List (Expr × α)) (x : Expr × α) :
    valuesOf b (l ++ [x]) = if x.1.same b then valuesOf b l ++ [x.2] else valuesOf b l := by
  simp only [valuesOf, List.filter_append, List.map_append]
  split_ifs with h <;> simp [h]

/-- No values came with a key that no label has. -/
theorem valuesOf_eq_nil {b : Expr} {l : List (Expr × α)} (h : ∀ x ∈ l, x.1.key ≠ b.key) :
    valuesOf b l = [] := by
  rw [valuesOf, List.map_eq_nil_iff, List.filter_eq_nil_iff]
  exact fun x hx hs => h x hx (Expr.same_iff.mp hs)

/-- A value with a label that no group has opens a group. -/
theorem addTo_of_forall_ne {e : Expr} {a : α} {gs : List (Expr × List α)}
    (h : ∀ g ∈ gs, g.1.key ≠ e.key) : addTo e a gs = gs ++ [(e, [a])] := by
  induction gs with
  | nil => rfl
  | cons g gs ih =>
    have hg : ¬ g.1.same e = true := fun hs => h g List.mem_cons_self (Expr.same_iff.mp hs)
    rw [addTo, if_neg hg, ih fun g' hg' => h g' (List.mem_cons_of_mem _ hg'), List.cons_append]

/-- A value with a label that some group has is added to that group. -/
theorem addTo_of_exists_eq {e : Expr} {a : α} {gs : List (Expr × List α)}
    (hd : gs.Pairwise fun g h => g.1.key ≠ h.1.key) (h : ∃ g ∈ gs, g.1.key = e.key) :
    addTo e a gs = gs.map fun g => if g.1.same e then (g.1, g.2 ++ [a]) else g := by
  induction gs with
  | nil => simp at h
  | cons g gs ih =>
    obtain ⟨hgs, hd⟩ := List.pairwise_cons.mp hd
    rw [List.map_cons, addTo]
    by_cases hg : g.1.same e = true
    · rw [if_pos hg, if_pos hg]
      -- No other group has this key.
      have hrest : ∀ g' ∈ gs, ¬ g'.1.same e = true := fun g' hg' hs =>
        hgs g' hg' ((Expr.same_iff.mp hg).trans (Expr.same_iff.mp hs).symm)
      congr 1
      symm
      rw [List.map_congr_left fun g' hg' => if_neg (hrest g' hg')]
      exact List.map_id' gs
    · rw [if_neg hg, if_neg hg]
      obtain ⟨g', hg', hk⟩ := h
      rcases List.mem_cons.mp hg' with rfl | hg'
      · exact absurd (Expr.same_iff.mpr hk) hg
      · rw [ih hd ⟨g', hg', hk⟩]

/-- A value is added to the one group that has its label, between those before and behind it. -/
theorem addTo_append_cons {e : Expr} {a : α} {g : Expr × List α} {gs hs : List (Expr × List α)}
    (hd : (gs ++ g :: hs).Pairwise fun g h => g.1.key ≠ h.1.key) (hk : g.1.key = e.key) :
    addTo e a (gs ++ g :: hs) = gs ++ (g.1, g.2 ++ [a]) :: hs := by
  rw [addTo_of_exists_eq hd ⟨g, by simp, hk⟩]
  obtain ⟨-, h2, h3⟩ := List.pairwise_append.mp hd
  -- No group before or behind that one has its key.
  have hne₁ : ∀ h ∈ gs, ¬ h.1.same e = true := fun h hh hs =>
    h3 h hh g (by simp) ((Expr.same_iff.mp hs).trans hk.symm)
  have hne₂ : ∀ h ∈ hs, ¬ h.1.same e = true := fun h hh hs =>
    (List.pairwise_cons.mp h2).1 h hh (hk.trans (Expr.same_iff.mp hs).symm)
  rw [List.map_append, List.map_cons, if_pos (Expr.same_iff.mpr hk),
    List.map_congr_left fun h hh => if_neg (hne₁ h hh),
    List.map_congr_left fun h hh => if_neg (hne₂ h hh)]
  simp

/-- One more member of a group keeps the groups what they are. -/
theorem Groups.addTo_of_exists {l : List (Expr × α)} {gs : List (Expr × List α)} (h : Groups l gs)
    {x : Expr × α} (hx : ∃ g ∈ gs, g.1.key = x.1.key) : Groups (l ++ [x]) (addTo x.1 x.2 gs) := by
  rw [addTo_of_exists_eq h.distinct hx]
  -- The member joins a group, and all labels stay.
  have hlabel : ∀ g : Expr × List α,
      (if g.1.same x.1 then (g.1, g.2 ++ [x.2]) else g).1 = g.1 := by
    intro g
    split <;> rfl
  refine ⟨?_, ?_, ?_⟩
  · rw [List.pairwise_map]
    exact h.distinct.imp fun hgg' => by rwa [hlabel, hlabel]
  · intro g' hg'
    obtain ⟨g, hg, rfl⟩ := List.mem_map.mp hg'
    have hv := h.values g hg
    rw [hlabel, valuesOf_append, ← hv]
    by_cases hs : g.1.same x.1 = true
    · have hs' : x.1.same g.1 = true := Expr.same_iff.mpr (Expr.same_iff.mp hs).symm
      rw [if_pos hs, if_pos hs']
    · have hs' : ¬ x.1.same g.1 = true := fun h => hs (Expr.same_iff.mpr (Expr.same_iff.mp h).symm)
      rw [if_neg hs, if_neg hs']
  · intro y hy
    have hy' : ∃ g ∈ gs, g.1.key = y.1.key := by
      rcases List.mem_append.mp hy with hy | hy
      · exact h.covers y hy
      · rw [List.mem_singleton.mp hy]
        exact hx
    obtain ⟨g, hg, hk⟩ := hy'
    exact ⟨_, List.mem_map_of_mem hg, by rw [hlabel]; exact hk⟩

/-- A member with a new label keeps the groups what they are. -/
theorem Groups.addTo_of_forall_ne {l : List (Expr × α)} {gs : List (Expr × List α)}
    (h : Groups l gs) {x : Expr × α} (hx : ∀ g ∈ gs, g.1.key ≠ x.1.key) :
    Groups (l ++ [x]) (addTo x.1 x.2 gs) := by
  rw [Canonical.addTo_of_forall_ne hx]
  refine ⟨?_, ?_, ?_⟩
  · rw [List.pairwise_append]
    refine ⟨h.distinct, List.pairwise_singleton _ _, fun g hg g' hg' => ?_⟩
    rw [List.mem_singleton.mp hg']
    exact hx g hg
  · intro g hg
    rcases List.mem_append.mp hg with hg | hg
    · have hs : ¬ x.1.same g.1 = true := fun hs => hx g hg (Expr.same_iff.mp hs).symm
      rw [valuesOf_append, if_neg hs]
      exact h.values g hg
    · -- Nothing came with the label before.
      rw [List.mem_singleton.mp hg, valuesOf_append, if_pos (Expr.same_self x.1), valuesOf_eq_nil]
      · rfl
      · intro y hy hk
        obtain ⟨g, hg, hgy⟩ := h.covers y hy
        exact hx g hg (hgy.trans hk)
  · intro y hy
    rcases List.mem_append.mp hy with hy | hy
    · obtain ⟨g, hg, hk⟩ := h.covers y hy
      exact ⟨g, List.mem_append_left _ hg, hk⟩
    · rw [List.mem_singleton.mp hy]
      exact ⟨(x.1, [x.2]), by simp, rfl⟩

/-- One more member keeps the groups what they are. -/
theorem Groups.addTo {l : List (Expr × α)} {gs : List (Expr × List α)} (h : Groups l gs)
    (x : Expr × α) : Groups (l ++ [x]) (addTo x.1 x.2 gs) := by
  by_cases hx : ∃ g ∈ gs, g.1.key = x.1.key
  · exact h.addTo_of_exists hx
  · exact h.addTo_of_forall_ne fun g hg hk => hx ⟨g, hg, hk⟩

/-- Grouping one more member adds it to the groups. -/
theorem group_append (l : List (Expr × α)) (x : Expr × α) :
    group (l ++ [x]) = addTo x.1 x.2 (group l) := by
  simp [group]

/-- Grouping makes the groups of its members. -/
theorem groups_group (l : List (Expr × α)) : Groups l (group l) := by
  induction l using List.reverseRecOn with
  | nil => exact ⟨.nil, by simp [group], by simp⟩
  | append_singleton l x ih =>
    rw [group_append]
    exact ih.addTo x

/-- What is in a group came with the group's key. -/
theorem mem_of_mem_group {l : List (Expr × α)} (hl : HasKeyedLabels l) {g : Expr × List α}
    (hg : g ∈ group l) {a : α} (ha : a ∈ g.2) : (g.1, a) ∈ l := by
  rw [(groups_group l).values g hg, valuesOf] at ha
  obtain ⟨x, hx, rfl⟩ := List.mem_map.mp ha
  obtain ⟨hx, hs⟩ := List.mem_filter.mp hx
  obtain ⟨y, hy, hgy⟩ := label_mem_group hg
  rw [hgy, ← hl x hx y hy (hgy ▸ Expr.same_iff.mp hs)]
  exact hx

/-- Members that differ in their keys stay alone. -/
theorem group_of_pairwise {l : List (Expr × α)} (h : l.Pairwise fun x y => x.1.key ≠ y.1.key) :
    group l = l.map fun x => (x.1, [x.2]) := by
  induction l using List.reverseRecOn with
  | nil => rfl
  | append_singleton l x ih =>
    obtain ⟨hl, -, hx⟩ := List.pairwise_append.mp h
    rw [group_append, ih hl, addTo_of_forall_ne, List.map_append]
    · rfl
    · intro g hg
      obtain ⟨y, hy, rfl⟩ := List.mem_map.mp hg
      exact hx y hy x (List.mem_singleton.mpr rfl)

/-- Where no group has more than one member, all labels differ. -/
theorem pairwise_of_forall_length {l : List (Expr × α)} (h : ∀ g ∈ group l, g.2.length ≤ 1) :
    l.Pairwise fun x y => x.1.key ≠ y.1.key := by
  -- Two members of one key would be in one group together.
  by_contra hn
  rw [List.pairwise_iff_forall_sublist] at hn
  push Not at hn
  obtain ⟨x, y, hxy, hk⟩ := hn
  obtain ⟨g, hg, hgx⟩ := (groups_group l).covers x (hxy.subset (by simp))
  have hv := (groups_group l).values g hg
  have hsub : ([x.2, y.2]).Sublist g.2 := by
    rw [hv, valuesOf]
    have h2 := (hxy.filter fun z => z.1.same g.1).map Prod.snd
    simpa [Expr.same_iff, hgx, hk] using h2
  have h1 := hsub.length_le
  have h2 := h g hg
  simp only [List.length_cons, List.length_nil] at h1
  omega

/-- The members of a group, each with the label. -/
def membersOf (g : Expr × List α) : List (Expr × α) :=
  g.2.map fun a => (g.1, a)

/-- The groups hold all members and nothing else. -/
theorem perm_flatMap_group {l : List (Expr × α)} (hl : HasKeyedLabels l) :
    (group l).flatMap membersOf ~ l := by
  induction l using List.reverseRecOn with
  | nil => exact .refl _
  | append_singleton l x ih =>
    have ih := ih fun y hy z hz => hl y (List.mem_append_left _ hy) z (List.mem_append_left _ hz)
    rw [group_append]
    by_cases hx : ∃ g ∈ group l, g.1.key = x.1.key
    · -- The member is put behind the others of its group.
      obtain ⟨g, hg, hk⟩ := hx
      obtain ⟨y, hy, hgy⟩ := label_mem_group hg
      have hgx : g.1 = x.1 := by
        rw [hgy]
        exact hl y (by simp [hy]) x (by simp) (hgy ▸ hk)
      have hd := (groups_group l).distinct
      obtain ⟨gs, hs, hsplit⟩ := List.append_of_mem hg
      rw [hsplit] at hd ih ⊢
      rw [addTo_append_cons hd hk]
      have hmembers : membersOf (g.1, g.2 ++ [x.2]) = membersOf g ++ [x] := by
        simp [membersOf, hgx]
      rw [List.flatMap_append, List.flatMap_cons] at ih ⊢
      rw [hmembers]
      calc gs.flatMap membersOf ++ (membersOf g ++ [x] ++ hs.flatMap membersOf)
          = (gs.flatMap membersOf ++ membersOf g) ++ x :: hs.flatMap membersOf := by simp
        _ ~ x :: ((gs.flatMap membersOf ++ membersOf g) ++ hs.flatMap membersOf) := List.perm_middle
        _ = x :: (gs.flatMap membersOf ++ (membersOf g ++ hs.flatMap membersOf)) := by
          rw [List.append_assoc]
        _ ~ x :: l := ih.cons x
        _ ~ l ++ [x] := (List.perm_append_singleton x l).symm
    · have hx' : ∀ g ∈ group l, g.1.key ≠ x.1.key := fun g hg hk => hx ⟨g, hg, hk⟩
      rw [addTo_of_forall_ne hx', List.flatMap_append]
      exact ih.append (.refl _)

/-- What is added up group by group is what all members add up to. -/
theorem sum_group {M : Type} [AddCommMonoid M] {l : List (Expr × α)} (hl : HasKeyedLabels l)
    (f : Expr × α → M) :
    ((group l).map fun g => (g.2.map fun a => f (g.1, a)).sum).sum = (l.map f).sum := by
  have hperm := ((perm_flatMap_group hl).map f).sum_eq
  rw [List.map_flatMap, List.flatMap_def, List.sum_flatten, List.map_map] at hperm
  rw [← hperm]
  refine congrArg List.sum (List.map_congr_left fun g _ => ?_)
  rw [Function.comp_apply, membersOf, List.map_map]
  rfl

/-- What is multiplied group by group is what all members multiply to. -/
theorem prod_group {M : Type} [CommMonoid M] {l : List (Expr × α)} (hl : HasKeyedLabels l)
    (f : Expr × α → M) :
    ((group l).map fun g => (g.2.map fun a => f (g.1, a)).prod).prod = (l.map f).prod := by
  have hperm := ((perm_flatMap_group hl).map f).prod_eq
  rw [List.map_flatMap, List.flatMap_def, List.prod_flatten, List.map_map] at hperm
  rw [← hperm]
  refine congrArg List.prod (List.map_congr_left fun g _ => ?_)
  rw [Function.comp_apply, membersOf, List.map_map]
  rfl

/-- Members in another order make the same groups in another order, each with its values in another
order. -/
theorem exists_perm_group {l k : List (Expr × α)} (hl : HasKeyedLabels l) (h : l.Perm k) :
    ∃ gs, gs.Perm (group k) ∧
      List.Forall₂ (fun g g' => g.1 = g'.1 ∧ g.2.Perm g'.2) (group l) gs := by
  have hmem : ∀ x, x ∈ l ↔ x ∈ k := fun x => h.mem_iff
  refine ⟨(group l).map fun g => (g.1, valuesOf g.1 k), ?_, ?_⟩
  -- Both lists are free of repetitions, and have the same groups.
  · have hnodup {gs : List (Expr × List α)} (hd : gs.Pairwise fun g g' => g.1.key ≠ g'.1.key) :
        gs.Nodup := hd.imp fun hne heq => hne (by rw [heq])
    have hl1 := groups_group l
    have hk1 := groups_group k
    refine (List.perm_ext_iff_of_nodup (hnodup ?_) (hnodup hk1.distinct)).mpr fun g => ?_
    · rw [List.pairwise_map]
      exact hl1.distinct
    constructor
    · intro hg
      obtain ⟨g₀, hg₀, rfl⟩ := List.mem_map.mp hg
      obtain ⟨x, hx, hgx⟩ := label_mem_group hg₀
      obtain ⟨g', hg', hk⟩ := hk1.covers x ((hmem x).mp hx)
      obtain ⟨y, hy, hgy⟩ := label_mem_group hg'
      have heq : g'.1 = g₀.1 := by
        rw [hgx, hgy]
        exact hl y ((hmem y).mpr hy) x hx (hgy ▸ hk)
      rwa [← heq, ← hk1.values g' hg']
    · intro hg
      obtain ⟨y, hy, hgy⟩ := label_mem_group hg
      obtain ⟨g', hg', hk⟩ := hl1.covers y ((hmem y).mpr hy)
      obtain ⟨x, hx, hgx⟩ := label_mem_group hg'
      have heq : g'.1 = g.1 := by
        rw [hgx, hgy]
        exact hl x hx y ((hmem y).mpr hy) (hgx ▸ hk)
      refine List.mem_map.mpr ⟨g', hg', ?_⟩
      rw [heq, ← hk1.values g hg]
  · rw [List.forall₂_map_right_iff, List.forall₂_same]
    intro g hg
    refine ⟨rfl, ?_⟩
    rw [(groups_group l).values g hg]
    exact (h.filter _).map _

end StackAlgebra.Canonical
