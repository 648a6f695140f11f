import StackAlgebra.Proofs.Calculator.UndoRedo
import Mathlib.Data.Nat.Nth

/-!
# Moving and dropping entries

An entry is told from another with the same content by its place, so what becomes of the entries is
said by a map of places: `Placed goes` says that the entry at `i` has gone to `goes i`, each to a
place of its own, that those which `goes` sends nowhere are gone, and that there are no others.
Moving an entry is such a map on all places (`Calculator.shifted`), and dropping entries one on the
places that are kept: an entry comes to stand at the number of those kept below it
(`Calculator.rank`). The selection goes where its entry goes, or is lost
(`Registers.losesNothing_of_reachable`).
-/

namespace StackAlgebra

/-! ## Places -/

/-- The entries have gone where `goes` says, each to a place of its own; the others are gone, and
there are no new ones. -/
structure Placed {α : Type} (goes : ℕ → Option ℕ) (before after : List α) : Prop where
  entry : ∀ i j, goes i = some j → i < before.length ∧ j < after.length ∧ after[j]? = before[i]?
  injective : ∀ i i' j, goes i = some j → goes i' = some j → i = i'
  onto : ∀ j < after.length, ∃ i, goes i = some j

namespace Calculator

variable {m : Calculator} {stack : Stack} {place destination i j : ℕ} {keeps : ℕ → Bool}

/-! ## Moving -/

/-- The place of an entry after the one at `place` has been taken out: what was above it comes
down. -/
def lowered (place i : ℕ) : ℕ :=
  if i < place then i else i - 1

/-- The place of an entry after one has been put in at `place`: what was there or above goes up. -/
def lifted (place i : ℕ) : ℕ :=
  if i < place then i else i + 1

/-- The place of an entry after the one at `place` has been taken out and put in at
`destination`. -/
def shifted (place destination i : ℕ) : ℕ :=
  if i = place then destination else lifted destination (lowered place i)

/-- The moved entry is at its destination. -/
theorem shifted_self (place destination : ℕ) : shifted place destination place = destination :=
  if_pos rfl

/-- Moving back sends every place where it was. -/
theorem shifted_shifted (place destination i : ℕ) :
    shifted destination place (shifted place destination i) = i := by
  unfold shifted lifted lowered
  split_ifs <;> omega

/-- No two entries are sent to one place. -/
theorem shifted_injective (h : shifted place destination i = shifted place destination j) :
    i = j := by
  rw [← shifted_shifted place destination i, h, shifted_shifted]

/-- The other entries keep their order. -/
theorem shifted_lt_shifted (hi : i ≠ place) (hj : j ≠ place) (h : i < j) :
    shifted place destination i < shifted place destination j := by
  unfold shifted lifted lowered
  rw [if_neg hi, if_neg hj]
  split_ifs <;> omega

/-- Places stay within the stack. -/
theorem shifted_lt {n : ℕ} (hplace : place < n) (hdestination : destination < n) (hi : i < n) :
    shifted place destination i < n := by
  unfold shifted lifted lowered
  split_ifs <;> omega

/-- Moving an entry keeps the number of entries. -/
theorem length_moved (h : destination < stack.length) :
    (moved stack place destination).length = stack.length :=
  (perm_moved stack place destination h).length_eq

/-- The entries are found at their new places. -/
theorem getElem?_moved (hplace : place < stack.length) (hdestination : destination < stack.length) :
    (moved stack place destination)[shifted place destination i]? = stack[i]? := by
  have hlength := List.length_eraseIdx_of_lt hplace
  rw [moved, List.getElem?_eq_getElem hplace]
  dsimp only
  unfold shifted
  by_cases hi : i = place
  · rw [if_pos hi, List.getElem?_insertIdx_self, if_pos (by omega), hi,
      List.getElem?_eq_getElem hplace]
  · -- Any other entry is found first where taking out leaves it, and then where putting in sends
    -- that place.
    have herase : (stack.eraseIdx place)[lowered place i]? = stack[i]? := by
      unfold lowered
      rw [List.getElem?_eraseIdx]
      split_ifs with hlt hlow
      · rfl
      · omega
      · rw [Nat.sub_add_cancel (by omega)]
    rw [if_neg hi, lifted]
    split_ifs with hlt
    · rw [List.getElem?_insertIdx_of_lt hlt, herase]
    · rw [List.getElem?_insertIdx_of_gt (by omega), Nat.add_sub_cancel, herase]

/-- An entry that is moved back is where it was, and so are all others. -/
theorem moved_moved (hplace : place < stack.length) (hdestination : destination < stack.length) :
    moved (moved stack place destination) destination place = stack := by
  have hlength : (moved stack place destination).length = stack.length := length_moved hdestination
  refine List.ext_getElem? fun i => ?_
  calc (moved (moved stack place destination) destination place)[i]?
      = (moved (moved stack place destination) destination place)[shifted destination place
          (shifted place destination i)]? := by rw [shifted_shifted]
    _ = (moved stack place destination)[shifted place destination i]? :=
      getElem?_moved (by omega) (by omega)
    _ = stack[i]? := getElem?_moved hplace hdestination

/-- An entry that is moved to its own place stays there. -/
theorem moved_self (hplace : place < stack.length) : moved stack place place = stack := by
  have hback := moved_moved hplace hplace
  refine List.ext_getElem? fun i => ?_
  have hself : shifted place place i = i := by
    unfold shifted lifted lowered
    split_ifs <;> omega
  have hi := getElem?_moved (i := i) hplace hplace
  rwa [hself] at hi

/-- Where entries go when one of them is moved. -/
def shift (stack : Stack) (place destination i : ℕ) : Option ℕ :=
  if i < stack.length then some (shifted place destination i) else none

/-- The moved entry goes to its destination. -/
theorem shift_self (h : place < stack.length) :
    shift stack place destination place = some destination := by
  rw [shift, if_pos h, shifted_self]

/-- The other entries stay in order. -/
theorem shift_lt_shift {i' j' : ℕ} (hi : i ≠ place) (hi' : i' ≠ place) (h : i < i')
    (hj : shift stack place destination i = some j)
    (hj' : shift stack place destination i' = some j') : j < j' := by
  unfold shift at hj hj'
  split_ifs at hj hj'
  obtain rfl := Option.some.inj hj
  obtain rfl := Option.some.inj hj'
  exact shifted_lt_shifted hi hi' h

/-- Moving an entry sends each entry to its new place. -/
theorem placed_moved (hplace : place < stack.length) (hdestination : destination < stack.length) :
    Placed (shift stack place destination) stack (moved stack place destination) := by
  have hlength : (moved stack place destination).length = stack.length := length_moved hdestination
  constructor
  · intro i j h
    unfold shift at h
    split_ifs at h with hi
    obtain rfl := Option.some.inj h
    have hlt := shifted_lt hplace hdestination hi
    exact ⟨hi, by omega, getElem?_moved hplace hdestination⟩
  · intro i i' j h h'
    unfold shift at h h'
    split_ifs at h h'
    exact shifted_injective ((Option.some.inj h).trans (Option.some.inj h').symm)
  · intro j hj
    rw [hlength] at hj
    refine ⟨shifted destination place j, ?_⟩
    rw [shift, if_pos (shifted_lt hdestination hplace hj), shifted_shifted]

/-! ## Dropping -/

/-- The entries at the places that are kept. -/
def kept (keeps : ℕ → Bool) (stack : Stack) : Stack :=
  (stack.zipIdx.filter fun x => keeps x.2).map (·.1)

/-- Where entries go when only some are kept: to the number of kept places below. -/
def rank (keeps : ℕ → Bool) (stack : Stack) (i : ℕ) : Option ℕ :=
  if i < stack.length ∧ keeps i = true then some (Nat.count (keeps · = true) i) else none

/-- One more entry at the top is kept or not. -/
theorem kept_concat (keeps : ℕ → Bool) (stack : Stack) (entry : Entry) :
    kept keeps (stack ++ [entry]) = kept keeps stack ++ if keeps stack.length then
      [entry] else [] := by
  unfold kept
  rw [List.zipIdx_append, List.filter_append, List.map_append]
  cases h : keeps stack.length <;> simp [h]

/-- There are as many entries as places that are kept. -/
theorem length_kept (keeps : ℕ → Bool) (stack : Stack) :
    (kept keeps stack).length = Nat.count (keeps · = true) stack.length := by
  induction stack using List.reverseRecOn with
  | nil => rfl
  | append_singleton stack entry ih =>
    rw [kept_concat, List.length_append, ih, List.length_append, List.length_singleton,
      Nat.count_succ]
    split_ifs <;> rfl

/-- A kept entry is found at its rank. -/
theorem getElem?_kept (hi : i < stack.length) (hkeeps : keeps i = true) :
    (kept keeps stack)[Nat.count (keeps · = true) i]? = stack[i]? := by
  induction stack using List.reverseRecOn with
  | nil => cases hi
  | append_singleton stack entry ih =>
    rw [List.length_append, List.length_singleton] at hi
    rw [kept_concat]
    rcases Nat.lt_succ_iff_lt_or_eq.mp hi with hlt | rfl
    · -- The entry is not the last one, and has its rank among those kept before it.
      have hrank : Nat.count (keeps · = true) i < (kept keeps stack).length := by
        rw [length_kept]
        exact Nat.count_strict_mono hkeeps hlt
      rw [List.getElem?_append_left hrank, List.getElem?_append_left hlt, ih hlt]
    · rw [← length_kept, List.getElem?_concat_length, if_pos hkeeps, List.getElem?_concat_length]

/-- Every rank below the number of kept places is that of a kept place. -/
theorem exists_count_eq {n : ℕ} (h : j < Nat.count (keeps · = true) n) :
    ∃ i < n, keeps i = true ∧ Nat.count (keeps · = true) i = j := by
  have hcard (hf : (Set.ofPred (keeps · = true)).Finite) : j < hf.toFinset.card :=
    h.trans_le (Nat.count_le_card hf n)
  exact ⟨Nat.nth (keeps · = true) j, Nat.nth_lt_of_lt_count h, Nat.nth_mem j hcard,
    Nat.count_nth hcard⟩

/-- Keeping some entries sends each of them to its rank. -/
theorem placed_kept (keeps : ℕ → Bool) (stack : Stack) :
    Placed (rank keeps stack) stack (kept keeps stack) := by
  constructor
  · intro i j h
    unfold rank at h
    split_ifs at h with hi
    obtain rfl := Option.some.inj h
    refine ⟨hi.1, ?_, getElem?_kept hi.1 hi.2⟩
    rw [length_kept]
    exact Nat.count_strict_mono hi.2 hi.1
  · intro i i' j h h'
    unfold rank at h h'
    split_ifs at h h' with hi hi'
    exact Nat.count_injective hi.2 hi'.2 ((Option.some.inj h).trans (Option.some.inj h').symm)
  · intro j hj
    rw [length_kept] at hj
    obtain ⟨i, hi, hkeeps, hrank⟩ := exists_count_eq hj
    exact ⟨i, by rw [rank, if_pos ⟨hi, hkeeps⟩, hrank]⟩

/-- The kept entries keep their order. -/
theorem rank_lt_rank {i' j' : ℕ} (h : i < i') (hi : rank keeps stack i = some j)
    (hi' : rank keeps stack i' = some j') : j < j' := by
  unfold rank at hi hi'
  split_ifs at hi hi' with hkept hkept'
  obtain rfl := Option.some.inj hi
  obtain rfl := Option.some.inj hi'
  exact Nat.count_strict_mono hkept.2 h

/-- Below the first place that is not kept all entries stay where they are. -/
theorem rank_of_forall_lt (hi : i < stack.length) (h : ∀ k ≤ i, keeps k = true) :
    rank keeps stack i = some i := by
  rw [rank, if_pos ⟨hi, h i (Nat.le_refl i)⟩, Nat.count_of_forall fun k hk => h k hk.le]

/-- Where all entries are kept nothing changes. -/
theorem kept_of_forall (h : ∀ i < stack.length, keeps i = true) : kept keeps stack = stack := by
  have hall : (stack.zipIdx.filter fun x => keeps x.2) = stack.zipIdx := by
    refine List.filter_eq_self.mpr fun x hx => h x.2 ?_
    exact (List.getElem?_eq_some_iff.mp (List.mem_zipIdx_iff_getElem?.mp hx)).1
  rw [kept, hall, List.zipIdx_map_fst]

/-! ## States -/

/-- A selected entry is the target. -/
theorem target_of_selection (h : m.selection = some i) : m.target = i := by
  unfold target
  rw [h]

/-- In an empty stack nothing is selected. -/
theorem selection_of_nil (hm : m.SelectsEntry) (h : m.stack = []) : m.selection = none :=
  Option.eq_none_iff_forall_ne_some.mpr fun i hi => by simpa [h] using hm i hi

/-- Moving the target entry of a stack moves it as far as the stack goes, and the selection with
it. -/
theorem moveEntry_spec (hm : m.SelectsEntry) (hstack : m.stack ≠ []) (delta : ℤ) :
    ∃ place destination : ℕ, place < m.stack.length ∧ destination < m.stack.length ∧
    m.target = place ∧
      (destination : ℤ) = max 0 (min (place + delta) (m.stack.length - 1)) ∧
      (m.moveEntry delta).calculator.stack = moved m.stack place destination ∧
      (m.moveEntry delta).calculator.selection = m.selection.map fun _ => destination := by
  obtain ⟨hempty, -⟩ | ⟨place, hplace, htarget⟩ := target_cases hm
  · exact absurd hempty hstack
  obtain ⟨destination, hdestination⟩ :
      ∃ destination : ℕ, (min ((place : ℤ) + delta) (m.stack.length - 1)).toNat = destination :=
    ⟨_, rfl⟩
  have hlt : destination < m.stack.length := by omega
  refine ⟨place, destination, hplace, hlt, htarget, by omega, ?_⟩
  unfold moveEntry
  rw [htarget, place?_of_lt hplace]
  dsimp only
  rw [hdestination]
  split_ifs with heq
  · -- The entry stays, and a selection is there already.
    subst heq
    refine ⟨(moved_self hplace).symm, ?_⟩
    show m.selection = m.selection.map fun _ => destination
    cases hselection : m.selection with
    | none => rfl
    | some i =>
      rw [target_of_selection hselection] at htarget
      exact congrArg some (Int.ofNat_inj.mp htarget)
  · exact ⟨rfl, rfl⟩

/-- In an empty stack there is nothing to move. -/
theorem moveEntry_of_nil (hm : m.SelectsEntry) (hstack : m.stack = []) (delta : ℤ) :
    (m.moveEntry delta).calculator = m := by
  obtain ⟨-, htarget⟩ | ⟨place, hplace, -⟩ := target_cases hm
  · unfold moveEntry
    rw [htarget, place?_neg_one]
    rfl
  · rw [hstack] at hplace
    cases hplace

/-- After a move the selection is that of an entry. -/
theorem selectsEntry_moveEntry (hm : m.SelectsEntry) (delta : ℤ) :
    (m.moveEntry delta).calculator.SelectsEntry :=
  (edit_moveEntry delta).selectsEntry hm

/-- An entry that is selected and moved within the stack is moved back by as many places. -/
theorem moveEntry_moveEntry (hm : m.SelectsEntry)
    {delta : ℤ} (hselection : m.selection = some place) (hlow : 0 ≤ place + delta)
    (hhigh : place + delta < m.stack.length) :
    ((m.moveEntry delta).calculator.moveEntry (-delta)).calculator.stack = m.stack ∧
      ((m.moveEntry delta).calculator.moveEntry (-delta)).calculator.selection = m.selection := by
  have hplace := hm place hselection
  obtain ⟨p, d, hp, hd, htarget, hclamped, hstack, hmoved⟩ :=
    moveEntry_spec hm (List.ne_nil_of_length_pos (by omega)) delta
  rw [target_of_selection hselection] at htarget
  obtain rfl := Int.ofNat_inj.mp htarget
  have hm' := selectsEntry_moveEntry hm delta
  generalize (m.moveEntry delta).calculator = m' at hm' hstack hmoved ⊢
  rw [hselection, Option.map_some] at hmoved
  have hlength : m'.stack.length = m.stack.length := by rw [hstack, length_moved hd]
  -- The way back is from the destination to the place.
  obtain ⟨p', d', -, -, htarget', hclamped', hstack', hmoved'⟩ :=
    moveEntry_spec hm' (List.ne_nil_of_length_pos (by omega)) (-delta)
  rw [target_of_selection hmoved] at htarget'
  obtain rfl := Int.ofNat_inj.mp htarget'
  obtain rfl : d' = place := by omega
  rw [hstack', hmoved', hstack, hmoved, moved_moved hp hd, hselection]
  exact ⟨rfl, rfl⟩

/-- Dropping keeps the places that the target does not name. If it names none nothing is done, and
else a selection below the first one named is left. -/
theorem drop_cases (m : Calculator) (target : DropTarget) :
    ((∀ i < m.stack.length, m.removes target i = false) ∧ (m.drop target).calculator = m) ∨
      ∃ lowest < m.stack.length, m.removes target lowest = true ∧
      (∀ i < lowest, m.removes target i = false) ∧
        (m.drop target).calculator =
          m.commit (kept (!m.removes target ·) m.stack) (m.selection.filter (· < lowest)) := by
  unfold drop
  cases hremoved : (List.range m.stack.length).filter (m.removes target) with
  | nil =>
    refine .inl ⟨fun i hi => ?_, rfl⟩
    have hnone := List.filter_eq_nil_iff.mp hremoved i (List.mem_range.mpr hi)
    simpa using hnone
  | cons lowest rest =>
    obtain ⟨hlt, hremoves, hfirst⟩ := removed_eq_cons hremoved
    exact .inr ⟨lowest, hlt, hremoves, hfirst, rfl⟩

/-- The entries at the places that the target does not remove are left. -/
theorem stack_drop (m : Calculator) (target : DropTarget) :
    (m.drop target).calculator.stack = kept (!m.removes target ·) m.stack := by
  rcases drop_cases m target with ⟨hnone, heq⟩ | ⟨lowest, -, -, -, heq⟩
  · rw [heq, kept_of_forall fun i hi => by rw [hnone i hi, Bool.not_false]]
  · rw [heq]
    rfl

/-- A selection is left if neither its entry nor any below is removed. -/
theorem selection_drop (hm : m.SelectsEntry) (target : DropTarget) :
    (m.drop target).calculator.selection =
      m.selection.filter fun i => ∀ k ≤ i, m.removes target k = false := by
  rcases drop_cases m target with ⟨hnone, heq⟩ | ⟨lowest, -, hremoves, hfirst, heq⟩
  · rw [heq]
    cases h : m.selection with
    | none => rfl
    | some i =>
      have hlt := hm i h
      rw [Option.filter_some_pos]
      exact decide_eq_true fun k hk => hnone k (by omega)
  · rw [heq]
    refine congrArg (m.selection.filter ·) (funext fun i => decide_eq_decide.mpr ?_)
    refine ⟨fun hlt k hk => hfirst k (by omega), fun hkept => ?_⟩
    -- The lowest of the removed entries is no higher than any other.
    by_contra hle
    rw [hkept lowest (by omega)] at hremoves
    cases hremoves

end Calculator

namespace Registers

open Calculator
open Procedure (perform run_moveEntry run_drop)

variable {r s : Registers} {m : Calculator} {target : DropTarget} {delta : ℤ}

/-- The target names an index. -/
def Names (r : Registers) (index : ℤ) : DropTarget → Prop
  | .default => index = r.target
  | .index i => index = i
  | .range first last => first ≤ index ∧ index < last

/-- What moving the target entry by `delta` does to the stack and to the selection. -/
structure Moves (r s : Registers) (delta : ℤ) (goes : ℕ → Option ℕ) : Prop where
  placed : Placed goes r.stack s.stack
  /-- No entry is lost. -/
  all : ∀ i < r.stack.length, goes i ≠ none
  /-- The target entry goes as many places as it is moved, but not past an end of the stack. -/
  target : r.stack ≠ [] → ∃ i j : ℕ, r.target = i ∧ goes i = some j ∧
    (j : ℤ) = max 0 (min (i + delta) (r.stack.length - 1))
  /-- The others keep their order. -/
  order : ∀ i i' j j' : ℕ, (i : ℤ) ≠ r.target → (i' : ℤ) ≠ r.target → i < i' →
    goes i = some j → goes i' = some j' → j < j'
  /-- The selection goes with its entry. -/
  selection : s.selection = r.selection.bind fun i => (goes i.toNat).map Nat.cast

/-- What dropping a target does to the stack and to the selection. -/
structure Drops (r s : Registers) (target : DropTarget) (goes : ℕ → Option ℕ) : Prop where
  placed : Placed goes r.stack s.stack
  /-- The entries that the target names are lost, and no others. -/
  gone : ∀ i < r.stack.length, goes i = none ↔ r.Names i target
  /-- The others keep their order. -/
  order : ∀ i i' j j' : ℕ, i < i' → goes i = some j → goes i' = some j' → j < j'
  /-- A selection is cleared if it is at or past an entry that is lost, and only then. -/
  cleared : ∀ i, r.selection = some i →
    (s.selection = none ↔ ∃ k < r.stack.length, r.Names k target ∧ (k : ℤ) ≤ i)
  /-- A selection that is left is the one before, and so is its entry. -/
  survives : ∀ i, s.selection = some i → r.selection = some i ∧ ∃ k : ℕ, i = k ∧ goes k = some k
  nothing : (∀ k < r.stack.length, ¬ r.Names k target) → s = r
  commits : (∃ k < r.stack.length, r.Names k target) → r.Commits s

/-- From these registers on, moving and dropping lose no entries but those that are dropped, and a
selection stays on its entry. -/
structure LosesNothing (r : Registers) : Prop where
  move : ∀ delta, ∃ s, (perform (.moveEntry delta)).run r = .ok .nothing s ∧ ∃ goes,
    r.Moves s delta goes
  /-- A selected entry that is moved within the stack can be moved back. -/
  back : ∀ delta i, r.selection = some i → 0 ≤ i + delta → i + delta < r.stack.length →
    ∃ s u, (perform (.moveEntry delta)).run r = .ok .nothing s ∧
      (perform (.moveEntry (-delta))).run s = .ok .nothing u ∧ u.stack = r.stack ∧
      u.selection = r.selection
  drop : ∀ target, ∃ s, (perform (.drop target)).run r = .ok .nothing s ∧ ∃ goes,
    r.Drops s target goes
  /-- What is below the selection is dropped as the range of its places is. -/
  below : (perform .dropBelow).run r = match r.selection with
    | none => .ok .nothing r
    | some i => (perform (.drop (.range 0 i))).run r

/-- The target entry is moved on the registers. -/
theorem run_perform_moveEntry (hm : m.SelectsEntry) (delta : ℤ) :
    (perform (.moveEntry delta)).run m.registers =
      .ok .nothing (m.moveEntry delta).calculator.registers := by
  show (Procedure.silently (Procedure.moveEntry delta)).run m.registers = _
  rw [Procedure.silently, EStateM.run_bind, run_moveEntry hm]
  rfl

/-- A target is dropped on the registers. -/
theorem run_perform_drop (m : Calculator) (target : DropTarget) :
    (perform (.drop target)).run m.registers =
      .ok .nothing (m.drop target).calculator.registers := by
  show (Procedure.silently (Procedure.drop target)).run m.registers = _
  rw [Procedure.silently, EStateM.run_bind, run_drop]
  rfl

/-- The target removes the places that it names. -/
theorem removes_iff {i : ℕ} : m.removes target i = true ↔ m.registers.Names i target := by
  unfold removes Names
  cases target with
  | default => rw [decide_eq_true_iff, registers_target, eq_comm]
  | index k => rw [decide_eq_true_iff, eq_comm]
  | range first last => rw [Bool.and_eq_true, decide_eq_true_iff, decide_eq_true_iff]

/-- Moving the target entry sends all entries to places of their own, and the selection with
them. -/
theorem exists_moves (hm : m.SelectsEntry) (delta : ℤ) :
    ∃ goes, m.registers.Moves (m.moveEntry delta).calculator.registers delta goes := by
  by_cases hstack : m.stack = []
  · -- There are no places, and there is no selection.
    rw [moveEntry_of_nil hm hstack]
    refine ⟨fun _ => none, ⟨by simp, by simp, ?_⟩, ?_, fun h => absurd hstack h, by simp, ?_⟩
    · rw [registers_stack, hstack]
      simp
    · rw [registers_stack, hstack]
      simp
    · rw [registers_selection, selection_of_nil hm hstack]
      rfl
  · obtain ⟨place, destination, hplace, hdestination, htarget, hclamped, hmoved, hselection⟩ :=
      moveEntry_spec hm hstack delta
    refine ⟨shift m.stack place destination, ?_, fun i hi => ?_, fun _ => ?_,
      fun i i' j j' hi hi' hlt hj hj' => ?_, ?_⟩
    · rw [registers_stack, registers_stack, hmoved]
      exact placed_moved hplace hdestination
    · rw [registers_stack] at hi
      simp [shift, hi]
    · exact ⟨place, destination, by rw [registers_target, htarget], shift_self hplace, hclamped⟩
    · rw [registers_target, htarget, Ne, Int.ofNat_inj] at hi hi'
      exact shift_lt_shift hi hi' hlt hj hj'
    · -- A selection is the target.
      rw [registers_selection, registers_selection, hselection]
      cases h : m.selection with
      | none => rfl
      | some i =>
        rw [target_of_selection h] at htarget
        obtain rfl := Int.ofNat_inj.mp htarget
        simp [shift_self hplace]

/-- Dropping a target loses the entries that it names. -/
theorem exists_drops (hm : m.SelectsEntry) (target : DropTarget) :
    ∃ goes, m.registers.Drops (m.drop target).calculator.registers target goes := by
  have hselection := selection_drop hm target
  refine ⟨rank (!m.removes target ·) m.stack, ?_, fun i hi => ?_, fun i i' j j' => rank_lt_rank,
    fun i hi => ?_, fun i hi => ?_, fun hnone => ?_, ?_⟩
  · rw [registers_stack, registers_stack, stack_drop]
    exact placed_kept _ _
  · rw [← removes_iff, rank]
    simp [show i < m.stack.length from hi]
  · obtain ⟨p, hp, rfl⟩ := Option.map_eq_some_iff.mp hi
    rw [registers_selection, hselection, hp, Option.map_eq_none_iff, Option.filter_eq_none_iff]
    constructor
    · -- If no entry up to the selected one were named, the selection would be left.
      intro hcleared
      by_contra hnone
      refine hcleared p rfl
        (decide_eq_true fun k hk => Bool.eq_false_iff.mpr fun hremoves => hnone ?_)
      exact ⟨k, lt_of_le_of_lt hk (hm p hp), removes_iff.mp hremoves, Int.ofNat_le.mpr hk⟩
    · rintro ⟨k, -, hname, hk⟩ q hq hkept
      obtain rfl := Option.some.inj hq
      exact Bool.eq_false_iff.mp (of_decide_eq_true hkept k (Int.ofNat_le.mp hk))
        (removes_iff.mpr hname)
  · obtain ⟨p, hp, rfl⟩ := Option.map_eq_some_iff.mp hi
    rw [hselection] at hp
    obtain ⟨hp, hkept⟩ := Option.filter_eq_some_iff.mp hp
    rw [decide_eq_true_iff] at hkept
    refine ⟨congrArg (Option.map Nat.cast) hp, p, rfl, rank_of_forall_lt (hm p hp) fun k hk => ?_⟩
    rw [hkept k hk, Bool.not_false]
  · rcases drop_cases m target with ⟨-, heq⟩ | ⟨lowest, hlt, hremoves, -, -⟩
    · rw [heq]
    · exact absurd (removes_iff.mp hremoves) (hnone lowest hlt)
  · rintro ⟨k, hk, hname⟩
    rcases drop_cases m target with ⟨hnone, -⟩ | ⟨lowest, -, -, -, heq⟩
    · exact absurd (removes_iff.mpr hname) (Bool.eq_false_iff.mp (hnone k hk))
    · rw [heq]
      exact commits_commit m _ _

/-- From reachable registers on, moving and dropping lose no entries but those that are dropped, and
keep the selection on its entry. -/
theorem losesNothing_of_reachable (h : r.Reachable) : r.LosesNothing := by
  obtain ⟨m, hm, rfl⟩ := h.exists_calculator
  have hsel := hm.selectsEntry
  refine ⟨fun delta => ⟨_, run_perform_moveEntry hsel delta, exists_moves hsel delta⟩, ?_,
    fun target => ⟨_, run_perform_drop m target, exists_drops hsel target⟩, ?_⟩
  · intro delta i hi hlow hhigh
    obtain ⟨place, hplace, rfl⟩ := Option.map_eq_some_iff.mp hi
    obtain ⟨hstack, hselection⟩ := moveEntry_moveEntry hsel hplace hlow hhigh
    exact ⟨_, _, run_perform_moveEntry hsel delta,
      run_perform_moveEntry (selectsEntry_moveEntry hsel delta) (-delta), hstack,
      congrArg (Option.map Nat.cast) hselection⟩
  · show (Procedure.silently Procedure.dropBelow).run m.registers = _
    unfold Procedure.silently Procedure.dropBelow
    simp only [EStateM.run_bind, EStateM.run_get]
    cases m.registers.selection <;> rfl

/-- Of three variables the one below the top is selected: it can be moved to the bottom, and
dropped. -/
theorem losesNothing_selected :
    let pushed := afterAll [.push (.var "x") false .absent, .push (.var "y") false .absent,
      .push (.var "z") false .absent, .select (some 1)] { config := {} }
    pushed.Reachable ∧ pushed.selection = some 1 ∧ pushed.stack.length = 3 ∧ pushed.LosesNothing ∧
      (pushed.after (perform (.moveEntry (-5)))).selection = some 0 ∧
      (pushed.after (perform (.drop (.range 0 1)))).selection = none := by
  intro pushed
  have h : pushed.Reachable := (Reachable.fresh {}).afterAll _
  exact ⟨h, rfl, rfl, losesNothing_of_reachable h, rfl, rfl⟩

end Registers
end StackAlgebra
