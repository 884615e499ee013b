import Mathlib.Data.List.Sort
import Mathlib.Order.MinMax

/-!
# What a list says without its order

Two lists with the same members, in any order and number, agree on every question that
is asked of all or of some of their members, and on their greatest and least member.
Without repetitions they are permutations of each other, and sorted they are equal when
the order tells the members apart. `foldl_forall_iff` is the rule by which a fold over a
list asks such a question.
-/

namespace Lists

variable {α β σ ε : Type*} {l l' : List α}

def SameMembers (l l' : List α) : Prop := ∀ a, a ∈ l ↔ a ∈ l'

theorem SameMembers.eq_nil_iff (h : SameMembers l l') : l = [] ↔ l' = [] := by
  rw [List.eq_nil_iff_forall_not_mem, List.eq_nil_iff_forall_not_mem]
  exact forall_congr' fun a => not_congr (h a)

theorem SameMembers.isEmpty (h : SameMembers l l') : l.isEmpty = l'.isEmpty := by
  rw [Bool.eq_iff_iff, List.isEmpty_iff, List.isEmpty_iff]
  exact h.eq_nil_iff

theorem SameMembers.all (h : SameMembers l l') (p : α → Bool) : l.all p = l'.all p := by
  rw [Bool.eq_iff_iff, List.all_eq_true, List.all_eq_true]
  exact forall_congr' fun a => imp_congr_left (h a)

theorem SameMembers.any (h : SameMembers l l') (p : α → Bool) : l.any p = l'.any p := by
  rw [Bool.eq_iff_iff, List.any_eq_true, List.any_eq_true]
  exact exists_congr fun a => and_congr_left' (h a)

theorem SameMembers.filter (h : SameMembers l l') (p : α → Bool) :
    SameMembers (l.filter p) (l'.filter p) := by
  intro a
  rw [List.mem_filter, List.mem_filter, h a]

theorem SameMembers.map (h : SameMembers l l') (f : α → β) :
    SameMembers (l.map f) (l'.map f) := by
  intro b
  rw [List.mem_map, List.mem_map]
  exact exists_congr fun a => and_congr_left' (h a)

theorem SameMembers.perm (h : SameMembers l l') (hl : l.Nodup) (hl' : l'.Nodup) :
    l.Perm l' :=
  (List.perm_ext_iff_of_nodup hl hl').2 h

section Fold

variable {step : σ → ε → σ}

/-- A property of the state that each step keeps under a condition on its element holds
at the end exactly when it held at the start and every element meets the condition. -/
theorem foldl_forall_iff {P : σ → Prop} {Q : ε → Prop}
    (h : ∀ s e, P (step s e) ↔ P s ∧ Q e) (s : σ) (es : List ε) :
    P (es.foldl step s) ↔ P s ∧ ∀ e ∈ es, Q e := by
  induction es generalizing s with
  | nil => simp
  | cons e es ih => rw [List.foldl_cons, ih, h, and_assoc, List.forall_mem_cons]

/-- A field to which a step adds the datum of its element collects the data of all
elements. -/
theorem mem_foldl_iff (field : σ → List β) (entry : β → ε) {b : β}
    (h : ∀ s e, b ∈ field (step s e) ↔ b ∈ field s ∨ e = entry b) (s : σ) (es : List ε) :
    b ∈ field (es.foldl step s) ↔ b ∈ field s ∨ entry b ∈ es := by
  have hnot : ∀ s e, b ∉ field (step s e) ↔ b ∉ field s ∧ e ≠ entry b := fun s e => by
    rw [h, not_or]
  have hfold := foldl_forall_iff (P := fun s => b ∉ field s) hnot s es
  have hmem : (∀ e ∈ es, e ≠ entry b) ↔ entry b ∉ es :=
    ⟨fun hall hb => hall _ hb rfl, fun hb e he heq => hb (heq ▸ he)⟩
  rw [hmem, ← not_or] at hfold
  exact not_iff_not.1 hfold

end Fold

section Extremes

variable [LinearOrder α]

theorem foldl_max_le_iff (a : α) (l : List α) (c : α) :
    l.foldl max a ≤ c ↔ ∀ b ∈ a :: l, b ≤ c := by
  rw [foldl_forall_iff (P := fun s => s ≤ c) fun s e => max_le_iff (a := s) (b := e),
    List.forall_mem_cons]

theorem le_foldl_min_iff (a : α) (l : List α) (c : α) :
    c ≤ l.foldl min a ↔ ∀ b ∈ a :: l, c ≤ b := by
  rw [foldl_forall_iff (P := fun s => c ≤ s) fun s e => le_min_iff (a := s) (b := e),
    List.forall_mem_cons]

theorem SameMembers.foldl_max {a a' : α} (h : SameMembers (a :: l) (a' :: l')) :
    l.foldl max a = l'.foldl max a' := by
  refine eq_of_forall_ge_iff fun c => ?_
  rw [foldl_max_le_iff, foldl_max_le_iff]
  exact forall_congr' fun b => imp_congr_left (h b)

theorem SameMembers.foldl_min {a a' : α} (h : SameMembers (a :: l) (a' :: l')) :
    l.foldl min a = l'.foldl min a' := by
  refine eq_of_forall_le_iff fun c => ?_
  rw [le_foldl_min_iff, le_foldl_min_iff]
  exact forall_congr' fun b => imp_congr_left (h b)

end Extremes

section Sorting

variable {le : α → α → Bool}

/-- Sorting forgets the order of a list on whose members the order is antisymmetric. -/
theorem mergeSort_eq_of_perm (htrans : ∀ a b c, le a b → le b c → le a c)
    (htotal : ∀ a b, le a b || le b a) (h : l.Perm l')
    (hanti : ∀ a ∈ l, ∀ b ∈ l, le a b → le b a → a = b) :
    l.mergeSort le = l'.mergeSort le := by
  have hperm : (l.mergeSort le).Perm (l'.mergeSort le) :=
    (List.mergeSort_perm l le).trans (h.trans (List.mergeSort_perm l' le).symm)
  refine hperm.eq_of_pairwise (fun a b ha hb => ?_) (List.pairwise_mergeSort htrans htotal l)
    (List.pairwise_mergeSort htrans htotal l')
  exact hanti a (List.mem_mergeSort.1 ha) b (h.mem_iff.2 (List.mem_mergeSort.1 hb))

/-- Two members of a list come in one order or the other. -/
theorem pair_sublist_or_swap {a b : α} (ha : a ∈ l) (hb : b ∈ l) (hne : a ≠ b) :
    [a, b].Sublist l ∨ [b, a].Sublist l := by
  induction l with
  | nil => cases ha
  | cons c l ih =>
      rcases List.mem_cons.1 ha with rfl | hal
      · have hbl : b ∈ l := (List.mem_cons.1 hb).resolve_left hne.symm
        exact Or.inl ((List.singleton_sublist.2 hbl).cons_cons a)
      · rcases List.mem_cons.1 hb with rfl | hbl
        · exact Or.inr ((List.singleton_sublist.2 hal).cons_cons b)
        · exact (ih hal hbl).imp (List.Sublist.cons c) (List.Sublist.cons c)

/-- Two members of a list without repetitions come in one order only. -/
theorem not_sublist_swap {a b : α} (hnodup : l.Nodup) (h : [a, b].Sublist l) :
    ¬ [b, a].Sublist l := by
  induction l with
  | nil => cases h
  | cons c l ih =>
      obtain ⟨hc, hl⟩ := List.nodup_cons.1 hnodup
      intro h'
      rcases List.cons_sublist_cons'.1 h with hab | ⟨rfl, hb⟩
      · rcases List.cons_sublist_cons'.1 h' with hba | ⟨rfl, ha⟩
        · exact ih hl hab hba
        · exact hc (hab.subset (List.mem_cons_of_mem a List.mem_cons_self))
      · rcases List.cons_sublist_cons'.1 h' with hba | ⟨rfl, ha⟩
        · exact hc (hba.subset (List.mem_cons_of_mem b List.mem_cons_self))
        · exact hc (hb.subset List.mem_cons_self)

/-- Members that the order does not tell apart keep their places: two lists in which
they come in different orders are sorted differently. -/
theorem mergeSort_ne_of_swap (htrans : ∀ a b c, le a b → le b c → le a c)
    (htotal : ∀ a b, le a b || le b a) {a b : α} (hab : le a b) (hba : le b a)
    (hl : [a, b].Sublist l) (hl' : [b, a].Sublist l') (hnodup : l.Nodup) :
    l.mergeSort le ≠ l'.mergeSort le := by
  intro heq
  have hfirst : [a, b].Sublist (l.mergeSort le) :=
    List.pair_sublist_mergeSort htrans htotal hab hl
  have hsecond : [b, a].Sublist (l.mergeSort le) := by
    rw [heq]
    exact List.pair_sublist_mergeSort htrans htotal hba hl'
  have hsorted : (l.mergeSort le).Nodup := (List.mergeSort_perm l le).nodup_iff.2 hnodup
  exact absurd hsecond (not_sublist_swap hsorted hfirst)

end Sorting

end Lists
