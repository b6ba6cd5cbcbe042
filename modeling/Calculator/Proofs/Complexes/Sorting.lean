import Calculator.Complex.Order
import Calculator.Proofs.Doubles.Ranking

/-!
# Sorting complex numbers

Complex numbers are compared by the ranks of their parts, one after the other. So their order is
linear up to equality, whatever the parts are, and sorting keeps equal numbers in their places.

* `rank`: the place of a complex number among all of them;
* `compareBy_eq`, `equalBy_iff`: comparison and equality are those of ranks;
* `filter_sortBy`: sorting is stable;
* `Coherent order`: order, equality, hash and sorting fit together;
* `coherent`: they do under every lawful order of doubles.
-/

namespace Calculator.Complex

open Double (TotalOrder)

variable {order : TotalOrder} {a b c : Complex}

/-! ### Ranks -/

/-- **The place of a complex number among all of them.** -/
def rank (a : Complex) : (ℤ ×ₗ ℚ) ×ₗ (ℤ ×ₗ ℚ) := toLex (Double.rank a.re, Double.rank a.im)

theorem rank_eq_iff : rank a = rank b ↔
    Double.rank a.re = Double.rank b.re ∧ Double.rank a.im = Double.rank b.im := by
  unfold rank
  rw [toLex_inj, Prod.mk_inj]

theorem compareBy_eq (ho : order.Lawful) (a b : Complex) :
    compareBy order a b = compare (rank a) (rank b) := by
  unfold compareBy
  rw [ho.compare_eq, ho.compare_eq]
  rfl

theorem isLE_iff (ho : order.Lawful) (a b : Complex) :
    (compareBy order a b).isLE = true ↔ rank a ≤ rank b := by
  rw [compareBy_eq ho, ← compare_le_iff_le]
  exact Ordering.isLE_iff_ne_gt

theorem equalBy_iff (ho : order.Lawful) (a b : Complex) :
    equalBy order a b = true ↔ rank a = rank b := by
  unfold equalBy
  rw [Bool.and_eq_true, ho.same_iff_rank, ho.same_iff_rank, rank_eq_iff]

/-! ### Sorting -/

theorem isLE_trans (ho : order.Lawful) (a b c : Complex)
    (hab : (compareBy order a b).isLE = true) (hbc : (compareBy order b c).isLE = true) :
    (compareBy order a c).isLE = true := by
  rw [isLE_iff ho] at hab hbc ⊢
  exact hab.trans hbc

theorem isLE_total (ho : order.Lawful) (a b : Complex) :
    ((compareBy order a b).isLE || (compareBy order b a).isLE) = true := by
  rw [Bool.or_eq_true, isLE_iff ho, isLE_iff ho]
  exact le_total (rank a) (rank b)

theorem perm_sortBy (order : TotalOrder) (as : List Complex) : (sortBy order as).Perm as :=
  List.mergeSort_perm as _

/-- **Sorting is stable**: the numbers equal to one of them keep their order. -/
theorem filter_sortBy (ho : order.Lawful) (as : List Complex) (a : Complex) :
    (sortBy order as).filter (equalBy order a) = as.filter (equalBy order a) := by
  have hequal : (as.filter (equalBy order a)).Pairwise
      fun b c => (compareBy order b c).isLE = true := by
    refine List.pairwise_of_forall_mem_list fun b hb c hc => ?_
    rw [List.mem_filter, equalBy_iff ho] at hb hc
    rw [isLE_iff ho, ← hb.2, ← hc.2]
  -- Equal numbers are in order already, so they are a sublist of the sorted list too.
  have hsub := List.sublist_mergeSort (isLE_trans ho) (isLE_total ho) hequal List.filter_sublist
  have hfilter := hsub.filter (equalBy order a)
  rw [List.filter_filter] at hfilter
  simp only [Bool.and_self] at hfilter
  exact (hfilter.eq_of_length ((perm_sortBy order as).filter _).length_eq.symm).symm

/-! ### Coherence -/

/-- **Order, equality, hash and sorting fit together.** -/
structure Coherent (order : TotalOrder) : Prop where
  /-- By real and then by imaginary part, NaN at the end. -/
  ranked (a b : Complex) : compareBy order a b = compare (rank a) (rank b)
  refl (a : Complex) : compareBy order a a = .eq
  swap (a b : Complex) : compareBy order b a = (compareBy order a b).swap
  total (a b : Complex) :
    (compareBy order a b).isLE = true ∨ (compareBy order b a).isLE = true
  trans (a b c : Complex) : (compareBy order a b).isLE = true → (compareBy order b c).isLE = true →
    (compareBy order a c).isLE = true
  antisymm (a b : Complex) : (compareBy order a b).isLE = true →
    (compareBy order b a).isLE = true → equalBy order a b = true
  equal_iff (a b : Complex) : equalBy order a b = true ↔ compareBy order a b = .eq
  partial_eq (a b : Complex) : partialCompareBy order a b = some (compareBy order a b)
  feed_eq (a b : Complex) : equalBy order a b = true → feedBy order a = feedBy order b
  /-- A NaN may have any payload. -/
  nan_equal (u v : UInt64) (x : Float) : (Float.ofBits u).isNaN = true →
    (Float.ofBits v).isNaN = true → equalBy order ⟨.ofBits u, x⟩ ⟨.ofBits v, x⟩ = true ∧
      equalBy order ⟨x, .ofBits u⟩ ⟨x, .ofBits v⟩ = true
  sort_perm (as : List Complex) : (sortBy order as).Perm as
  sort_ordered (as : List Complex) :
    (sortBy order as).Pairwise fun a b => (compareBy order a b).isLE = true
  sort_stable (as : List Complex) (a : Complex) :
    (sortBy order as).filter (equalBy order a) = as.filter (equalBy order a)

/-- **Every lawful order of doubles makes a coherent order of complex numbers.** -/
theorem coherent (ho : order.Lawful) : Coherent order where
  ranked := compareBy_eq ho
  refl a := by rw [compareBy_eq ho, compare_eq_iff_eq]
  swap a b := by
    rw [compareBy_eq ho, compareBy_eq ho]
    exact Std.OrientedOrd.eq_swap
  total a b := by
    have h := isLE_total ho a b
    rwa [Bool.or_eq_true] at h
  trans := isLE_trans ho
  antisymm a b hab hba := by
    rw [isLE_iff ho] at hab hba
    rw [equalBy_iff ho]
    exact le_antisymm hab hba
  equal_iff a b := by rw [equalBy_iff ho, compareBy_eq ho, compare_eq_iff_eq]
  partial_eq a b := rfl
  feed_eq a b h := by
    unfold equalBy at h
    rw [Bool.and_eq_true] at h
    unfold feedBy
    rw [ho.feed_eq _ _ h.1, ho.feed_eq _ _ h.2]
  nan_equal u v x hu hv := by
    have hrank := Double.rank_eq_iff.2 (.inr ⟨hu, hv⟩)
    rw [equalBy_iff ho, equalBy_iff ho, rank_eq_iff, rank_eq_iff]
    exact ⟨⟨hrank, rfl⟩, ⟨rfl, hrank⟩⟩
  sort_perm := perm_sortBy order
  sort_ordered := List.pairwise_mergeSort (isLE_trans ho) (isLE_total ho)
  sort_stable := filter_sortBy ho

/-- Equal numbers with zeros of both signs keep their order among NaNs. -/
theorem coherent_standard : TotalOrder.standard.Lawful ∧
    (sort [⟨Double.nan, 0.0⟩, ⟨-0.0, 1.0⟩, ⟨0.0, Double.nan⟩, ⟨0.0, 1.0⟩]).filter
      (⟨0.0, 1.0⟩ == ·) = [⟨-0.0, 1.0⟩, ⟨0.0, 1.0⟩] :=
  ⟨Double.TotalOrder.lawful_standard,
    (coherent Double.TotalOrder.lawful_standard).sort_stable _ _⟩

end Calculator.Complex
