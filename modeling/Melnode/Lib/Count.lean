import Mathlib.Algebra.BigOperators.Group.Finset.Basic
import Mathlib.Algebra.Order.BigOperators.Group.Finset
import Mathlib.Order.ConditionallyCompleteLattice.Basic
import Mathlib.Order.Lattice.Nat
import Melnode.Lib.Lts

/-!
# Counting along runs

What is sent is counted by who sent it (`length_le_mul`), and who sends by keys that are taken once
(`length_le_sum`). A count that never falls and stays below a bound comes to rest
(`comes_to_rest`), in particular along an infinite run.
-/

namespace Melnode.Lib

section Lists

variable {α β : Type} [DecidableEq β]

/-- If every entry has its key in a list and no key has more than `n` entries, there are at most `n`
entries for each key of the list. -/
theorem length_le_mul (key : α → β) {keys : List β} {n : Nat} : ∀ {entries : List α},
    (∀ x ∈ entries, key x ∈ keys) → (∀ k, (entries.filter fun x => key x = k).length ≤ n) →
      entries.length ≤ n * keys.length := by
  induction keys with
  | nil =>
    intro entries hmem _
    have hnil : entries = [] := List.eq_nil_iff_forall_not_mem.mpr fun x hx =>
      absurd (hmem x hx) List.not_mem_nil
    simp [hnil]
  | cons k keys ih =>
    intro entries hmem hfiber
    have hrest : (entries.filter fun x => !decide (key x = k)).length ≤ n * keys.length := by
      apply ih
      · intro x hx
        obtain ⟨hx, hne⟩ := List.mem_filter.mp hx
        rcases List.mem_cons.mp (hmem x hx) with heq | hin
        · simp [heq] at hne
        · exact hin
      · intro k'
        exact Nat.le_trans (List.filter_sublist.filter _).length_le (hfiber k')
    have hsplit := List.length_eq_length_filter_add (l := entries) fun x => decide (key x = k)
    have hk := hfiber k
    rw [List.length_cons, Nat.mul_succ]
    omega

/-- Entries with different keys, at most `bound i + 1` keys for each of finitely many `i`. -/
theorem length_le_sum {ι : Type} [Fintype ι] [DecidableEq ι] {entries : List α} (who : α → ι)
    {number : α → Nat} {bound : ι → Nat}
    (hnodup : (entries.map fun x => (who x, number x)).Nodup)
    (hbound : ∀ x ∈ entries, number x ≤ bound (who x)) :
    entries.length ≤ ∑ i, (bound i + 1) := by
  have hsub : (entries.map fun x => (who x, number x)).toFinset ⊆
      (Finset.univ.sigma fun i => Finset.range (bound i + 1)).image fun p => (p.1, p.2) := by
    intro p hp
    obtain ⟨x, hx, rfl⟩ := List.mem_map.mp (List.mem_toFinset.mp hp)
    refine Finset.mem_image.mpr ⟨⟨who x, number x⟩, ?_, rfl⟩
    rw [Finset.mem_sigma, Finset.mem_range]
    exact ⟨Finset.mem_univ _, Nat.lt_succ_of_le (hbound x hx)⟩
  calc entries.length
      = (entries.map fun x => (who x, number x)).toFinset.card := by
        rw [List.toFinset_card_of_nodup hnodup, List.length_map]
    _ ≤ (Finset.univ.sigma fun i => Finset.range (bound i + 1)).card :=
        Nat.le_trans (Finset.card_le_card hsub) Finset.card_image_le
    _ = ∑ i, (bound i + 1) := by
        rw [Finset.card_sigma]
        exact Finset.sum_congr rfl fun i _ => Finset.card_range _

end Lists

namespace Lts

universe u v

variable {σ : Type u} {ε : Type v} {L : Lts σ ε}

/-- An infinite run. -/
def IsRun (L : Lts σ ε) (run : Nat → σ) : Prop := ∀ n, L.Next (run n) (run (n + 1))

theorem IsRun.reaches {run : Nat → σ} (h : L.IsRun run) : ∀ n, L.Reaches (run 0) (run n)
  | 0 => .refl _
  | n + 1 => Relation.ReflTransGen.tail (IsRun.reaches h n) (h n)

end Lts

/-- **A bounded count comes to rest.** -/
theorem comes_to_rest {count : Nat → Nat} {bound : Nat} (hmono : ∀ n, count n ≤ count (n + 1))
    (hbound : ∀ n, count n ≤ bound) : ∃ k, ∀ m, k ≤ m → count m = count k := by
  have hbdd : BddAbove (Set.range count) := ⟨bound, by rintro _ ⟨n, rfl⟩; exact hbound n⟩
  obtain ⟨k, hk⟩ := Nat.sSup_mem (Set.range_nonempty count) hbdd
  refine ⟨k, fun m hm => Nat.le_antisymm ?_ (monotone_nat_of_le_succ hmono hm)⟩
  calc count m ≤ sSup (Set.range count) := le_csSup hbdd ⟨m, rfl⟩
    _ = count k := hk.symm

end Melnode.Lib
