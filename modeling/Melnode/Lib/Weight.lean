import Mathlib.Algebra.Order.BigOperators.Group.List
import Mathlib.Tactic.Linarith

/-!
# Weights of sublists

`weigh w p l` is the total weight of the items of `l` satisfying `p`. It does not depend on the
order of `l`; `weighAhead`, which sums for every item of interest the weight of the items in front
of it, does. Two sets above two thirds of the total share more than one third of it
(`third_lt_weigh_and`).
-/

namespace Melnode.Lib

universe u v

variable {α : Type u} {κ : Type v}

/-- The total weight of the items satisfying `p`. -/
def weigh (w : α → Nat) (p : α → Bool) (l : List α) : Nat := ((l.filter p).map w).sum

section Weigh

variable (w : α → Nat)

@[simp] theorem weigh_nil (p : α → Bool) : weigh w p [] = 0 := rfl

theorem weigh_cons (p : α → Bool) (x : α) (l : List α) :
    weigh w p (x :: l) = (if p x then w x else 0) + weigh w p l := by
  unfold weigh
  by_cases h : p x <;> simp [h]

theorem weigh_perm (p : α → Bool) {l l' : List α} (h : l.Perm l') :
    weigh w p l = weigh w p l' :=
  ((h.filter p).map w).sum_eq

theorem weigh_congr {p q : α → Bool} {l : List α} (h : ∀ x ∈ l, p x = q x) :
    weigh w p l = weigh w q l := by
  unfold weigh
  rw [List.filter_congr h]

/-- Only the items with some weight count. -/
theorem weigh_mono_pos {p q : α → Bool} {l : List α}
    (h : ∀ x ∈ l, p x = true → 0 < w x → q x = true) : weigh w p l ≤ weigh w q l := by
  induction l with
  | nil => exact Nat.le_refl 0
  | cons x l ih =>
    have hl := ih fun y hy => h y (List.mem_cons_of_mem x hy)
    have hx := h x List.mem_cons_self
    rw [weigh_cons, weigh_cons]
    by_cases hp : p x = true
    · rcases Nat.eq_zero_or_pos (w x) with hzero | hpos
      · simp only [hp, hzero, ite_self]
        omega
      · simp only [hp, hx hp hpos, ite_true]
        omega
    · simp only [hp, Bool.false_eq_true, ite_false]
      omega

theorem weigh_mono {p q : α → Bool} {l : List α} (h : ∀ x ∈ l, p x = true → q x = true) :
    weigh w p l ≤ weigh w q l :=
  weigh_mono_pos w fun x hx hp _ => h x hx hp

theorem le_weigh {p : α → Bool} {l : List α} {x : α} (hx : x ∈ l) (hp : p x = true) :
    w x ≤ weigh w p l :=
  List.le_sum_of_mem (List.mem_map_of_mem (List.mem_filter.mpr ⟨hx, hp⟩))

/-- Inclusion and exclusion for two properties. -/
theorem weigh_or_add_and (p q : α → Bool) (l : List α) :
    weigh w (fun x => p x || q x) l + weigh w (fun x => p x && q x) l =
      weigh w p l + weigh w q l := by
  induction l with
  | nil => rfl
  | cons x l ih =>
    simp only [weigh_cons]
    cases p x <;> cases q x <;> simp <;> omega

/-- **Quorum intersection**: two properties above two thirds of the total weight hold together
above one third of it. -/
theorem third_lt_weigh_and {a p q : α → Bool} {l : List α}
    (hp : ∀ x ∈ l, p x = true → a x = true) (hq : ∀ x ∈ l, q x = true → a x = true)
    (h₁ : 2 * weigh w a l < 3 * weigh w p l) (h₂ : 2 * weigh w a l < 3 * weigh w q l) :
    weigh w a l < 3 * weigh w (fun x => p x && q x) l := by
  have hsum := weigh_or_add_and w p q l
  have hor : weigh w (fun x => p x || q x) l ≤ weigh w a l := by
    apply weigh_mono
    intro x hx h
    rcases Bool.or_eq_true _ _ ▸ h with h | h
    · exact hp x hx h
    · exact hq x hx h
  omega

/-- Summing the weight of each key of a list without repetitions weighs the items whose key is
in the list. -/
theorem sum_weigh_keys [DecidableEq κ] (a : α → Bool) (key : α → κ) (l : List α) {ks : List κ}
    (hks : ks.Nodup) :
    (ks.map fun k => weigh w (fun x => a x && key x == k) l).sum =
      weigh w (fun x => a x && ks.contains (key x)) l := by
  induction ks with
  | nil =>
    symm
    simp [weigh]
  | cons k ks ih =>
    obtain ⟨hk, hks⟩ := List.nodup_cons.mp hks
    have hand : weigh w
        (fun x => (a x && key x == k) && (a x && ks.contains (key x))) l = 0 := by
      unfold weigh
      rw [List.filter_eq_nil_iff.mpr]
      · rfl
      · intro x _ h
        simp only [Bool.and_eq_true, beq_iff_eq, List.contains_iff_mem] at h
        exact hk (h.1.2 ▸ h.2.2)
    have hsum := weigh_or_add_and w (fun x => a x && key x == k)
      (fun x => a x && ks.contains (key x)) l
    rw [List.map_cons, List.sum_cons, ih hks, ← hsum, hand, Nat.add_zero]
    apply weigh_congr
    intro x _
    rw [List.contains_cons]
    cases a x <;> rfl

end Weigh

/-! ## Weight in front of an item -/

section Ahead

variable (w : α → Nat) (a p : α → Bool)

/-- Over the items satisfying `a` and `p`, the weight of the items satisfying `a` in front of each,
summed; `t` is the weight already in front of the list. -/
def weighAhead : Nat → List α → Nat
  | _, [] => 0
  | t, x :: l => if a x then (if p x then t else 0) + weighAhead (t + w x) l else weighAhead t l

@[simp] theorem weighAhead_nil (t : Nat) : weighAhead w a p t [] = 0 := rfl

theorem weighAhead_cons (t : Nat) (x : α) (l : List α) :
    weighAhead w a p t (x :: l) =
      if a x then (if p x then t else 0) + weighAhead w a p (t + w x) l
      else weighAhead w a p t l := rfl

variable {w a p} {q : α → Bool}

/-- More items of interest have no less in front of them. -/
theorem weighAhead_mono {l : List α} : ∀ {t : Nat}, (∀ x ∈ l, p x = true → q x = true) →
    weighAhead w a p t l ≤ weighAhead w a q t l := by
  induction l with
  | nil => exact fun _ => Nat.le_refl 0
  | cons x l ih =>
    intro t h
    have hl : ∀ {t : Nat}, weighAhead w a p t l ≤ weighAhead w a q t l :=
      ih fun y hy => h y (List.mem_cons_of_mem x hy)
    rw [weighAhead_cons, weighAhead_cons]
    by_cases ha : a x = true
    · rw [if_pos ha, if_pos ha]
      refine Nat.add_le_add ?_ hl
      by_cases hp : p x = true
      · rw [if_pos hp, if_pos (h x List.mem_cons_self hp)]
      · rw [if_neg hp]
        exact Nat.zero_le _
    · rw [if_neg ha, if_neg ha]
      exact hl

/-- In front of each item there is at most everything. -/
theorem weighAhead_le : ∀ {t : Nat} {l : List α},
    weighAhead w a p t l ≤ l.length * (t + weigh w a l) := by
  intro t l
  induction l generalizing t with
  | nil => exact Nat.zero_le _
  | cons x l ih =>
    rw [weighAhead_cons, weigh_cons, List.length_cons]
    cases a x with
    | false =>
      simp only [Bool.false_eq_true, if_false, Nat.zero_add]
      exact Nat.le_trans ih (Nat.mul_le_mul_right _ (Nat.le_succ _))
    | true =>
      simp only [if_true]
      have hrest : weighAhead w a p (t + w x) l ≤ l.length * (t + (w x + weigh w a l)) := by
        rw [← Nat.add_assoc]
        exact ih
      have hfirst : (if p x = true then t else 0) ≤ t + (w x + weigh w a l) := by
        split <;> omega
      rw [Nat.succ_mul]
      omega

end Ahead

end Melnode.Lib
