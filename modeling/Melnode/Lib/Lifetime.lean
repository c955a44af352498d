import Mathlib

/-!
# Lifetimes

Things are born at heights and end at heights, and the ones alive at a height are those born up to
it that have not ended by then. When nothing ends before it is born, and nothing ends twice, one
height changes them by what is born at it and what ends at it, in this order (`alive_succ`): what
ends was alive before or has just been born (`ending_subset`).
-/

namespace Melnode.Lib

universe u

/-- What is born at each height, and what ends at it. -/
structure Lifetimes (κ : Type u) where
  born : Nat → Set κ
  ended : Nat → Set κ

namespace Lifetimes

variable {κ : Type u}

/-- What is born up to a height. -/
def bornBy (L : Lifetimes κ) (h : Nat) : Set κ := {x | ∃ k ≤ h, x ∈ L.born k}

/-- What is born up to a height and has not ended by then. -/
def alive (L : Lifetimes κ) (h : Nat) : Set κ := {x | x ∈ L.bornBy h ∧ ∀ k ≤ h, x ∉ L.ended k}

/-- What is born up to a height and ends at it. -/
def ending (L : Lifetimes κ) (h : Nat) : Set κ := {x | x ∈ L.bornBy h ∧ x ∈ L.ended h}

/-- Nothing ends before it is born, and nothing ends twice. -/
structure Lawful (L : Lifetimes κ) : Prop where
  born_le : ∀ {x : κ} {i j : Nat}, x ∈ L.born i → x ∈ L.ended j → i ≤ j
  ended_once : ∀ {x : κ} {i j k : Nat}, x ∈ L.born i → x ∈ L.ended j → x ∈ L.ended k → j = k

variable {L : Lifetimes κ} {h : Nat}

theorem bornBy_succ : L.bornBy (h + 1) = L.bornBy h ∪ L.born (h + 1) := by
  ext x
  constructor
  · rintro ⟨k, hk, hborn⟩
    rcases Nat.lt_or_eq_of_le hk with hlt | rfl
    · exact Or.inl ⟨k, Nat.le_of_lt_succ hlt, hborn⟩
    · exact Or.inr hborn
  · rintro (⟨k, hk, hborn⟩ | hborn)
    · exact ⟨k, Nat.le_succ_of_le hk, hborn⟩
    · exact ⟨h + 1, Nat.le_refl _, hborn⟩

/-- What ends at a height has not ended before it. -/
theorem Lawful.not_ended (hL : L.Lawful) {x : κ} (hx : x ∈ L.ending (h + 1)) :
    ∀ k ≤ h, x ∉ L.ended k := by
  intro k hk hended
  obtain ⟨⟨i, -, hborn⟩, hnow⟩ := hx
  have := hL.ended_once hborn hended hnow
  omega

/-- What ends at a height was alive before it or is born at it. -/
theorem Lawful.ending_subset (hL : L.Lawful) :
    L.ending (h + 1) ⊆ L.alive h ∪ L.born (h + 1) := by
  intro x hx
  have hborn := hx.1
  rw [bornBy_succ] at hborn
  exact hborn.imp_left fun hbefore => ⟨hbefore, hL.not_ended hx⟩

/-- **One height**: what was alive and what is born, less what ends. -/
theorem Lawful.alive_succ (hL : L.Lawful) :
    L.alive (h + 1) = (L.alive h ∪ L.born (h + 1)) \ L.ending (h + 1) := by
  ext x
  constructor
  · rintro ⟨hborn, hnot⟩
    refine ⟨?_, fun hending => hnot (h + 1) (Nat.le_refl _) hending.2⟩
    rw [bornBy_succ] at hborn
    exact hborn.imp_left fun hbefore => ⟨hbefore, fun k hk => hnot k (Nat.le_succ_of_le hk)⟩
  · rintro ⟨hx, hending⟩
    have hborn : x ∈ L.bornBy (h + 1) := by
      rw [bornBy_succ]
      exact hx.imp_left And.left
    refine ⟨hborn, ?_⟩
    intro k hk hended
    rcases Nat.lt_or_eq_of_le hk with hlt | rfl
    · rcases hx with halive | hnew
      · exact halive.2 k (Nat.le_of_lt_succ hlt) hended
      · have := hL.born_le hnew hended
        omega
    · exact hending ⟨hborn, hended⟩

theorem bornBy_mono {h' : Nat} (hh : h ≤ h') : L.bornBy h ⊆ L.bornBy h' :=
  fun _ ⟨k, hk, hborn⟩ => ⟨k, Nat.le_trans hk hh, hborn⟩

/-- **Over some heights**, what is alive is gone exactly if it ends at one of them. -/
theorem not_alive_iff {x : κ} {h' : Nat} (hh : h ≤ h') (hx : x ∈ L.alive h) :
    x ∉ L.alive h' ↔ ∃ k, h < k ∧ k ≤ h' ∧ x ∈ L.ended k := by
  constructor
  · intro hgone
    by_contra hnone
    refine hgone ⟨bornBy_mono hh hx.1, fun k hk hended => ?_⟩
    rcases Nat.lt_or_ge h k with hlt | hle
    · exact hnone ⟨k, hlt, hk, hended⟩
    · exact hx.2 k hle hended
  · rintro ⟨k, -, hk, hended⟩ halive
    exact halive.2 k hk hended

end Lifetimes

end Melnode.Lib
