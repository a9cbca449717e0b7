import Mathlib.Data.List.Infix
import Mathlib.Data.Nat.Notation

/-!
# Lines and where they start

A text is split at a separator; `linesFrom` pairs each line with its offset.

* `splitOn_prepend` — a text extended to the left: all lines but the first stay.
* `linesFrom_prepend` — the offsets of the lines that stay, and of the others.
-/

namespace HaAddons.Lib

variable {α : Type}

/-! ## Lines of a longer text -/

section Split

variable [BEq α] {sep : α}

/-- The first line holds no separator. -/
theorem splitOn_first {b t : List α} {ls : List (List α)} (hb : b.splitOn sep = t :: ls) :
    t.splitOn sep = [t] := by
  induction b generalizing t ls with
  | nil =>
    rw [List.splitOn_nil, List.cons.injEq] at hb
    rw [← hb.1, List.splitOn_nil]
  | cons c b ih =>
    obtain ⟨u, us, hu⟩ := List.exists_cons_of_ne_nil (List.splitOn_ne_nil sep b)
    rw [List.splitOn_cons_eq_if_modifyHead, hu] at hb
    split at hb
    · rw [← (List.cons.inj hb).1, List.splitOn_nil]
    · rename_i hc
      rw [← (List.cons.inj hb).1, List.splitOn_cons_eq_if_modifyHead, if_neg hc, ih hu]
      rfl

/-- Of the lines of `b` a text before it changes the first one only, and the lines of that text
and this line are the new ones. -/
theorem splitOn_prepend {b t : List α} {ls : List (List α)} (hb : b.splitOn sep = t :: ls)
    (a : List α) :
    ∃ t' ls', (a ++ t).splitOn sep = t' :: ls' ∧ (a ++ b).splitOn sep = t' :: (ls' ++ ls) := by
  induction a with
  | nil => exact ⟨t, [], splitOn_first hb, hb⟩
  | cons c a ih =>
    obtain ⟨t', ls', hat, hab⟩ := ih
    simp only [List.cons_append, List.splitOn_cons_eq_if_modifyHead, hat, hab]
    split
    · exact ⟨[], t' :: ls', rfl, rfl⟩
    · exact ⟨c :: t', ls', rfl, rfl⟩

end Split

/-! ## Offsets -/

/-- The lines, each with its offset, where the first one starts at `off`. -/
def linesFrom (off : ℕ) : List (List α) → List (ℕ × List α)
  | [] => []
  | l :: ls => (off, l) :: linesFrom (off + l.length + 1) ls

@[simp] theorem linesFrom_nil (off : ℕ) : linesFrom off ([] : List (List α)) = [] := rfl

@[simp] theorem linesFrom_cons (off : ℕ) (l : List α) (ls : List (List α)) :
    linesFrom off (l :: ls) = (off, l) :: linesFrom (off + l.length + 1) ls := rfl

theorem le_of_mem_linesFrom {off : ℕ} {ls : List (List α)} {p : ℕ × List α}
    (h : p ∈ linesFrom off ls) : off ≤ p.1 := by
  induction ls generalizing off with
  | nil => simp at h
  | cons l ls ih =>
    rw [linesFrom_cons, List.mem_cons] at h
    cases h with
    | inl h => rw [h]
    | inr h => have := ih h; omega

theorem map_snd_linesFrom (off : ℕ) (ls : List (List α)) :
    (linesFrom off ls).map Prod.snd = ls := by
  induction ls generalizing off with
  | nil => rfl
  | cons l ls ih => simp [ih]

variable [BEq α] {sep : α}

/-- In front of the lines of `b` that stay, there are lines that start in `a` or where `b` does. -/
theorem linesFrom_prepend {b t : List α} {ls : List (List α)} (hb : b.splitOn sep = t :: ls)
    (off : ℕ) (a : List α) :
    ∃ first pre, linesFrom off ((a ++ b).splitOn sep) =
        (off, first) :: (pre ++ linesFrom (off + a.length + t.length + 1) ls) ∧
      (∀ p ∈ pre, p.1 ≤ off + a.length) ∧ (a = [] → first = t ∧ pre = []) := by
  induction a generalizing off with
  | nil => exact ⟨t, [], by simp [hb], by simp, fun _ => ⟨rfl, rfl⟩⟩
  | cons c a ih =>
    obtain ⟨first, pre, heq, hpre, -⟩ := ih (off + 1)
    have hoff : off + 1 + a.length = off + (c :: a).length := by
      rw [List.length_cons]; omega
    rw [hoff] at heq hpre
    obtain ⟨u, us, hu⟩ := List.exists_cons_of_ne_nil (List.splitOn_ne_nil sep (a ++ b))
    rw [List.cons_append, List.splitOn_cons_eq_if_modifyHead, hu]
    rw [hu] at heq
    split
    · refine ⟨[], (off + 1, first) :: pre, ?_, ?_, by simp⟩
      · rw [linesFrom_cons, List.length_nil, Nat.add_zero, heq, List.cons_append]
      · intro p hp
        cases List.mem_cons.mp hp with
        | inl h => rw [h, List.length_cons]; simp
        | inr h => exact hpre p h
    · refine ⟨c :: u, pre, ?_, hpre, by simp⟩
      rw [linesFrom_cons, List.cons.injEq] at heq
      rw [List.modifyHead_cons, linesFrom_cons, ← heq.2, List.length_cons]
      congr 2
      omega

end HaAddons.Lib
