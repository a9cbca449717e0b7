import Mathlib.Algebra.Order.Group.Defs
import Mathlib.Algebra.Order.Sub.Basic
import Mathlib.Algebra.Group.Basic
import Mathlib.Data.List.Basic
import Mathlib.Data.Nat.Notation
import Mathlib.Tactic.Abel

/-!
# A limiter with a sliding window

A limiter keeps the times of its last events. At a new time it drops those that are a window or more
in the past, and refuses if as many as the limit are left.

* `Covers.push`, `Covers.trim` — what is dropped does not count at any later time.
* `Sparse.push` — an event that is let through keeps every span shorter than the window within the
  limit.
-/

namespace HaAddons.Lib

variable {τ : Type} [AddCommGroup τ] [LinearOrder τ]

/-- The times less than a window before `t`. -/
def recent (window t : τ) (ts : List τ) : List τ := ts.filter fun a => t - a < window

/-- No span shorter than the window has more than `limit` of the times. -/
def Sparse (window : τ) (limit : ℕ) (ts : List τ) : Prop :=
  ∀ a b, b - a < window → (ts.filter fun t => a ≤ t ∧ t ≤ b).length ≤ limit

/-- From `now` on the kept times count as many as all times. -/
def Covers (window now : τ) (kept ts : List τ) : Prop :=
  ∀ t, now ≤ t → (recent window t ts).length ≤ (recent window t kept).length

variable {window now t u : τ} {kept ts : List τ} {limit : ℕ}

theorem sparse_nil : Sparse window limit [] := fun _ _ _ => Nat.zero_le _

theorem covers_nil : Covers window now kept [] := fun _ _ => Nat.zero_le _

theorem Covers.later (h : Covers window now kept ts) (ht : now ≤ t) : Covers window t kept ts :=
  fun u hu => h u (ht.trans hu)

variable [IsOrderedAddMonoid τ]

/-- What is not recent at `t` is not recent later. -/
theorem recent_recent (h : t ≤ u) : recent window u (recent window t ts) = recent window u ts := by
  rw [recent, recent, List.filter_filter]
  apply List.filter_congr
  intro a _
  by_cases ha : u - a < window
  · have hat : t - a < window := lt_of_le_of_lt (sub_le_sub_right h a) ha
    simp [ha, hat]
  · simp [ha]

theorem Covers.trim (h : Covers window now kept ts) (ht : now ≤ t) :
    Covers window t (recent window t kept) ts := by
  intro u hu
  rw [recent_recent hu]
  exact h u (ht.trans hu)

theorem Covers.push (h : Covers window now kept ts) (ht : now ≤ t) :
    Covers window t (recent window t kept ++ [t]) (ts ++ [t]) := by
  intro u hu
  have hkept := h.trim ht u hu
  simp only [recent, List.filter_append, List.length_append] at hkept ⊢
  exact Nat.add_le_add_right hkept _

/-- **The limit holds.** The limiter lets an event through. -/
theorem Sparse.push (h : Sparse window limit ts) (hcovers : Covers window now kept ts)
    (ht : now ≤ t) (hroom : (recent window t kept).length < limit) :
    Sparse window limit (ts ++ [t]) := by
  intro a b hspan
  rw [List.filter_append, List.length_append]
  by_cases hin : a ≤ t ∧ t ≤ b
  · have hsub : ((ts.filter fun u => a ≤ u ∧ u ≤ b).length) ≤ (recent window t ts).length := by
      apply List.Sublist.length_le
      apply List.monotone_filter_right
      intro u hu
      obtain ⟨hau, -⟩ : a ≤ u ∧ u ≤ b := by simpa using hu
      have hlt : t - u < window :=
        lt_of_le_of_lt ((sub_le_sub_right hin.2 u).trans (sub_le_sub_left hau b)) hspan
      simpa using hlt
    have hrecent := hcovers t ht
    have hone : ([t].filter fun u => a ≤ u ∧ u ≤ b).length ≤ 1 := List.length_filter_le _ [t]
    omega
  · have hnone : ([t].filter fun u => a ≤ u ∧ u ≤ b) = [] := by
      simpa using hin
    rw [hnone]
    exact h a b hspan

end HaAddons.Lib
