import Mathlib.Data.List.Sort

/-!
# Sorting by a key

`insertionSort` by a key keeps the order of elements with one key.

* `filter_insertionSort` — elements that are all related to each other keep their order.
* `head?_insertionSort` — a descending sort begins with the first of the largest elements.
* `mem_take_insertionSort` — an element is among the first ones exactly if enough are behind it.
* `insertionSort_eq_of_perm` — where a key belongs to one element, the result depends on the elements
  only.
-/

namespace HaAddons

open List

variable {α β κ : Type*}

section Stable

variable {r : α → α → Prop} [DecidableRel r] {q : α → Bool}

theorem filter_orderedInsert {a : α} {l : List α} (h : ∀ b ∈ l, q a = true → q b = true → r a b) :
    (l.orderedInsert r a).filter q = (a :: l).filter q := by
  induction l with
  | nil => rfl
  | cons b l ih =>
    by_cases hab : r a b
    · rw [List.orderedInsert_cons_of_le r l hab]
    · have hrest := ih fun c hc => h c (List.mem_cons_of_mem b hc)
      rw [List.orderedInsert_of_not_le r l hab, List.filter_cons, hrest]
      by_cases hb : q b = true
      · have ha : ¬ q a = true := fun ha => hab (h b List.mem_cons_self ha hb)
        simp [ha, hb]
      · simp [hb, List.filter_cons]

/-- **Stability.** Elements that are all related to each other keep their order. -/
theorem filter_insertionSort {l : List α}
    (h : ∀ a ∈ l, ∀ b ∈ l, q a = true → q b = true → r a b) :
    (l.insertionSort r).filter q = l.filter q := by
  induction l with
  | nil => rfl
  | cons a l ih =>
    have hrest := ih fun b hb c hc => h b (List.mem_cons_of_mem a hb) c (List.mem_cons_of_mem a hc)
    show ((l.insertionSort r).orderedInsert r a).filter q = _
    rw [filter_orderedInsert fun b hb =>
      h a List.mem_cons_self b (List.mem_cons_of_mem a ((List.mem_insertionSort r).mp hb)),
      List.filter_cons, List.filter_cons, hrest]

end Stable

section Key

variable [LinearOrder κ] {key : α → κ} {l l' : List α}

/-- **The elements decide.** -/
theorem insertionSort_eq_of_perm (hp : l.Perm l')
    (hkey : ∀ a ∈ l, ∀ b ∈ l, key a = key b → a = b) :
    l.insertionSort (fun a b => key a ≤ key b) = l'.insertionSort fun a b => key a ≤ key b := by
  have hsorted : ∀ l : List α,
      (l.insertionSort fun a b => key a ≤ key b).Pairwise fun a b => key a ≤ key b := fun l =>
    @List.pairwise_insertionSort α (fun a b => key a ≤ key b) _
      ⟨fun a b => le_total (key a) (key b)⟩ ⟨fun _ _ _ => le_trans⟩ l
  refine List.Perm.eq_of_pairwise (fun a b ha hb hab hba => ?_) (hsorted l) (hsorted l')
    (((List.perm_insertionSort _ l).trans hp).trans (List.perm_insertionSort _ l').symm)
  exact hkey a ((List.mem_insertionSort _).mp ha) b
    (hp.mem_iff.mpr ((List.mem_insertionSort _).mp hb)) (le_antisymm hab hba)

/-- Elements with one key keep their order. -/
theorem filter_sortBy (k : κ) :
    (l.insertionSort fun a b => key a ≤ key b).filter (fun a => key a = k) =
      l.filter fun a => key a = k := by
  refine filter_insertionSort fun a _ b _ ha hb => ?_
  rw [of_decide_eq_true ha, of_decide_eq_true hb]

end Key

/-- **What a sort has in front.** An element is not among the last `k` exactly if at least `k` are
behind it. -/
theorem mem_take_insertionSort [LinearOrder κ] {l : List κ} (hl : l.Nodup) {x : κ} (hx : x ∈ l)
    (k : ℕ) :
    x ∈ (l.insertionSort fun a b => a ≤ b).take (l.length - k) ↔ k ≤ l.countP fun y => x < y := by
  have hperm := List.perm_insertionSort (fun a b : κ => a ≤ b) l
  have hsorted : (l.insertionSort fun a b => a ≤ b).Pairwise fun a b => a ≤ b :=
    List.pairwise_insertionSort (fun a b : κ => a ≤ b) l
  obtain ⟨front, back, hsplit⟩ := List.append_of_mem (hperm.mem_iff.mpr hx)
  have hnodup : (front ++ x :: back).Nodup := hsplit ▸ hperm.nodup_iff.mpr hl
  have hlength : l.length = front.length + (back.length + 1) := by
    rw [← hperm.length_eq, hsplit, List.length_append, List.length_cons]
  obtain ⟨-, hcons, hdisjoint⟩ := List.nodup_append.mp hnodup
  have hfront : ∀ y ∈ front, y ≤ x := fun y hy =>
    (List.pairwise_append.mp (hsplit ▸ hsorted)).2.2 y hy x List.mem_cons_self
  have hback : ∀ y ∈ back, x < y := fun y hy => lt_of_le_of_ne
    ((List.pairwise_cons.mp (List.pairwise_append.mp (hsplit ▸ hsorted)).2.1).1 y hy)
    fun h => (List.nodup_cons.mp hcons).1 (h ▸ hy)
  have hcount : l.countP (fun y => x < y) = back.length := by
    rw [← hperm.countP_eq, hsplit, List.countP_append, List.countP_cons, if_neg (by simp)]
    have hzero : front.countP (fun y => x < y) = 0 :=
      List.countP_eq_zero.mpr fun y hy => by simpa using hfront y hy
    have hall : back.countP (fun y => x < y) = back.length :=
      List.countP_eq_length.mpr fun y hy => by simpa using hback y hy
    rw [hzero, hall]
    omega
  have hnotin : x ∉ front := fun h => hdisjoint x h x List.mem_cons_self rfl
  rw [hsplit, hcount, List.take_append, List.mem_append]
  constructor
  · rintro (h | h)
    · exact absurd (List.mem_of_mem_take h) hnotin
    · by_contra hk
      rw [show l.length - k - front.length = 0 by omega] at h
      cases h
  · intro hk
    obtain ⟨m, hm⟩ : ∃ m, l.length - k - front.length = m + 1 :=
      ⟨l.length - k - front.length - 1, by omega⟩
    rw [hm, List.take_succ_cons]
    exact .inr List.mem_cons_self

/-- **The head of a descending sort** is the first of the largest elements. -/
theorem head?_insertionSort [LinearOrder κ] {key : α → κ} {pre post : List α} {m : α}
    (hpre : ∀ x ∈ pre, key x < key m) (hpost : ∀ x ∈ post, key x ≤ key m) :
    ((pre ++ m :: post).insertionSort fun a b => key b ≤ key a).head? = some m := by
  let l := pre ++ m :: post
  have hm : m ∈ l := List.mem_append_right pre List.mem_cons_self
  have hle : ∀ x ∈ l, key x ≤ key m := by
    intro x hx
    rcases List.mem_append.mp hx with hx | hx
    · exact (hpre x hx).le
    · rcases List.mem_cons.mp hx with rfl | hx
      · exact le_rfl
      · exact hpost x hx
  have hfilter : (l.insertionSort fun a b => key b ≤ key a).filter (fun a => key a = key m) =
      l.filter fun a => key a = key m := by
    refine filter_insertionSort fun a _ b _ ha hb => ?_
    rw [of_decide_eq_true ha, of_decide_eq_true hb]
  have hfirst : (l.filter fun a => key a = key m).head? = some m := by
    have hnone : pre.filter (fun a => key a = key m) = [] :=
      List.filter_eq_nil_iff.mpr fun x hx => by simpa using (hpre x hx).ne
    show ((pre ++ m :: post).filter _).head? = _
    rw [List.filter_append, hnone, List.nil_append, List.filter_cons, if_pos (by simp)]
    rfl
  have hsorted : (l.insertionSort fun a b => key b ≤ key a).Pairwise fun a b => key b ≤ key a :=
    @List.pairwise_insertionSort α (fun a b => key b ≤ key a) _
      ⟨fun a b => le_total (key b) (key a)⟩ ⟨fun _ _ _ hab hbc => le_trans hbc hab⟩ l
  have hmem : ∀ x, x ∈ (l.insertionSort fun a b => key b ≤ key a) ↔ x ∈ l :=
    fun x => List.mem_insertionSort _
  show (l.insertionSort fun a b => key b ≤ key a).head? = some m
  cases hsort : l.insertionSort fun a b => key b ≤ key a with
  | nil =>
    have := (hmem m).mpr hm
    rw [hsort] at this
    cases this
  | cons a rest =>
    rw [hsort] at hfilter hsorted hmem
    have ha : key a = key m := by
      refine le_antisymm (hle a ((hmem a).mp List.mem_cons_self)) ?_
      rcases List.mem_cons.mp ((hmem m).mpr hm) with rfl | hrest
      · exact le_rfl
      · exact (List.pairwise_cons.mp hsorted).1 m hrest
    rw [← hfilter, List.filter_cons, if_pos (by simpa using ha)] at hfirst
    exact hfirst

/-- A list that is not empty has a first largest element. -/
theorem exists_first_max [LinearOrder κ] (key : α → κ) {l : List α} (hl : l ≠ []) :
    ∃ pre m post, l = pre ++ m :: post ∧ (∀ x ∈ pre, key x < key m) ∧ ∀ x ∈ post, key x ≤ key m := by
  induction l with
  | nil => exact absurd rfl hl
  | cons a l ih =>
    by_cases hnil : l = []
    · subst hnil
      exact ⟨[], a, [], rfl, by simp, by simp⟩
    obtain ⟨pre, m, post, rfl, hpre, hpost⟩ := ih hnil
    by_cases ham : key a < key m
    · exact ⟨a :: pre, m, post, rfl, List.forall_mem_cons.mpr ⟨ham, hpre⟩, hpost⟩
    · have hma : key m ≤ key a := not_lt.mp ham
      refine ⟨[], a, pre ++ m :: post, rfl, by simp, fun x hx => ?_⟩
      rcases List.mem_append.mp hx with hx | hx
      · exact (hpre x hx).le.trans hma
      · rcases List.mem_cons.mp hx with rfl | hx
        · exact hma
        · exact (hpost x hx).trans hma

/-- A filter before a partial map. -/
theorem filter_filterMap_any {f : α → Option β} {q : β → Bool} (l : List α) :
    (l.filterMap f).filter q = (l.filter fun a => (f a).any q).filterMap f := by
  induction l with
  | nil => rfl
  | cons a l ih =>
    cases ha : f a with
    | none => simp [ha, ih]
    | some b =>
      by_cases hq : q b = true
      · simp [ha, hq, ih]
      · simp [ha, hq, ih]

end HaAddons
