import HaAddons.Lib.Dict
import Mathlib.Data.Nat.Notation

/-!
# Values laid over a store

An owner writes named values into a store that others use as well, and remembers what it wrote. It
can write another set of values, which takes away those that are no longer wanted, and it can take
all of them away. `log` is the history of what it wrote.

* `Over` — what the owner wrote is in the store, what it took away is gone, and the rest is as it
  was before its first write.
* `over_write`, `over_clear` — both operations keep that, and remember what was wanted, or nothing.
-/

namespace HaAddons.Lib

structure Overlay (κ ν : Type) [DecidableEq κ] where
  store : κ → Option ν
  written : Dict κ ν
  log : List (κ × ν)

namespace Overlay

variable {κ ν : Type} [DecidableEq κ]

/-- Nothing is written yet. -/
def init (base : κ → Option ν) : Overlay κ ν := ⟨base, .empty, []⟩

/-- A name is taken away. -/
def remove (o : Overlay κ ν) (k : κ) : Overlay κ ν :=
  { o with store := fun n => if n = k then none else o.store n, written := o.written.erase k }

def put (o : Overlay κ ν) (k : κ) (v : ν) : Overlay κ ν where
  store := fun n => if n = k then some v else o.store n
  written := o.written.insert k v
  log := o.log ++ [(k, v)]

/-- What is no longer wanted is taken away. -/
def prune (wanted : Dict κ ν) (o : Overlay κ ν) : Overlay κ ν :=
  o.written.keys.foldl (fun o k => if wanted.keys.contains k then o else o.remove k) o

/-- What is not there yet is written. -/
def putNew [DecidableEq ν] (o : Overlay κ ν) (e : κ × ν) : Overlay κ ν :=
  if o.written.get? e.1 = some e.2 then o else o.put e.1 e.2

/-- What is wanted is written, and the rest taken away. -/
def write [DecidableEq ν] (wanted : Dict κ ν) (o : Overlay κ ν) : Overlay κ ν :=
  wanted.entries.foldl putNew (o.prune wanted)

/-- All that was written is taken away. -/
def clear (o : Overlay κ ν) : Overlay κ ν :=
  { o.written.keys.foldl remove o with written := .empty }

/-- The names that were ever written. -/
def names (o : Overlay κ ν) : List κ := o.log.map Prod.fst

/-- The overlay lies over this store. -/
structure Over (base : κ → Option ν) (o : Overlay κ ν) : Prop where
  value : ∀ k v, o.written.get? k = some v → o.store k = some v
  gone : ∀ k, o.written.get? k = none → o.store k = if k ∈ o.names then none else base k
  named : ∀ k ∈ o.written.keys, k ∈ o.names

section Steps

variable {base : κ → Option ν} {o : Overlay κ ν} {wanted : Dict κ ν} {k : κ} {v : ν}

theorem over_init (base : κ → Option ν) : Over base (init base) where
  value := by
    intro k v h
    cases h
  gone := by
    intro k _
    rfl
  named := by
    intro k h
    cases h

@[simp] theorem names_remove (o : Overlay κ ν) (k : κ) : (o.remove k).names = o.names := rfl

@[simp] theorem names_put (o : Overlay κ ν) (k : κ) (v : ν) :
    (o.put k v).names = o.names ++ [k] := by
  simp [names, put]

theorem over_remove (h : Over base o) (hk : k ∈ o.names) : Over base (o.remove k) where
  value := by
    intro n v hn
    simp only [remove, Dict.get?_erase] at hn ⊢
    split_ifs at hn ⊢ with hnk
    exact h.value n v hn
  gone := by
    intro n hn
    rw [names_remove]
    simp only [remove, Dict.get?_erase] at hn ⊢
    split_ifs at hn with hnk
    · rw [if_pos hnk, if_pos (hnk ▸ hk)]
    · rw [if_neg hnk, h.gone n hn]
  named := by
    intro n hn
    obtain ⟨v, hv⟩ := Dict.mem_keys.mp hn
    simp only [remove, Dict.get?_erase] at hv
    split_ifs at hv
    exact h.named n (Dict.mem_keys.mpr ⟨v, hv⟩)

theorem over_put (h : Over base o) : Over base (o.put k v) where
  value := by
    intro n w hn
    simp only [put, Dict.get?_insert] at hn ⊢
    split_ifs at hn ⊢ with hnk
    · exact hn
    · exact h.value n w hn
  gone := by
    intro n hn
    rw [names_put]
    simp only [put, Dict.get?_insert] at hn ⊢
    split_ifs at hn with hnk
    have hmem : n ∈ o.names ++ [k] ↔ n ∈ o.names := by simp [hnk]
    rw [if_neg hnk, h.gone n hn, if_congr hmem rfl rfl]
  named := by
    intro n hn
    rw [names_put, List.mem_append, List.mem_singleton]
    cases Dict.mem_keys_insert.mp hn with
    | inl hnk => exact .inr hnk
    | inr hn => exact .inl (h.named n hn)

/-! ## Taking away -/

/-- A loop that takes away some names. -/
theorem over_removes (h : Over base o) {p : κ → Bool} {ks : List κ} (hks : ∀ k ∈ ks, k ∈ o.names) :
    Over base (ks.foldl (fun o k => if p k then o else o.remove k) o) ∧
      (ks.foldl (fun o k => if p k then o else o.remove k) o).log = o.log ∧
      ∀ k, (ks.foldl (fun o k => if p k then o else o.remove k) o).written.get? k =
        if k ∈ ks ∧ p k = false then none else o.written.get? k := by
  induction ks generalizing o with
  | nil => simp [h]
  | cons k ks ih =>
    rw [List.foldl_cons]
    cases hp : p k with
    | true =>
      obtain ⟨hover, hlog, hget⟩ := ih h fun n hn => hks n (List.mem_cons_of_mem k hn)
      refine ⟨hover, hlog, fun n => (hget n).trans (if_congr ?_ rfl rfl)⟩
      constructor
      · intro hn
        exact ⟨List.mem_cons_of_mem k hn.1, hn.2⟩
      · intro hn
        refine ⟨(List.mem_cons.mp hn.1).resolve_left fun heq => ?_, hn.2⟩
        rw [heq, hp] at hn
        cases hn.2
    | false =>
      obtain ⟨hover, hlog, hget⟩ := ih (over_remove h (hks k List.mem_cons_self))
        fun n hn => hks n (List.mem_cons_of_mem k hn)
      refine ⟨hover, hlog, fun n => (hget n).trans ?_⟩
      simp only [remove, Dict.get?_erase, List.mem_cons]
      by_cases hn : n = k <;> simp [hn, hp]

/-- **Clearing.** What was written is gone. -/
theorem over_clear (h : Over base o) : Over base o.clear ∧ o.clear.log = o.log := by
  obtain ⟨hover, hlog, hget⟩ := over_removes (p := fun _ => false) h h.named
  have hnone : ∀ k,
      (o.written.keys.foldl (fun o k => if false then o else o.remove k) o).written.get? k =
        none := by
    intro k
    rw [hget]
    split_ifs with hk
    · rfl
    · exact Dict.get?_eq_none.mpr fun hmem => hk ⟨hmem, rfl⟩
  refine ⟨⟨?_, ?_, ?_⟩, hlog⟩
  · intro k v hv
    cases hv
  · intro k _
    exact hover.gone k (hnone k)
  · intro k hk
    cases hk

@[simp] theorem written_clear (o : Overlay κ ν) : o.clear.written = .empty := rfl

/-! ## Writing -/

section Write

variable [DecidableEq ν]

theorem over_putNew (h : Over base o) (e : κ × ν) : Over base (o.putNew e) := by
  unfold putNew
  split_ifs
  · exact h
  · exact over_put h

theorem mem_log_putNew {e e' : κ × ν} (h : e' ∈ (o.putNew e).log) : e' ∈ o.log ∨ e' = e := by
  unfold putNew at h
  split_ifs at h
  · exact .inl h
  · simpa [put] using h

theorem get?_putNew (e : κ × ν) (k : κ) :
    (o.putNew e).written.get? k = if k = e.1 then some e.2 else o.written.get? k := by
  unfold putNew
  split_ifs with hget hk hk
  · rw [hk, hget]
  · rfl
  · rw [put, Dict.get?_insert, if_pos hk]
  · rw [put, Dict.get?_insert, if_neg hk]

theorem over_puts (h : Over base o) (es : List (κ × ν)) :
    Over base (es.foldl putNew o) ∧ ∀ e ∈ (es.foldl putNew o).log, e ∈ o.log ∨ e ∈ es := by
  induction es generalizing o with
  | nil => exact ⟨h, fun e he => .inl he⟩
  | cons e es ih =>
    obtain ⟨hover, hlog⟩ := ih (over_putNew h e)
    refine ⟨hover, fun e' he' => ?_⟩
    cases hlog e' he' with
    | inl hmem =>
      refine (mem_log_putNew hmem).imp id fun heq => ?_
      rw [heq]
      exact List.mem_cons_self
    | inr hmem => exact .inr (List.mem_cons_of_mem e hmem)

theorem get?_puts {d : Dict κ ν} (h : ∀ k, o.written.get? k = d.get? k) (es : List (κ × ν))
    (k : κ) :
    (es.foldl putNew o).written.get? k = (es.foldl (fun d e => d.insert e.1 e.2) d).get? k := by
  induction es generalizing o d with
  | nil => exact h k
  | cons e es ih =>
    refine ih fun n => ?_
    rw [get?_putNew, Dict.get?_insert, h n]

/-- **Writing.** What is wanted is there, and nothing else of the owner's. -/
theorem over_write (h : Over base o) (wanted : Dict κ ν) :
    Over base (o.write wanted) ∧ (∀ e ∈ (o.write wanted).log, e ∈ o.log ∨ e ∈ wanted.entries) ∧
      ∀ k, (o.write wanted).written.get? k = wanted.get? k := by
  obtain ⟨hprune, hlog, hget⟩ := over_removes (p := fun k => wanted.keys.contains k) h h.named
  obtain ⟨hover, hmem⟩ := over_puts hprune wanted.entries
  refine ⟨hover, fun e he => ?_, fun k => ?_⟩
  · exact (hmem e he).imp (fun he => hlog ▸ he) id
  · have hall : (o.write wanted).written.get? k =
        ((o.prune wanted).written.update wanted).get? k := get?_puts (fun _ => rfl) wanted.entries k
    rw [hall, Dict.get?_update]
    cases hk : wanted.get? k with
    | some v => rfl
    | none =>
      have hkeys : wanted.keys.contains k = false := by
        simpa using Dict.get?_eq_none.mp hk
      have hnone : (o.prune wanted).written.get? k = none := by
        refine (hget k).trans ?_
        split_ifs with hin
        · rfl
        · exact Dict.get?_eq_none.mpr fun hmem => hin ⟨hmem, hkeys⟩
      rw [hnone]
      rfl

end Write

end Steps

end Overlay

end HaAddons.Lib
