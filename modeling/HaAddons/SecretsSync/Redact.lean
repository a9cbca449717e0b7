import HaAddons.Lib.Matching
import Mathlib.Data.List.Dedup
import Mathlib.Data.List.Sort
import Mathlib.Tactic.Tauto

/-!
# Scrubbing secrets from logs

`register` keeps the values that are long enough, the longest first. `scrub` masks them one after
the other.

* `scrub_hides` — no registered value without the mask's character is in a scrubbed text.
-/

namespace HaAddons.SecretsSync

open HaAddons.Lib

/-- Shorter values would mangle ordinary log text. -/
def minLen : ℕ := 4

def mask : List Char := ['*', '*', '*']

/-- The order in which a `set` made from a list gives its elements. -/
structure SetOrder where
  iter : List (List Char) → List (List Char)
  nodup : ∀ l, (iter l).Nodup
  mem : ∀ l v, v ∈ iter l ↔ v ∈ l

/-- The set gives its elements in the order of the list. -/
def SetOrder.ofDedup : SetOrder := ⟨List.dedup, List.nodup_dedup, fun _ _ => List.mem_dedup⟩

structure Redactor where
  values : List (List Char)
  deriving DecidableEq

def Redactor.empty : Redactor := ⟨[]⟩

/-- `none` is a value that is not a string. -/
def Redactor.register (order : SetOrder) (r : Redactor) (values : List (Option (List Char))) :
    Redactor :=
  let known := order.iter (r.values ++ ((values.filterMap id).filter fun v => minLen ≤ v.length))
  ⟨known.insertionSort fun v w => w.length ≤ v.length⟩

/-- One value of the loop in `scrub`. -/
def maskValue (text value : List Char) : List Char :=
  if value <:+: text then replace value mask text else text

def Redactor.scrub (r : Redactor) (text : List Char) : List Char := r.values.foldl maskValue text

/-- A redactor after calls of `register`. -/
def Redactor.after (order : SetOrder) (calls : List (List (Option (List Char)))) : Redactor :=
  calls.foldl (Redactor.register order) .empty

/-! ## Registered values -/

section Register

variable {order : SetOrder} {r : Redactor} {values : List (Option (List Char))} {v : List Char}

theorem mem_register : v ∈ (r.register order values).values ↔
    v ∈ r.values ∨ some v ∈ values ∧ minLen ≤ v.length := by
  simp [Redactor.register, order.mem]

/-- The values are kept, and none is shorter than `minLen`. -/
theorem mem_after {calls : List (List (Option (List Char)))} :
    v ∈ (Redactor.after order calls).values ↔
      (∃ values ∈ calls, some v ∈ values) ∧ minLen ≤ v.length := by
  suffices h : ∀ r : Redactor, v ∈ (calls.foldl (Redactor.register order) r).values ↔
      v ∈ r.values ∨ (∃ values ∈ calls, some v ∈ values) ∧ minLen ≤ v.length by
    simpa [Redactor.after, Redactor.empty] using h .empty
  induction calls with
  | nil => simp
  | cons values calls ih =>
    intro r
    rw [List.foldl_cons, ih, mem_register]
    simp only [List.mem_cons, exists_eq_or_imp]
    tauto

end Register

/-! ## Scrubbing -/

section Scrub

variable {v w text : List Char}

/-- Masking one value puts no other one together. -/
theorem infix_of_maskValue (hw : w ≠ []) (hv : '*' ∉ v) (h : v <:+: maskValue text w) :
    v <:+: text := by
  unfold maskValue at h
  split at h
  · exact @infix_of_replace _ _ v w [] text '*' 2 hw hv h
  · exact h

theorem not_infix_maskValue (hne : v ≠ []) (hv : '*' ∉ v) : ¬ v <:+: maskValue text v := by
  unfold maskValue
  split
  · exact @not_infix_replace _ _ v text '*' 2 hne hv
  · assumption

theorem infix_of_foldl {values : List (List Char)} (hvalues : ∀ w ∈ values, w ≠ [])
    (hv : '*' ∉ v) (h : v <:+: values.foldl maskValue text) : v <:+: text := by
  induction values generalizing text with
  | nil => exact h
  | cons w values ih =>
    have htail := ih (fun u hu => hvalues u (List.mem_cons_of_mem w hu)) h
    exact infix_of_maskValue (hvalues w List.mem_cons_self) hv htail

/-- From its own turn on a value is absent. -/
theorem not_infix_foldl {values : List (List Char)} (hvalues : ∀ w ∈ values, w ≠ [])
    (hv : '*' ∉ v) (hmem : v ∈ values) : ¬ v <:+: values.foldl maskValue text := by
  induction values generalizing text with
  | nil => simp at hmem
  | cons w values ih =>
    have htail : ∀ u ∈ values, u ≠ [] := fun u hu => hvalues u (List.mem_cons_of_mem w hu)
    cases List.mem_cons.mp hmem with
    | inl he =>
      subst he
      intro h
      exact not_infix_maskValue (hvalues v List.mem_cons_self) hv (infix_of_foldl htail hv h)
    | inr hm => exact ih htail hm

end Scrub

/-- **Scrubbed text.** After any calls of `register`, no registered value of at least `minLen`
characters and without `*` is left in a scrubbed text. -/
theorem scrub_hides (order : SetOrder) (calls : List (List (Option (List Char))))
    (text v : List Char) (hv : ∃ values ∈ calls, some v ∈ values) (hlen : minLen ≤ v.length)
    (hstar : '*' ∉ v) : ¬ v <:+: (Redactor.after order calls).scrub text := by
  have hvalues : ∀ w ∈ (Redactor.after order calls).values, w ≠ [] := by
    intro w hw he
    have hpos := (mem_after.mp hw).2
    simp [he, minLen] at hpos
  exact not_infix_foldl hvalues hstar (mem_after.mpr ⟨hv, hlen⟩)

theorem scrub_hides_prefix :
    ¬ "hunt".toList <:+: (Redactor.after .ofDedup
      [["hunt", "hunter22"].map (some ·.toList)]).scrub "key=hunter22".toList :=
  scrub_hides .ofDedup _ _ _ ⟨_, List.mem_singleton.mpr rfl, List.mem_cons_self⟩
    (by decide) (by decide)

end HaAddons.SecretsSync
