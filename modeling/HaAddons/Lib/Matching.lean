import Mathlib.Data.List.Infix
import Mathlib.Data.Nat.Notation

/-!
# Search and substitution in a text

A pattern is a function from a text to what it captures at the head and what is left. `search` finds
the leftmost match, `sub` replaces all matches from left to right, `findAll` lists them.

* `prefix_of_sep`, `infix_of_sep` — a literal does not reach over an item it does not hold.
* `search_append`, `sub_append`, `findAll_append` — a text in front in which no match starts.
* `infix_of_replace`, `not_infix_replace` — what is in a text after a literal is masked.
-/

namespace HaAddons.Lib

variable {α β : Type}

/-! ## Literals -/

section Literals

variable {lit a b : List α} {c : α}

theorem prefix_of_sep (hc : c ∉ lit) (h : lit <+: a ++ c :: b) : lit <+: a := by
  induction a generalizing lit with
  | nil =>
    cases lit with
    | nil => exact List.nil_prefix
    | cons x lit =>
      rw [List.nil_append, List.cons_prefix_cons] at h
      exact absurd (h.1 ▸ List.mem_cons_self) hc
  | cons y a ih =>
    cases lit with
    | nil => exact List.nil_prefix
    | cons x lit =>
      rw [List.cons_append, List.cons_prefix_cons] at h
      rw [List.cons_prefix_cons]
      exact ⟨h.1, ih (fun hm => hc (List.mem_cons_of_mem x hm)) h.2⟩

theorem infix_of_sep (hc : c ∉ lit) (h : lit <:+: a ++ c :: b) : lit <:+: a ∨ lit <:+: b := by
  induction a with
  | nil =>
    rw [List.nil_append, List.infix_cons_iff] at h
    cases h with
    | inl h => exact .inl (prefix_of_sep (a := []) hc h).isInfix
    | inr h => exact .inr h
  | cons y a ih =>
    rw [List.cons_append, List.infix_cons_iff] at h
    cases h with
    | inl h => exact .inl (prefix_of_sep (a := y :: a) hc h).isInfix
    | inr h =>
      cases ih h with
      | inl h => exact .inl (List.infix_cons h)
      | inr h => exact .inr h

theorem infix_of_mask {n : ℕ} (hc : c ∉ lit)
    (h : lit <:+: a ++ (List.replicate (n + 1) c ++ b)) : lit <:+: a ∨ lit <:+: b := by
  induction n generalizing a with
  | zero => exact infix_of_sep hc (by simpa using h)
  | succ n ih =>
    rw [List.replicate_succ, List.cons_append] at h
    cases infix_of_sep hc h with
    | inl h => exact .inl h
    | inr h =>
      cases @ih [] h with
      | inl h => exact .inl (List.infix_nil.mp h ▸ List.nil_infix)
      | inr h => exact .inr h

/-- A literal does not start within items other than its first one. -/
theorem infix_of_head (h : c :: lit <:+: a ++ b) (ha : c ∉ a) : c :: lit <:+: b := by
  induction a with
  | nil => exact h
  | cons y a ih =>
    rw [List.cons_append, List.infix_cons_iff] at h
    cases h with
    | inl h =>
      rw [List.cons_prefix_cons] at h
      exact absurd (h.1 ▸ List.mem_cons_self) ha
    | inr h => exact ih h fun hm => ha (List.mem_cons_of_mem y hm)

/-- A literal is in one of the lines of a text. -/
theorem infix_of_lines {ls : List (List α)} (hc : c ∉ lit) (hne : lit ≠ [])
    (h : lit <:+: ls.flatMap (c :: ·)) : ∃ l ∈ ls, lit <:+: l := by
  induction ls with
  | nil => exact absurd (List.infix_nil.mp h) hne
  | cons l ls ih =>
    have h' : lit <:+: [] ++ c :: (l ++ ls.flatMap (c :: ·)) := h
    cases infix_of_sep hc h' with
    | inl h => exact absurd (List.infix_nil.mp h) hne
    | inr h =>
      cases ls with
      | nil => exact ⟨l, List.mem_cons_self, by simpa using h⟩
      | cons l' ls =>
        have hsplit : l ++ (l' :: ls).flatMap (c :: ·) = l ++ c :: (l' ++ ls.flatMap (c :: ·)) :=
          rfl
        rw [hsplit] at h
        cases infix_of_sep hc h with
        | inl h => exact ⟨l, List.mem_cons_self, h⟩
        | inr h =>
          obtain ⟨k, hk, hl⟩ := ih (h.trans (List.suffix_cons c _).isInfix)
          exact ⟨k, List.mem_cons_of_mem l hk, hl⟩

/-- What is in a joined text is the separator or in a part. -/
theorem mem_intercalate {sep : α} {ls : List (List α)} (h : c ∈ List.intercalate [sep] ls) :
    c = sep ∨ ∃ l ∈ ls, c ∈ l := by
  induction ls with
  | nil => exact absurd h List.not_mem_nil
  | cons l ls ih =>
    cases ls with
    | nil =>
      rw [List.intercalate_singleton] at h
      exact .inr ⟨l, List.mem_singleton_self l, h⟩
    | cons l' ls =>
      rw [List.intercalate_cons_cons, List.mem_append, List.mem_append, List.mem_singleton] at h
      rcases h with (h | h) | h
      · exact .inr ⟨l, List.mem_cons_self .., h⟩
      · exact .inl h
      · rcases ih h with heq | ⟨q, hq, hc⟩
        · exact .inl heq
        · exact .inr ⟨q, List.mem_cons_of_mem _ hq, hc⟩

end Literals

/-! ## The leftmost match -/

/-- `re.search`: what is before the match, what it captures, and what is after it. -/
def search (m : List α → Option (β × List α)) : List α → Option (List α × β × List α)
  | [] => none
  | c :: s =>
    match m (c :: s) with
    | some (v, rest) => some ([], v, rest)
    | none => (search m s).map fun r => (c :: r.1, r.2)

section Search

variable {m : List α → Option (β × List α)} {a s : List α} {c : α}

@[simp] theorem search_nil : search m [] = none := rfl

theorem search_cons_some {v : β} {rest : List α} (h : m (c :: s) = some (v, rest)) :
    search m (c :: s) = some ([], v, rest) := by
  simp [search, h]

theorem search_cons_none (h : m (c :: s) = none) :
    search m (c :: s) = (search m s).map fun r => (c :: r.1, r.2) := by
  simp [search, h]

/-- No match starts in `a`. -/
theorem search_append (h : ∀ t, t <:+ a → t ≠ [] → m (t ++ s) = none) :
    search m (a ++ s) = (search m s).map fun r => (a ++ r.1, r.2) := by
  induction a with
  | nil => simp
  | cons c a ih =>
    have hhead : m (c :: (a ++ s)) = none := h (c :: a) (List.suffix_refl _) (by simp)
    rw [List.cons_append, search_cons_none hhead,
      ih fun t ht => h t (ht.trans (List.suffix_cons c a)), Option.map_map]
    rfl

/-- What `search` finds is a match at its place, and none starts before. -/
theorem search_some {b rest : List α} {v : β} (h : search m s = some (b, v, rest)) :
    ∃ t, s = b ++ t ∧ t ≠ [] ∧ m t = some (v, rest) ∧
      ∀ u, u <:+ b → u ≠ [] → m (u ++ t) = none := by
  induction s generalizing b with
  | nil => simp at h
  | cons c s ih =>
    cases hm : m (c :: s) with
    | some r =>
      rw [search_cons_some hm, Option.some.injEq] at h
      simp only [Prod.mk.injEq] at h
      obtain ⟨rfl, rfl, rfl⟩ := h
      exact ⟨c :: s, rfl, by simp, hm, fun u hu hne => absurd (List.suffix_nil.mp hu) hne⟩
    | none =>
      rw [search_cons_none hm, Option.map_eq_some_iff] at h
      obtain ⟨⟨b', v', rest'⟩, hr, heq⟩ := h
      simp only [Prod.mk.injEq] at heq
      obtain ⟨rfl, rfl, rfl⟩ := heq
      obtain ⟨t, hs, hne, ht, hbefore⟩ := ih hr
      refine ⟨t, by rw [hs]; rfl, hne, ht, ?_⟩
      intro u hu hune
      cases List.suffix_cons_iff.mp hu with
      | inl h => rw [h, List.cons_append, ← hs, hm]
      | inr h => exact hbefore u h hune

end Search

/-! ## All matches -/

/-- `re.sub` with a function, where the first `skip` items belong to the match before. -/
def subFrom (m : List α → Option (β × List α)) (f : β → List α) : ℕ → List α → List α
  | _, [] => []
  | skip + 1, _ :: s => subFrom m f skip s
  | 0, c :: s =>
    match m (c :: s) with
    | some (v, rest) => f v ++ subFrom m f (s.length - rest.length) s
    | none => c :: subFrom m f 0 s

/-- `re.sub`, for a pattern that matches no empty text. -/
def sub (m : List α → Option (β × List α)) (f : β → List α) (s : List α) : List α :=
  subFrom m f 0 s

section Sub

variable {m : List α → Option (β × List α)} {f : β → List α} {a s : List α} {c : α}

theorem subFrom_eq_drop (k : ℕ) : subFrom m f k s = sub m f (s.drop k) := by
  induction s generalizing k with
  | nil => cases k <;> rfl
  | cons c s ih =>
    cases k with
    | zero => rfl
    | succ k => exact ih k

@[simp] theorem sub_nil : sub m f [] = [] := rfl

theorem sub_cons_none (h : m (c :: s) = none) : sub m f (c :: s) = c :: sub m f s := by
  simp [sub, subFrom, h]

/-- A match is replaced, and the rest comes after it. -/
theorem sub_cons_some {v : β} {rest : List α} (h : m (c :: s) = some (v, rest))
    (hrest : rest <:+ s) : sub m f (c :: s) = f v ++ sub m f rest := by
  obtain ⟨t, rfl⟩ := hrest
  simp only [sub, subFrom, h]
  rw [subFrom_eq_drop]
  simp [sub]

/-- No match starts in `a`. -/
theorem sub_append (h : ∀ t, t <:+ a → t ≠ [] → m (t ++ s) = none) :
    sub m f (a ++ s) = a ++ sub m f s := by
  induction a with
  | nil => rfl
  | cons c a ih =>
    have hhead : m (c :: (a ++ s)) = none := h (c :: a) (List.suffix_refl _) (by simp)
    rw [List.cons_append, sub_cons_none hhead,
      ih fun t ht => h t (ht.trans (List.suffix_cons c a)), List.cons_append]

end Sub

/-- `re.finditer`: what each match captures, where the first `skip` items belong to the match
before. -/
def findAllFrom (m : List α → Option (β × List α)) : ℕ → List α → List β
  | _, [] => []
  | skip + 1, _ :: s => findAllFrom m skip s
  | 0, c :: s =>
    match m (c :: s) with
    | some (v, rest) => v :: findAllFrom m (s.length - rest.length) s
    | none => findAllFrom m 0 s

/-- `re.finditer`, for a pattern that matches no empty text. -/
def findAll (m : List α → Option (β × List α)) (s : List α) : List β := findAllFrom m 0 s

section FindAll

variable {m : List α → Option (β × List α)} {a s : List α} {c : α}

theorem findAllFrom_eq_drop (k : ℕ) : findAllFrom m k s = findAll m (s.drop k) := by
  induction s generalizing k with
  | nil => cases k <;> rfl
  | cons c s ih =>
    cases k with
    | zero => rfl
    | succ k => exact ih k

@[simp] theorem findAll_nil : findAll m [] = [] := rfl

theorem findAll_cons_none (h : m (c :: s) = none) : findAll m (c :: s) = findAll m s := by
  simp [findAll, findAllFrom, h]

theorem findAll_cons_some {v : β} {rest : List α} (h : m (c :: s) = some (v, rest))
    (hrest : rest <:+ s) : findAll m (c :: s) = v :: findAll m rest := by
  obtain ⟨t, rfl⟩ := hrest
  simp only [findAll, findAllFrom, h]
  rw [findAllFrom_eq_drop]
  simp [findAll]

/-- No match starts in `a`. -/
theorem findAll_append (h : ∀ t, t <:+ a → t ≠ [] → m (t ++ s) = none) :
    findAll m (a ++ s) = findAll m s := by
  induction a with
  | nil => rfl
  | cons c a ih =>
    have hhead : m (c :: (a ++ s)) = none := h (c :: a) (List.suffix_refl _) (by simp)
    rw [List.cons_append, findAll_cons_none hhead,
      ih fun t ht => h t (ht.trans (List.suffix_cons c a))]

/-- What is found is captured by a match somewhere. -/
theorem mem_findAll {v : β} (h : v ∈ findAll m s) : ∃ t rest, t <:+ s ∧ m t = some (v, rest) := by
  have hfrom : ∀ k, v ∈ findAllFrom m k s → ∃ t rest, t <:+ s ∧ m t = some (v, rest) := by
    clear h
    induction s with
    | nil => intro k h; cases k <;> simp [findAllFrom] at h
    | cons c s ih =>
      have hlater : ∀ k, v ∈ findAllFrom m k s →
          ∃ t rest, t <:+ c :: s ∧ m t = some (v, rest) := by
        intro k h
        obtain ⟨t, rest, ht, hm⟩ := ih k h
        exact ⟨t, rest, ht.trans (List.suffix_cons c s), hm⟩
      intro k h
      cases k with
      | succ k => exact hlater k h
      | zero =>
        cases hm : m (c :: s) with
        | none =>
          simp only [findAllFrom, hm] at h
          exact hlater 0 h
        | some r =>
          simp only [findAllFrom, hm, List.mem_cons] at h
          cases h with
          | inl h => exact ⟨c :: s, r.2, List.suffix_refl _, by rw [hm, h]⟩
          | inr h => exact hlater _ h
  exact hfrom 0 h

end FindAll

/-! ## Masking a literal -/

section Mask

variable [DecidableEq α] {lit v r a s : List α} {c : α}

/-- A text as a pattern. -/
def literal (v s : List α) : Option (Unit × List α) :=
  if v <+: s then some ((), s.drop v.length) else none

/-- `str.replace`, for a text that is not empty. -/
def replace (v r s : List α) : List α := sub (literal v) (fun _ => r) s

theorem replace_cons (h : ¬ v <+: c :: s) : replace v r (c :: s) = c :: replace v r s :=
  sub_cons_none (by simp [literal, h])

theorem replace_append (hv : v ≠ []) : replace v r (v ++ s) = r ++ replace v r s := by
  obtain ⟨c, v, rfl⟩ := List.exists_cons_of_ne_nil hv
  have hmatch : literal (c :: v) (c :: (v ++ s)) = some ((), s) := by simp [literal]
  exact sub_cons_some hmatch (List.suffix_append v s)

/-- **Frame.** A literal without the mask's item is not put together by a replacement. -/
theorem infix_of_replace {n : ℕ} (hv : v ≠ []) (hc : c ∉ lit)
    (h : lit <:+: a ++ replace v (List.replicate (n + 1) c) s) : lit <:+: a ++ s := by
  induction hlen : s.length using Nat.strong_induction_on generalizing a s with
  | _ len ih =>
    by_cases hmatch : v <+: s
    · obtain ⟨rest, rfl⟩ := hmatch
      have hlt : rest.length < len := by
        have := List.length_pos_of_ne_nil hv
        rw [← hlen, List.length_append]
        omega
      rw [replace_append hv] at h
      cases infix_of_mask hc h with
      | inl h => exact h.trans (List.prefix_append a _).isInfix
      | inr h =>
        have hrest : lit <:+: [] ++ rest := ih _ hlt h rfl
        exact hrest.trans ((List.suffix_append v rest).trans (List.suffix_append a _)).isInfix
    · cases s with
      | nil => exact h
      | cons x s =>
        have hlt : s.length < len := by
          rw [← hlen]
          exact Nat.lt_succ_self _
        rw [replace_cons hmatch, List.append_cons] at h
        rw [List.append_cons]
        exact ih _ hlt h rfl

/-- **The replaced literal is gone.** No match of it starts in what is in front. -/
theorem not_infix_replace_append {n : ℕ} (hv : v ≠ []) (hc : c ∉ v)
    (ha : ∀ t, t <:+ a → t ≠ [] → ¬ v <+: t ++ s) :
    ¬ v <:+: a ++ replace v (List.replicate (n + 1) c) s := by
  induction hlen : s.length using Nat.strong_induction_on generalizing a s with
  | _ len ih =>
    have hfront : ¬ v <:+: a := by
      rintro ⟨p, q, rfl⟩
      have hsuffix : v ++ q <:+ p ++ v ++ q := ⟨p, by simp⟩
      exact ha (v ++ q) hsuffix (by simp [hv]) ⟨q ++ s, by simp⟩
    by_cases hmatch : v <+: s
    · obtain ⟨rest, rfl⟩ := hmatch
      have hlt : rest.length < len := by
        have := List.length_pos_of_ne_nil hv
        rw [← hlen, List.length_append]
        omega
      rw [replace_append hv]
      intro h
      cases infix_of_mask hc h with
      | inl h => exact hfront h
      | inr h =>
        refine @ih _ hlt [] rest ?_ rfl h
        exact fun t ht hne => absurd (List.suffix_nil.mp ht) hne
    · cases s with
      | nil => simpa [replace] using hfront
      | cons x s =>
        have hlt : s.length < len := by
          rw [← hlen]
          exact Nat.lt_succ_self _
        have hnext : ∀ t, t <:+ a ++ [x] → t ≠ [] → ¬ v <+: t ++ s := by
          intro t ht hne
          obtain ⟨u, rfl, hu⟩ := (List.suffix_concat_iff.mp ht).resolve_left hne
          rw [← List.append_cons]
          by_cases hnil : u = []
          · simpa [hnil] using hmatch
          · exact ha u hu hnil
        rw [replace_cons hmatch, List.append_cons]
        exact ih _ hlt hnext rfl

/-- `str.replace` of a text without the mask's item leaves none of it. -/
theorem not_infix_replace {n : ℕ} (hv : v ≠ []) (hc : c ∉ v) :
    ¬ v <:+: replace v (List.replicate (n + 1) c) s :=
  @not_infix_replace_append _ _ v [] s c n hv hc fun _ ht hne =>
    absurd (List.suffix_nil.mp ht) hne

end Mask

end HaAddons.Lib
