import Mathlib.Data.List.Infix

/-!
# Wildcard patterns

Three readings of a pattern over an alphabet: a glob with a wildcard for any sequence, the pattern of
SQL's `LIKE` with an escape character, and the literal parts between the wildcards, as a regular
expression joins them.

* `like_quote` — quoting a glob for `LIKE` keeps what it matches.
* `matchParts_parts` — so does splitting it at its wildcards.
* `unquote_quote` — the quotation can be undone.
-/

namespace HaAddons.Pattern

variable {α : Type*} [DecidableEq α]

/-- The wildcard `star` stands for any sequence, everything else for itself. -/
def glob (star : α) : List α → List α → Bool
  | [], t => t.isEmpty
  | c :: p, t =>
    if c = star then t.tails.any (glob star p)
    else
      match t with
      | [] => false
      | d :: t => c = d && glob star p t

/-- SQL's `LIKE`: `many` stands for any sequence, `one` for any character, and `esc` makes the next
character literal. -/
def like (many one esc : α) : List α → List α → Bool
  | [], t => t.isEmpty
  | [c], t =>
    if c = esc then false
    else if c = many then true
    else
      match t with
      | [d] => c = one || c = d
      | _ => false
  | c :: c' :: p, t =>
    if c = esc then
      match t with
      | [] => false
      | d :: t => c' = d && like many one esc p t
    else if c = many then t.tails.any (like many one esc (c' :: p))
    else
      match t with
      | [] => false
      | d :: t => (c = one || c = d) && like many one esc (c' :: p) t

/-- `split(sep)`. -/
def parts (sep : α) : List α → List (List α)
  | [] => [[]]
  | c :: p =>
    if c = sep then [] :: parts sep p
    else
      match parts sep p with
      | [] => [[c]]
      | q :: qs => (c :: q) :: qs

/-- The regular expression that joins literal parts by "any sequence", on the whole text. -/
def matchParts : List (List α) → List α → Bool
  | [], _ => false
  | [q], t => t = q
  | q :: q' :: ps, t => q.isPrefixOf t && (t.drop q.length).tails.any (matchParts (q' :: ps))

/-- A glob written for `LIKE`. -/
def quote (star many one esc : α) (p : List α) : List α :=
  (p.flatMap fun c => if c = one then [esc, one] else [c]).map fun c => if c = star then many else c

/-- Take the escapes of `one` away. -/
def unescapeOne (one esc : α) : List α → List α
  | [] => []
  | [c] => [c]
  | c :: d :: p =>
    if c = esc ∧ d = one then one :: unescapeOne one esc p else c :: unescapeOne one esc (d :: p)

def unquote (star many one esc : α) (p : List α) : List α :=
  (unescapeOne one esc p).map fun c => if c = many then star else c

/-! ## Globs and `LIKE` -/

theorem like_one {many one esc : α} (p t : List α) : like many one esc (esc :: one :: p) t =
    match t with
    | [] => false
    | d :: t => one = d && like many one esc p t := by
  cases t <;> simp [like]

theorem like_cons {many one esc c : α} (hesc : c ≠ esc) (hmany : c ≠ many) (hone : c ≠ one) (p t : List α) :
    like many one esc (c :: p) t =
      match t with
      | [] => false
      | d :: t => c = d && like many one esc p t := by
  cases p with
  | nil =>
    cases t with
    | nil => simp [like, hesc, hmany]
    | cons d t => cases t <;> simp [like, hesc, hmany, hone]
  | cons c' p => cases t <;> simp [like, hesc, hmany, hone]

theorem unescapeOne_cons {one esc c : α} (h : c ≠ esc) (p : List α) :
    unescapeOne one esc (c :: p) = c :: unescapeOne one esc p := by
  cases p <;> simp [unescapeOne, h]

section Quote

variable {star many one esc : α} (h : [star, many, one, esc].Nodup)

include h

theorem quote_cons (c : α) (p : List α) :
    quote star many one esc (c :: p) =
      (if c = one then [esc, one] else if c = star then [many] else [c]) ++
        quote star many one esc p := by
  simp only [List.nodup_cons, List.mem_cons, List.not_mem_nil, or_false, not_or] at h
  simp only [quote, List.flatMap_cons, List.map_append]
  congr 1
  split_ifs with h1 h2
  · have hesc : esc ≠ star := Ne.symm h.1.2.2
    have hone : one ≠ star := Ne.symm h.1.2.1
    simp [hesc, hone]
  · simp [h2]
  · simp [h2]

theorem like_many (p t : List α) :
    like many one esc (many :: p) t = t.tails.any (like many one esc p) := by
  simp only [List.nodup_cons, List.mem_cons, List.not_mem_nil, or_false, not_or] at h
  have hne : many ≠ esc := h.2.1.2
  cases p with
  | nil =>
    have hlast : t.tails.any (like many one esc []) = true :=
      List.any_eq_true.mpr ⟨[], (List.mem_tails _ _).mpr List.nil_suffix, rfl⟩
    rw [hlast]
    simp [like, hne]
  | cons c p => simp [like, hne]

/-- **`LIKE` on quoted globs.** -/
theorem like_quote {p : List α} (hmany : many ∉ p) (hesc : esc ∉ p) (t : List α) :
    like many one esc (quote star many one esc p) t = glob star p t := by
  have hdistinct := h
  simp only [List.nodup_cons, List.mem_cons, List.not_mem_nil, or_false, not_or] at hdistinct
  have hos : one ≠ star := Ne.symm hdistinct.1.2.1
  induction p generalizing t with
  | nil => rfl
  | cons c p ih =>
    obtain ⟨hcm, hpm⟩ := not_or.mp (mt List.mem_cons.mpr hmany)
    obtain ⟨hce, hpe⟩ := not_or.mp (mt List.mem_cons.mpr hesc)
    have ih := ih hpm hpe
    rw [quote_cons h]
    split_ifs with h1 h2
    · subst h1
      rw [List.cons_append, List.cons_append, List.nil_append, like_one]
      cases t <;> simp [glob, hos, ih]
    · subst h2
      rw [List.singleton_append, like_many h]
      simp [glob, funext ih]
    · rw [List.singleton_append, like_cons (Ne.symm hce) (Ne.symm hcm) h1]
      cases t <;> simp [glob, h2, ih]

/-- **Quoting can be undone.** -/
theorem unquote_quote {p : List α} (hmany : many ∉ p) (hesc : esc ∉ p) :
    unquote star many one esc (quote star many one esc p) = p := by
  have hdistinct := h
  simp only [List.nodup_cons, List.mem_cons, List.not_mem_nil, or_false, not_or] at hdistinct
  obtain ⟨⟨hsm, hso, hse⟩, ⟨hmo, hme⟩, -⟩ := hdistinct
  induction p with
  | nil => rfl
  | cons c p ih =>
    obtain ⟨hcm, hpm⟩ := not_or.mp (mt List.mem_cons.mpr hmany)
    obtain ⟨hce, hpe⟩ := not_or.mp (mt List.mem_cons.mpr hesc)
    have ih := ih hpm hpe
    unfold unquote at ih ⊢
    rw [quote_cons h]
    split_ifs with h1 h2
    · subst h1
      simp [unescapeOne, Ne.symm hcm, ih]
    · subst h2
      simp [unescapeOne_cons hme, ih]
    · simp [unescapeOne_cons (Ne.symm hce), Ne.symm hcm, ih]

end Quote

/-! ## Globs and their literal parts -/

theorem parts_ne_nil (sep : α) (p : List α) : parts sep p ≠ [] := by
  cases p with
  | nil => simp [parts]
  | cons c p =>
    rw [parts]
    split_ifs
    · simp
    · split <;> simp

theorem matchParts_cons {c : α} {q : List α} (qs : List (List α)) (t : List α) :
    matchParts ((c :: q) :: qs) t =
      match t with
      | [] => false
      | d :: t => c = d && matchParts (q :: qs) t := by
  cases qs with
  | nil =>
    cases t with
    | nil => rfl
    | cons d t => simp [matchParts, eq_comm]
  | cons q' qs =>
    cases t with
    | nil => simp [matchParts]
    | cons d t => simp [matchParts, List.isPrefixOf, Bool.and_assoc, beq_eq_decide]

/-- **Splitting a glob at its wildcards.** -/
theorem matchParts_parts (star : α) (p t : List α) :
    matchParts (parts star p) t = glob star p t := by
  induction p generalizing t with
  | nil => cases t <;> simp [parts, matchParts, glob]
  | cons c p ih =>
    obtain ⟨q, qs, hparts⟩ := List.exists_cons_of_ne_nil (parts_ne_nil star p)
    rw [hparts] at ih
    rw [parts, hparts]
    split_ifs with h
    · rw [matchParts, List.isPrefixOf_nil_left, Bool.true_and, List.length_nil, List.drop_zero,
        funext ih]
      simp [glob, h]
    · dsimp only
      rw [matchParts_cons]
      cases t with
      | nil => simp [glob, h]
      | cons d t => simp [glob, h, ih]

end HaAddons.Pattern
