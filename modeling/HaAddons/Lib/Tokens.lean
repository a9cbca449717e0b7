import Mathlib.Data.List.Induction
import Mathlib.Data.List.TakeWhile

/-!
# Tokens of a list

A list is cut into tokens by delimiters: a token is a longest stretch without any.

* `token_induction` — a list is empty, starts with a delimiter, or starts with a token.
* `EachToken` — every token of a list, judged with what is behind it; it is computed along
  `token_induction` by `eachToken_cons` and `eachToken_append`.
* `openToken` — the token that a list breaks off in.
-/

namespace HaAddons

variable {α : Type*}

/-- Two ways to cut a list at the first element of a kind are the same. -/
theorem cut_unique {f : α → Bool} {a a' b b' : List α} {c c' : α} (ha : ∀ x ∈ a, f x = false)
    (ha' : ∀ x ∈ a', f x = false) (hc : f c = true) (hc' : f c' = true)
    (h : a ++ c :: b = a' ++ c' :: b') : a = a' ∧ c = c' ∧ b = b' := by
  induction a generalizing a' with
  | nil =>
    cases a' with
    | nil =>
      obtain ⟨rfl, rfl⟩ := List.cons.inj h
      exact ⟨rfl, rfl, rfl⟩
    | cons x a' =>
      obtain ⟨rfl, -⟩ := List.cons.inj h
      rw [ha' c List.mem_cons_self] at hc
      cases hc
  | cons x a ih =>
    cases a' with
    | nil =>
      obtain ⟨rfl, -⟩ := List.cons.inj h
      rw [ha x List.mem_cons_self] at hc'
      cases hc'
    | cons y a' =>
      obtain ⟨rfl, htail⟩ := List.cons.inj h
      obtain ⟨rfl, hrest⟩ := ih (fun y hy => ha y (List.mem_cons_of_mem _ hy))
        (fun y hy => ha' y (List.mem_cons_of_mem _ hy)) htail
      exact ⟨rfl, hrest⟩

/-- Two ways to cut a list at the first element that is `c` are the same. -/
theorem cut_unique_at [DecidableEq α] {a a' b b' : List α} {c : α} (ha : c ∉ a) (ha' : c ∉ a')
    (h : a ++ c :: b = a' ++ c :: b') : a = a' ∧ b = b' := by
  have hne : ∀ {l : List α}, c ∉ l → ∀ x ∈ l, decide (x = c) = false := by
    intro l hl x hx
    exact decide_eq_false fun hxc => hl (hxc ▸ hx)
  obtain ⟨ha, -, hb⟩ := cut_unique (f := fun x => decide (x = c)) (hne ha) (hne ha')
    (decide_eq_true rfl) (decide_eq_true rfl) h
  exact ⟨ha, hb⟩

/-- What an evaluation of the whole list says of its elements. -/
theorem forall_mem_of_all {p : α → Prop} [DecidablePred p] {l : List α}
    (h : l.all (fun c => decide (p c)) = true) : ∀ c ∈ l, p c := by
  intro c hc
  exact of_decide_eq_true (List.all_eq_true.mp h c hc)

/-- Where one cut of a list lies with respect to another one. -/
theorem append_split {z t b s : List α} (h : z ++ t = b ++ s) :
    (∃ x, b = z ++ x ∧ t = x ++ s) ∨ ∃ y, y ≠ [] ∧ z = b ++ y ∧ s = y ++ t := by
  rcases List.append_eq_append_iff.mp h with ⟨x, hb, ht⟩ | ⟨y, hz, hs⟩
  · exact .inl ⟨x, hb, ht⟩
  · by_cases hy : y = []
    · subst hy
      exact .inl ⟨[], by simpa using hz.symm, by simpa using hs.symm⟩
    · exact .inr ⟨y, hy, hz, hs⟩

section Tokens

variable (d : α → Bool)

/-- A stretch without delimiters. -/
structure IsToken (t : List α) : Prop where
  ne : t ≠ []
  plain : ∀ c ∈ t, d c = false

/-- The list ends here or goes on with a delimiter. -/
def AtMark (s : List α) : Prop := ∀ c ∈ s.head?, d c = true

/-- `t` is a token of `s`, with `a` before it and `b` behind it. -/
structure TokenIn (s a t b : List α) : Prop extends IsToken d t where
  text : s = a ++ (t ++ b)
  before : ∀ c ∈ a.getLast?, d c = true
  behind : AtMark d b

/-- Every token, with what is behind it. -/
def EachToken (P : List α → List α → Prop) (s : List α) : Prop :=
  ∀ a t b, TokenIn d s a t b → P t b

/-- The token that a list breaks off in, when `tok` is the one that it starts in. -/
def openToken (tok a : List α) : List α :=
  a.foldl (fun tok c => if d c then [] else tok ++ [c]) tok

variable {d} {P : List α → List α → Prop} {a b s t tok : List α} {c : α}

theorem atMark_nil : AtMark d [] := by
  intro c hc
  cases hc

theorem atMark_cons : AtMark d (c :: s) ↔ d c = true := by
  simp [AtMark]

theorem IsToken.append_atMark_inj {t' b' : List α} (ht : ∀ c ∈ t, d c = false)
    (ht' : ∀ c ∈ t', d c = false) (hb : AtMark d b) (hb' : AtMark d b')
    (h : t ++ b = t' ++ b') : t = t' ∧ b = b' := by
  have htake : ∀ {t b : List α}, (∀ c ∈ t, d c = false) → AtMark d b →
      (t ++ b).takeWhile (fun c => !d c) = t := by
    intro t b ht hb
    rw [List.takeWhile_append_of_pos (by simpa using ht)]
    cases b with
    | nil => simp
    | cons c b => simp [atMark_cons.mp hb]
  have hteq : t = t' := by rw [← htake ht hb, h, htake ht' hb']
  subst hteq
  exact ⟨rfl, List.append_cancel_left h⟩

/-! ## Induction along the tokens -/

theorem exists_token (s : List α) (h : ¬AtMark d s) :
    ∃ t s', s = t ++ s' ∧ IsToken d t ∧ AtMark d s' := by
  refine ⟨s.takeWhile fun c => !d c, s.dropWhile fun c => !d c, by simp, ⟨?_, ?_⟩, ?_⟩
  · cases s with
    | nil => exact absurd atMark_nil h
    | cons c s => simp [Bool.eq_false_iff.mpr (mt atMark_cons.mpr h)]
  · intro c hc
    simpa using List.mem_takeWhile_imp hc
  · intro c hc
    cases hs : s.dropWhile fun c => !d c with
    | nil => simp [hs] at hc
    | cons x rest =>
      obtain rfl : x = c := by simpa [hs] using hc
      have := List.head_dropWhile_not (fun c => !d c) (l := s) (by simp [hs])
      simpa [hs] using this

/-- **A list is empty, starts with a delimiter, or starts with a token.** -/
theorem token_induction {motive : List α → Prop} (nil : motive [])
    (mark : ∀ c s, d c = true → motive s → motive (c :: s))
    (token : ∀ t s, IsToken d t → AtMark d s → motive s → motive (t ++ s)) (s : List α) :
    motive s := by
  induction hn : s.length using Nat.strongRecOn generalizing s with
  | _ n ih =>
    by_cases hs : AtMark d s
    · cases s with
      | nil => exact nil
      | cons c s => exact mark c s (atMark_cons.mp hs) (ih s.length (by simp [← hn]) s rfl)
    · obtain ⟨t, s', rfl, ht, hs'⟩ := exists_token s hs
      have hpos := List.length_pos_iff.mpr ht.ne
      refine token t s' ht hs' (ih s'.length ?_ s' rfl)
      rw [← hn, List.length_append]
      omega

/-- Induction along the tokens, with the text behind the delimiters that follow a token. -/
theorem token_induction_behind {motive : List α → Prop} (nil : motive [])
    (mark : ∀ c s, d c = true → motive s → motive (c :: s))
    (token : ∀ t s, IsToken d t → AtMark d s → motive s → motive (s.dropWhile d) →
      motive (t ++ s)) (s : List α) : motive s := by
  have hboth : motive s ∧ motive (s.dropWhile d) := by
    induction s using token_induction (d := d) with
    | nil => exact ⟨nil, nil⟩
    | mark c s hc ih => exact ⟨mark c s hc ih.1, by rw [List.dropWhile_cons_of_pos hc]; exact ih.2⟩
    | token t s ht hs ih =>
      have hmotive := token t s ht hs ih.1 ih.2
      obtain ⟨c, t, rfl⟩ := List.exists_cons_of_ne_nil ht.ne
      refine ⟨hmotive, ?_⟩
      rw [List.cons_append, List.dropWhile_cons_of_neg (by simp [ht.plain c])]
      exact hmotive
  exact hboth.1

/-! ## Every token -/

theorem eachToken_nil : EachToken d P [] := by
  intro a t b h
  have := congrArg List.length h.text
  have := List.length_pos_iff.mpr h.ne
  simp only [List.length_nil, List.length_append] at *
  omega

theorem eachToken_cons (hc : d c = true) : EachToken d P (c :: s) ↔ EachToken d P s := by
  constructor
  · intro h a t b ht
    refine h (c :: a) t b ⟨ht.toIsToken, by rw [ht.text]; rfl, ?_, ht.behind⟩
    cases a with
    | nil => simpa using hc
    | cons x a => simpa using ht.before
  · intro h a t b ht
    cases a with
    | nil =>
      obtain ⟨x, t, rfl⟩ := List.exists_cons_of_ne_nil ht.ne
      obtain ⟨rfl, -⟩ := List.cons.inj ht.text
      rw [ht.plain c List.mem_cons_self] at hc
      cases hc
    | cons x a =>
      obtain ⟨rfl, htext⟩ := List.cons.inj ht.text
      refine h a t b ⟨ht.toIsToken, htext, ?_, ht.behind⟩
      intro y hy
      refine ht.before y ?_
      cases a with
      | nil => cases hy
      | cons z a => simpa using hy

theorem eachToken_append (ht : IsToken d t) (hs : AtMark d s) :
    EachToken d P (t ++ s) ↔ P t s ∧ EachToken d P s := by
  constructor
  · intro h
    refine ⟨h [] t s ⟨ht, rfl, by simp, hs⟩, fun a u b hu => ?_⟩
    refine h (t ++ a) u b ⟨hu.toIsToken, by rw [hu.text, List.append_assoc], ?_, hu.behind⟩
    cases a with
    | nil =>
      obtain ⟨x, u, rfl⟩ := List.exists_cons_of_ne_nil hu.ne
      have hx := hs x (by simp [hu.text])
      rw [hu.plain x List.mem_cons_self] at hx
      cases hx
    | cons x a => simpa [List.getLast?_append] using hu.before
  · rintro ⟨hP, h⟩ a u b hu
    rcases List.append_eq_append_iff.mp hu.text with ⟨x, rfl, hx⟩ | ⟨x, hx, hrest⟩
    · refine h x u b ⟨hu.toIsToken, hx, ?_, hu.behind⟩
      cases x with
      | nil => simp
      | cons y x => simpa [List.getLast?_append] using hu.before
    · have ha : a = [] := by
        by_contra hne
        have hlast := hu.before _ (List.getLast_mem_getLast? hne)
        rw [ht.plain _ (hx ▸ List.mem_append_left _ (List.getLast_mem hne))] at hlast
        cases hlast
      subst ha
      obtain rfl : t = x := by simpa using hx
      obtain ⟨rfl, rfl⟩ := IsToken.append_atMark_inj hu.plain ht.plain hu.behind hs hrest
      exact hP

theorem eachToken_dropWhile : EachToken d P (s.dropWhile d) ↔ EachToken d P s := by
  induction s with
  | nil => rfl
  | cons c s ih =>
    by_cases hc : d c = true
    · rw [List.dropWhile_cons_of_pos hc, eachToken_cons hc, ih]
    · rw [List.dropWhile_cons_of_neg hc]

/-! ## The open token -/

theorem openToken_append : openToken d tok (a ++ b) = openToken d (openToken d tok a) b :=
  List.foldl_append

theorem openToken_mark (hc : d c = true) (tok a : List α) :
    openToken d tok (c :: a) = openToken d [] a := by
  simp [openToken, hc]

theorem openToken_concat_mark (hc : d c = true) : openToken d tok (a ++ [c]) = [] := by
  rw [openToken_append, openToken_mark hc]
  rfl

theorem openToken_cons : openToken d tok (c :: a) = openToken d (openToken d tok [c]) a := rfl

theorem openToken_behind (hc : d c = true) : openToken d tok (b ++ [c] ++ a) = openToken d [] a := by
  rw [openToken_append, openToken_concat_mark hc]

theorem openToken_plain (ha : ∀ c ∈ a, d c = false) : openToken d tok a = tok ++ a := by
  induction a generalizing tok with
  | nil => simp [openToken]
  | cons c a ih =>
    have hc := ha c List.mem_cons_self
    have : openToken d tok (c :: a) = openToken d (tok ++ [c]) a := by simp [openToken, hc]
    rw [this, ih fun x hx => ha x (List.mem_cons_of_mem _ hx), List.append_assoc]
    rfl

/-- The open token is the end of the list, cut off behind a delimiter. -/
theorem exists_openToken (a : List α) :
    ∃ a', a = a' ++ openToken d [] a ∧ (∀ c ∈ openToken d [] a, d c = false) ∧
      ∀ c ∈ a'.getLast?, d c = true := by
  induction a using List.reverseRecOn with
  | nil => exact ⟨[], rfl, by simp [openToken], by simp⟩
  | append_singleton a c ih =>
    obtain ⟨a', ha, hplain, hlast⟩ := ih
    by_cases hc : d c = true
    · rw [openToken_concat_mark hc]
      exact ⟨a ++ [c], by simp, by simp, by simpa using hc⟩
    · have hstep : openToken d [] (a ++ [c]) = openToken d [] a ++ [c] := by
        rw [openToken_append, openToken_plain (by simpa using hc)]
      refine ⟨a', ?_, ?_, hlast⟩
      · rw [hstep, ← List.append_assoc, ← ha]
      · rw [hstep]
        intro x hx
        rcases List.mem_append.mp hx with hx | hx
        · exact hplain x hx
        · simpa [List.mem_singleton.mp hx] using hc

end Tokens

end HaAddons
