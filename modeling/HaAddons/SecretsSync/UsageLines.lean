import HaAddons.Lib.Yaml
import HaAddons.SecretsSync.Usage

/-!
# Which references the usage scan reads

A reference in a YAML file is a line: list dashes and a key, the tag `!secret`, a scalar, and
possibly a comment. The scan loses the comment and looks for the scalar with a pattern, and both
are simpler than YAML.

* `lineKeys_iff` — the scan reads the value of the scalar exactly if a plain one has no character
  that ends the pattern, a quoted one is not empty, and no quotes hold white space and `#`.
* `usage_exact_iff` — in a scan that is not truncated, such a line keeps its key from being listed
  as unused, and makes no other key missing.
-/

namespace HaAddons.SecretsSync.Usage

open HaAddons.Lib Py

/-! ## YAML on one line -/

def isBlank (c : Char) : Bool := c = ' ' || c = '\t'

/-- Some white space. -/
def isGap (s : Text) : Bool := s ≠ [] && s.all isBlank

/-- What may stand on a line of a stream. -/
def inLine (c : Char) : Bool := Yaml.admits .v11 c && !Yaml.isBreak .v11 c && c ≠ '\r'

/-- Two neighbours of this kind. -/
def adjacent (p : Char → Char → Bool) : Text → Bool
  | a :: b :: s => p a b || adjacent p (b :: s)
  | _ => false

/-- No plain scalar begins with one of these. -/
def indicators : Text := ",[]\x7b\x7d#&*!|>'\"%@\x60".toList

/-- The start of a plain scalar in block context. -/
def startsPlain : Text → Bool
  | [] => false
  | c :: s => !isBlank c && !indicators.contains c &&
    (!"-?:".toList.contains c || s.head?.any (!isBlank ·))

/-- A plain scalar in block context, on one line. -/
def isPlain (s : Text) : Bool :=
  startsPlain s && s.all inLine && !s.getLast?.any (fun c => isBlank c || c = ':') &&
    !adjacent (fun a b => a = ':' && isBlank b) s && !adjacent (fun a b => isBlank a && b = '#') s

inductive Style where
  | plain
  | single
  | double
  deriving DecidableEq

def Style.wrap (s : Text) : Style → Text
  | .plain => s
  | .single => '\'' :: s ++ ['\'']
  | .double => '"' :: s ++ ['"']

/-- Single quotes stand in pairs. -/
def paired : Text → Bool
  | '\'' :: '\'' :: s => paired s
  | c :: s => c ≠ '\'' && paired s
  | [] => true

/-- Double quotes stand behind a backslash, and a backslash is not the last character. -/
def escaped : Text → Bool
  | '\\' :: _ :: s => escaped s
  | c :: s => c ≠ '\\' && c ≠ '"' && escaped s
  | [] => true

/-- What may be the key of a mapping, with its escapes. -/
def isKey (s : Text) : Style → Bool
  | .plain => isPlain s
  | .single => s.all inLine && paired s
  | .double => s.all inLine && escaped s

/-- A scalar without escapes that is its own value. -/
def isScalar (s : Text) : Style → Bool
  | .plain => isPlain s
  | .single => s.all fun c => inLine c && c ≠ '\''
  | .double => s.all fun c => inLine c && c ≠ '"' && c ≠ '\\'

/-! ## Lines with a reference -/

/-- `key:` and the white space after it. -/
structure Key where
  style : Style
  raw : Text
  before : Text
  after : Text
  ok : isKey raw style = true
  before_blank : before.all isBlank = true
  after_gap : isGap after = true

def Key.text (k : Key) : Text := k.style.wrap k.raw ++ k.before ++ ':' :: k.after

/-- The indentation, dashes with the white space after each, and a key. -/
structure Lead where
  indent : ℕ
  dashes : List Text
  key : Option Key
  dashes_gap : dashes.all isGap = true
  not_empty : dashes ≠ [] ∨ key.isSome = true

def Lead.text (l : Lead) : Text :=
  List.replicate l.indent ' ' ++ l.dashes.flatMap ('-' :: ·) ++ (l.key.map Key.text).getD []

structure Scalar where
  style : Style
  value : Text
  ok : isScalar value style = true

def Scalar.text (s : Scalar) : Text := s.style.wrap s.value

/-- White space at the end of the line, and a comment. -/
structure Tail where
  blanks : Text
  comment : Option Text
  blanks_blank : blanks.all isBlank = true
  comment_apart : comment.isSome = true → blanks ≠ []

def Tail.text (t : Tail) : Text := t.blanks ++ (t.comment.map ('#' :: ·)).getD []

/-- `<key or list prefix> !secret <scalar>` -/
structure RefLine where
  lead : Lead
  gap : Text
  scalar : Scalar
  tail : Tail
  gap_gap : isGap gap = true

def RefLine.text (l : RefLine) : Text :=
  l.lead.text ++ (secretTag ++ (l.gap ++ (l.scalar.text ++ l.tail.text)))

/-- A match of the pattern starts inside the key or list prefix. -/
def RefLine.LeadReads (l : RefLine) : Prop :=
  ∃ a b, uncomment l.text = a ++ b ∧ a.length < l.lead.text.length ∧ (refAt b).isSome = true

/-- No `#` comes after white space. -/
def HashFree (s : Text) : Prop := ∀ c, isSpace c = true → ¬ [c, '#'] <:+: s

/-- A plain scalar has only characters that the pattern takes; a quoted one is not empty, and
nothing in it looks like a comment. -/
def Scalar.Fits (s : Scalar) : Prop :=
  match s.style with
  | .plain => s.value.all isBare = true
  | .single | .double => s.value ≠ [] ∧ HashFree s.value

def RefLine.Fits (l : RefLine) : Prop := HashFree l.lead.text ∧ l.scalar.Fits

/-! ## Characters -/

section Characters

variable {c : Char} {s a b : Text}

theorem isSpace_of_isBlank (h : isBlank c = true) : isSpace c = true := by
  have hc : c = ' ' ∨ c = '\t' := by simpa [isBlank] using h
  cases hc with
  | inl hc => subst hc; decide
  | inr hc => subst hc; decide

theorem not_space_of_isBare (h : isBare c = true) : isSpace c = false := by
  simp only [isBare, Bool.and_eq_true, Bool.not_eq_true'] at h
  exact h.1

theorem not_quote_of_isBare (h : isBare c = true) : c ≠ '"' ∧ c ≠ '\'' ∧ c ≠ '#' := by
  simp only [isBare, Bool.and_eq_true, Bool.not_eq_true'] at h
  refine ⟨?_, ?_, ?_⟩ <;> (intro hc; subst hc; exact absurd h.2 (by decide))

theorem isGap_iff : isGap s = true ↔ s ≠ [] ∧ ∀ c ∈ s, isBlank c = true := by
  simp [isGap]

theorem HashFree.of_infix (h : HashFree b) (hab : a <:+: b) : HashFree a :=
  fun c hc hin => h c hc (hin.trans hab)

theorem hashFree_of_not_mem (h : '#' ∉ s) : HashFree s := by
  intro c _ hin
  exact h (hin.subset (by simp))

theorem hashFree_of_blank (h : ∀ c ∈ s, isBlank c = true) : HashFree s := by
  refine hashFree_of_not_mem fun hmem => ?_
  exact absurd (h '#' hmem) (by decide)

theorem hashFree_of_bare (h : s.all isBare = true) : HashFree s := by
  refine hashFree_of_not_mem fun hmem => ?_
  exact (not_quote_of_isBare (List.all_eq_true.mp h '#' hmem)).2.2 rfl

/-- The first `#` that comes after white space. -/
theorem exists_cut (h : ¬ HashFree s) :
    ∃ b c d, s = b ++ c :: '#' :: d ∧ isSpace c = true ∧ HashFree (b ++ [c]) := by
  induction s with
  | nil => exact absurd (hashFree_of_not_mem List.not_mem_nil) h
  | cons x s ih =>
    by_cases hx : isSpace x = true ∧ s.head? = some '#'
    · cases s with
      | nil => simp at hx
      | cons y s =>
        obtain ⟨hx, hy⟩ := hx
        obtain rfl : y = '#' := by simpa using hy
        refine ⟨[], x, s, rfl, hx, hashFree_of_not_mem ?_⟩
        intro hmem
        obtain rfl : '#' = x := by simpa using hmem
        exact absurd hx (by decide)
    · have hs : ¬ HashFree s := by
        intro hs
        refine h fun c hc hin => ?_
        cases List.infix_cons_iff.mp hin with
        | inl hpre =>
          obtain ⟨t, ht⟩ := hpre
          obtain ⟨rfl, rfl⟩ := List.cons.inj ht
          exact hx ⟨hc, rfl⟩
        | inr hin => exact hs c hc hin
      obtain ⟨b, c, d, rfl, hc, hfree⟩ := ih hs
      refine ⟨x :: b, c, d, rfl, hc, ?_⟩
      intro e he hin
      cases List.infix_cons_iff.mp hin with
      | inl hpre =>
        obtain ⟨t, ht⟩ := hpre
        obtain ⟨rfl, hrest⟩ := List.cons.inj ht
        cases b with
        | nil =>
          obtain rfl : '#' = c := (List.cons.inj hrest).1
          exact absurd hc (by decide)
        | cons y b =>
          obtain rfl : '#' = y := (List.cons.inj hrest).1
          exact hx ⟨he, rfl⟩
      | inr hin => exact hfree e he hin

end Characters

/-! ## The comment -/

section Comment

variable {c : Char} {s a b : Text}

/-- Drops what looks like a comment behind the first character. -/
abbrev cut (s : Text) : Text := sub commentAt (fun _ => []) s

theorem uncomment_eq (h : s.head? ≠ some '#') : uncomment s = cut s := by
  unfold uncomment
  split
  · exact absurd rfl h
  · rfl

theorem commentAt_ne {x y : Char} (h : isSpace x = true → y ≠ '#') :
    commentAt (x :: y :: s) = none := by
  unfold commentAt
  split
  · rename_i heq
    obtain ⟨rfl, rfl, -⟩ : _ ∧ _ ∧ _ := by simpa using heq
    exact if_neg fun hx => h hx rfl
  · rfl

theorem cut_append (ha : HashFree a)
    (hend : ∀ c ∈ a.getLast?, isSpace c = true → s.head? ≠ some '#') :
    cut (a ++ s) = a ++ cut s := by
  refine sub_append fun t ht hne => ?_
  obtain ⟨x, t, rfl⟩ := List.exists_cons_of_ne_nil hne
  cases t with
  | nil =>
    obtain ⟨u, rfl⟩ := ht
    cases s with
    | nil => rfl
    | cons y s =>
      refine commentAt_ne fun hx => ?_
      simpa using hend x (by simp) hx
  | cons y t =>
    refine commentAt_ne fun hx hy => ?_
    subst hy
    exact ha x hx (List.IsInfix.trans ⟨[], t, rfl⟩ ht.isInfix)

theorem cut_comment (hc : isSpace c = true) : cut (c :: '#' :: s) = [] := by
  have hat : commentAt (c :: '#' :: s) = some ((), []) := by simp [commentAt, hc]
  exact sub_cons_some hat List.nil_suffix

theorem cut_of_cut (hc : isSpace c = true) (hb : HashFree (b ++ [c])) :
    cut (b ++ c :: '#' :: s) = b := by
  rw [cut_append (hb.of_infix (List.prefix_append b [c]).isInfix), cut_comment hc, List.append_nil]
  intro d hd hspace heq
  have hcd : c = '#' := by simpa using heq
  rw [hcd] at hc
  exact absurd hc (by decide)

/-- Of the end of a line only white space is left. -/
theorem cut_tail (t : Tail) : ∀ c ∈ cut t.text, isBlank c = true := by
  have hblanks : ∀ c ∈ t.blanks, isBlank c = true := List.all_eq_true.mp t.blanks_blank
  cases hc : t.comment with
  | none =>
    have htext : t.text = t.blanks ++ [] := by simp [Tail.text, hc]
    rw [htext, cut_append (hashFree_of_blank hblanks) (by simp)]
    simpa using hblanks
  | some text =>
    have hne : t.blanks ≠ [] := t.comment_apart (by simp [hc])
    obtain ⟨bs, b, hbs⟩ := List.eq_nil_or_concat t.blanks |>.resolve_left hne
    have htext : t.text = bs ++ b :: '#' :: text := by simp [Tail.text, hc, hbs]
    rw [htext, cut_of_cut]
    · intro c hmem
      exact hblanks c (by simp [hbs, hmem])
    · exact isSpace_of_isBlank (hblanks b (by simp [hbs]))
    · refine hashFree_of_blank ?_
      simpa [hbs] using hblanks

end Comment

/-! ## The pattern -/

section Pattern

variable {c q : Char} {s a b k rest gap : Text}

theorem refAt_of_ne (h : c ≠ '!') : refAt (c :: s) = none := by
  refine if_neg fun hpre => h ?_
  obtain ⟨t, ht⟩ := hpre.1
  exact (List.cons.inj ht).1.symm

theorem refAt_eq (hgap : isGap gap = true) (hs : ∀ c ∈ s.head?, isSpace c = false) :
    refAt (secretTag ++ (gap ++ s)) = keyRef s := by
  obtain ⟨hne, hblank⟩ := isGap_iff.mp hgap
  have hspace : ∀ c ∈ gap, isSpace c = true := fun c hc => isSpace_of_isBlank (hblank c hc)
  obtain ⟨x, gap, rfl⟩ := List.exists_cons_of_ne_nil hne
  have hdrop : (x :: gap ++ s).dropWhile isSpace = s := by
    rw [List.dropWhile_append_of_pos hspace]
    cases s with
    | nil => rfl
    | cons c s => exact List.dropWhile_cons_of_neg (by simpa using hs c rfl)
  unfold refAt
  rw [List.drop_left, hdrop, if_pos ⟨List.prefix_append _ _, by simp [hspace x]⟩]

theorem quotedRef_eq_some (h : quotedRef q s = some (k, rest)) :
    k ≠ [] ∧ s = k ++ q :: rest := by
  unfold quotedRef at h
  split_ifs at h with hc
  obtain ⟨rfl, rfl⟩ := Prod.mk.inj (Option.some.inj h)
  obtain ⟨x, t, hx⟩ := List.exists_cons_of_ne_nil hc.2
  have hq : x = q := by
    have hhead := List.head_dropWhile_not (fun c => decide (c ≠ q)) hc.2
    simp only [hx, List.head_cons] at hhead
    simpa using hhead
  subst hq
  refine ⟨hc.1, ?_⟩
  rw [hx, List.tail_cons, ← hx, List.takeWhile_append_dropWhile]

theorem quotedRef_closed (hq : q ∉ k) (hk : k ≠ []) :
    quotedRef q (k ++ q :: rest) = some (k, rest) := by
  have hne : ∀ c ∈ k, (decide (c ≠ q)) = true := by
    intro c hc
    simp only [ne_eq, decide_eq_true_eq]
    rintro rfl
    exact hq hc
  have htake : (k ++ q :: rest).takeWhile (· ≠ q) = k := by
    rw [List.takeWhile_append_of_pos hne]
    simp
  have hdrop : (k ++ q :: rest).dropWhile (· ≠ q) = q :: rest := by
    rw [List.dropWhile_append_of_pos hne]
    simp
  rw [quotedRef, htake, hdrop, if_pos ⟨hk, by simp⟩]
  rfl

theorem quotedRef_open (hq : q ∉ s) : quotedRef q s = none := by
  refine if_neg fun h => h.2 ?_
  rw [List.dropWhile_eq_nil_iff]
  intro c hc
  simp only [ne_eq, decide_eq_true_eq]
  rintro rfl
  exact hq hc

/-- A key is not empty, and is part of what was matched. -/
theorem keyRef_eq_some (h : keyRef s = some (k, rest)) : k ≠ [] ∧ k <:+: s := by
  unfold keyRef at h
  split at h
  · obtain ⟨hk, rfl⟩ := quotedRef_eq_some h
    exact ⟨hk, ['"'], '"' :: rest, by simp⟩
  · obtain ⟨hk, rfl⟩ := quotedRef_eq_some h
    exact ⟨hk, ['\''], '\'' :: rest, by simp⟩
  · split_ifs at h with hne
    obtain ⟨rfl, rfl⟩ := Prod.mk.inj (Option.some.inj h)
    exact ⟨hne, (List.takeWhile_prefix _).isInfix⟩

theorem refAt_eq_some (h : refAt s = some (k, rest)) : k ≠ [] ∧ k <:+: s := by
  unfold refAt at h
  split_ifs at h
  obtain ⟨hk, hin⟩ := keyRef_eq_some h
  exact ⟨hk, hin.trans ((List.dropWhile_suffix _).trans (List.drop_suffix _ _)).isInfix⟩

/-- What is taken is unquoted, or stands between quotes. -/
theorem refAt_cases (h : refAt s = some (k, rest)) :
    k.all isBare = true ∨ ∃ q, (q = '"' ∨ q = '\'') ∧ q :: k ++ [q] <:+: s := by
  unfold refAt at h
  split_ifs at h
  have hsuffix : (s.drop secretTag.length).dropWhile isSpace <:+ s :=
    (List.dropWhile_suffix _).trans (List.drop_suffix _ _)
  generalize (s.drop secretTag.length).dropWhile isSpace = u at h hsuffix
  unfold keyRef at h
  split at h
  · obtain ⟨-, rfl⟩ := quotedRef_eq_some h
    exact .inr ⟨'"', .inl rfl, List.IsInfix.trans ⟨[], rest, by simp⟩ hsuffix.isInfix⟩
  · obtain ⟨-, rfl⟩ := quotedRef_eq_some h
    exact .inr ⟨'\'', .inr rfl, List.IsInfix.trans ⟨[], rest, by simp⟩ hsuffix.isInfix⟩
  · split_ifs at h
    obtain ⟨rfl, rfl⟩ := Prod.mk.inj (Option.some.inj h)
    exact .inl (List.all_eq_true.mpr fun c hc => List.mem_takeWhile_imp hc)

theorem keyRef_rest (h : keyRef s = some (k, rest)) : rest <:+ s := by
  unfold keyRef at h
  split at h
  · obtain ⟨-, rfl⟩ := quotedRef_eq_some h
    exact ⟨'"' :: k ++ ['"'], by simp⟩
  · obtain ⟨-, rfl⟩ := quotedRef_eq_some h
    exact ⟨'\'' :: k ++ ['\''], by simp⟩
  · split_ifs at h with hne
    obtain ⟨rfl, rfl⟩ := Prod.mk.inj (Option.some.inj h)
    exact List.dropWhile_suffix _

theorem keyRef_bare (h : ∀ c ∈ s.head?, isBare c = true) (hne : s ≠ []) :
    keyRef s = some (s.takeWhile isBare, s.dropWhile isBare) := by
  obtain ⟨c, s, rfl⟩ := List.exists_cons_of_ne_nil hne
  have hc : isBare c = true := h c rfl
  obtain ⟨hdouble, hsingle, -⟩ := not_quote_of_isBare hc
  unfold keyRef
  split
  · rename_i heq
    exact absurd (List.cons.inj heq).1 hdouble
  · rename_i heq
    exact absurd (List.cons.inj heq).1 hsingle
  · exact if_pos (by simp [hc])

theorem findAll_blank (h : ∀ c ∈ s, isBlank c = true) : findAll refAt s = [] := by
  have hall := findAll_append (m := refAt) (a := s) (s := []) fun t ht hne => by
    obtain ⟨c, t, rfl⟩ := List.exists_cons_of_ne_nil hne
    rw [List.append_nil]
    refine refAt_of_ne fun hc => ?_
    have hblank := h c (ht.subset List.mem_cons_self)
    rw [hc] at hblank
    exact absurd hblank (by decide)
  simpa using hall

end Pattern

/-! ## One line -/

section Line

variable {v w : Text} {q : Char}

theorem Lead.exists_last (l : Lead) : ∃ a b, l.text = a ++ [b] ∧ isBlank b = true := by
  have hlast : ∀ {s : Text} (a : Text), isGap s = true →
      ∃ a' b, a ++ s = a' ++ [b] ∧ isBlank b = true := by
    intro s a hs
    obtain ⟨hne, hblank⟩ := isGap_iff.mp hs
    obtain ⟨t, b, rfl⟩ := List.eq_nil_or_concat s |>.resolve_left hne
    exact ⟨a ++ t, b, by simp, hblank b (by simp)⟩
  cases hk : l.key with
  | some k =>
    obtain ⟨a, b, hab, hb⟩ := hlast (List.replicate l.indent ' ' ++ l.dashes.flatMap ('-' :: ·) ++
      (k.style.wrap k.raw ++ k.before ++ [':'])) k.after_gap
    exact ⟨a, b, by simpa [Lead.text, Key.text, hk] using hab, hb⟩
  | none =>
    have hne : l.dashes ≠ [] := l.not_empty.resolve_right (by simp [hk])
    obtain ⟨ds, d, hd⟩ := List.eq_nil_or_concat l.dashes |>.resolve_left hne
    have hgap : isGap d = true := List.all_eq_true.mp l.dashes_gap d (by simp [hd])
    obtain ⟨a, b, hab, hb⟩ :=
      hlast (List.replicate l.indent ' ' ++ ds.flatMap ('-' :: ·) ++ ['-']) hgap
    exact ⟨a, b, by simpa [Lead.text, hk, hd] using hab, hb⟩

theorem head_wrap {s : Text} {style : Style} (h : style = .plain → isPlain s = true) :
    ∃ c t, style.wrap s = c :: t ∧ c ≠ '#' ∧ isBlank c = false := by
  cases style with
  | single => exact ⟨'\'', s ++ ['\''], rfl, by decide, by decide⟩
  | double => exact ⟨'"', s ++ ['"'], rfl, by decide, by decide⟩
  | plain =>
    have hplain := h rfl
    cases s with
    | nil => simp [isPlain, startsPlain] at hplain
    | cons c s =>
      simp only [isPlain, startsPlain, Bool.and_eq_true, Bool.not_eq_true'] at hplain
      refine ⟨c, s, rfl, ?_, hplain.1.1.1.1.1.1⟩
      intro hc
      subst hc
      exact absurd hplain.1.1.1.1.1.2 (by decide)

theorem Lead.head_ne (l : Lead) : ∀ s, (l.text ++ s).head? ≠ some '#' := by
  intro s
  unfold Lead.text
  cases hi : l.indent with
  | succ n => simp [List.replicate_succ]
  | zero =>
    cases hd : l.dashes with
    | cons d ds => simp
    | nil =>
      obtain ⟨k, hk⟩ := Option.isSome_iff_exists.mp (l.not_empty.resolve_left (by simp [hd]))
      have hplain : k.style = .plain → isPlain k.raw = true := by
        intro hstyle
        have hok := k.ok
        rw [hstyle] at hok
        exact hok
      obtain ⟨c, t, hwrap, hc, -⟩ := head_wrap hplain
      simp [hk, Key.text, hwrap, hc]

theorem Scalar.head_ne (s : Scalar) (t : Text) : (s.text ++ t).head? ≠ some '#' := by
  have hplain : s.style = .plain → isPlain s.value = true := by
    intro hstyle
    have hok := s.ok
    rw [hstyle] at hok
    exact hok
  obtain ⟨c, u, hwrap, hc, -⟩ := head_wrap hplain
  simp [Scalar.text, hwrap, hc]

theorem Tail.head_ne (t : Tail) : t.text.head? ≠ some '#' := by
  unfold Tail.text
  cases hb : t.blanks with
  | nil =>
    cases hc : t.comment with
    | none => simp
    | some text => exact absurd hb (t.comment_apart (by simp [hc]))
  | cons b bs =>
    have hblank : isBlank b = true := List.all_eq_true.mp t.blanks_blank b (by simp [hb])
    intro h
    obtain rfl : b = '#' := by simpa using h
    exact absurd hblank (by decide)

/-- A line without what looks like a comment, if that does not start in the key or list prefix. -/
theorem uncomment_text {l : RefLine} (h : HashFree l.lead.text) :
    uncomment l.text =
      l.lead.text ++ (secretTag ++ (l.gap ++ cut (l.scalar.text ++ l.tail.text))) := by
  obtain ⟨hne, hblank⟩ := isGap_iff.mp l.gap_gap
  have hgap : cut (l.gap ++ (l.scalar.text ++ l.tail.text)) =
      l.gap ++ cut (l.scalar.text ++ l.tail.text) :=
    cut_append (hashFree_of_blank hblank) fun _ _ _ => l.scalar.head_ne _
  have htag : cut (secretTag ++ (l.gap ++ (l.scalar.text ++ l.tail.text))) =
      secretTag ++ cut (l.gap ++ (l.scalar.text ++ l.tail.text)) := by
    refine cut_append (hashFree_of_not_mem (by decide)) fun d hd hspace => ?_
    have hlast : some 't' = some d := hd
    obtain rfl : 't' = d := Option.some.inj hlast
    exact absurd hspace (by decide)
  have hlead : uncomment l.text = cut l.text := uncomment_eq (l.lead.head_ne _)
  rw [hlead, RefLine.text, cut_append h, htag, hgap]
  intro d _ _ hhead
  have hmark : some '!' = some '#' := hhead
  exact absurd (Option.some.inj hmark) (by decide)

/-- The comment starts in the key or list prefix. -/
theorem uncomment_lead {l : RefLine} (h : ¬ HashFree l.lead.text) :
    (uncomment l.text).length < l.lead.text.length ∧ uncomment l.text <+: l.lead.text := by
  obtain ⟨b, c, d, hlead, hc, hfree⟩ := exists_cut h
  have htext : uncomment l.text = b := by
    have hcut : uncomment l.text = cut l.text := uncomment_eq (l.lead.head_ne _)
    rw [hcut, RefLine.text, hlead, List.append_assoc, List.cons_append, List.cons_append,
      cut_of_cut hc hfree]
  rw [htext, hlead]
  exact ⟨by simp, List.prefix_append _ _⟩

theorem lineKeys_text (l : RefLine) : lineKeys l.text = findAll refAt (uncomment l.text) :=
  if_pos ⟨l.lead.text, _, by rw [RefLine.text, List.append_assoc]⟩

/-- The keys are those found from the tag on. -/
theorem lineKeys_of_hashFree {l : RefLine} (h : HashFree l.lead.text) (hlead : ¬ l.LeadReads) :
    lineKeys l.text =
      findAll refAt (secretTag ++ (l.gap ++ cut (l.scalar.text ++ l.tail.text))) := by
  rw [lineKeys_text, uncomment_text h]
  refine findAll_append fun t ht hne => ?_
  by_contra hread
  obtain ⟨u, hu⟩ := ht
  refine hlead ⟨u, _, by rw [uncomment_text h, ← hu, List.append_assoc], ?_,
    Option.isSome_iff_ne_none.mpr hread⟩
  rw [← hu, List.length_append]
  have := List.length_pos_of_ne_nil hne
  omega

theorem lineKeys_of_not_hashFree {l : RefLine} (h : ¬ HashFree l.lead.text)
    (hlead : ¬ l.LeadReads) : lineKeys l.text = [] := by
  have hnone := findAll_append (m := refAt) (a := uncomment l.text) (s := []) fun t ht hne => by
    by_contra hread
    obtain ⟨u, hu⟩ := ht
    rw [List.append_nil] at hread
    have hlt := (uncomment_lead h).1
    refine hlead ⟨u, t, hu.symm, ?_, Option.isSome_iff_ne_none.mpr hread⟩
    rw [← hu, List.length_append] at hlt
    omega
  rw [lineKeys_text]
  simpa using hnone

/-- What is left of the scalar and the end of the line. -/
theorem cut_scalar (s : Text) (t : Tail) :
    (HashFree s ∧ cut (s ++ t.text) = s ++ cut t.text) ∨
      (¬ HashFree s ∧ ∃ c d, isSpace c = true ∧ s = cut (s ++ t.text) ++ c :: '#' :: d) := by
  by_cases h : HashFree s
  · exact .inl ⟨h, cut_append h fun _ _ _ => t.head_ne⟩
  · obtain ⟨b, c, d, hs, hc, hfree⟩ := exists_cut h
    refine .inr ⟨h, c, d, hc, ?_⟩
    have hcut : cut (s ++ t.text) = b := by
      rw [hs, List.append_assoc, List.cons_append, List.cons_append, cut_of_cut hc hfree]
    rw [hcut, ← hs]

/-- What the pattern takes of a text whose tag is followed by a key. -/
theorem findAll_of_keyRef {gap s k rest : Text} (hgap : isGap gap = true)
    (hs : ∀ c ∈ s.head?, isSpace c = false) (h : keyRef s = some (k, rest))
    (hrest : ∀ c ∈ rest, isBlank c = true) :
    findAll refAt (secretTag ++ (gap ++ s)) = [k] := by
  have hat : refAt (secretTag ++ (gap ++ s)) = some (k, rest) := by rw [refAt_eq hgap hs, h]
  have hsuffix : rest <:+ "secret".toList ++ (gap ++ s) :=
    ((keyRef_rest h).trans (List.suffix_append gap s)).trans (List.suffix_append _ _)
  have hall : findAll refAt (secretTag ++ (gap ++ s)) = k :: findAll refAt rest :=
    findAll_cons_some hat hsuffix
  rw [hall, findAll_blank hrest]

/-- What the pattern takes of a text whose tag is not followed by a key. -/
theorem findAll_of_none {gap s : Text} {q : Char} (hgap : isGap gap = true) (hq : q ≠ '!')
    (hspace : isSpace q = false) (h : keyRef (q :: s) = none) :
    findAll refAt (secretTag ++ (gap ++ q :: s)) = findAll refAt s := by
  have hat : refAt (secretTag ++ (gap ++ q :: s)) = none := by
    rw [refAt_eq hgap (by simpa using hspace), h]
  have hnone : findAll refAt (secretTag ++ (gap ++ q :: s)) =
      findAll refAt ("secret".toList ++ (gap ++ q :: s)) := findAll_cons_none hat
  have happend : "secret".toList ++ (gap ++ q :: s) = ("secret".toList ++ (gap ++ [q])) ++ s := by
    simp
  rw [hnone, happend]
  refine findAll_append fun t ht hne => ?_
  obtain ⟨c, t, rfl⟩ := List.exists_cons_of_ne_nil hne
  refine refAt_of_ne fun hc => ?_
  have hmem : c ∈ "secret".toList ++ (gap ++ [q]) := ht.subset List.mem_cons_self
  rw [hc, List.mem_append, List.mem_append, List.mem_singleton] at hmem
  rcases hmem with hmem | hmem | hmem
  · exact absurd hmem (by decide)
  · exact absurd ((isGap_iff.mp hgap).2 '!' hmem) (by decide)
  · exact hq hmem.symm

/-- A plain scalar. -/
theorem plain_iff {gap v : Text} {t : Tail} (hgap : isGap gap = true) (hv : v ≠ []) :
    findAll refAt (secretTag ++ (gap ++ cut (v ++ t.text))) = [v] ↔ v.all isBare = true := by
  have htail := cut_tail t
  constructor
  · intro h
    obtain ⟨u, rest, hu, hread⟩ := mem_findAll (h ▸ List.mem_singleton_self v)
    refine (refAt_cases hread).resolve_right fun ⟨q, hq, hin⟩ => ?_
    -- The line has no quote but those of the scalar.
    have hle := (hin.trans hu.isInfix).sublist.count_le q
    have htag : List.count q secretTag = 0 := by
      cases hq with
      | inl hq => subst hq; decide
      | inr hq => subst hq; decide
    have hblank : isBlank q = false := by
      cases hq with
      | inl hq => subst hq; decide
      | inr hq => subst hq; decide
    have hcount : ∀ s : Text, (∀ c ∈ s, isBlank c = true) → List.count q s = 0 := by
      intro s hs
      refine List.count_eq_zero.mpr fun hmem => ?_
      rw [hs q hmem] at hblank
      cases hblank
    have hcut : List.count q (cut (v ++ t.text)) ≤ List.count q v := by
      cases cut_scalar v t with
      | inl hcut => rw [hcut.2, List.count_append, hcount _ htail, Nat.add_zero]
      | inr hcut =>
        obtain ⟨-, c, d, -, hv⟩ := hcut
        have hprefix : cut (v ++ t.text) <+: v := ⟨c :: '#' :: d, hv.symm⟩
        exact hprefix.sublist.count_le q
    have hgap0 := hcount gap (isGap_iff.mp hgap).2
    simp only [List.cons_append, List.count_cons_self, List.count_append, List.count_nil] at hle
    omega
  · intro h
    have hall : ∀ c ∈ v, isBare c = true := List.all_eq_true.mp h
    have hcut : cut (v ++ t.text) = v ++ cut t.text := by
      refine (cut_scalar v t).elim And.right fun hnot => absurd (hashFree_of_bare h) hnot.1
    obtain ⟨c, v, rfl⟩ := List.exists_cons_of_ne_nil hv
    have hc : isBare c = true := hall c List.mem_cons_self
    have hblank : ∀ d ∈ (cut t.text).head?, ¬ isBare d = true := by
      intro d hd hbare
      have hspace := isSpace_of_isBlank (htail d (List.mem_of_mem_head? hd))
      rw [not_space_of_isBare hbare] at hspace
      exact absurd hspace (by decide)
    have hend : (cut t.text).takeWhile isBare = [] ∧
        (cut t.text).dropWhile isBare = cut t.text := by
      cases hw : cut t.text with
      | nil => exact ⟨rfl, rfl⟩
      | cons d w => simp [hblank d (by simp [hw])]
    have hkey : keyRef (c :: v ++ cut t.text) = some (c :: v, cut t.text) := by
      rw [keyRef_bare (by simpa using hc) (by simp), List.takeWhile_append_of_pos hall, hend.1,
        List.dropWhile_append_of_pos hall, hend.2, List.append_nil]
    rw [hcut]
    exact findAll_of_keyRef hgap (by simpa using not_space_of_isBare hc) hkey htail

/-- A scalar between two quotes. -/
theorem quoted_iff {gap v : Text} {t : Tail} {q : Char} (hgap : isGap gap = true) (hv : q ∉ v)
    (hq : q = '"' ∨ q = '\'') :
    findAll refAt (secretTag ++ (gap ++ cut (q :: v ++ [q] ++ t.text))) = [v] ↔
      v ≠ [] ∧ HashFree v := by
  have hspace : isSpace q = false := by
    cases hq with
    | inl hq => subst hq; decide
    | inr hq => subst hq; decide
  have hmark : q ≠ '!' ∧ q ≠ '#' := by
    cases hq with
    | inl hq => subst hq; decide
    | inr hq => subst hq; decide
  have hkey : ∀ s, keyRef (q :: s) = quotedRef q s := by
    intro s
    cases hq with
    | inl hq => subst hq; rfl
    | inr hq => subst hq; rfl
  have hfree : HashFree (q :: v ++ [q]) ↔ HashFree v := by
    constructor
    · intro h
      exact h.of_infix ⟨[q], [q], rfl⟩
    · intro h c hc hin
      cases List.infix_cons_iff.mp hin with
      | inl hpre =>
        obtain ⟨u, hu⟩ := hpre
        rw [(List.cons.inj hu).1, hspace] at hc
        cases hc
      | inr hin =>
        cases List.infix_concat_iff.mp hin with
        | inl hsuffix =>
          obtain ⟨u, hu⟩ := hsuffix
          have hlast := congrArg List.getLast? hu
          simp only [List.getLast?_append, List.getLast?_cons_cons, List.getLast?_singleton,
            Option.some_or, Option.some.injEq] at hlast
          exact hmark.2 hlast.symm
        | inr hin => exact h c hc hin
  constructor
  · intro h
    obtain ⟨u, rest, hu, hread⟩ := mem_findAll (h ▸ List.mem_singleton_self v)
    refine ⟨(refAt_eq_some hread).1, ?_⟩
    by_contra hnot
    obtain ⟨-, c, d, hc, hcut⟩ := (cut_scalar (q :: v ++ [q]) t).resolve_left
      fun hleft => hnot (hfree.mp hleft.1)
    -- The comment starts inside the quotes, and the scalar stays open.
    obtain ⟨b, hb⟩ : ∃ b, cut (q :: v ++ [q] ++ t.text) = q :: b := by
      cases hcase : cut (q :: v ++ [q] ++ t.text) with
      | nil =>
        rw [hcase] at hcut
        rw [← (List.cons.inj hcut).1, hspace] at hc
        cases hc
      | cons x b =>
        rw [hcase] at hcut
        exact ⟨b, by rw [(List.cons.inj hcut).1]⟩
    rw [hb] at hcut h
    have hbv : v ++ [q] = b ++ c :: '#' :: d := (List.cons.inj hcut).2
    have hlen : b.length < v.length := by
      have := congrArg List.length hbv
      simp only [List.length_append, List.length_cons, List.length_nil] at this
      omega
    have hpre : b <+: v :=
      List.prefix_of_prefix_length_le (hbv ▸ List.prefix_append b _) (List.prefix_append v [q])
        hlen.le
    have hopen : keyRef (q :: b) = none := by
      rw [hkey, quotedRef_open fun hmem => hv (hpre.subset hmem)]
    rw [findAll_of_none hgap hmark.1 hspace hopen] at h
    obtain ⟨u, rest, hu, hread⟩ := mem_findAll (h ▸ List.mem_singleton_self v)
    have hle := ((refAt_eq_some hread).2.trans hu.isInfix).length_le
    omega
  · intro ⟨hne, hv'⟩
    have hcut : cut (q :: v ++ [q] ++ t.text) = q :: (v ++ q :: cut t.text) := by
      have := (cut_scalar (q :: v ++ [q]) t).resolve_right fun hright => hright.1 (hfree.mpr hv')
      simpa using this.2
    rw [hcut]
    refine findAll_of_keyRef hgap (by simpa using hspace) ?_ (cut_tail t)
    rw [hkey, quotedRef_closed hv hne]

/-- The pattern starts inside the key or list prefix only where that holds a tag of its own. -/
theorem not_leadReads {l : RefLine}
    (h : ∀ c, isSpace c = true → ¬ secretTag ++ [c] <:+: l.lead.text) : ¬ l.LeadReads := by
  intro ⟨a, b, hab, hlt, hread⟩
  obtain ⟨c, r, hc, hb⟩ : ∃ c r, isSpace c = true ∧ b = secretTag ++ [c] ++ r := by
    obtain ⟨k, hk⟩ := Option.isSome_iff_exists.mp hread
    unfold refAt at hk
    split_ifs at hk with hpre
    obtain ⟨⟨r, rfl⟩, hhead⟩ := hpre
    rw [List.drop_left] at hhead
    cases r with
    | nil => simp at hhead
    | cons c r => exact ⟨c, r, by simpa using hhead, by simp⟩
  by_cases hfree : HashFree l.lead.text
  · rw [uncomment_text hfree] at hab
    obtain ⟨w, hw, hbw⟩ : ∃ w, l.lead.text = a ++ w ∧
        b = w ++ (secretTag ++ (l.gap ++ cut (l.scalar.text ++ l.tail.text))) := by
      cases List.append_eq_append_iff.mp hab with
      | inl hcase =>
        obtain ⟨w, hw, -⟩ := hcase
        rw [hw, List.length_append] at hlt
        omega
      | inr hcase =>
        obtain ⟨w, hw, hb⟩ := hcase
        exact ⟨w, hw, hb⟩
    have hpre : w <+: b := hbw ▸ List.prefix_append w _
    have htag : secretTag ++ [c] <+: b := hb ▸ List.prefix_append _ r
    cases List.prefix_or_prefix_of_prefix htag hpre with
    | inl hin => exact h c hc (hin.isInfix.trans ⟨a, [], by simp [hw]⟩)
    | inr hin =>
      cases List.prefix_concat_iff.mp hin with
      | inl heq => exact h c hc ⟨a, [], by simp [hw, heq]⟩
      | inr hin =>
        -- The key or list prefix ends in white space, and the tag holds none.
        obtain ⟨u, x, hlast, hx⟩ := l.lead.exists_last
        have hne : w ≠ [] := by
          rintro rfl
          rw [hw, List.append_nil] at hlt
          exact lt_irrefl _ hlt
        obtain ⟨w', y, rfl⟩ := List.eq_nil_or_concat w |>.resolve_left hne
        have hxy : x = y := by
          have := congrArg List.getLast? (hlast.symm.trans hw)
          simpa using this
        have hmem : x ∈ secretTag := hxy ▸ hin.subset (by simp)
        have hsolid : secretTag.all (!isBlank ·) = true := by decide
        have hnot := List.all_eq_true.mp hsolid x hmem
        rw [hx] at hnot
        cases hnot
  · have hin : secretTag ++ [c] <:+: uncomment l.text := ⟨a, r, by rw [hab, hb]; simp⟩
    exact h c hc (hin.trans (uncomment_lead hfree).2.isInfix)

/-- **What the scan reads of a line.** -/
theorem lineKeys_iff {l : RefLine} (h : ¬ l.LeadReads) :
    lineKeys l.text = [l.scalar.value] ↔ l.Fits := by
  by_cases hfree : HashFree l.lead.text
  · rw [lineKeys_of_hashFree hfree h, RefLine.Fits, and_iff_right hfree]
    have hgap := l.gap_gap
    obtain ⟨style, v, hok⟩ := l.scalar
    cases style with
    | plain =>
      have hne : v ≠ [] := by
        intro hv
        subst hv
        cases hok
      exact plain_iff hgap hne
    | single =>
      have hq : '\'' ∉ v := fun hmem => by
        have := List.all_eq_true.mp hok '\'' hmem
        simp at this
      exact quoted_iff hgap hq (.inr rfl)
    | double =>
      have hq : '"' ∉ v := fun hmem => by
        have := List.all_eq_true.mp hok '"' hmem
        simp at this
      exact quoted_iff hgap hq (.inl rfl)
  · rw [lineKeys_of_not_hashFree hfree h]
    constructor
    · intro hnil
      cases hnil
    · intro hfits
      exact absurd hfits.1 hfree

end Line

/-! ## The summary of a scan -/

/-- **The usage scan and its references.** The first part says of which lines the value is read;
the second, what a scan that is not truncated makes of them: the key is not listed as unused, and
another key that is listed as missing is referenced in another line. -/
theorem usage_exact_iff (l : RefLine) (hlead : ¬ l.LeadReads) :
    (lineKeys l.text = [l.scalar.value] ↔ l.Fits) ∧
      ∀ (late : ℕ → Bool) (roots : List (Text × Option Dir)) (known : List Text),
        (scan late roots).truncated = false →
        ∀ pos : Text × ℕ, (pos, l.text) ∈ lines roots → l.Fits →
          l.scalar.value ∉ (summarize (scan late roots) known).unused ∧
          ∀ key ∈ (summarize (scan late roots) known).missing.map Prod.fst,
            key ≠ l.scalar.value → ∃ l' ∈ lines roots, l'.2 ≠ l.text ∧ key ∈ lineKeys l'.2 := by
  refine ⟨lineKeys_iff hlead, ?_⟩
  intro late roots known hscan pos hl hfits
  have hkeys : lineKeys l.text = [l.scalar.value] := (lineKeys_iff hlead).mpr hfits
  have hfound : ∀ key, key ∈ (scan late roots).refs.keys ↔
      ∃ l' ∈ lines roots, key ∈ lineKeys l'.2 :=
    fun key => (holds_scan hscan key).2.2.trans mem_positions
  constructor
  · intro hunused
    refine (mem_unused.mp hunused).2 ((hfound _).mpr ⟨_, hl, ?_⟩)
    rw [hkeys]
    exact List.mem_singleton_self _
  · intro key hkey hne
    obtain ⟨l', hl', hmem⟩ := (hfound key).mp (mem_missing.mp hkey).1
    refine ⟨l', hl', fun heq => ?_, hmem⟩
    rw [heq, hkeys, List.mem_singleton] at hmem
    exact hne hmem

/-! ## A password with a space -/

/-- `password:` -/
def passwordLead : Lead where
  indent := 0
  dashes := []
  key := some ⟨.plain, "password".toList, [], [' '], by decide, by decide, by decide⟩
  dashes_gap := by decide
  not_empty := .inr rfl

/-- `password: !secret wifi password` -/
def plainLine : RefLine where
  lead := passwordLead
  gap := [' ']
  scalar := ⟨.plain, "wifi password".toList, by decide⟩
  tail := ⟨[], none, by decide, by decide⟩
  gap_gap := by decide

/-- `password: !secret "wifi password" # router` -/
def quotedLine : RefLine where
  lead := passwordLead
  gap := [' ']
  scalar := ⟨.double, "wifi password".toList, by decide⟩
  tail := ⟨[' '], some " router".toList, by decide, by decide⟩
  gap_gap := by decide

/-- A configuration of one file with one line. -/
def configOf (l : RefLine) : List (Text × Option Dir) :=
  [("config".toList, some (.mk [] [⟨"wifi.yaml".toList, true, false, 100, some l.text⟩] []))]

theorem passwordLead_tagless : '!' ∉ passwordLead.text := by decide

theorem not_leadReads_password {l : RefLine} (h : l.lead = passwordLead) : ¬ l.LeadReads := by
  refine not_leadReads fun c _ hin => ?_
  rw [h] at hin
  exact passwordLead_tagless (hin.subset List.mem_cons_self)

theorem quotedLine_fits : quotedLine.Fits :=
  ⟨hashFree_of_not_mem (by decide), by decide, hashFree_of_not_mem (by decide)⟩

theorem usage_exact_quoted :
    lineKeys quotedLine.text = ["wifi password".toList] ∧
      "wifi password".toList ∉
        (summarize (scan (fun _ => false) (configOf quotedLine)) ["wifi password".toList]).unused :=
  ⟨(usage_exact_iff quotedLine (not_leadReads_password rfl)).1.mpr quotedLine_fits,
    ((usage_exact_iff quotedLine (not_leadReads_password rfl)).2 (fun _ => false)
      (configOf quotedLine) ["wifi password".toList] rfl ("wifi.yaml".toList, 1) (by decide)
      quotedLine_fits).1⟩

/-- The key is cut at the space: it is listed as unused, and its first word as missing. -/
theorem usage_cuts_plain :
    plainLine.scalar.value = "wifi password".toList ∧
      lineKeys plainLine.text = ["wifi".toList] ∧
      (scan (fun _ => false) (configOf plainLine)).truncated = false ∧
      (("wifi.yaml".toList, 1), plainLine.text) ∈ lines (configOf plainLine) ∧
      (summarize (scan (fun _ => false) (configOf plainLine)) ["wifi password".toList]).unused =
        ["wifi password".toList] ∧
      (summarize (scan (fun _ => false) (configOf plainLine)) ["wifi password".toList]).missing.map
        Prod.fst = ["wifi".toList] := by
  refine ⟨rfl, by decide, rfl, by decide, by decide, by decide⟩

end HaAddons.SecretsSync.Usage
