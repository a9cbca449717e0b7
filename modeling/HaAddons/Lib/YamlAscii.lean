import HaAddons.Lib.Yaml
import Mathlib.Tactic.IntervalCases

/-!
# Mappings with JSON strings in ASCII

What a YAML reader makes of lines `key: value` whose strings were written by Python's `json.dumps`
with its default escaping: a character that ASCII cannot print is written as `\u` and four digits, one
above U+FFFF as two surrogates.

* `quoted_dumps` — such a string is read as it was written if no character of it is above U+FFFF, and
  is not read otherwise.
* `load_entries` — a mapping of such lines.
-/

namespace HaAddons

namespace Yaml

/-! ## Strings -/

/-- `\u` and four hexadecimal digits. -/
def unicodeEscape (n : ℕ) : List Char :=
  ['\\', 'u', Doc.hexDigit (n / 4096), Doc.hexDigit (n / 256 % 16), Doc.hexDigit (n / 16 % 16),
    Doc.hexDigit (n % 16)]

/-- The short escapes. -/
def escapeDct : List (Char × Char) :=
  [('\\', '\\'), ('"', '"'), ('\x08', 'b'), ('\x0c', 'f'), ('\n', 'n'), ('\r', 'r'), ('\t', 't')]

/-- What `json.dumps` writes for a character. -/
def asciiChar (c : Char) : List Char :=
  match escapeDct.find? (·.1 = c) with
  | some e => ['\\', e.2]
  | none =>
    if 0x20 ≤ c.toNat ∧ c.toNat ≤ 0x7E then [c]
    else if c.toNat < 0x10000 then unicodeEscape c.toNat
    else unicodeEscape (0xD800 + (c.toNat - 0x10000) / 0x400) ++
      unicodeEscape (0xDC00 + (c.toNat - 0x10000) % 0x400)

/-- `json.dumps` of a string. -/
def dumps (s : String) : List Char := '"' :: s.toList.flatMap asciiChar ++ ['"']

/-- The characters that one escape denotes. -/
def isBasic (c : Char) : Bool := c.toNat < 0x10000

section Strings

variable {v : Version} {indent : ℕ} {p : Pending} {c : Char} {x s : List Char}

theorem hexStep (acc d : ℕ) (h : d < 16) (ds : List Char) :
    (Doc.hexDigit d :: ds).foldlM (fun n c =>
      if c.isDigit then some (n * 16 + (c.toNat - 48))
      else if 'a' ≤ c ∧ c ≤ 'f' then some (n * 16 + (c.toNat - 87))
      else if 'A' ≤ c ∧ c ≤ 'F' then some (n * 16 + (c.toNat - 55))
      else none) acc =
    ds.foldlM (fun n c =>
      if c.isDigit then some (n * 16 + (c.toNat - 48))
      else if 'a' ≤ c ∧ c ≤ 'f' then some (n * 16 + (c.toNat - 87))
      else if 'A' ≤ c ∧ c ≤ 'F' then some (n * 16 + (c.toNat - 55))
      else none) (acc * 16 + d) := by
  interval_cases d <;> rfl

theorem hexChar_digits {n : ℕ} (h : n < 0x10000) :
    Doc.hexChar [Doc.hexDigit (n / 4096), Doc.hexDigit (n / 256 % 16), Doc.hexDigit (n / 16 % 16),
      Doc.hexDigit (n % 16)] = if n.isValidChar then some (Char.ofNat n) else none := by
  have hvalue : Doc.hexValue [Doc.hexDigit (n / 4096), Doc.hexDigit (n / 256 % 16),
      Doc.hexDigit (n / 16 % 16), Doc.hexDigit (n % 16)] = some n := by
    unfold Doc.hexValue
    rw [hexStep 0 (n / 4096) (by omega), hexStep _ (n / 256 % 16) (by omega),
      hexStep _ (n / 16 % 16) (by omega), hexStep _ (n % 16) (by omega)]
    show some _ = some n
    congr 1
    omega
  rw [Doc.hexChar, hvalue]
  rfl

/-- What an escape adds, if its code is that of a character. -/
theorem quoted_unicode {n : ℕ} (h : n < 0x10000) (s : List Char) :
    quoted v indent p (unicodeEscape n ++ s) =
      if n.isValidChar then (p.flush indent).bind fun w =>
        (quoted v indent (.text []) s).map fun t => (w ++ Char.ofNat n :: t.1, t.2)
      else none := by
  show quoted v indent p ('\\' :: 'u' :: _ :: _ :: _ :: _ :: s) = _
  rw [quoted, hexChar_digits h]
  cases p.flush indent with
  | none => simp
  | some w =>
    split_ifs
    · show (quoted v indent (.text []) s).bind _ = (quoted v indent (.text []) s).map _
      cases quoted v indent (.text []) s <;> rfl
    · rfl

/-- A character is written as itself, by a short escape, by its code or by two surrogates. -/
theorem asciiChar_cases (c : Char) :
    (asciiChar c = [c] ∧ c ≠ '"' ∧ c ≠ '\\' ∧ 0x20 ≤ c.toNat ∧ c.toNat ≤ 0x7E) ∨
      (c.toNat < 0x10000 ∧ ∃ e, asciiChar c = ['\\', e] ∧ Doc.namedEscape e = some c) ∨
      (c.toNat < 0x10000 ∧ asciiChar c = unicodeEscape c.toNat) ∨
      (0x10000 ≤ c.toNat ∧ ∃ hi lo, asciiChar c = unicodeEscape hi ++ unicodeEscape lo ∧
        hi < 0x10000 ∧ ¬ hi.isValidChar) := by
  unfold asciiChar
  cases hfind : escapeDct.find? (·.1 = c) with
  | some e =>
    have hall : (escapeDct.all fun e => Doc.namedEscape e.2 = some e.1 && e.1.toNat < 0x10000) =
        true := by
      decide
    have he := List.all_eq_true.mp hall e (List.mem_of_find?_eq_some hfind)
    have hc : e.1 = c := by simpa using List.find?_some hfind
    simp only [Bool.and_eq_true, decide_eq_true_eq, hc] at he
    exact .inr (.inl ⟨he.2, e.2, rfl, he.1⟩)
  | none =>
    have hne : ∀ e ∈ escapeDct, e.1 ≠ c := by simpa using List.find?_eq_none.mp hfind
    dsimp only
    split_ifs with hprint hbasic
    · exact .inl ⟨rfl, (hne ('"', '"') (by decide)).symm, (hne ('\\', '\\') (by decide)).symm,
        hprint.1, hprint.2⟩
    · exact .inr (.inr (.inl ⟨hbasic, rfl⟩))
    · have hmax : c.toNat < 0x110000 := by
        cases c.valid with
        | inl h => exact lt_trans h (by decide)
        | inr h => exact h.2
      refine .inr (.inr (.inr ⟨not_lt.mp hbasic, _, _, rfl, by omega, ?_⟩))
      unfold Nat.isValidChar
      omega

theorem isBreak_of_printable (hle : 0x20 ≤ c.toNat) (hge : c.toNat ≤ 0x7E) : isBreak v c = false := by
  have hline : c ≠ '\n' := by
    rintro rfl
    exact absurd hle (by decide)
  have hwide : c ∉ wideBreaks := by
    intro hmem
    simp only [wideBreaks, List.mem_cons, List.not_mem_nil, or_false] at hmem
    rcases hmem with rfl | rfl | rfl <;> exact absurd hge (by decide)
  simp [isBreak, hline, hwide]

/-- The characters that ASCII can print. -/
def IsPrintable (c : Char) : Prop := 0x20 ≤ c.toNat ∧ c.toNat ≤ 0x7E

theorem IsPrintable.admits (h : IsPrintable c) : admits v c = true ∧ c ≠ '\r' := by
  refine ⟨?_, ?_⟩
  · cases v <;> simp [Yaml.admits, h.1, h.2]
  · rintro rfl
    exact absurd h.1 (by decide)

theorem isPrintable_hexDigit (n : ℕ) : IsPrintable (Doc.hexDigit n) := by
  by_cases hn : n < 16
  · interval_cases n <;> exact ⟨by decide, by decide⟩
  · have hdigit : Doc.hexDigit n = '0' := by
      rw [Doc.hexDigit, List.getD_eq_getElem?_getD,
        List.getElem?_eq_none (by simpa using Nat.not_lt.mp hn)]
      rfl
    rw [hdigit]
    exact ⟨by decide, by decide⟩

theorem isPrintable_unicodeEscape (n : ℕ) : ∀ d ∈ unicodeEscape n, IsPrintable d := by
  have hslash : IsPrintable '\\' := ⟨by decide, by decide⟩
  have hu : IsPrintable 'u' := ⟨by decide, by decide⟩
  simp only [unicodeEscape, List.forall_mem_cons, List.not_mem_nil, false_imp_iff, implies_true,
    isPrintable_hexDigit, hslash, hu, and_self]

theorem isPrintable_asciiChar (c : Char) : ∀ d ∈ asciiChar c, IsPrintable d := by
  unfold asciiChar
  split
  · rename_i e hfind
    have hall : (escapeDct.all fun e => 0x20 ≤ e.2.toNat && e.2.toNat ≤ 0x7E) = true := by decide
    have he := List.all_eq_true.mp hall e (List.mem_of_find?_eq_some hfind)
    simp only [Bool.and_eq_true, decide_eq_true_eq] at he
    simp only [List.forall_mem_cons, List.not_mem_nil, false_imp_iff, implies_true, and_true]
    exact ⟨⟨by decide, by decide⟩, he⟩
  · split_ifs with hprint
    · intro d hd
      rw [List.mem_singleton.mp hd]
      exact hprint
    · exact isPrintable_unicodeEscape _
    · intro d hd
      exact (List.mem_append.mp hd).elim (isPrintable_unicodeEscape _ d)
        (isPrintable_unicodeEscape _ d)

theorem isPrintable_dumps (x : String) : ∀ c ∈ dumps x, IsPrintable c := by
  intro c hc
  have hquote : IsPrintable '"' := ⟨by decide, by decide⟩
  simp only [dumps, List.cons_append, List.mem_cons, List.mem_append, List.mem_flatMap,
    List.not_mem_nil, or_false] at hc
  rcases hc with rfl | ⟨d, -, hd⟩ | rfl
  · exact hquote
  · exact isPrintable_asciiChar d c hd
  · exact hquote

/-- **How such a string is read.** -/
theorem quoted_asciiChars (white x s : List Char) :
    quoted v indent (.text white) (x.flatMap asciiChar ++ '"' :: s) =
      if x.all isBasic then some (white ++ x, s) else none := by
  induction x generalizing white with
  | nil => simp [quoted, Pending.flush]
  | cons c x ih =>
    rw [List.flatMap_cons, List.append_assoc, List.all_cons]
    rcases asciiChar_cases c with ⟨hc, hquote, hslash, hle, hge⟩ | ⟨hbasic, e, hc, he⟩ |
      ⟨hbasic, hc⟩ | ⟨hwide, hi, lo, hc, hlt, hinvalid⟩
    · have hbasic : isBasic c = true := by
        simp only [isBasic, decide_eq_true_eq]
        omega
      rw [hc, List.singleton_append, quoted_plain hquote hslash, Pending.step,
        if_neg (by rw [isBreak_of_printable hle hge]; simp), hbasic, Bool.true_and]
      split_ifs with hwhite hall
      · rw [Option.bind_some, ih, if_pos hall]
        simp
      · rw [Option.bind_some, ih, if_neg hall]
        rfl
      · rw [Option.bind_some, ih, if_pos ‹_›]
        simp
      · rw [Option.bind_some, ih, if_neg ‹_›]
        rfl
    · have hbasic : isBasic c = true := by simpa [isBasic] using hbasic
      rw [hc, List.cons_append, List.singleton_append, quoted_named he, ih, hbasic, Bool.true_and]
      split_ifs
      · simp [Pending.flush]
      · rfl
    · have hvalid : c.toNat.isValidChar := c.valid
      have hbasic' : isBasic c = true := by simpa [isBasic] using hbasic
      rw [hc, quoted_unicode hbasic, if_pos hvalid, ih, hbasic', Bool.true_and, Char.ofNat_toNat]
      split_ifs
      · simp [Pending.flush]
      · rfl
    · have hbasic : isBasic c = false := by simpa [isBasic] using hwide
      rw [hc, List.append_assoc, quoted_unicode hlt, if_neg hinvalid, hbasic]
      simp

/-- **Strings.** -/
theorem scalar_dumps (x : String) (s : List Char) :
    scalar v indent (dumps x ++ s) =
      if x.toList.all isBasic then some (.str x, s) else none := by
  have htext : dumps x ++ s = '"' :: (x.toList.flatMap asciiChar ++ '"' :: s) := by
    simp [dumps]
  rw [htext]
  show (quoted v indent (.text []) _).map _ = _
  rw [quoted_asciiChars]
  split_ifs
  · simp
  · rfl

end Strings

/-! ## Lines -/

/-- A line of a mapping at the left margin. -/
def entryLine (e : String × List Char) : List Char := e.1.toList ++ ':' :: ' ' :: (e.2 ++ ['\n'])

/-- A plain key that is read as a string and does not begin a sequence. -/
structure LineKey (v : Version) (key : String) : Prop where
  word : key.toList.all isWordChar = true
  resolves : resolve v key.toList = some (.str key)
  starts : key.toList ≠ [] ∧ key.toList.head? ≠ some '-'

section Lines

variable {v : Version} {raw : Doc → List Char} {ok : Doc → Bool} {k : String}
  {es : List (String × Doc)}

/-- A value that is read as it is, or not at all. -/
def ReadsLine (v : Version) (raw : Doc → List Char) (ok : Doc → Bool) (d : Doc) : Prop :=
  ∀ s, scalar v 1 (raw d ++ '\n' :: s) = if ok d then some (d, '\n' :: s) else none

theorem key_line (hk : LineKey v k) (s : List Char) : key v (k.toList ++ ':' :: s) = some (k, s) := by
  have hall := List.all_eq_true.mp hk.word
  have hcolon : isWordChar ':' = false := rfl
  unfold key
  rw [List.takeWhile_append_of_pos hall, List.dropWhile_append_of_pos hall,
    List.takeWhile_cons_of_neg (by simp [hcolon]), List.dropWhile_cons_of_neg (by simp [hcolon]),
    List.append_nil, hk.resolves]
  rfl

theorem lineKey_head (hk : LineKey v k) : ∃ c t, k.toList = c :: t ∧ c ≠ ' ' ∧ c ≠ '-' := by
  obtain ⟨c, t, ht⟩ := List.exists_cons_of_ne_nil hk.starts.1
  have hword : isWordChar c = true := List.all_eq_true.mp hk.word c (ht ▸ List.mem_cons_self)
  refine ⟨c, t, ht, ?_, ?_⟩
  · rintro rfl
    cases hword
  · rintro rfl
    exact hk.starts.2 (by rw [ht]; rfl)

theorem lineEnd_newline_cons (s : List Char) : lineEnd v ('\n' :: s) = some s := by
  cases v <;> rfl

/-- What follows the colon. -/
theorem entry_line {d : Doc} (hd : ReadsLine v raw ok d) (n : ℕ) (s : List Char) :
    entry v (n + 1) 0 (' ' :: (raw d ++ '\n' :: s)) = if ok d then some (d, s) else none := by
  rw [entry, hd s]
  split_ifs
  · simp only [bind, Option.bind_some, lineEnd_newline_cons]
  · rfl

theorem flatMap_line (e : String × Doc) (es : List (String × Doc)) :
    (e :: es).flatMap (fun e => entryLine (e.1, raw e.2)) =
      e.1.toList ++ ':' :: ' ' :: (raw e.2 ++ '\n' ::
        es.flatMap fun e => entryLine (e.1, raw e.2)) := by
  simp [entryLine]

theorem mapping_lines (hes : ∀ e ∈ es, LineKey v e.1 ∧ ReadsLine v raw ok e.2) {n : ℕ}
    (hn : es.length + 1 < n) :
    mapping v n 0 (es.flatMap fun e => entryLine (e.1, raw e.2)) =
      if es.all (fun e => ok e.2) then some (es, []) else none := by
  induction es generalizing n with
  | nil =>
    obtain ⟨n, rfl⟩ : ∃ m, n = m + 1 := ⟨n - 1, by omega⟩
    simp [mapping, ends]
  | cons e es ih =>
    obtain ⟨n, rfl⟩ : ∃ m, n = m + 2 := ⟨n - 2, by omega⟩
    obtain ⟨⟨hkey, hread⟩, hrest⟩ := List.forall_mem_cons.mp hes
    obtain ⟨c, t, ht, hspace, -⟩ := lineKey_head hkey
    have hends : ends 0 ((e :: es).flatMap fun e => entryLine (e.1, raw e.2)) = false := by
      rw [flatMap_line, ht]
      simp [ends]
    have hindent : indentation ((e :: es).flatMap fun e => entryLine (e.1, raw e.2)) = 0 := by
      rw [flatMap_line, ht]
      simp [indentation, hspace]
    rw [mapping, hends, if_neg (by simp), hindent, if_pos rfl, List.drop_zero, flatMap_line,
      key_line hkey]
    simp only [bind, Option.bind_some]
    rw [entry_line hread, List.all_cons]
    by_cases hok : ok e.2 = true
    · rw [if_pos hok, Option.bind_some, ih hrest (by simp only [List.length_cons] at hn; omega), hok,
        Bool.true_and]
      split_ifs
      · rfl
      · rfl
    · simp [hok]

theorem admits_entryLine {value : List Char} (hk : LineKey v k)
    (hvalue : ∀ c ∈ value, IsPrintable c) :
    ∀ c ∈ entryLine (k, value), admits v c = true ∧ c ≠ '\r' := by
  intro c hc
  have hcolon : IsPrintable ':' := ⟨by decide, by decide⟩
  have hspace : IsPrintable ' ' := ⟨by decide, by decide⟩
  simp only [entryLine, List.mem_append, List.mem_cons, List.not_mem_nil, or_false] at hc
  rcases hc with hc | rfl | rfl | hc | rfl
  · obtain ⟨hle, hge⟩ := wordChar_range (List.all_eq_true.mp hk.word c hc)
    exact IsPrintable.admits ⟨by omega, by omega⟩
  · exact hcolon.admits
  · exact hspace.admits
  · exact (hvalue c hc).admits
  · exact ⟨by cases v <;> rfl, by decide⟩

/-- **A mapping of lines.** -/
theorem load_entries {e : String × Doc}
    (hes : ∀ e' ∈ e :: es, LineKey v e'.1 ∧ ReadsLine v raw ok e'.2)
    (hraw : ∀ e' ∈ e :: es, ∀ c ∈ raw e'.2, IsPrintable c) :
    load v ((e :: es).flatMap fun e => entryLine (e.1, raw e.2)) =
      if (e :: es).all (fun e => ok e.2) then some (.dict (e :: es)) else none := by
  have hchars : ∀ c ∈ (e :: es).flatMap (fun e => entryLine (e.1, raw e.2)),
      admits v c = true ∧ c ≠ '\r' := by
    intro c hc
    obtain ⟨e', he', hc⟩ := List.mem_flatMap.mp hc
    exact admits_entryLine (hes e' he').1 (hraw e' he') c hc
  obtain ⟨⟨hkey, hread⟩, hrest⟩ := List.forall_mem_cons.mp hes
  have hreturn : '\r' ∉ (e :: es).flatMap fun e => entryLine (e.1, raw e.2) :=
    fun hmem => (hchars _ hmem).2 rfl
  have hlong : ∀ es : List (String × Doc), 3 * es.length ≤
      (es.flatMap fun e => entryLine (e.1, raw e.2)).length := by
    intro es
    induction es with
    | nil => simp
    | cons e es ih =>
      rw [flatMap_line]
      simp only [List.length_append, List.length_cons]
      omega
  unfold load
  rw [if_pos (List.all_eq_true.mpr fun c hc => (hchars c hc).1), normalize_of_not_mem hreturn]
  obtain ⟨c, t, ht, hspace, hdash⟩ := lineKey_head hkey
  have hlen := hlong (e :: es)
  rw [List.length_cons] at hlen
  obtain ⟨n, hn⟩ : ∃ n, ((e :: es).flatMap fun e => entryLine (e.1, raw e.2)).length = n + 1 :=
    Nat.exists_eq_succ_of_ne_zero (by omega)
  rw [hn] at hlen
  dsimp only
  rw [hn, flatMap_line, node, key_line hkey]
  · simp only [bind]
    rw [entry_line hread, List.all_cons]
    by_cases hok : ok e.2 = true
    · rw [if_pos hok, Option.bind_some, mapping_lines hrest (by omega), hok, Bool.true_and]
      split_ifs
      · rfl
      · rfl
    · simp [hok]
  · rw [ht]
    exact fun _ heq => hdash (List.cons.inj heq).1

end Lines

end Yaml

end HaAddons
