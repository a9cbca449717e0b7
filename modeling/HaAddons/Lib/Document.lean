import Mathlib.Data.List.Basic
import Mathlib.Data.List.DropRight
import Mathlib.Data.Int.Basic

/-!
# Documents and their JSON text

The values of Python's `json` module, without floats. `dumps` is `json.dumps` with `indent=2` and
without `ensure_ascii`; `loads` reads what it writes. Of the JSON that it could be given, `loads` leaves
out floats and surrogate escapes, and it keeps the entries of an object in their order.

* `loads_dumps` — a document is read back.
-/

namespace HaAddons

inductive Doc where
  | null
  | bool (b : Bool)
  | int (n : ℤ)
  | str (s : String)
  | list (items : List Doc)
  | dict (entries : List (String × Doc))

namespace Doc

/-- Induction over a document, with the claim for the members of a container. -/
theorem members_induction {P : Doc → Prop} (hnull : P null) (hbool : ∀ b, P (bool b))
    (hint : ∀ n, P (int n)) (hstr : ∀ s, P (str s))
    (hlist : ∀ items, (∀ d ∈ items, P d) → P (list items))
    (hdict : ∀ entries : List (String × Doc), (∀ e ∈ entries, P e.2) → P (dict entries)) (d : Doc) :
    P d := by
  match d with
  | .null => exact hnull
  | .bool b => exact hbool b
  | .int n => exact hint n
  | .str s => exact hstr s
  | .list items =>
    refine hlist items fun d hd => ?_
    have hsize := List.sizeOf_lt_of_mem hd
    exact members_induction hnull hbool hint hstr hlist hdict d
  | .dict entries =>
    refine hdict entries fun e he => ?_
    have hsize := List.sizeOf_lt_of_mem he
    have hpair : sizeOf e = 1 + sizeOf e.1 + sizeOf e.2 := rfl
    exact members_induction hnull hbool hint hstr hlist hdict e.2
termination_by sizeOf d
decreasing_by
  all_goals
    simp only [list.sizeOf_spec, dict.sizeOf_spec]
    omega

/-! ## What a document holds -/

mutual

/-- The strings of a document, without its keys. -/
def strings : Doc → List String
  | str s => [s]
  | list items => itemStrings items
  | dict entries => entryStrings entries
  | _ => []

def itemStrings : List Doc → List String
  | [] => []
  | item :: items => strings item ++ itemStrings items

def entryStrings : List (String × Doc) → List String
  | [] => []
  | (_, item) :: entries => strings item ++ entryStrings entries

end

mutual

/-- The keys of a document. -/
def keys : Doc → List String
  | list items => itemKeys items
  | dict entries => entryKeys entries
  | _ => []

def itemKeys : List Doc → List String
  | [] => []
  | item :: items => keys item ++ itemKeys items

def entryKeys : List (String × Doc) → List String
  | [] => []
  | (key, item) :: entries => key :: keys item ++ entryKeys entries

end

theorem mem_itemStrings {items : List Doc} {s : String} :
    s ∈ itemStrings items ↔ ∃ d ∈ items, s ∈ strings d := by
  induction items with
  | nil => simp [itemStrings]
  | cons item items ih => simp [itemStrings, ih]

theorem mem_entryStrings {entries : List (String × Doc)} {s : String} :
    s ∈ entryStrings entries ↔ ∃ e ∈ entries, s ∈ strings e.2 := by
  induction entries with
  | nil => simp [entryStrings]
  | cons e entries ih => simp [entryStrings, ih]

theorem mem_itemKeys {items : List Doc} {k : String} :
    k ∈ itemKeys items ↔ ∃ d ∈ items, k ∈ keys d := by
  induction items with
  | nil => simp [itemKeys]
  | cons item items ih => simp [itemKeys, ih]

theorem mem_entryKeys {entries : List (String × Doc)} {k : String} :
    k ∈ entryKeys entries ↔ ∃ e ∈ entries, k = e.1 ∨ k ∈ keys e.2 := by
  induction entries with
  | nil => simp [entryKeys]
  | cons e entries ih => simp [entryKeys, ih, or_assoc]

/-! ## Numbers -/

/-- `str(n)` -/
def decimal (n : ℤ) : List Char := (if n < 0 then ['-'] else []) ++ Nat.toDigits 10 n.natAbs

/-- Digits without a leading zero. -/
def readNat (s : List Char) : Option (ℕ × List Char) :=
  let digits := s.takeWhile Char.isDigit
  if digits = [] ∨ digits.head? = some '0' ∧ digits ≠ ['0'] then none
  else some (Nat.ofDigitChars 10 digits 0, s.dropWhile Char.isDigit)

def readInt : List Char → Option (ℤ × List Char)
  | '-' :: s => (readNat s).map fun r => (-r.1, r.2)
  | s => (readNat s).map fun r => (r.1, r.2)

/-- What follows is no part of a number. -/
def NoDigit (s : List Char) : Prop := ∀ c ∈ s.head?, c.isDigit = false

theorem toDigits_of_head? {n : ℕ} (h : (Nat.toDigits 10 n).head? = some '0') :
    Nat.toDigits 10 n = ['0'] := by
  induction n using Nat.strong_induction_on with
  | _ n ih =>
    rw [Nat.toDigits_eq_if (by decide)] at h ⊢
    split_ifs at h ⊢ with hn
    · exact congrArg (fun c => [c]) (Option.some.inj h)
    · rw [List.head?_append_of_ne_nil _ Nat.toDigits_ne_nil] at h
      have hzero := ih (n / 10) (by omega) h
      have hdiv : n / 10 = 0 := by
        rw [← Nat.ofDigitChars_ten_toDigits (n := n / 10), hzero]
        rfl
      omega

theorem readNat_toDigits (n : ℕ) {s : List Char} (hs : NoDigit s) :
    readNat (Nat.toDigits 10 n ++ s) = some (n, s) := by
  have hdigits : ∀ c ∈ Nat.toDigits 10 n, c.isDigit = true := fun c hc =>
    Nat.isDigit_of_mem_toDigits (by decide) (by decide) hc
  have hrest : s.takeWhile Char.isDigit = [] ∧ s.dropWhile Char.isDigit = s := by
    cases s with
    | nil => exact ⟨rfl, rfl⟩
    | cons c s =>
      have hc : c.isDigit = false := hs c rfl
      simp [hc]
  have htake : (Nat.toDigits 10 n ++ s).takeWhile Char.isDigit = Nat.toDigits 10 n := by
    rw [List.takeWhile_append_of_pos hdigits, hrest.1, List.append_nil]
  have hdrop : (Nat.toDigits 10 n ++ s).dropWhile Char.isDigit = s := by
    rw [List.dropWhile_append_of_pos hdigits, hrest.2]
  unfold readNat
  rw [htake, hdrop, if_neg]
  · rw [Nat.ofDigitChars_ten_toDigits]
  · rintro (hnil | ⟨hzero, hne⟩)
    · exact Nat.toDigits_ne_nil hnil
    · exact hne (toDigits_of_head? hzero)

theorem exists_toDigits (n : ℕ) : ∃ c t, Nat.toDigits 10 n = c :: t ∧ c.isDigit = true := by
  cases h : Nat.toDigits 10 n with
  | nil => exact absurd h Nat.toDigits_ne_nil
  | cons c t =>
    exact ⟨c, t, rfl, Nat.isDigit_of_mem_toDigits (by decide) (by decide) (h ▸ List.mem_cons_self)⟩

/-- The first character of a number. -/
theorem exists_decimal (n : ℤ) : ∃ c t, decimal n = c :: t ∧ (c = '-' ∨ c.isDigit = true) := by
  unfold decimal
  by_cases hn : n < 0
  · exact ⟨'-', _, by rw [if_pos hn]; rfl, .inl rfl⟩
  · obtain ⟨c, t, ht, hc⟩ := exists_toDigits n.natAbs
    exact ⟨c, t, by rw [if_neg hn]; exact ht, .inr hc⟩

theorem readInt_decimal (n : ℤ) {s : List Char} (hs : NoDigit s) :
    readInt (decimal n ++ s) = some (n, s) := by
  unfold decimal
  by_cases hn : n < 0
  · rw [if_pos hn]
    show (readNat (Nat.toDigits 10 n.natAbs ++ s)).map _ = _
    rw [readNat_toDigits _ hs]
    show some (-(n.natAbs : ℤ), s) = some (n, s)
    rw [Int.ofNat_natAbs_of_nonpos (Int.le_of_lt hn), Int.neg_neg]
  · obtain ⟨c, t, ht, hc⟩ := exists_toDigits n.natAbs
    have hne : c ≠ '-' := by
      rintro rfl
      exact absurd hc (by decide)
    have hread := readNat_toDigits n.natAbs hs
    rw [if_neg hn, List.nil_append]
    rw [ht, List.cons_append] at hread ⊢
    unfold readInt
    split
    · rename_i heq
      exact absurd (List.cons.inj heq).1 hne
    · rw [hread]
      show some ((n.natAbs : ℤ), s) = some (n, s)
      rw [Int.natAbs_of_nonneg (Int.not_lt.mp hn)]

/-! ## Strings -/

def hexDigit (n : ℕ) : Char := (['0', '1', '2', '3', '4', '5', '6', '7', '8', '9', 'a', 'b', 'c', 'd',
  'e', 'f'] : List Char).getD n '0'

/-- What stands for a character in a string. -/
def escapeChar (c : Char) : List Char :=
  if c = '"' then ['\\', '"']
  else if c = '\\' then ['\\', '\\']
  else if c = '\n' then ['\\', 'n']
  else if c = '\r' then ['\\', 'r']
  else if c = '\t' then ['\\', 't']
  else if c = '\x0c' then ['\\', 'f']
  else if c = '\x08' then ['\\', 'b']
  else if c.toNat < 0x20 then ['\\', 'u', '0', '0', hexDigit (c.toNat / 16), hexDigit (c.toNat % 16)]
  else [c]

def escape (s : List Char) : List Char := s.flatMap escapeChar

def quote (s : String) : List Char := '"' :: escape s.toList ++ ['"']

/-- The value of some hexadecimal digits. -/
def hexValue (digits : List Char) : Option ℕ :=
  digits.foldlM (fun n c =>
    if c.isDigit then some (n * 16 + (c.toNat - 48))
    else if 'a' ≤ c ∧ c ≤ 'f' then some (n * 16 + (c.toNat - 87))
    else if 'A' ≤ c ∧ c ≤ 'F' then some (n * 16 + (c.toNat - 55))
    else none) 0

/-- The character with a code, if it is one. -/
def hexChar (digits : List Char) : Option Char :=
  (hexValue digits).bind fun n => if n.isValidChar then some (Char.ofNat n) else none

/-- What stands for itself. -/
def Plain (c : Char) : Bool := escapeChar c = [c]

/-- The character that a short escape names. -/
def namedEscape : Char → Option Char
  | '"' => some '"'
  | '\\' => some '\\'
  | '/' => some '/'
  | 'b' => some '\x08'
  | 'f' => some '\x0c'
  | 'n' => some '\n'
  | 'r' => some '\r'
  | 't' => some '\t'
  | _ => none

theorem hexChar_hexDigit (c : Char) (h : c.toNat < 0x20) :
    hexChar ['0', '0', hexDigit (c.toNat / 16), hexDigit (c.toNat % 16)] = some c := by
  have hall : ∀ n < 0x20, hexChar ['0', '0', hexDigit (n / 16), hexDigit (n % 16)] =
      some (Char.ofNat n) := by decide
  rw [hall c.toNat h, Char.ofNat_toNat]

/-- A character is written as itself, by a short escape or by its code. -/
theorem escapeChar_cases (c : Char) :
    (escapeChar c = [c] ∧ c ≠ '"' ∧ c ≠ '\\' ∧ 0x20 ≤ c.toNat) ∨
      (∃ e, escapeChar c = ['\\', e] ∧ namedEscape e = some c) ∨
      ∃ x y, escapeChar c = ['\\', 'u', '0', '0', x, y] ∧ hexChar ['0', '0', x, y] = some c := by
  unfold escapeChar
  split_ifs with h1 h2 h3 h4 h5 h6 h7 h8
  · exact .inr (.inl ⟨'"', rfl, by rw [h1]; rfl⟩)
  · exact .inr (.inl ⟨'\\', rfl, by rw [h2]; rfl⟩)
  · exact .inr (.inl ⟨'n', rfl, by rw [h3]; rfl⟩)
  · exact .inr (.inl ⟨'r', rfl, by rw [h4]; rfl⟩)
  · exact .inr (.inl ⟨'t', rfl, by rw [h5]; rfl⟩)
  · exact .inr (.inl ⟨'f', rfl, by rw [h6]; rfl⟩)
  · exact .inr (.inl ⟨'b', rfl, by rw [h7]; rfl⟩)
  · exact .inr (.inr ⟨_, _, rfl, hexChar_hexDigit c h8⟩)
  · exact .inl ⟨rfl, h1, h2, Nat.not_lt.mp h8⟩

/-- What follows the opening quote of a string, up to its end. -/
def readString : List Char → Option (List Char × List Char)
  | [] => none
  | '"' :: s => some ([], s)
  | '\\' :: 'u' :: a :: b :: c :: d :: s => do
    let ch ← hexChar [a, b, c, d]
    let r ← readString s
    some (ch :: r.1, r.2)
  | '\\' :: e :: s => do
    let ch ← namedEscape e
    let r ← readString s
    some (ch :: r.1, r.2)
  | c :: s => do
    let r ← if c.toNat < 0x20 then none else readString s
    some (c :: r.1, r.2)

theorem readString_plain {c : Char} (hquote : c ≠ '"') (hslash : c ≠ '\\') (hle : 0x20 ≤ c.toNat)
    (s : List Char) :
    readString (c :: s) = (readString s).map fun r => (c :: r.1, r.2) := by
  rw [readString.eq_5 c s hquote (by rintro _ _ _ _ _ rfl; exact absurd rfl hslash)
    (by rintro _ _ rfl; exact absurd rfl hslash), if_neg (Nat.not_lt.mpr hle)]
  cases readString s <;> rfl

theorem readString_named {c e : Char} (he : namedEscape e = some c) (s : List Char) :
    readString ('\\' :: e :: s) = (readString s).map fun r => (c :: r.1, r.2) := by
  have hne : e ≠ 'u' := by
    rintro rfl
    cases he
  rw [readString.eq_4 e s (by rintro _ _ _ _ _ rfl; exact absurd rfl hne), he]
  cases readString s <;> rfl

theorem readString_escape (x s : List Char) : readString (escape x ++ '"' :: s) = some (x, s) := by
  induction x with
  | nil => simp [escape, readString]
  | cons c x ih =>
    have hcons : escape (c :: x) ++ '"' :: s = escapeChar c ++ (escape x ++ '"' :: s) := by
      simp [escape]
    rw [hcons]
    rcases escapeChar_cases c with ⟨hc, hquote, hslash, hle⟩ | ⟨e, hc, he⟩ | ⟨a, b, hc, hhex⟩
    · rw [hc, List.singleton_append, readString_plain hquote hslash hle, ih]
      rfl
    · show readString (escapeChar c ++ _) = _
      rw [hc, List.cons_append, List.singleton_append, readString_named he, ih]
      rfl
    · rw [hc]
      show readString ('\\' :: 'u' :: '0' :: '0' :: a :: b :: (escape x ++ '"' :: s)) = _
      simp only [readString, hhex, ih]
      rfl

/-! ## The text of a document -/

def newline (k : ℕ) : List Char := '\n' :: List.replicate (2 * k) ' '

mutual

/-- `json.dumps` with `indent=2`, at an indentation. -/
def dumps (k : ℕ) : Doc → List Char
  | null => "null".toList
  | bool true => "true".toList
  | bool false => "false".toList
  | int n => decimal n
  | str s => quote s
  | list [] => "[]".toList
  | list items => '[' :: dumpItems (k + 1) items ++ newline k ++ [']']
  | dict [] => "\x7b\x7d".toList
  | dict entries => '{' :: dumpEntries (k + 1) entries ++ newline k ++ ['}']

def dumpItems (k : ℕ) : List Doc → List Char
  | [] => []
  | [item] => newline k ++ dumps k item
  | item :: items => newline k ++ dumps k item ++ ',' :: dumpItems k items

def dumpEntries (k : ℕ) : List (String × Doc) → List Char
  | [] => []
  | [(key, item)] => newline k ++ quote key ++ ':' :: ' ' :: dumps k item
  | (key, item) :: entries =>
    newline k ++ quote key ++ ':' :: ' ' :: dumps k item ++ ',' :: dumpEntries k entries

end

/-! ## Reading it -/

def isWhite (c : Char) : Bool := c = ' ' || c = '\n' || c = '\r' || c = '\t'

def skipWhite (s : List Char) : List Char := s.dropWhile isWhite

def readWord : List Char → Option (Doc × List Char)
  | 'n' :: 'u' :: 'l' :: 'l' :: s => some (null, s)
  | 't' :: 'r' :: 'u' :: 'e' :: s => some (bool true, s)
  | 'f' :: 'a' :: 'l' :: 's' :: 'e' :: s => some (bool false, s)
  | s => (readInt s).map fun r => (int r.1, r.2)

mutual

/-- A value. The first argument bounds the depth and the length of what is read. -/
def readDoc : ℕ → List Char → Option (Doc × List Char)
  | 0, _ => none
  | n + 1, s =>
    match skipWhite s with
    | '"' :: s => (readString s).map fun r => (str (String.ofList r.1), r.2)
    | '[' :: s =>
      match skipWhite s with
      | ']' :: s => some (list [], s)
      | s => (readItems n s).map fun r => (list r.1, r.2)
    | '{' :: s =>
      match skipWhite s with
      | '}' :: s => some (dict [], s)
      | s => (readEntries n s).map fun r => (dict r.1, r.2)
    | s => readWord s

def readItems : ℕ → List Char → Option (List Doc × List Char)
  | 0, _ => none
  | n + 1, s => do
    let (item, s) ← readDoc n s
    match skipWhite s with
    | ',' :: s =>
      let (items, s) ← readItems n s
      some (item :: items, s)
    | ']' :: s => some ([item], s)
    | _ => none

def readEntries : ℕ → List Char → Option (List (String × Doc) × List Char)
  | 0, _ => none
  | n + 1, s => do
    match skipWhite s with
    | '"' :: s =>
      let (key, s) ← readString s
      match skipWhite s with
      | ':' :: s =>
        let (item, s) ← readDoc n s
        match skipWhite s with
        | ',' :: s =>
          let (entries, s) ← readEntries n s
          some ((String.ofList key, item) :: entries, s)
        | '}' :: s => some ([(String.ofList key, item)], s)
        | _ => none
      | _ => none
    | _ => none

end

/-- `json.loads` -/
def loads (s : List Char) : Option Doc := do
  let (doc, s) ← readDoc (s.length + 1) s
  if skipWhite s = [] then some doc else none

/-! ## The round trip -/

section Reading

variable {k n : ℕ} {s t : List Char}

theorem skipWhite_cons {c : Char} (hc : isWhite c = false) : skipWhite (c :: s) = c :: s := by
  simp [skipWhite, hc]

theorem skipWhite_newline (k : ℕ) (s : List Char) : skipWhite (newline k ++ s) = skipWhite s := by
  have hwhite : ∀ c ∈ newline k, isWhite c = true := by
    intro c hc
    rcases List.mem_cons.mp hc with rfl | hc
    · rfl
    · rw [List.eq_of_mem_replicate hc]
      rfl
  exact List.dropWhile_append_of_pos hwhite

theorem skipWhite_skipWhite (s : List Char) : skipWhite (skipWhite s) = skipWhite s :=
  List.dropWhile_idempotent _ s

theorem readDoc_skipWhite (n : ℕ) (s : List Char) : readDoc n (skipWhite s) = readDoc n s := by
  cases n with
  | zero => rfl
  | succ n => rw [readDoc, readDoc, skipWhite_skipWhite]

theorem readItems_skipWhite (n : ℕ) (s : List Char) : readItems n (skipWhite s) = readItems n s := by
  cases n with
  | zero => rfl
  | succ n => rw [readItems, readItems, readDoc_skipWhite]

theorem readEntries_skipWhite (n : ℕ) (s : List Char) :
    readEntries n (skipWhite s) = readEntries n s := by
  cases n with
  | zero => rfl
  | succ n => rw [readEntries, readEntries, skipWhite_skipWhite]

theorem not_mem_of_numeric {c : Char} {cs : List Char} (hc : c = '-' ∨ c.isDigit = true)
    (hcs : (cs.all fun d => d ≠ '-' && !d.isDigit) = true) : c ∉ cs := by
  intro hmem
  have := List.all_eq_true.mp hcs c hmem
  rcases hc with rfl | hc
  · exact absurd this (by decide)
  · simp [hc] at this

theorem head_of_decimal {c : Char} (hc : c = '-' ∨ c.isDigit = true) :
    isWhite c = false ∧ c ≠ ']' ∧ c ≠ '}' := by
  have hne : c ∉ [' ', '\n', '\r', '\t', ']', '}'] := not_mem_of_numeric hc rfl
  simp only [List.mem_cons, not_or] at hne
  obtain ⟨h1, h2, h3, h4, h5, h6, -⟩ := hne
  exact ⟨by simp [isWhite, h1, h2, h3, h4], h5, h6⟩

/-- The first character of a document's text. -/
theorem exists_dumps (k : ℕ) (d : Doc) : ∃ c t, dumps k d = c :: t ∧ isWhite c = false ∧
    c ≠ ']' ∧ c ≠ '}' := by
  cases d with
  | null => exact ⟨'n', _, rfl, by decide⟩
  | bool b =>
    cases b with
    | false => exact ⟨'f', _, rfl, by decide⟩
    | true => exact ⟨'t', _, rfl, by decide⟩
  | int m =>
    obtain ⟨c, t, ht, hc⟩ := exists_decimal m
    exact ⟨c, t, by rw [dumps]; exact ht, head_of_decimal hc⟩
  | str x => exact ⟨'"', _, rfl, by decide⟩
  | list items =>
    cases items with
    | nil => exact ⟨'[', _, rfl, by decide⟩
    | cons item items => exact ⟨'[', _, rfl, by decide⟩
  | dict entries =>
    cases entries with
    | nil => exact ⟨'{', _, rfl, by decide⟩
    | cons e entries => exact ⟨'{', _, rfl, by decide⟩

theorem skipWhite_dumps (k : ℕ) (d : Doc) (s : List Char) :
    skipWhite (dumps k d ++ s) = dumps k d ++ s := by
  obtain ⟨c, t, ht, hc, -⟩ := exists_dumps k d
  rw [ht]
  exact skipWhite_cons hc

theorem readDoc_decimal (m : ℤ) (hs : NoDigit s) :
    readDoc (n + 1) (decimal m ++ s) = some (int m, s) := by
  obtain ⟨c, t, ht, hc⟩ := exists_decimal m
  have hread := readInt_decimal m hs
  rw [ht] at hread ⊢
  have hne : c ∉ ['"', '[', '{', 'n', 't', 'f'] := not_mem_of_numeric hc rfl
  simp only [List.mem_cons, not_or] at hne
  obtain ⟨h1, h2, h3, h4, h5, h6, -⟩ := hne
  have hword : readWord (c :: t ++ s) = some (int m, s) := by
    rw [List.cons_append] at hread ⊢
    unfold readWord
    split
    · rename_i heq
      exact absurd (List.cons.inj heq).1 h4
    · rename_i heq
      exact absurd (List.cons.inj heq).1 h5
    · rename_i heq
      exact absurd (List.cons.inj heq).1 h6
    · rw [hread]
      rfl
  rw [readDoc, List.cons_append, skipWhite_cons (head_of_decimal hc).1]
  split
  · rename_i heq
    exact absurd (List.cons.inj heq).1 h1
  · rename_i heq
    exact absurd (List.cons.inj heq).1 h2
  · rename_i heq
    exact absurd (List.cons.inj heq).1 h3
  · exact hword

/-- The document is read back, where no digit follows. -/
def ReadBack (d : Doc) : Prop :=
  ∀ k n s, NoDigit s → (dumps k d).length ≤ n → readDoc n (dumps k d ++ s) = some (d, s)

theorem noDigit_comma (s : List Char) : NoDigit (',' :: s) := by
  intro c hc
  obtain rfl : ',' = c := Option.some.inj hc
  rfl

theorem noDigit_newline (k : ℕ) (s : List Char) : NoDigit (newline k ++ s) := by
  intro c hc
  obtain rfl : '\n' = c := Option.some.inj hc
  rfl

theorem dumpItems_cons (k : ℕ) (item next : Doc) (items : List Doc) :
    dumpItems k (item :: next :: items) =
      newline k ++ dumps k item ++ ',' :: dumpItems k (next :: items) := rfl

theorem readItems_dumpItems {items : List Doc} (hitems : ∀ d ∈ items, ReadBack d) (hne : items ≠ [])
    (ht : skipWhite t = ']' :: s) (hd : NoDigit t) (hn : (dumpItems k items).length ≤ n) :
    readItems n (dumpItems k items ++ t) = some (items, s) := by
  induction items generalizing n with
  | nil => exact absurd rfl hne
  | cons item items ih =>
    obtain ⟨hitem, hitems⟩ := List.forall_mem_cons.mp hitems
    cases items with
    | nil =>
      have hlen : (dumpItems k [item]).length = 2 * k + 1 + (dumps k item).length := by
        simp only [dumpItems, newline, List.length_append, List.length_cons, List.length_replicate]
      obtain ⟨n, rfl⟩ : ∃ m, n = m + 1 := ⟨n - 1, by omega⟩
      rw [dumpItems, List.append_assoc, readItems, ← readDoc_skipWhite, skipWhite_newline,
        readDoc_skipWhite, hitem k n t hd (by omega)]
      simp only [Option.bind_eq_bind, Option.bind_some, ht]
    | cons next items =>
      have hlen : (dumpItems k (item :: next :: items)).length =
          2 * k + 2 + (dumps k item).length + (dumpItems k (next :: items)).length := by
        simp only [dumpItems_cons, newline, List.length_append, List.length_cons,
          List.length_replicate]
        omega
      obtain ⟨n, rfl⟩ : ∃ m, n = m + 1 := ⟨n - 1, by omega⟩
      rw [dumpItems_cons, List.append_assoc, List.append_assoc, readItems, ← readDoc_skipWhite,
        skipWhite_newline, readDoc_skipWhite, List.cons_append,
        hitem k n _ (noDigit_comma _) (by omega)]
      simp only [Option.bind_eq_bind, Option.bind_some]
      rw [skipWhite_cons (by decide)]
      simp only [ih hitems (by simp) (n := n) (by omega), Option.bind_some]

theorem dumpEntries_cons (k : ℕ) (e next : String × Doc) (entries : List (String × Doc)) :
    dumpEntries k (e :: next :: entries) =
      newline k ++ quote e.1 ++ ':' :: ' ' :: dumps k e.2 ++ ',' :: dumpEntries k (next :: entries) :=
  rfl

/-- One entry, with what the reader makes of the rest. -/
theorem readEntries_entry {e : String × Doc} (he : ReadBack e.2) (hd : NoDigit t)
    (hn : (dumps k e.2).length ≤ n) :
    readEntries (n + 1) (newline k ++ quote e.1 ++ ':' :: ' ' :: dumps k e.2 ++ t) =
      match skipWhite t with
      | ',' :: s => (readEntries n s).map fun r => (e :: r.1, r.2)
      | '}' :: s => some ([e], s)
      | _ => none := by
  obtain ⟨key, d⟩ := e
  have htext : newline k ++ quote key ++ ':' :: ' ' :: dumps k d ++ t =
      newline k ++ ('"' :: (escape key.toList ++ '"' :: ':' :: ' ' :: (dumps k d ++ t))) := by
    simp [quote]
  have hspace : readDoc n (' ' :: (dumps k d ++ t)) = some (d, t) := by
    rw [← readDoc_skipWhite]
    show readDoc n (skipWhite (dumps k d ++ t)) = _
    rw [readDoc_skipWhite, he k n t hd hn]
  rw [htext, readEntries, skipWhite_newline, skipWhite_cons (by decide)]
  simp only [readString_escape, Option.bind_eq_bind, Option.bind_some]
  rw [skipWhite_cons (by decide)]
  simp only [hspace, Option.bind_some, String.ofList_toList]
  split
  · cases readEntries n _ <;> rfl
  · rfl
  · rfl

theorem readEntries_dumpEntries {entries : List (String × Doc)}
    (hentries : ∀ e ∈ entries, ReadBack e.2) (hne : entries ≠ []) (ht : skipWhite t = '}' :: s)
    (hd : NoDigit t) (hn : (dumpEntries k entries).length ≤ n) :
    readEntries n (dumpEntries k entries ++ t) = some (entries, s) := by
  induction entries generalizing n with
  | nil => exact absurd rfl hne
  | cons e entries ih =>
    obtain ⟨he, hentries⟩ := List.forall_mem_cons.mp hentries
    cases entries with
    | nil =>
      have htext : dumpEntries k [e] = newline k ++ quote e.1 ++ ':' :: ' ' :: dumps k e.2 := rfl
      have hlen : (dumps k e.2).length < (dumpEntries k [e]).length := by
        rw [htext]
        simp only [newline, List.length_append, List.length_cons]
        omega
      obtain ⟨n, rfl⟩ : ∃ m, n = m + 1 := ⟨n - 1, by omega⟩
      rw [htext, readEntries_entry he hd (by omega), ht]
      rfl
    | cons next entries =>
      have hlen : (dumps k e.2).length + (dumpEntries k (next :: entries)).length <
          (dumpEntries k (e :: next :: entries)).length := by
        rw [dumpEntries_cons]
        simp only [newline, List.length_append, List.length_cons]
        omega
      obtain ⟨n, rfl⟩ : ∃ m, n = m + 1 := ⟨n - 1, by omega⟩
      rw [dumpEntries_cons, List.append_assoc, List.cons_append,
        readEntries_entry he (noDigit_comma _) (by omega), skipWhite_cons (by decide)]
      show (readEntries n (dumpEntries k (next :: entries) ++ t)).map _ = _
      rw [ih hentries (by simp) (by omega)]
      rfl

theorem readDoc_list (h : ∀ r, skipWhite s ≠ ']' :: r) :
    readDoc (n + 1) ('[' :: s) = (readItems n s).map fun r => (list r.1, r.2) := by
  have hopen : skipWhite ('[' :: s) = '[' :: s := skipWhite_cons rfl
  simp only [readDoc, hopen, readItems_skipWhite]

theorem readDoc_dict (h : ∀ r, skipWhite s ≠ '}' :: r) :
    readDoc (n + 1) ('{' :: s) = (readEntries n s).map fun r => (dict r.1, r.2) := by
  have hopen : skipWhite ('{' :: s) = '{' :: s := skipWhite_cons rfl
  simp only [readDoc, hopen, readEntries_skipWhite]

theorem exists_dumpItems (k : ℕ) (item : Doc) (items : List Doc) :
    ∃ r, dumpItems k (item :: items) = newline k ++ (dumps k item ++ r) := by
  cases items with
  | nil => exact ⟨[], by rw [dumpItems, List.append_nil]⟩
  | cons next items => exact ⟨_, by rw [dumpItems_cons, List.append_assoc]⟩

theorem exists_dumpEntries (k : ℕ) (e : String × Doc) (entries : List (String × Doc)) :
    ∃ r, dumpEntries k (e :: entries) = newline k ++ '"' :: r := by
  cases entries with
  | nil => exact ⟨_, List.append_assoc _ (quote e.1) _⟩
  | cons next entries =>
    rw [dumpEntries_cons, List.append_assoc, List.append_assoc]
    exact ⟨_, rfl⟩

theorem readBack_list {items : List Doc} (hitems : ∀ d ∈ items, ReadBack d) :
    ReadBack (list items) := by
  intro k n s hs hn
  cases items with
  | nil =>
    obtain ⟨n, rfl⟩ : ∃ m, n = m + 1 := ⟨n - 1, by simp [dumps] at hn; omega⟩
    rfl
  | cons item items =>
    have htext : dumps k (list (item :: items)) =
        '[' :: (dumpItems (k + 1) (item :: items) ++ (newline k ++ [']'])) := by
      rw [dumps, List.append_assoc, List.cons_append]
      simp
    rw [htext] at hn ⊢
    simp only [List.length_cons, List.length_append] at hn
    obtain ⟨n, rfl⟩ : ∃ m, n = m + 1 := ⟨n - 1, by omega⟩
    rw [List.cons_append, List.append_assoc, readDoc_list]
    · rw [readItems_dumpItems (s := s) hitems (by simp) (by
          rw [List.append_assoc, skipWhite_newline]
          exact skipWhite_cons (by decide)) (by
          rw [List.append_assoc]
          exact noDigit_newline k _) (by omega)]
      rfl
    · intro r
      obtain ⟨t, ht⟩ := exists_dumpItems (k + 1) item items
      obtain ⟨c, u, hu, -, hc, -⟩ := exists_dumps (k + 1) item
      rw [ht, List.append_assoc, skipWhite_newline, List.append_assoc, skipWhite_dumps, hu]
      exact fun heq => hc (List.cons.inj heq).1

theorem readBack_dict {entries : List (String × Doc)} (hentries : ∀ e ∈ entries, ReadBack e.2) :
    ReadBack (dict entries) := by
  intro k n s hs hn
  cases entries with
  | nil =>
    obtain ⟨n, rfl⟩ : ∃ m, n = m + 1 := ⟨n - 1, by simp [dumps] at hn; omega⟩
    rfl
  | cons e entries =>
    have htext : dumps k (dict (e :: entries)) =
        '{' :: (dumpEntries (k + 1) (e :: entries) ++ (newline k ++ ['}'])) := by
      rw [dumps, List.append_assoc, List.cons_append]
      simp
    rw [htext] at hn ⊢
    simp only [List.length_cons, List.length_append] at hn
    obtain ⟨n, rfl⟩ : ∃ m, n = m + 1 := ⟨n - 1, by omega⟩
    rw [List.cons_append, List.append_assoc, readDoc_dict]
    · rw [readEntries_dumpEntries (s := s) hentries (by simp) (by
          rw [List.append_assoc, skipWhite_newline]
          exact skipWhite_cons (by decide)) (by
          rw [List.append_assoc]
          exact noDigit_newline k _) (by omega)]
      rfl
    · intro r
      obtain ⟨t, ht⟩ := exists_dumpEntries (k + 1) e entries
      rw [ht, List.append_assoc, skipWhite_newline]
      exact fun heq => absurd (List.cons.inj heq).1 (by decide)

theorem readBack (d : Doc) : ReadBack d := by
  refine members_induction ?_ (fun b => ?_) (fun m => ?_) (fun x => ?_)
    (fun _ h => readBack_list h) (fun _ h => readBack_dict h) d <;> intro k n s hs hn
  · obtain ⟨n, rfl⟩ : ∃ m, n = m + 1 := ⟨n - 1, by simp [dumps] at hn; omega⟩
    rfl
  · obtain ⟨n, rfl⟩ : ∃ m, n = m + 1 := ⟨n - 1, by cases b <;> simp [dumps] at hn <;> omega⟩
    cases b <;> rfl
  · obtain ⟨c, t, ht, -⟩ := exists_decimal m
    obtain ⟨n, rfl⟩ : ∃ m, n = m + 1 := ⟨n - 1, by simp [dumps, ht] at hn; omega⟩
    rw [dumps]
    exact readDoc_decimal m hs
  · obtain ⟨n, rfl⟩ : ∃ m, n = m + 1 := ⟨n - 1, by simp [dumps, quote] at hn; omega⟩
    have htext : dumps k (str x) ++ s = '"' :: (escape x.toList ++ '"' :: s) := by
      simp [dumps, quote]
    rw [htext, readDoc, skipWhite_cons (by decide)]
    simp only [readString_escape, Option.map_some, String.ofList_toList]

/-- **A document is read back.** -/
theorem loads_dumps (k : ℕ) (d : Doc) (hs : skipWhite s = []) (hd : NoDigit s) :
    loads (dumps k d ++ s) = some d := by
  unfold loads
  rw [readBack d k _ s hd (by simp; omega)]
  simp [hs]

end Reading

end Doc

end HaAddons
