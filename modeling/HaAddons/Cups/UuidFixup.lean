import HaAddons.Lib.Matching
import Mathlib.Data.List.DropRight

/-!
# The UUIDs of the printers

At every boot, before `cupsd` starts, the add-on writes a UUID of its own into each registered
printer's stanza of `printers.conf`. The program finds stanzas and UUIDs by two patterns that are
anchored to no line.

* `program_text` — what the program makes of a file, stanza by stanza.
* `patchLines_eq_settle` — when it changes a stanza's UUID directive and nothing else.
* `fixed_iff` — when the file changes in the UUIDs of the named printers only, and only once.
-/

namespace HaAddons.Cups

open Lib

abbrev Text := List Char

/-! ## The UUID of a name -/

def hexDigit (n : ℕ) : Char := "0123456789abcdef".toList.getD n '0'

def hexByte (b : UInt8) : Text := [hexDigit (b.toNat / 16), hexDigit (b.toNat % 16)]

/-- `PRINTER_UUID_NAMESPACE` -/
def printerUuidNamespace : List UInt8 :=
  [0x1d, 0x94, 0x4d, 0x3a, 0xd7, 0x4c, 0x4e, 0x0b, 0xb2, 0x73, 0xfd, 0xce, 0x19, 0xc6, 0x21, 0xd9]

/-- Version 5 and the variant, in the first 16 bytes of a digest. -/
def uuid5Byte (digest : Vector UInt8 20) (i : ℕ) : UInt8 :=
  let b := digest.getD i 0
  if i = 6 then (b &&& 0x0f) ||| 0x50 else if i = 8 then (b &&& 0x3f) ||| 0x80 else b

/-- `len` bytes of a UUID, from byte `i` on. -/
def hexBytes (digest : Vector UInt8 20) (i len : ℕ) : Text :=
  (List.range' i len).flatMap fun k => hexByte (uuid5Byte digest k)

/-- `str(uuid.UUID(bytes=digest[:16], version=5))` -/
def uuidText (digest : Vector UInt8 20) : Text :=
  hexBytes digest 0 4 ++ '-' :: hexBytes digest 4 2 ++ '-' :: hexBytes digest 6 2 ++
    '-' :: hexBytes digest 8 2 ++ '-' :: hexBytes digest 10 6

/-- `[0-9a-fA-F-]` -/
def isUuidChar (c : Char) : Bool :=
  ('0' ≤ c && c ≤ '9') || ('a' ≤ c && c ≤ 'f') || ('A' ≤ c && c ≤ 'F') || c == '-'

/-- A text that `[0-9a-fA-F-]+` matches. -/
structure Uuid where
  text : Text
  ne_nil : text ≠ []
  chars : ∀ c ∈ text, isUuidChar c = true

theorem isUuidChar_hexDigit (n : ℕ) : isUuidChar (hexDigit n) = true := by
  have hall : "0123456789abcdef".toList.all isUuidChar = true := by decide
  rw [List.all_eq_true] at hall
  unfold hexDigit
  rw [List.getD_eq_getElem?_getD]
  cases hn : "0123456789abcdef".toList[n]? with
  | none => decide
  | some c => exact hall c (List.mem_of_getElem? hn)

theorem isUuidChar_hexBytes {digest : Vector UInt8 20} {i len : ℕ} {c : Char}
    (h : c ∈ hexBytes digest i len) : isUuidChar c = true := by
  simp only [hexBytes, hexByte, List.mem_flatMap, List.mem_cons, List.not_mem_nil, or_false] at h
  obtain ⟨k, -, rfl | rfl⟩ := h <;> exact isUuidChar_hexDigit _

theorem uuidText_ne_nil (digest : Vector UInt8 20) : uuidText digest ≠ [] := by
  simp [uuidText]

theorem uuidText_chars (digest : Vector UInt8 20) : ∀ c ∈ uuidText digest, isUuidChar c = true := by
  intro c hc
  simp only [uuidText, List.append_assoc, List.cons_append, List.mem_append, List.mem_cons] at hc
  have hdash : isUuidChar '-' = true := by decide
  rcases hc with h | rfl | h | rfl | h | rfl | h | rfl | h <;>
    first | exact hdash | exact isUuidChar_hexBytes h

/-- `compute_stable_printer_uuid` -/
def computeStablePrinterUuid (sha1 : List UInt8 → Vector UInt8 20) (name : Text) : Uuid :=
  let digest := sha1 (printerUuidNamespace ++ name.flatMap String.utf8EncodeChar)
  ⟨uuidText digest, uuidText_ne_nil digest, uuidText_chars digest⟩

/-! ## The program -/

def opening : Text := ['<', 'P', 'r', 'i', 'n', 't', 'e', 'r', ' ']

def closing : Text := ['<', '/', 'P', 'r', 'i', 'n', 't', 'e', 'r', '>']

def uuidKey : Text := ['U', 'U', 'I', 'D', ' ', 'u', 'r', 'n', ':', 'u', 'u', 'i', 'd', ':']

/-- The text up to the first place where `lit` ends. -/
def through (lit : Text) : Text → Option (Text × Text)
  | [] => none
  | c :: s =>
    match lit.isPrefixOf? (c :: s) with
    | some rest => some (lit, rest)
    | none => (through lit s).map fun r => (c :: r.1, r.2)

/-- `block_re`: a name and what is after it, up to the first end of a stanza. -/
def blockRe (s : Text) : Option ((Text × Text) × Text) :=
  (opening.isPrefixOf? s).bind fun t =>
    let name := t.takeWhile (· ≠ '>')
    (['>'].isPrefixOf? (t.dropWhile (· ≠ '>'))).bind fun u =>
      if name = [] then none else (through closing u).map fun r => ((name, r.1), r.2)

/-- `uuid_line_re`: the value. -/
def uuidLineRe (s : Text) : Option (Text × Text) :=
  (uuidKey.isPrefixOf? s).bind fun t =>
    let value := t.takeWhile isUuidChar
    if value = [] then none else some (value, t.dropWhile isUuidChar)

/-- `uuid_line_re.subn("UUID urn:uuid:" + new_uuid, block, count=1)`, when the count is 1. -/
def subnUuid (newUuid : Uuid) (s : Text) : Option Text :=
  (search uuidLineRe s).map fun r => r.1 ++ uuidKey ++ newUuid.text ++ r.2.2

/-- `_patch` -/
def patch (fixups : Text → Option Uuid) (r : Text × Text) : Text :=
  let block := opening ++ r.1 ++ '>' :: r.2
  match fixups r.1 with
  | none => block
  | some newUuid => (subnUuid newUuid block).getD block

/-- How Python reads the ends of lines of a text file. -/
def universalNewlines : Text → Text
  | [] => []
  | '\r' :: '\n' :: s => '\n' :: universalNewlines s
  | '\r' :: s => '\n' :: universalNewlines s
  | c :: s => c :: universalNewlines s

/-- `_PRINTER_UUID_FIXUP_PYTHON_TEMPLATE`: the file after the run. -/
def program (fixups : Text → Option Uuid) (content : Text) : Text :=
  sub blockRe (patch fixups) (universalNewlines content)

def isNameChar (c : Char) : Bool := c.isAlphanum || c == '_' || c == '-'

/-- A name that `PRINTER_NAME_RE` matches as a whole. -/
structure PrinterName where
  text : Text
  length_pos : 0 < text.length
  length_le : text.length ≤ 127
  chars : text.all isNameChar = true

theorem lawfulBEq_text : LawfulBEq Text := inferInstance

attribute [local instance] lawfulBEq_text in
/-- The literal `fixups` of the script. -/
def fixupsOf (sha1 : List UInt8 → Vector UInt8 20) (names : List PrinterName) (name : Text) :
    Option Uuid :=
  if name ∈ names.map (·.text) then some (computeStablePrinterUuid sha1 name) else none

/-- `build_printer_uuid_fixup_script`: what the script does to `printers.conf`, if there is one. -/
def buildPrinterUuidFixupScript (sha1 : List UInt8 → Vector UInt8 20) (names : List PrinterName) :
    Option (Text → Text) :=
  if names = [] then none else some (program (fixupsOf sha1 names))

/-- `printers.conf` after the boot phase. -/
def fixup (sha1 : List UInt8 → Vector UInt8 20) (names : List PrinterName) (content : Text) :
    Text :=
  match buildPrinterUuidFixupScript sha1 names with
  | none => content
  | some run => run content

/-! ## Files made of stanzas -/

/-- A stanza, of which `directives` are the lines between its first and its last. -/
structure Stanza where
  name : Text
  directives : List Text
  name_ne_nil : name ≠ []
  name_chars : ∀ c ∈ name, c ≠ '>' ∧ c ≠ '\n'
  directives_lines : ∀ l ∈ directives, '\n' ∉ l

inductive Item
  | line (l : Text) (h : '\n' ∉ l)
  | stanza (s : Stanza)

def header (name : Text) : Text := opening ++ name ++ ['>']

def Item.lines : Item → List Text
  | .line l _ => [l]
  | .stanza s => header s.name :: (s.directives ++ [closing])

/-- The file. -/
def text (items : List Item) : Text := ['\n'].intercalate (items.flatMap Item.lines)

/-! ### What the fixup is for -/

def isUuidLine (l : Text) : Bool := "UUID ".toList.isPrefixOf l

/-- The directive of a UUID. -/
def uuidLine (newUuid : Uuid) : Text := uuidKey ++ newUuid.text

/-- The first UUID directive gets the value, and nothing else changes. -/
def settleLines (newUuid : Uuid) : List Text → List Text
  | [] => []
  | l :: ls => if isUuidLine l then uuidLine newUuid :: ls else l :: settleLines newUuid ls

theorem not_mem_of_isUuidChar {c : Char} {newUuid : Uuid} (hc : isUuidChar c = false) :
    c ∉ newUuid.text := by
  intro hmem
  rw [newUuid.chars c hmem] at hc
  exact absurd hc (by simp)

theorem settleLines_lines (newUuid : Uuid) {ls : List Text} (h : ∀ l ∈ ls, '\n' ∉ l) :
    ∀ l ∈ settleLines newUuid ls, '\n' ∉ l := by
  induction ls with
  | nil => simp [settleLines]
  | cons l ls ih =>
    rw [List.forall_mem_cons] at h
    rw [settleLines]
    split
    · rw [List.forall_mem_cons]
      refine ⟨?_, h.2⟩
      rw [uuidLine, List.mem_append, not_or]
      exact ⟨by decide, not_mem_of_isUuidChar (by decide)⟩
    · rw [List.forall_mem_cons]
      exact ⟨h.1, ih h.2⟩

def Stanza.settle (newUuid : Uuid) (s : Stanza) : Stanza :=
  { s with
    directives := settleLines newUuid s.directives
    directives_lines := settleLines_lines newUuid s.directives_lines }

/-- A change of the stanzas that have a new UUID. -/
def Item.edit (f : Uuid → Stanza → Stanza) (fixups : Text → Option Uuid) : Item → Item
  | .line l h => .line l h
  | .stanza s =>
    match fixups s.name with
    | none => .stanza s
    | some newUuid => .stanza (f newUuid s)

theorem edit_of_none {f : Uuid → Stanza → Stanza} {fixups : Text → Option Uuid} {s : Stanza}
    (h : fixups s.name = none) : Item.edit f fixups (.stanza s) = .stanza s := by
  simp [Item.edit, h]

theorem edit_of_some {f : Uuid → Stanza → Stanza} {fixups : Text → Option Uuid} {s : Stanza}
    {u : Uuid} (h : fixups s.name = some u) :
    Item.edit f fixups (.stanza s) = .stanza (f u s) := by
  simp [Item.edit, h]

/-- The file changes only in the UUIDs of the named printers, and a second run changes nothing. -/
structure Fixed (sha1 : List UInt8 → Vector UInt8 20) (names : List PrinterName)
    (items : List Item) : Prop where
  output : fixup sha1 names (text items) =
    text (items.map (Item.edit Stanza.settle (fixupsOf sha1 names)))
  again : fixup sha1 names (fixup sha1 names (text items)) = fixup sha1 names (text items)

/-! ### Where the patterns meet the lines -/

/-- The patterns find each stanza, and no other. -/
structure Structured (items : List Item) : Prop where
  noReturn : ∀ i ∈ items, ∀ l ∈ i.lines, '\r' ∉ l
  lines : ∀ l h, Item.line l h ∈ items → ¬opening <:+: l
  directives : ∀ s, Item.stanza s ∈ items → ∀ l ∈ s.directives, ¬closing <:+: l

/-- The first UUID directive, if there is one, has the value. -/
def Settled (newUuid : Uuid) (ls : List Text) : Prop :=
  ∀ l, ls.find? isUuidLine = some l → l = uuidLine newUuid

/-- The first thing that looks like a UUID is the whole of the first UUID directive; or it is the
new UUID already, and so is the directive's. -/
def Found (newUuid : Uuid) : List Text → Prop
  | [] => True
  | l :: ls =>
    match search uuidLineRe l with
    | none => isUuidLine l = false ∧ Found newUuid ls
    | some (before, value, after) =>
      (before = [] ∧ after = []) ∨
        (value = newUuid.text ∧ isUuidLine l = false ∧ Settled newUuid ls)

/-! ## One UUID in a line -/

section Line

variable {u : Uuid} {l s : Text} {c : Char}

theorem uuidLineRe_key (t : Text) :
    uuidLineRe (uuidKey ++ t) = if t.takeWhile isUuidChar = [] then none
      else some (t.takeWhile isUuidChar, t.dropWhile isUuidChar) := by
  have hkey : uuidKey.isPrefixOf? (uuidKey ++ t) = some t := by
    rw [List.isPrefixOf?_eq_some_iff_append_eq]
  rw [uuidLineRe, hkey, Option.bind_some]

theorem uuidLineRe_eq_some {v rest : Text} (h : uuidLineRe s = some (v, rest)) :
    ∃ t, s = uuidKey ++ t ∧ t.takeWhile isUuidChar = v ∧ v ≠ [] ∧
      t.dropWhile isUuidChar = rest := by
  have hs := h
  rw [uuidLineRe, Option.bind_eq_some_iff] at hs
  obtain ⟨t, ht, -⟩ := hs
  rw [List.isPrefixOf?_eq_some_iff_append_eq] at ht
  rw [← ht, uuidLineRe_key] at h
  split at h
  · simp at h
  · rename_i hne
    simp only [Option.some.injEq, Prod.mk.injEq] at h
    exact ⟨t, ht.symm, h.1, h.1 ▸ hne, h.2⟩

/-- The pattern matches where the key and one more character stand. -/
theorem uuidLineRe_eq_none_iff :
    uuidLineRe s = none ↔ ∀ c, isUuidChar c = true → ¬uuidKey ++ [c] <+: s := by
  constructor
  · intro h c hc hpre
    obtain ⟨t, rfl⟩ := hpre
    rw [List.append_assoc, uuidLineRe_key] at h
    simp [hc] at h
  · intro h
    unfold uuidLineRe
    cases hkey : uuidKey.isPrefixOf? s with
    | none => rfl
    | some t =>
      rw [List.isPrefixOf?_eq_some_iff_append_eq] at hkey
      cases t with
      | nil => simp
      | cons c t =>
        have hc : ¬isUuidChar c = true := by
          intro hc
          refine h c hc ⟨t, ?_⟩
          rw [← hkey]
          simp
        simp [hc]

theorem uuidLineRe_of_head (h : c ≠ 'U') : uuidLineRe (c :: s) = none := by
  rw [uuidLineRe_eq_none_iff]
  intro d hd hpre
  have hkey : uuidKey ++ [d] = 'U' :: (uuidKey.tail ++ [d]) := rfl
  rw [hkey, List.cons_prefix_cons] at hpre
  exact h hpre.1.symm

theorem newline_not_mem_uuidKey : '\n' ∉ uuidKey := by decide

theorem takeWhile_line (t s : Text) :
    (t ++ '\n' :: s).takeWhile isUuidChar = t.takeWhile isUuidChar := by
  induction t with
  | nil => rfl
  | cons c t ih =>
    rw [List.cons_append, List.takeWhile_cons, List.takeWhile_cons, ih]

theorem dropWhile_line (t s : Text) :
    (t ++ '\n' :: s).dropWhile isUuidChar = t.dropWhile isUuidChar ++ '\n' :: s := by
  induction t with
  | nil => rfl
  | cons c t ih =>
    rw [List.cons_append, List.dropWhile_cons, List.dropWhile_cons, ih]
    split <;> rfl

/-- A match does not leave its line. -/
theorem uuidLineRe_line (l s : Text) :
    uuidLineRe (l ++ '\n' :: s) = (uuidLineRe l).map fun r => (r.1, r.2 ++ '\n' :: s) := by
  cases h : uuidLineRe l with
  | none =>
    rw [uuidLineRe_eq_none_iff] at h
    rw [Option.map_none, uuidLineRe_eq_none_iff]
    intro c hc hpre
    refine h c hc (prefix_of_sep ?_ hpre)
    rw [List.mem_append, not_or]
    refine ⟨newline_not_mem_uuidKey, ?_⟩
    intro hmem
    rw [List.mem_singleton] at hmem
    rw [← hmem] at hc
    exact absurd hc (by decide)
  | some r =>
    obtain ⟨v, rest⟩ := r
    obtain ⟨t, rfl, rfl, hne, rfl⟩ := uuidLineRe_eq_some h
    rw [List.append_assoc, uuidLineRe_key, takeWhile_line, if_neg hne, dropWhile_line]
    rfl

theorem subnUuid_cons_none (h : uuidLineRe (c :: s) = none) :
    subnUuid u (c :: s) = (subnUuid u s).map (c :: ·) := by
  simp [subnUuid, search_cons_none h, Function.comp_def]

theorem subnUuid_cons_some {r : Text × Text} (h : uuidLineRe (c :: s) = some r) :
    subnUuid u (c :: s) = some (uuidKey ++ u.text ++ r.2) := by
  simp [subnUuid, search_cons_some h]

/-- The first match of a text is in the first line that has one. -/
theorem subnUuid_line (u : Uuid) (l s : Text) :
    subnUuid u (l ++ '\n' :: s) =
      ((subnUuid u l).map (· ++ '\n' :: s)).or ((subnUuid u s).map (l ++ '\n' :: ·)) := by
  induction l with
  | nil => exact subnUuid_cons_none (uuidLineRe_of_head (by decide))
  | cons c l ih =>
    have hline := uuidLineRe_line (c :: l) s
    rw [List.cons_append] at hline
    cases hm : uuidLineRe (c :: l) with
    | some r =>
      rw [hm, Option.map_some] at hline
      rw [subnUuid_cons_some hm, List.cons_append, subnUuid_cons_some hline]
      simp
    | none =>
      rw [hm, Option.map_none] at hline
      rw [subnUuid_cons_none hm, List.cons_append, subnUuid_cons_none hline, ih]
      cases subnUuid u l <;> simp [Function.comp_def]

end Line

/-! ## One stanza -/

/-- Lines, each after the end of the one before it. -/
def unlines (ls : List Text) : Text := ls.flatMap ('\n' :: ·)

@[simp] theorem unlines_nil : unlines [] = [] := rfl

@[simp] theorem unlines_cons (l : Text) (ls : List Text) :
    unlines (l :: ls) = '\n' :: (l ++ unlines ls) := rfl

@[simp] theorem unlines_append (ls ks : List Text) :
    unlines (ls ++ ks) = unlines ls ++ unlines ks := List.flatMap_append

/-- What the program does to the lines of a stanza, if a UUID is in one. -/
def patchLines (u : Uuid) : List Text → Option (List Text)
  | [] => none
  | l :: ls => ((subnUuid u l).map (· :: ls)).or ((patchLines u ls).map (l :: ·))

section Stanza

variable {u : Uuid} {l : Text} {ls ks : List Text}

/-- A first line, and the lines after it. -/
theorem subnUuid_unlines (l : Text) (ls : List Text) :
    subnUuid u (l ++ unlines ls) =
      ((subnUuid u l).map (· ++ unlines ls)).or
        ((patchLines u ls).map fun ks => l ++ unlines ks) := by
  induction ls generalizing l with
  | nil => cases h : subnUuid u l <;> simp [h, patchLines]
  | cons k ls ih =>
    rw [unlines_cons, subnUuid_line, ih k, patchLines]
    cases subnUuid u l <;> cases subnUuid u k <;> simp [Function.comp_def]

theorem patchLines_append_of_none (h : patchLines u ks = none) :
    patchLines u (ls ++ ks) = (patchLines u ls).map (· ++ ks) := by
  induction ls with
  | nil => simpa [patchLines] using h
  | cons l ls ih =>
    rw [List.cons_append, patchLines, patchLines, ih]
    cases subnUuid u l <;> simp [Function.comp_def]

theorem patchLines_closing : patchLines u [closing] = none := by
  have h : search uuidLineRe closing = none := by decide
  simp [patchLines, subnUuid, h]

/-- The key is in no first line of a stanza whose name has no space. -/
theorem subnUuid_header {name : Text} (h : ' ' ∉ name) : subnUuid u (header name) = none := by
  rw [subnUuid, Option.map_eq_none_iff]
  by_contra hne
  obtain ⟨⟨b, v, rest⟩, hr⟩ := Option.ne_none_iff_exists'.mp hne
  obtain ⟨t, ht, -, hm, -⟩ := search_some hr
  obtain ⟨t', rfl, -⟩ := uuidLineRe_eq_some hm
  have hkey : uuidKey <:+: opening ++ name ++ '>' :: [] := by
    rw [show opening ++ name ++ ['>'] = header name from rfl, ht]
    exact ⟨b, t', by simp⟩
  have hopening : uuidKey <:+: opening ++ name :=
    (infix_of_sep (by decide) hkey).resolve_right fun h => absurd (List.infix_nil.mp h) (by decide)
  have hU : uuidKey = 'U' :: uuidKey.tail := rfl
  rw [hU] at hopening
  have hname : 'U' :: uuidKey.tail <:+: name := infix_of_head hopening (by decide)
  have hspace : ' ' ∈ 'U' :: uuidKey.tail := by decide
  exact h (hname.subset hspace)

/-- The block of a stanza. -/
theorem subnUuid_block {name : Text} (h : ' ' ∉ name) :
    subnUuid u (header name ++ unlines (ls ++ [closing])) =
      (patchLines u ls).map fun ks => header name ++ unlines (ks ++ [closing]) := by
  rw [subnUuid_unlines, subnUuid_header h, patchLines_append_of_none patchLines_closing]
  simp [Function.comp_def]

end Stanza

/-! ## The blocks of a file -/

section Blocks

theorem through_append {lit a s : Text}
    (h : ∀ t, t <:+ a → t ≠ [] → ¬lit <+: t ++ (lit ++ s)) (hne : lit ≠ []) :
    through lit (a ++ (lit ++ s)) = some (a ++ lit, s) := by
  induction a with
  | nil =>
    cases lit with
    | nil => exact absurd rfl hne
    | cons c lit =>
      have hlit : (c :: lit).isPrefixOf? (c :: (lit ++ s)) = some s := by
        rw [List.isPrefixOf?_eq_some_iff_append_eq, List.cons_append]
      simp only [List.nil_append, List.cons_append, through, hlit]
  | cons c a ih =>
    have hlit : lit.isPrefixOf? (c :: (a ++ (lit ++ s))) = none := by
      by_contra hsome
      obtain ⟨t, ht⟩ := Option.ne_none_iff_exists'.mp hsome
      rw [List.isPrefixOf?_eq_some_iff_append_eq] at ht
      exact h (c :: a) (List.suffix_refl _) (by simp) ⟨t, ht⟩
    simp [through, hlit, ih fun t ht => h t (ht.trans (List.suffix_cons c a))]

/-- A stanza ends at its last line. -/
theorem through_closing {ls : List Text} (h : ∀ l ∈ ls, ¬closing <:+: l) (s : Text) :
    through closing (unlines (ls ++ [closing]) ++ s) = some (unlines (ls ++ [closing]), s) := by
  have hsplit : unlines (ls ++ [closing]) = unlines ls ++ ['\n'] ++ closing := by simp
  rw [hsplit, List.append_assoc]
  refine through_append ?_ (by decide)
  intro t ht hne hpre
  obtain ⟨t', rfl⟩ : ∃ t', t = t' ++ ['\n'] := by
    rcases List.eq_nil_or_concat t with rfl | ⟨t', c, rfl⟩
    · exact absurd rfl hne
    · refine ⟨t', ?_⟩
      obtain ⟨b, hb⟩ := ht
      rw [List.concat_eq_append, ← List.append_assoc] at hb
      rw [List.concat_eq_append, (List.append_inj' hb rfl).2]
  rw [List.append_assoc] at hpre
  have ht' : closing <+: t' := prefix_of_sep (by decide) hpre
  have hsub : t' <:+: unlines ls := by
    obtain ⟨b, hb⟩ := ht
    rw [← List.append_assoc] at hb
    exact ⟨b, [], by rw [List.append_nil]; exact (List.append_inj' hb rfl).1⟩
  obtain ⟨l, hl, hin⟩ := infix_of_lines (by decide) (by decide) (ht'.isInfix.trans hsub)
  exact h l hl hin

theorem blockRe_eq_none {s : Text} (h : ¬opening <+: s) : blockRe s = none := by
  have hopening : opening.isPrefixOf? s = none := by
    by_contra hsome
    obtain ⟨t, ht⟩ := Option.ne_none_iff_exists'.mp hsome
    rw [List.isPrefixOf?_eq_some_iff_append_eq] at ht
    exact h ⟨t, ht⟩
  rw [blockRe, hopening, Option.bind_none]

theorem blockRe_of_head {c : Char} {s : Text} (h : c ≠ '<') : blockRe (c :: s) = none := by
  refine blockRe_eq_none fun hpre => ?_
  have hopening : opening = '<' :: opening.tail := rfl
  rw [hopening, List.cons_prefix_cons] at hpre
  exact h hpre.1.symm

/-- The pattern finds a stanza. -/
theorem blockRe_stanza (s : Stanza) (h : ∀ l ∈ s.directives, ¬closing <:+: l) (rest : Text) :
    blockRe (header s.name ++ (unlines (s.directives ++ [closing]) ++ rest)) =
      some ((s.name, unlines (s.directives ++ [closing])), rest) := by
  have hopening : ∀ t : Text, opening.isPrefixOf? (opening ++ t) = some t := fun t => by
    rw [List.isPrefixOf?_eq_some_iff_append_eq]
  have hname : ∀ c ∈ s.name, decide (c ≠ '>') = true := fun c hc => by
    simp [(s.name_chars c hc).1]
  have hgt : ∀ t : Text, ['>'].isPrefixOf? ('>' :: t) = some t := fun t => by
    rw [List.isPrefixOf?_eq_some_iff_append_eq, List.singleton_append]
  rw [header, List.append_assoc, List.append_assoc, blockRe, hopening, Option.bind_some]
  simp only [List.singleton_append, List.takeWhile_append_of_pos hname,
    List.dropWhile_append_of_pos hname]
  have hbody := through_closing h rest
  generalize unlines (s.directives ++ [closing]) = body at hbody ⊢
  simp [hgt, s.name_ne_nil, hbody]

variable {f : Text × Text → Text}

/-- A line between stanzas stays. -/
theorem sub_line {l : Text} (h : ¬opening <:+: l) (ls : List Text) :
    sub blockRe f (unlines (l :: ls)) = '\n' :: (l ++ sub blockRe f (unlines ls)) := by
  rw [unlines_cons, sub_cons_none (blockRe_of_head (by decide)), sub_append]
  intro t ht hne
  refine blockRe_eq_none fun hpre => h ?_
  have htl : opening <+: t := by
    cases ls with
    | nil => simpa using hpre
    | cons k ls => exact prefix_of_sep (by decide) hpre
  exact htl.isInfix.trans ht.isInfix

/-- A stanza is replaced. -/
theorem sub_stanza (s : Stanza) (h : ∀ l ∈ s.directives, ¬closing <:+: l) (ls : List Text) :
    sub blockRe f (unlines ((Item.stanza s).lines ++ ls)) =
      '\n' :: (f (s.name, unlines (s.directives ++ [closing])) ++ sub blockRe f (unlines ls)) := by
  have hblock := blockRe_stanza s h (unlines ls)
  have hlines : unlines ((Item.stanza s).lines ++ ls) =
      '\n' :: (header s.name ++ (unlines (s.directives ++ [closing]) ++ unlines ls)) := by
    simp [Item.lines]
  obtain ⟨c, r, hcons⟩ : ∃ c r, header s.name = c :: r := ⟨_, _, rfl⟩
  rw [hlines, sub_cons_none (blockRe_of_head (by decide))]
  rw [hcons, List.cons_append] at hblock ⊢
  rw [sub_cons_some hblock]
  exact ⟨r ++ unlines (s.directives ++ [closing]), by simp⟩

end Blocks

/-! ## A whole file -/

section File

variable {u : Uuid} {l l' : Text} {ls ks : List Text} {fixups : Text → Option Uuid}
  {items : List Item}

theorem subnUuid_eq_some (h : subnUuid u l = some l') :
    ∃ b v a, search uuidLineRe l = some (b, v, a) ∧ l = b ++ uuidKey ++ v ++ a ∧ v ≠ [] ∧
      l' = b ++ uuidKey ++ u.text ++ a := by
  rw [subnUuid, Option.map_eq_some_iff] at h
  obtain ⟨⟨b, v, a⟩, hr, rfl⟩ := h
  obtain ⟨t, rfl, -, hm, -⟩ := search_some hr
  obtain ⟨t', rfl, hv, hne, ha⟩ := uuidLineRe_eq_some hm
  refine ⟨b, v, a, hr, ?_, hne, rfl⟩
  rw [List.append_assoc, List.append_assoc, ← hv, ← ha, List.takeWhile_append_dropWhile]

theorem subnUuid_chars {c : Char} (hc : c ∉ uuidKey) (hu : isUuidChar c = false) (hl : c ∉ l)
    (h : subnUuid u l = some l') : c ∉ l' := by
  obtain ⟨b, v, a, -, rfl, -, rfl⟩ := subnUuid_eq_some h
  simp only [List.mem_append, not_or] at hl ⊢
  exact ⟨⟨⟨hl.1.1.1, hc⟩, not_mem_of_isUuidChar hu⟩, hl.2⟩

/-- What holds of the lines and of a patched line holds of the patched lines. -/
theorem patchLines_forall {P : Text → Prop}
    (hP : ∀ l l', P l → subnUuid u l = some l' → P l') (hls : ∀ l ∈ ls, P l)
    (h : patchLines u ls = some ks) : ∀ l ∈ ks, P l := by
  induction ls generalizing ks with
  | nil => simp [patchLines] at h
  | cons l ls ih =>
    rw [List.forall_mem_cons] at hls
    rw [patchLines] at h
    cases hl : subnUuid u l with
    | some l' =>
      rw [hl] at h
      cases h
      rw [List.forall_mem_cons]
      exact ⟨hP l l' hls.1 hl, hls.2⟩
    | none =>
      rw [hl, Option.map_none, Option.none_or, Option.map_eq_some_iff] at h
      obtain ⟨ks', hks, rfl⟩ := h
      rw [List.forall_mem_cons]
      exact ⟨hls.1, ih hls.2 hks⟩

/-- The lines of a stanza after the run. -/
def patchedLines (u : Uuid) (ls : List Text) : List Text := (patchLines u ls).getD ls

theorem patchedLines_forall {P : Text → Prop}
    (hP : ∀ l l', P l → subnUuid u l = some l' → P l') (hls : ∀ l ∈ ls, P l) :
    ∀ l ∈ patchedLines u ls, P l := by
  unfold patchedLines
  cases h : patchLines u ls with
  | none => exact hls
  | some ks => exact patchLines_forall hP hls h

theorem patchedLines_lines (u : Uuid) (h : ∀ l ∈ ls, '\n' ∉ l) :
    ∀ l ∈ patchedLines u ls, '\n' ∉ l :=
  patchedLines_forall (fun _ _ => subnUuid_chars (by decide) (by decide)) h

/-- A stanza after the run. -/
def Stanza.patched (u : Uuid) (s : Stanza) : Stanza :=
  { s with
    directives := patchedLines u s.directives
    directives_lines := patchedLines_lines u s.directives_lines }

/-! ### The run -/

theorem patch_eq (hnames : ∀ n u, fixups n = some u → ' ' ∉ n) (s : Stanza) :
    '\n' :: patch fixups (s.name, unlines (s.directives ++ [closing])) =
      unlines (Item.edit Stanza.patched fixups (.stanza s)).lines := by
  have hblock : opening ++ s.name ++ '>' :: unlines (s.directives ++ [closing]) =
      header s.name ++ unlines (s.directives ++ [closing]) := by simp [header]
  unfold patch Item.edit
  cases hf : fixups s.name with
  | none => simp only [hf, hblock, Item.lines, unlines_cons]
  | some u =>
    simp only [hf, hblock, subnUuid_block (hnames s.name u hf), Item.lines, Stanza.patched,
      patchedLines]
    cases patchLines u s.directives <;> simp

/-- The scan, item by item. -/
theorem sub_items (hnames : ∀ n u, fixups n = some u → ' ' ∉ n)
    (hlines : ∀ l h, Item.line l h ∈ items → ¬opening <:+: l)
    (hdirectives : ∀ s, Item.stanza s ∈ items → ∀ l ∈ s.directives, ¬closing <:+: l) :
    sub blockRe (patch fixups) (unlines (items.flatMap Item.lines)) =
      unlines ((items.map (Item.edit Stanza.patched fixups)).flatMap Item.lines) := by
  induction items with
  | nil => rfl
  | cons i items ih =>
    have ih := ih (fun l h hmem => hlines l h (List.mem_cons_of_mem i hmem))
      fun s hmem => hdirectives s (List.mem_cons_of_mem i hmem)
    rw [List.map_cons, List.flatMap_cons, List.flatMap_cons,
      unlines_append (Item.edit Stanza.patched fixups i).lines, ← ih]
    cases i with
    | line l h =>
      rw [Item.lines, List.singleton_append, sub_line (hlines l h List.mem_cons_self)]
      simp [Item.edit, Item.lines]
    | stanza s =>
      rw [sub_stanza s (hdirectives s List.mem_cons_self), ← patch_eq hnames s]
      rfl

theorem unlines_eq (h : ls ≠ []) : unlines ls = '\n' :: ['\n'].intercalate ls := by
  induction ls with
  | nil => exact absurd rfl h
  | cons l ls ih =>
    cases ls with
    | nil => simp
    | cons k ls =>
      rw [unlines_cons, ih (by simp), List.intercalate_cons_cons]
      simp

theorem flatMap_lines_ne_nil (h : items ≠ []) : items.flatMap Item.lines ≠ [] := by
  obtain ⟨i, items, rfl⟩ := List.exists_cons_of_ne_nil h
  cases i <;> simp [Item.lines]

theorem universalNewlines_eq {s : Text} (h : '\r' ∉ s) : universalNewlines s = s := by
  induction s with
  | nil => rfl
  | cons c s ih =>
    rw [List.mem_cons, not_or] at h
    rw [universalNewlines.eq_4 c s (fun _ heq => absurd heq.symm h.1) fun heq =>
      absurd heq.symm h.1, ih h.2]

theorem return_not_mem_text (h : ∀ i ∈ items, ∀ l ∈ i.lines, '\r' ∉ l) : '\r' ∉ text items := by
  cases items with
  | nil => simp [text]
  | cons i items =>
    intro hmem
    have hunlines : '\r' ∈ unlines ((i :: items).flatMap Item.lines) := by
      rw [unlines_eq (flatMap_lines_ne_nil (by simp))]
      exact List.mem_cons_of_mem _ hmem
    obtain ⟨l, hl, hc⟩ := List.mem_flatMap.mp hunlines
    obtain ⟨j, hj, hlj⟩ := List.mem_flatMap.mp hl
    cases List.mem_cons.mp hc with
    | inl h => exact absurd h (by decide)
    | inr hc => exact h j hj l hlj hc

/-- **What the program makes of a file**, stanza by stanza. -/
theorem program_text (hnames : ∀ n u, fixups n = some u → ' ' ∉ n) (h : Structured items) :
    program fixups (text items) = text (items.map (Item.edit Stanza.patched fixups)) := by
  rw [program, universalNewlines_eq (return_not_mem_text h.noReturn)]
  cases items with
  | nil => rfl
  | cons i items =>
    have hsub := sub_items hnames h.lines h.directives
    rw [unlines_eq (flatMap_lines_ne_nil (by simp)), sub_cons_none (blockRe_of_head (by decide)),
      unlines_eq (flatMap_lines_ne_nil (by simp)), List.cons.injEq] at hsub
    exact hsub.2

end File

/-! ### A second run -/

section Again

variable {u : Uuid} {l l' : Text} {ls : List Text} {fixups : Text → Option Uuid}
  {items : List Item}

/-- Where the pattern matches a text depends on what is in front of the value only. -/
theorem uuidLineRe_key_congr {t x y : Text} (ht : t ≠ [])
    (h : uuidLineRe (t ++ (uuidKey ++ x)) = none) : uuidLineRe (t ++ (uuidKey ++ y)) = none := by
  rw [uuidLineRe_eq_none_iff] at h ⊢
  intro c hc hpre
  have hlen : (uuidKey ++ [c]).length ≤ (t ++ uuidKey).length := by
    have := List.length_pos_iff.mpr ht
    simp only [List.length_append, List.length_singleton]
    omega
  rw [← List.append_assoc] at h hpre
  have hfront : uuidKey ++ [c] <+: t ++ uuidKey :=
    List.prefix_of_prefix_length_le hpre (List.prefix_append _ _) hlen
  exact h c hc (hfront.trans (List.prefix_append _ _))

theorem uuidLineRe_value {v rest : Text} (h : uuidLineRe (uuidKey ++ v ++ rest) = some (v, rest))
    (u : Uuid) : uuidLineRe (uuidKey ++ u.text ++ rest) = some (u.text, rest) := by
  have hstop : rest.dropWhile isUuidChar = rest := by
    rw [List.append_assoc, uuidLineRe_key] at h
    split at h
    · simp at h
    · simp only [Option.some.injEq, Prod.mk.injEq] at h
      rw [← h.2, List.dropWhile_idempotent]
  have hrest : rest.takeWhile isUuidChar = [] := by
    have happ := @List.takeWhile_append_dropWhile _ isUuidChar rest
    rw [hstop] at happ
    exact List.append_left_eq_self.mp happ
  rw [List.append_assoc, uuidLineRe_key, List.takeWhile_append_of_pos u.chars,
    List.dropWhile_append_of_pos u.chars, hrest, hstop, List.append_nil, if_neg u.ne_nil]

/-- A value that was set is found again at its place. -/
theorem subnUuid_again (h : subnUuid u l = some l') : subnUuid u l' = some l' := by
  obtain ⟨b, v, a, hr, -, -, rfl⟩ := subnUuid_eq_some h
  obtain ⟨t, -, -, hm, hbefore⟩ := search_some hr
  obtain ⟨t', rfl, hv, -, ha⟩ := uuidLineRe_eq_some hm
  have ht : uuidKey ++ t' = uuidKey ++ v ++ a := by
    rw [List.append_assoc, ← hv, ← ha, List.takeWhile_append_dropWhile]
  rw [ht] at hm hbefore
  have hnone : ∀ w, w <:+ b → w ≠ [] → uuidLineRe (w ++ (uuidKey ++ u.text ++ a)) = none := by
    intro w hw hne
    have hb := hbefore w hw hne
    rw [List.append_assoc uuidKey] at hb ⊢
    exact uuidLineRe_key_congr hne hb
  have hfound : search uuidLineRe (uuidKey ++ u.text ++ a) = some ([], u.text, a) :=
    search_cons_some (uuidLineRe_value hm u)
  have hagain : search uuidLineRe (b ++ (uuidKey ++ u.text ++ a)) = some (b, u.text, a) := by
    rw [search_append hnone, hfound]
    simp
  rw [List.append_assoc b, List.append_assoc b, subnUuid, hagain]
  simp

theorem patchedLines_again (u : Uuid) (ls : List Text) :
    patchedLines u (patchedLines u ls) = patchedLines u ls := by
  induction ls with
  | nil => rfl
  | cons l ls ih =>
    cases hl : subnUuid u l with
    | some l' => simp [patchedLines, patchLines, hl, subnUuid_again hl]
    | none =>
      have hcons : ∀ ks, patchedLines u (l :: ks) = l :: patchedLines u ks := by
        intro ks
        cases hks : patchLines u ks <;> simp [patchedLines, patchLines, hl, hks]
      rw [hcons, hcons, ih]

theorem patched_again (u : Uuid) (s : Stanza) : (s.patched u).patched u = s.patched u := by
  simp [Stanza.patched, patchedLines_again]

theorem edit_patched_again (fixups : Text → Option Uuid) (i : Item) :
    Item.edit Stanza.patched fixups (Item.edit Stanza.patched fixups i) =
      Item.edit Stanza.patched fixups i := by
  cases i with
  | line l h => rfl
  | stanza s =>
    cases hs : fixups s.name with
    | none => simp [Item.edit, hs]
    | some u =>
      have hname : fixups (s.patched u).name = some u := hs
      simp [Item.edit, hs, hname, patched_again]

/-- No end of a stanza comes into a line. -/
theorem closing_not_infix (hl : ¬closing <:+: l) (h : subnUuid u l = some l') :
    ¬closing <:+: l' := by
  obtain ⟨b, v, a, -, rfl, -, rfl⟩ := subnUuid_eq_some h
  have hkey : uuidKey = uuidKey.dropLast ++ [':'] := rfl
  intro hin
  have hin' : closing <:+: b ++ uuidKey.dropLast ++ ':' :: (u.text ++ a) := by
    rw [hkey] at hin
    simpa using hin
  cases infix_of_sep (by decide) hin' with
  | inl h =>
    refine hl (h.trans ⟨[], ':' :: (v ++ a), ?_⟩)
    rw [hkey]
    simp
  | inr h =>
    have hhead : closing = '<' :: closing.tail := rfl
    rw [hhead] at h
    have ha : '<' :: closing.tail <:+: a := infix_of_head h (not_mem_of_isUuidChar (by decide))
    exact hl (ha.trans (List.suffix_append _ _).isInfix)

theorem mem_edit_line {f : Uuid → Stanza → Stanza} {l : Text} {h : '\n' ∉ l}
    (hmem : Item.line l h ∈ items.map (Item.edit f fixups)) : Item.line l h ∈ items := by
  obtain ⟨i, hi, heq⟩ := List.mem_map.mp hmem
  cases i with
  | line l' h' =>
    cases heq
    exact hi
  | stanza s =>
    rw [Item.edit] at heq
    split at heq <;> cases heq

theorem mem_edit_stanza {f : Uuid → Stanza → Stanza} {s : Stanza}
    (hmem : Item.stanza s ∈ items.map (Item.edit f fixups)) :
    Item.stanza s ∈ items ∨ ∃ s' u, Item.stanza s' ∈ items ∧ s = f u s' := by
  obtain ⟨i, hi, heq⟩ := List.mem_map.mp hmem
  cases i with
  | line l h => cases heq
  | stanza s' =>
    rw [Item.edit] at heq
    split at heq
    · cases heq
      exact .inl hi
    · rename_i u _
      cases heq
      exact .inr ⟨s', u, hi, rfl⟩

theorem Structured.patched (h : Structured items) :
    Structured (items.map (Item.edit Stanza.patched fixups)) where
  noReturn := by
    intro i hi l hl
    cases i with
    | line l' hl' => exact h.noReturn _ (mem_edit_line hi) l hl
    | stanza s =>
      cases mem_edit_stanza hi with
      | inl hs => exact h.noReturn _ hs l hl
      | inr hs =>
        obtain ⟨s', u, hs', rfl⟩ := hs
        have hold := h.noReturn _ hs'
        simp only [Item.lines, List.forall_mem_cons, List.forall_mem_append] at hold
        have hnew : ∀ l ∈ (Item.stanza (s'.patched u)).lines, '\r' ∉ l := by
          simp only [Item.lines, List.forall_mem_cons, List.forall_mem_append]
          exact ⟨hold.1, patchedLines_forall
            (fun _ _ => subnUuid_chars (by decide) (by decide)) hold.2.1, hold.2.2⟩
        exact hnew l hl
  lines := fun l hl hmem => h.lines l hl (mem_edit_line hmem)
  directives := by
    intro s hs
    cases mem_edit_stanza hs with
    | inl hs => exact h.directives s hs
    | inr hs =>
      obtain ⟨s', u, hs', rfl⟩ := hs
      exact patchedLines_forall (fun _ _ => closing_not_infix) (h.directives s' hs')

end Again

/-! ## When the fixup is right -/

section Right

variable {u : Uuid} {l l' : Text} {ls : List Text} {fixups : Text → Option Uuid}
  {items : List Item}

theorem isUuidLine_iff : isUuidLine l = true ↔ ∃ t, l = "UUID ".toList ++ t := by
  rw [isUuidLine, List.isPrefixOf_iff_prefix]
  exact ⟨fun ⟨t, h⟩ => ⟨t, h.symm⟩, fun ⟨t, h⟩ => ⟨t, h.symm⟩⟩

/-- A line that starts with the key is a UUID directive. -/
theorem isUuidLine_key (t : Text) : isUuidLine (uuidKey ++ t) = true :=
  isUuidLine_iff.mpr ⟨"urn:uuid:".toList ++ t, rfl⟩

theorem search_uuidLine (u : Uuid) : search uuidLineRe (uuidLine u) ≠ none := by
  have hre : uuidLineRe (uuidLine u) = some (u.text, []) := by
    have h := @List.takeWhile_append_of_pos _ _ u.text [] u.chars
    have h' := @List.dropWhile_append_of_pos _ _ u.text [] u.chars
    rw [List.append_nil] at h h'
    rw [uuidLine, uuidLineRe_key, h, h']
    simp [u.ne_nil]
  obtain ⟨c, t, hc⟩ : ∃ c t, uuidLine u = c :: t := ⟨_, _, rfl⟩
  rw [hc] at hre ⊢
  rw [search_cons_some hre]
  simp

theorem eq_settleLines_iff : ls = settleLines u ls ↔ Settled u ls := by
  induction ls with
  | nil => simp [settleLines, Settled]
  | cons l ls ih =>
    cases hl : isUuidLine l with
    | true => simp [settleLines, Settled, hl]
    | false =>
      simp only [Settled, settleLines, hl, List.find?_cons] at ih ⊢
      simp [ih]

/-- **When the UUID directive changes and nothing else.** -/
theorem patchLines_eq_settle : patchedLines u ls = settleLines u ls ↔ Found u ls := by
  induction ls with
  | nil => simp [patchedLines, patchLines, settleLines, Found]
  | cons l ls ih =>
    cases hl : search uuidLineRe l with
    | none =>
      have hsub : subnUuid u l = none := by rw [subnUuid, hl, Option.map_none]
      have hcons : patchedLines u (l :: ls) = l :: patchedLines u ls := by
        cases hks : patchLines u ls <;> simp [patchedLines, patchLines, hsub, hks]
      have hfound : Found u (l :: ls) ↔ isUuidLine l = false ∧ Found u ls := by
        rw [Found, hl]
      rw [hcons, hfound, settleLines, ← ih]
      cases hline : isUuidLine l with
      | true =>
        have hne : l ≠ uuidLine u := fun h => search_uuidLine u (h ▸ hl)
        simp [hne]
      | false => simp
    | some r =>
      obtain ⟨b, v, a⟩ := r
      have hsub : subnUuid u l = some (b ++ uuidKey ++ u.text ++ a) := by
        rw [subnUuid, hl, Option.map_some]
      have hcons : patchedLines u (l :: ls) = (b ++ uuidKey ++ u.text ++ a) :: ls := by
        simp [patchedLines, patchLines, hsub]
      obtain ⟨b', v', a', hr, hlv, -, -⟩ := subnUuid_eq_some hsub
      have hfound : Found u (l :: ls) ↔ (b = [] ∧ a = []) ∨
          (v = u.text ∧ isUuidLine l = false ∧ Settled u ls) := by
        rw [Found, hl]
      rw [hl] at hr
      cases hr
      rw [hcons, hfound, settleLines]
      cases hline : isUuidLine l with
      | true =>
        have hlen : b ++ uuidKey ++ u.text ++ a = uuidLine u ↔ b = [] ∧ a = [] := by
          constructor
          · intro h
            have := congrArg List.length h
            simp only [uuidLine, List.length_append] at this
            exact ⟨List.length_eq_zero_iff.mp (by omega), List.length_eq_zero_iff.mp (by omega)⟩
          · rintro ⟨rfl, rfl⟩
            simp [uuidLine]
        rw [if_pos rfl, List.cons.injEq, hlen]
        simp
      | false =>
        have hb : b ≠ [] := by
          intro hb
          rw [hlv, hb, List.nil_append, List.append_assoc, isUuidLine_key] at hline
          exact absurd hline (by simp)
        have hv : b ++ uuidKey ++ u.text ++ a = l ↔ v = u.text := by
          rw [hlv, List.append_left_inj, List.append_right_inj]
          exact eq_comm
        rw [if_neg (by simp), List.cons.injEq, hv, eq_settleLines_iff]
        simp [hb]

theorem lines_newline (i : Item) : ∀ l ∈ i.lines, '\n' ∉ l := by
  cases i with
  | line l h => simpa [Item.lines] using h
  | stanza s =>
    simp only [Item.lines, List.forall_mem_cons, List.forall_mem_append]
    refine ⟨?_, s.directives_lines, by simp [closing]⟩
    have hname : '\n' ∉ s.name := fun h => (s.name_chars _ h).2 rfl
    simp [header, opening, hname]

/-- A file has its lines once. -/
theorem text_inj {js : List Item} (h : text items = text js) (hi : items ≠ []) (hj : js ≠ []) :
    items.flatMap Item.lines = js.flatMap Item.lines := by
  have hlines : ∀ (is : List Item), ∀ l ∈ is.flatMap Item.lines, '\n' ∉ l := by
    intro is l hl
    obtain ⟨i, -, hl⟩ := List.mem_flatMap.mp hl
    exact lines_newline i l hl
  rw [← List.splitOn_intercalate '\n' (hlines items) (flatMap_lines_ne_nil hi),
    ← List.splitOn_intercalate '\n' (hlines js) (flatMap_lines_ne_nil hj)]
  exact congrArg _ h

/-- Two ways to change stanzas that keep the number of lines. -/
theorem flatMap_lines_inj {f g : Item → Item}
    (hlen : ∀ i, (f i).lines.length = (g i).lines.length)
    (h : (items.map f).flatMap Item.lines = (items.map g).flatMap Item.lines) :
    ∀ i ∈ items, (f i).lines = (g i).lines := by
  induction items with
  | nil => simp
  | cons i items ih =>
    rw [List.map_cons, List.map_cons, List.flatMap_cons, List.flatMap_cons] at h
    obtain ⟨hi, hitems⟩ := List.append_inj h (hlen i)
    rw [List.forall_mem_cons]
    exact ⟨hi, ih hitems⟩

theorem length_settleLines (u : Uuid) (ls : List Text) :
    (settleLines u ls).length = ls.length := by
  induction ls with
  | nil => rfl
  | cons l ls ih =>
    rw [settleLines]
    split <;> simp [ih]

theorem length_patchedLines (u : Uuid) (ls : List Text) :
    (patchedLines u ls).length = ls.length := by
  induction ls with
  | nil => rfl
  | cons l ls ih =>
    unfold patchedLines at ih ⊢
    cases hl : subnUuid u l <;> cases hks : patchLines u ls <;> simp_all [patchLines]

theorem length_edit (fixups : Text → Option Uuid) (i : Item) :
    (Item.edit Stanza.patched fixups i).lines.length =
      (Item.edit Stanza.settle fixups i).lines.length := by
  cases i with
  | line l h => rfl
  | stanza s =>
    cases hu : fixups s.name with
    | none => rw [edit_of_none hu, edit_of_none hu]
    | some u =>
      rw [edit_of_some hu, edit_of_some hu]
      simp [Item.lines, Stanza.patched, Stanza.settle, length_settleLines, length_patchedLines]

/-- The file is the intended one when each stanza is. -/
theorem text_edit_iff :
    text (items.map (Item.edit Stanza.patched fixups)) =
        text (items.map (Item.edit Stanza.settle fixups)) ↔
      ∀ s, Item.stanza s ∈ items → ∀ u, fixups s.name = some u → Found u s.directives := by
  constructor
  · intro h s hs u hu
    have hne : items ≠ [] := List.ne_nil_of_mem hs
    have hlines := flatMap_lines_inj (length_edit fixups)
      (text_inj h (by simpa using hne) (by simpa using hne)) _ hs
    simp only [Item.edit, hu, Item.lines, Stanza.patched, Stanza.settle, List.cons.injEq,
      List.append_cancel_right_eq, true_and] at hlines
    exact patchLines_eq_settle.mp hlines
  · intro h
    congr 1
    refine List.map_congr_left fun i hi => ?_
    cases i with
    | line l h => rfl
    | stanza s =>
      cases hu : fixups s.name with
      | none => rw [edit_of_none hu, edit_of_none hu]
      | some u =>
        have heq := patchLines_eq_settle.mpr (h s hi u hu)
        rw [edit_of_some hu, edit_of_some hu]
        simp [Stanza.patched, Stanza.settle, heq]

variable {sha1 : List UInt8 → Vector UInt8 20} {names : List PrinterName}

theorem space_not_mem_name {n : Text} (h : fixupsOf sha1 names n = some u) : ' ' ∉ n := by
  unfold fixupsOf at h
  split at h
  · rename_i hmem
    obtain ⟨name, -, rfl⟩ := List.mem_map.mp hmem
    intro hspace
    have := List.all_eq_true.mp name.chars _ hspace
    exact absurd this (by decide)
  · simp at h

/-- With no names there is no script, and with some it is the program. -/
theorem fixup_text (h : Structured items) :
    fixup sha1 names (text items) =
      text (items.map (Item.edit Stanza.patched (fixupsOf sha1 names))) := by
  unfold fixup buildPrinterUuidFixupScript
  split_ifs with hnames
  · have hid : ∀ i, Item.edit Stanza.patched (fixupsOf sha1 names) i = i := by
      intro i
      cases i with
      | line l h => rfl
      | stanza s => exact edit_of_none (by simp [fixupsOf, hnames])
    rw [List.map_congr_left fun i _ => hid i, List.map_id']
  · exact program_text (fun n u => space_not_mem_name) h

/-- **The fixup changes the UUIDs of the named printers and nothing else** exactly when, in each
of their stanzas, what looks like a UUID first is the UUID directive. -/
theorem fixed_iff (sha1 : List UInt8 → Vector UInt8 20) (names : List PrinterName)
    (items : List Item) (h : Structured items) :
    Fixed sha1 names items ↔
      ∀ s, Item.stanza s ∈ items → s.name ∈ names.map (·.text) →
        Found (computeStablePrinterUuid sha1 s.name) s.directives := by
  have hfound : (∀ s, Item.stanza s ∈ items → s.name ∈ names.map (·.text) →
      Found (computeStablePrinterUuid sha1 s.name) s.directives) ↔
      ∀ s, Item.stanza s ∈ items → ∀ u, fixupsOf sha1 names s.name = some u →
        Found u s.directives := by
    simp only [fixupsOf, Option.ite_none_right_eq_some, Option.some.injEq]
    exact ⟨fun h s hs u hu => hu.2 ▸ h s hs hu.1, fun h s hs hn => h s hs _ ⟨hn, rfl⟩⟩
  rw [hfound, ← text_edit_iff]
  constructor
  · intro hfixed
    rw [← fixup_text h]
    exact hfixed.output
  · intro heq
    refine ⟨(fixup_text h).trans heq, ?_⟩
    rw [fixup_text h, fixup_text h.patched, List.map_map]
    exact congrArg text (List.map_congr_left fun i _ => edit_patched_again _ i)

end Right

/-! ### A printer called Office -/

def office : PrinterName := ⟨['O', 'f', 'f', 'i', 'c', 'e'], by decide, by decide, by decide⟩

/-- The digest of the namespace and the name of `office`. -/
def officeSha1 (_ : List UInt8) : Vector UInt8 20 :=
  #v[0xfb, 0xa4, 0x34, 0x88, 0x4e, 0xe7, 0x9d, 0xfd, 0xc9, 0x75, 0xab, 0x1d, 0x66, 0x17, 0x3a, 0x44,
    0x60, 0x97, 0x15, 0x4e]

theorem uuid_office : (computeStablePrinterUuid officeSha1 office.text).text =
    "fba43488-4ee7-5dfd-8975-ab1d66173a44".toList := by decide +kernel

theorem office_chars : ∀ c ∈ office.text, c ≠ '>' ∧ c ≠ '\n' := by
  have hall : office.text.all (fun c => c ≠ '>' ∧ c ≠ '\n') = true := by decide
  intro c hc
  exact of_decide_eq_true (List.all_eq_true.mp hall c hc)

theorem officeUuid_line : ∀ l ∈ ["UUID urn:uuid:a12d7b3a".toList], '\n' ∉ l := by
  rw [List.forall_mem_singleton]
  decide

/-- The stanza of `office`, with one line before its UUID. -/
def officeStanza (info : Text) (hinfo : '\n' ∉ info) : Stanza where
  name := office.text
  directives := [info, "UUID urn:uuid:a12d7b3a".toList]
  name_ne_nil := by decide
  name_chars := office_chars
  directives_lines := List.forall_mem_cons.mpr ⟨hinfo, officeUuid_line⟩

def plainInfo : Text := "Info In the hall".toList

def uuidInfo : Text := "Info was UUID urn:uuid:1".toList

theorem plainInfo_line : '\n' ∉ plainInfo := by decide

theorem uuidInfo_line : '\n' ∉ uuidInfo := by decide

/-- The file of one stanza. -/
def officeFile (info : Text) (h : '\n' ∉ info) : List Item := [.stanza (officeStanza info h)]

theorem officeFile_structured {info : Text} (h : '\n' ∉ info) (hr : '\r' ∉ info)
    (hc : ¬closing <:+: info) : Structured (officeFile info h) where
  noReturn := by
    simp only [officeFile, List.forall_mem_singleton, Item.lines, officeStanza,
      List.forall_mem_cons, List.forall_mem_append]
    exact ⟨by decide, ⟨hr, by decide⟩, by decide⟩
  lines := by
    intro l hl hmem
    cases List.mem_singleton.mp hmem
  directives := by
    intro s hs
    cases List.mem_singleton.mp hs
    rw [officeStanza, List.forall_mem_cons]
    exact ⟨hc, by decide⟩

/-- A file that gets the UUID. -/
theorem fixed_iff_office : Fixed officeSha1 [office] (officeFile plainInfo plainInfo_line) := by
  have h : Structured (officeFile plainInfo plainInfo_line) :=
    officeFile_structured plainInfo_line (by decide) (by decide)
  refine (fixed_iff officeSha1 [office] _ h).mpr fun s hs _ => ?_
  cases List.mem_singleton.mp hs
  have hinfo : search uuidLineRe plainInfo = none := by decide
  have huuid : search uuidLineRe "UUID urn:uuid:a12d7b3a".toList =
      some ([], "a12d7b3a".toList, []) := by decide
  simp only [officeStanza, Found, hinfo, huuid]
  exact ⟨by decide, .inl ⟨trivial, trivial⟩⟩

/-- A UUID in the description is changed, and the UUID is not. -/
theorem fixed_office_info : ¬Fixed officeSha1 [office] (officeFile uuidInfo uuidInfo_line) := by
  intro hfixed
  have h : Structured (officeFile uuidInfo uuidInfo_line) :=
    officeFile_structured uuidInfo_line (by decide) (by decide)
  have heq := hfixed.output
  rw [fixup_text h, text_edit_iff] at heq
  have hu : fixupsOf officeSha1 [office] office.text =
      some (computeStablePrinterUuid officeSha1 office.text) := if_pos (by decide)
  have hfound := heq (officeStanza uuidInfo uuidInfo_line) (by simp [officeFile]) _ hu
  have hinfo : search uuidLineRe uuidInfo = some ("Info was ".toList, "1".toList, []) := by decide
  simp only [officeStanza, Found, hinfo] at hfound
  cases hfound with
  | inl h => exact absurd h.1 (by decide)
  | inr h => exact absurd (h.1.trans uuid_office) (by decide)

end HaAddons.Cups
