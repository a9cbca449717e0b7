import HaAddons.Lib.YamlFlat
import HaAddons.SecretsSync.Writer

/-!
# The text of secrets.yaml is read back

`_quote` writes a JSON string and replaces the characters that YAML takes for line breaks or does not
admit. What is left is a double-quoted scalar on one line that is read as the text it was made from.

* `spells_quote` — so it is, for every text.
* `secrets_roundtrip` — a loader that reads flat mappings as YAML 1.1 says gives the secrets back, or
  null where there are none, and `verify_roundtrip` accepts it.
-/

namespace HaAddons.SecretsSync

open Yaml (Spells)

/-! ## One character -/

/-- What stands for a character between the quotes. -/
def quoteChar (c : Char) : List Char :=
  (jsonChar c).flatMap fun d => if escaped d then unicodeEscape d else [d]

theorem toList_quote (text : String) :
    (quote text).toList = '"' :: (text.toList.flatMap quoteChar ++ ['"']) := by
  have hquote : escaped '"' = false := by decide
  have hfun : quoteChar = fun c =>
      (jsonChar c).flatMap fun d => if escaped d then unicodeEscape d else [d] := rfl
  rw [quote, String.toList_ofList]
  simp [hfun, hquote, List.flatMap_assoc]

/-- A character of the text as it may stand on the line. -/
def OnLine (c : Char) : Prop :=
  Yaml.admits .v11 c = true ∧ Yaml.isBreak .v11 c = false ∧ c ≠ '\r'

instance (c : Char) : Decidable (OnLine c) := inferInstanceAs (Decidable (_ ∧ _ ∧ _))

/-- A lower-case hexadecimal digit counts as what it stands for. -/
theorem digitChar_hex (d : ℕ) (hd : d < 16) (k : ℕ) :
    (if (Nat.digitChar d).isDigit then some (k * 16 + ((Nat.digitChar d).toNat - 48))
    else if 'a' ≤ Nat.digitChar d ∧ Nat.digitChar d ≤ 'f' then
      some (k * 16 + ((Nat.digitChar d).toNat - 87))
    else if 'A' ≤ Nat.digitChar d ∧ Nat.digitChar d ≤ 'F' then
      some (k * 16 + ((Nat.digitChar d).toNat - 55))
    else none) = some (k * 16 + d) := by
  have hcases : ∀ d < 16, (Nat.digitChar d).isDigit = true ∧ (Nat.digitChar d).toNat - 48 = d ∨
      (Nat.digitChar d).isDigit = false ∧ ('a' ≤ Nat.digitChar d ∧ Nat.digitChar d ≤ 'f') ∧
        (Nat.digitChar d).toNat - 87 = d := by decide
  rcases hcases d hd with ⟨h, hv⟩ | ⟨h, hl, hv⟩
  · rw [if_pos h, hv]
  · rw [if_neg (by simp [h]), if_pos hl, hv]

theorem hexValue_digits {n : ℕ} (h : n < 65536) :
    Doc.hexValue ([4096, 256, 16, 1].map fun b => Nat.digitChar (n / b % 16)) = some n := by
  have hlt : ∀ m, m % 16 < 16 := fun m => Nat.mod_lt _ (by omega)
  simp only [Doc.hexValue, List.map_cons, List.map_nil, List.foldlM_cons, List.foldlM_nil,
    digitChar_hex _ (hlt _), Option.bind_eq_bind, Option.bind_some]
  show some _ = some n
  congr 1
  omega

theorem hexChar_unicodeEscape {c : Char} (h : c.toNat < 65536) :
    Doc.hexChar ([4096, 256, 16, 1].map fun b => Nat.digitChar (c.toNat / b % 16)) = some c := by
  have hvalid : c.toNat.isValidChar := c.valid
  rw [Doc.hexChar, hexValue_digits h]
  show (if c.toNat.isValidChar then some (Char.ofNat c.toNat) else none) = some c
  rw [if_pos hvalid, Char.ofNat_toNat]

/-- **The class of `_ESCAPE`.** It is what may not stand on the line and is not escaped by JSON. -/
theorem escaped_iff {c : Char} (h : 0x20 ≤ c.toNat) : escaped c = false ↔ OnLine c := by
  have hsafe : escaped c = false ↔ Yaml.isSafe .v11 c = true := by
    rw [Yaml.isSafe, Bool.not_eq_true']
    exact Iff.rfl
  have hlow : c ≠ '\n' ∧ c ≠ '\r' := by
    constructor <;>
    · rintro rfl
      exact absurd h (by decide)
  rw [hsafe, Yaml.isSafe_iff, OnLine, Yaml.isBreak]
  simp [h, hlow]

/-- The escape of a character is on the line. -/
theorem onLine_unicodeEscape (c : Char) : ∀ d ∈ unicodeEscape c, OnLine d := by
  have hdigit : ∀ d < 16, OnLine (Nat.digitChar d) := by decide
  have hstart : OnLine '\\' ∧ OnLine 'u' := by decide
  intro d hd
  simp only [unicodeEscape, List.map_cons, List.map_nil, List.mem_cons, List.not_mem_nil,
    or_false] at hd
  rcases hd with rfl | rfl | rfl | rfl | rfl | rfl
  · exact hstart.1
  · exact hstart.2
  all_goals exact hdigit _ (Nat.mod_lt _ (by omega))

theorem unescaped_unicodeEscape (c : Char) :
    ((unicodeEscape c).flatMap fun d => if escaped d then unicodeEscape d else [d]) =
      unicodeEscape c := by
  have hall : ∀ l : List Char, (∀ d ∈ l, OnLine d) →
      (l.flatMap fun d => if escaped d then unicodeEscape d else [d]) = l := by
    intro l hl
    induction l with
    | nil => rfl
    | cons d l ih =>
      have hd : escaped d = false := by
        by_cases hle : 0x20 ≤ d.toNat
        · exact (escaped_iff hle).mpr (hl d (by simp))
        · simp [escaped]
          omega
      rw [List.flatMap_cons, ih fun d hd => hl d (by simp [hd]), hd]
      rfl
  exact hall _ (onLine_unicodeEscape c)

/-- **One character.** It stands for itself, or for itself after a backslash, or its code does. -/
theorem quoteChar_cases (c : Char) :
    (quoteChar c = [c] ∧ c ≠ '"' ∧ c ≠ '\\' ∧ OnLine c) ∨
      (∃ e, quoteChar c = ['\\', e] ∧ Doc.namedEscape e = some c ∧ OnLine e) ∨
      (quoteChar c = unicodeEscape c ∧ c.toNat < 65536) := by
  by_cases hquote : c = '"'
  · exact .inr (.inl ⟨'"', by rw [hquote]; decide, by rw [hquote]; rfl, by decide⟩)
  by_cases hslash : c = '\\'
  · exact .inr (.inl ⟨'\\', by rw [hslash]; decide, by rw [hslash]; rfl, by decide⟩)
  by_cases hn : c = '\n'
  · exact .inr (.inl ⟨'n', by rw [hn]; decide, by rw [hn]; rfl, by decide⟩)
  by_cases hr : c = '\r'
  · exact .inr (.inl ⟨'r', by rw [hr]; decide, by rw [hr]; rfl, by decide⟩)
  by_cases ht : c = '\t'
  · exact .inr (.inl ⟨'t', by rw [ht]; decide, by rw [ht]; rfl, by decide⟩)
  by_cases hb : c = '\x08'
  · exact .inr (.inl ⟨'b', by rw [hb]; decide, by rw [hb]; rfl, by decide⟩)
  by_cases hf : c = '\x0c'
  · exact .inr (.inl ⟨'f', by rw [hf]; decide, by rw [hf]; rfl, by decide⟩)
  have hjson : jsonChar c = if c.toNat < 0x20 then unicodeEscape c else [c] := by
    simp only [jsonChar, hquote, hslash, hn, hr, ht, hb, hf, if_false]
  by_cases hlow : c.toNat < 0x20
  · refine .inr (.inr ⟨?_, by omega⟩)
    rw [quoteChar, hjson, if_pos hlow]
    exact unescaped_unicodeEscape c
  · have hchar : quoteChar c = if escaped c then unicodeEscape c else [c] := by
      rw [quoteChar, hjson, if_neg hlow, List.flatMap_singleton]
    rw [hchar]
    by_cases hesc : escaped c = true
    · refine .inr (.inr ⟨if_pos hesc, ?_⟩)
      simp [escaped] at hesc
      omega
    · rw [Bool.not_eq_true] at hesc
      refine .inl ⟨if_neg (by simp [hesc]), hquote, hslash, ?_⟩
      exact (escaped_iff (Nat.not_lt.mp hlow)).mp hesc

/-! ## A text -/

/-- What stands for a text between the quotes. -/
def quoteText (text : String) : List Char := text.toList.flatMap quoteChar

theorem quoted_quoteText (x white s : List Char) :
    Yaml.quoted .v11 0 (.text white) (x.flatMap quoteChar ++ '"' :: s) = some (white ++ x, s) := by
  induction x generalizing white with
  | nil => simp [Yaml.quoted, Yaml.Pending.flush]
  | cons c x ih =>
    rw [List.flatMap_cons, List.append_assoc]
    rcases quoteChar_cases c with ⟨hc, hquote, hslash, honline⟩ | ⟨e, hc, he, -⟩ | ⟨hc, hlt⟩
    · rw [hc, List.singleton_append, Yaml.quoted_plain hquote hslash, Yaml.Pending.step,
        honline.2.1]
      by_cases hwhite : c = ' ' ∨ c = '\t'
      · simp [hwhite, ih]
      · simp [hwhite, ih]
    · rw [hc, List.cons_append, List.singleton_append, Yaml.quoted_named he]
      simp [Yaml.Pending.flush, ih]
    · have hhex := hexChar_unicodeEscape hlt
      simp only [List.map_cons, List.map_nil] at hhex
      rw [hc, unicodeEscape]
      simp only [List.map_cons, List.map_nil, List.cons_append, List.nil_append]
      rw [Yaml.quoted, hhex]
      simp [Yaml.Pending.flush, ih]

/-- **Every text is spelled by its quote.** -/
theorem spells_quote (text : String) : Spells (quoteText text) text := by
  refine ⟨fun s => quoted_quoteText text.toList [] s, fun c hc => ?_⟩
  obtain ⟨d, -, hc⟩ := List.mem_flatMap.mp hc
  rcases quoteChar_cases d with ⟨hd, -, -, honline⟩ | ⟨e, hd, -, honline⟩ | ⟨hd, -⟩
  · rw [hd, List.mem_singleton] at hc
    exact hc ▸ honline
  · rw [hd, List.mem_cons, List.mem_singleton] at hc
    rcases hc with rfl | rfl
    · show OnLine '\\'
      decide
    · exact honline
  · exact onLine_unicodeEscape d c (hd ▸ hc)

/-! ## The file -/

/-- A flat mapping as Python gets it; a stream without content is null, and of two entries with one
key the later counts. -/
def flatDoc (es : List (String × String)) : YamlDoc :=
  if es = [] then .null else .strings (Dict.ofList es)

/-- The loader reads flat mappings as YAML 1.1 says. -/
def ReadsFlat (yaml : String → Except String YamlDoc) : Prop :=
  ∀ text es, Yaml.readFlat text.toList = some es → yaml text = .ok (flatDoc es)

/-- The header without its number sign and its end. -/
def headerText : List Char := " managed by Secrets Sync - do not edit".toList

/-- The entries in the order of the file. -/
def sorted (secrets : Dict String String) : List (String × String) :=
  secrets.entries.insertionSort fun a b => a.1 ≤ b.1

theorem mem_sorted {secrets : Dict String String} {e : String × String} :
    e ∈ sorted secrets ↔ e ∈ secrets.entries := List.mem_insertionSort ..

theorem toList_renderSecrets (secrets : Dict String String) :
    (renderSecrets secrets).toList = '#' :: (headerText ++ '\n' ::
      ((sorted secrets).map fun e => (quoteText e.1, quoteText e.2)).flatMap Yaml.flatLine) := by
  have hheader : header.toList = '#' :: (headerText ++ ['\n']) := by decide
  have hline : ∀ e : String × String, (quote e.1 ++ ": " ++ quote e.2 ++ "\n").toList =
      Yaml.flatLine (quoteText e.1, quoteText e.2) := by
    intro e
    simp [toList_quote, Yaml.flatLine, quoteText]
  rw [renderSecrets, String.toList_append, String.toList_join, hheader, List.flatMap_map,
    List.flatMap_map]
  simp only [hline]
  simp [sorted]

theorem readFlat_renderSecrets {secrets : Dict String String}
    (hkeys : ∀ k ∈ secrets.keys, (quote k).length ≤ 1024) :
    Yaml.readFlat (renderSecrets secrets).toList = some (sorted secrets) := by
  have hcomment : (headerText.all fun c => OnLine c) = true := by decide
  rw [toList_renderSecrets]
  refine Yaml.readFlat_lines
    (fun c hc => of_decide_eq_true (List.all_eq_true.mp hcomment c hc)) ?_
  rw [List.forall₂_map_left_iff, List.forall₂_same]
  intro e he
  have hkey : (quote e.1).length ≤ 1024 := hkeys e.1 (List.mem_map_of_mem (mem_sorted.mp he))
  rw [← String.length_toList, toList_quote] at hkey
  simp only [List.length_cons, List.length_append, List.length_nil] at hkey
  refine ⟨spells_quote e.1, spells_quote e.2, ?_⟩
  show (e.1.toList.flatMap quoteChar).length + 2 ≤ 1024
  omega

theorem get?_sorted (secrets : Dict String String) (k : String) :
    (Dict.ofList (sorted secrets)).get? k = secrets.get? k := by
  have hnodup : ((sorted secrets).map Prod.fst).Nodup :=
    (((List.perm_insertionSort _ secrets.entries).map Prod.fst).nodup_iff).mpr secrets.nodup
  refine Option.ext fun v => ?_
  rw [← Dict.mem_entries, Dict.entries_ofList hnodup, mem_sorted, Dict.mem_entries]

/-- **secrets.yaml round-trips.** With keys that a simple key can hold, the loader gives back the
secrets, or null where there are none, and `verify_roundtrip` does not reject them. -/
theorem secrets_roundtrip {yaml : String → Except String YamlDoc} (hyaml : ReadsFlat yaml)
    (secrets : Dict String String) (hkeys : ∀ k ∈ secrets.keys, (quote k).length ≤ 1024) :
    (secrets.entries ≠ [] → ∃ d, yaml (renderSecrets secrets) = .ok (.strings d) ∧
        ∀ k, d.get? k = secrets.get? k) ∧
      (secrets.entries = [] → yaml (renderSecrets secrets) = .ok .null) ∧
      verifyRoundtrip yaml (renderSecrets secrets) secrets = pure () := by
  have hload := hyaml _ _ (readFlat_renderSecrets hkeys)
  have hnil : sorted secrets = [] ↔ secrets.entries = [] := by
    rw [← List.length_eq_zero_iff, ← List.length_eq_zero_iff, sorted, List.length_insertionSort]
  have hsame : (flatDoc (sorted secrets)).isSecrets secrets = true := by
    unfold flatDoc
    split_ifs with h
    · refine Dict.same_iff.mpr fun k => ?_
      exact (congrArg (fun es => (Dict.ofList es).get? k) h).symm.trans (get?_sorted secrets k)
    · exact Dict.same_iff.mpr (get?_sorted secrets)
  refine ⟨fun h => ?_, fun h => ?_, ?_⟩
  · rw [hload, flatDoc, if_neg (mt hnil.mp h)]
    exact ⟨_, rfl, get?_sorted secrets⟩
  · rw [hload, flatDoc, if_pos (hnil.mpr h)]
  · simp only [verifyRoundtrip, hload, hsame, if_true]

/-! ## A loader -/

/-- It reads flat mappings only. -/
def flatLoader (text : String) : Except String YamlDoc :=
  match Yaml.readFlat text.toList with
  | some es => .ok (flatDoc es)
  | none => .error "YAMLError"

theorem flatLoader_reads : ReadsFlat flatLoader := by
  intro text es h
  simp only [flatLoader, h]

def wifiSecrets : Dict String String := Dict.empty.insert "wifi" "a\u2028\\\x7f\n b"

/-- A value with a line separator, a backslash, a delete character and a line feed. -/
theorem secrets_roundtrip_wifi : ∃ d,
    flatLoader (renderSecrets wifiSecrets) = .ok (.strings d) ∧
      d.get? "wifi" = some "a\u2028\\\x7f\n b" := by
  obtain ⟨h, -⟩ := secrets_roundtrip flatLoader_reads wifiSecrets (by decide)
  obtain ⟨d, hload, hget⟩ := h (by decide)
  exact ⟨d, hload, (hget "wifi").trans (by decide)⟩

/-- **No secrets.** The text is a comment, which is loaded as null and not as a mapping. -/
theorem no_secrets_null :
    ¬ ∀ yaml : String → Except String YamlDoc, ReadsFlat yaml → ∀ secrets : Dict String String,
      (∀ k ∈ secrets.keys, (quote k).length ≤ 1024) →
        ∃ d, yaml (renderSecrets secrets) = .ok (.strings d) ∧ ∀ k, d.get? k = secrets.get? k := by
  intro hall
  obtain ⟨d, hload, -⟩ := hall flatLoader flatLoader_reads .empty (by decide)
  have hread : Yaml.readFlat (renderSecrets .empty).toList = some [] := by decide
  rw [flatLoader_reads _ _ hread] at hload
  cases hload

end HaAddons.SecretsSync
