import Mathlib.Data.List.Basic
import Mathlib.Data.List.TakeWhile

/-!
# Paths of URLs

Percent-encoding as Go's `net/url` does it for paths, on bytes. A parsed URL keeps the decoded path,
and the path as it was spelled only where spelling it the usual way would give something else.

* `unescape_escape` — what `escape` writes, `unescape` reads.
* `unescape_append_cons` — decoding does not look across a byte like `/`.
* `URL.unescape_escapedPath` — the path that is sent decodes to the decoded path.
-/

namespace HaAddons

abbrev Bytes := List UInt8

instance : LawfulBEq Bytes := inferInstanceAs (LawfulBEq (List UInt8))

/-- The bytes of a text. -/
def utf8 (s : String) : List UInt8 := s.toUTF8.data.toList

namespace Percent

/-- `%` -/
def mark : UInt8 := 0x25

def unhex (c : UInt8) : Option ℕ :=
  if 0x30 ≤ c ∧ c ≤ 0x39 then some (c.toNat - 0x30)
  else if 0x61 ≤ c ∧ c ≤ 0x66 then some (c.toNat - 0x61 + 10)
  else if 0x41 ≤ c ∧ c ≤ 0x46 then some (c.toNat - 0x41 + 10)
  else none

def upperHex (n : ℕ) : UInt8 := (utf8 "0123456789ABCDEF").getD n 0

/-- `unescape(s, encodePath)`; `none` where a `%` is not followed by two digits. -/
def unescape : List UInt8 → Option (List UInt8)
  | [] => some []
  | [c] => if c = mark then none else some [c]
  | [c, a] => if c = mark then none else (unescape [a]).map (c :: ·)
  | c :: a :: b :: rest =>
    if c = mark then
      (unhex a).bind fun x => (unhex b).bind fun y =>
        (unescape rest).map (UInt8.ofNat (16 * x + y) :: ·)
    else (unescape (a :: b :: rest)).map (c :: ·)

/-- `shouldEscape(c, encodePath)`. -/
def shouldEscape (c : UInt8) : Bool :=
  !((0x61 ≤ c && c ≤ 0x7a) || (0x41 ≤ c && c ≤ 0x5a) || (0x30 ≤ c && c ≤ 0x39) ||
    c ∈ utf8 "-_.~$&+,/:;=@")

def escapeByte (c : UInt8) : List UInt8 :=
  if shouldEscape c then [mark, upperHex (c.toNat / 16), upperHex (c.toNat % 16)] else [c]

/-- `escape(s, encodePath)`. -/
def escape (s : List UInt8) : List UInt8 := s.flatMap escapeByte

/-- `validEncoded(s, encodePath)`. -/
def validEncoded (s : List UInt8) : Bool :=
  s.all fun c => c ∈ utf8 "!$&'()*+,;=:@[]%" || !shouldEscape c

/-! ## Decoding -/

theorem unescape_cons {c : UInt8} (hc : c ≠ mark) (s : List UInt8) :
    unescape (c :: s) = (unescape s).map (c :: ·) := by
  cases s with
  | nil => simp [unescape, hc]
  | cons a s =>
    cases s with
    | nil => simp [unescape, hc]
    | cons b rest => simp [unescape, hc]

theorem unescape_mark (a b : UInt8) (s : List UInt8) :
    unescape (mark :: a :: b :: s) =
      (unhex a).bind fun x => (unhex b).bind fun y =>
        (unescape s).map (UInt8.ofNat (16 * x + y) :: ·) := by
  simp [unescape]

theorem unhex_upperHex {n : ℕ} (h : n < 16) : unhex (upperHex n) = some n := by
  have hall : ∀ n < 16, unhex (upperHex n) = some n := by decide
  exact hall n h

/-- **Round trip.** -/
theorem unescape_escape (s : List UInt8) : unescape (escape s) = some s := by
  induction s with
  | nil => rfl
  | cons c s ih =>
    rw [escape, List.flatMap_cons, ← escape, escapeByte]
    have hhi : c.toNat / 16 < 16 := by
      have := c.toNat_lt
      omega
    by_cases hc : shouldEscape c = true
    · rw [if_pos hc, List.cons_append, List.cons_append, List.cons_append, List.nil_append,
        unescape_mark, unhex_upperHex hhi, unhex_upperHex (Nat.mod_lt _ (by decide)), ih]
      show some (UInt8.ofNat (16 * (c.toNat / 16) + c.toNat % 16) :: s) = some (c :: s)
      rw [Nat.div_add_mod, UInt8.ofNat_toNat]
    · have hmark : c ≠ mark := by
        rintro rfl
        exact hc (by decide)
      rw [if_neg hc, List.singleton_append, unescape_cons hmark, ih]
      rfl

/-- Bytes without a `%` are decoded as they are. -/
theorem unescape_plain_append {a : List UInt8} (ha : mark ∉ a) (b : List UInt8) :
    unescape (a ++ b) = (unescape b).map (a ++ ·) := by
  induction a with
  | nil => simp
  | cons c a ih =>
    have hc : c ≠ mark := fun h => ha (h ▸ List.mem_cons_self)
    rw [List.cons_append, unescape_cons hc, ih fun h => ha (List.mem_cons_of_mem c h),
      Option.map_map]
    rfl

theorem unescape_plain {a : List UInt8} (ha : mark ∉ a) : unescape a = some a := by
  have h := unescape_plain_append ha []
  rw [List.append_nil] at h
  rw [h]
  simp [unescape]

/-- A byte that is neither `%` nor a digit ends every escape before it. -/
theorem unescape_append_cons {c : UInt8} (hc : c ≠ mark) (hx : unhex c = none)
    (a b : List UInt8) :
    unescape (a ++ c :: b) =
      (unescape a).bind fun a' => (unescape b).map fun b' => a' ++ c :: b' := by
  fun_induction unescape a with
  | case1 =>
    rw [List.nil_append, unescape_cons hc]
    rfl
  | case2 =>
    cases b with
    | nil => simp [unescape]
    | cons d b =>
      rw [List.singleton_append, unescape_mark, hx]
      rfl
  | case3 x hmark =>
    rw [List.singleton_append, unescape_cons hmark, unescape_cons hc, Option.map_map]
    rfl
  | case4 x =>
    rw [List.cons_append, List.singleton_append, unescape_mark, hx]
    cases unhex x <;> rfl
  | case5 x y hmark ih =>
    rw [List.cons_append, unescape_cons hmark, ih]
    cases unescape [y] <;> cases unescape b <;> rfl
  | case6 x y rest ih =>
    rw [List.cons_append, List.cons_append, List.cons_append, unescape_mark, ih]
    cases unhex x with
    | none => rfl
    | some m =>
      cases unhex y with
      | none => rfl
      | some n => cases unescape rest <;> cases unescape b <;> rfl
  | case7 x y z rest hmark ih =>
    rw [List.cons_append, unescape_cons hmark, ih]
    cases unescape (y :: z :: rest) <;> cases unescape b <;> rfl

end Percent

/-! ## URLs -/

open Percent

/-- The path of `url.URL`, decoded and, where that matters, as it was spelled; and the query. -/
structure URL where
  path : List UInt8
  rawPath : List UInt8 := []
  rawQuery : List UInt8 := []
  deriving DecidableEq, Repr

inductive URLError where
  | controlCharacter
  | badEscape
  deriving DecidableEq, Repr

def URLError.text : URLError → String
  | controlCharacter => "net/url: invalid control character in URL"
  | badEscape => "invalid URL escape"

namespace URL

/-- `setPath`. -/
def setPath (p : List UInt8) (query : List UInt8) : Except URLError URL :=
  match unescape p with
  | none => .error .badEscape
  | some path => .ok ⟨path, if escape path = p then [] else p, query⟩

/-- The part of a URL before its query and its fragment. -/
def pathPart (s : List UInt8) : List UInt8 :=
  (s.takeWhile (· ≠ 0x23)).takeWhile (· ≠ 0x3f)

/-- `url.Parse` of what follows the host: path, query and fragment. -/
def parse (s : List UInt8) : Except URLError URL :=
  if (s.takeWhile (· ≠ 0x23)).any fun c => c < 0x20 || c = 0x7f then .error .controlCharacter
  else if (unescape ((s.dropWhile (· ≠ 0x23)).drop 1)).isNone then .error .badEscape
  else setPath (pathPart s) (((s.takeWhile (· ≠ 0x23)).dropWhile (· ≠ 0x3f)).drop 1)

/-- `EscapedPath`: the path as it is sent. -/
def escapedPath (u : URL) : List UInt8 :=
  if u.rawPath ≠ [] ∧ validEncoded u.rawPath ∧ unescape u.rawPath = some u.path then u.rawPath
  else if u.path = utf8 "*" then utf8 "*"
  else escape u.path

/-- What is sent decodes to the decoded path. -/
theorem unescape_escapedPath (u : URL) : unescape u.escapedPath = some u.path := by
  unfold escapedPath
  split_ifs with hraw hstar
  · exact hraw.2.2
  · rw [hstar]
    decide
  · exact unescape_escape u.path

theorem parse_path {s : List UInt8} {u : URL} (h : parse s = .ok u) :
    unescape (pathPart s) = some u.path := by
  unfold parse setPath at h
  split_ifs at h
  cases hp : unescape (pathPart s) with
  | none => simp [hp] at h
  | some path =>
    simp only [hp] at h
    cases h
    rfl

theorem pathPart_eq (s : List UInt8) :
    pathPart s = s.takeWhile fun c => c ≠ 0x3f ∧ c ≠ 0x23 := by
  rw [pathPart, List.takeWhile_takeWhile]
  simp

theorem pathPart_append (s t : List UInt8) :
    pathPart (s ++ t) = if pathPart s = s then s ++ pathPart t else pathPart s := by
  simp only [pathPart_eq]
  rw [List.takeWhile_append]
  congr 1
  exact propext ⟨fun h => (List.takeWhile_prefix _).eq_of_length h, fun h => by rw [h]⟩

end URL

end HaAddons
