import Mathlib.Data.List.SplitBy
import Mathlib.Data.Nat.Notation

/-!
# Components of URLs

`encodeURIComponent` of JavaScript and `urllib.parse.unquote` of Python, on texts of Unicode scalar
values. `replaced` is what Python puts for bytes that are no UTF-8.

* `Spells` — a piece of a URL that is read as the bytes of a text.
* `unquote_of_spells` — such a piece is unquoted to the text.
* `spells_encodeURIComponent` — what JavaScript writes is one.
-/

namespace HaAddons.Lib.Uri

abbrev Text := List Char

/-! ## Writing -/

def utf8 (s : Text) : List UInt8 := s.flatMap String.utf8EncodeChar

def hexDigit (n : ℕ) : Char := "0123456789ABCDEF".toList.getD n '0'

/-- A percent sign and two upper case digits. -/
def percent (b : UInt8) : Text := ['%', hexDigit (b.toNat / 16), hexDigit (b.toNat % 16)]

/-- Characters that `encodeURIComponent` leaves as they are. -/
def isUnreserved (c : Char) : Bool :=
  c.isAlphanum || c ∈ ['-', '_', '.', '!', '~', '*', '\'', '(', ')']

def encodeChar (c : Char) : Text :=
  if isUnreserved c then [c] else (String.utf8EncodeChar c).flatMap percent

def encodeURIComponent (s : Text) : Text := s.flatMap encodeChar

/-! ## Reading -/

def unhex (c : Char) : Option ℕ :=
  if '0' ≤ c ∧ c ≤ '9' then some (c.toNat - '0'.toNat)
  else if 'A' ≤ c ∧ c ≤ 'F' then some (c.toNat - 'A'.toNat + 10)
  else if 'a' ≤ c ∧ c ≤ 'f' then some (c.toNat - 'a'.toNat + 10)
  else none

def byte (c : Char) : UInt8 := UInt8.ofNat c.toNat

/-- The byte of two digits. -/
def hexPair (a b : Char) : Option UInt8 :=
  (unhex a).bind fun x => (unhex b).map fun y => UInt8.ofNat (16 * x + y)

/-- `unquote_to_bytes`, on ASCII: a percent sign without two digits stays. -/
def unquoteToBytes : Text → List UInt8
  | [] => []
  | [c] => [byte c]
  | [c, a] => [byte c, byte a]
  | c :: a :: b :: s =>
    if c = '%' then
      match hexPair a b with
      | some x => x :: unquoteToBytes s
      | none => byte c :: unquoteToBytes (a :: b :: s)
    else byte c :: unquoteToBytes (a :: b :: s)

def isAscii (c : Char) : Bool := c.toNat < 0x80

section Read

variable (replaced : List UInt8 → Text)

/-- `bytes.decode("utf-8", "replace")` -/
def decode (bytes : List UInt8) : Text :=
  match (ByteArray.mk bytes.toArray).utf8Decode? with
  | some s => s.toList
  | none => replaced bytes

/-- `unquote`: each run of ASCII characters is unquoted and decoded. -/
def unquote (s : Text) : Text :=
  if '%' ∈ s then
    (s.splitBy fun a b => isAscii a == isAscii b).flatMap fun run =>
      if run.all isAscii then decode replaced (unquoteToBytes run) else run
  else s

end Read

/-! ## Bytes are read back -/

theorem unquoteToBytes_cons {c : Char} (hc : c ≠ '%') (s : Text) :
    unquoteToBytes (c :: s) = byte c :: unquoteToBytes s := by
  cases s with
  | nil => rfl
  | cons a s =>
    cases s with
    | nil => rfl
    | cons b s => rw [unquoteToBytes, if_neg hc]

theorem unquoteToBytes_percent {a b : Char} {x : UInt8} (h : hexPair a b = some x) (s : Text) :
    unquoteToBytes ('%' :: a :: b :: s) = x :: unquoteToBytes s := by
  rw [unquoteToBytes, if_pos rfl, h]

theorem unhex_hexDigit {n : ℕ} (h : n < 16) : unhex (hexDigit n) = some n := by
  have hall : ∀ n < 16, unhex (hexDigit n) = some n := by decide
  exact hall n h

/-- **A byte is read back.** -/
theorem unquoteToBytes_byte (b : UInt8) (s : Text) :
    unquoteToBytes (percent b ++ s) = b :: unquoteToBytes s := by
  have hlt : b.toNat < 256 := b.toNat_lt
  have hpair : hexPair (hexDigit (b.toNat / 16)) (hexDigit (b.toNat % 16)) = some b := by
    rw [hexPair, unhex_hexDigit (by omega), unhex_hexDigit (by omega), Option.bind_some,
      Option.map_some, Nat.div_add_mod, UInt8.ofNat_toNat]
  exact unquoteToBytes_percent hpair s

theorem unquoteToBytes_bytes (bs : List UInt8) (s : Text) :
    unquoteToBytes (bs.flatMap percent ++ s) = bs ++ unquoteToBytes s := by
  induction bs with
  | nil => rfl
  | cons b bs ih =>
    rw [List.flatMap_cons, List.append_assoc, unquoteToBytes_byte, ih, List.cons_append]

/-! ## Pieces that spell a text -/

/-- The piece is ASCII, and is read as the bytes of the text, whatever follows. -/
structure Spells (piece s : Text) : Prop where
  ascii : ∀ c ∈ piece, isAscii c = true
  reads : ∀ rest, unquoteToBytes (piece ++ rest) = utf8 s ++ unquoteToBytes rest

theorem Spells.nil : Spells [] [] := ⟨fun _ h => absurd h List.not_mem_nil, fun _ => rfl⟩

theorem Spells.append {p q s t : Text} (hp : Spells p s) (hq : Spells q t) :
    Spells (p ++ q) (s ++ t) where
  ascii := List.forall_mem_append.mpr ⟨hp.ascii, hq.ascii⟩
  reads rest := by
    have hboth : utf8 (s ++ t) = utf8 s ++ utf8 t := List.flatMap_append
    rw [List.append_assoc, hp.reads, hq.reads, hboth, List.append_assoc]

/-- A text is spelled character by character. -/
theorem Spells.flatMap {f : Char → Text} (hf : ∀ c, Spells (f c) [c]) (s : Text) :
    Spells (s.flatMap f) s := by
  induction s with
  | nil => exact Spells.nil
  | cons c s ih => exact (hf c).append ih

theorem utf8EncodeChar_ascii {c : Char} (hc : isAscii c = true) :
    String.utf8EncodeChar c = [byte c] := by
  have hle : c.val.toNat ≤ 0x7f := Nat.le_of_lt_succ (of_decide_eq_true hc)
  exact if_pos hle

theorem Spells.plain {c : Char} (hc : isAscii c = true) (hne : c ≠ '%') : Spells [c] [c] where
  ascii := List.forall_mem_singleton.mpr hc
  reads rest := by
    rw [List.singleton_append, unquoteToBytes_cons hne, utf8, List.flatMap_singleton,
      utf8EncodeChar_ascii hc, List.singleton_append]

theorem isAscii_percent (b : UInt8) : ∀ c ∈ percent b, isAscii c = true := by
  have hdigit : ∀ n < 16, isAscii (hexDigit n) = true := by decide
  have hlt : b.toNat < 256 := b.toNat_lt
  exact List.forall_mem_cons.mpr ⟨rfl, List.forall_mem_cons.mpr ⟨hdigit _ (by omega),
    List.forall_mem_singleton.mpr (hdigit _ (by omega))⟩⟩

theorem Spells.percent (c : Char) : Spells ((String.utf8EncodeChar c).flatMap percent) [c] where
  ascii := by
    intro d hd
    obtain ⟨b, -, hb⟩ := List.mem_flatMap.mp hd
    exact isAscii_percent b d hb
  reads rest := by rw [unquoteToBytes_bytes, utf8, List.flatMap_singleton]

theorem isAscii_of_isUnreserved {c : Char} (h : isUnreserved c = true) :
    isAscii c = true ∧ c ≠ '%' := by
  refine ⟨?_, ?_⟩
  · unfold isUnreserved at h
    rcases (Bool.or_eq_true _ _).mp h with h | h
    · refine decide_eq_true ?_
      show c.val.toNat < 0x80
      delta Char.isAlphanum Char.isAlpha Char.isUpper Char.isLower Char.isDigit at h
      simp only [Bool.or_eq_true, Bool.and_eq_true, decide_eq_true_eq, ge_iff_le,
        UInt32.le_iff_toNat_le] at h
      have hbounds : 'Z'.val.toNat = 90 ∧ 'z'.val.toNat = 122 ∧ '9'.val.toNat = 57 := by decide
      omega
    · have hmem := of_decide_eq_true h
      simp only [List.mem_cons, List.not_mem_nil, or_false] at hmem
      rcases hmem with rfl | rfl | rfl | rfl | rfl | rfl | rfl | rfl | rfl <;> rfl
  · rintro rfl
    exact absurd h (by decide)

/-- **What JavaScript writes** spells the text. -/
theorem spells_encodeURIComponent (s : Text) : Spells (encodeURIComponent s) s := by
  refine Spells.flatMap (fun c => ?_) s
  unfold encodeChar
  split_ifs with hc
  · obtain ⟨hascii, hne⟩ := isAscii_of_isUnreserved hc
    exact Spells.plain hascii hne
  · exact Spells.percent c

/-! ## Texts are read back -/

theorem decode_utf8 (replaced : List UInt8 → Text) (s : Text) : decode replaced (utf8 s) = s := by
  have hbytes : ByteArray.mk (utf8 s).toArray = s.utf8Encode :=
    ByteArray.ext List.data_toByteArray.symm
  simp only [decode, hbytes, List.utf8Decode?_utf8Encode]

theorem utf8_ascii {s : Text} (hs : ∀ c ∈ s, isAscii c = true) (hne : '%' ∉ s) :
    unquoteToBytes s = utf8 s := by
  induction s with
  | nil => rfl
  | cons c s ih =>
    obtain ⟨hc, hs⟩ := List.forall_mem_cons.mp hs
    obtain ⟨hcne, hne⟩ := not_or.mp (List.mem_cons.not.mp hne)
    have hcons : utf8 (c :: s) = String.utf8EncodeChar c ++ utf8 s := List.flatMap_cons
    rw [unquoteToBytes_cons (Ne.symm hcne), ih hs hne, hcons, utf8EncodeChar_ascii hc]
    rfl

/-- **A piece that spells a text** is unquoted to it. -/
theorem unquote_of_spells (replaced : List UInt8 → Text) {piece s : Text} (h : Spells piece s) :
    unquote replaced piece = s := by
  have hbytes : unquoteToBytes piece = utf8 s := by
    have hreads := h.reads []
    rwa [List.append_nil, unquoteToBytes, List.append_nil] at hreads
  unfold unquote
  split_ifs with hmem
  · have hall : piece.all isAscii = true := List.all_eq_true.mpr h.ascii
    have hrun : piece.splitBy (fun a b => isAscii a == isAscii b) = [piece] := by
      refine List.splitBy_of_isChain (List.ne_nil_of_mem hmem) (List.Pairwise.isChain ?_)
      refine List.pairwise_of_forall_mem_list fun a ha b hb => ?_
      rw [h.ascii a ha, h.ascii b hb]
      rfl
    rw [hrun, List.flatMap_singleton, if_pos hall, hbytes, decode_utf8]
  · rw [← decode_utf8 replaced s, ← hbytes, utf8_ascii h.ascii hmem, decode_utf8]

end HaAddons.Lib.Uri
