import HaAddons.Lib.Matching
import HaAddons.Lib.PyText
import Mathlib.Algebra.Group.Nat.Defs

/-!
# Values of the theme sync

Whatever the parent page has in its style, the theme sync writes only what it has read as a colour,
a length or a shadow: colours are parsed to numbers and written again, and header height, card
radius and shadows have bounded parsers. Lengths are thousandths of a pixel or of a percent; the
alpha of a colour is a number of the browser's.

* `isColor_serializeColor` — a colour is written as `#rrggbb` or as `rgba(..)` with numbers.
* `isHeaderHeight_of`, `isRadius_of`, `isShadow_of` — what the bounded parsers let through.
-/

namespace HaAddons.AdminUi.Theme

open HaAddons.Lib

abbrev Text := List Char

/-! ## Texts -/

/-- White space of `trim()` and of `\s`. -/
def isSpace (c : Char) : Bool :=
  c.toNat ∈ [0x09, 0x0A, 0x0B, 0x0C, 0x0D, 0x20, 0xA0, 0x1680, 0x2028, 0x2029, 0x202F, 0x205F,
    0x3000, 0xFEFF] || 0x2000 ≤ c.toNat && c.toNat ≤ 0x200A

def trim (s : Text) : Text := Py.trim isSpace s

def words (s : Text) : List Text := (s.splitOnP isSpace).filter (· ≠ [])

/-- The length in code units. -/
def length16 : Text → ℕ
  | [] => 0
  | c :: s => (if c.toNat < 0x10000 then 1 else 2) + length16 s

def isDigits (s : Text) : Bool := s ≠ [] && s.all Char.isDigit

def value (ds : Text) : ℕ := Nat.ofDigitChars 10 ds 0

/-- The text without a suffix. -/
def stripSuffix (u s : Text) : Option Text :=
  if u <:+ s then some (s.take (s.length - u.length)) else none

def decimal (n : ℕ) : Text := Nat.toDigits 10 n

/-- A number of thousandths as JavaScript prints it. -/
def milli (n : ℕ) : Text :=
  if n % 1000 = 0 then decimal (n / 1000)
  else decimal (n / 1000) ++ '.' :: ([Nat.digitChar (n / 100 % 10), Nat.digitChar (n / 10 % 10),
    Nat.digitChar (n % 10)].reverse.dropWhile (· = '0')).reverse

/-- `\d+(?:\.\d{1,3})?`, in thousandths. -/
def readMilli (s : Text) : Option ℕ :=
  match s.splitOn '.' with
  | [i] => if isDigits i then some (1000 * value i) else none
  | [i, f] =>
    if isDigits i && isDigits f && f.length ≤ 3 then
      some (1000 * value i + value f * 10 ^ (3 - f.length))
    else none
  | _ => none

/-! ## The browser -/

/-- What the module leaves to the browser: lower case, numbers between 0 and 1, and the arithmetic
of contrast. `readable a b` is `contrastRatio(a, b) >= MIN_CONTRAST`. -/
structure Browser where
  lower : Text → Text
  Alpha : Type
  /-- `Number(text)` -/
  number : Text → Alpha
  one : Alpha
  zero : Alpha
  /-- `a >= 0 && a <= 1` -/
  inUnit : Alpha → Bool
  one_inUnit : inUnit one = true
  zero_inUnit : inUnit zero = true
  /-- `a === 1` -/
  isOne : Alpha → Bool
  /-- `Number(a.toFixed(3))`, in thousandths -/
  thousandths : Alpha → ℕ
  thousandths_le : ∀ a, inUnit a = true → thousandths a ≤ 1000
  Paint : Type
  /-- A colour as a background or as opaque text. -/
  paint : ℕ → ℕ → ℕ → Paint
  /-- `over`: a colour on a background. -/
  composite : ℕ → ℕ → ℕ → Alpha → Paint → Paint
  readable : Paint → Paint → Bool
  /-- `isDarkColor` -/
  isDark : ℕ → ℕ → ℕ → Bool
  /-- White has at least the contrast of the ink. -/
  prefersWhite : ℕ → ℕ → ℕ → Bool

variable {J : Browser}

/-! ## Colours -/

/-- A colour that `serializeColor` does not reject. -/
structure Color (J : Browser) where
  r : ℕ
  g : ℕ
  b : ℕ
  a : J.Alpha
  ok : (r ≤ 255 ∧ g ≤ 255 ∧ b ≤ 255) ∧ J.inUnit a = true

def maxInput : ℕ := 64

def hexDigit (c : Char) : Option (Fin 16) :=
  let n := c.toNat
  if h : '0'.toNat ≤ n ∧ n ≤ '9'.toNat then some ⟨n - 48, by simp at h; omega⟩
  else if h : 'a'.toNat ≤ n ∧ n ≤ 'f'.toNat then some ⟨n - 87, by simp at h; omega⟩
  else none

/-- Three channels of two digits each. -/
def hexChannels (J : Browser) : List (Fin 16) → Option (Color J)
  | [a, b, c, d, e, f] =>
    some ⟨16 * a + b, 16 * c + d, 16 * e + f, J.one, by omega, J.one_inUnit⟩
  | _ => none

/-- `HEX`: three or six digits. -/
def hexColor (J : Browser) : Text → Option (Color J)
  | '#' :: s => (s.mapM hexDigit).bind fun ds =>
    hexChannels J (if ds.length = 3 then ds.flatMap fun d => [d, d] else ds)
  | _ => none

/-- `\d{1,3}` -/
def channel (s : Text) : Option ℕ := if isDigits s && s.length ≤ 3 then some (value s) else none

/-- `\d*\.?\d+` -/
def isAlpha (s : Text) : Bool :=
  match s.splitOn '.' with
  | [d] => isDigits d
  | [i, d] => i.all Char.isDigit && isDigits d
  | _ => false

/-- `channelsOf`, for the groups of a match. -/
def channelsOf (J : Browser) (r g b : Text) (a : Option Text) : Option (Color J) := do
  let r ← channel r
  let g ← channel g
  let b ← channel b
  let a ← match a with
    | none => some J.one
    | some a => if isAlpha a then some (J.number a) else none
  if h : (r ≤ 255 ∧ g ≤ 255 ∧ b ≤ 255) ∧ J.inUnit a = true then some ⟨r, g, b, a, h⟩ else none

/-- What is in `rgb(..)` or `rgba(..)`. -/
def callBody (s : Text) : Option Text :=
  let body := if "rgba(".toList <+: s then some (s.drop 5)
    else if "rgb(".toList <+: s then some (s.drop 4) else none
  body.bind (stripSuffix [')'])

/-- `RGB_COMMA` -/
def rgbComma (J : Browser) (body : Text) : Option (Color J) :=
  match (body.splitOn ',').map trim with
  | [r, g, b] => channelsOf J r g b none
  | [r, g, b, a] => channelsOf J r g b (some a)
  | _ => none

/-- `RGB_SPACE` -/
def rgbSpace (J : Browser) (body : Text) : Option (Color J) :=
  match body.splitOn '/' with
  | [p] =>
    match words p with
    | [r, g, b] => channelsOf J r g b none
    | _ => none
  | [p, a] =>
    match words p with
    | [r, g, b] => channelsOf J r g b (some (trim a))
    | _ => none
  | _ => none

def parseColor (J : Browser) (s : Text) : Option (Color J) :=
  if maxInput < length16 s then none
  else
    let text := J.lower (trim s)
    hexColor J text <|> (callBody text).bind fun body => rgbComma J body <|> rgbSpace J body

/-- `#rrggbb` -/
def hexText (r g b : ℕ) : Text :=
  '#' :: [r, g, b].flatMap fun n => [Nat.digitChar (n / 16), Nat.digitChar (n % 16)]

/-- `rgba(r, g, b, a)` -/
def rgbaText (r g b a : ℕ) : Text :=
  "rgba(".toList ++ [',', ' '].intercalate [decimal r, decimal g, decimal b, milli a] ++ [')']

def serializeColor (c : Color J) : Text :=
  if J.thousandths c.a = 1000 then hexText c.r c.g c.b
  else rgbaText c.r c.g c.b (J.thousandths c.a)

def Color.isOpaque (c : Color J) : Bool := J.isOne c.a

def onLight : Text := "#ffffff".toList

def onDark : Text := "#111111".toList

def pickOnColor (c : Color J) : Text := if J.prefersWhite c.r c.g c.b then onLight else onDark

/-! ## Lengths -/

def px : Text := "px".toList

def headerHeight (s : Text) : Option Text :=
  ((stripSuffix px (trim s)).bind readMilli).bind fun n =>
    if 32000 ≤ n ∧ n ≤ 128000 then some (milli n ++ px) else none

def cardBackground (J : Browser) (s : Text) : Option (Color J) :=
  if J.lower (trim s) = "transparent".toList then
    some ⟨0, 0, 0, J.zero, by omega, J.zero_inUnit⟩
  else parseColor J s

/-- One part of a radius. -/
def radiusPart (part : Text) : Option Text :=
  if part = ['0'] then some ('0' :: px)
  else
    match stripSuffix px part with
    | some s => (readMilli s).bind fun n => if n ≤ 256000 then some part else none
    | none => ((stripSuffix ['%'] part).bind readMilli).bind fun n =>
      if n ≤ 100000 then some part else none

def cardRadius (s : Text) : Option Text :=
  let parts := if trim s = [] then [[]] else words (trim s)
  if 4 < parts.length then none else (parts.mapM radiusPart).map [' '].intercalate

/-! ## Shadows -/

def isParen (c : Char) : Bool := c = '(' || c = ')'

/-- `text.split(/,(?![^()]*\))/)`: commas that do not stand between parentheses. -/
def splitLayers : Text → List Text
  | [] => [[]]
  | c :: s =>
    if c = ',' ∧ (s.dropWhile (!isParen ·)).head? ≠ some ')' then [] :: splitLayers s
    else (splitLayers s).modifyHead (c :: ·)

/-- `rgba?\([^)]*\)` -/
def callToken (s : Text) : Option (Text × Text) :=
  let n := if "rgba(".toList <+: s then 5 else if "rgb(".toList <+: s then 4 else 0
  if n = 0 ∨ ')' ∉ s then none
  else some (s.takeWhile (· ≠ ')') ++ [')'], (s.dropWhile (· ≠ ')')).tail)

/-- `rgba?\([^)]*\)|[^\s]+` -/
def tokenAt (s : Text) : Option (Text × Text) :=
  callToken s <|>
    if s.takeWhile (!isSpace ·) = [] then none
    else some (s.takeWhile (!isSpace ·), s.dropWhile (!isSpace ·))

def namedColors : List (Text × Text) :=
  [("black", "#000000"), ("white", "#ffffff"), ("transparent", "rgba(0, 0, 0, 0)"),
    ("currentcolor", "currentcolor")].map fun e => (e.1.toList, e.2.toList)

/-- `\d+(?:\.\d{1,3})?|\.\d{1,3}`, in thousandths. -/
def readShadowMilli : Text → Option ℕ
  | '.' :: f => if isDigits f && f.length ≤ 3 then some (value f * 10 ^ (3 - f.length)) else none
  | s => readMilli s

def shadowLength (token : Text) : Option ℤ :=
  if token = ['0'] then some 0
  else
    match token with
    | '-' :: s => ((stripSuffix px s).bind readShadowMilli).map fun n => -(n : ℤ)
    | s => ((stripSuffix px s).bind readShadowMilli).map fun n => (n : ℤ)

def lengthText (n : ℤ) : Text := (if n < 0 then ['-'] else []) ++ milli n.natAbs ++ px

/-- What has been read of a layer. -/
structure Layer where
  lengths : List ℤ
  color : Option Text
  inset : Bool

def shadowToken (J : Browser) (l : Layer) (token : Text) : Option Layer :=
  if token = "inset".toList ∧ l.inset = false then some { l with inset := true }
  else
    match (parseColor J token).map serializeColor <|>
        (namedColors.find? (·.1 = token)).map (·.2) with
    | some color => if l.color.isSome then none else some { l with color := some color }
    | none => (shadowLength token).bind fun n =>
      if 512000 < n.natAbs then none else some { l with lengths := l.lengths ++ [n] }

def Layer.text (l : Layer) : Text :=
  [' '].intercalate ((if l.inset then ["inset".toList] else []) ++ l.lengths.map lengthText ++
    [l.color.getD "currentcolor".toList])

def shadowLayer (J : Browser) (s : Text) : Option Text :=
  ((findAll tokenAt (trim s)).foldlM (shadowToken J) ⟨[], none, false⟩).bind fun l =>
    if l.lengths.length < 2 ∨ 4 < l.lengths.length ∨ l.lengths[2]?.any (· < 0) then none
    else some l.text

def cardShadow (J : Browser) (s : Text) : Option Text :=
  let text := J.lower (trim s)
  if text = "none".toList then some text
  else if text = [] ∨ 1024 < length16 text then none
  else
    let layers := splitLayers text
    if 8 < layers.length then none
    else (layers.mapM (shadowLayer J)).map [',', ' '].intercalate

/-! ## The bounded forms -/

/-- `#rrggbb`, or `rgba(..)` with channels up to 255 and an alpha below 1. -/
def IsColor (s : Text) : Prop :=
  ∃ r g b, (r ≤ 255 ∧ g ≤ 255 ∧ b ≤ 255) ∧
    (s = hexText r g b ∨ ∃ a < 1000, s = rgbaText r g b a)

/-- Pixels between 32 and 128. -/
def IsHeaderHeight (s : Text) : Prop := ∃ n, 32000 ≤ n ∧ n ≤ 128000 ∧ s = milli n ++ px

/-- At most 256 pixels or 100 percent, with at most three decimals. -/
def IsRadiusPart (s : Text) : Prop :=
  ∃ t n, readMilli t = some n ∧ ((s = t ++ px ∧ n ≤ 256000) ∨ (s = t ++ ['%'] ∧ n ≤ 100000))

def IsRadius (s : Text) : Prop :=
  ∃ parts : List Text, parts ≠ [] ∧ parts.length ≤ 4 ∧ (∀ p ∈ parts, IsRadiusPart p) ∧
    s = [' '].intercalate parts

/-- Two to four lengths of at most 512 pixels, no negative blur, and a colour. -/
structure Layer.Bounded (l : Layer) : Prop where
  two : 2 ≤ l.lengths.length
  four : l.lengths.length ≤ 4
  blur : ∀ n ∈ l.lengths[2]?, 0 ≤ n
  lengths : ∀ n ∈ l.lengths, n.natAbs ≤ 512000
  color : ∀ c ∈ l.color, IsColor c ∨ c = "currentcolor".toList

def IsLayer (s : Text) : Prop := ∃ l : Layer, l.Bounded ∧ s = l.text

/-- `none`, or up to eight layers. -/
def IsShadow (s : Text) : Prop :=
  s = "none".toList ∨ ∃ layers : List Text, layers ≠ [] ∧ layers.length ≤ 8 ∧
    (∀ l ∈ layers, IsLayer l) ∧ s = [',', ' '].intercalate layers

section Forms

variable {s t u : Text} {n : ℕ}

theorem stripSuffix_eq_some (h : stripSuffix u s = some t) : s = t ++ u := by
  unfold stripSuffix at h
  split_ifs at h with hu
  obtain ⟨v, rfl⟩ := hu
  obtain rfl := Option.some.inj h
  simp

theorem isColor_serializeColor (c : Color J) : IsColor (serializeColor c) := by
  refine ⟨c.r, c.g, c.b, c.ok.1, ?_⟩
  unfold serializeColor
  have hle := J.thousandths_le c.a c.ok.2
  split_ifs with hone
  · exact .inl rfl
  · exact .inr ⟨_, lt_of_le_of_ne hle hone, rfl⟩

theorem isHeaderHeight_of (h : headerHeight s = some t) : IsHeaderHeight t := by
  obtain ⟨n, -, hn⟩ := Option.bind_eq_some_iff.mp h
  split_ifs at hn with hle
  exact ⟨n, hle.1, hle.2, (Option.some.inj hn).symm⟩

theorem isRadiusPart_of (h : radiusPart s = some t) : IsRadiusPart t := by
  unfold radiusPart at h
  split_ifs at h
  · obtain rfl := Option.some.inj h
    exact ⟨['0'], 0, by decide, .inl ⟨rfl, by decide⟩⟩
  · split at h
    · rename_i v hv
      obtain ⟨n, hread, hn⟩ := Option.bind_eq_some_iff.mp h
      split_ifs at hn with hle
      obtain rfl := Option.some.inj hn
      exact ⟨v, n, hread, .inl ⟨stripSuffix_eq_some hv, hle⟩⟩
    · obtain ⟨n, hbind, hn⟩ := Option.bind_eq_some_iff.mp h
      obtain ⟨v, hv, hread⟩ := Option.bind_eq_some_iff.mp hbind
      split_ifs at hn with hle
      obtain rfl := Option.some.inj hn
      exact ⟨v, n, hread, .inr ⟨stripSuffix_eq_some hv, hle⟩⟩

/-- What holds of the results of `mapM`. -/
theorem forall_of_mapM {α β : Type} {f : α → Option β} {P : β → Prop}
    (hf : ∀ a b, f a = some b → P b) {l : List α} {l' : List β} (h : l.mapM f = some l') :
    l'.length = l.length ∧ ∀ b ∈ l', P b := by
  induction l generalizing l' with
  | nil =>
    rw [List.mapM_nil] at h
    obtain rfl := Option.some.inj h
    simp
  | cons a l ih =>
    rw [List.mapM_cons] at h
    obtain ⟨b, hb, h⟩ := Option.bind_eq_some_iff.mp h
    obtain ⟨bs, hbs, h⟩ := Option.bind_eq_some_iff.mp h
    obtain rfl := Option.some.inj h
    obtain ⟨hlen, hall⟩ := ih hbs
    exact ⟨by simp [hlen], List.forall_mem_cons.mpr ⟨hf a b hb, hall⟩⟩

/-- What each step keeps, a run that does not fail keeps. -/
theorem of_foldlM {α σ : Type} {f : σ → α → Option σ} {P : σ → Prop}
    (hf : ∀ s a s', P s → f s a = some s' → P s') {l : List α} {s s' : σ} (hs : P s)
    (h : l.foldlM f s = some s') : P s' := by
  induction l generalizing s with
  | nil =>
    obtain rfl := Option.some.inj h
    exact hs
  | cons a l ih =>
    rw [List.foldlM_cons] at h
    obtain ⟨t, ht, h⟩ := Option.bind_eq_some_iff.mp h
    exact ih (hf s a t hs ht) h

theorem isRadius_of (h : cardRadius s = some t) (hne : t ≠ []) : IsRadius t := by
  unfold cardRadius at h
  dsimp only at h
  generalize (if trim s = [] then [[]] else words (trim s)) = parts at h
  split_ifs at h with hlen
  obtain ⟨results, hresults, rfl⟩ := Option.map_eq_some_iff.mp h
  obtain ⟨hlength, hforms⟩ := forall_of_mapM (fun _ _ => isRadiusPart_of) hresults
  refine ⟨results, ?_, by omega, hforms, rfl⟩
  intro hnil
  rw [hnil] at hne
  exact hne rfl

theorem isColor_named {e : Text × Text} (h : e ∈ namedColors) :
    IsColor e.2 ∨ e.2 = "currentcolor".toList := by
  simp only [namedColors, List.map_cons, List.map_nil, List.mem_cons, List.not_mem_nil,
    or_false] at h
  rcases h with rfl | rfl | rfl | rfl
  · exact .inl ⟨0, 0, 0, by omega, .inl (by decide)⟩
  · exact .inl ⟨255, 255, 255, by omega, .inl (by decide)⟩
  · exact .inl ⟨0, 0, 0, by omega, .inr ⟨0, by omega, by decide⟩⟩
  · exact .inr rfl

/-- What every prefix of a layer's tokens keeps. -/
def Layer.Sound (l : Layer) : Prop :=
  (∀ n ∈ l.lengths, n.natAbs ≤ 512000) ∧ ∀ c ∈ l.color, IsColor c ∨ c = "currentcolor".toList

theorem sound_shadowToken {l l' : Layer} (h : l.Sound) (hstep : shadowToken J l s = some l') :
    l'.Sound := by
  unfold shadowToken at hstep
  by_cases hinset : s = "inset".toList ∧ l.inset = false
  · rw [if_pos hinset] at hstep
    obtain rfl := Option.some.inj hstep
    exact h
  · rw [if_neg hinset] at hstep
    split at hstep
    · rename_i color hcolor
      split_ifs at hstep
      obtain rfl := Option.some.inj hstep
      refine ⟨h.1, fun c hc => ?_⟩
      obtain rfl : color = c := Option.some.inj hc
      cases hparse : parseColor J s with
      | some parsed =>
        rw [hparse] at hcolor
        obtain rfl : serializeColor parsed = color := Option.some.inj hcolor
        exact .inl (isColor_serializeColor parsed)
      | none =>
        rw [hparse] at hcolor
        obtain ⟨e, he, rfl⟩ := Option.map_eq_some_iff.mp hcolor
        exact isColor_named (List.mem_of_find?_eq_some he)
    · obtain ⟨n, -, hn⟩ := Option.bind_eq_some_iff.mp hstep
      split_ifs at hn with hbig
      obtain rfl := Option.some.inj hn
      refine ⟨fun m hm => ?_, h.2⟩
      cases List.mem_append.mp hm with
      | inl hm => exact h.1 m hm
      | inr hm =>
        rw [List.mem_singleton.mp hm]
        exact not_lt.mp hbig

theorem isLayer_of (h : shadowLayer J s = some t) : IsLayer t := by
  obtain ⟨l, hl, h⟩ := Option.bind_eq_some_iff.mp h
  split_ifs at h with hbad
  obtain rfl := Option.some.inj h
  have hsound : l.Sound :=
    of_foldlM (fun _ _ _ => sound_shadowToken) ⟨by simp, by simp⟩ hl
  simp only [not_or, not_lt, Option.any_eq_true, not_exists, decide_eq_true_eq, not_and] at hbad
  have hblur : ∀ n ∈ l.lengths[2]?, 0 ≤ n := by
    intro n hn
    have hnot := hbad.2.2 n hn
    omega
  exact ⟨l, ⟨hbad.1, hbad.2.1, hblur, hsound.1, hsound.2⟩, rfl⟩

theorem isShadow_of (h : cardShadow J s = some t) (hne : t ≠ []) : IsShadow t := by
  unfold cardShadow at h
  dsimp only at h
  split_ifs at h with hnone _ hlen
  · obtain rfl := Option.some.inj h
    exact .inl hnone
  · obtain ⟨results, hresults, rfl⟩ := Option.map_eq_some_iff.mp h
    obtain ⟨hlength, hforms⟩ := forall_of_mapM (fun _ _ => isLayer_of) hresults
    refine .inr ⟨results, ?_, by omega, hforms, rfl⟩
    intro hnil
    rw [hnil] at hne
    exact hne rfl

end Forms

end HaAddons.AdminUi.Theme
