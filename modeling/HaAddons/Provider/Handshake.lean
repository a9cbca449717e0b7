import HaAddons.Lib.SemVer
import Mathlib.Algebra.Group.Int.Defs
import Mathlib.Algebra.Group.Nat.Defs

/-!
# The version handshake

`Configure` asks the Bridge for its versions and compares: the provider's version must not be below
the Bridge's minimum, and the schema version must not be above its maximum. Versions are compared by
three numbers, and a segment that is no `int` counts as 0.

* `splitVersion_text` — of a version `splitVersion` keeps the numbers below 2^63, and the patch only
  if nothing follows it.
* `configure_window_iff` — when `Configure` hands out the client exactly for the versions in the
  window.
* `configure_release` — for releases with small numbers the maximum of the provider's version is what
  is not checked.
-/

namespace HaAddons.Provider

open HaAddons.Lib SemVer

/-! ## Comparing versions -/

/-- The digits of a number that may be empty. -/
def readDigits (ds : List Char) : Option ℤ :=
  if ds ≠ [] ∧ ds.all Char.isDigit then some (Nat.ofDigitChars 10 ds 0) else none

/-- `strconv.Atoi` where `int` has 64 bits; `none` is an error. -/
def atoi (s : List Char) : Option ℤ :=
  let n :=
    match s with
    | '-' :: ds => (readDigits ds).map fun n => -n
    | '+' :: ds => readDigits ds
    | ds => readDigits ds
  n.filter fun n => -2 ^ 63 ≤ n ∧ n < 2 ^ 63

def splitDots (v : String) : List (List Char) := v.toList.splitOn '.'

/-- The `[3]int` of the source. A segment that does not parse is 0. -/
def splitVersion (v : String) : ℤ × ℤ × ℤ :=
  let parts := splitDots v
  let segment := fun i : ℕ => (parts[i]?.bind atoi).getD 0
  (segment 0, segment 1, segment 2)

/-- The loop of `versionLess` over the segments. -/
def lessFrom : List (ℤ × ℤ) → Bool
  | [] => false
  | (a, b) :: rest => if a < b then true else if a > b then false else lessFrom rest

/-- The loop of `versionGreater` over the segments. -/
def greaterFrom : List (ℤ × ℤ) → Bool
  | [] => false
  | (a, b) :: rest => if a > b then true else if a < b then false else greaterFrom rest

def segmentPairs (a b : String) : List (ℤ × ℤ) :=
  let am := splitVersion a
  let bm := splitVersion b
  [(am.1, bm.1), (am.2.1, bm.2.1), (am.2.2, bm.2.2)]

def versionLess (a b : String) : Bool := lessFrom (segmentPairs a b)

def versionGreater (a b : String) : Bool := greaterFrom (segmentPairs a b)

/-! ## Configure -/

/-- The answer to `GET /v1/version`. -/
structure Handshake where
  bridgeVersion : String
  schemaVersion : String
  minProviderVersion : String
  maxProviderVersion : String
  deriving DecidableEq

/-- An error diagnostic. -/
structure ErrorDiagnostic where
  summary : String
  detail : String
  deriving DecidableEq

/-- What `Configure` reads and calls: the configuration with its errors, `client.NewClient`, and
`GetVersion` with its errors mapped to diagnostics. -/
structure Setup (γ : Type) where
  config : Except (List ErrorDiagnostic) (String × String)
  newClient : String → String → Except String γ
  getVersion : γ → Except (List ErrorDiagnostic) Handshake

structure ConfigureResponse (γ : Type) where
  diagnostics : List ErrorDiagnostic
  resourceData : Option γ
  dataSourceData : Option γ

section Configure

variable {γ : Type}

/-- A response with errors has no client. -/
def ConfigureResponse.refuse (diagnostics : List ErrorDiagnostic) : ConfigureResponse γ :=
  ⟨diagnostics, none, none⟩

def handshakeDetail (hs : Handshake) : String :=
  "DOCS.md#troubleshooting-version\nbridge_schema_version: " ++ hs.schemaVersion ++
    "\nbridge_min_provider_version: " ++ hs.minProviderVersion ++
    "\nbridge_max_provider_version: " ++ hs.maxProviderVersion

def tooOld (version : String) (hs : Handshake) : ErrorDiagnostic :=
  ⟨"Bridge reports this Provider is too old: provider version " ++ version ++
    " is below the Bridge's min_provider_version " ++ hs.minProviderVersion, handshakeDetail hs⟩

def tooNew (hs : Handshake) : ErrorDiagnostic :=
  ⟨"Bridge reports a schema version this Provider does not support: bridge schema_version " ++
    hs.schemaVersion ++ " is above the Bridge's max_provider_version " ++ hs.maxProviderVersion,
    handshakeDetail hs⟩

/-- `Configure` of a provider with this version. -/
def configure (version : String) (setup : Setup γ) : ConfigureResponse γ :=
  match setup.config with
  | .error diagnostics => .refuse diagnostics
  | .ok (endpoint, bearerToken) =>
    match setup.newClient endpoint bearerToken with
    | .error err => .refuse [⟨"Bridge client construction failed", err⟩]
    | .ok c =>
      match setup.getVersion c with
      | .error diagnostics => .refuse diagnostics
      | .ok hs =>
        if versionLess version hs.minProviderVersion then .refuse [tooOld version hs]
        else if versionGreater hs.schemaVersion hs.maxProviderVersion then .refuse [tooNew hs]
        else ⟨[], some c, some c⟩

end Configure

/-! ## The numbers of a version -/

/-- The order of the numbers that `splitVersion` reads. -/
def NumbersLe (a b : ℤ × ℤ × ℤ) : Prop :=
  toLex (a.1, toLex (a.2.1, a.2.2)) ≤ toLex (b.1, toLex (b.2.1, b.2.2))

theorem numbersLe_iff {a b : ℤ × ℤ × ℤ} : NumbersLe a b ↔
    a.1 < b.1 ∨ a.1 = b.1 ∧ (a.2.1 < b.2.1 ∨ a.2.1 = b.2.1 ∧ a.2.2 ≤ b.2.2) := by
  rw [NumbersLe, Prod.Lex.toLex_le_toLex, Prod.Lex.toLex_le_toLex]

theorem versionLess_eq_false {a b : String} :
    versionLess a b = false ↔ NumbersLe (splitVersion b) (splitVersion a) := by
  simp only [versionLess, segmentPairs, lessFrom, numbersLe_iff]
  split_ifs <;> simp <;> omega

theorem versionGreater_eq_false {a b : String} :
    versionGreater a b = false ↔ NumbersLe (splitVersion a) (splitVersion b) := by
  simp only [versionGreater, segmentPairs, greaterFrom, numbersLe_iff]
  split_ifs <;> simp <;> omega

theorem readDigits_decimal (n : ℕ) : readDigits (decimal n) = some (n : ℤ) := by
  have hall : (decimal n).all Char.isDigit = true :=
    List.all_eq_true.mpr fun _ hc => isDigit_of_mem_decimal hc
  rw [readDigits, if_pos ⟨decimal_ne_nil, hall⟩, ofDigitChars_decimal]

/-- A text that begins with a digit has no sign. -/
theorem atoi_of_digit {c : Char} {s : List Char} (hc : c.isDigit = true) :
    atoi (c :: s) = (readDigits (c :: s)).filter fun n => -2 ^ 63 ≤ n ∧ n < 2 ^ 63 := by
  unfold atoi
  split
  · rename_i heq
    rw [List.cons.injEq] at heq
    rw [heq.1] at hc
    cases hc
  · rename_i heq
    rw [List.cons.injEq] at heq
    rw [heq.1] at hc
    cases hc
  · rfl

/-- What `splitVersion` keeps of a number. -/
def fit (n : ℕ) : ℤ := if n < 2 ^ 63 then n else 0

theorem atoi_decimal (n : ℕ) : (atoi (decimal n)).getD 0 = fit n := by
  obtain ⟨c, s, hdigits⟩ := List.exists_cons_of_ne_nil (@decimal_ne_nil n)
  have hc : c.isDigit = true := isDigit_of_mem_decimal (n := n) (hdigits ▸ List.mem_cons_self)
  have hread := readDigits_decimal n
  rw [hdigits] at hread
  rw [hdigits, atoi_of_digit hc, hread, fit]
  by_cases hn : n < 2 ^ 63
  · have hle : (-2 ^ 63 : ℤ) ≤ n ∧ (n : ℤ) < 2 ^ 63 := by omega
    simp only [Option.filter_some, decide_eq_true hle, if_true, if_pos hn, Option.getD_some]
  · have hle : ¬ ((-2 ^ 63 : ℤ) ≤ n ∧ (n : ℤ) < 2 ^ 63) := by omega
    simp only [Option.filter_some, decide_eq_false hle, if_neg hn, Bool.false_eq_true, if_false,
      Option.getD_none]

/-- Digits that are followed by something else are no number. -/
theorem atoi_followed {n : ℕ} {c : Char} {s : List Char} (hc : c.isDigit = false) :
    atoi (decimal n ++ c :: s) = none := by
  obtain ⟨d, ds, hdigits⟩ := List.exists_cons_of_ne_nil (@decimal_ne_nil n)
  have hd : d.isDigit = true := isDigit_of_mem_decimal (n := n) (hdigits ▸ List.mem_cons_self)
  have hall : ((d :: ds) ++ c :: s).all Char.isDigit = false := by
    simp [hc]
  rw [hdigits, List.cons_append, atoi_of_digit hd]
  have hread : readDigits (d :: (ds ++ c :: s)) = none := if_neg fun h => by
    rw [List.cons_append] at hall
    rw [hall] at h
    cases h.2
  rw [hread]
  rfl

theorem splitOn_append {a b : List Char} {c : Char} (ha : c ∉ a) :
    (a ++ b).splitOn c = (b.splitOn c).modifyHead (a ++ ·) := by
  induction a with
  | nil =>
    rw [List.nil_append]
    cases b.splitOn c <;> rfl
  | cons x a ih =>
    rw [List.mem_cons, not_or] at ha
    have hx : (x == c) = false := beq_eq_false_iff_ne.mpr (Ne.symm ha.1)
    rw [List.cons_append, List.splitOn_cons_eq_if_modifyHead, hx, ih ha.2]
    simp [List.modifyHead_modifyHead, Function.comp_def]

theorem dot_notMem_decimal {n : ℕ} : '.' ∉ decimal n := fun h => by
  have hdigit := isDigit_of_mem_decimal h
  cases hdigit

/-- The numbers that `splitVersion` keeps of a version. -/
def kept (v : Version) : ℤ × ℤ × ℤ :=
  (fit v.major, fit v.minor, if v.suffix = [] then fit v.patch else 0)

/-- The text is that of the version. -/
def Reads (s : String) (v : Version) : Prop := s.toList = v.text

instance (s : String) (v : Version) : Decidable (Reads s v) :=
  inferInstanceAs (Decidable (s.toList = v.text))

theorem splitOn_cons_of_dot {a b : List Char} (ha : '.' ∉ a) :
    (a ++ '.' :: b).splitOn '.' = a :: b.splitOn '.' := by
  rw [splitOn_append ha, List.splitOn_cons_eq_if_modifyHead]
  simp

/-- **Numbers of a version.** A number from 2^63 on is 0, and so is a patch with a suffix. -/
theorem splitVersion_text {s : String} {v : Version} (h : Reads s v) :
    splitVersion s = kept v := by
  have hparts : splitDots s = decimal v.major :: decimal v.minor ::
      (decimal v.patch ++ v.suffix).splitOn '.' := by
    rw [splitDots, h, Version.text, splitOn_cons_of_dot dot_notMem_decimal,
      splitOn_cons_of_dot dot_notMem_decimal]
  have hpatch : (((decimal v.patch ++ v.suffix).splitOn '.')[0]?.bind atoi).getD 0 =
      if v.suffix = [] then fit v.patch else 0 := by
    cases hsuffix : v.suffix with
    | nil =>
      rw [List.append_nil, List.splitOn_eq_singleton dot_notMem_decimal]
      exact atoi_decimal v.patch
    | cons c rest =>
      have hc : c.isDigit = false ∧ c ≠ '.' := by
        cases Version.suffix_head hsuffix with
        | inl h => exact h ▸ ⟨rfl, by decide⟩
        | inr h => exact h ▸ ⟨rfl, by decide⟩
      obtain ⟨head, tail, hrest⟩ := List.exists_cons_of_ne_nil (List.splitOn_ne_nil '.' rest)
      rw [splitOn_append dot_notMem_decimal, List.splitOn_cons_eq_if_modifyHead,
        beq_eq_false_iff_ne.mpr hc.2, hrest]
      simp [atoi_followed hc.1]
  simp only [splitVersion, hparts, List.getElem?_cons_zero, List.getElem?_cons_succ,
    Option.bind_some, atoi_decimal, kept]
  rw [hpatch]

/-! ## The window -/

/-- The order of the versions. What is no version counts as equal. -/
def NotAbove (a b : String) : Prop := ∀ v w : Version, Reads a v → Reads b w → v ≤ w

/-- The provider's version lies within the Bridge's minimum and maximum, and the schema version is
not above the maximum. -/
def Window (version : String) (hs : Handshake) : Prop :=
  NotAbove hs.minProviderVersion version ∧ NotAbove version hs.maxProviderVersion ∧
    NotAbove hs.schemaVersion hs.maxProviderVersion

/-- The client is handed to the resources and the data sources. -/
def HandsOut {γ : Type} (r : ConfigureResponse γ) (c : γ) : Prop :=
  r.diagnostics = [] ∧ r.resourceData = some c ∧ r.dataSourceData = some c

/-- The numbers of the minimum are not above those of the provider's version, and those of the
schema version not above those of the maximum. -/
def NumbersPass (version : String) (hs : Handshake) : Prop :=
  NumbersLe (splitVersion hs.minProviderVersion) (splitVersion version) ∧
    NumbersLe (splitVersion hs.schemaVersion) (splitVersion hs.maxProviderVersion)

/-- `a` is above `b` only by what `splitVersion` drops. -/
def Hidden (a b : String) : Prop :=
  ∃ v w : Version, Reads a v ∧ Reads b w ∧ w < v ∧ NumbersLe (kept v) (kept w)

/-- The numbers of `a` are above those of `b`, although one of the two is no version, or a part that
`splitVersion` drops puts `a` at or below `b`. -/
def MadeUp (a b : String) : Prop :=
  ¬ NumbersLe (splitVersion a) (splitVersion b) ∧
    ((∀ v, ¬ Reads a v) ∨ (∀ w, ¬ Reads b w) ∨ ∃ v w, Reads a v ∧ Reads b w ∧ v ≤ w)

/-- Nothing that `Configure` leaves out decides: the maximum for the provider's version, and what
`splitVersion` drops or replaces by 0. -/
structure Decided (version : String) (hs : Handshake) : Prop where
  bounded : NotAbove hs.minProviderVersion version → ¬ MadeUp hs.minProviderVersion version →
    NotAbove hs.schemaVersion hs.maxProviderVersion →
    ¬ MadeUp hs.schemaVersion hs.maxProviderVersion → NotAbove version hs.maxProviderVersion
  shownMin : Hidden hs.minProviderVersion version →
    ¬ NumbersLe (splitVersion hs.schemaVersion) (splitVersion hs.maxProviderVersion)
  shownSchema : Hidden hs.schemaVersion hs.maxProviderVersion →
    ¬ NumbersLe (splitVersion hs.minProviderVersion) (splitVersion version)
  fair : Window version hs →
    ¬ MadeUp hs.minProviderVersion version ∧ ¬ MadeUp hs.schemaVersion hs.maxProviderVersion

section Window

variable {a b version : String} {hs : Handshake}

theorem notAbove_iff {v w : Version} (hv : Reads a v) (hw : Reads b w) :
    NotAbove a b ↔ v ≤ w := by
  refine ⟨fun h => h v w hv hw, fun h v' w' hv' hw' => ?_⟩
  rw [← text_inj (hv.symm.trans hv'), ← text_inj (hw.symm.trans hw')]
  exact h

theorem notAbove_of_numbersLe (h : NumbersLe (splitVersion a) (splitVersion b))
    (hshown : ¬ Hidden a b) : NotAbove a b := by
  intro v w hv hw
  by_contra hle
  rw [splitVersion_text hv, splitVersion_text hw] at h
  exact hshown ⟨v, w, hv, hw, Version.not_le_iff.mp hle, h⟩

theorem not_hidden (h : NotAbove a b) : ¬ Hidden a b := by
  rintro ⟨v, w, hv, hw, hlt, -⟩
  exact Version.not_le_iff.mpr hlt (h v w hv hw)

theorem numbersLe_of_notAbove (h : NotAbove a b) (hfair : ¬ MadeUp a b) :
    NumbersLe (splitVersion a) (splitVersion b) := by
  by_contra hle
  apply hfair
  refine ⟨hle, ?_⟩
  by_cases hv : ∃ v, Reads a v
  · by_cases hw : ∃ w, Reads b w
    · obtain ⟨v, hv⟩ := hv
      obtain ⟨w, hw⟩ := hw
      exact .inr (.inr ⟨v, w, hv, hw, h v w hv hw⟩)
    · exact .inr (.inl fun w hw' => hw ⟨w, hw'⟩)
  · exact .inl fun v hv' => hv ⟨v, hv'⟩

/-- The setup of a `Configure` that gets as far as the handshake. -/
structure Setup.Reaches {γ : Type} (setup : Setup γ) (c : γ) (hs : Handshake) : Prop where
  client : ∃ endpoint bearerToken, setup.config = .ok (endpoint, bearerToken) ∧
    setup.newClient endpoint bearerToken = .ok c
  handshake : setup.getVersion c = .ok hs

theorem handsOut_iff {γ : Type} {setup : Setup γ} {c : γ} (h : setup.Reaches c hs) :
    HandsOut (configure version setup) c ↔ NumbersPass version hs := by
  obtain ⟨⟨endpoint, bearerToken, hconfig, hclient⟩, hversion⟩ := h
  have hpass : NumbersPass version hs ↔ versionLess version hs.minProviderVersion = false ∧
      versionGreater hs.schemaVersion hs.maxProviderVersion = false := by
    rw [versionLess_eq_false, versionGreater_eq_false, NumbersPass]
  rw [hpass]
  simp only [configure, hconfig, hclient, hversion]
  cases versionLess version hs.minProviderVersion with
  | true => simp [HandsOut, ConfigureResponse.refuse]
  | false =>
    cases versionGreater hs.schemaVersion hs.maxProviderVersion with
    | true => simp [HandsOut, ConfigureResponse.refuse]
    | false => simp [HandsOut]

end Window

/-- **The handshake.** `Configure` hands out the client exactly for the versions in the window, if and
only if nothing that it leaves out decides. -/
theorem configure_window_iff {γ : Type} (version : String) (setup : Setup γ) (c : γ)
    (hs : Handshake) (h : setup.Reaches c hs) :
    (HandsOut (configure version setup) c ↔ Window version hs) ↔ Decided version hs := by
  rw [handsOut_iff h]
  constructor
  · intro hiff
    refine ⟨?_, ?_, ?_, ?_⟩
    · intro hmin hmin' hschema hschema'
      have hpass : NumbersPass version hs :=
        ⟨numbersLe_of_notAbove hmin hmin', numbersLe_of_notAbove hschema hschema'⟩
      exact (hiff.mp hpass).2.1
    · intro hhidden hschema
      obtain ⟨v, w, hv, hw, -, hle⟩ := id hhidden
      rw [← splitVersion_text hv, ← splitVersion_text hw] at hle
      exact not_hidden (hiff.mp ⟨hle, hschema⟩).1 hhidden
    · intro hhidden hmin
      obtain ⟨v, w, hv, hw, -, hle⟩ := id hhidden
      rw [← splitVersion_text hv, ← splitVersion_text hw] at hle
      exact not_hidden (hiff.mp ⟨hmin, hle⟩).2.2 hhidden
    · intro hwindow
      obtain ⟨hmin, hschema⟩ := hiff.mpr hwindow
      exact ⟨fun hmade => hmade.1 hmin, fun hmade => hmade.1 hschema⟩
  · intro hdecided
    constructor
    · rintro ⟨hmin, hschema⟩
      have hmin' := notAbove_of_numbersLe hmin fun hhidden => hdecided.shownMin hhidden hschema
      have hschema' := notAbove_of_numbersLe hschema fun hhidden => hdecided.shownSchema hhidden hmin
      exact ⟨hmin', hdecided.bounded hmin' (fun hmade => hmade.1 hmin) hschema'
        (fun hmade => hmade.1 hschema), hschema'⟩
    · intro hwindow
      obtain ⟨hmin, hschema⟩ := hdecided.fair hwindow
      exact ⟨numbersLe_of_notAbove hwindow.1 hmin, numbersLe_of_notAbove hwindow.2.2 hschema⟩

/-- A release whose numbers fit an `int`. -/
structure Plain (v : Version) : Prop where
  release : v.pre = [] ∧ v.build = []
  major : v.major < 2 ^ 63
  minor : v.minor < 2 ^ 63
  patch : v.patch < 2 ^ 63

/-- Between such releases the numbers decide. -/
theorem numbersLe_kept {v w : Version} (hv : Plain v) (hw : Plain w) :
    NumbersLe (kept v) (kept w) ↔ v ≤ w := by
  rw [Version.le_of_release hv.release.1 hw.release.1, numbersLe_iff]
  simp only [kept, Version.suffix_eq_nil.mpr hv.release, Version.suffix_eq_nil.mpr hw.release,
    if_true, fit, hv.major, hv.minor, hv.patch, hw.major, hw.minor, hw.patch,
    Prod.Lex.toLex_le_toLex]
  omega

/-- **Releases.** Of the window, `Configure` checks the minimum and the schema version. -/
theorem configure_release {γ : Type} {version : String} {setup : Setup γ} {c : γ} {hs : Handshake}
    {p s lo hi : Version} (h : setup.Reaches c hs) (hp : Reads version p)
    (hs' : Reads hs.schemaVersion s) (hlo : Reads hs.minProviderVersion lo)
    (hhi : Reads hs.maxProviderVersion hi) (hplain : Plain p ∧ Plain s ∧ Plain lo ∧ Plain hi) :
    HandsOut (configure version setup) c ↔ lo ≤ p ∧ s ≤ hi := by
  obtain ⟨hpp, hps, hplo, hphi⟩ := hplain
  rw [handsOut_iff h, NumbersPass, splitVersion_text hp, splitVersion_text hs',
    splitVersion_text hlo, splitVersion_text hhi, numbersLe_kept hplo hpp, numbersLe_kept hps hphi]

/-- A setup whose Bridge answers this. -/
def Setup.answering (hs : Handshake) : Setup Unit :=
  ⟨.ok ("http://homeassistant:8124", "token"), fun _ _ => .ok (), fun _ => .ok hs⟩

theorem answering_reaches (hs : Handshake) : (Setup.answering hs).Reaches () hs :=
  ⟨⟨_, _, rfl, rfl⟩, rfl⟩

theorem configure_window_iff_answering :
    (HandsOut (configure "1.0.0" (.answering ⟨"1.0.0", "1.0.0", "1.0.0", "1.0.0"⟩)) () ↔
      Window "1.0.0" ⟨"1.0.0", "1.0.0", "1.0.0", "1.0.0"⟩) ↔
      Decided "1.0.0" ⟨"1.0.0", "1.0.0", "1.0.0", "1.0.0"⟩ :=
  configure_window_iff _ _ _ _ (answering_reaches _)

/-- A provider above the maximum is admitted, and a maximum that is no version refuses. -/
theorem configure_window_fails :
    ¬ (HandsOut (configure "2.0.0" (.answering ⟨"1.0.0", "1.0.0", "1.0.0", "1.5.0"⟩)) () ↔
      Window "2.0.0" ⟨"1.0.0", "1.0.0", "1.0.0", "1.5.0"⟩) ∧
    ¬ (HandsOut (configure "1.0.0" (.answering ⟨"1.0.0", "1.0.0", "1.0.0", "v1.5.0"⟩)) () ↔
      Window "1.0.0" ⟨"1.0.0", "1.0.0", "1.0.0", "v1.5.0"⟩) := by
  have hone : Reads "1.0.0" ⟨1, 0, 0, [], []⟩ := by decide
  constructor
  · intro h
    have htwo : Reads "2.0.0" ⟨2, 0, 0, [], []⟩ := by decide
    have hmax : Reads "1.5.0" ⟨1, 5, 0, [], []⟩ := by decide
    have hwindow := h.mp ⟨by decide +kernel, by decide +kernel, by decide +kernel⟩
    have hle := hwindow.2.1 _ _ htwo hmax
    rw [Version.le_of_release rfl rfl] at hle
    revert hle
    decide
  · intro h
    have hmax : ∀ v : Version, ¬ Reads "v1.5.0" v := fun v hv =>
      text_ne_of_head (c := 'v') rfl v hv.symm
    have hout := h.mpr ⟨(notAbove_iff hone hone).mpr le_rfl, fun _ w _ hw => absurd hw (hmax w),
      fun _ w _ hw => absurd hw (hmax w)⟩
    have hrefused : (configure "1.0.0"
        (.answering ⟨"1.0.0", "1.0.0", "1.0.0", "v1.5.0"⟩)).diagnostics ≠ [] := by
      decide +kernel
    exact hrefused hout.1

end HaAddons.Provider
