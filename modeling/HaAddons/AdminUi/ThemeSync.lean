import HaAddons.AdminUi.ThemeValues
import HaAddons.Lib.Overlay

/-!
# The theme sync

The client reads the style of the page that embeds it and writes `--sync-*` properties and a
`data-theme` attribute on its own root element. Each refresh reads the parent anew; if that fails,
or the client disposes of the sync, all that the module wrote is taken away. It does not put back
what was there under the same name before.

* `bounded_wanted` — every value is of the bounded form of its property.
* `refresh_spec`, `dispose_spec` — what one step shows, in any state.
* `theme_sync_frame` — what the root has after any run, a refresh, and disposing.
* `dispose_drops_theme` — an attribute that was there before is not put back.
-/

namespace HaAddons.AdminUi.Theme

open HaAddons.Lib

/-! ## Names -/

def onAcc : Text := "--sync-on-acc".toList

def headerName : Text := "--sync-header-height".toList

/-- The properties that hold colours. -/
def colorNames : List Text :=
  ["--sync-bg", "--sync-card", "--sync-fg", "--sync-bd", "--sync-acc", "--sync-on-acc",
    "--sync-ha-card-background", "--sync-toast-bg", "--sync-toast-fg"].map String.toList

def radiusNames : List Text := ["--sync-card-radius", "--sync-toast-radius"].map String.toList

def shadowName : Text := "--sync-card-shadow".toList

/-- All properties of the module. -/
def syncNames : List Text := headerName :: shadowName :: (radiusNames ++ colorNames)

/-! ## Reading the parent -/

/-- What the page that embeds the client does when it is read. -/
inductive Parent where
  /-- There is none, or it is the client's own window. -/
  | absent
  /-- Reading its style throws. -/
  | inaccessible
  /-- Already `win.parent` throws. -/
  | failing
  /-- `getPropertyValue` of the host element, if there is one, and of the document. -/
  | page (host : Option (Text → Text)) (style : Text → Text)

inductive Reason where
  | idle
  | not_embedded
  | parent_inaccessible
  | unparseable_background
  | ok
  | error
  | disposed
  deriving DecidableEq

/-- What `readParent` returns. -/
structure Read (J : Browser) where
  bg : Text
  card : Text
  fg : Text
  bd : Text
  acc : Text
  headerHeight : Option Text
  cardBackground : Option (Color J)
  cardRadius : Option Text
  cardShadow : Option Text
  toastBg : Text
  toastFg : Text
  toastRadius : Option Text

/-- `a || b` for texts. -/
def orText (a b : Text) : Text := if a = [] then b else a

def readParent (J : Browser) : Parent → Except Reason (Read J)
  | .absent => .error .not_embedded
  | .inaccessible => .error .parent_inaccessible
  | .failing => .error .error
  | .page host style =>
    let read := fun name : String =>
      trim (orText ((host.map fun get => get name.toList).getD []) (style name.toList))
    let background := orText (read "--ha-card-background") (read "--card-background-color")
    .ok {
      bg := read "--primary-background-color"
      card := read "--card-background-color"
      fg := read "--primary-text-color"
      bd := read "--divider-color"
      acc := read "--primary-color"
      headerHeight := headerHeight (read "--header-height")
      cardBackground := cardBackground J background
      cardRadius :=
        cardRadius (orText (read "--ha-card-border-radius") (read "--ha-border-radius-lg"))
      cardShadow := cardShadow J (read "--ha-card-box-shadow")
      toastBg := read "--ha-color-neutral-10"
      toastFg := read "--ha-color-on-neutral-loud"
      toastRadius := cardRadius (read "--ha-border-radius-sm") }

/-! ## Evaluation -/

section Evaluate

variable {J : Browser}

/-- An opaque colour as a background or as text. -/
def Color.paint (c : Color J) : J.Paint := J.paint c.r c.g c.b

/-- `over` -/
def overColor (c : Color J) (background : J.Paint) : J.Paint :=
  J.composite c.r c.g c.b c.a background

/-- A colour under a name. -/
def entry (name : String) (c : Color J) : Text × Text := (name.toList, serializeColor c)

/-- The accent and its text colour, if both can be read on all surfaces. -/
def accent (bg : Color J) (cardFill : J.Paint) (haCardFill : Option J.Paint)
    (acc : Option (Color J)) : List (Text × Text) :=
  match acc with
  | none => []
  | some acc =>
    match if acc.isOpaque then parseColor J (pickOnColor acc) else none with
    | none => []
    | some on =>
      if J.readable acc.paint bg.paint && J.readable acc.paint cardFill &&
          haCardFill.all (J.readable acc.paint ·) && J.readable on.paint acc.paint then
        [entry "--sync-acc" acc, entry "--sync-on-acc" on]
      else []

/-- `evaluate`: the properties of the surface and the accent group. -/
def evaluate (bg card fg bd acc haCard : Option (Color J)) : List (Text × Text) :=
  match bg, card, fg, bd with
  | some bg, some card, some fg, some bd =>
    let cardFill := overColor card bg.paint
    if J.readable (overColor fg bg.paint) bg.paint &&
        J.readable (overColor fg cardFill) cardFill then
      let haCard := haCard.filter fun c =>
        J.readable (overColor fg (overColor c bg.paint)) (overColor c bg.paint)
      [entry "--sync-bg" bg, entry "--sync-card" card, entry "--sync-fg" fg,
          entry "--sync-bd" bd] ++
        (haCard.map (entry "--sync-ha-card-background")).toList ++
        accent bg cardFill (haCard.map (overColor · bg.paint)) acc
    else []
  | _, _, _, _ => []

/-- A value that is neither missing nor empty, under a name. -/
def present (name : Text) (v : Option Text) : List (Text × Text) :=
  ((v.filter (· ≠ [])).map fun v => (name, v)).toList

/-- The parent's snackbar surface, if it can be read. -/
def toast (bg fg : Option (Color J)) : List (Text × Text) :=
  match bg, fg with
  | some bg, some fg =>
    if bg.isOpaque && fg.isOpaque && J.readable fg.paint bg.paint then
      [entry "--sync-toast-bg" bg, entry "--sync-toast-fg" fg]
    else []
  | _, _ => []

/-- All properties that a reading with a usable background asks for. -/
def Read.wanted (read : Read J) : Dict Text Text :=
  .ofList (evaluate (parseColor J read.bg) (parseColor J read.card) (parseColor J read.fg)
      (parseColor J read.bd) (parseColor J read.acc) read.cardBackground ++
    present "--sync-card-radius".toList read.cardRadius ++ present shadowName read.cardShadow ++
    toast (parseColor J read.toastBg) (parseColor J read.toastFg) ++
    present "--sync-toast-radius".toList read.toastRadius ++ present headerName read.headerHeight)

/-- The background, if it is opaque. -/
def Read.background (read : Read J) : Option (Color J) :=
  (parseColor J read.bg).filter Color.isOpaque

def dark : Text := "dark".toList

def light : Text := "light".toList

def mode (bg : Color J) : Text := if J.isDark bg.r bg.g bg.b then dark else light

end Evaluate

/-! ## The module and the root element -/

/-- The style of the root element with what the module wrote there, its `data-theme`, and the
module's own variables. `modes` is the history of the values written to `data-theme`. -/
structure Sync where
  props : Overlay Text Text
  theme : Option Text
  modes : List Text
  themeSet : Bool
  started : Bool
  reason : Reason

/-- A page before the module writes anything. -/
def Sync.init (style : Text → Option Text) (theme : Option Text) : Sync :=
  ⟨.init style, theme, [], false, false, .idle⟩

def clearWritten (s : Sync) : Sync :=
  { s with
    props := s.props.clear
    theme := if s.themeSet then none else s.theme
    themeSet := false }

def writeProps (wanted : Dict Text Text) (s : Sync) : Sync :=
  { s with props := s.props.write wanted }

def writeTheme (mode : Text) (s : Sync) : Sync :=
  if s.theme = some mode then { s with themeSet := true }
  else { s with theme := some mode, modes := s.modes ++ [mode], themeSet := true }

variable (J : Browser)

/-- `run`, and what `refresh` does if it throws. -/
def refresh (p : Parent) (s : Sync) : Sync :=
  match readParent J p with
  | .error reason => { clearWritten s with reason := reason }
  | .ok read =>
    match read.background with
    | none =>
      let header := present headerName read.headerHeight
      let s := if header = [] then clearWritten s else writeProps (.ofList header) (clearWritten s)
      { s with reason := .unparseable_background }
    | some bg => { writeProps read.wanted (writeTheme (mode bg) s) with reason := .ok }

/-- Starts, refreshes (asked for, or by the observer, the timer or an event), and disposing. -/
inductive Event where
  | start (p : Parent)
  | refresh (p : Parent)
  | dispose

def start (p : Parent) (s : Sync) : Sync :=
  if s.started then s else refresh J p { s with started := true }

def dispose (s : Sync) : Sync :=
  { clearWritten { s with started := false } with reason := .disposed }

def Sync.step (s : Sync) : Event → Sync
  | .start p => start J p s
  | .refresh p => refresh J p s
  | .dispose => dispose s

def Sync.run (s : Sync) (es : List Event) : Sync := es.foldl (Sync.step J) s

/-! ## What is written -/

/-- The bounded form of each property. -/
def Bounded (name v : Text) : Prop :=
  (name ∈ colorNames ∧ IsColor v) ∨ (name ∈ radiusNames ∧ IsRadius v) ∨
    (name = shadowName ∧ IsShadow v) ∨ (name = headerName ∧ IsHeaderHeight v)

section Written

variable {J} {read : Read J} {p : Parent}

theorem mem_syncNames {name v : Text} (h : Bounded name v) : name ∈ syncNames := by
  simp only [syncNames, List.mem_cons, List.mem_append]
  rcases h with h | h | h | h
  · exact .inr (.inr (.inr h.1))
  · exact .inr (.inr (.inl h.1))
  · exact .inr (.inl h.1)
  · exact .inl h.1

theorem bounded_entry {name : String} (c : Color J) (h : name.toList ∈ colorNames) :
    Bounded (entry name c).1 (entry name c).2 :=
  .inl ⟨h, isColor_serializeColor c⟩

theorem mem_present {name : Text} {v : Option Text} {e : Text × Text} (h : e ∈ present name v) :
    ∃ t, v = some t ∧ t ≠ [] ∧ e = (name, t) := by
  simp only [present, Option.mem_toList, Option.map_eq_some_iff, Option.filter_eq_some_iff,
    decide_eq_true_eq] at h
  obtain ⟨t, ⟨ht, hne⟩, he⟩ := h
  exact ⟨t, ht, hne, he.symm⟩

theorem bounded_accent {bg : Color J} {fill : J.Paint} {haFill : Option J.Paint}
    {acc : Option (Color J)} {e : Text × Text} (h : e ∈ accent bg fill haFill acc) :
    Bounded e.1 e.2 := by
  unfold accent at h
  cases acc with
  | none => cases h
  | some acc =>
    dsimp only at h
    cases hon : (if acc.isOpaque then parseColor J (pickOnColor acc) else none) with
    | none =>
      rw [hon] at h
      cases h
    | some on =>
      rw [hon] at h
      dsimp only at h
      split_ifs at h
      · simp only [List.mem_cons, List.not_mem_nil, or_false] at h
        rcases h with rfl | rfl
        · exact bounded_entry acc (by decide)
        · exact bounded_entry on (by decide)
      · cases h

theorem bounded_evaluate {bg card fg bd acc haCard : Option (Color J)} {e : Text × Text}
    (h : e ∈ evaluate bg card fg bd acc haCard) : Bounded e.1 e.2 := by
  unfold evaluate at h
  split at h
  · dsimp only at h
    split_ifs at h
    · simp only [List.mem_append, List.mem_cons, List.not_mem_nil, or_false, Option.mem_toList,
        Option.map_eq_some_iff] at h
      rcases h with ((rfl | rfl | rfl | rfl) | ⟨c, -, rfl⟩) | h
      · exact bounded_entry _ (by decide)
      · exact bounded_entry _ (by decide)
      · exact bounded_entry _ (by decide)
      · exact bounded_entry _ (by decide)
      · exact bounded_entry c (by decide)
      · exact bounded_accent h
    · cases h
  · cases h

theorem bounded_toast {bg fg : Option (Color J)} {e : Text × Text} (h : e ∈ toast bg fg) :
    Bounded e.1 e.2 := by
  unfold toast at h
  split at h
  · split_ifs at h
    · simp only [List.mem_cons, List.not_mem_nil, or_false] at h
      rcases h with rfl | rfl
      · exact bounded_entry _ (by decide)
      · exact bounded_entry _ (by decide)
    · cases h
  · cases h

/-- Lengths and shadows come from the bounded parsers. -/
theorem readParent_ok (h : readParent J p = .ok read) :
    (∃ t, read.headerHeight = headerHeight t) ∧ (∃ t, read.cardRadius = cardRadius t) ∧
      (∃ t, read.cardShadow = cardShadow J t) ∧ ∃ t, read.toastRadius = cardRadius t := by
  cases p with
  | absent => cases h
  | inaccessible => cases h
  | failing => cases h
  | page host style =>
    simp only [readParent, Except.ok.injEq] at h
    subst h
    dsimp only
    exact ⟨⟨_, rfl⟩, ⟨_, rfl⟩, ⟨_, rfl⟩, ⟨_, rfl⟩⟩

theorem bounded_header (h : readParent J p = .ok read) {e : Text × Text}
    (he : e ∈ present headerName read.headerHeight) : Bounded e.1 e.2 := by
  obtain ⟨t, ht, -, rfl⟩ := mem_present he
  obtain ⟨u, hu⟩ := (readParent_ok h).1
  exact .inr (.inr (.inr ⟨rfl, isHeaderHeight_of (hu.symm.trans ht)⟩))

/-- Each wanted value is of the bounded form of its property. -/
theorem bounded_wanted (h : readParent J p = .ok read) :
    ∀ e ∈ read.wanted.entries, Bounded e.1 e.2 := by
  intro ⟨n, v⟩ he
  obtain ⟨-, ⟨radius, hradius⟩, ⟨shadow, hshadow⟩, ⟨toast, htoast⟩⟩ := readParent_ok h
  have hmem := Dict.mem_of_get?_ofList (Dict.mem_entries.mp he)
  simp only [List.mem_append] at hmem
  rcases hmem with ((((hmem | hmem) | hmem) | hmem) | hmem) | hmem
  · exact bounded_evaluate hmem
  · obtain ⟨t, ht, hne, heq⟩ := mem_present hmem
    obtain ⟨rfl, rfl⟩ := Prod.mk.inj heq
    have hname : "--sync-card-radius".toList ∈ radiusNames := by decide
    exact .inr (.inl ⟨hname, isRadius_of (hradius.symm.trans ht) hne⟩)
  · obtain ⟨t, ht, hne, heq⟩ := mem_present hmem
    obtain ⟨rfl, rfl⟩ := Prod.mk.inj heq
    exact .inr (.inr (.inl ⟨rfl, isShadow_of (hshadow.symm.trans ht) hne⟩))
  · exact bounded_toast hmem
  · obtain ⟨t, ht, hne, heq⟩ := mem_present hmem
    obtain ⟨rfl, rfl⟩ := Prod.mk.inj heq
    have hname : "--sync-toast-radius".toList ∈ radiusNames := by decide
    exact .inr (.inl ⟨hname, isRadius_of (htoast.symm.trans ht) hne⟩)
  · exact bounded_header h hmem

end Written

/-! ## Runs -/

/-- What a refresh with this parent leaves on the root. -/
def wantedOf (p : Parent) : Dict Text Text :=
  match readParent J p with
  | .error _ => .empty
  | .ok read =>
    match read.background with
    | none => .ofList (present headerName read.headerHeight)
    | some _ => read.wanted

/-- The mode that a refresh with this parent sets, if its background can be used. -/
def modeOf (p : Parent) : Option Text :=
  match readParent J p with
  | .error _ => none
  | .ok read => read.background.map mode

/-- What holds in every state of a run that began with this style and attribute. -/
structure Sync.Good (style : Text → Option Text) (theme : Option Text) (s : Sync) : Prop where
  laid : s.props.Over style
  bounded : ∀ e ∈ s.props.log, Bounded e.1 e.2
  modes : ∀ m ∈ s.modes, m = dark ∨ m = light
  idle : s.themeSet = false → theme = none ∨ s.modes ≠ [] → s.theme = none

/-- What a page shows of the module after a step that wants these properties and this mode. -/
structure Sync.Shows (style : Text → Option Text) (theme : Option Text) (wanted : Dict Text Text)
    (mode : Option Text) (s : Sync) : Prop where
  props : ∀ n, s.props.store n =
    (wanted.get? n).or (if n ∈ s.props.names then none else style n)
  shown : ∀ m ∈ mode, s.theme = some m
  dropped : mode = none → theme = none ∨ s.modes ≠ [] → s.theme = none

/-- The mode that a step sets. -/
def Event.mode : Event → Option Text
  | .start p => modeOf J p
  | .refresh p => modeOf J p
  | .dispose => none

section Runs

variable {J} {style : Text → Option Text} {theme : Option Text} {s : Sync} {p : Parent}

theorem good_init (style : Text → Option Text) (theme : Option Text) :
    (Sync.init style theme).Good style theme where
  laid := Overlay.over_init style
  bounded := by
    intro e he
    cases he
  modes := by
    intro m hm
    cases hm
  idle := by
    intro _ h
    exact h.resolve_right fun hne => hne rfl

theorem good_clearWritten (h : s.Good style theme) : (clearWritten s).Good style theme where
  laid := (Overlay.over_clear h.laid).1
  bounded := by
    intro e he
    exact h.bounded e ((Overlay.over_clear h.laid).2 ▸ he)
  modes := h.modes
  idle := by
    intro _ hclean
    show (if s.themeSet then none else s.theme) = none
    split_ifs with hset
    · rfl
    · exact h.idle (by simpa using hset) hclean

theorem good_writeProps (h : s.Good style theme) {wanted : Dict Text Text}
    (hwanted : ∀ e ∈ wanted.entries, Bounded e.1 e.2) :
    (writeProps wanted s).Good style theme where
  laid := (Overlay.over_write h.laid wanted).1
  bounded := by
    intro e he
    exact ((Overlay.over_write h.laid wanted).2.1 e he).elim (h.bounded e) (hwanted e)
  modes := h.modes
  idle := h.idle

theorem good_writeTheme (h : s.Good style theme) {mode : Text}
    (hmode : mode = dark ∨ mode = light) : (writeTheme mode s).Good style theme := by
  unfold writeTheme
  split_ifs
  · refine ⟨h.laid, h.bounded, h.modes, fun hset => ?_⟩
    cases hset
  · refine ⟨h.laid, h.bounded, fun m hm => ?_, fun hset => ?_⟩
    · cases List.mem_append.mp hm with
      | inl hm => exact h.modes m hm
      | inr hm => exact List.mem_singleton.mp hm ▸ hmode
    · cases hset

theorem mode_cases (bg : Color J) : mode bg = dark ∨ mode bg = light := by
  unfold mode
  split_ifs
  · exact .inl rfl
  · exact .inr rfl

theorem Sync.Good.props (h : s.Good style theme) {wanted : Dict Text Text}
    (hw : ∀ n, s.props.written.get? n = wanted.get? n) (n : Text) :
    s.props.store n = (wanted.get? n).or (if n ∈ s.props.names then none else style n) := by
  cases hn : wanted.get? n with
  | some v => exact h.laid.value n v ((hw n).trans hn)
  | none =>
    have hgone := h.laid.gone n ((hw n).trans hn)
    rw [Option.none_or, hgone]
    split_ifs <;> rfl

/-- Properties that are not the module's. -/
theorem Sync.Good.untouched (h : s.Good style theme) {n : Text} (hn : n ∉ syncNames) :
    s.props.store n = style n := by
  have hnames : n ∉ s.props.names := by
    intro hmem
    obtain ⟨e, he, rfl⟩ := List.mem_map.mp hmem
    exact hn (mem_syncNames (h.bounded e he))
  have hnone : s.props.written.get? n = none :=
    Dict.get?_eq_none.mpr fun hmem => hnames (h.laid.named n hmem)
  exact (h.laid.gone n hnone).trans (if_neg hnames)

theorem shows_clearWritten (h : s.Good style theme) :
    (clearWritten s).Shows style theme .empty none where
  props := (good_clearWritten h).props fun _ => rfl
  shown := by
    intro m hm
    cases hm
  dropped := fun _ => (good_clearWritten h).idle rfl

/-- After clearing, no attribute is the module's. -/
theorem shows_writeProps (h : s.Good style theme) {wanted : Dict Text Text}
    (hwanted : ∀ e ∈ wanted.entries, Bounded e.1 e.2) :
    (writeProps wanted (clearWritten s)).Shows style theme wanted none where
  props := (good_writeProps (good_clearWritten h) hwanted).props
    (Overlay.over_write (good_clearWritten h).laid wanted).2.2
  shown := by
    intro m hm
    cases hm
  dropped := fun _ => (good_clearWritten h).idle rfl

theorem theme_writeTheme (m : Text) (s : Sync) : (writeTheme m s).theme = some m := by
  unfold writeTheme
  split_ifs with h
  · exact h
  · rfl

/-- The reason is nothing that a page shows. -/
theorem with_reason {wanted : Dict Text Text} {m : Option Text} (reason : Reason)
    (h : s.Good style theme ∧ s.Shows style theme wanted m) :
    ({ s with reason := reason } : Sync).Good style theme ∧
      ({ s with reason := reason } : Sync).Shows style theme wanted m :=
  ⟨⟨h.1.laid, h.1.bounded, h.1.modes, h.1.idle⟩, ⟨h.2.props, h.2.shown, h.2.dropped⟩⟩

/-- **One refresh.** It keeps the invariant, and the page shows what the parent asks for. -/
theorem refresh_spec (h : s.Good style theme) (p : Parent) :
    (refresh J p s).Good style theme ∧
      (refresh J p s).Shows style theme (wantedOf J p) (modeOf J p) := by
  cases hread : readParent J p with
  | error reason =>
    simp only [refresh, wantedOf, modeOf, hread]
    exact with_reason reason ⟨good_clearWritten h, shows_clearWritten h⟩
  | ok read =>
    cases hbg : read.background with
    | none =>
      simp only [refresh, wantedOf, modeOf, hread, hbg]
      refine with_reason _ ?_
      have hheader : ∀ e ∈ (Dict.ofList (present headerName read.headerHeight)).entries,
          Bounded e.1 e.2 := by
        intro e he
        exact bounded_header hread (Dict.mem_of_get?_ofList (Dict.mem_entries.mp he))
      split_ifs with hnil
      · rw [hnil]
        exact ⟨good_clearWritten h, shows_clearWritten h⟩
      · exact ⟨good_writeProps (good_clearWritten h) hheader, shows_writeProps h hheader⟩
    | some bg =>
      simp only [refresh, wantedOf, modeOf, hread, hbg]
      refine with_reason _ ?_
      have htheme := good_writeTheme h (mode_cases bg)
      have hgood := good_writeProps htheme (bounded_wanted hread)
      refine ⟨hgood, hgood.props (Overlay.over_write htheme.laid read.wanted).2.2, ?_, ?_⟩
      · intro m hm
        obtain rfl : mode bg = m := Option.some.inj hm
        exact theme_writeTheme (mode bg) s
      · intro hnone
        cases hnone

theorem dispose_spec (h : s.Good style theme) :
    (dispose s).Good style theme ∧ (dispose s).Shows style theme .empty none := by
  have hstarted : ({ s with started := false } : Sync).Good style theme :=
    ⟨h.laid, h.bounded, h.modes, h.idle⟩
  exact with_reason _ ⟨good_clearWritten hstarted, shows_clearWritten hstarted⟩

theorem good_step (h : s.Good style theme) (e : Event) : (s.step J e).Good style theme := by
  cases e with
  | start p =>
    show (start J p s).Good style theme
    unfold start
    split_ifs
    · exact h
    · have hstarted : ({ s with started := true } : Sync).Good style theme :=
        ⟨h.laid, h.bounded, h.modes, h.idle⟩
      exact (refresh_spec hstarted p).1
  | refresh p => exact (refresh_spec h p).1
  | dispose => exact (dispose_spec h).1

theorem good_run (h : s.Good style theme) (es : List Event) : (s.run J es).Good style theme := by
  induction es generalizing s with
  | nil => exact h
  | cons e es ih => exact ih (good_step h e)

theorem clearWritten_untouched (hset : s.themeSet = false) :
    (clearWritten s).theme = s.theme ∧ (clearWritten s).themeSet = false :=
  ⟨if_neg (by simp [hset]), rfl⟩

theorem refresh_untouched (hset : s.themeSet = false) (hp : modeOf J p = none) :
    (refresh J p s).theme = s.theme ∧ (refresh J p s).themeSet = false := by
  have hclear := clearWritten_untouched hset
  cases hread : readParent J p with
  | error reason =>
    simp only [refresh, hread]
    exact hclear
  | ok read =>
    simp only [modeOf, hread, Option.map_eq_none_iff] at hp
    simp only [refresh, hread, hp]
    split_ifs
    · exact hclear
    · exact hclear

theorem step_untouched (hset : s.themeSet = false) {e : Event} (he : e.mode J = none) :
    (s.step J e).theme = s.theme ∧ (s.step J e).themeSet = false := by
  cases e with
  | start p =>
    show (start J p s).theme = s.theme ∧ (start J p s).themeSet = false
    unfold start
    split_ifs
    · exact ⟨rfl, hset⟩
    · exact refresh_untouched (s := { s with started := true }) hset he
  | refresh p => exact refresh_untouched hset he
  | dispose => exact clearWritten_untouched (s := { s with started := false }) hset

/-- Steps without a usable background leave the attribute alone. -/
theorem theme_untouched (hset : s.themeSet = false) {es : List Event}
    (hes : ∀ e ∈ es, e.mode J = none) :
    (s.run J es).theme = s.theme ∧ (s.run J es).themeSet = false := by
  induction es generalizing s with
  | nil => exact ⟨rfl, hset⟩
  | cons e es ih =>
    obtain ⟨he, hes⟩ := List.forall_mem_cons.mp hes
    obtain ⟨htheme, hstep⟩ := step_untouched hset he
    obtain ⟨hrun, hrunset⟩ := ih hstep hes
    exact ⟨hrun.trans htheme, hrunset⟩

end Runs

/-! ## The frame -/

/-- **What the module leaves behind.** In every state of every run: values are bounded, and only the
module's properties are touched; after a refresh the page shows what that refresh asks for, and
after disposing it shows nothing of the module. -/
theorem theme_sync_frame (style : Text → Option Text) (theme : Option Text) (es : List Event) :
    (∀ e ∈ ((Sync.init style theme).run J es).props.log, Bounded e.1 e.2) ∧
      (∀ m ∈ ((Sync.init style theme).run J es).modes, m = dark ∨ m = light) ∧
      (∀ n, n ∉ syncNames → ((Sync.init style theme).run J es).props.store n = style n) ∧
      (∀ p, (refresh J p ((Sync.init style theme).run J es)).Shows style theme
        (wantedOf J p) (modeOf J p)) ∧
      (dispose ((Sync.init style theme).run J es)).Shows style theme .empty none ∧
      ((∀ e ∈ es, e.mode J = none) →
        ((Sync.init style theme).run J es).theme = theme ∧
        (dispose ((Sync.init style theme).run J es)).theme = theme) ∧
      ((∀ n ∈ syncNames, style n = none) → theme = none →
        (dispose ((Sync.init style theme).run J es)).props.store = style ∧
        (dispose ((Sync.init style theme).run J es)).theme = none ∧
        ∀ p reason, readParent J p = .error reason →
          (refresh J p ((Sync.init style theme).run J es)).props.store = style ∧
          (refresh J p ((Sync.init style theme).run J es)).theme = none) := by
  have hgood : ((Sync.init style theme).run J es).Good style theme :=
    good_run (good_init style theme) es
  have hdispose := (dispose_spec hgood).2
  refine ⟨hgood.bounded, hgood.modes, ?_, fun p => (refresh_spec hgood p).2, hdispose, ?_, ?_⟩
  · intro n hn
    exact hgood.untouched hn
  · intro hes
    obtain ⟨htheme, hset⟩ := theme_untouched (s := Sync.init style theme) rfl hes
    refine ⟨htheme, ?_⟩
    exact (clearWritten_untouched (s := { (Sync.init style theme).run J es with started := false })
      hset).1.trans htheme
  · intro hclean hnone
    have hempty : ∀ {s : Sync}, s.Good style theme → s.Shows style theme .empty none →
        s.props.store = style ∧ s.theme = none := by
      intro s hs hshows
      refine ⟨funext fun n => ?_, hshows.dropped rfl (.inl hnone)⟩
      rw [hshows.props n, Dict.get?_empty, Option.none_or]
      split_ifs with hmem
      · obtain ⟨e, he, rfl⟩ := List.mem_map.mp hmem
        exact (hclean e.1 (mem_syncNames (hs.bounded e he))).symm
      · rfl
    have hdisposed := hempty (dispose_spec hgood).1 hdispose
    refine ⟨hdisposed.1, hdisposed.2, fun p reason hp => ?_⟩
    obtain ⟨hs, hshows⟩ := refresh_spec (J := J) hgood p
    simp only [wantedOf, modeOf, hp] at hshows
    exact hempty hs hshows

/-! ## A dark page -/

/-- A browser for pages in few colours: alphas are thousandths, all text can be read, and a colour
is dark if its channels add up to less than half. -/
def plainBrowser : Browser where
  lower s := s.map Char.toLower
  Alpha := ℕ
  number s := (readMilli s).getD 0
  one := 1000
  zero := 0
  inUnit a := decide (a ≤ 1000)
  one_inUnit := by decide
  zero_inUnit := by decide
  isOne a := decide (a = 1000)
  thousandths a := a
  thousandths_le := by
    intro a h
    exact of_decide_eq_true h
  Paint := Unit
  paint _ _ _ := ()
  composite _ _ _ _ _ := ()
  readable _ _ := true
  isDark r g b := decide (r + g + b < 383)
  prefersWhite r g b := decide (r + g + b < 383)

/-- The dark theme, with a header height. -/
def darkTheme : List (Text × Text) :=
  [("--primary-background-color", "#111111"), ("--card-background-color", "#1c1c1c"),
    ("--primary-text-color", "rgb(225, 225, 225)"),
    ("--divider-color", "rgba(225, 225, 225, 0.12)"), ("--primary-color", "#03a9f4"),
    ("--header-height", "56px")].map fun e => (e.1.toList, e.2.toList)

def darkStyle (name : Text) : Text := ((darkTheme.find? (·.1 = name)).map (·.2)).getD []

def darkPage : Parent := .page none darkStyle

/-- A page with nothing but a header height. -/
def headerPage : Parent :=
  .page none fun name => if name = "--header-height".toList then "56px".toList else []

theorem theme_sync_frame_clean :
    ((Sync.init (fun _ => none) none).run plainBrowser [.start darkPage]).theme = some dark ∧
      (dispose ((Sync.init (fun _ => none) none).run plainBrowser [.start darkPage])).props.store =
        (fun _ => none) ∧
      (dispose ((Sync.init (fun _ => none) none).run plainBrowser [.start darkPage])).theme =
        none :=
  have h := (theme_sync_frame plainBrowser (fun _ => none) none
    [.start darkPage]).2.2.2.2.2.2 (fun _ _ => rfl) rfl
  ⟨by decide, h.1, h.2.1⟩

/-- An attribute that was there before is not put back, and a header height is shown although the
background cannot be used. -/
theorem dispose_drops_theme :
    ((Sync.init (fun _ => none) (some light)).run plainBrowser [.start darkPage]).theme =
        some dark ∧
      (dispose ((Sync.init (fun _ => none) (some light)).run plainBrowser
        [.start darkPage])).theme = none ∧
      modeOf plainBrowser headerPage = none ∧
      ((Sync.init (fun _ => none) none).run plainBrowser [.start headerPage]).props.store
        headerName = some "56px".toList := by
  refine ⟨by decide, by decide, by decide, by decide⟩

end HaAddons.AdminUi.Theme
