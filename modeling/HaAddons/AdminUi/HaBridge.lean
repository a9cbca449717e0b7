import HaAddons.Lib.RateLimit
import Mathlib.Algebra.Order.Group.Int

/-!
# The bridge to the Home Assistant frontend

The page sits in a frame of the frontend. It subscribes to the frontend's properties, and asks the
frontend to hide its bar (kiosk) depending on what it is told. A guard freezes the kiosk flag when it
changes too often.

* `bridge_obeys_host` — only the parent's messages count, the last subscription says what the kiosk
  flag is, and without `configure` and `dispose` the flag changes at most `freezeLimit` times in a
  span shorter than `freezeWindowMs`, and not at all once it is frozen.
-/

namespace HaAddons.AdminUi.HaBridge

open HaAddons.Lib

/-! ## Values of messages -/

/-- A value of JavaScript, as far as a message's fields are looked at. -/
inductive Js where
  | undefined
  | null
  | bool (b : Bool)
  | number
  | str (s : String)
  | object (fields : List (String × Js))

namespace Js

def prop : Js → String → Js
  | object fields, key => ((fields.find? (·.1 = key)).map Prod.snd).getD undefined
  | _, _ => undefined

/-- `typeof v === "string"` -/
def string? : Js → Option String
  | str s => some s
  | _ => none

def bool? : Js → Option Bool
  | bool b => some b
  | _ => none

/-- Neither falsy nor of another type than `object`. -/
def isObject : Js → Bool
  | object _ => true
  | _ => false

end Js

/-- The length of a string in UTF-16 code units. -/
def jsLength (s : String) : ℕ :=
  s.toList.foldl (fun n c => n + if 0xFFFF < c.toNat then 2 else 1) 0

inductive Policy where
  | narrow
  | never
  | always
  deriving DecidableEq

def maxPath : ℕ := 512
def freezeWindowMs : ℤ := 10000
def freezeLimit : ℕ := 4

/-- The end of an inset: nothing or `px`. -/
def insetUnit (s : List Char) : Bool := s = [] || s = ['p', 'x']

/-- What may follow the first digits of an inset. -/
def insetRest : List Char → Bool
  | '.' :: s => s.takeWhile Char.isDigit ≠ [] && insetUnit (s.dropWhile Char.isDigit)
  | s => insetUnit s

/-- `/^-?\d+(\.\d+)?(px)?$/` -/
def isInset (s : List Char) : Bool :=
  let t := if s.head? = some '-' then s.tail else s
  t.takeWhile Char.isDigit ≠ [] && insetRest (t.dropWhile Char.isDigit)

structure Insets where
  top : String
  right : String
  bottom : String
  left : String
  deriving DecidableEq

structure Route where
  path : String
  pfx : String
  deriving DecidableEq

def cleanInset (value : Js) (side : String) : Option String :=
  (value.prop side).string?.filter fun v => jsLength v ≤ 32 && isInset v.toList

def cleanInsets (value : Js) : Option Insets := do
  guard value.isObject
  let top ← cleanInset value "top"
  let right ← cleanInset value "right"
  let bottom ← cleanInset value "bottom"
  let left ← cleanInset value "left"
  return ⟨top, right, bottom, left⟩

def cleanRoute (value : Js) : Option Route := do
  guard value.isObject
  let path ← (value.prop "path").string?
  let pfx ← (value.prop "prefix").string?
  guard (path.toList.head? = some '/' ∧ jsLength path ≤ maxPath ∧ jsLength pfx ≤ maxPath)
  return ⟨path, pfx⟩

/-! ## The bridge -/

/-- The window and the options that do not change. `σ` are the windows that messages come from. -/
structure Page (σ : Type) where
  /-- `win` exists and its parent is another window. -/
  embedded : Bool
  parent : σ
  /-- `win.location.origin`, if it is a string. -/
  origin : Option String
  targetOrigin : String

inductive Status where
  | idle
  | waiting
  | noAnswer
  | ok
  deriving DecidableEq

structure BridgeState where
  embedded : Bool
  status : Status
  narrow : Option Bool
  safeAreaInsets : Option Insets
  route : Option Route
  kiosk : Bool
  hostBar : Option Bool
  kioskFrozen : Bool
  messages : ℕ
  lastMessageAt : Option ℤ
  deriving DecidableEq

def initial : BridgeState := ⟨false, .idle, none, none, none, false, none, false, 0, none⟩

inductive Outgoing where
  | subscribe (handleSafeArea kioskMode : Bool)
  | unsubscribe
  deriving DecidableEq

/-- The variables of `createHaBridge`, the timer and the listener that are set, and the messages
posted so far, each with its target origin. -/
structure Bridge where
  policy : Policy
  handleSafeArea : Bool
  started : Bool
  subscribed : Bool
  timer : Bool
  transitions : List ℤ
  state : BridgeState
  listening : Bool
  log : List (Outgoing × String)
  deriving DecidableEq

def isOpaqueOrigin (origin : Option String) : Bool :=
  origin = none || origin = some "" || origin = some "null"

def wantKiosk (policy : Policy) (narrow hostBar : Option Bool) (state : BridgeState) : Bool :=
  if state.kioskFrozen then state.kiosk
  else
    match policy with
    | .never => false
    | .always => true
    | .narrow => narrow = some true || hostBar = some true

/-- A message that the window receives. `probe` is what `probeHostBar` finds for the insets, and the
clock is read at `receivedAt` and, for the kiosk flag, at `flaggedAt`. -/
structure Message (σ : Type) where
  source : σ
  origin : Js
  data : Js
  probe : Option Insets → Option Bool
  receivedAt : ℤ
  flaggedAt : ℤ

inductive Event (σ : Type) where
  | start
  | configure (kiosk : Option Policy) (handleSafeArea : Option Bool)
  | dispose
  | timer
  | message (m : Message σ)

section Step

variable {σ : Type} (page : Page σ)

def Page.target : String :=
  if page.targetOrigin ≠ "" then page.targetOrigin
  else if isOpaqueOrigin page.origin then "*"
  else page.origin.getD "*"

/-- `post`, where `postMessage` does not throw. -/
def post (b : Bridge) (message : Outgoing) : Bridge :=
  if page.embedded then { b with log := b.log ++ [(message, page.target)] } else b

def postSubscribe (b : Bridge) : Bridge :=
  let b' := post page b (.subscribe b.handleSafeArea b.state.kiosk)
  if page.embedded then { b' with subscribed := true } else b'

def resubscribe (b : Bridge) : Bridge :=
  postSubscribe page (if b.subscribed then post page b .unsubscribe else b)

def setKiosk (b : Bridge) (desired : Bool) (t : ℤ) : Bridge :=
  if desired = b.state.kiosk || b.state.kioskFrozen then b
  else
    let transitions := recent freezeWindowMs t b.transitions
    if freezeLimit ≤ transitions.length then
      { b with transitions := transitions, state := { b.state with kioskFrozen := true } }
    else
      let b' := { b with
        transitions := transitions ++ [t]
        state := { b.state with kiosk := desired } }
      if desired then postSubscribe page b' else resubscribe page b'

def start (b : Bridge) : Bridge :=
  if b.started then b
  else
    let state := { initial with embedded := page.embedded }
    if page.embedded then
      let b' := postSubscribe page { b with
        started := true
        listening := true
        state := { state with kiosk := b.policy = .always } }
      { b' with timer := true, state := { b'.state with status := .waiting } }
    else { b with started := true, state := state }

/-- The callback of the timer. -/
def onTimer (b : Bridge) : Bridge :=
  if b.timer then
    let b' := { b with timer := false }
    if b.state.status = .waiting then { b' with state := { b.state with status := .noAnswer } }
    else b'
  else b

def dispose (b : Bridge) : Bridge :=
  let b' := if b.subscribed then post page b .unsubscribe else b
  { b' with
    listening := if b.started && b.state.embedded then false else b.listening
    timer := false
    subscribed := false
    started := false
    transitions := []
    state := { initial with embedded := page.embedded } }

def configure (b : Bridge) (kiosk : Option Policy) (handleSafeArea : Option Bool) : Bridge :=
  let b' := { b with
    policy := kiosk.getD b.policy
    handleSafeArea := handleSafeArea.getD b.handleSafeArea }
  if !b.started || !b.state.embedded then b'
  else
    let state := { b.state with hostBar := none, kioskFrozen := false }
    resubscribe page { b' with
      transitions := []
      state := { state with kiosk := wantKiosk b'.policy state.narrow none state } }

variable [DecidableEq σ]

/-- The parent window sent the message, from the page's own origin. -/
def Page.trusts (m : Message σ) : Bool :=
  m.source = page.parent && !isOpaqueOrigin page.origin && m.origin.string? = page.origin

/-- What `onMessage` does with a message of the right type. -/
def onProperties (b : Bridge) (m : Message σ) (narrow : Bool) : Bridge :=
  let insets := cleanInsets (m.data.prop "safeAreaInsets")
  let before := if b.state.narrow ≠ some narrow then none else b.state.hostBar
  let hostBar :=
    if narrow then none else if before ≠ some true then m.probe insets else before
  let state := { b.state with
    narrow := some narrow
    safeAreaInsets := insets
    route := cleanRoute (m.data.prop "route")
    status := .ok
    messages := b.state.messages + 1
    lastMessageAt := some m.receivedAt
    hostBar := hostBar }
  let b' := { b with timer := false, state := state }
  setKiosk page b' (wantKiosk b.policy (some narrow) hostBar state) m.flaggedAt

def onMessage (b : Bridge) (m : Message σ) : Bridge :=
  if page.trusts m && m.data.isObject &&
      (m.data.prop "type").string? = some "home-assistant/properties" then
    match (m.data.prop "narrow").bool? with
    | some narrow => onProperties page b m narrow
    | none => b
  else b

def step (b : Bridge) : Event σ → Bridge
  | .start => start page b
  | .configure kiosk handleSafeArea => configure page b kiosk handleSafeArea
  | .dispose => dispose page b
  | .timer => onTimer b
  | .message m => if b.listening then onMessage page b m else b

def create (kiosk : Option Policy) (handleSafeArea : Bool) : Bridge :=
  ⟨kiosk.getD .narrow, handleSafeArea, false, false, false, [], initial, false, []⟩

def run (b : Bridge) (events : List (Event σ)) : Bridge := events.foldl (step page) b

end Step

/-! ## The last subscription -/

/-- What a message leaves of the subscription: its kiosk mode, or nothing. -/
def answer (_ : Option Bool) : Outgoing × String → Option Bool
  | (.subscribe _ kioskMode, _) => some kioskMode
  | (.unsubscribe, _) => none

/-- The kiosk mode of the last subscription after the last `unsubscribe`. -/
def current (log : List (Outgoing × String)) : Option Bool := log.foldl answer none

section Subscription

variable {σ : Type} {page : Page σ} {b : Bridge}

theorem current_append (log : List (Outgoing × String)) (m : Outgoing × String) :
    current (log ++ [m]) = answer (current log) m := by
  simp [current]

/-- What holds of the subscription whatever the kiosk flag is. -/
structure Base (page : Page σ) (b : Bridge) : Prop where
  outside : page.embedded = false → b.subscribed = false ∧ current b.log = none
  embedded : b.state.embedded = true → page.embedded = true
  started : b.listening = true ∨ b.state.kioskFrozen = true → b.started = true
  attached : b.listening = true → b.state.embedded = true

/-- While subscribed, the last subscription says what the kiosk flag is. -/
structure Sound (page : Page σ) (b : Bridge) : Prop extends Base page b where
  last : current b.log = if b.subscribed then some b.state.kiosk else none

@[simp] theorem post_state (m : Outgoing) : (post page b m).state = b.state := by
  unfold post; split <;> rfl

@[simp] theorem post_started (m : Outgoing) : (post page b m).started = b.started := by
  unfold post; split <;> rfl

@[simp] theorem post_listening (m : Outgoing) : (post page b m).listening = b.listening := by
  unfold post; split <;> rfl

@[simp] theorem post_subscribed (m : Outgoing) : (post page b m).subscribed = b.subscribed := by
  unfold post; split <;> rfl

@[simp] theorem post_transitions (m : Outgoing) : (post page b m).transitions = b.transitions := by
  unfold post; split <;> rfl

@[simp] theorem post_handleSafeArea (m : Outgoing) :
    (post page b m).handleSafeArea = b.handleSafeArea := by
  unfold post; split <;> rfl

theorem post_log (h : page.embedded = true) (m : Outgoing) :
    (post page b m).log = b.log ++ [(m, page.target)] := by
  simp [post, h]

theorem post_outside (h : page.embedded = false) (m : Outgoing) : post page b m = b := by
  simp [post, h]

@[simp] theorem postSubscribe_state : (postSubscribe page b).state = b.state := by
  unfold postSubscribe; split <;> simp

@[simp] theorem postSubscribe_started : (postSubscribe page b).started = b.started := by
  unfold postSubscribe; split <;> simp

@[simp] theorem postSubscribe_listening : (postSubscribe page b).listening = b.listening := by
  unfold postSubscribe; split <;> simp

@[simp] theorem postSubscribe_transitions :
    (postSubscribe page b).transitions = b.transitions := by
  unfold postSubscribe; split <;> simp

@[simp] theorem resubscribe_state : (resubscribe page b).state = b.state := by
  unfold resubscribe; split <;> simp

@[simp] theorem resubscribe_started : (resubscribe page b).started = b.started := by
  unfold resubscribe; split <;> simp

@[simp] theorem resubscribe_listening : (resubscribe page b).listening = b.listening := by
  unfold resubscribe; split <;> simp

@[simp] theorem resubscribe_transitions : (resubscribe page b).transitions = b.transitions := by
  unfold resubscribe; split <;> simp

theorem Base.postSubscribe (h : Base page b) : Sound page (postSubscribe page b) := by
  cases hpage : page.embedded with
  | false =>
    have hsame : HaBridge.postSubscribe page b = b := by
      simp [HaBridge.postSubscribe, post_outside hpage, hpage]
    rw [hsame]
    obtain ⟨hsub, hcurrent⟩ := h.outside hpage
    exact ⟨h, by rw [hsub, hcurrent]; rfl⟩
  | true =>
    refine ⟨⟨fun hout => ?_, fun _ => hpage, by simpa using h.started,
      by simpa using h.attached⟩, ?_⟩
    · rw [hpage] at hout
      cases hout
    · simp [HaBridge.postSubscribe, hpage, post_log hpage, current_append, answer]

/-- A subscription is withdrawn. -/
theorem Base.unsubscribe (h : Base page b) : Base page (post page b .unsubscribe) := by
  refine ⟨fun hout => ?_, by simpa using h.embedded, by simpa using h.started,
    by simpa using h.attached⟩
  rw [post_outside hout]
  exact h.outside hout

theorem Base.resubscribe (h : Base page b) : Sound page (resubscribe page b) := by
  unfold HaBridge.resubscribe
  split
  · exact h.unsubscribe.postSubscribe
  · exact h.postSubscribe

/-- Nothing but the state changes, and it stays embedded and frozen as it was. -/
theorem Base.setState (h : Base page b) {state : BridgeState} {transitions : List ℤ}
    (hembedded : state.embedded = b.state.embedded)
    (hfrozen : state.kioskFrozen = true → b.started = true) :
    Base page { b with state := state, transitions := transitions } :=
  ⟨h.outside, fun he => h.embedded (hembedded ▸ he),
    fun hl => hl.elim (fun hl => h.started (.inl hl)) hfrozen,
    fun hl => hembedded.trans (h.attached hl)⟩

/-! ## What one event does to the flag -/

/-- What `setKiosk` can do: nothing, freeze, or change the flag and subscribe again. -/
theorem setKiosk_cases (page : Page σ) (b : Bridge) (desired : Bool) (t : ℤ) :
    setKiosk page b desired t = b ∨
      (b.state.kioskFrozen = false ∧ setKiosk page b desired t = { b with
        transitions := recent freezeWindowMs t b.transitions
        state := { b.state with kioskFrozen := true } }) ∨
      (b.state.kioskFrozen = false ∧ desired ≠ b.state.kiosk ∧
        (recent freezeWindowMs t b.transitions).length < freezeLimit ∧
        ∃ b', b' = { b with
            transitions := recent freezeWindowMs t b.transitions ++ [t]
            state := { b.state with kiosk := desired } } ∧
          (setKiosk page b desired t = postSubscribe page b' ∨
            setKiosk page b desired t = resubscribe page b')) := by
  by_cases hskip : (desired = b.state.kiosk || b.state.kioskFrozen) = true
  · exact .inl (if_pos hskip)
  · have hne : desired ≠ b.state.kiosk ∧ b.state.kioskFrozen = false := by simpa using hskip
    unfold setKiosk
    rw [if_neg hskip]
    by_cases hfull : freezeLimit ≤ (recent freezeWindowMs t b.transitions).length
    · exact .inr (.inl ⟨hne.2, if_pos hfull⟩)
    · refine .inr (.inr ⟨hne.2, hne.1, not_le.mp hfull, _, rfl, ?_⟩)
      rw [if_neg hfull]
      cases desired with
      | true => exact .inl rfl
      | false => exact .inr rfl

theorem Sound.setKiosk (h : Sound page b) (hstarted : b.started = true) {desired : Bool} {t : ℤ} :
    Sound page (setKiosk page b desired t) := by
  obtain hsame | ⟨-, hfreeze⟩ | ⟨-, -, -, b', rfl, hflip⟩ := setKiosk_cases page b desired t
  · rwa [hsame]
  · rw [hfreeze]
    exact ⟨h.toBase.setState rfl fun _ => hstarted, h.last⟩
  · have hbase : Base page { b with
        state := { b.state with kiosk := desired }
        transitions := recent freezeWindowMs t b.transitions ++ [t] } :=
      h.toBase.setState rfl fun _ => hstarted
    cases hflip with
    | inl hflip => exact hflip ▸ hbase.postSubscribe
    | inr hflip => exact hflip ▸ hbase.resubscribe

/-- A message goes to `setKiosk` with a state in which only what it carries is new, or changes
nothing. -/
theorem onMessage_cases [DecidableEq σ] (page : Page σ) (b : Bridge) (m : Message σ) :
    onMessage page b m = b ∨ page.trusts m = true ∧ ∃ state desired,
      state.embedded = b.state.embedded ∧ state.kiosk = b.state.kiosk ∧
        state.kioskFrozen = b.state.kioskFrozen ∧
        onMessage page b m =
          setKiosk page { b with timer := false, state := state } desired m.flaggedAt := by
  unfold onMessage
  split
  · rename_i htrusted
    have htrusts : page.trusts m = true := by
      simp only [Bool.and_eq_true] at htrusted
      exact htrusted.1.1
    cases (m.data.prop "narrow").bool? with
    | some narrow =>
      refine .inr ⟨htrusts, _, _, ?_, ?_, ?_, rfl⟩
      · rfl
      · rfl
      · rfl
    | none => exact .inl rfl
  · exact .inl rfl

theorem Sound.step [DecidableEq σ] (h : Sound page b) (e : Event σ) :
    Sound page (step page b e) := by
  cases e with
  | start =>
    show Sound page (start page b)
    unfold start
    split
    · exact h
    · rename_i hstarted
      cases hpage : page.embedded with
      | true =>
        have hbase : Base page { b with
            started := true
            listening := true
            state := { { initial with embedded := true } with kiosk := b.policy = .always } } :=
          ⟨fun hout => absurd (hpage.symm.trans hout) (by simp), fun _ => hpage, fun _ => rfl,
            fun _ => rfl⟩
        have hsound := hbase.postSubscribe
        exact ⟨⟨hsound.outside, fun _ => hpage, fun _ => by simp, fun _ => by simp⟩, hsound.last⟩
      | false =>
        obtain ⟨hsub, hcurrent⟩ := h.outside hpage
        refine ⟨⟨h.outside, fun he => absurd he (by simp), fun _ => rfl, fun hl => ?_⟩, ?_⟩
        · exact absurd (h.started (.inl hl)) (by simpa using hstarted)
        · simp [hsub, hcurrent]
  | configure kiosk handleSafeArea =>
    show Sound page (configure page b kiosk handleSafeArea)
    unfold configure
    split
    · exact ⟨⟨h.outside, h.embedded, h.started, h.attached⟩, h.last⟩
    · apply Base.resubscribe
      exact ⟨h.outside, h.embedded, fun hl => hl.elim (fun hl => h.started (.inl hl)) (by simp),
        h.attached⟩
  | dispose =>
    show Sound page (dispose page b)
    have hdetached : (if b.started && b.state.embedded then false else b.listening) = false := by
      cases hl : b.listening with
      | true => simp [h.started (.inl hl), h.attached hl]
      | false => simp
    have hcurrent : current (if b.subscribed then post page b .unsubscribe else b).log = none := by
      cases hsub : b.subscribed with
      | false => simpa [hsub] using h.last
      | true =>
        cases hpage : page.embedded with
        | true => simp [post_log hpage, current_append, answer]
        | false => simp [(h.outside hpage).1] at hsub
    unfold dispose
    rw [hdetached]
    exact ⟨⟨fun _ => ⟨rfl, hcurrent⟩, fun he => he, by simp [initial], by simp⟩, hcurrent⟩
  | timer =>
    show Sound page (onTimer b)
    unfold onTimer
    split
    · split
      · exact ⟨⟨h.outside, h.embedded, h.started, h.attached⟩, h.last⟩
      · exact ⟨⟨h.outside, h.embedded, h.started, h.attached⟩, h.last⟩
    · exact h
  | message m =>
    show Sound page (if b.listening then onMessage page b m else b)
    split
    · rename_i hlistening
      obtain hsame | ⟨-, state, desired, hembedded, hkiosk, hfrozen, hset⟩ :=
        onMessage_cases page b m
      · rwa [hsame]
      · rw [hset]
        have hstarted := h.started (.inl hlistening)
        have hbase : Sound page { b with timer := false, state := state } :=
          ⟨⟨h.outside, fun he => h.embedded (hembedded ▸ he), fun _ => hstarted,
            fun hl => hembedded.trans (h.attached hl)⟩, by
            show current b.log = if b.subscribed then some state.kiosk else none
            rw [hkiosk]
            exact h.last⟩
        exact hbase.setKiosk hstarted
    · exact h

end Subscription

/-! ## Runs -/

/-- The event resets neither the guard nor the bridge. -/
def Event.keeps {σ : Type} : Event σ → Bool
  | .configure _ _ | .dispose => false
  | _ => true

/-- The times at which the event reads the clock. -/
def Event.times {σ : Type} : Event σ → List ℤ
  | .message m => [m.receivedAt, m.flaggedAt]
  | _ => []

def clock {σ : Type} (events : List (Event σ)) : List ℤ := events.flatMap Event.times

section Run

variable {σ : Type} [DecidableEq σ] {page : Page σ} {b : Bridge}

/-- The time at which a message changes the kiosk flag. -/
def changes (page : Page σ) (b : Bridge) : Event σ → List ℤ
  | .message m =>
    if (step page b (.message m)).state.kiosk = b.state.kiosk then [] else [m.flaggedAt]
  | _ => []

/-- The times of the kiosk transitions of a run. -/
def transitionTimes (page : Page σ) : Bridge → List (Event σ) → List ℤ
  | _, [] => []
  | b, e :: events => changes page b e ++ transitionTimes page (step page b e) events

omit [DecidableEq σ] in
theorem create_sound (kiosk : Option Policy) (handleSafeArea : Bool) :
    Sound page (create kiosk handleSafeArea) := by
  refine ⟨⟨fun _ => ⟨rfl, rfl⟩, ?_, ?_, ?_⟩, rfl⟩
  · simp [create, initial]
  · simp [create, initial]
  · simp [create]

theorem Sound.run (h : Sound page b) (events : List (Event σ)) : Sound page (run page b events) := by
  induction events generalizing b with
  | nil => exact h
  | cons e events ih => exact ih (h.step e)

/-- What a message does to the flag, its guard and the posts. -/
inductive Flagged (page : Page σ) (b : Bridge) (m : Message σ) : Bridge → Prop
  | same (b' : Bridge) (hkiosk : b'.state.kiosk = b.state.kiosk)
      (hfrozen : b'.state.kioskFrozen = b.state.kioskFrozen)
      (htransitions : b'.transitions = b.transitions) (hlog : b'.log = b.log) : Flagged page b m b'
  | frozen (b' : Bridge) (hkiosk : b'.state.kiosk = b.state.kiosk)
      (hfrozen : b.state.kioskFrozen = false)
      (htransitions : b'.transitions = recent freezeWindowMs m.flaggedAt b.transitions)
      (hlog : b'.log = b.log) : Flagged page b m b'
  | flipped (b' : Bridge) (hkiosk : b'.state.kiosk ≠ b.state.kiosk)
      (hfrozen : b.state.kioskFrozen = false)
      (hroom : (recent freezeWindowMs m.flaggedAt b.transitions).length < freezeLimit)
      (htransitions : b'.transitions =
        recent freezeWindowMs m.flaggedAt b.transitions ++ [m.flaggedAt])
      (hlog : b'.log.length ≤ b.log.length + 2) : Flagged page b m b'

omit [DecidableEq σ] in
theorem length_post (m : Outgoing) : (post page b m).log.length ≤ b.log.length + 1 := by
  unfold post
  split
  · simp
  · exact Nat.le_succ _

omit [DecidableEq σ] in
theorem length_postSubscribe : (postSubscribe page b).log.length ≤ b.log.length + 1 := by
  unfold postSubscribe
  split
  · exact length_post _
  · exact length_post _

omit [DecidableEq σ] in
theorem length_resubscribe : (resubscribe page b).log.length ≤ b.log.length + 2 := by
  unfold resubscribe
  split
  · exact length_postSubscribe.trans (Nat.add_le_add_right (length_post _) 1)
  · exact length_postSubscribe.trans (Nat.le_succ _)

theorem message_flagged (page : Page σ) (b : Bridge) (m : Message σ) :
    Flagged page b m (step page b (.message m)) := by
  show Flagged page b m (if b.listening then onMessage page b m else b)
  split
  · obtain hsame | ⟨-, state, desired, -, hkiosk, hfrozen, hset⟩ := onMessage_cases page b m
    · rw [hsame]
      exact .same b rfl rfl rfl rfl
    · rw [hset]
      obtain hsame | ⟨hthawed, hfreeze⟩ | ⟨hthawed, hne, hroom, b', hb', hflip⟩ :=
        setKiosk_cases page { b with timer := false, state := state } desired m.flaggedAt
      · rw [hsame]
        exact .same _ hkiosk hfrozen rfl rfl
      · rw [hfreeze]
        exact .frozen _ hkiosk (hfrozen ▸ hthawed) rfl rfl
      · have hb'kiosk : b'.state.kiosk ≠ b.state.kiosk := by
          rw [hb', ← hkiosk]
          exact hne
        have hb'transitions : b'.transitions =
            recent freezeWindowMs m.flaggedAt b.transitions ++ [m.flaggedAt] := by
          rw [hb']
        have hb'log : b'.log = b.log := by
          rw [hb']
        cases hflip with
        | inl hflip =>
          rw [hflip]
          refine .flipped _ (by simpa using hb'kiosk) (hfrozen ▸ hthawed) hroom
            (by simpa using hb'transitions) ?_
          exact hb'log ▸ length_postSubscribe.trans (Nat.le_succ _)
        | inr hflip =>
          rw [hflip]
          refine .flipped _ (by simpa using hb'kiosk) (hfrozen ▸ hthawed) hroom
            (by simpa using hb'transitions) ?_
          exact hb'log ▸ length_resubscribe
  · exact .same b rfl rfl rfl rfl

/-- `start` and the timer leave the guard alone. -/
theorem step_quiet (hs : Sound page b) {e : Event σ} (hkeeps : e.keeps = true)
    (hmessage : ∀ m, e ≠ .message m) :
    changes page b e = [] ∧ (step page b e).transitions = b.transitions ∧
      (b.state.kioskFrozen = true → (step page b e).state.kioskFrozen = true) := by
  cases e with
  | start =>
    refine ⟨rfl, ?_, fun hfrozen => ?_⟩
    · show (start page b).transitions = b.transitions
      unfold start
      split
      · rfl
      · split
        · simp
        · rfl
    · show (start page b).state.kioskFrozen = true
      rw [start, if_pos (hs.started (.inr hfrozen))]
      exact hfrozen
  | configure kiosk handleSafeArea => cases hkeeps
  | dispose => cases hkeeps
  | timer =>
    have htimer : (onTimer b).transitions = b.transitions ∧
        (onTimer b).state.kioskFrozen = b.state.kioskFrozen := by
      unfold onTimer
      split
      · split
        · exact ⟨rfl, rfl⟩
        · exact ⟨rfl, rfl⟩
      · exact ⟨rfl, rfl⟩
    exact ⟨rfl, htimer.1, fun hfrozen => htimer.2.trans hfrozen⟩
  | message m => exact absurd rfl (hmessage m)

theorem step_frozen (hs : Sound page b) {e : Event σ} (hkeeps : e.keeps = true)
    (hfrozen : b.state.kioskFrozen = true) :
    changes page b e = [] ∧ (step page b e).state.kioskFrozen = true := by
  by_cases hmessage : ∃ m, e = .message m
  · obtain ⟨m, rfl⟩ := hmessage
    cases message_flagged page b m with
    | same hkiosk hsame => exact ⟨if_pos hkiosk, hsame.trans hfrozen⟩
    | frozen _ hthawed => simp [hfrozen] at hthawed
    | flipped _ hthawed => simp [hfrozen] at hthawed
  · obtain ⟨hchanges, -, hstill⟩ := step_quiet hs hkeeps fun m he => hmessage ⟨m, he⟩
    exact ⟨hchanges, hstill hfrozen⟩

/-- **Frozen.** Without `configure` and `dispose` there is no further transition. -/
theorem transitionTimes_frozen (hs : Sound page b) {events : List (Event σ)}
    (hkeeps : ∀ e ∈ events, e.keeps = true) (hfrozen : b.state.kioskFrozen = true) :
    transitionTimes page b events = [] := by
  induction events generalizing b with
  | nil => rfl
  | cons e events ih =>
    obtain ⟨hchanges, hstill⟩ := step_frozen hs (hkeeps e List.mem_cons_self) hfrozen
    rw [transitionTimes, hchanges, List.nil_append]
    exact ih (hs.step e) (fun e he => hkeeps e (List.mem_cons_of_mem _ he)) hstill

/-- The transitions so far keep to the limit, and the guard counts them. -/
structure Rated (now : ℤ) (b : Bridge) (ts : List ℤ) : Prop where
  sparse : Sparse freezeWindowMs freezeLimit ts
  covers : Covers freezeWindowMs now b.transitions ts

theorem Rated.step {now : ℤ} {ts : List ℤ} (h : Rated now b ts) (hs : Sound page b) {e : Event σ}
    (hkeeps : e.keeps = true) {later : ℤ} (hnow : ∀ t ∈ e.times, now ≤ t)
    (hlater : ∀ t ∈ e.times, t ≤ later) (hle : now ≤ later) :
    Rated later (step page b e) (ts ++ changes page b e) := by
  by_cases hmessage : ∃ m, e = .message m
  · obtain ⟨m, rfl⟩ := hmessage
    have hflagged : now ≤ m.flaggedAt := hnow _ (by simp [Event.times])
    have hbefore : m.flaggedAt ≤ later := hlater _ (by simp [Event.times])
    cases message_flagged page b m with
    | same hkiosk _ htransitions =>
      rw [changes, if_pos hkiosk, List.append_nil]
      exact ⟨h.sparse, htransitions ▸ h.covers.later hle⟩
    | frozen hkiosk _ htransitions =>
      rw [changes, if_pos hkiosk, List.append_nil]
      exact ⟨h.sparse, htransitions ▸ (h.covers.trim hflagged).later hbefore⟩
    | flipped hkiosk _ hroom htransitions =>
      rw [changes, if_neg hkiosk]
      exact ⟨h.sparse.push h.covers hflagged hroom,
        htransitions ▸ (h.covers.push hflagged).later hbefore⟩
  · obtain ⟨hchanges, htransitions, -⟩ := step_quiet hs hkeeps fun m he => hmessage ⟨m, he⟩
    rw [hchanges, List.append_nil]
    exact ⟨h.sparse, htransitions ▸ h.covers.later hle⟩

theorem Rated.run {now : ℤ} {ts : List ℤ} (h : Rated now b ts) (hs : Sound page b)
    {events : List (Event σ)} (hkeeps : ∀ e ∈ events, e.keeps = true)
    (hnow : ∀ t ∈ clock events, now ≤ t) (hclock : (clock events).Pairwise (· ≤ ·)) :
    Sparse freezeWindowMs freezeLimit (ts ++ transitionTimes page b events) := by
  induction events generalizing b now ts with
  | nil =>
    rw [transitionTimes, List.append_nil]
    exact h.sparse
  | cons e events ih =>
    rw [clock, List.flatMap_cons, List.pairwise_append] at hclock
    obtain ⟨hhead, htail, hbetween⟩ := hclock
    have hevents : ∀ e ∈ events, e.keeps = true := fun e he => hkeeps e (List.mem_cons_of_mem _ he)
    have hfirst : ∀ t ∈ e.times, now ≤ t := fun t ht => hnow t (List.mem_flatMap_of_mem (by simp) ht)
    have hrest : ∀ t ∈ clock events, now ≤ t := by
      intro t ht
      apply hnow t
      rw [clock, List.flatMap_cons]
      exact List.mem_append_right _ ht
    -- the last time that the event reads, or `now` if it reads none
    obtain ⟨later, hle, hbefore, hafter⟩ : ∃ later, now ≤ later ∧ (∀ t ∈ e.times, t ≤ later) ∧
        ∀ t ∈ clock events, later ≤ t := by
      cases e with
      | message m =>
        refine ⟨m.flaggedAt, hfirst _ (by simp [Event.times]), ?_, ?_⟩
        · intro t ht
          simp only [Event.times, List.pairwise_cons, List.mem_cons, List.not_mem_nil,
            or_false] at hhead ht
          cases ht with
          | inl h => exact h ▸ hhead.1 _ rfl
          | inr h => exact h.le
        · exact fun t ht => hbetween m.flaggedAt (by simp [Event.times]) t ht
      | start => exact ⟨now, le_rfl, by simp [Event.times], hrest⟩
      | configure kiosk handleSafeArea => exact ⟨now, le_rfl, by simp [Event.times], hrest⟩
      | dispose => exact ⟨now, le_rfl, by simp [Event.times], hrest⟩
      | timer => exact ⟨now, le_rfl, by simp [Event.times], hrest⟩
    have hstep := h.step hs (hkeeps e List.mem_cons_self) hfirst hbefore hle
    rw [transitionTimes, ← List.append_assoc]
    exact ih hstep (hs.step e) hevents hafter htail

omit [DecidableEq σ] in
theorem exists_start (events : List (Event σ)) (hclock : (clock events).Pairwise (· ≤ ·)) :
    ∃ now, ∀ t ∈ clock events, now ≤ t := by
  cases hevents : clock events with
  | nil => exact ⟨0, by simp⟩
  | cons t ts =>
    rw [hevents, List.pairwise_cons] at hclock
    refine ⟨t, fun u hu => ?_⟩
    cases List.mem_cons.mp hu with
    | inl h => exact h.ge
    | inr h => exact hclock.1 u h

/-- What holds of the bridge at a state: messages of others change nothing, the last subscription
says what the flag is, and a message posts at most twice, and only when it changes the flag. -/
structure Obeys (page : Page σ) (b : Bridge) : Prop where
  others : ∀ m, page.trusts m = false → step page b (.message m) = b
  last : b.subscribed = true → current b.log = some b.state.kiosk
  posts : ∀ m, (step page b (.message m)).log.length ≤ b.log.length + 2 ∧
    (changes page b (.message m) = [] → (step page b (.message m)).log = b.log)

theorem Sound.obeys (h : Sound page b) : Obeys page b := by
  refine ⟨fun m hm => ?_, fun hsub => ?_, fun m => ?_⟩
  · show (if b.listening then onMessage page b m else b) = b
    split
    · obtain hsame | ⟨htrusts, -⟩ := onMessage_cases page b m
      · exact hsame
      · simp [hm] at htrusts
    · rfl
  · rw [h.last, hsub]
    rfl
  · cases message_flagged page b m with
    | same _ _ _ hlog => exact ⟨hlog ▸ Nat.le_add_right _ 2, fun _ => hlog⟩
    | frozen _ _ _ hlog => exact ⟨hlog ▸ Nat.le_add_right _ 2, fun _ => hlog⟩
    | flipped hkiosk _ _ _ hlog =>
      refine ⟨hlog, fun hnone => ?_⟩
      rw [changes, if_neg hkiosk] at hnone
      cases hnone

end Run

/-- **The bridge.** After any events it obeys its host alone. From there on, without `configure` and
`dispose`, no span shorter than `freezeWindowMs` has more than `freezeLimit` transitions, and after a
freeze there is none. -/
theorem bridge_obeys_host {σ : Type} [DecidableEq σ] (page : Page σ) (kiosk : Option Policy)
    (handleSafeArea : Bool) (before events : List (Event σ))
    (hkeeps : ∀ e ∈ events, e.keeps = true) (hclock : (clock events).Pairwise (· ≤ ·)) :
    let b := run page (create kiosk handleSafeArea) before
    Obeys page b ∧
      Sparse freezeWindowMs freezeLimit (transitionTimes page b events) ∧
      (b.state.kioskFrozen = true → transitionTimes page b events = []) := by
  intro b
  have hs : Sound page b := (create_sound kiosk handleSafeArea).run before
  obtain ⟨now, hnow⟩ := exists_start events hclock
  have hrated : Rated now b [] := ⟨sparse_nil, covers_nil⟩
  exact ⟨hs.obeys, hrated.run hs hkeeps hnow hclock, transitionTimes_frozen hs hkeeps⟩

/-! ## A page in a frame -/

/-- A page whose parent is window 0. -/
def framed : Page ℕ := ⟨true, 0, some "https://ha.local", ""⟩

/-- The parent sends its properties at a time. -/
def properties (narrow : Bool) (t : ℤ) : Event ℕ :=
  .message ⟨0, .str "https://ha.local", .object
    [("type", .str "home-assistant/properties"), ("narrow", .bool narrow)], fun _ => none, t, t⟩

theorem bridge_obeys_host_framed :
    let b := run framed (create none false) [.start]
    Obeys framed b ∧
      Sparse freezeWindowMs freezeLimit (transitionTimes framed b [properties true 5]) ∧
      (b.state.kioskFrozen = true → transitionTimes framed b [properties true 5] = []) :=
  bridge_obeys_host framed none false [.start] [properties true 5] (by simp [properties, Event.keeps])
    (by simp [clock, properties, Event.times])

/-- With a `dispose` in between there are five transitions at one time, and no `configure`. -/
theorem transitions_dispose :
    transitionTimes framed (create none false)
      [.start, properties true 0, properties false 0, properties true 0, properties false 0,
        .dispose, .start, properties true 0] = [0, 0, 0, 0, 0] ∧
    ¬ Sparse freezeWindowMs freezeLimit [0, 0, 0, 0, 0] := by
  refine ⟨by decide +kernel, fun h => ?_⟩
  have hspan := h 0 0 (by decide)
  revert hspan
  decide

end HaAddons.AdminUi.HaBridge

