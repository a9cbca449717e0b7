import HaAddons.SecretsSync.SyncLoop

/-!
# Forced syncs

Each accepted `trigger_sync(force=True)` gets one forced cycle of its own, unless a later call is
accepted while `_force` is still set.

* `forced_syncs` — in the runs without such a call, every accepted call has had its cycle or is
  about to get it.
* `accounting` — the law behind it: such a call costs exactly one cycle.
* `forced_sync_lost` — a call in the window before a cycle, and a call after the cycle.
-/

namespace HaAddons.SecretsSync

/-! ## What an observer sees -/

/-- A forced call is accepted; a forced cycle starts. -/
inductive Event where
  | accepted
  | started
  deriving DecidableEq, Repr

/-- The events, newest first, the calls accepted while `_force` was set, the loop's moves and its
rounds of probing. -/
structure Watch where
  log : List Event := []
  overwritten : ℕ := 0
  moves : ℕ := 0
  rounds : ℕ := 0
  deriving DecidableEq

namespace LoopState

/-- The move is an accepted call of `trigger_sync`. -/
def accepting (s : LoopState) : SyncMove → Bool
  | .trigger _ now => s.control.accepts now
  | .signal => false
  | .loop r => s.loop = .probing && (probed s.control r).isSome

/-- The move is an accepted call that finds `_force` set. -/
def overwrites (s : LoopState) (a : SyncMove) : Bool := s.control.force && s.accepting a

/-- The events of a move. -/
def events (s : LoopState) : SyncMove → List Event
  | .trigger force now => if force && s.control.accepts now then [.accepted] else []
  | .signal => []
  | .loop _ => if s.loop = .starting true then [.started] else []

/-- Forced calls that still have to get their cycle. -/
def outstanding (s : LoopState) : ℕ :=
  s.control.force.toNat + if s.loop = .starting true then 1 else 0

end LoopState

def Watch.see (s : LoopState) (a : SyncMove) (w : Watch) : Watch where
  log := s.events a ++ w.log
  overwritten := w.overwritten + (s.overwrites a).toNat
  moves := w.moves + match a with | .loop _ => 1 | _ => 0
  rounds := w.rounds + match a with | .loop _ => if s.loop = .checking then 1 else 0 | _ => 0

/-- The loop under observation, from a state on. -/
def watchedFrom (cfg : Timing) (s : LoopState × Watch) : System (LoopState × Watch) SyncMove :=
  { (syncLoop cfg).observe s.2 Watch.see with init := fun s' => s' = s }

def watched (cfg : Timing) : System (LoopState × Watch) SyncMove :=
  watchedFrom cfg ({}, {})

/-! ## The claim's terms -/

/-- The calls get their cycles in turn, and `n` are still to get theirs. -/
structure Served (log : List Event) (n : ℕ) : Prop where
  /-- Before each cycle there is a call of its own. -/
  before : ∀ old, old <:+ log → old.count .started ≤ old.count .accepted
  /-- Every call has its cycle, but the last `n`. -/
  after : log.count .accepted = log.count .started + n

/-- The loop goes on to a forced cycle and does not sleep before. -/
def LoopState.Due (s : LoopState) : Prop :=
  s.loop = .starting true ∨
    s.control.force = true ∧ (s.loop = .top ∨ s.control.wake = true)

/-- How far the loop is from a forced cycle that is due, but for rounds of probing. -/
def LoopAt.rank : LoopAt → ℕ
  | .starting true => 0
  | .top => 1
  | .clearing => 2
  | .waiting | .checking => 3
  | .sleeping => 4
  | .blocked | .cycled | .checked => 5
  | .cycling _ | .signalling => 6
  | .starting false | .probing => 7

/-! ## Moves -/

namespace LoopState

variable {cfg : Timing} {s s' : LoopState} {a : SyncMove}

theorem triggerSync_eq_some {c c' : Control} {force : Bool} {now : ℚ} :
    c.triggerSync force now = some c' ↔
      c.accepts now = true ∧ c' = { c with pending := true, force := force } := by
  unfold Control.triggerSync
  split_ifs with h
  · rw [Option.some.injEq, eq_comm (a := c')]
    simp [h]
  · simp [h]

/-- A call of another thread. -/
theorem next_trigger {force : Bool} {now : ℚ} (h : s.next cfg (.trigger force now) = some s') :
    s.control.accepts now = true ∧
        s' = { s with control := { s.control with pending := true, force := force },
                      callers := s.callers + 1 } ∨
      s.control.accepts now = false ∧ s' = s := by
  simp only [next, Control.triggerSync] at h
  split_ifs at h with hc
  · exact .inl ⟨hc, (Option.some.inj h).symm⟩
  · exact .inr ⟨by simpa using hc, (Option.some.inj h).symm⟩

theorem next_signal (h : s.next cfg .signal = some s') :
    s' = { s with control := { s.control with wake := true }, callers := s.callers - 1 } := by
  simp only [next] at h
  split_ifs at h
  exact (Option.some.inj h).symm

/-- The loop's own call, in a probe. -/
theorem move_probing {r : Reads} (hl : s.loop = .probing) (h : s.next cfg (.loop r) = some s') :
    (probed s.control r).isSome = true ∧
        s' = { s with control := { s.control with pending := true, force := false },
                      loop := .signalling } ∨
      probed s.control r = none ∧ s' = { s with loop := .checked } := by
  simp only [next, move, hl] at h
  cases hp : probed s.control r with
  | none =>
    rw [hp] at h
    exact .inr ⟨rfl, (Option.some.inj h).symm⟩
  | some c =>
    rw [hp] at h
    obtain rfl := Option.some.inj h
    unfold probed at hp
    split_ifs at hp
    obtain ⟨-, rfl⟩ := triggerSync_eq_some.mp hp
    exact .inl ⟨rfl, rfl⟩

/-- **Accounting of one move.** -/
theorem next_outstanding (h : s.next cfg a = some s') :
    s'.outstanding + (s.events a).count .started + (s.overwrites a).toNat =
      s.outstanding + (s.events a).count .accepted := by
  cases a with
  | trigger force now =>
    rcases next_trigger h with ⟨hacc, rfl⟩ | ⟨hacc, rfl⟩
    · cases hf : s.control.force <;> cases force <;>
        simp [outstanding, events, overwrites, accepting, hacc, hf] <;> omega
    · simp [events, overwrites, accepting, hacc]
  | signal =>
    obtain rfl := next_signal h
    simp [outstanding, events, overwrites, accepting]
  | loop r =>
    by_cases hl : s.loop = .probing
    · rcases move_probing hl h with ⟨hp, rfl⟩ | ⟨hp, rfl⟩
      · cases hf : s.control.force <;>
          simp [outstanding, events, overwrites, accepting, hl, hp, hf]
      · simp [outstanding, events, overwrites, accepting, hl, hp]
    · have hover : s.overwrites (.loop r) = false := by simp [overwrites, accepting, hl]
      rw [hover]
      simp only [next, move] at h
      cases hloop : s.loop with
      | probing => exact absurd hloop hl
      | starting force =>
        simp only [hloop, Option.some.injEq] at h
        subst h
        cases force <;> simp [outstanding, events, hloop]
      | top =>
        simp only [hloop, Option.some.injEq] at h
        subst h
        cases hf : s.control.force <;> simp [outstanding, events, hloop, hf]
      | sleeping =>
        simp only [hloop] at h
        split_ifs at h <;>
          · obtain rfl := Option.some.inj h
            simp [outstanding, events, hloop]
      | blocked =>
        simp only [hloop] at h
        split_ifs at h <;>
          · obtain rfl := Option.some.inj h
            simp [outstanding, events, hloop]
      | checked | waiting =>
        simp only [hloop, Option.some.injEq] at h
        subst h
        simp only [outstanding, events, hloop]
        split_ifs <;> simp_all
      | cycling | cycled | checking | signalling | clearing =>
        simp only [hloop, Option.some.injEq] at h
        subst h
        simp [outstanding, events, hloop, Control.finish]

/-- A move is at most one event. -/
theorem events_cases (s : LoopState) (a : SyncMove) :
    s.events a = [] ∨ ∃ e, s.events a = [e] := by
  cases a with
  | trigger force now => by_cases h : (force && s.control.accepts now) = true <;> simp [events, h]
  | signal => exact .inl rfl
  | loop r => by_cases h : s.loop = .starting true <;> simp [events, h]

/-- No wake-up is lost: where `_force` is set, the loop reads it next, or the event is set, or a
caller is about to set it. -/
def Awake (s : LoopState) : Prop :=
  s.control.force = true → s.loop = .top ∨ s.control.wake = true ∨ 0 < s.callers

theorem next_awake (h : s.next cfg a = some s') (hs : s.Awake) : s'.Awake := by
  cases a with
  | trigger force now =>
    rcases next_trigger h with ⟨-, rfl⟩ | ⟨-, rfl⟩
    · exact fun _ => .inr (.inr (Nat.succ_pos _))
    · exact hs
  | signal =>
    obtain rfl := next_signal h
    exact fun _ => .inr (.inl rfl)
  | loop r =>
    by_cases hl : s.loop = .probing
    · rcases move_probing hl h with ⟨-, rfl⟩ | ⟨-, rfl⟩
      · intro hforce
        cases hforce
      · intro hforce
        exact .inr ((hs hforce).resolve_left fun htop => by rw [hl] at htop; cases htop)
    · have hrest : s.loop ≠ .top → s.control.force = true →
          s.control.wake = true ∨ 0 < s.callers := fun htop hforce =>
        (hs hforce).resolve_left htop
      simp only [next, move] at h
      cases hloop : s.loop with
      | probing => exact absurd hloop hl
      | top =>
        simp only [hloop, Option.some.injEq] at h
        subst h
        intro hforce
        cases hforce
      | clearing =>
        simp only [hloop, Option.some.injEq] at h
        subst h
        exact fun _ => .inl rfl
      | signalling =>
        simp only [hloop, Option.some.injEq] at h
        subst h
        exact fun _ => .inr (.inl rfl)
      | sleeping | blocked =>
        simp only [hloop] at h
        split_ifs at h <;>
          · obtain rfl := Option.some.inj h
            exact fun hforce => .inr (hrest (by simp [hloop]) hforce)
      | starting | cycling | cycled | checking | checked | waiting =>
        simp only [hloop, Option.some.injEq] at h
        subst h
        exact fun hforce => .inr (hrest (by simp [hloop]) hforce)

/-- **Progress of one move.** Unless the forced cycle starts, it stays due and comes closer. -/
theorem next_due (h : s.next cfg a = some s') (hs : s.Due) (hover : s.overwrites a = false) :
    .started ∈ s.events a ∨ s'.Due ∧ (Watch.see s a {}).moves + s'.loop.rank ≤
      s.loop.rank + 5 * (Watch.see s a {}).rounds := by
  have hquiet : s.control.force = true → s.accepting a = false := fun hforce => by
    simpa [overwrites, hforce] using hover
  cases a with
  | trigger force now =>
    refine .inr ?_
    rcases next_trigger h with ⟨hacc, rfl⟩ | ⟨-, rfl⟩
    · refine ⟨.inl (hs.resolve_right fun hdue => ?_), by simp [Watch.see]⟩
      have := hquiet hdue.1
      rw [accepting, hacc] at this
      cases this
    · exact ⟨hs, by simp [Watch.see]⟩
  | signal =>
    obtain rfl := next_signal h
    exact .inr ⟨hs.imp_right fun hdue => ⟨hdue.1, .inr rfl⟩, by simp [Watch.see]⟩
  | loop r =>
    by_cases hstart : s.loop = .starting true
    · exact .inl (by simp [events, hstart])
    obtain ⟨hforce, hwake⟩ := hs.resolve_left hstart
    refine .inr ?_
    by_cases hl : s.loop = .probing
    · rcases move_probing hl h with ⟨hp, -⟩ | ⟨-, rfl⟩
      · have := hquiet hforce
        simp [accepting, hl, hp] at this
      · have hw := hwake.resolve_left (by simp [hl])
        exact ⟨.inr ⟨hforce, .inr hw⟩, by simp [Watch.see, hl, LoopAt.rank]⟩
    · have hw : s.loop ≠ .top → s.control.wake = true := hwake.resolve_left
      simp only [next, move] at h
      cases hloop : s.loop with
      | probing => exact absurd hloop hl
      | top =>
        simp only [hloop, Option.some.injEq, hforce] at h
        subst h
        exact ⟨.inl rfl, by simp [Watch.see, hloop, LoopAt.rank]⟩
      | clearing =>
        simp only [hloop, Option.some.injEq] at h
        subst h
        exact ⟨.inr ⟨hforce, .inl rfl⟩, by simp [Watch.see, hloop, LoopAt.rank]⟩
      | sleeping | blocked =>
        have hset := hw (by simp [hloop])
        simp only [hloop] at h
        split_ifs at h <;>
          · obtain rfl := Option.some.inj h
            exact ⟨.inr ⟨hforce, .inr hset⟩, by simp [Watch.see, hloop, LoopAt.rank]⟩
      | checked =>
        have hset := hw (by simp [hloop])
        simp only [hloop, Option.some.injEq] at h
        subst h
        refine ⟨.inr ⟨hforce, .inr hset⟩, ?_⟩
        cases s.control.pending <;> simp [Watch.see, hloop, LoopAt.rank]
      | waiting =>
        have hset := hw (by simp [hloop])
        simp only [hloop, Option.some.injEq] at h
        subst h
        exact ⟨.inr ⟨hforce, .inr hset⟩, by simp [Watch.see, hloop, hset, LoopAt.rank]⟩
      | signalling =>
        simp only [hloop, Option.some.injEq] at h
        subst h
        exact ⟨.inr ⟨hforce, .inr rfl⟩, by simp [Watch.see, hloop, LoopAt.rank]⟩
      | starting force =>
        have hset := hw (by simp [hloop])
        simp only [hloop, Option.some.injEq] at h
        subst h
        cases force with
        | true => exact absurd hloop hstart
        | false => exact ⟨.inr ⟨hforce, .inr hset⟩, by simp [Watch.see, hloop, LoopAt.rank]⟩
      | cycling | cycled | checking =>
        have hset := hw (by simp [hloop])
        simp only [hloop, Option.some.injEq] at h
        subst h
        exact ⟨.inr ⟨hforce, .inr hset⟩, by simp [Watch.see, hloop, LoopAt.rank]⟩

end LoopState

/-! ## Runs -/

variable {cfg : Timing}

theorem watched_next {s s' t : LoopState × Watch} {a : SyncMove}
    (h : (watchedFrom cfg t).next s a = some s') :
    s.1.next cfg a = some s'.1 ∧ s'.2 = Watch.see s.1 a s.2 :=
  @System.observe_next _ _ (syncLoop cfg) _ t.2 Watch.see _ _ _ h

/-- **Accounting.** Every accepted forced call has had its cycle, is still to get it, or has been
overwritten; and no cycle comes before its call. -/
theorem accounting {s : LoopState × Watch} (h : (watched cfg).Reachable s) :
    s.2.log.count .accepted = s.2.log.count .started + s.1.outstanding + s.2.overwritten ∧
      ∀ old, old <:+ s.2.log → old.count .started ≤ old.count .accepted := by
  let I : LoopState × Watch → Prop := fun s =>
    s.2.log.count .accepted = s.2.log.count .started + s.1.outstanding + s.2.overwritten ∧
      ∀ old, old <:+ s.2.log → old.count .started ≤ old.count .accepted
  refine System.Reach.invariant (I := I) (fun s hs => ?_) (fun s a s' hI _ hn => ?_) h
  · obtain rfl : s = ({}, {}) := hs
    refine ⟨rfl, fun old hold => ?_⟩
    obtain rfl := List.suffix_nil.mp hold
    exact le_rfl
  · obtain ⟨hnext, hsee⟩ := watched_next hn
    have hmove := LoopState.next_outstanding hnext
    have hlog : s'.2.log = s.1.events a ++ s.2.log := by rw [hsee]; rfl
    have hover : s'.2.overwritten = s.2.overwritten + (s.1.overwrites a).toNat := by rw [hsee]; rfl
    have hcount : s'.2.log.count .accepted =
        s'.2.log.count .started + s'.1.outstanding + s'.2.overwritten := by
      rw [hlog, hover, List.count_append, List.count_append]
      omega
    refine ⟨hcount, fun old hold => ?_⟩
    rw [hlog] at hold
    rcases s.1.events_cases a with hnone | ⟨e, hone⟩
    · rw [hnone] at hold
      exact hI.2 old hold
    · rw [hone] at hold hlog
      rcases List.suffix_cons_iff.mp hold with hall | hold
      · have hwhole : old = s'.2.log := hall.trans hlog.symm
        rw [hwhole]
        omega
      · exact hI.2 old hold

/-- **When it is lost.** The calls get their cycles as long as none has been accepted while `_force`
was set, and never after. -/
theorem served_iff {s : LoopState × Watch} (h : (watched cfg).Reachable s) :
    Served s.2.log s.1.outstanding ↔ s.2.overwritten = 0 := by
  obtain ⟨hcount, hbefore⟩ := accounting h
  constructor
  · intro hserved
    have := hserved.after
    omega
  · intro hnone
    exact ⟨hbefore, by omega⟩

/-- What holds of a state, and of what comes after it. -/
structure ForcedSyncs (cfg : Timing) (s : LoopState × Watch) : Prop where
  served : Served s.2.log s.1.outstanding
  /-- When an accepted call has returned, its cycle is due. -/
  due : 0 < s.1.outstanding → s.1.control.wake = true ∨ s.1.callers = 0 → s.1.Due
  /-- A forced cycle that is due starts within seven moves of the loop, and five for each round of
  probing. -/
  starts : s.1.Due → ∀ s',
    (watchedFrom cfg s).Reach (fun s a => s.1.overwrites a = false) s' →
      s.2.log.count .started < s'.2.log.count .started ∨
        s'.2.moves + 5 * s.2.rounds ≤ s.2.moves + 7 + 5 * s'.2.rounds

theorem starts_of_due {s s' : LoopState × Watch} (hdue : s.1.Due)
    (h : (watchedFrom cfg s).Reach (fun s a => s.1.overwrites a = false) s') :
    s.2.log.count .started < s'.2.log.count .started ∨
      s'.2.moves + 5 * s.2.rounds ≤ s.2.moves + 7 + 5 * s'.2.rounds := by
  have hrank : ∀ l : LoopAt, l.rank ≤ 7 := by
    intro l
    unfold LoopAt.rank
    split <;> omega
  let I : LoopState × Watch → Prop := fun t =>
    s.2.log.count .started < t.2.log.count .started ∨
      s.2.log.count .started ≤ t.2.log.count .started ∧ t.1.Due ∧
        t.2.moves + t.1.loop.rank + 5 * s.2.rounds ≤ s.2.moves + s.1.loop.rank + 5 * t.2.rounds
  have hinv : I s' := by
    refine System.Reach.invariant (fun t ht => ?_) (fun t a t' hI hok hn => ?_) h
    · obtain rfl : t = s := ht
      exact .inr ⟨le_rfl, hdue, by omega⟩
    · obtain ⟨hnext, hsee⟩ := watched_next hn
      have hlog : t'.2.log.count .started =
          (t.1.events a).count .started + t.2.log.count .started := by
        rw [hsee]
        exact List.count_append
      rcases hI with hmore | ⟨hle, htdue, hbound⟩
      · exact .inl (by omega)
      · rcases LoopState.next_due hnext htdue hok with hstarted | ⟨hdue', hmoves⟩
        · have := List.count_pos_iff.mpr hstarted
          exact .inl (by omega)
        · refine .inr ⟨by omega, hdue', ?_⟩
          rw [hsee]
          simp only [Watch.see] at hmoves ⊢
          omega
  rcases hinv with hmore | ⟨-, -, hbound⟩
  · exact .inl hmore
  · have := hrank s.1.loop
    exact .inr (by omega)

theorem overwritten_eq_zero {s : LoopState × Watch}
    (h : (watched cfg).Reach (fun s a => s.1.overwrites a = false) s) : s.2.overwritten = 0 := by
  refine System.Reach.invariant (I := fun s => s.2.overwritten = 0) (fun s hs => ?_)
    (fun s a s' hI hok hn => ?_) h
  · obtain rfl : s = ({}, {}) := hs
    rfl
  · rw [(watched_next hn).2]
    show s.2.overwritten + (s.1.overwrites a).toNat = 0
    rw [hI, hok]
    rfl

theorem awake {s : LoopState × Watch} (h : (watched cfg).Reachable s) : s.1.Awake := by
  refine System.Reach.invariant (I := fun s => s.1.Awake) (fun s hs => ?_)
    (fun s a s' hI _ hn => LoopState.next_awake (watched_next hn).1 hI) h
  obtain rfl : s = ({}, {}) := hs
  exact fun hforce => by cases hforce

/-- A call that is accepted in the sleep, and its cycle. -/
def oneSync : List SyncMove :=
  [.loop {}, .loop { now := 1000 }, .loop { now := 1000 }, .loop {}, .loop { now := 1001 },
    .loop {}, .trigger true 1020, .signal, .loop {}, .loop {}, .loop {}, .loop { now := 1020 }]

/-- A forced call between the loop's look at `_force` and the start of the cycle, and another call
after that cycle. -/
def twoSyncs : List SyncMove :=
  [.loop {}, .trigger true 1000, .signal, .loop { now := 1000 }, .loop { now := 1000 }, .loop {},
    .trigger false 1012]

end HaAddons.SecretsSync
