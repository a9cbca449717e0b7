import HaAddons.SecretsSync.Health
import Mathlib.Tactic.Linarith

/-!
# The health endpoint does not go stale

Where the answer is 200, a cycle with status `ok` should have begun not longer ago than twice the
interval, a heartbeat and the longest cycle.

* `answers_fresh` — the runs in which no write fails while the file is green, the clock is not set
  back, and a green file of an earlier run is not asked for.
* `frozen_green` — writes fail from some time on, and the answer stays 200.
-/

namespace HaAddons.SecretsSync

/-! ## What a green file says -/

theorem lt_of_truncated {x : ℚ} {n : ℕ} (h : truncated x ≤ n) : x < n + 1 := by
  have hn : (0 : ℚ) ≤ n := Nat.cast_nonneg n
  unfold truncated at h
  split_ifs at h with hneg
  · linarith
  · have hfloor : x.floor < (n : ℤ) + 1 := Int.lt_add_one_of_le h
    have hx := Rat.floor_lt_iff.mp hfloor
    push_cast at hx
    exact hx

/-- A state that would be answered with 200: its status is `ok`, and its age is within bounds. -/
theorem green_render {st : StateStore} {interval : ℕ} {now : ℚ}
    (h : health (some (st.render interval now)) = 200) :
    st.status = .ok ∧ ∀ last, st.lastSuccessAt = some last → now - last < 2 * interval + 1 := by
  have hok : (st.render interval now).status = .ok ∧ (!(st.render interval now).isStale) = true := by
    by_contra hok
    cases (if_neg hok).symm.trans h
  obtain ⟨hstatus, hfresh⟩ := hok
  refine ⟨hstatus, fun last hlast => ?_⟩
  have hstale : (st.render interval now).stale = false := by
    unfold Saved.isStale at hfresh
    simp only [Bool.not_or, Bool.and_eq_true, Bool.not_eq_true'] at hfresh
    exact hfresh.1
  unfold StateStore.render at hstale
  simp only [hlast, Option.map_some, Option.elim_some, decide_eq_false_iff_not, not_lt] at hstale
  have hage : truncated (now - last) ≤ ((2 * interval : ℕ) : ℤ) := by
    exact_mod_cast hstale
  have hlt := lt_of_truncated hage
  push_cast at hlt
  exact hlt

/-! ## The runs -/

namespace Watched

/-- A save succeeds or the file is not green, the clock is not set back, and a green file of an
earlier run is not asked for. -/
def Honest (s : Watched) : HealthMove → Prop
  | .begin i saves => s.ahead ≤ i.clock - i.time ∧ (saves = true ∨ health s.file ≠ 200)
  | .loop i m => s.ahead ≤ i.clock - i.time ∧
      (savesAt s.sync.loop m = true → m.saves = true ∨ health s.file ≠ 200)
  | .trigger _ i => s.ahead ≤ i.clock - i.time
  | .signal => True
  | .request _ => s.begun = true ∨ health s.file ≠ 200

instance (s : Watched) (move : HealthMove) : Decidable (s.Honest move) :=
  match move with
  | .begin _ _ => inferInstanceAs (Decidable (_ ∧ _))
  | .loop _ _ => inferInstanceAs (Decidable (_ ∧ _))
  | .trigger _ _ => inferInstanceAs (Decidable (_ ≤ _))
  | .signal => inferInstanceAs (Decidable True)
  | .request _ => inferInstanceAs (Decidable (_ ∨ _))

/-- How long after the beginning of the last cycle with status `ok` the loop has moved on, where it
stands at `loop` and the file is green. -/
def allowance (cfg : HealthConfig) : LoopAt → ℚ
  | .top | .cycled | .sleeping | .clearing => 2 * cfg.interval + heartbeat
  | .starting _ | .cycling _ => 2 * cfg.interval + heartbeat + cfg.longest
  | .waiting => cfg.interval
  | .blocked => cfg.interval + heartbeat
  | .checking | .probing | .signalling | .checked => cfg.interval + cfg.longest

/-- The bound of the health endpoint. -/
def bound (cfg : HealthConfig) : ℚ := 2 * cfg.interval + heartbeat + cfg.longest

theorem allowance_le (cfg : HealthConfig) (loop : LoopAt) : allowance cfg loop ≤ bound cfg := by
  have hlongest := cfg.longest_nonneg
  have hinterval : (0 : ℚ) ≤ cfg.interval := Nat.cast_nonneg _
  cases loop <;> simp only [allowance, bound, heartbeat] <;> linarith

/-- The last cycle had status `ok`: it has set the schedule, and the clock has not been set back
since. -/
structure Since (cfg : HealthConfig) (s : Watched) (since last : ℚ) : Prop where
  okSince : s.okSince = some since
  lastSuccess : s.store.lastSuccessAt = some last
  ahead : last - since ≤ s.ahead
  nextAt : s.sync.control.nextAt = last + cfg.interval

/-- An answer of 200 was fresh. -/
def Fresh (cfg : HealthConfig) (a : Answer) : Prop :=
  a.code = 200 → ∃ since, a.okSince = some since ∧ a.time - bound cfg ≤ since

structure Inv (cfg : HealthConfig) (s : Watched) : Prop where
  unbegun : s.begun = false → s.store.status = .starting
  cycling : ∀ force, s.sync.loop = .cycling force → s.cycleNow - s.cycleSince ≤ s.ahead
  status : s.store.status = .ok → ∃ since last, Since cfg s since last
  green : s.begun = true → health s.file = 200 → s.store.status = .ok ∧
    ∀ since, s.okSince = some since → s.due ≤ since + allowance cfg s.sync.loop
  answers : ∀ a ∈ s.answers, Fresh cfg a

variable {cfg : HealthConfig} {s t : Watched}

/-! ## Moves of the loop -/

/-- Only the end of a cycle changes the schedule. -/
theorem move_nextAt {c : LoopState} {r : Reads} {c' : LoopState}
    (h : c.move cfg.timing r = some c') (hloop : ∀ force, c.loop ≠ .cycling force) :
    c'.control.nextAt = c.control.nextAt := by
  unfold LoopState.move at h
  cases hc : c.loop <;> rw [hc] at h
  case cycling force => exact absurd hc (hloop force)
  case probing =>
    dsimp only at h
    split at h
    · rename_i c₁ hprobed
      obtain rfl := Option.some.inj h
      unfold LoopState.probed Control.triggerSync at hprobed
      split_ifs at hprobed
      obtain rfl := Option.some.inj hprobed
      rfl
    · obtain rfl := Option.some.inj h
      rfl
  all_goals
    dsimp only at h
    try split_ifs at h
    all_goals (obtain rfl := Option.some.inj h; rfl)

theorem move_cycling {c : LoopState} {r : Reads} {c' : LoopState} {force : Bool}
    (h : c.move cfg.timing r = some c') (hloop : c.loop = .cycling force) :
    c'.loop = .cycled ∧ (r.ok = true → c'.control.nextAt = r.now + cfg.interval) := by
  unfold LoopState.move at h
  rw [hloop] at h
  obtain rfl := Option.some.inj h
  refine ⟨rfl, fun hok => ?_⟩
  unfold Control.finish
  simp [hok, HealthConfig.timing]

theorem reading_of_not_cycling {i : Instant} {m : Meets}
    (hloop : ∀ force, s.sync.loop ≠ .cycling force) : s.reading i m = i.clock := by
  unfold reading
  cases hc : s.sync.loop with
  | cycling force => exact absurd hc (hloop force)
  | _ => rfl

theorem note_of_not_cycling {i : Instant} {m : Meets}
    (hloop : ∀ force, s.sync.loop ≠ .cycling force) :
    (s.note i m).store = s.store ∧ (s.note i m).okSince = s.okSince := by
  unfold note
  cases hc : s.sync.loop with
  | cycling force => exact absurd hc (hloop force)
  | _ => exact ⟨rfl, rfl⟩

theorem timeout_le (cfg : HealthConfig) (s : Watched) : s.timeout cfg ≤ heartbeat := min_le_right _ _

/-- Where the loop stands in time for a green file, it moves on in time. -/
theorem move_allowed {i : Instant} {m : Meets} {c' : LoopState} {since : ℚ}
    (h : s.sync.move cfg.timing ⟨i.clock, m.ending = .ok, m.changed, m.timedOut⟩ = some c')
    (hloop : ∀ force, s.sync.loop ≠ .cycling force) (hdue : i.time ≤ s.due)
    (hbound : savesAt s.sync.loop m = false → s.due ≤ since + allowance cfg s.sync.loop)
    (hfresh : savesAt s.sync.loop m = true → i.time ≤ since + (2 * cfg.interval + heartbeat))
    (hidle : i.clock < s.sync.control.nextAt → i.time ≤ since + cfg.interval) :
    s.dueAt cfg i.time c'.loop ≤ since + allowance cfg c'.loop := by
  have hlongest := cfg.longest_nonneg
  have hinterval : (0 : ℚ) ≤ cfg.interval := Nat.cast_nonneg _
  have htimeout := timeout_le cfg s
  have hheartbeat : heartbeat = 30 := rfl
  unfold LoopState.move at h
  cases hc : s.sync.loop with
  | cycling force => exact absurd hc (hloop force)
  | top =>
    rw [hc] at h hbound
    obtain rfl := Option.some.inj h
    have hbound := hbound rfl
    simp only [dueAt, allowance] at hbound ⊢
    linarith
  | starting force =>
    rw [hc] at h hbound
    obtain rfl := Option.some.inj h
    exact hbound rfl
  | cycled =>
    rw [hc] at h hbound
    obtain rfl := Option.some.inj h
    exact hdue.trans (hbound rfl)
  | sleeping =>
    rw [hc] at h hbound
    dsimp only at h
    split_ifs at h with hnext hprobe
    · obtain rfl := Option.some.inj h
      exact hdue.trans (hbound rfl)
    · obtain rfl := Option.some.inj h
      have hidle := hidle (not_le.mp hnext)
      simp only [dueAt, allowance]
      linarith
    · obtain rfl := Option.some.inj h
      exact hidle (not_le.mp hnext)
  | checking =>
    rw [hc] at h hbound
    obtain rfl := Option.some.inj h
    exact hbound rfl
  | probing =>
    rw [hc] at h hbound
    dsimp only at h
    split at h
    · obtain rfl := Option.some.inj h
      exact hbound rfl
    · obtain rfl := Option.some.inj h
      exact hbound rfl
  | signalling =>
    rw [hc] at h hbound
    obtain rfl := Option.some.inj h
    exact hbound rfl
  | checked =>
    rw [hc] at h hfresh
    obtain rfl := Option.some.inj h
    have hfresh := hfresh rfl
    show s.dueAt cfg i.time (if s.sync.control.pending = true then .clearing else .sleeping) ≤
      since + allowance cfg (if s.sync.control.pending = true then .clearing else .sleeping)
    split_ifs
    · exact hfresh
    · exact hfresh
  | waiting =>
    rw [hc] at h hbound
    obtain rfl := Option.some.inj h
    have hbound := hbound rfl
    show s.dueAt cfg i.time (if s.sync.control.wake = true then .clearing else .blocked) ≤
      since + allowance cfg (if s.sync.control.wake = true then .clearing else .blocked)
    simp only [allowance] at hbound
    split_ifs
    · simp only [dueAt, allowance]
      linarith
    · simp only [dueAt, allowance]
      linarith
  | blocked =>
    rw [hc] at h hbound hfresh
    dsimp only at h
    split_ifs at h with hout hwake
    · obtain rfl := Option.some.inj h
      exact hfresh hout
    · obtain rfl := Option.some.inj h
      have hbound := hbound ((Bool.not_eq_true _).mp hout)
      simp only [dueAt, allowance] at hbound ⊢
      linarith
  | clearing =>
    rw [hc] at h hbound
    obtain rfl := Option.some.inj h
    exact hdue.trans (hbound rfl)

theorem cycling_of_move {c : LoopState} {r : Reads} {c' : LoopState} {force : Bool}
    (h : c.move cfg.timing r = some c') (hloop : c'.loop = .cycling force) :
    c.loop = .starting force := by
  unfold LoopState.move at h
  cases hc : c.loop <;> rw [hc] at h
  case starting force' =>
    obtain rfl := Option.some.inj h
    rw [LoopAt.cycling.inj hloop]
  case probing =>
    dsimp only at h
    split at h
    all_goals (obtain rfl := Option.some.inj h; cases hloop)
  case checked =>
    obtain rfl := Option.some.inj h
    dsimp only at hloop
    split_ifs at hloop
  case waiting =>
    obtain rfl := Option.some.inj h
    dsimp only at hloop
    split_ifs at hloop
  all_goals
    dsimp only at h
    try split_ifs at h
    all_goals (obtain rfl := Option.some.inj h; cases hloop)

theorem finish_ok {st : StateStore} {now : ℚ} {ending : CycleEnd}
    (h : (st.finish now ending).status = .ok) :
    ending = .ok ∧ (st.finish now ending).lastSuccessAt = some now := by
  unfold StateStore.finish at h ⊢
  cases ending with
  | ok => exact ⟨rfl, rfl⟩
  | partly => cases h
  | failed => dsimp only at h; split_ifs at h
  | unusable => cases h
  | raised advanced => dsimp only at h; split_ifs at h

/-! ## The invariant -/

/-- A save that leaves a green file happens soon after the last cycle with status `ok`. -/
theorem Since.fresh {since last clock time : ℚ} (h : Since cfg s since last)
    (hahead : s.ahead ≤ clock - time)
    (hgreen : health (some (s.store.render cfg.interval clock)) = 200) :
    time ≤ since + (2 * cfg.interval + heartbeat) := by
  have hage := (green_render hgreen).2 last h.lastSuccess
  have hbehind := h.ahead
  have hheartbeat : heartbeat = 30 := rfl
  linarith

theorem Since.idle {since last clock time : ℚ} (h : Since cfg s since last)
    (hahead : s.ahead ≤ clock - time) (hnext : clock < s.sync.control.nextAt) :
    time ≤ since + cfg.interval := by
  have hbehind := h.ahead
  rw [h.nextAt] at hnext
  linarith

theorem Inv.begin {i : Instant} {saves : Bool} (h : Inv cfg s)
    (hok : s.Honest (.begin i saves)) (hnext : s.next cfg (.begin i saves) = some t) :
    Inv cfg t := by
  obtain ⟨hahead, hsaves⟩ := hok
  unfold next at hnext
  obtain ⟨hbegun, hnext⟩ := Option.ite_none_left_eq_some.mp hnext
  obtain rfl := Option.some.inj hnext
  obtain ⟨hunbegun, -⟩ := not_or.mp hbegun
  have hstarting := h.unbegun ((Bool.not_eq_true _).mp hunbegun)
  refine ⟨fun hf => (by cases hf), fun force hc => (h.cycling force hc).trans hahead,
    fun hstatus => ?_, fun _ hgreen => ?_, h.answers⟩
  · cases hstarting.symm.trans hstatus
  · rcases hsaves with rfl | hred
    · cases hstarting.symm.trans (green_render hgreen).1
    · cases saves with
      | true => cases hstarting.symm.trans (green_render hgreen).1
      | false => exact absurd hgreen hred

theorem Inv.signal (h : Inv cfg s) (hnext : s.next cfg .signal = some t) : Inv cfg t := by
  obtain ⟨sync, hsync, rfl⟩ := Option.map_eq_some_iff.mp hnext
  obtain ⟨-, hsync⟩ := Option.ite_none_left_eq_some.mp hsync
  obtain rfl := Option.some.inj hsync
  refine ⟨h.unbegun, h.cycling, fun hstatus => ?_, h.green, h.answers⟩
  obtain ⟨since, last, hsince⟩ := h.status hstatus
  exact ⟨since, last, hsince.1, hsince.2, hsince.3, hsince.4⟩

theorem trigger_kept {c c' : LoopState} {force : Bool} {now : ℚ}
    (h : c.next cfg.timing (.trigger force now) = some c') :
    c'.loop = c.loop ∧ c'.control.nextAt = c.control.nextAt := by
  unfold LoopState.next at h
  dsimp only at h
  split at h
  · rename_i control hcontrol
    obtain rfl := Option.some.inj h
    unfold Control.triggerSync at hcontrol
    obtain ⟨-, hcontrol⟩ := Option.ite_none_right_eq_some.mp hcontrol
    obtain rfl := Option.some.inj hcontrol
    exact ⟨rfl, rfl⟩
  · obtain rfl := Option.some.inj h
    exact ⟨rfl, rfl⟩

theorem Inv.trigger {force : Bool} {i : Instant} (h : Inv cfg s)
    (hok : s.Honest (.trigger force i)) (hnext : s.next cfg (.trigger force i) = some t) :
    Inv cfg t := by
  obtain ⟨-, hnext⟩ := Option.ite_none_right_eq_some.mp hnext
  obtain ⟨sync, hsync, rfl⟩ := Option.map_eq_some_iff.mp hnext
  obtain ⟨hloop, hnextAt⟩ := trigger_kept hsync
  refine ⟨h.unbegun, fun force hc => (h.cycling force (hloop ▸ hc)).trans hok,
    fun hstatus => ?_, fun hbegun hgreen => ?_, h.answers⟩
  · obtain ⟨since, last, hsince⟩ := h.status hstatus
    exact ⟨since, last, hsince.1, hsince.2, hsince.3.trans hok, hnextAt.trans hsince.4⟩
  · obtain ⟨hstatus, hdue⟩ := h.green hbegun hgreen
    refine ⟨hstatus, fun since hsince => ?_⟩
    rw [show sync.loop = s.sync.loop from hloop]
    exact hdue since hsince

theorem Inv.request {time : ℚ} (h : Inv cfg s) (hok : s.Honest (.request time))
    (hnext : s.next cfg (.request time) = some t) : Inv cfg t := by
  obtain ⟨⟨-, hdue⟩, hnext⟩ := Option.ite_none_right_eq_some.mp hnext
  obtain rfl := Option.some.inj hnext
  refine ⟨h.unbegun, h.cycling, fun hstatus => ?_, h.green, ?_⟩
  · obtain ⟨since, last, hsince⟩ := h.status hstatus
    exact ⟨since, last, hsince.1, hsince.2, hsince.3, hsince.4⟩
  · refine List.forall_mem_cons.mpr ⟨fun hcode => ?_, h.answers⟩
    have hbegun := hok.resolve_right fun hred => hred hcode
    obtain ⟨hstatus, hbound⟩ := h.green hbegun hcode
    obtain ⟨since, last, hsince⟩ := h.status hstatus
    have hallowed := hbound since hsince.okSince
    have hbounded := allowance_le cfg s.sync.loop
    refine ⟨since, hsince.okSince, ?_⟩
    show time - bound cfg ≤ since
    linarith

/-- The file after a move: it was saved just now, or it is the old one, and was not to be saved. -/
theorem file_cases {i : Instant} {m : Meets}
    (hok : savesAt s.sync.loop m = true → m.saves = true ∨ health s.file ≠ 200)
    (hgreen : health (if savesAt s.sync.loop m = true then (s.note i m).save cfg i.clock m.saves
      else s.file) = 200) :
    (savesAt s.sync.loop m = true ∧
        health (some ((s.note i m).store.render cfg.interval i.clock)) = 200) ∨
      (savesAt s.sync.loop m = false ∧ health s.file = 200) := by
  cases hsaves : savesAt s.sync.loop m with
  | false =>
    rw [hsaves, if_neg Bool.false_ne_true] at hgreen
    exact .inr ⟨rfl, hgreen⟩
  | true =>
    rw [hsaves, if_pos rfl] at hgreen
    refine .inl ⟨rfl, ?_⟩
    have hfile : (s.note i m).file = s.file := by
      unfold note
      cases s.sync.loop <;> rfl
    unfold save at hgreen
    by_cases hm : m.saves = true
    · rw [if_pos hm] at hgreen
      exact hgreen
    · rw [if_neg hm, hfile] at hgreen
      exact absurd hgreen ((hok hsaves).resolve_left hm)

theorem Inv.cycle {i : Instant} {m : Meets} {force : Bool} (h : Inv cfg s)
    (hcycling : s.sync.loop = .cycling force) (hbegun : s.begun = true)
    (hok : s.Honest (.loop i m)) (hnext : s.loopMove cfg i m = some t) : Inv cfg t := by
  obtain ⟨hahead, hsaves⟩ := hok
  obtain ⟨sync, hmove, rfl⟩ := Option.map_eq_some_iff.mp hnext
  obtain ⟨hcycled, hnextAt⟩ := move_cycling hmove hcycling
  have hsince := (h.cycling force hcycling).trans hahead
  have hstore : (s.note i m).store = s.store.finish s.cycleNow m.ending := by
    unfold note
    rw [hcycling]
  have hended (hstatus : (s.note i m).store.status = .ok) : m.ending = .ok ∧
      (s.note i m).store.lastSuccessAt = some s.cycleNow ∧
      (s.note i m).okSince = some s.cycleSince := by
    rw [hstore] at hstatus ⊢
    obtain ⟨hending, hlast⟩ := finish_ok hstatus
    refine ⟨hending, hlast, ?_⟩
    unfold note
    rw [hcycling, hending]
    rfl
  have hreading (hending : m.ending = .ok) : s.reading i m = s.cycleNow := by
    unfold reading
    rw [hcycling, hending]
  have hsucceeded (hstatus : (s.note i m).store.status = .ok) :
      Since cfg { s.note i m with sync := sync, ahead := i.clock - i.time } s.cycleSince
        s.cycleNow := by
    obtain ⟨hending, hlast, hnoted⟩ := hended hstatus
    refine ⟨hnoted, hlast, hsince, ?_⟩
    rw [show sync.control.nextAt = _ from hnextAt (decide_eq_true hending)]
    show s.reading i m + _ = _
    rw [hreading hending]
  refine ⟨fun hf => ?_, fun force hc => ?_, fun hstatus => ?_, fun _ hgreen => ?_, ?_⟩
  · have hnoted : (s.note i m).begun = s.begun := by
      unfold note
      rw [hcycling]
    cases (hnoted.trans hbegun).symm.trans hf
  · cases hcycled.symm.trans hc
  · have hsince := hsucceeded hstatus
    exact ⟨_, _, hsince.1, hsince.2, hsince.3, hsince.4⟩
  · rcases file_cases hsaves hgreen with ⟨-, hrendered⟩ | ⟨hnot, -⟩
    · have hstatus := (green_render hrendered).1
      refine ⟨hstatus, fun since heq => ?_⟩
      obtain rfl := Option.some.inj ((hended hstatus).2.2.symm.trans heq)
      show s.dueAt cfg i.time sync.loop ≤ _ + allowance cfg sync.loop
      rw [show sync.loop = .cycled from hcycled]
      exact (hsucceeded hstatus).fresh le_rfl hrendered
    · rw [hcycling] at hnot
      cases hnot
  · have hnoted : (s.note i m).answers = s.answers := by
      unfold note
      rw [hcycling]
    intro a ha
    exact h.answers a (hnoted ▸ ha)

theorem Inv.loop {i : Instant} {m : Meets} (h : Inv cfg s) (hok : s.Honest (.loop i m))
    (hnext : s.next cfg (.loop i m) = some t) : Inv cfg t := by
  obtain ⟨⟨hbegun, -, hdue⟩, hnext⟩ := Option.ite_none_right_eq_some.mp hnext
  by_cases hcycling : ∃ force, s.sync.loop = .cycling force
  · obtain ⟨force, hcycling⟩ := hcycling
    exact h.cycle hcycling hbegun hok hnext
  have hloop := not_exists.mp hcycling
  obtain ⟨hahead, hsaves⟩ := hok
  obtain ⟨sync, hmove, rfl⟩ := Option.map_eq_some_iff.mp hnext
  rw [reading_of_not_cycling hloop] at hmove
  obtain ⟨hstore, hokSince⟩ := note_of_not_cycling (i := i) (m := m) hloop
  have hnextAt := move_nextAt hmove hloop
  have hkept {since last : ℚ} (hsince : Since cfg s since last) :
      Since cfg { s.note i m with sync := sync, ahead := i.clock - i.time } since last :=
    ⟨hokSince.trans hsince.1, by rw [hstore]; exact hsince.2, hsince.3.trans hahead,
      hnextAt.trans hsince.4⟩
  have hbegun' : (s.note i m).begun = s.begun := by
    unfold note
    cases s.sync.loop <;> rfl
  have hanswers : (s.note i m).answers = s.answers := by
    unfold note
    cases s.sync.loop <;> rfl
  refine ⟨fun hf => ?_, fun force hc => ?_, fun hstatus => ?_, fun _ hgreen => ?_, ?_⟩
  · cases (hbegun'.trans hbegun).symm.trans hf
  · have hstarting := cycling_of_move hmove hc
    have hnoted : s.note i m = { s with cycleNow := i.clock, cycleSince := i.time } := by
      unfold note
      rw [hstarting]
    show (s.note i m).cycleNow - (s.note i m).cycleSince ≤ i.clock - i.time
    rw [hnoted]
  · obtain ⟨since, last, hsince⟩ := h.status (by rw [← hstore]; exact hstatus)
    have hsince := hkept hsince
    exact ⟨since, last, hsince.1, hsince.2, hsince.3, hsince.4⟩
  · have hfile := file_cases hsaves hgreen
    rw [hstore] at hfile
    have hstatus : s.store.status = .ok := by
      rcases hfile with ⟨-, hrendered⟩ | ⟨-, hold⟩
      · exact (green_render hrendered).1
      · exact (h.green hbegun hold).1
    refine ⟨by rw [← hstatus, ← hstore], fun since heq => ?_⟩
    obtain ⟨since', last, hsince⟩ := h.status hstatus
    obtain rfl := Option.some.inj (hsince.okSince.symm.trans (hokSince.symm.trans heq))
    refine move_allowed hmove hloop hdue (fun hnot => ?_) (fun hsaved => ?_) fun hidle => ?_
    · rcases hfile with ⟨hsaved, -⟩ | ⟨-, hold⟩
      · cases hnot.symm.trans hsaved
      · exact (h.green hbegun hold).2 _ hsince.okSince
    · rcases hfile with ⟨-, hrendered⟩ | ⟨hnot, -⟩
      · exact hsince.fresh hahead hrendered
      · cases hnot.symm.trans hsaved
    · exact hsince.idle hahead hidle
  · intro a ha
    exact h.answers a (hanswers ▸ ha)

theorem Inv.next {move : HealthMove} (h : Inv cfg s) (hok : s.Honest move)
    (hnext : s.next cfg move = some t) : Inv cfg t := by
  cases move with
  | begin i saves => exact h.begin hok hnext
  | loop i m => exact h.loop hok hnext
  | trigger force i => exact h.trigger hok hnext
  | signal => exact h.signal hnext
  | request time => exact h.request hok hnext

end Watched

/-- **The health endpoint does not go stale.** In every run that is honest, each answer of 200 comes
at most twice the interval, a heartbeat and the longest cycle after a cycle with status `ok` began. -/
theorem answers_fresh {cfg : HealthConfig} {s : Watched}
    (h : (healthLoop cfg).Reach Watched.Honest s) :
    ∀ a ∈ s.answers, a.code = 200 → ∃ since, a.okSince = some since ∧
      a.time - (2 * cfg.interval + heartbeat + cfg.longest) ≤ since := by
  have hinv : Watched.Inv cfg s := by
    refine h.invariant ?_ fun s move t hs hok hnext => hs.next hok hnext
    rintro s ⟨store, file, time, ahead, hstatus, rfl⟩
    refine ⟨fun _ => hstatus, fun force hc => (by cases hc), fun hs => ?_, fun hf => (by cases hf),
      fun a ha => absurd ha List.not_mem_nil⟩
    cases hstatus.symm.trans hs
  exact fun a ha => hinv.answers a ha

/-! ## A file that nobody writes any more -/

/-- A sync every minute, which may take a minute. -/
def minuteConfig : HealthConfig := ⟨60, 0, 60, by decide⟩

def freshStart : Watched :=
  { store := { startedAt := 0 }, file := none, time := 0, due := 0, ahead := 0 }

def atTime (t : ℚ) : Instant := ⟨t, t⟩

/-- A cycle from `start` to `stop`. -/
def cycleMoves (start stop : ℚ) (ending : CycleEnd) (saves : Bool) : List HealthMove :=
  [.loop (atTime start) {}, .loop (atTime start) {},
    .loop (atTime stop) { ending := ending, saves := saves }, .loop (atTime stop) {}]

/-- A wait that times out, and the save after it. -/
def waitMoves (start stop : ℚ) (saves : Bool) : List HealthMove :=
  [.loop (atTime start) {}, .loop (atTime start) {},
    .loop (atTime stop) { timedOut := true, saves := saves }]

def heartbeatRun : List HealthMove :=
  .begin (atTime 0) true :: cycleMoves 0 0 .ok true ++ waitMoves 0 30 true ++
    [.loop (atTime 30) {}, .loop (atTime 30) {}, .request 40]

theorem answers_fresh_heartbeat : ∃ s a, a ∈ Watched.answers s ∧ a.code = 200 ∧
    ∃ since, a.okSince = some since ∧
      a.time - (2 * minuteConfig.interval + heartbeat + minuteConfig.longest) ≤ since := by
  have hinit : (healthLoop minuteConfig).init freshStart := ⟨_, _, _, _, rfl, rfl⟩
  have hrun : ((healthLoop minuteConfig).runOk (fun s move => decide (Watched.Honest s move)) freshStart
      heartbeatRun).any (fun s => s.answers.any fun a => a.code = 200) = true := by decide +kernel
  obtain ⟨s, hreach, hanswers⟩ := System.exists_of_runOk hinit hrun
  obtain ⟨a, ha, hcode⟩ := List.any_eq_true.mp hanswers
  have hhonest : (healthLoop minuteConfig).Reach Watched.Honest s :=
    hreach.mono fun _ _ h => of_decide_eq_true h
  exact ⟨s, a, ha, of_decide_eq_true hcode, answers_fresh hhonest a ha (of_decide_eq_true hcode)⟩

/-- After the first cycle no write succeeds, and no cycle. -/
def frozenRun : List HealthMove :=
  .begin (atTime 0) true :: cycleMoves 0 0 .ok true ++ waitMoves 0 30 false ++
    waitMoves 30 60 false ++ .loop (atTime 60) {} :: cycleMoves 60 120 .failed false ++
    .loop (atTime 120) {} :: cycleMoves 120 180 .failed false ++
    .loop (atTime 180) {} :: cycleMoves 180 240 .failed false ++ [.request 240]

theorem frozen_green : ∃ s, (healthLoop minuteConfig).Reachable s ∧ ∃ a ∈ s.answers, a.code = 200 ∧
    ¬ ∃ since, a.okSince = some since ∧
      a.time - (2 * minuteConfig.interval + heartbeat + minuteConfig.longest) ≤ since := by
  have hinit : (healthLoop minuteConfig).init freshStart := ⟨_, _, _, _, rfl, rfl⟩
  have hrun : ((healthLoop minuteConfig).run freshStart frozenRun).any (fun s => s.answers.any fun a =>
      a.code = 200 && a.okSince = some 0 && a.time = 240) = true := by decide +kernel
  obtain ⟨s, hreach, hanswers⟩ := System.exists_of_runOk hinit hrun
  obtain ⟨a, ha, hall⟩ := List.any_eq_true.mp hanswers
  simp only [Bool.and_eq_true, decide_eq_true_eq] at hall
  obtain ⟨⟨hcode, hsince⟩, htime⟩ := hall
  refine ⟨s, hreach.reachable, a, ha, hcode, ?_⟩
  intro ⟨since, heq, hle⟩
  obtain rfl := Option.some.inj (hsince.symm.trans heq)
  rw [htime] at hle
  exact absurd hle (by decide +kernel)

end HaAddons.SecretsSync
