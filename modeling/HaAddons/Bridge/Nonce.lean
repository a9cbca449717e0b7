import HaAddons.Lib.Pool
import HaAddons.Lib.Dict

/-!
# The bridge's nonces

A nonce allows one destructive request. `Manager.Issue`, `Manager.Validate` and the collector
`gcOnce` run concurrently over one cache; each `get`, `set` and `del` holds the cache lock by
itself, so these are the atomic steps. The clock may read anything.

`Validate` reads the entry in one step and marks it used in another, so two calls that both read
before either marks are both accepted (`validate_twice`).

* `nonce_single_use` — in every run in which no call reads a nonce between another call's read of
  it and that call's mark, each nonce is accepted at most once. It is never accepted more than
  `ttl` after it was issued.
-/

namespace HaAddons.Bridge

/-- An instant, in nanoseconds. -/
abbrev Time := ℤ

namespace Nonce

def defaultTTL : ℤ := 60 * 10 ^ 9

def gcGrace : ℤ := 5 * 10 ^ 9

/-- What `newManagerWith` is given; `fingerprint` is `auth.Fingerprint`. -/
structure Config where
  ttl : ℤ
  fingerprint : String → String

/-- `newManagerWith`: no time to live means the default one. -/
def Config.lifetime (q : Config) : ℤ := if q.ttl ≤ 0 then defaultTTL else q.ttl

structure Entry where
  issuedAt : Time
  used : Bool
  deriving DecidableEq, Repr

/-- A line of the audit journal. -/
structure Event where
  nonceFP : String
  issuedAt : Time
  usedAt : Option Time
  actorTokenFP : String
  requestID : String
  operation : String
  deriving DecidableEq, Repr

/-- The manager's cache and journal. No program reads the rest: the nonces drawn so far, and when
each was put into the cache. -/
structure Shared where
  cache : Dict String Entry
  journal : List Event
  drawn : List String
  issued : String → Option Time

inductive ValidateError where
  | expired
  | used
  deriving DecidableEq, Repr

/-! ## Calls -/

inductive IssuePc where
  | draw
  | clock (nonce : String)
  | set (nonce : String) (issuedAt : Time)
  | log (nonce : String) (issuedAt : Time)
  | returned (nonce : String) (expiresAt : Time)
  | failed
  deriving DecidableEq, Repr

structure IssueCall where
  actorFP : String
  requestID : String
  pc : IssuePc := .draw
  deriving DecidableEq, Repr

inductive ValidatePc where
  | clock
  | get (now : Time)
  | del (now : Time)
  | mark (now issuedAt : Time)
  | log (now issuedAt : Time)
  | accepted (now issuedAt : Time)
  | rejected (e : ValidateError)
  deriving DecidableEq, Repr

structure ValidateCall where
  presented : String
  actorFP : String
  requestID : String
  pc : ValidatePc := .clock
  deriving DecidableEq, Repr

inductive GcPc where
  | clock
  | snapshot (now : Time)
  | del (candidates : List String)
  | done
  deriving DecidableEq, Repr

inductive Thread where
  | issue (c : IssueCall)
  | validate (c : ValidateCall)
  | gc (pc : GcPc)
  deriving DecidableEq, Repr

inductive Call where
  | issue (actorFP requestID : String)
  | validate (presented actorFP requestID : String)
  | gc
  deriving DecidableEq, Repr

/-- What the environment decides: the random bytes (or their failure), the clock, whether the
journal can be written, and the order in which the map is walked. -/
inductive Act where
  | draw (nonce : Option String)
  | clock (now : Time)
  | snapshot (order : List String)
  | log (ok : Bool)
  | step
  deriving DecidableEq, Repr

variable (q : Config)

/-- Append to the journal, when that works; the calls go on either way. -/
def Shared.append (s : Shared) (ok : Bool) (e : Event) : Shared :=
  if ok then { s with journal := s.journal ++ [e] } else s

def IssueCall.step (s : Shared) (c : IssueCall) (a : Act) : Option (Shared × IssueCall) :=
  match c.pc, a with
  | .draw, .draw none => some (s, { c with pc := .failed })
  | .draw, .draw (some nonce) =>
    -- crypto/rand: 32 random bytes were never drawn before.
    if nonce ∈ s.drawn then none
    else some ({ s with drawn := nonce :: s.drawn }, { c with pc := .clock nonce })
  | .clock nonce, .clock now => some (s, { c with pc := .set nonce now })
  | .set nonce issuedAt, .step =>
    some ({ s with
      cache := s.cache.insert nonce ⟨issuedAt, false⟩
      issued := Function.update s.issued nonce (some issuedAt) }, { c with pc := .log nonce issuedAt })
  | .log nonce issuedAt, .log ok =>
    some (s.append ok
      { nonceFP := q.fingerprint nonce
        issuedAt := issuedAt
        usedAt := none
        actorTokenFP := c.actorFP
        requestID := c.requestID
        operation := "issue" }, { c with pc := .returned nonce (issuedAt + q.lifetime) })
  | _, _ => none

def ValidateCall.step (s : Shared) (c : ValidateCall) (a : Act) : Option (Shared × ValidateCall) :=
  match c.pc, a with
  | .clock, .clock now =>
    some (s, { c with pc := if c.presented = "" then .rejected .expired else .get now })
  | .get now, .step =>
    match s.cache.get? c.presented with
    | none => some (s, { c with pc := .rejected .expired })
    | some e =>
      some (s, { c with
        pc :=
          if q.lifetime < now - e.issuedAt then .del now
          else if e.used then .rejected .used
          else .mark now e.issuedAt })
  | .del _, .step =>
    some ({ s with cache := s.cache.erase c.presented }, { c with pc := .rejected .expired })
  | .mark now issuedAt, .step =>
    some ({ s with cache := s.cache.insert c.presented ⟨issuedAt, true⟩ },
      { c with pc := .log now issuedAt })
  | .log now issuedAt, .log ok =>
    some (s.append ok
      { nonceFP := q.fingerprint c.presented
        issuedAt := issuedAt
        usedAt := some now
        actorTokenFP := c.actorFP
        requestID := c.requestID
        operation := "validate" }, { c with pc := .accepted now issuedAt })
  | _, _ => none

/-- The keys `gcOnce` deletes. -/
def expiredKeys (s : Shared) (now : Time) : List String :=
  (s.cache.entries.filter fun e => q.lifetime + gcGrace < now - e.2.issuedAt).map Prod.fst

def GcPc.step (s : Shared) (pc : GcPc) (a : Act) : Option (Shared × GcPc) :=
  match pc, a with
  | .clock, .clock now => some (s, .snapshot now)
  | .snapshot now, .snapshot order =>
    if order.isPerm (expiredKeys q s now) then some (s, .del order) else none
  | .del [], .step => some (s, .done)
  | .del (k :: rest), .step => some ({ s with cache := s.cache.erase k }, .del rest)
  | _, _ => none

def Thread.step (s : Shared) (t : Thread) (a : Act) : Option (Shared × Thread) :=
  match t with
  | .issue c => (c.step q s a).map fun r => (r.1, .issue r.2)
  | .validate c => (c.step q s a).map fun r => (r.1, .validate r.2)
  | .gc pc => (pc.step q s a).map fun r => (r.1, .gc r.2)

def initial : Shared := ⟨.empty, [], [], fun _ => none⟩

/-- The manager with an empty cache. -/
def pool : Pool Shared Thread Call Act where
  init s := s = initial
  start
    | .issue actorFP requestID => .issue { actorFP := actorFP, requestID := requestID }
    | .validate presented actorFP requestID =>
      .validate { presented := presented, actorFP := actorFP, requestID := requestID }
    | .gc => .gc .clock
  step s t a := t.step q s a

abbrev State := HaAddons.Config Shared Thread

/-! ## What is known of calls -/

/-- The nonce an `Issue` call has drawn and not yet put into the cache. -/
def Thread.minting : Thread → Option String
  | .issue c => match c.pc with
    | .clock nonce | .set nonce _ => some nonce
    | _ => none
  | _ => none

/-- A `Validate` call that found the nonce good and has not marked it yet. -/
def Thread.marking (nonce : String) : Thread → Bool
  | .validate c => c.presented = nonce && match c.pc with
    | .mark _ _ => true
    | _ => false
  | _ => false

/-- A `Validate` call that accepts the nonce: it has marked it. -/
def Thread.accepts (nonce : String) : Thread → Bool
  | .validate c => c.presented = nonce && match c.pc with
    | .log _ _ | .accepted _ _ => true
    | _ => false
  | _ => false

/-- Every entry carries the time its nonce was issued, and only drawn nonces were issued. -/
structure Shared.Sane (s : Shared) : Prop where
  cache : ∀ n e, s.cache.get? n = some e → s.issued n = some e.issuedAt
  issued : ∀ n, s.issued n ≠ none → n ∈ s.drawn

/-- What a call knows of its nonce. -/
def Thread.Sane (s : Shared) : Thread → Prop
  | .issue c => match c.pc with
    | .clock n | .set n _ => n ∈ s.drawn ∧ s.issued n = none
    | _ => True
  | .validate c => match c.pc with
    | .mark now t => s.issued c.presented = some t ∧ now - t ≤ q.lifetime
    | .log now t | .accepted now t => s.issued c.presented = some t ∧ now - t ≤ q.lifetime ∧
        ∀ e, s.cache.get? c.presented = some e → e.used = true
    | _ => True
  | .gc _ => True

/-- What a step of thread `t` does to the cache and to the record of what was issued. -/
structure Effect (s s' : Shared) (t : Thread) : Prop where
  cache : ∀ n, s'.cache.get? n = s.cache.get? n ∨ s'.cache.get? n = none ∨
    t.minting = some n ∨ ∀ e, s'.cache.get? n = some e → e.used = true
  issued : ∀ n, s'.issued n = s.issued n ∨ t.minting = some n
  drawn : ∀ n ∈ s.drawn, n ∈ s'.drawn

section Steps

variable {q} {s s' : Shared} {t t' u : Thread} {a : Act}

theorem Effect.rfl : Effect s s t where
  cache _ := .inl (Eq.refl _)
  issued _ := .inl (Eq.refl _)
  drawn _ h := h

/-- Only the cache changes: an entry goes, or one is marked. -/
theorem Effect.cacheOnly {cache : Dict String Entry}
    (h : ∀ n, cache.get? n = s.cache.get? n ∨ cache.get? n = none ∨
      ∀ e, cache.get? n = some e → e.used = true) : Effect s { s with cache := cache } t where
  cache n := by
    rcases h n with h | h | h
    · exact .inl h
    · exact .inr (.inl h)
    · exact .inr (.inr (.inr h))
  issued _ := .inl (Eq.refl _)
  drawn _ h := h

theorem Effect.append (ok : Bool) (e : Event) : Effect s (s.append ok e) t := by
  cases ok <;> exact ⟨fun _ => .inl (Eq.refl _), fun _ => .inl (Eq.refl _), fun _ h => h⟩

@[simp] theorem append_cache (ok : Bool) (e : Event) : (s.append ok e).cache = s.cache := by
  cases ok <;> rfl

@[simp] theorem append_issued (ok : Bool) (e : Event) : (s.append ok e).issued = s.issued := by
  cases ok <;> rfl

@[simp] theorem append_drawn (ok : Bool) (e : Event) : (s.append ok e).drawn = s.drawn := by
  cases ok <;> rfl

theorem Shared.Sane.append (hs : s.Sane) (ok : Bool) (e : Event) : (s.append ok e).Sane := by
  cases ok <;> exact ⟨hs.cache, hs.issued⟩

theorem Shared.Sane.erase (hs : s.Sane) (n : String) :
    Shared.Sane { s with cache := s.cache.erase n } where
  cache n' e h := by
    rw [Dict.get?_erase] at h
    split at h
    · cases h
    · exact hs.cache n' e h
  issued := hs.issued

theorem Effect.erase (n : String) : Effect s { s with cache := s.cache.erase n } t := by
  refine .cacheOnly fun n' => ?_
  rw [Dict.get?_erase]
  split
  · exact .inr (.inl (Eq.refl _))
  · exact .inl (Eq.refl _)

theorem IssueCall.step_sane {c c' : IssueCall} (h : c.step q s a = some (s', c')) (hs : s.Sane)
    (hc : (Thread.issue c).Sane q s) :
    s'.Sane ∧ (Thread.issue c').Sane q s' ∧ Effect s s' (.issue c) ∧
      ∀ n, (Thread.issue c').minting = some n → (Thread.issue c).minting = some n ∨ n ∉ s.drawn := by
  obtain ⟨actorFP, requestID, pc⟩ := c
  cases pc with
  | draw =>
    cases a with
    | draw nonce =>
      cases nonce with
      | none =>
        cases h
        exact ⟨hs, trivial, .rfl, fun n hn => by cases hn⟩
      | some nonce =>
        simp only [step] at h
        split at h
        · cases h
        · rename_i hnew
          cases h
          have hnone : s.issued nonce = none := by
            by_contra hne
            exact hnew (hs.issued nonce hne)
          refine ⟨⟨hs.cache, fun n hn => List.mem_cons_of_mem _ (hs.issued n hn)⟩,
            ⟨List.mem_cons_self, hnone⟩, ⟨fun _ => .inl rfl, fun _ => .inl rfl,
              fun n hn => List.mem_cons_of_mem _ hn⟩, fun n hn => .inr ?_⟩
          obtain rfl : nonce = n := by simpa [Thread.minting] using hn
          exact hnew
    | _ => cases h
  | clock nonce =>
    cases a with
    | clock now =>
      cases h
      exact ⟨hs, hc, .rfl, fun n hn => .inl hn⟩
    | _ => cases h
  | set nonce issuedAt =>
    cases a with
    | step =>
      cases h
      obtain ⟨hdrawn, hnone⟩ := hc
      refine ⟨⟨fun n e he => ?_, fun n hn => ?_⟩, trivial, ⟨fun n => ?_, fun n => ?_, fun _ h => h⟩,
        fun n hn => by cases hn⟩
      · rw [Dict.get?_insert] at he
        by_cases hne : n = nonce
        · simp only [hne, if_true, Option.some.injEq] at he
          simp [hne, ← he]
        · simp only [hne, if_false] at he
          simpa [Function.update_of_ne hne] using hs.cache n e he
      · by_cases hne : n = nonce
        · exact hne ▸ hdrawn
        · exact hs.issued n (by simpa [Function.update_of_ne hne] using hn)
      · by_cases hne : n = nonce
        · exact .inr (.inr (.inl (by simp [Thread.minting, hne])))
        · exact .inl (by simp [Dict.get?_insert, hne])
      · by_cases hne : n = nonce
        · exact .inr (by simp [Thread.minting, hne])
        · exact .inl (by simp [Function.update_of_ne hne])
    | _ => cases h
  | log nonce issuedAt =>
    cases a with
    | log ok =>
      cases h
      exact ⟨hs.append ok _, trivial, .append ok _, fun n hn => by cases hn⟩
    | _ => cases h
  | returned nonce expiresAt | failed => cases a <;> cases h

theorem ValidateCall.step_sane {c c' : ValidateCall} (h : c.step q s a = some (s', c'))
    (hs : s.Sane) (hc : (Thread.validate c).Sane q s) :
    s'.Sane ∧ (Thread.validate c').Sane q s' ∧ Effect s s' (.validate c) := by
  obtain ⟨presented, actorFP, requestID, pc⟩ := c
  cases pc with
  | clock =>
    cases a with
    | clock now =>
      cases h
      refine ⟨hs, ?_, .rfl⟩
      by_cases hp : presented = "" <;> simp [Thread.Sane, hp]
    | _ => cases h
  | get now =>
    cases a with
    | step =>
      simp only [step] at h
      split at h
      · cases h
        exact ⟨hs, trivial, .rfl⟩
      · rename_i e he
        cases h
        refine ⟨hs, ?_, .rfl⟩
        by_cases hexp : q.lifetime < now - e.issuedAt
        · simp [Thread.Sane, hexp]
        · by_cases hused : e.used = true
          · simp [Thread.Sane, hexp, hused]
          · simp only [Thread.Sane, hexp, hused, if_false]
            exact ⟨hs.cache _ e he, not_lt.mp hexp⟩
    | _ => cases h
  | del now =>
    cases a with
    | step =>
      cases h
      exact ⟨hs.erase _, trivial, .erase _⟩
    | _ => cases h
  | mark now issuedAt =>
    cases a with
    | step =>
      cases h
      obtain ⟨hissued, hin⟩ := hc
      refine ⟨⟨fun n e he => ?_, hs.issued⟩, ⟨hissued, hin, fun e he => ?_⟩,
        .cacheOnly fun n => ?_⟩
      · rw [Dict.get?_insert] at he
        by_cases hne : n = presented
        · simp only [hne, if_true, Option.some.injEq] at he
          rw [hne, ← he]
          exact hissued
        · simp only [hne, if_false] at he
          exact hs.cache n e he
      · simp only [Dict.get?_insert, if_true, Option.some.injEq] at he
        simp [← he]
      · by_cases hne : n = presented
        · exact .inr (.inr fun e he => by
            simp only [Dict.get?_insert, hne, if_true, Option.some.injEq] at he
            simp [← he])
        · exact .inl (by simp [Dict.get?_insert, hne])
    | _ => cases h
  | log now issuedAt =>
    cases a with
    | log ok =>
      cases h
      refine ⟨hs.append ok _, ?_, .append ok _⟩
      simpa [Thread.Sane] using hc
    | _ => cases h
  | accepted now issuedAt | rejected e => cases a <;> cases h

theorem GcPc.step_sane {pc pc' : GcPc} (h : pc.step q s a = some (s', pc')) (hs : s.Sane) :
    s'.Sane ∧ Effect s s' (.gc pc) := by
  cases pc with
  | clock =>
    cases a with
    | clock now =>
      cases h
      exact ⟨hs, .rfl⟩
    | _ => cases h
  | snapshot now =>
    cases a with
    | snapshot order =>
      simp only [step] at h
      split at h
      · cases h
        exact ⟨hs, .rfl⟩
      · cases h
    | _ => cases h
  | del candidates =>
    cases candidates with
    | nil =>
      cases a with
      | step =>
        cases h
        exact ⟨hs, .rfl⟩
      | _ => cases h
    | cons k rest =>
      cases a with
      | step =>
        cases h
        exact ⟨hs.erase k, .erase k⟩
      | _ => cases h
  | done => cases a <;> cases h

theorem Thread.issued_of_minting {n : String} (ht : t.Sane q s) (hn : t.minting = some n) :
    n ∈ s.drawn ∧ s.issued n = none := by
  cases t with
  | issue c =>
    obtain ⟨actorFP, requestID, pc⟩ := c
    cases pc with
    | clock nonce | set nonce issuedAt =>
      obtain rfl : nonce = n := by simpa [minting] using hn
      exact ht
    | _ => cases hn
  | validate c | gc pc => cases hn

/-- What an accepting call knows: when its nonce was issued, and that nobody else can win it. -/
theorem Thread.Sane.of_accepts {n : String} (ht : t.Sane q s) (hn : t.accepts n = true) :
    ∀ e, s.cache.get? n = some e → e.used = true := by
  cases t with
  | validate c =>
    obtain ⟨presented, actorFP, requestID, pc⟩ := c
    cases pc with
    | log now T | accepted now T =>
      obtain rfl : presented = n := by simpa [accepts] using hn
      exact ht.2.2
    | _ => simp [accepts] at hn
  | issue c | gc pc => cases hn

/-- What a call knows of its nonce survives the steps of the others. -/
theorem Thread.Sane.frame (hu : u.Sane q s) (ht : t.Sane q s) (he : Effect s s' t)
    (hk : Pool.KeysDiffer minting t u) : u.Sane q s' := by
  have hissued : ∀ n T, s.issued n = some T → s'.issued n = some T := by
    intro n T hn
    rcases he.issued n with h | h
    · rw [h, hn]
    · simp [(issued_of_minting ht h).2] at hn
  cases u with
  | issue c =>
    obtain ⟨actorFP, requestID, pc⟩ := c
    cases pc with
    | clock nonce | set nonce issuedAt =>
      refine ⟨he.drawn _ hu.1, ?_⟩
      rcases he.issued nonce with h | h
      · rw [h]
        exact hu.2
      · exact absurd rfl (hk nonce h)
    | _ => trivial
  | validate c =>
    obtain ⟨presented, actorFP, requestID, pc⟩ := c
    cases pc with
    | mark now T => exact ⟨hissued _ _ hu.1, hu.2⟩
    | log now T | accepted now T =>
      refine ⟨hissued _ _ hu.1, hu.2.1, fun e hent => ?_⟩
      rcases he.cache presented with h | h | h | h
      · exact hu.2.2 e (h ▸ hent)
      · simp [h] at hent
      · have hnone := (issued_of_minting ht h).2
        exact absurd (hnone.symm.trans hu.1) (by simp)
      · exact h e hent
    | _ => trivial
  | gc pc => trivial

theorem Thread.step_sane (h : t.step q s a = some (s', t')) (hs : s.Sane) (ht : t.Sane q s) :
    s'.Sane ∧ t'.Sane q s' ∧ Effect s s' t ∧
      ∀ n, t'.minting = some n → t.minting = some n ∨ n ∉ s.drawn := by
  cases t with
  | issue c =>
    obtain ⟨⟨s₁, c'⟩, hc, h⟩ := Option.map_eq_some_iff.mp h
    cases h
    exact IssueCall.step_sane hc hs ht
  | validate c =>
    obtain ⟨⟨s₁, c'⟩, hc, h⟩ := Option.map_eq_some_iff.mp h
    cases h
    obtain ⟨hs', hc', he⟩ := ValidateCall.step_sane hc hs ht
    exact ⟨hs', hc', he, fun n hn => by cases hn⟩
  | gc pc =>
    obtain ⟨⟨s₁, pc'⟩, hpc, h⟩ := Option.map_eq_some_iff.mp h
    cases h
    obtain ⟨hs', he⟩ := GcPc.step_sane hpc hs
    exact ⟨hs', trivial, he, fun n hn => by cases hn⟩

/-- A call wins a nonce by reading an entry that is not used yet, and in no other way. -/
theorem Thread.step_wins {n : String} (h : t.step q s a = some (s', t'))
    (hn : t'.marking n = true ∨ t'.accepts n = true) :
    (t.marking n = true ∨ t.accepts n = true) ∨
      ∃ c now e, t = .validate c ∧ c.presented = n ∧ c.pc = .get now ∧ a = .step ∧
        s.cache.get? n = some e ∧ e.used = false := by
  cases t with
  | issue c | gc pc =>
    obtain ⟨x, -, h⟩ := Option.map_eq_some_iff.mp h
    cases h
    rcases hn with hn | hn <;> cases hn
  | validate c =>
    obtain ⟨⟨s₁, c'⟩, hc, h⟩ := Option.map_eq_some_iff.mp h
    cases h
    obtain ⟨presented, actorFP, requestID, pc⟩ := c
    cases pc with
    | clock =>
      cases a with
      | clock now =>
        cases hc
        by_cases hp : presented = "" <;> simp [marking, accepts, hp] at hn
      | _ => cases hc
    | get now =>
      cases a with
      | step =>
        simp only [ValidateCall.step] at hc
        split at hc
        · cases hc
          simp [marking, accepts] at hn
        · rename_i e he
          cases hc
          refine .inr ⟨_, now, e, rfl, ?_⟩
          by_cases hexp : q.lifetime < now - e.issuedAt
          · simp [marking, accepts, hexp] at hn
          · by_cases hused : e.used = true
            · simp [marking, accepts, hexp, hused] at hn
            · obtain rfl : presented = n := by simpa [marking, accepts, hexp, hused] using hn
              exact ⟨rfl, rfl, rfl, he, by simpa using hused⟩
      | _ => cases hc
    | del now =>
      cases a with
      | step =>
        cases hc
        simp [marking, accepts] at hn
      | _ => cases hc
    | mark now T =>
      cases a with
      | step =>
        cases hc
        refine .inl (.inl ?_)
        simpa [marking, accepts] using hn
      | _ => cases hc
    | log now T =>
      cases a with
      | log ok =>
        cases hc
        refine .inl (.inr ?_)
        simpa [marking, accepts] using hn
      | _ => cases hc
    | accepted now T | rejected e => cases a <;> cases hc

end Steps

/-! ## Runs -/

/-- The label reads a nonce only while no other call is between its read of it and its mark. -/
def readsAlone (c : State) : Move Call Act → Bool
  | .move i .step =>
    match c.threads[i]? with
    | some (.validate v) => match v.pc with
      | .get _ => c.threads.all fun t => !t.marking v.presented
      | _ => true
    | _ => true
  | _ => true

section Runs

variable {q} {c : State} {ok : State → Move Call Act → Prop}

theorem pool_sane (ok : State → Move Call Act → Prop) :
    (pool q).Sound ok (fun _ => True) Shared.Sane (Thread.Sane q)
      (Pool.KeysDiffer Thread.minting) where
  init s hs := by
    obtain rfl : s = initial := hs
    exact ⟨by simp [initial], by simp [initial]⟩
  start s k _ := by cases k <;> trivial
  symm _ _ h := h.symm
  startPair k u n hn := by cases k <;> cases hn
  shared hm _ _ hJ hQ := (Thread.step_sane hm.step hJ hQ).1
  own hm _ _ hJ hQ := (Thread.step_sane hm.step hJ hQ).2.1
  frame hm _ _ hJ hQ _ _ hR hu := hu.frame hQ (Thread.step_sane hm.step hJ hQ).2.2.1 hR
  pair := by
    intro c i a t s' t' j u hm _ _ hJ hQ _ _ hu hR
    refine hR.step (U := fun n => n ∈ c.shared.drawn) ?_ fun n hn => ?_
    · exact (Thread.step_sane hm.step hJ hQ).2.2.2
    · exact (Thread.issued_of_minting hu hn).1

theorem sane (h : (pool q).system.Reach ok c) :
    Pool.Holds Shared.Sane (Thread.Sane q) (Pool.KeysDiffer Thread.minting) c :=
  (pool_sane ok).holds (fun _ _ => trivial) h

/-- Not both calls have won the nonce. -/
def Rivals (t u : Thread) : Prop :=
  ∀ n, t.marking n = true ∨ t.accepts n = true → ¬(u.marking n = true ∨ u.accepts n = true)

theorem pool_rivals :
    (pool q).Sound (fun c a => readsAlone c a = true)
      (Pool.Holds Shared.Sane (Thread.Sane q) (Pool.KeysDiffer Thread.minting)) (fun _ => True)
      (fun _ _ => True) Rivals where
  init _ _ := trivial
  start _ _ _ := trivial
  symm _ _ h n hu ht := h n ht hu
  startPair k u n hn := by cases k <;> rcases hn with hn | hn <;> simp [pool, Thread.marking, Thread.accepts] at hn
  shared _ _ _ _ _ := trivial
  own _ _ _ _ _ := trivial
  frame _ _ _ _ _ _ _ _ _ := trivial
  pair := by
    intro c i a t s' t' j u hm hc hok _ _ hij hj _ hR n hn hu
    rcases Thread.step_wins hm.step hn with h | ⟨v, now, e, rfl, rfl, hpc, rfl, he, hunused⟩
    · exact hR n h hu
    · have husane := hc.thread u (List.mem_of_getElem? hj)
      rcases hu with hu | hu
      · simp only [readsAlone, hm.at_, hpc, List.all_eq_true, Bool.not_eq_true'] at hok
        simp [hok u (List.mem_of_getElem? hj)] at hu
      · simp [husane.of_accepts hu e he] at hunused

/-- **Nonces are used once.** In every run in which no call reads a nonce between another call's
read of it and that call's mark, each nonce is accepted by at most one call, and only at a time
at most `ttl` after it was issued. -/
theorem nonce_single_use (h : (pool q).system.Reach (fun c a => readsAlone c a = true) c) :
    (∀ n, c.threads.countP (Thread.accepts n) ≤ 1) ∧
      ∀ v now t, .validate v ∈ c.threads → v.pc = .log now t ∨ v.pc = .accepted now t →
        c.shared.issued v.presented = some t ∧ now - t ≤ q.lifetime := by
  have hsane := sane h
  have hrivals := pool_rivals.holds (fun _ hc => sane hc) h
  refine ⟨fun n => countP_le_one fun i j t u hij hi hj ht => ?_, fun v now t hv hpc => ?_⟩
  · by_contra hu
    exact hrivals.pair i j t u hij hi hj n (.inr ht) (.inr (by simpa using hu))
  · have hv := hsane.thread _ hv
    obtain ⟨presented, actorFP, requestID, pc⟩ := v
    rcases hpc with rfl | rfl
    · exact ⟨hv.1, hv.2.1⟩
    · exact ⟨hv.1, hv.2.1⟩

end Runs

/-! ## Two histories -/

def defaults : Config := ⟨0, fun nonce => nonce⟩

/-- Issue the nonce `n` on thread 0, and start two calls that present it. -/
def issuing : List (Move Call Act) :=
  [.call (.issue "actor" "r0"), .move 0 (.draw (some "n")), .move 0 (.clock 0), .move 0 .step,
    .call (.validate "n" "actor" "r1"), .call (.validate "n" "actor" "r2"),
    .move 1 (.clock 1), .move 2 (.clock 1)]

theorem empty_init : (pool defaults).system.init ⟨initial, []⟩ := ⟨rfl, rfl⟩

/-- **A nonce is accepted twice.** Two calls read the entry before either marks it. -/
theorem validate_twice :
    ¬∀ c, (pool defaults).system.Reachable c → ∀ n, c.threads.countP (Thread.accepts n) ≤ 1 := by
  intro hclaim
  obtain ⟨c, hc, hf⟩ := System.exists_of_runOk empty_init
    (by decide : ((pool defaults).system.runOk (fun _ _ => true) ⟨initial, []⟩
      (issuing ++ [.move 1 .step, .move 2 .step, .move 1 .step, .move 2 .step])).any
        (fun c => c.threads.countP (Thread.accepts "n") = 2) = true)
  have := hclaim c hc.reachable "n"
  simp only [decide_eq_true_eq] at hf
  omega

/-- The second call reads after the first has marked, and is refused. -/
theorem nonce_single_use_in_turn :
    ∃ c, (pool defaults).system.runOk readsAlone ⟨initial, []⟩
        (issuing ++ [.move 1 .step, .move 1 .step, .move 2 .step]) = some c ∧
      (∀ n, c.threads.countP (Thread.accepts n) ≤ 1) ∧
        ∀ v now t, .validate v ∈ c.threads → v.pc = .log now t ∨ v.pc = .accepted now t →
          c.shared.issued v.presented = some t ∧ now - t ≤ defaults.lifetime := by
  obtain ⟨c, hc⟩ := Option.isSome_iff_exists.mp
    (by decide : ((pool defaults).system.runOk readsAlone ⟨initial, []⟩
      (issuing ++ [.move 1 .step, .move 1 .step, .move 2 .step])).isSome = true)
  exact ⟨c, hc, nonce_single_use (System.reach_of_runOk (.init empty_init) hc)⟩

end Nonce

end HaAddons.Bridge
