import HaAddons.Provider.Addon

/-!
# The requests of one Delete

Delete fetches a nonce and sends it with the uninstall request. Where the Bridge says that the nonce
is stale, it does both once more. What the Bridge answers may be anything.

* `Attempted` — the runs of one attempt: a nonce is refused, or an uninstall request goes out
  with it.
* `delete_nonceCorrect` — whatever the Bridge answers, an uninstall request carries the nonce that
  came just before it, a second one follows a stale nonce only, and Delete succeeds exactly if the
  last answer says that the add-on is gone.
-/

namespace HaAddons.Provider

open Dialogue

/-! ## Exchanges -/

/-- A request with what came back. -/
abbrev Exchange := Σ i : Request, Answer i

def Exchange.isUninstall : Exchange → Bool
  | ⟨.uninstall _ _, _⟩ => true
  | _ => false

/-- The answer to an uninstall request that says that the add-on is gone. -/
def Gone (r : Response) : Prop := r.status = 204 ∨ r.status = 404

/-- The error of the answer says that the nonce expired or was used. -/
def StaleNonce (r : Response) : Prop :=
  (errorResponse r).errorCode = "nonce_expired" ∨ (errorResponse r).errorCode = "nonce_used"

/-- Every uninstall request carries the nonce of the answer just before it. -/
def Fresh (log : List Exchange) : Prop :=
  ∀ (j : ℕ) (slug nonce : String) (o : Except String Response),
    log[j]? = some ⟨.uninstall slug nonce, o⟩ →
      ∃ i r, j = i + 1 ∧ log[i]? = some ⟨.nonce, .ok r⟩ ∧ nonceResult r = .ok nonce

/-- An uninstall request before another one was answered with a stale nonce. -/
def RetriesStale (log : List Exchange) : Prop :=
  ∀ (i j : ℕ) (slug slug' nonce nonce' : String) (o o' : Except String Response), i < j →
    log[i]? = some ⟨.uninstall slug nonce, o⟩ → log[j]? = some ⟨.uninstall slug' nonce', o'⟩ →
      ∃ r, o = .ok r ∧ ¬ Gone r ∧ StaleNonce r

/-- The last request is an uninstall request, and the add-on is gone. -/
def EndsGone (log : List Exchange) : Prop :=
  ∃ slug nonce r, log.getLast? = some ⟨.uninstall slug nonce, .ok r⟩ ∧ Gone r

/-- What the requests of one Delete are to one another and to its outcome. -/
structure NonceCorrect (log : List Exchange) (out : Outcome) : Prop where
  bounded : (log.filter Exchange.isUninstall).length ≤ 2
  fresh : Fresh log
  retried : RetriesStale log
  succeeds : out.hasError = false ↔ EndsGone log

/-! ## One request -/

theorem logs_call {α : Type} {req : Request} {result : Response → Except Error α}
    {log : List Exchange} {a : Except Error α} (h : (call req result).Logs log a) :
    ∃ o : Answer req, log = [⟨req, o⟩] ∧ a = (received req o).bind result := by
  obtain ⟨o, rest, rfl, hk⟩ := logs_ask.mp h
  obtain ⟨rfl, rfl⟩ := logs_done.mp hk
  exact ⟨o, rfl, rfl⟩

/-- The result of an uninstall request. -/
def uninstalled (slug nonce : String) (o : Except String Response) : Except Error Unit :=
  (received (.uninstall slug nonce) o).bind (uninstallResult slug nonce)

theorem uninstalled_eq_ok {slug nonce : String} {o : Except String Response} :
    uninstalled slug nonce o = .ok () ↔ ∃ r, o = .ok r ∧ Gone r := by
  cases o with
  | error err =>
    constructor
    · intro h
      cases h
    · rintro ⟨r, hr, -⟩
      cases hr
  | ok r =>
    show uninstallResult slug nonce r = .ok () ↔ _
    unfold uninstallResult
    by_cases hr : r.status = 204 ∨ r.status = 404
    · rw [if_pos hr]
      exact ⟨fun _ => ⟨r, rfl, hr⟩, fun _ => rfl⟩
    · rw [if_neg hr]
      constructor
      · intro h
        cases h
      · rintro ⟨r', hr', hgone⟩
        cases hr'
        exact absurd hgone hr

theorem stale_of_uninstalled {slug nonce : String} {o : Except String Response} {e : Error}
    (h : uninstalled slug nonce o = .error e) (he : e.staleNonce = true) :
    ∃ r, o = .ok r ∧ ¬ Gone r ∧ StaleNonce r := by
  cases o with
  | error err =>
    cases h
    cases he
  | ok r =>
    change uninstallResult slug nonce r = .error e at h
    unfold uninstallResult at h
    by_cases hr : r.status = 204 ∨ r.status = 404
    · rw [if_pos hr] at h
      cases h
    · rw [if_neg hr] at h
      cases h
      refine ⟨r, rfl, hr, ?_⟩
      simpa [Error.staleNonce, decodeError, StaleNonce] using he

/-! ## One attempt -/

/-- A nonce, and the uninstall request with it. The outer error is that of the nonce. -/
def attempt (slug : String) : Action (Except Error (Except Error Unit)) :=
  postAuthNonce.bind fun
    | .error e => .done (.error e)
    | .ok nonce => (postAddonUninstall slug nonce).bind fun res => .done (.ok res)

/-- The runs of an attempt. -/
inductive Attempted (slug : String) :
    List Exchange → Except Error (Except Error Unit) → Prop
  | refused (o : Answer .nonce) (e : Error) : Attempted slug [⟨.nonce, o⟩] (.error e)
  | empty (o : Answer .nonce) (e : Error) (he : e.staleNonce = false) :
      Attempted slug [⟨.nonce, o⟩] (.ok (.error e))
  | sent (r : Response) (nonce : String) (hr : nonceResult r = .ok nonce)
      (o : Answer (.uninstall slug nonce)) :
      Attempted slug [⟨.nonce, .ok r⟩, ⟨.uninstall slug nonce, o⟩] (.ok (uninstalled slug nonce o))

theorem logs_attempt {slug : String} (hslug : slug ≠ "") {log : List Exchange}
    {res : Except Error (Except Error Unit)} (h : (attempt slug).Logs log res) :
    Attempted slug log res := by
  obtain ⟨first, a, rest, hnonce, hrest, rfl⟩ := logs_bind.mp h
  obtain ⟨o, rfl, rfl⟩ := logs_call hnonce
  cases o with
  | error err =>
    obtain ⟨rfl, rfl⟩ := logs_done.mp hrest
    exact .refused _ _
  | ok r =>
    change Logs (match nonceResult r with | .error e => _ | .ok nonce => _) rest res at hrest
    cases hr : nonceResult r with
    | error e =>
      rw [hr] at hrest
      obtain ⟨rfl, rfl⟩ := logs_done.mp hrest
      exact .refused _ _
    | ok nonce =>
      rw [hr] at hrest
      obtain ⟨second, b, tail, hcall, hdone, rfl⟩ := logs_bind.mp hrest
      obtain ⟨rfl, rfl⟩ := logs_done.mp hdone
      rw [postAddonUninstall, requireSlug, if_neg hslug] at hcall
      by_cases hempty : nonce = ""
      · -- an empty nonce is an error of the client, before the request
        rw [if_pos hempty] at hcall
        obtain ⟨rfl, rfl⟩ := logs_done.mp hcall
        exact .empty _ _ rfl
      · rw [if_neg hempty] at hcall
        obtain ⟨o, rfl, rfl⟩ := logs_call hcall
        exact .sent r nonce hr o

/-! ## Delete -/

/-- What is left of an attempt that is not made again. -/
def settle (prior : Object) : Except Error (Except Error Unit) → Outcome
  | .ok (.ok ()) => ⟨[], none⟩
  | .ok (.error e) | .error e => failed (some prior) e

/-- The attempt is made again. -/
def Retries (res : Except Error (Except Error Unit)) : Prop :=
  ∃ e, res = .ok (.error e) ∧ e.staleNonce = true

theorem hasError_settle (prior : Object) (res : Except Error (Except Error Unit)) :
    (settle prior res).hasError = false ↔ res = .ok (.ok ()) := by
  match res with
  | .ok (.ok ()) => exact ⟨fun _ => rfl, fun _ => rfl⟩
  | .ok (.error e) | .error e =>
    constructor <;>
    · intro h
      cases h

/-- What follows the first attempt. -/
def afterAttempt (prior : Object) (slug : String) :
    Except Error (Except Error Unit) → Action Outcome
  | .error e => .done (failed (some prior) e)
  | .ok (.ok ()) => .done ⟨[], none⟩
  | .ok (.error e) =>
    if e.staleNonce then (attempt slug).bind fun res => .done (settle prior res)
    else .done (failed (some prior) e)

/-- Delete is one attempt, or two where the first met a stale nonce. -/
theorem logs_deleteSlug {prior : Object} {slug : String} (hslug : slug ≠ "") {log : List Exchange}
    {out : Outcome} (h : (deleteSlug prior slug).Logs log out) :
    (∃ res, Attempted slug log res ∧ ¬ Retries res ∧ out = settle prior res) ∨
      ∃ first res rest res', Attempted slug first res ∧ Retries res ∧ Attempted slug rest res' ∧
        log = first ++ rest ∧ out = settle prior res' := by
  have heq : deleteSlug prior slug = (attempt slug).bind (afterAttempt prior slug) := by
    unfold deleteSlug attempt
    simp only [bind_eq, bind_assoc, pure_eq]
    congr 1
    funext a
    cases a with
    | error e => rfl
    | ok nonce =>
      simp only [bind_assoc]
      congr 1
      funext res
      cases res with
      | ok _ => rfl
      | error e =>
        simp only [Dialogue.bind, afterAttempt, attempt, bind_assoc]
        congr 1
        congr 1
        funext a
        cases a with
        | error e => rfl
        | ok nonce =>
          simp only [bind_assoc]
          congr 1
          funext res
          cases res <;> rfl
  rw [heq] at h
  obtain ⟨first, res, rest, hfirst, hrest, rfl⟩ := logs_bind.mp h
  have hatt := logs_attempt hslug hfirst
  rcases res with e | e | u
  · obtain ⟨rfl, rfl⟩ := logs_done.mp hrest
    rw [List.append_nil]
    refine .inl ⟨_, hatt, ?_, rfl⟩
    rintro ⟨_, hres, -⟩
    cases hres
  · by_cases he : e.staleNonce = true
    · simp only [afterAttempt, if_pos he] at hrest
      obtain ⟨second, res', tail, hsecond, hdone, rfl⟩ := logs_bind.mp hrest
      obtain ⟨rfl, rfl⟩ := logs_done.mp hdone
      rw [List.append_nil]
      exact .inr ⟨first, _, second, res', hatt, ⟨e, rfl, he⟩, logs_attempt hslug hsecond, rfl, rfl⟩
    · simp only [afterAttempt, if_neg he] at hrest
      obtain ⟨rfl, rfl⟩ := logs_done.mp hrest
      rw [List.append_nil]
      refine .inl ⟨_, hatt, ?_, rfl⟩
      rintro ⟨_, hres, hstale⟩
      cases hres
      exact he hstale
  · obtain ⟨rfl, rfl⟩ := logs_done.mp hrest
    rw [List.append_nil]
    refine .inl ⟨_, hatt, ?_, rfl⟩
    rintro ⟨_, hres, -⟩
    cases hres

/-! ## What the requests are to one another -/

section Attempts

variable {slug slug' nonce : String} {log : List Exchange}
  {res : Except Error (Except Error Unit)}

/-- The one uninstall request of an attempt. -/
theorem Attempted.eq_sent (h : Attempted slug log res) {i : ℕ} {o : Except String Response}
    (hi : log[i]? = some ⟨.uninstall slug' nonce, o⟩) :
    i = 1 ∧ slug' = slug ∧ (∃ r, log[0]? = some ⟨.nonce, .ok r⟩ ∧ nonceResult r = .ok nonce) ∧
      res = .ok (uninstalled slug nonce o) := by
  cases h with
  | refused | empty =>
    cases i with
    | zero => cases hi
    | succ i => cases hi
  | sent r n hr o' =>
    match i with
    | 0 => cases hi
    | 1 =>
      cases hi
      exact ⟨rfl, rfl, ⟨r, rfl, hr⟩, rfl⟩
    | i + 2 => cases hi

theorem Attempted.bounded (h : Attempted slug log res) :
    (log.filter Exchange.isUninstall).length ≤ 1 := by
  cases h with
  | refused | empty => exact Nat.zero_le 1
  | sent => exact le_refl 1

theorem Attempted.fresh (h : Attempted slug log res) : Fresh log := by
  intro j slug' nonce o hj
  obtain ⟨rfl, -, ⟨r, hzero, hr⟩, -⟩ := h.eq_sent hj
  exact ⟨0, r, rfl, hzero, hr⟩

theorem Attempted.endsGone_iff (h : Attempted slug log res) :
    EndsGone log ↔ res = .ok (.ok ()) := by
  cases h with
  | refused | empty =>
    constructor
    · rintro ⟨_, _, _, hlast, -⟩
      cases hlast
    · intro hres
      cases hres
  | sent r n hr o =>
    rw [Except.ok.injEq, uninstalled_eq_ok]
    constructor
    · rintro ⟨_, _, r', hlast, hgone⟩
      cases hlast
      exact ⟨r', rfl, hgone⟩
    · rintro ⟨r', rfl, hgone⟩
      exact ⟨slug, n, r', rfl, hgone⟩

theorem Attempted.ne_nil (h : Attempted slug log res) : log ≠ [] := by
  cases h <;> exact List.cons_ne_nil _ _

theorem Fresh.append {first rest : List Exchange} (h : Fresh first) (h' : Fresh rest) :
    Fresh (first ++ rest) := by
  intro j slug nonce o hj
  rcases Nat.lt_or_ge j first.length with hlt | hge
  · rw [List.getElem?_append_left hlt] at hj
    obtain ⟨i, r, rfl, hi, hr⟩ := h j slug nonce o hj
    refine ⟨i, r, rfl, ?_, hr⟩
    rw [List.getElem?_append_left (by omega), hi]
  · rw [List.getElem?_append_right hge] at hj
    obtain ⟨i, r, hji, hi, hr⟩ := h' _ slug nonce o hj
    refine ⟨first.length + i, r, by omega, ?_, hr⟩
    rw [List.getElem?_append_right (by omega), Nat.add_sub_cancel_left, hi]

/-- An attempt after one that met a stale nonce. -/
theorem retriesStale_append {first rest : List Exchange} {res' : Except Error (Except Error Unit)}
    (h : Attempted slug first res) (hres : Retries res) (h' : Attempted slug rest res') :
    RetriesStale (first ++ rest) := by
  intro i j slug₁ slug₂ n₁ n₂ o₁ o₂ hij hi hj
  rcases Nat.lt_or_ge i first.length with hlt | hge
  · rw [List.getElem?_append_left hlt] at hi
    obtain ⟨-, -, -, hsent⟩ := h.eq_sent hi
    obtain ⟨e, he, hstale⟩ := hres
    rw [hsent, Except.ok.injEq] at he
    exact stale_of_uninstalled he hstale
  · -- two uninstall requests of the second attempt
    rw [List.getElem?_append_right hge] at hi
    rw [List.getElem?_append_right (by omega)] at hj
    have hone := (h'.eq_sent hi).1
    have htwo := (h'.eq_sent hj).1
    omega

theorem Attempted.nonceCorrect {prior : Object} (h : Attempted slug log res) :
    NonceCorrect log (settle prior res) where
  bounded := h.bounded.trans (by decide)
  fresh := h.fresh
  retried := by
    intro i j slug₁ slug₂ n₁ n₂ o₁ o₂ hij hi hj
    have hone := (h.eq_sent hi).1
    have htwo := (h.eq_sent hj).1
    omega
  succeeds := by rw [hasError_settle, h.endsGone_iff]

theorem nonceCorrect_append {prior : Object} {first rest : List Exchange}
    {res' : Except Error (Except Error Unit)} (h : Attempted slug first res) (hres : Retries res)
    (h' : Attempted slug rest res') : NonceCorrect (first ++ rest) (settle prior res') where
  bounded := by
    rw [List.filter_append, List.length_append]
    exact Nat.add_le_add h.bounded h'.bounded
  fresh := h.fresh.append h'.fresh
  retried := retriesStale_append h hres h'
  succeeds := by
    rw [hasError_settle, ← h'.endsGone_iff]
    unfold EndsGone
    rw [List.getLast?_append_of_ne_nil _ h'.ne_nil]

end Attempts

/-- Without a request there is an error. -/
theorem nonceCorrect_failed {out : Outcome} (h : out.hasError = true) : NonceCorrect [] out where
  bounded := Nat.zero_le _
  fresh := fun _ _ _ _ hj => nomatch hj
  retried := fun _ _ _ _ _ _ _ _ _ hi => nomatch hi
  succeeds := by
    rw [h]
    constructor
    · intro hfalse
      cases hfalse
    · rintro ⟨_, _, _, hlast, -⟩
      cases hlast

/-- **Delete is nonce-correct.** Whatever the Bridge answers to the requests of one Delete. -/
theorem delete_nonceCorrect (prior : Object) (log : List Exchange) (out : Outcome)
    (h : (delete prior).Logs log out) : NonceCorrect log out := by
  unfold delete at h
  split at h
  · obtain ⟨rfl, rfl⟩ := logs_done.mp h
    exact nonceCorrect_failed rfl
  · rename_i state _
    by_cases hslug : state.slug.valueString = ""
    · rw [if_pos hslug] at h
      obtain ⟨rfl, rfl⟩ := logs_done.mp h
      exact nonceCorrect_failed rfl
    · rw [if_neg hslug] at h
      rcases logs_deleteSlug hslug h with ⟨res, hres, -, rfl⟩ |
        ⟨first, res, rest, res', hfirst, hres, hrest, rfl, rfl⟩
      · exact hres.nonceCorrect
      · exact nonceCorrect_append hfirst hres hrest

/-- The state of an add-on. -/
def installedApp : Object where
  slug := .known "app"
  repository := .null
  url := .null
  options := .null
  start := .null
  boot := .null
  version := .null
  state := .null
  started := .null
  hostname := .null
  dns := .null
  ingressURL := .null
  ingressEntry := .null
  webUIURL := .null

def nonceAnswer (nonce : String) : Except String Response :=
  .ok ⟨200, .json (.obj [("nonce", .str nonce)])⟩

/-- The first nonce expires, the second one is used. -/
def retriedDelete : List Exchange :=
  [⟨.nonce, nonceAnswer "n1"⟩,
    ⟨.uninstall "app" "n1", .ok ⟨409, .json (.obj [("error_code", .str "nonce_expired")])⟩⟩,
    ⟨.nonce, nonceAnswer "n2"⟩, ⟨.uninstall "app" "n2", .ok ⟨204, .empty⟩⟩]

theorem delete_retried :
    (delete installedApp).Logs retriedDelete ⟨[], none⟩ ∧ NonceCorrect retriedDelete ⟨[], none⟩ := by
  have h : (delete installedApp).Logs retriedDelete ⟨[], none⟩ := .ask (.ask (.ask (.ask (.done _))))
  exact ⟨h, delete_nonceCorrect installedApp retriedDelete ⟨[], none⟩ h⟩

end HaAddons.Provider
