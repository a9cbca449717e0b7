import HaAddons.Cups.Outbox
import Mathlib.Data.List.Chain

/-!
# Attempts and their outcome

What becomes of a document whose name the queue gives only once. The worker may be killed and every
file operation may fail; in a clean run neither happens.

* `tries` — the requests for a document, the latest first. `refusals` counts the refused ones.
* `Books` — the invariant: each document is in one stage, under its name and with its content, and
  what its stage and its retry state say agrees with the requests.
* `Calm` — between two documents of a clean run, each that waits in `processing/` has its state.
* `deliveries_accounted` — a document in `sent/` was accepted, one in `failed/` was refused as often as
  the options ask.
* `attempts_spaced` — in a clean run nothing is sent again after it was accepted, the number of
  attempts is that of the options, and between two of them lies the delay.
-/

namespace HaAddons.Outbox

open HaAddons.Lib.Py (Text strip)

variable {φ : Type} {py : Python φ} {cfg : Config} {pid : ℕ} {clean : Bool} {w w' : World φ}

/-! ## Requests -/

/-- The requests for a document, the latest first. -/
def tries (w : World φ) (x : Text) : List (Post φ) := w.posts.filter (·.name = x)

/-- None of the requests was accepted. -/
def Refused (ts : List (Post φ)) : Prop := ∀ p ∈ ts, accepted p.answer = false

def refused (ts : List (Post φ)) : ℕ := ts.countP fun p => !accepted p.answer

def refusals (w : World φ) (x : Text) : ℕ := refused (tries w x)

/-- One request after the other, the latest first, with at least the delay between them. -/
def Spaced (cfg : Config) (ts : List (Post φ)) : Prop :=
  ts.IsChain fun p q => q.time + cfg.delay ≤ p.time

/-- The document was accepted; in a clean run by the last request, and by no other. -/
def Delivered (cfg : Config) (clean : Bool) (ts : List (Post φ)) : Prop :=
  (∃ p ∈ ts, accepted p.answer = true) ∧
    (clean = true → ∃ p rest, ts = p :: rest ∧ accepted p.answer = true ∧ Refused rest ∧
      (rest.length : ℤ) < max 1 cfg.attempts)

/-- The document was refused often enough; in a clean run exactly as often as the options ask. -/
def GivenUp (cfg : Config) (clean : Bool) (ts : List (Post φ)) : Prop :=
  max 1 cfg.attempts ≤ refused ts ∧
    (clean = true → Refused ts ∧ (ts.length : ℤ) = max 1 cfg.attempts)

theorem tries_cons {p : Post φ} (ps : List (Post φ)) (x : Text) :
    tries { w with posts := p :: ps } x =
      if p.name = x then p :: tries { w with posts := ps } x
      else tries { w with posts := ps } x := by
  simp only [tries, List.filter_cons, decide_eq_true_eq]

theorem tries_of_posts (h : w'.posts = w.posts) (x : Text) : tries w' x = tries w x := by
  rw [tries, tries, h]

theorem refused_cons (p : Post φ) (ts : List (Post φ)) :
    refused (p :: ts) = refused ts + if accepted p.answer then 0 else 1 := by
  cases h : accepted p.answer <;> simp [refused, h]

/-! ## Names -/

/-- The name of a document's retry state. -/
def retryName (x : Text) : Text := stem x ++ retryStateSuffix

/-- The sidecar of such a document has the name of a retry state. -/
def RetryLike (x : Text) : Prop := ['.', 'r', 'e', 't', 'r', 'y'] <:+ stem x

theorem retryName_inj {x y : Text} (hx : Proper x) (hy : Proper y) (h : retryName x = retryName y) :
    x = y := by
  have hstem : stem x = stem y := List.append_cancel_right h
  rw [(stem_proper hx).2.2, (stem_proper hy).2.2, hstem]

theorem sidecar_ne_retryName {x : Text} (hx : ¬ RetryLike x) (y : Text) :
    stem x ++ sidecarSuffix ≠ retryName y := by
  intro h
  have hsplit : stem x ++ sidecarSuffix =
      (stem y ++ ['.', 'r', 'e', 't', 'r', 'y']) ++ sidecarSuffix := by
    rw [h, List.append_assoc]
    rfl
  exact hx ⟨stem y, (List.append_cancel_right hsplit).symm⟩

theorem tmp_ne_retryName (x y : Text) : retryName x ++ tmpSuffix ≠ retryName y := by
  intro h
  have hlast := congrArg List.getLast? h
  simp [retryName, tmpSuffix, retryStateSuffix] at hlast

@[simp] theorem isPdf_retryName (x : Text) : isPdf (retryName x) = false := isPdf_retryState _

/-- A name that the queue gives to one document only. -/
def Own (x : Text) : Prop := Proper x ∧ ¬ RetryLike x

/-! ## The books -/

/-- What the worker writes into the retry state of a document. -/
def Recorded (py : Python φ) (cfg : Config) (w : World φ) (x : Text) (c : Content φ) : Prop :=
  ∃ n t, c = .json (retryState n (py.isoformat t)) ∧ 1 ≤ n ∧ n < cfg.attempts ∧ n ≤ refusals w x

structure Books (py : Python φ) (cfg : Config) (clean : Bool) (w : World φ) : Prop where
  once : (w.arrived.map Prod.fst).Nodup
  own : ∀ e ∈ w.arrived, Own e.1
  content : ∀ p c, isPdf p.name = true → w.files.get? p = some c → (p.name, c) ∈ w.arrived
  unique : ∀ x s s', isPdf x = true → w.files.get? ⟨s, x⟩ ≠ none → w.files.get? ⟨s', x⟩ ≠ none →
    s = s'
  present : ∀ e ∈ w.arrived, ∃ s, w.files.get? ⟨s, e.1⟩ ≠ none
  posted : ∀ p ∈ w.posts, (p.name, p.document) ∈ w.arrived ∧
    w.files.get? ⟨.incoming, p.name⟩ = none ∧ p.time ≤ w.now
  state : ∀ x, Proper x → ∀ c, w.files.get? ⟨.processing, retryName x⟩ = some c →
    Recorded py cfg w x c
  sent : ∀ x, isPdf x = true → w.files.get? ⟨.sent, x⟩ ≠ none → Delivered cfg clean (tries w x)
  failed : ∀ x, isPdf x = true → w.files.get? ⟨.failed, x⟩ ≠ none → GivenUp cfg clean (tries w x)
  spaced : clean = true → ∀ x, Spaced cfg (tries w x)

namespace Books

/-- The content of a document is that with which it came. -/
theorem content_inj (h : Books py cfg clean w) {x : Text} {c c' : Content φ}
    (hc : (x, c) ∈ w.arrived) (hc' : (x, c') ∈ w.arrived) : c = c' :=
  congrArg Prod.snd (List.inj_on_of_nodup_map h.once hc hc' rfl)

theorem mem_arrived (h : Books py cfg clean w) {p : Place} (hpdf : isPdf p.name = true)
    (hp : w.files.get? p ≠ none) : ∃ c, (p.name, c) ∈ w.arrived := by
  obtain ⟨c, hc⟩ := Option.ne_none_iff_exists'.mp hp
  exact ⟨c, h.content p c hpdf hc⟩

theorem own_of (h : Books py cfg clean w) {p : Place} (hpdf : isPdf p.name = true)
    (hp : w.files.get? p ≠ none) : Own p.name :=
  have ⟨_, hc⟩ := h.mem_arrived hpdf hp
  h.own _ hc

/-- A document that waits in `incoming/` was never sent. -/
theorem tries_incoming (h : Books py cfg clean w) {x : Text}
    (hx : w.files.get? ⟨.incoming, x⟩ ≠ none) : tries w x = [] := by
  refine List.filter_eq_nil_iff.mpr fun p hp hname => hx ?_
  rw [← of_decide_eq_true hname]
  exact (h.posted p hp).2.1

/-- What leaves the PDFs and the requests alone keeps the books, if every retry state is one that is
backed by them. -/
theorem frame (h : Books py cfg clean w)
    (hpdf : ∀ p, isPdf p.name = true → w'.files.get? p = w.files.get? p)
    (hstate : ∀ x, Proper x → ∀ c, w'.files.get? ⟨.processing, retryName x⟩ = some c →
      Recorded py cfg w x c)
    (harrived : w'.arrived = w.arrived) (hposts : w'.posts = w.posts) (hnow : w.now ≤ w'.now) :
    Books py cfg clean w' where
  once := by
    rw [harrived]
    exact h.once
  own := by
    rw [harrived]
    exact h.own
  content p c hp hc := by
    rw [harrived]
    exact h.content p c hp (hpdf p hp ▸ hc)
  unique x s s' hx hs hs' :=
    h.unique x s s' hx (hpdf ⟨s, x⟩ hx ▸ hs) (hpdf ⟨s', x⟩ hx ▸ hs')
  present e he := by
    rw [harrived] at he
    obtain ⟨s, hs⟩ := h.present e he
    exact ⟨s, by rwa [hpdf ⟨s, e.1⟩ (h.own e he).1.1]⟩
  posted p hp := by
    rw [hposts] at hp
    obtain ⟨harr, hin, htime⟩ := h.posted p hp
    rw [harrived, hpdf ⟨.incoming, p.name⟩ (h.own _ harr).1.1]
    exact ⟨harr, hin, htime.trans hnow⟩
  state x hx c hc := by
    obtain ⟨n, t, hct, hn⟩ := hstate x hx c hc
    refine ⟨n, t, hct, ?_⟩
    rw [refusals, tries_of_posts hposts]
    exact hn
  sent x hx hs := by
    rw [tries_of_posts hposts]
    exact h.sent x hx (hpdf ⟨.sent, x⟩ hx ▸ hs)
  failed x hx hs := by
    rw [tries_of_posts hposts]
    exact h.failed x hx (hpdf ⟨.failed, x⟩ hx ▸ hs)
  spaced hclean x := by
    rw [tries_of_posts hposts]
    exact h.spaced hclean x

/-- A document goes to another stage. -/
theorem move (h : Books py cfg clean w) {x : Text} {s s' : Stage} {c : Content φ}
    (hx : isPdf x = true) (hc : w.files.get? ⟨s, x⟩ = some c) (hin : s' ≠ .incoming)
    (hsent : s' = .sent → Delivered cfg clean (tries w x))
    (hfailed : s' = .failed → GivenUp cfg clean (tries w x)) (lost : List (Place × Content φ)) :
    Books py cfg clean { w with
      files := (w.files.erase ⟨s, x⟩).insert ⟨s', x⟩ c, overwritten := lost } := by
  have hget : ∀ p, ((w.files.erase ⟨s, x⟩).insert ⟨s', x⟩ c).get? p =
      if p = ⟨s', x⟩ then some c else if p = ⟨s, x⟩ then none else w.files.get? p := by
    intro p
    rw [Dict.get?_insert, Dict.get?_erase]
  have hstage : ∀ s₁, ((w.files.erase ⟨s, x⟩).insert ⟨s', x⟩ c).get? ⟨s₁, x⟩ ≠ none → s₁ = s' := by
    intro s₁ hs₁
    rw [hget] at hs₁
    by_contra hne₁
    rw [if_neg (by simpa using hne₁)] at hs₁
    split at hs₁
    · exact hs₁ rfl
    · rename_i hne₂
      exact hne₂ (by rw [h.unique x s₁ s hx hs₁ (by rw [hc]; simp)])
  have hother : ∀ p : Place, p.name ≠ x →
      ((w.files.erase ⟨s, x⟩).insert ⟨s', x⟩ c).get? p = w.files.get? p := by
    intro p hp
    have h₁ : p ≠ ⟨s', x⟩ := fun he => hp (by rw [he])
    have h₂ : p ≠ ⟨s, x⟩ := fun he => hp (by rw [he])
    rw [hget, if_neg h₁, if_neg h₂]
  refine ⟨h.once, h.own, fun p c' hp hc' => ?_, fun y s₁ s₂ hy h₁ h₂ => ?_, fun e he => ?_,
    fun p hp => ?_, fun y hy c' hc' => ?_, fun y hy hs => ?_, fun y hy hs => ?_, h.spaced⟩
  · dsimp only at hc'
    rw [hget] at hc'
    split at hc'
    · rename_i hp'
      obtain rfl := Option.some.inj hc'
      rw [hp']
      exact h.content ⟨s, x⟩ _ hx hc
    · split at hc'
      · cases hc'
      · exact h.content p c' hp hc'
  · by_cases hyx : y = x
    · subst hyx
      exact (hstage s₁ h₁).trans (hstage s₂ h₂).symm
    · dsimp only at h₁ h₂
      rw [hother ⟨s₁, y⟩ hyx] at h₁
      rw [hother ⟨s₂, y⟩ hyx] at h₂
      exact h.unique y s₁ s₂ hy h₁ h₂
  · by_cases hex : e.1 = x
    · exact ⟨s', by dsimp only; rw [hget, hex, if_pos rfl]; simp⟩
    · obtain ⟨s₁, hs₁⟩ := h.present e he
      exact ⟨s₁, by rwa [hother ⟨s₁, e.1⟩ hex]⟩
  · obtain ⟨harr, hnone, htime⟩ := h.posted p hp
    refine ⟨harr, ?_, htime⟩
    by_cases hpx : p.name = x
    · by_contra hsome
      rw [hpx] at hsome
      exact hin (hstage .incoming hsome).symm
    · rw [hother ⟨.incoming, p.name⟩ hpx]
      exact hnone
  · have hyx : retryName y ≠ x := by
      intro heq
      rw [← heq, isPdf_retryName] at hx
      cases hx
    rw [hother ⟨.processing, retryName y⟩ hyx] at hc'
    exact h.state y hy c' hc'
  · by_cases hyx : y = x
    · subst hyx
      exact hsent (hstage .sent hs).symm
    · rw [hother ⟨.sent, y⟩ hyx] at hs
      exact h.sent y hy hs
  · by_cases hyx : y = x
    · subst hyx
      exact hfailed (hstage .failed hs).symm
    · rw [hother ⟨.failed, y⟩ hyx] at hs
      exact h.failed y hy hs

/-- A request for a document in `processing/`. -/
theorem post (h : Books py cfg clean w) {p : Post φ} (hpdf : isPdf p.name = true)
    (hc : w.files.get? ⟨.processing, p.name⟩ = some p.document) (htime : p.time = w.now)
    (hspaced : clean = true → ∀ q ∈ tries w p.name, q.time + cfg.delay ≤ w.now) :
    Books py cfg clean { w with posts := p :: w.posts } := by
  have hproc : w.files.get? ⟨.processing, p.name⟩ ≠ none := by
    rw [hc]
    simp
  have htries : ∀ y, y ≠ p.name → tries { w with posts := p :: w.posts } y = tries w y := by
    intro y hy
    rw [tries_cons, if_neg (Ne.symm hy)]
  have hmono : ∀ y, refusals w y ≤ refusals { w with posts := p :: w.posts } y := by
    intro y
    rw [refusals, refusals, tries_cons]
    split
    · rw [refused_cons]
      exact Nat.le_add_right _ _
    · exact le_refl _
  have hother : ∀ y s, isPdf y = true → s ≠ .processing → w.files.get? ⟨s, y⟩ ≠ none → y ≠ p.name := by
    rintro y s hy hs hsome rfl
    exact hs (h.unique _ _ _ hy hsome hproc)
  refine ⟨h.once, h.own, h.content, h.unique, h.present, fun q hq => ?_, fun y hy c hc' => ?_,
    fun y hy hs => ?_, fun y hy hs => ?_, fun hclean y => ?_⟩
  · rcases List.mem_cons.mp hq with rfl | hq
    · refine ⟨h.content _ _ hpdf hc, ?_, htime.le⟩
      by_contra hin
      exact hother q.name .incoming hpdf (by simp) hin rfl
    · exact h.posted q hq
  · obtain ⟨n, t, hct, h₁, h₂, h₃⟩ := h.state y hy c hc'
    exact ⟨n, t, hct, h₁, h₂, h₃.trans (Int.ofNat_le.mpr (hmono y))⟩
  · rw [htries y (hother y .sent hy (by simp) hs)]
    exact h.sent y hy hs
  · rw [htries y (hother y .failed hy (by simp) hs)]
    exact h.failed y hy hs
  · by_cases hy : y = p.name
    · subst hy
      rw [tries_cons, if_pos rfl, Spaced, List.isChain_cons]
      refine ⟨fun q hq => ?_, h.spaced hclean _⟩
      rw [htime]
      exact hspaced hclean q (List.mem_of_mem_head? hq)
    · rw [htries y hy]
      exact h.spaced hclean y

/-- The queue writes a file; a PDF has a name of its own. -/
theorem arrive {name : Text} {c : Content φ} (h : Books py cfg clean w)
    (hname : isPdf name = true → Own name ∧ name ∉ w.arrived.map Prod.fst) : Books py cfg clean (w.arrive name c) := by
  have hget : ∀ p, (w.arrive name c).files.get? p =
      if p = ⟨.incoming, name⟩ then some c else w.files.get? p := fun p =>
    Dict.get?_insert _ _ _ _
  cases hpdf : isPdf name with
  | false =>
    refine h.frame (fun p hp => ?_) (fun y hy c' hc' => ?_) ?_ rfl (le_refl _)
    · have hne : p ≠ ⟨.incoming, name⟩ := by
        rintro rfl
        rw [hpdf] at hp
        cases hp
      rw [hget, if_neg hne]
    · rw [hget, if_neg (by simp)] at hc'
      exact h.state y hy c' hc'
    · simp [World.arrive, hpdf]
  | true =>
    obtain ⟨hown, hfresh⟩ := hname hpdf
    have harrived : (w.arrive name c).arrived = (name, c) :: w.arrived := by
      simp [World.arrive, hpdf]
    have hold : ∀ e ∈ w.arrived, e.1 ≠ name := fun e he heq =>
      hfresh (heq ▸ List.mem_map_of_mem he)
    have hnew : ∀ s, w.files.get? ⟨s, name⟩ = none := by
      intro s
      by_contra hs
      obtain ⟨c', hc'⟩ := h.mem_arrived (p := ⟨s, name⟩) hpdf hs
      exact hold _ hc' rfl
    have hother : ∀ s y, y ≠ name → (w.arrive name c).files.get? ⟨s, y⟩ = w.files.get? ⟨s, y⟩ := by
      intro s y hy
      rw [hget, if_neg (by simp [hy])]
    have hstage : ∀ s, (w.arrive name c).files.get? ⟨s, name⟩ ≠ none → s = .incoming := by
      intro s hs
      by_contra hne
      rw [hget, if_neg (by simpa using hne), hnew s] at hs
      exact hs rfl
    refine ⟨?_, ?_, fun p c' hp hc' => ?_, fun y s s' hy hs hs' => ?_, ?_, fun p hp => ?_,
      fun y hy c' hc' => ?_, fun y hy hs => ?_, fun y hy hs => ?_, h.spaced⟩
    · rw [harrived]
      exact List.nodup_cons.mpr ⟨hfresh, h.once⟩
    · rw [harrived]
      exact List.forall_mem_cons.mpr ⟨hown, h.own⟩
    · rw [hget] at hc'
      rw [harrived]
      split at hc'
      · rename_i hp'
        rw [hp', Option.some.inj hc']
        exact List.mem_cons_self
      · exact List.mem_cons_of_mem _ (h.content p c' hp hc')
    · by_cases hyn : y = name
      · subst hyn
        exact (hstage s hs).trans (hstage s' hs').symm
      · rw [hother s y hyn] at hs
        rw [hother s' y hyn] at hs'
        exact h.unique y s s' hy hs hs'
    · rw [harrived]
      refine List.forall_mem_cons.mpr ⟨⟨.incoming, by rw [hget, if_pos rfl]; simp⟩, fun e he => ?_⟩
      obtain ⟨s, hs⟩ := h.present e he
      exact ⟨s, by rwa [hother s e.1 (hold e he)]⟩
    · obtain ⟨harr, hnone, htime⟩ := h.posted p hp
      rw [harrived, hother _ _ (hold _ harr)]
      exact ⟨List.mem_cons_of_mem _ harr, hnone, htime⟩
    · rw [hget, if_neg (by simp)] at hc'
      exact h.state y hy c' hc'
    · exact h.sent y hy (by rwa [hget, if_neg (by simp)] at hs)
    · exact h.failed y hy (by rwa [hget, if_neg (by simp)] at hs)

end Books

/-! ## Between two documents -/

/-- A refused document with its retry state. -/
def Waiting (py : Python φ) (cfg : Config) (w : World φ) (x : Text) (n : ℕ) (t : ℤ) : Prop :=
  w.files.get? ⟨.processing, retryName x⟩ = some (.json (retryState n (py.isoformat t))) ∧
    1 ≤ n ∧ Refused (tries w x) ∧ (tries w x).length = n ∧ ∀ p ∈ tries w x, p.time + cfg.delay ≤ t

/-- The places are those of other documents, which are still there; in a clean run each document in
`processing/` but the one in hand waits for its next attempt. -/
structure Calm (py : Python φ) (cfg : Config) (clean : Bool) (todo : List Place)
    (inHand : Option Text) (w : World φ) : Prop where
  todo : ∀ p ∈ todo, Own p.name ∧ some p.name ≠ inHand ∧ (clean = true → w.files.get? p ≠ none)
  waiting : clean = true → ∀ x, isPdf x = true → some x ≠ inHand →
    w.files.get? ⟨.processing, x⟩ ≠ none → ∃ n t, Waiting py cfg w x n t

/-- The document in hand, before an attempt that counts `n` earlier ones. -/
structure Ready (py : Python φ) (cfg : Config) (clean : Bool) (todo : List Place) (x : Text) (n : ℕ)
    (w : World φ) : Prop where
  calm : Calm py cfg clean todo (some x) w
  own : Own x
  here : clean = true → w.files.get? ⟨.processing, x⟩ ≠ none
  left : n = 0 ∨ (n : ℤ) < cfg.attempts
  le : n ≤ refusals w x
  counted : clean = true → Refused (tries w x) ∧ (tries w x).length = n ∧
    ∀ p ∈ tries w x, p.time + cfg.delay ≤ w.now

/-- The document in hand, after the attempt. -/
structure Tried (py : Python φ) (cfg : Config) (clean : Bool) (todo : List Place) (x : Text) (n : ℕ)
    (r : Bool) (w : World φ) : Prop where
  calm : Calm py cfg clean todo (some x) w
  own : Own x
  here : w.files.get? ⟨.processing, x⟩ ≠ none
  left : n = 0 ∨ (n : ℤ) < cfg.attempts
  last : ∃ p rest, tries w x = p :: rest ∧ accepted p.answer = r ∧ n ≤ refused rest ∧
    (clean = true → Refused rest ∧ rest.length = n)

/-- The document in hand has left `processing/`. -/
structure Routed (py : Python φ) (cfg : Config) (clean : Bool) (todo : List Place) (x : Text)
    (w : World φ) : Prop where
  calm : Calm py cfg clean todo (some x) w
  gone : w.files.get? ⟨.processing, x⟩ = none

section Stable

variable {todo : List Place} {x : Text} {n : ℕ} {r : Bool} {inHand : Option Text}

/-- What is done about the document in hand: PDFs, requests and the retry states of others stay. -/
structure Beside (x : Text) (w w' : World φ) : Prop where
  pdf : ∀ p, isPdf p.name = true → p.stage ≠ .incoming → w'.files.get? p = w.files.get? p
  stay : ∀ p, isPdf p.name = true → w.files.get? p ≠ none → w'.files.get? p ≠ none
  state : ∀ y, isPdf y = true → y ≠ x → w.files.get? ⟨.processing, y⟩ ≠ none →
    w'.files.get? ⟨.processing, retryName y⟩ = w.files.get? ⟨.processing, retryName y⟩
  posts : w'.posts = w.posts
  now : w.now ≤ w'.now

theorem Around.beside (h : Around w w') (x : Text) : Beside x w w' :=
  ⟨fun p _ hp => h.files p hp, fun p _ hp => h.stay p hp, fun _ _ _ _ => h.files _ (by simp),
    h.posts, h.now⟩

theorem Calm.beside (h : Calm py cfg clean todo (some x) w) (hb : Beside x w w') :
    Calm py cfg clean todo (some x) w' := by
  refine ⟨fun p hp => ?_, fun hclean y hy hne hproc => ?_⟩
  · obtain ⟨hown, hx, hsome⟩ := h.todo p hp
    exact ⟨hown, hx, fun hclean => hb.stay p hown.1.1 (hsome hclean)⟩
  · rw [hb.pdf ⟨_, y⟩ hy (by simp)] at hproc
    obtain ⟨n, t, hstate, hrest⟩ := h.waiting hclean y hy hne hproc
    refine ⟨n, t, ?_, ?_⟩
    · rw [hb.state y hy (fun heq => hne (by rw [heq])) hproc]
      exact hstate
    · rw [tries_of_posts hb.posts]
      exact hrest

theorem Calm.around (h : Calm py cfg clean todo inHand w) (ha : Around w w') :
    Calm py cfg clean todo inHand w' := by
  refine ⟨fun p hp => ?_, fun hclean y hy hne hproc => ?_⟩
  · obtain ⟨hown, hx, hsome⟩ := h.todo p hp
    exact ⟨hown, hx, fun hclean => ha.stay p (hsome hclean)⟩
  · rw [ha.files ⟨_, y⟩ (by simp)] at hproc
    obtain ⟨n, t, hstate, hrest⟩ := h.waiting hclean y hy hne hproc
    refine ⟨n, t, ?_, ?_⟩
    · rw [ha.files _ (by simp)]
      exact hstate
    · rw [tries_of_posts ha.posts]
      exact hrest

theorem Ready.beside (h : Ready py cfg clean todo x n w) (hb : Beside x w w') :
    Ready py cfg clean todo x n w' := by
  have htries := tries_of_posts hb.posts x
  refine ⟨h.calm.beside hb, h.own, fun hclean => hb.stay _ h.own.1.1 (h.here hclean), h.left, ?_,
    fun hclean => ?_⟩
  · rw [refusals, htries]
    exact h.le
  · obtain ⟨hrefused, hlength, htime⟩ := h.counted hclean
    rw [htries]
    exact ⟨hrefused, hlength, fun p hp => (htime p hp).trans hb.now⟩

theorem Tried.beside (h : Tried py cfg clean todo x n r w) (hb : Beside x w w') :
    Tried py cfg clean todo x n r w' := by
  refine ⟨h.calm.beside hb, h.own, hb.stay _ h.own.1.1 h.here, h.left, ?_⟩
  rw [tries_of_posts hb.posts x]
  exact h.last

theorem Routed.beside (h : Routed py cfg clean todo x w) (hx : isPdf x = true)
    (hb : Beside x w w') : Routed py cfg clean todo x w' :=
  ⟨h.calm.beside hb, (hb.pdf _ hx (by simp)).trans h.gone⟩

/-- A document that has left `processing/` need not be in hand. -/
theorem Routed.calm_none (h : Routed py cfg clean todo x w) : Calm py cfg clean todo none w := by
  refine ⟨fun p hp => ?_, fun hclean y hy _ hproc => h.calm.waiting hclean y hy ?_ hproc⟩
  · obtain ⟨hown, -, hsome⟩ := h.calm.todo p hp
    exact ⟨hown, by simp, hsome⟩
  · intro heq
    rw [Option.some.inj heq] at hproc
    exact hproc h.gone

end Stable

/-! ## The worker -/

/-- The script keeps the books, ends with `Q`, and raises in no clean run. -/
abbrev Accounts (py : Python φ) (cfg : Config) (clean : Bool) {α : Type} (Q : α → World φ → Prop)
    (s : Worker φ α) (w : World φ) : Prop :=
  s.Holds World.apply (fun _ _ => (!clean) = true) Around (Books py cfg clean) Q
    (fun _ _ => clean = false) w

section Worker

variable {x : Text} {n : ℕ} {todo : List Place} {A : World φ → Prop}

/-- An operation. In a clean run it has to go through. -/
theorem accounts_act {o : Op} {Q : World φ → Prop}
    (h : ∀ w', Around w w' → Books py cfg clean w' →
      (clean = true → ∃ w'', World.apply o w' = .ok w'') ∧
        ∀ w'', World.apply o w' = .ok w'' → Books py cfg clean w'' ∧ ∀ v, Around w'' v → Q v) :
    Accounts py cfg clean (fun _ => Q) (act o) w := by
  refine Script.Holds.act (fun w' w'' hw hI ha => ?_) fun w' e hw hI he v _ _ => ?_
  · obtain ⟨hbooks, hQ⟩ := (h w' hw hI).2 w'' ha
    exact ⟨hbooks, fun v hv _ => hQ v hv⟩
  · rcases he with he | he
    · simpa using he
    · by_contra hclean
      obtain ⟨w'', ha⟩ := (h w' hw hI).1 (by simpa using hclean)
      rw [he] at ha
      cases ha

theorem accounts_whenThere {p : Place} {s : Worker φ Unit}
    (hs : ∀ w', Around w w' → Books py cfg clean w' → w'.files.get? p ≠ none →
      Accounts py cfg clean (fun _ => A) s w')
    (hA : ∀ w', Around w w' → A w') : Accounts py cfg clean (fun _ => A) (whenThere p s) w := by
  refine Script.Holds.get fun w₁ h₁ hI₁ => ?_
  split
  · rename_i hsome
    exact hs w₁ h₁ hI₁ (Option.isSome_iff_ne_none.mp hsome)
  · exact fun w₂ h₂ _ => hA w₂ (Script.Relies.trans h₁ h₂)

/-- A file that is there can be moved. -/
theorem exists_replace {src : Place} (h : w.files.get? src ≠ none) (dst : Place) :
    ∃ w', World.apply (.replace src dst) w = .ok w' := by
  obtain ⟨c, hc⟩ := Option.ne_none_iff_exists'.mp h
  simp only [World.apply, hc]
  split
  · exact ⟨_, rfl⟩
  · exact ⟨_, rfl⟩

/-- Files beside the PDFs and the retry states of others. -/
theorem beside_files (files : Dict Place (Content φ)) (lost : List (Place × Content φ))
    (h : Books py cfg clean w)
    (hpdf : ∀ p, isPdf p.name = true → files.get? p = w.files.get? p)
    (hothers : ∀ y, Proper y → y ≠ x →
      files.get? ⟨.processing, retryName y⟩ = w.files.get? ⟨.processing, retryName y⟩)
    (hown : ∀ c, files.get? ⟨.processing, retryName x⟩ = some c → Recorded py cfg w x c) :
    Books py cfg clean { w with files := files, overwritten := lost } ∧
      Beside x w { w with files := files, overwritten := lost } := by
  constructor
  · refine h.frame hpdf (fun y hy c hc => ?_) rfl rfl (le_refl _)
    by_cases hyx : y = x
    · subst hyx
      exact hown c hc
    · dsimp only at hc
      rw [hothers y hy hyx] at hc
      exact h.state y hy c hc
  · refine ⟨fun p hp _ => hpdf p hp, fun p hp hsome => ?_, fun y hy hyx hproc => ?_, rfl, le_refl _⟩
    · dsimp only
      rwa [hpdf p hp]
    · exact hothers y (h.own_of (p := ⟨.processing, y⟩) hy hproc).1 hyx

/-- A file of the document in hand is deleted: it is no PDF, and not the retry state of another. -/
theorem accounts_unlink {p : Place} (hp : isPdf p.name = false) (hstage : p.stage = .processing)
    (hne : ∀ y, Proper y → y ≠ x → p.name ≠ retryName y)
    (hstable : ∀ w w', A w → Beside x w w' → A w') (hx : Proper x) (hA : A w) :
    Accounts py cfg clean (fun _ => A) (whenThere p (act (.unlink p))) w := by
  refine accounts_whenThere (fun w₁ h₁ _ hsome => accounts_act fun w₂ h₂ hI₂ => ⟨fun _ => ?_,
    fun w₃ ha => ?_⟩) fun w₁ h₁ => hstable _ _ hA (h₁.beside x)
  · have hsome₂ : (w₂.files.get? p).isSome :=
      Option.isSome_iff_ne_none.mpr (h₂.stay p hsome)
    exact ⟨_, by simp only [World.apply]; rw [if_pos hsome₂]⟩
  · simp only [World.apply] at ha
    split at ha
    · cases ha
      have hside := beside_files (x := x) (w₂.files.erase p) w₂.overwritten hI₂
        (fun q hq => by
          rw [Dict.get?_erase, if_neg]
          rintro rfl
          rw [hp] at hq
          cases hq)
        (fun y hy hyx => by
          rw [Dict.get?_erase, if_neg]
          rintro rfl
          exact hne y hy hyx rfl)
        (fun c hc => by
          rw [Dict.get?_erase] at hc
          split at hc
          · cases hc
          · exact hI₂.state x hx c hc)
      refine ⟨hside.1, fun v hv => ?_⟩
      exact hstable _ _ (hstable _ _ (hstable _ _ hA ((Script.Relies.trans h₁ h₂).beside x)) hside.2)
        (hv.beside x)
    · cases ha

/-- A file beside the PDFs is moved to a place that is no retry state. -/
theorem accounts_replace {src dst : Place} (hsrc : isPdf src.name = false)
    (hdst : isPdf dst.name = false)
    (hsrcne : ∀ y, Proper y → src ≠ ⟨.processing, retryName y⟩)
    (hdstne : ∀ y, Proper y → dst ≠ ⟨.processing, retryName y⟩)
    (hstable : ∀ w w', A w → Beside x w w' → A w') (hx : Proper x) (hA : A w)
    (hsome : w.files.get? src ≠ none) :
    Accounts py cfg clean (fun _ => A) (act (.replace src dst)) w := by
  refine accounts_act fun w₁ h₁ hI₁ => ⟨fun _ => exists_replace (h₁.stay src hsome) dst,
    fun w₂ ha => ?_⟩
  · have hA₁ := hstable _ _ hA (h₁.beside x)
    obtain ⟨c, hc, ⟨-, rfl⟩ | ⟨-, rfl⟩⟩ := apply_replace ha
    · exact ⟨hI₁, fun v hv => hstable _ _ hA₁ (hv.beside x)⟩
    · have hpdf : ∀ {p q : Place}, isPdf p.name = false → isPdf q.name = true → q ≠ p := by
        rintro p q hp hq rfl
        rw [hp] at hq
        cases hq
      have hstate : ∀ y, Proper y →
          ((w₁.files.erase src).insert dst c).get? ⟨.processing, retryName y⟩ =
            w₁.files.get? ⟨.processing, retryName y⟩ := fun y hy => by
        rw [Dict.get?_insert, if_neg (hdstne y hy).symm, Dict.get?_erase, if_neg (hsrcne y hy).symm]
      have hside := beside_files (x := x) ((w₁.files.erase src).insert dst c)
        (w₁.losing dst ++ w₁.overwritten) hI₁
        (fun q hq => by
          rw [Dict.get?_insert, if_neg (hpdf hdst hq), Dict.get?_erase, if_neg (hpdf hsrc hq)])
        (fun y hy _ => hstate y hy)
        (fun c' hc' => by
          rw [hstate x hx] at hc'
          exact hI₁.state x hx c' hc')
      exact ⟨hside.1, fun v hv => hstable _ _ (hstable _ _ hA₁ hside.2) (hv.beside x)⟩

/-! ### Reading -/

/-- What was read is in the file, and in a clean run it is read if it is there. -/
def Reads (clean : Bool) (p : Place) (v : Option (PyJson φ)) (w : World φ) : Prop :=
  (∀ s, v = some s → w.files.get? p = some (.json s)) ∧
    (clean = true → ∀ s, w.files.get? p = some (.json s) → v = some s)

theorem accounts_readJson {p : Place} (hp : p.stage ≠ .incoming)
    (hstable : ∀ w w', A w → Around w w' → A w') (hA : A w) :
    Accounts py cfg clean (fun v w => A w ∧ Reads clean p v w) (readJson p) w := by
  intro w₁ h₁ hI₁
  have hA₁ := hstable _ _ hA h₁
  refine ⟨fun w₂ ha => ?_, fun e he w₂ h₂ _ => ⟨hstable _ _ hA₁ h₂, ?_, fun hclean s hs => ?_⟩⟩
  · simp only [World.apply] at ha
    split at ha
    · obtain rfl := Except.ok.inj ha
      refine ⟨hI₁, fun w₂ h₂ _ w₃ h₃ _ => ⟨hstable _ _ (hstable _ _ hA₁ h₂) h₃, ?_, ?_⟩⟩
      · intro s hs
        rw [h₃.files p hp]
        dsimp only at hs
        split at hs
        · rename_i v hv
          rw [hv, Option.some.inj hs]
        · cases hs
      · intro _ s hs
        rw [h₃.files p hp] at hs
        dsimp only
        rw [hs]
    · cases ha
  · simp
  · rcases he with he | he
    · simp [hclean] at he
    · rw [h₂.files p hp] at hs
      simp [World.apply, hs] at he

theorem accounts_readTitle {pdf : Place} (hp : pdf.stage ≠ .incoming)
    (hstable : ∀ w w', A w → Around w w' → A w') (hA : A w) (hI : Books py cfg clean w) :
    Accounts py cfg clean (fun _ => A) (readTitle py pdf) w := by
  have hsidecar : Accounts py cfg clean (fun _ => A) (readSidecar pdf) w := by
    refine Script.Holds.get fun w₁ h₁ hI₁ => ?_
    have hA₁ := hstable _ _ hA h₁
    split
    · exact (accounts_readJson (p := sidecarPath pdf) hp hstable hA₁).mono
        (fun _ _ _ h => h.1) fun _ _ _ h => h
    · exact fun w₂ h₂ _ => hstable _ _ hA₁ h₂
  refine Script.Holds.seq hI hsidecar fun recorded w₁ _ hA₁ => ?_
  exact Script.Holds.get fun w₂ h₂ _ w₃ h₃ _ => hstable _ _ (hstable _ _ hA₁ h₂) h₃

/-- The state that is read is the one of the file. -/
theorem accounts_loadRetryState {pdf : Place} (hp : pdf.stage ≠ .incoming)
    (hstable : ∀ w w', A w → Around w w' → A w') (hA : A w) :
    Accounts py cfg clean (fun v w => A w ∧
      (∀ s, v = some s → w.files.get? (retryStatePath pdf) = some (.json s)) ∧
      (clean = true → ∀ s, w.files.get? (retryStatePath pdf) = some (.json s) → s.isDict = true →
        v = some s)) (loadRetryState pdf) w := by
  have hret : (retryStatePath pdf).stage ≠ .incoming := hp
  refine Script.Holds.get fun w₁ h₁ hI₁ => ?_
  have hA₁ := hstable _ _ hA h₁
  cases hc : w₁.files.get? (retryStatePath pdf) with
  | none =>
    refine fun w₂ h₂ _ => ⟨hstable _ _ hA₁ h₂, by simp, fun _ s hs => ?_⟩
    rw [h₂.files _ hret, hc] at hs
    cases hs
  | some c =>
    refine Script.Holds.seq hI₁ (accounts_readJson (p := retryStatePath pdf) hp hstable hA₁)
      fun v w₂ hI₂ hv w₃ h₃ _ => ⟨hstable _ _ hv.1 h₃, fun s hs => ?_, fun hclean s hs hdict => ?_⟩
    · rw [h₃.files _ hret]
      exact hv.2.1 s (Option.filter_eq_some_iff.mp hs).1
    · rw [h₃.files _ hret] at hs
      rw [hv.2.2 hclean s hs, Option.filter_some, if_pos hdict]

/-! ### An attempt -/

theorem Ready.around {w w' : World φ} (h : Ready py cfg clean todo x n w) (ha : Around w w') :
    Ready py cfg clean todo x n w' := h.beside (ha.beside x)

/-- The request is sent. -/
theorem Ready.post {url authorization title : Text} {timeout : ℤ}
    (h : Ready py cfg clean todo x n w) (hI : Books py cfg clean w)
    (ha : World.apply (.post ⟨.processing, x⟩ url authorization title timeout) w = .ok w') :
    Books py cfg clean w' ∧ ∃ p, w'.posts.head? = some p ∧
      Tried py cfg clean todo x n (accepted p.answer) w' := by
  simp only [World.apply] at ha
  split at ha
  · cases ha
  · rename_i c hc
    cases ha
    refine ⟨hI.post h.own.1.1 hc rfl fun hclean => (h.counted hclean).2.2, _, rfl, ?_⟩
    have htries : tries { w with posts :=
        ⟨url, authorization, timeout, x, c, title, w.now, w.answer⟩ :: w.posts } x =
          ⟨url, authorization, timeout, x, c, title, w.now, w.answer⟩ :: tries w x := by
      rw [tries_cons, if_pos rfl]
    refine ⟨⟨h.calm.todo, fun hclean y hy hne hproc => ?_⟩, h.own, by rw [hc]; simp, h.left, _, _,
      htries, rfl, h.le, fun hclean => ⟨(h.counted hclean).1, (h.counted hclean).2.1⟩⟩
    obtain ⟨m, t, hstate, hrest⟩ := h.calm.waiting hclean y hy hne hproc
    refine ⟨m, t, hstate, ?_⟩
    rw [tries_cons, if_neg (fun heq => hne (by rw [← heq]))]
    exact hrest

theorem accounts_uploadDocument (h : Ready py cfg clean todo x n w) (hI : Books py cfg clean w) :
    Accounts py cfg clean (fun r => Tried py cfg clean todo x n r)
      (uploadDocument py cfg ⟨.processing, x⟩) w := by
  refine Script.Holds.seq hI (accounts_readTitle (by simp) (fun _ _ hA ha => Ready.around hA ha) h hI)
    fun title w₁ hI₁ h₁ => ?_
  refine Script.Holds.seq hI₁ (accounts_act (Q := fun w => ∃ p, w.posts.head? = some p ∧
      Tried py cfg clean todo x n (accepted p.answer) w) fun w₂ h₂ hI₂ => ⟨fun _ => ?_,
      fun w₃ ha => ?_⟩) fun _ w₂ _ ⟨p, hp, ht⟩ => ?_
  · rename_i hclean
    obtain ⟨c, hc⟩ := Option.ne_none_iff_exists'.mp ((h₁.around h₂).here hclean)
    simp only [World.apply, hc]
    exact ⟨_, rfl⟩
  · obtain ⟨hbooks, p, hp, ht⟩ := (h₁.around h₂).post hI₂ ha
    refine ⟨hbooks, fun v hv => ⟨p, ?_, ht.beside (hv.beside x)⟩⟩
    rw [hv.posts]
    exact hp
  · refine Script.Holds.get fun w₃ h₃ _ w₄ h₄ _ => ?_
    rw [h₃.posts, hp]
    exact (ht.beside (h₃.beside x)).beside (h₄.beside x)

/-! ### What follows from it -/

section Routes

variable {r : Bool}

theorem Tried.retire {s' : Stage} {c : Content φ} (h : Tried py cfg clean todo x n r w)
    (hI : Books py cfg clean w) (hc : w.files.get? ⟨.processing, x⟩ = some c)
    (hs' : s' = .sent ∨ s' = .failed)
    (hsent : s' = .sent → Delivered cfg clean (tries w x))
    (hfailed : s' = .failed → GivenUp cfg clean (tries w x)) (lost : List (Place × Content φ)) :
    Books py cfg clean { w with
        files := (w.files.erase ⟨.processing, x⟩).insert ⟨s', x⟩ c, overwritten := lost } ∧
      Routed py cfg clean todo x { w with
        files := (w.files.erase ⟨.processing, x⟩).insert ⟨s', x⟩ c, overwritten := lost } := by
  have hin : s' ≠ .incoming := by rcases hs' with rfl | rfl <;> simp
  have hproc : s' ≠ .processing := by rcases hs' with rfl | rfl <;> simp
  have hother : ∀ p : Place, p.name ≠ x →
      ((w.files.erase ⟨.processing, x⟩).insert ⟨s', x⟩ c).get? p = w.files.get? p := by
    intro p hp
    rw [Dict.get?_insert, if_neg (fun heq => hp (by rw [heq])), Dict.get?_erase,
      if_neg (fun heq => hp (by rw [heq]))]
  refine ⟨hI.move h.own.1.1 hc hin hsent hfailed lost, ⟨fun p hp => ?_, fun hclean y hy hne hy' => ?_⟩,
    ?_⟩
  · obtain ⟨hown, hx, hsome⟩ := h.calm.todo p hp
    refine ⟨hown, hx, ?_⟩
    dsimp only
    rwa [hother p fun heq => hx (by rw [heq])]
  · have hyx : y ≠ x := fun heq => hne (by rw [heq])
    dsimp only at hy'
    rw [hother _ hyx] at hy'
    obtain ⟨m, t, hstate, hrest⟩ := h.calm.waiting hclean y hy hne hy'
    refine ⟨m, t, ?_, hrest⟩
    have hname : retryName y ≠ x := by
      intro heq
      have := h.own.1.1
      rw [← heq, isPdf_retryName] at this
      cases this
    dsimp only
    rw [hother ⟨.processing, retryName y⟩ hname]
    exact hstate
  · dsimp only
    rw [Dict.get?_insert, if_neg (by simpa using hproc.symm), Dict.get?_erase, if_pos rfl]

theorem max_one_le {n : ℕ} (hleft : n = 0 ∨ (n : ℤ) < cfg.attempts) (h : cfg.attempts ≤ n + 1) :
    (n : ℤ) + 1 = max 1 cfg.attempts := by
  omega

theorem Tried.delivered (h : Tried py cfg clean todo x n true w) :
    Delivered cfg clean (tries w x) := by
  obtain ⟨p, rest, htries, hp, -, hrest⟩ := h.last
  refine ⟨⟨p, by rw [htries]; exact List.mem_cons_self, hp⟩, fun hclean => ⟨p, rest, htries, hp, ?_⟩⟩
  obtain ⟨hrefused, hlength⟩ := hrest hclean
  refine ⟨hrefused, ?_⟩
  have := h.left
  omega

theorem Tried.givenUp (h : Tried py cfg clean todo x n false w) (hlast : cfg.attempts ≤ n + 1) :
    GivenUp cfg clean (tries w x) := by
  obtain ⟨p, rest, htries, hp, hle, hrest⟩ := h.last
  have hmax := max_one_le h.left hlast
  rw [GivenUp, htries, refused_cons, hp]
  refine ⟨?_, fun hclean => ?_⟩
  · rw [← hmax]
    simpa using hle
  · obtain ⟨hrefused, hlength⟩ := hrest hclean
    refine ⟨List.forall_mem_cons.mpr ⟨hp, hrefused⟩, ?_⟩
    rw [List.length_cons, hlength, ← hmax]
    push_cast
    rfl

theorem accounts_uniqueDestination {stage : Stage} {name : Text} {given : Option Text}
    (hne : stage ≠ .incoming) (hgiven : ∀ t ∈ given, ∃ now, t = tag py pid now)
    (hstable : ∀ w w', A w → Around w w' → A w') (hA : A w) :
    Accounts py cfg clean (fun dst w => Destination py pid stage name dst w ∧ A w)
      (uniqueDestination py pid stage name given) w :=
  (uniqueDestination_holds hne hgiven).quiet (only_uniqueDestination _ _ _) hstable hA

/-- The document in hand leaves `processing/`, under its name. -/
theorem accounts_moveTo {stage : Stage} {given : Option Text} (hstage : stage = .sent ∨ stage = .failed)
    (hgiven : ∀ t ∈ given, ∃ now, t = tag py pid now) (h : Tried py cfg clean todo x n r w)
    (hI : Books py cfg clean w)
    (hsent : ∀ w, stage = .sent → Tried py cfg clean todo x n r w → Delivered cfg clean (tries w x))
    (hfailed : ∀ w, stage = .failed → Tried py cfg clean todo x n r w →
      GivenUp cfg clean (tries w x)) :
    Accounts py cfg clean (fun _ => Routed py cfg clean todo x)
      (moveTo py pid ⟨.processing, x⟩ stage given) w := by
  have hne : stage ≠ .incoming := by rcases hstage with rfl | rfl <;> simp
  refine Script.Holds.seq hI (accounts_uniqueDestination hne hgiven
    (fun _ _ hA ha => Tried.beside hA (ha.beside x)) h) fun dst w₁ _ ⟨hd, h₁⟩ => ?_
  refine accounts_act fun w₂ h₂ hI₂ => ?_
  have ht₂ := h₁.beside (h₂.beside x)
  have hfree : w₂.files.get? ⟨stage, x⟩ = none := by
    by_contra hsome
    have := hI₂.unique x _ _ h.own.1.1 hsome ht₂.here
    rcases hstage with rfl | rfl <;> cases this
  obtain ⟨-, rfl⟩ := (h₂.destination hne hd).resolve_right fun hno => hno.1 hfree
  refine ⟨fun _ => exists_replace ht₂.here _, fun w₃ ha => ?_⟩
  obtain ⟨c', hc', ⟨heq, -⟩ | ⟨-, rfl⟩⟩ := apply_replace ha
  · rcases hstage with rfl | rfl <;> cases heq
  · obtain ⟨hbooks, hrouted⟩ := ht₂.retire hI₂ hc' hstage (fun heq => hsent w₂ heq ht₂)
      (fun heq => hfailed w₂ heq ht₂) (w₂.losing ⟨stage, x⟩ ++ w₂.overwritten)
    exact ⟨hbooks, fun v hv => hrouted.beside h.own.1.1 (hv.beside x)⟩

/-- The places of a document in hand that are no retry state of another. -/
theorem sidecarPath_ne (hx : ¬ RetryLike x) (stage : Stage) (y : Text) :
    (⟨stage, stem x ++ sidecarSuffix⟩ : Place) ≠ ⟨.processing, retryName y⟩ := by
  intro heq
  exact sidecar_ne_retryName hx y (congrArg Place.name heq)

theorem accounts_routeSent (h : Tried py cfg clean todo x n true w) (hI : Books py cfg clean w) :
    Accounts py cfg clean (fun _ => Calm py cfg clean todo none)
      (routeSent py pid ⟨.processing, x⟩) w := by
  obtain ⟨hproper, hretry⟩ := h.own
  have hstable : ∀ w w', Tried py cfg clean todo x n true w → Beside x w w' →
      Tried py cfg clean todo x n true w' := fun _ _ h hb => h.beside hb
  refine Script.Holds.seq hI (accounts_unlink (isPdf_sidecar _) rfl
    (fun y _ _ => sidecar_ne_retryName hretry y) hstable hproper h) fun _ w₁ hI₁ h₁ => ?_
  refine Script.Holds.seq hI₁ (accounts_unlink (isPdf_retryState _) rfl
    (fun y hy hyx heq => hyx (retryName_inj hproper hy heq).symm) hstable hproper h₁)
    fun _ w₂ hI₂ h₂ => ?_
  exact (accounts_moveTo (.inl rfl) (by simp) h₂ hI₂ (fun _ _ ht => ht.delivered)
    (fun _ heq => by cases heq)).mono (fun _ _ _ hr => hr.calm_none) fun _ _ _ hr => hr

theorem accounts_routeFailed (h : Tried py cfg clean todo x n false w) (hI : Books py cfg clean w)
    (hlast : cfg.attempts ≤ n + 1) :
    Accounts py cfg clean (fun _ => Calm py cfg clean todo none)
      (routeFailed py pid ⟨.processing, x⟩) w := by
  obtain ⟨hproper, hretry⟩ := h.own
  have hstable : ∀ w w', Routed py cfg clean todo x w → Beside x w w' →
      Routed py cfg clean todo x w' := fun _ _ hr hb => hr.beside hproper.1 hb
  have htag : Accounts py cfg clean (fun given w => (∀ t ∈ given, ∃ now, t = tag py pid now) ∧
      Tried py cfg clean todo x n false w) (collisionTag py pid x) w :=
    (collisionTag_holds x).quiet (only_collisionTag _)
      (fun _ _ hA ha => hA.beside (ha.beside x)) h
  refine Script.Holds.seq hI htag fun given w₁ hI₁ ⟨hgiven, h₁⟩ => ?_
  refine Script.Holds.seq hI₁ (accounts_moveTo (.inr rfl) hgiven h₁ hI₁ (fun _ heq => by cases heq)
    (fun _ _ ht => ht.givenUp hlast)) fun _ w₂ hI₂ h₂ => ?_
  have hside : Accounts py cfg clean (fun _ => Routed py cfg clean todo x)
      (whenThere (sidecarPath ⟨.processing, x⟩)
        (moveTo py pid (sidecarPath ⟨.processing, x⟩) .failed given)) w₂ := by
    refine accounts_whenThere (fun w₃ h₃ hI₃ hsome => ?_) fun w₃ h₃ => hstable _ _ h₂ (h₃.beside x)
    refine Script.Holds.seq hI₃ (accounts_uniqueDestination (by simp) hgiven
      (A := fun w => Routed py cfg clean todo x w ∧
        w.files.get? (sidecarPath ⟨.processing, x⟩) ≠ none)
      (fun _ _ hA ha => ⟨hstable _ _ hA.1 (ha.beside x), ha.stay _ hA.2⟩)
      ⟨hstable _ _ h₂ (h₃.beside x), hsome⟩) fun dst w₄ hI₄ ⟨hd, h₄, hsome₄⟩ => ?_
    have hdst : isPdf dst.name = false ∧ dst.stage = .failed := by
      rcases hd with ⟨-, rfl⟩ | ⟨-, t, rfl⟩
      · exact ⟨isPdf_sidecar _, rfl⟩
      · exact ⟨isPdf_tagged_sidecar (stem_proper hproper).1 _, rfl⟩
    refine accounts_replace (isPdf_sidecar _) hdst.1 (fun y _ => sidecarPath_ne hretry _ y)
      (fun y _ heq => ?_) hstable hproper h₄ hsome₄
    have := hdst.2
    rw [heq] at this
    cases this
  refine Script.Holds.seq hI₂ hside fun _ w₃ hI₃ h₃ => ?_
  exact (accounts_unlink (isPdf_retryState _) rfl
    (fun y hy hyx heq => hyx (retryName_inj hproper hy heq).symm) hstable hproper h₃).mono
    (fun _ _ _ hr => hr.calm_none) fun _ _ _ hr => hr

/-- Where `save_retry_state` writes before it renames. -/
def tmpPath (x : Text) : Place := ⟨.processing, retryName x ++ tmpSuffix⟩

/-- The retry state after the attempt. -/
def nextState (py : Python φ) (n : ℕ) (t : ℤ) : Content φ :=
  .json (retryState ((n + 1 : ℕ) : ℤ) (py.isoformat t))

theorem ne_tmpPath (x y : Text) : (⟨.processing, retryName y⟩ : Place) ≠ tmpPath x := fun heq =>
  tmp_ne_retryName x y (congrArg Place.name heq).symm

theorem ne_of_isPdf {p q : Place} (hp : HaAddons.Outbox.isPdf p.name = false)
    (hq : HaAddons.Outbox.isPdf q.name = true) : q ≠ p := by
  rintro rfl
  rw [hp] at hq
  cases hq

/-- The temporary file is written. -/
theorem beside_tmp (hI : Books py cfg clean w) (hx : Proper x) (c : Content φ) :
    Books py cfg clean { w with files := w.files.insert (tmpPath x) c } ∧
      Beside x w { w with files := w.files.insert (tmpPath x) c } := by
  refine beside_files _ w.overwritten hI
    (fun q hq => by rw [Dict.get?_insert, if_neg (ne_of_isPdf (isPdf_tmp _) hq)])
    (fun y _ _ => by rw [Dict.get?_insert, if_neg (ne_tmpPath x y)]) fun c hc => ?_
  rw [Dict.get?_insert, if_neg (ne_tmpPath x x)] at hc
  exact hI.state x hx c hc

/-- The new retry state is in its place: the document waits. -/
theorem Tried.wait {now : ℤ} (lost : List (Place × Content φ))
    (h : Tried py cfg clean todo x n false w) (hI : Books py cfg clean w)
    (hmore : (n : ℤ) + 1 < cfg.attempts) (hnow : ∀ p ∈ tries w x, p.time ≤ now) :
    let w' := { w with
      files := (w.files.erase (tmpPath x)).insert ⟨.processing, retryName x⟩
        (nextState py n (now + cfg.delay))
      overwritten := lost }
    Books py cfg clean w' ∧ Calm py cfg clean todo none w' := by
  intro w'
  have hproper := h.own.1
  obtain ⟨p, rest, htries, hp, hle, hrest⟩ := h.last
  have hown : w'.files.get? ⟨.processing, retryName x⟩ = some (nextState py n (now + cfg.delay)) :=
    (Dict.get?_insert _ _ _ _).trans (if_pos rfl)
  have hside : Books py cfg clean w' ∧ Beside x w w' := by
    refine beside_files _ _ hI (fun q hq => ?_) (fun y hy hyx => ?_) fun c hc => ?_
    · rw [Dict.get?_insert, if_neg (ne_of_isPdf (isPdf_retryState _) hq), Dict.get?_erase,
        if_neg (ne_of_isPdf (isPdf_tmp _) hq)]
    · rw [Dict.get?_insert, if_neg fun heq => hyx (retryName_inj hy hproper
        (congrArg Place.name heq)), Dict.get?_erase, if_neg (ne_tmpPath x y)]
    · obtain rfl := Option.some.inj (hown.symm.trans hc)
      refine ⟨_, _, rfl, by omega, by push_cast; exact hmore, ?_⟩
      rw [refusals, htries, refused_cons, hp]
      simpa using hle
  refine ⟨hside.1, fun q hq => ?_, fun hclean y hy _ hproc => ?_⟩
  · obtain ⟨hown', -, hsome⟩ := h.calm.todo q hq
    exact ⟨hown', by simp, fun hclean => hside.2.stay q hown'.1.1 (hsome hclean)⟩
  · by_cases hyx : y = x
    · subst hyx
      obtain ⟨hrefused, hlength⟩ := hrest hclean
      have htries' : tries w' y = p :: rest := htries
      refine ⟨n + 1, now + cfg.delay, hown, by omega, ?_, ?_, ?_⟩
      · rw [htries']
        exact List.forall_mem_cons.mpr ⟨hp, hrefused⟩
      · rw [htries', List.length_cons, hlength]
      · intro q hq
        have := hnow q hq
        omega
    · exact (h.calm.beside hside.2).waiting hclean y hy (by simpa using hyx) hproc

/-- The document waits for its next attempt. -/
theorem accounts_saveRetryState {now : ℤ} (h : Tried py cfg clean todo x n false w)
    (hI : Books py cfg clean w) (hmore : (n : ℤ) + 1 < cfg.attempts)
    (hnow : ∀ p ∈ tries w x, p.time ≤ now) :
    Accounts py cfg clean (fun _ => Calm py cfg clean todo none)
      (saveRetryState py ⟨.processing, x⟩ (n + 1) (now + cfg.delay)) w := by
  have hproper := h.own.1
  let A : World φ → Prop := fun w => Tried py cfg clean todo x n false w ∧
    w.files.get? (tmpPath x) = some (nextState py n (now + cfg.delay)) ∧
    ∀ p ∈ tries w x, p.time ≤ now
  have hA : ∀ w w', A w → Around w w' → A w' := fun w w' hw ha => by
    refine ⟨hw.1.beside (ha.beside x), ?_, ?_⟩
    · rw [ha.files _ (by simp [tmpPath])]
      exact hw.2.1
    · rw [tries_of_posts ha.posts]
      exact hw.2.2
  refine Script.Holds.seq hI (accounts_act (Q := A) fun w₁ h₁ hI₁ => ⟨fun _ => ⟨_, rfl⟩,
    fun w₂ ha => ?_⟩) fun _ w₂ hI₂ h₂ => accounts_act fun w₃ h₃ hI₃ => ?_
  · obtain rfl := Except.ok.inj ha
    obtain ⟨hbooks, hside⟩ := beside_tmp hI₁ hproper (nextState py n (now + cfg.delay))
    refine ⟨hbooks, fun v hv => hA _ _ ⟨(h.beside (h₁.beside x)).beside hside, ?_, ?_⟩ hv⟩
    · exact (Dict.get?_insert _ _ _ _).trans (if_pos rfl)
    · show ∀ p ∈ tries w₁ x, p.time ≤ now
      rw [tries_of_posts h₁.posts]
      exact hnow
  · obtain ⟨htried, hstate, htimes⟩ := hA _ _ h₂ h₃
    have hthere : w₃.files.get? (tmpPath x) ≠ none := by
      rw [hstate]
      simp [nextState]
    refine ⟨fun _ => exists_replace hthere _, fun w₄ ha => ?_⟩
    obtain ⟨c, hc, ⟨heq, -⟩ | ⟨-, rfl⟩⟩ := apply_replace ha
    · exact absurd heq (ne_tmpPath x x).symm
    · obtain rfl := Option.some.inj (hc.symm.trans hstate)
      obtain ⟨hbooks, hcalm⟩ := htried.wait (w₃.losing (retryStatePath ⟨.processing, x⟩) ++
        w₃.overwritten) hI₃ hmore htimes
      exact ⟨hbooks, fun v hv => hcalm.around hv⟩

theorem accounts_attemptAndRoute (h : Ready py cfg clean todo x n w) (hI : Books py cfg clean w) :
    Accounts py cfg clean (fun _ => Calm py cfg clean todo none)
      (attemptAndRoute py cfg pid ⟨.processing, x⟩ n) w := by
  refine Script.Holds.seq hI (accounts_uploadDocument h hI) fun r w₁ hI₁ h₁ => ?_
  cases r with
  | true => exact accounts_routeSent h₁ hI₁
  | false =>
    rw [if_neg (by simp)]
    dsimp only
    split
    · rename_i hlast
      exact accounts_routeFailed h₁ hI₁ hlast
    · rename_i hmore
      refine Script.Holds.get fun w₂ h₂ hI₂ => accounts_saveRetryState (h₁.beside (h₂.beside x)) hI₂
        (by omega) fun p hp => ?_
      exact (hI₂.posted p (List.mem_filter.mp hp).1).2.2

end Routes

/-! ### A cycle -/

/-- A new document is taken in. -/
theorem Calm.intake (h : Calm py cfg clean (⟨.incoming, x⟩ :: todo) none w)
    (hI : Books py cfg clean w) (htodo : ∀ p ∈ todo, p.name ≠ x) {c : Content φ}
    (hc : w.files.get? ⟨.incoming, x⟩ = some c) (lost : List (Place × Content φ)) :
    let w' := { w with
      files := (w.files.erase ⟨.incoming, x⟩).insert ⟨.processing, x⟩ c, overwritten := lost }
    Books py cfg clean w' ∧ Ready py cfg clean todo x 0 w' := by
  intro w'
  obtain ⟨hown, -, -⟩ := h.todo _ List.mem_cons_self
  have hother : ∀ p : Place, p.name ≠ x → w'.files.get? p = w.files.get? p := by
    intro p hp
    rw [Dict.get?_insert, if_neg (fun heq => hp (by rw [heq])), Dict.get?_erase,
      if_neg (fun heq => hp (by rw [heq]))]
  have htries : tries w' x = [] := hI.tries_incoming (by rw [hc]; simp)
  refine ⟨hI.move hown.1.1 hc (by simp) (by simp) (by simp) lost, ⟨fun p hp => ?_,
    fun hclean y hy hne hproc => ?_⟩, hown, fun _ => ?_, .inl rfl, Nat.zero_le _, fun _ => ?_⟩
  · obtain ⟨hp', -, hsome'⟩ := h.todo p (List.mem_cons_of_mem _ hp)
    refine ⟨hp', by simpa using htodo p hp, ?_⟩
    rwa [hother p (htodo p hp)]
  · have hyx : y ≠ x := by simpa using hne
    rw [hother ⟨_, y⟩ hyx] at hproc
    obtain ⟨m, t, hstate, hrest⟩ := h.waiting hclean y hy (by simp) hproc
    refine ⟨m, t, ?_, hrest⟩
    have hname : retryName y ≠ x := by
      intro heq
      have hpdf := hown.1.1
      rw [← heq, isPdf_retryName] at hpdf
      cases hpdf
    rw [hother ⟨_, retryName y⟩ hname]
    exact hstate
  · rw [Dict.get?_insert, if_pos rfl]
    simp
  · rw [htries]
    exact ⟨by simp [Refused], rfl, by simp⟩

theorem accounts_processNewDocument (h : Calm py cfg clean (⟨.incoming, x⟩ :: todo) none w)
    (hI : Books py cfg clean w) (htodo : ∀ p ∈ todo, p.name ≠ x) :
    Accounts py cfg clean (fun _ => Calm py cfg clean todo none)
      (processNewDocument py cfg pid x) w := by
  obtain ⟨⟨hproper, hretry⟩, -, hsome⟩ := h.todo _ List.mem_cons_self
  refine Script.Holds.seq hI (accounts_act (Q := Ready py cfg clean todo x 0) fun w₁ h₁ hI₁ =>
    ⟨fun hclean => exists_replace (h₁.stay _ (hsome hclean)) _, fun w₂ ha => ?_⟩)
      fun _ w₁ hI₁ h₁ => ?_
  · obtain ⟨c, hc, ⟨heq, -⟩ | ⟨-, rfl⟩⟩ := apply_replace ha
    · cases heq
    · obtain ⟨hbooks, hready⟩ := (h.around h₁).intake hI₁ htodo hc
        (w₁.losing ⟨.processing, x⟩ ++ w₁.overwritten)
      exact ⟨hbooks, fun v hv => hready.around hv⟩
  · refine Script.Holds.seq hI₁ (accounts_whenThere (fun w₂ h₂ hI₂ hthere => ?_)
      fun w₂ h₂ => h₁.around h₂) fun _ w₂ hI₂ h₂ => accounts_attemptAndRoute h₂ hI₂
    exact accounts_replace (isPdf_sidecar _) (isPdf_sidecar _)
      (fun y _ => sidecarPath_ne hretry _ y) (fun y _ => sidecarPath_ne hretry _ y)
      (fun _ _ hr hb => hr.beside hb) hproper (h₁.around h₂) hthere

/-- A document that may be tried again. -/
structure Held (py : Python φ) (cfg : Config) (clean : Bool) (todo : List Place) (x : Text)
    (w : World φ) : Prop where
  calm : Calm py cfg clean todo (some x) w
  own : Own x
  here : clean = true → w.files.get? ⟨.processing, x⟩ ≠ none
  waiting : clean = true → ∃ n t, Waiting py cfg w x n t

theorem Waiting.around {t : ℤ} (h : Waiting py cfg w x n t) (ha : Around w w') :
    Waiting py cfg w' x n t := by
  rw [Waiting, ha.files _ (by simp), tries_of_posts ha.posts]
  exact h

theorem Held.around (h : Held py cfg clean todo x w) (ha : Around w w') :
    Held py cfg clean todo x w' :=
  ⟨h.calm.around ha, h.own, fun hclean => ha.stay _ (h.here hclean), fun hclean =>
    have ⟨n, t, hw⟩ := h.waiting hclean
    ⟨n, t, hw.around ha⟩⟩

theorem Calm.held (h : Calm py cfg clean (⟨.processing, x⟩ :: todo) none w)
    (htodo : ∀ p ∈ todo, p.name ≠ x) : Held py cfg clean todo x w := by
  obtain ⟨hown, -, hsome⟩ := h.todo _ List.mem_cons_self
  refine ⟨⟨fun p hp => ?_, fun hclean y hy _ hproc => h.waiting hclean y hy (by simp) hproc⟩, hown,
    hsome, fun hclean => h.waiting hclean x hown.1.1 (by simp) (hsome hclean)⟩
  obtain ⟨hp', -, hsome'⟩ := h.todo p (List.mem_cons_of_mem _ hp)
  exact ⟨hp', by simpa using htodo p hp, hsome'⟩

theorem Held.calm_none (h : Held py cfg clean todo x w) : Calm py cfg clean todo none w := by
  refine ⟨fun p hp => ?_, fun hclean y hy _ hproc => ?_⟩
  · obtain ⟨hp', -, hsome⟩ := h.calm.todo p hp
    exact ⟨hp', by simp, hsome⟩
  · by_cases hyx : y = x
    · subst hyx
      exact h.waiting hclean
    · exact h.calm.waiting hclean y hy (by simpa using hyx) hproc

@[simp] theorem get?_retryState (n : ℤ) (t : String) :
    (retryState n t : PyJson φ).get? "next_attempt_at" = some (.str t) := rfl

@[simp] theorem get_retryState (n : ℤ) (t : String) :
    (retryState n t : PyJson φ).get "attempts" = .int n := rfl

theorem retryState_inj {n n' : ℤ} {t t' : ℤ}
    (h : (retryState n (py.isoformat t) : PyJson φ) = retryState n' (py.isoformat t')) :
    n = n' ∧ t = t' := by
  simp only [retryState, PyJson.dict.injEq, List.cons.injEq, Prod.mk.injEq, PyJson.int.injEq,
    PyJson.str.injEq, true_and, and_true] at h
  refine ⟨h.1, ?_⟩
  have hread := congrArg py.fromisoformat h.2
  rw [py.fromisoformat_isoformat, py.fromisoformat_isoformat] at hread
  exact Moment.aware.inj (Option.some.inj hread)

/-- The state that was read: there is none, or it is the one of the books. -/
theorem Books.read (hI : Books py cfg clean w) (hx : Proper x) {v : Option (PyJson φ)}
    (hv : ∀ s, v = some s → w.files.get? (retryStatePath ⟨.processing, x⟩) = some (.json s)) :
    v = none ∨ ∃ (n : ℕ) (t : ℤ), v = some (retryState n (py.isoformat t)) ∧ 1 ≤ n ∧
      (n : ℤ) < cfg.attempts ∧ n ≤ refusals w x := by
  cases v with
  | none => exact .inl rfl
  | some s =>
    obtain ⟨n, t, hs, h1, hlt, hle⟩ := hI.state x hx _ (hv s rfl)
    obtain ⟨k, rfl⟩ := Int.eq_ofNat_of_zero_le (by omega : 0 ≤ n)
    obtain rfl := Content.json.inj hs
    exact .inr ⟨k, t, rfl, by omega, hlt, by omega⟩

theorem dueAt_retryState (n t now : ℤ) :
    dueAt py (some (retryState n (py.isoformat t))) now = some (decide (t ≤ now)) := by
  simp [dueAt, py.fromisoformat_isoformat]

theorem accounts_isDue (h : Held py cfg clean todo x w) (hI : Books py cfg clean w) :
    Accounts py cfg clean (fun due w => Held py cfg clean todo x w ∧
      (due = true → clean = true → ∀ n t, Waiting py cfg w x n t → t ≤ w.now))
      (isDue py ⟨.processing, x⟩) w := by
  have hproper := h.own.1
  refine Script.Holds.seq hI (accounts_loadRetryState (by simp) (fun _ _ hA ha => Held.around hA ha)
    h) fun v w₁ hI₁ ⟨h₁, hread, hall⟩ => Script.Holds.get fun w₂ h₂ hI₂ => ?_
  rcases hI₁.read hproper hread with rfl | ⟨n, t, rfl, -⟩
  · refine fun w₃ h₃ _ => ⟨(h₁.around h₂).around h₃, fun _ hclean n t _ => ?_⟩
    obtain ⟨m, u, hw⟩ := h₁.waiting hclean
    cases hall hclean _ hw.1 rfl
  · rw [dueAt_retryState]
    refine fun w₃ h₃ _ => ⟨(h₁.around h₂).around h₃, fun hdue _ m u hw => ?_⟩
    have hfile := hread _ rfl
    rw [← h₂.files _ (by simp [retryStatePath]), ← h₃.files _ (by simp [retryStatePath])] at hfile
    obtain ⟨-, rfl⟩ := retryState_inj (Content.json.inj (Option.some.inj (hfile.symm.trans hw.1)))
    exact (of_decide_eq_true hdue).trans h₃.now

theorem priorAttempts_retryState {n : ℕ} (hn : 1 ≤ n) (t : String) :
    priorAttempts py (some (retryState (n : ℤ) t)) = some (n : ℤ) := by
  have hne : decide ((n : ℤ) ≠ 0) = true := decide_eq_true (by omega)
  simp only [priorAttempts, Option.getD_some, get_retryState, Python.truthy, hne, if_true, Python.int]

theorem accounts_processDueRetry (h : Held py cfg clean todo x w) (hI : Books py cfg clean w)
    (hdue : clean = true → ∀ n t, Waiting py cfg w x n t → t ≤ w.now) :
    Accounts py cfg clean (fun _ => Calm py cfg clean todo none)
      (processDueRetry py cfg pid x) w := by
  have hproper := h.own.1
  have hstable : ∀ w w', (Held py cfg clean todo x w ∧
      (clean = true → ∀ n t, Waiting py cfg w x n t → t ≤ w.now)) → Around w w' →
      (Held py cfg clean todo x w' ∧
        (clean = true → ∀ n t, Waiting py cfg w' x n t → t ≤ w'.now)) := by
    intro w w' hA ha
    refine ⟨hA.1.around ha, fun hclean n t hw => (hA.2 hclean n t ?_).trans ha.now⟩
    rw [Waiting, ha.files _ (by simp), tries_of_posts ha.posts] at hw
    exact hw
  refine Script.Holds.seq hI (accounts_loadRetryState (by simp) hstable ⟨h, hdue⟩)
    fun v w₁ hI₁ ⟨⟨h₁, hdue₁⟩, hread, hall⟩ => ?_
  rcases hI₁.read hproper hread with rfl | ⟨n, t, rfl, hpos, hlt, hle⟩
  · have hzero : priorAttempts py (none : Option (PyJson φ)) = some ((0 : ℕ) : ℤ) := rfl
    rw [hzero]
    refine accounts_attemptAndRoute ⟨h₁.calm, h₁.own, h₁.here, .inl rfl, Nat.zero_le _,
      fun hclean => ?_⟩ hI₁
    obtain ⟨m, u, hw⟩ := h₁.waiting hclean
    cases hall hclean _ hw.1 rfl
  · rw [priorAttempts_retryState hpos]
    refine accounts_attemptAndRoute ⟨h₁.calm, h₁.own, h₁.here, .inr hlt, hle, fun hclean => ?_⟩ hI₁
    obtain ⟨m, u, hw⟩ := h₁.waiting hclean
    obtain ⟨hnm, rfl⟩ := retryState_inj
      (Content.json.inj (Option.some.inj ((hread _ rfl).symm.trans hw.1)))
    have htu := hdue₁ hclean m t hw
    obtain ⟨-, -, hrefused, hlength, htimes⟩ := hw
    exact ⟨hrefused, by omega, fun p hp => (htimes p hp).trans htu⟩

theorem accounts_retryIfDue (h : Calm py cfg clean (⟨.processing, x⟩ :: todo) none w)
    (hI : Books py cfg clean w) (htodo : ∀ p ∈ todo, p.name ≠ x) :
    Accounts py cfg clean (fun _ => Calm py cfg clean todo none) (retryIfDue py cfg pid x) w := by
  refine Script.Holds.seq hI (accounts_isDue (h.held htodo) hI) fun due w₁ hI₁ ⟨h₁, hdue⟩ => ?_
  cases due with
  | true => exact accounts_processDueRetry h₁ hI₁ (hdue rfl)
  | false => exact fun w₂ h₂ _ => (h₁.around h₂).calm_none

/-- A cycle over the documents that were found. -/
theorem accounts_loop {f : Text → Worker φ Unit} {stage : Stage} {names : List Text}
    (hf : ∀ x todo w, Calm py cfg clean (⟨stage, x⟩ :: todo) none w → Books py cfg clean w →
      (∀ p ∈ todo, p.name ≠ x) → Accounts py cfg clean (fun _ => Calm py cfg clean todo none) (f x) w)
    (hnodup : names.Nodup) (hI : Books py cfg clean w)
    (h : Calm py cfg clean (names.map (Place.mk stage)) none w) :
    Accounts py cfg clean (fun _ => Calm py cfg clean [] none)
      (names.foldlM (fun _ name => guarded (f name)) ()) w := by
  have hloop : Accounts py cfg clean
      (fun _ w => ([] : List Text).Nodup ∧ Calm py cfg clean ([].map (Place.mk stage)) none w)
      (names.foldlM (fun _ name => guarded (f name)) ()) w :=
    Script.Holds.foldlM
      (P := fun names _ w => names.Nodup ∧ Calm py cfg clean (names.map (Place.mk stage)) none w)
      (fun x xs _ w hI ⟨hnodup, h⟩ => ?_) (fun _ _ _ h ha _ => ⟨h.1, h.2.around ha⟩) hI ⟨hnodup, h⟩
  · exact hloop.mono (fun _ _ _ h => h.2) fun _ _ _ h => h
  · obtain ⟨hx, hxs⟩ := List.nodup_cons.mp hnodup
    have htodo : ∀ p ∈ xs.map (Place.mk stage), p.name ≠ x := by
      intro p hp
      obtain ⟨y, hy, rfl⟩ := List.mem_map.mp hp
      exact fun heq => hx (heq ▸ hy)
    refine Script.Holds.handle hI ((hf x _ w h hI htodo).mono (fun _ _ _ hc => ⟨hxs, hc⟩)
      fun _ w₁ _ hclean w₂ _ _ => ⟨hxs, fun p hp => ⟨?_, by simp, fun h => ?_⟩, fun h => ?_⟩)
    · exact (h.todo p (List.mem_cons_of_mem _ hp)).1
    · rw [hclean] at h
      cases h
    · rw [hclean] at h
      cases h

theorem nodup_pdfs (w : World φ) (stage : Stage) : (pdfs w stage).Nodup := by
  refine (List.perm_insertionSort _ _).nodup_iff.mpr (List.Nodup.map_on ?_ (w.files.nodup.filter _))
  intro p hp q hq hpq
  obtain ⟨hp, -⟩ := of_decide_eq_true (List.mem_filter.mp hp).2
  obtain ⟨hq, -⟩ := of_decide_eq_true (List.mem_filter.mp hq).2
  obtain ⟨s, y⟩ := p
  obtain ⟨s', y'⟩ := q
  simp_all

theorem Calm.found (h : Calm py cfg clean [] none w) (hI : Books py cfg clean w) (stage : Stage) :
    Calm py cfg clean ((pdfs w stage).map (Place.mk stage)) none w := by
  refine ⟨fun p hp => ?_, h.waiting⟩
  obtain ⟨x, hx, rfl⟩ := List.mem_map.mp hp
  obtain ⟨hsome, hpdf⟩ := mem_pdfs.mp hx
  exact ⟨hI.own_of (p := ⟨stage, x⟩) hpdf hsome, by simp, fun _ => hsome⟩

/-- Elsewhere than in a clean run nothing is owed between two documents. -/
theorem calm_of_unclean (hclean : clean = false) : Calm py cfg clean [] none w :=
  ⟨by simp, fun h => by rw [hclean] at h; cases h⟩

theorem accounts_pollOnce (h : Calm py cfg clean [] none w) :
    Accounts py cfg clean (fun _ => Calm py cfg clean [] none) (pollOnce py cfg pid) w := by
  refine Script.Holds.get fun w₁ h₁ hI₁ => ?_
  have hc₁ := h.around h₁
  refine Script.Holds.seq hI₁ (accounts_loop (fun _ _ _ hc hI htodo =>
    accounts_processNewDocument hc hI htodo) (nodup_pdfs _ _) hI₁ (hc₁.found hI₁ _))
    fun _ w₂ _ hc₂ => Script.Holds.get fun w₃ h₃ hI₃ => ?_
  exact accounts_loop (fun _ _ _ hc hI htodo => accounts_retryIfDue hc hI htodo) (nodup_pdfs _ _)
    hI₃ ((hc₂.around h₃).found hI₃ _)

end Worker

/-! ## Runs -/

/-- Every PDF has a name of its own. In a clean run no operation fails and nobody kills the worker. -/
def Fresh (clean : Bool) (s : State φ) : Event φ → Prop
  | .arrive name _ => isPdf name = true → Own name ∧ name ∉ s.world.arrived.map Prod.fst
  | .step f => clean = true → f = none
  | .killed => clean = false
  | _ => True

theorem books_reach {s : State φ} (h : (outbox py cfg pid).Reach (Fresh clean) s) :
    Books py cfg clean s.world := by
  suffices hahead : Ahead (fun _ _ => !clean) (Books py cfg clean) (Calm py cfg clean [] none) s from
    hahead.1
  refine ahead_reach (fun now answer => ⟨?_, ?_⟩) (fun _ _ hB =>
      (accounts_pollOnce hB).mono (fun _ _ _ h => h) fun _ _ _ h => calm_of_unclean h)
    (fun s l w' hok hI hw' => ⟨?_, fun hB => hB.around (around_surroundings hw')⟩)
    (fun s hok _ => ?_) (fun s f worker hok _ => ?_) h
  · exact ⟨by simp, by simp, by simp, by simp, by simp, by simp, by simp, by simp, by simp,
      fun _ _ => List.isChain_nil⟩
  · exact ⟨by simp, by simp⟩
  · cases l with
    | arrive name c =>
      cases hw'
      exact hI.arrive hok
    | tick n =>
      cases hw'
      exact hI.frame (fun _ _ => rfl) hI.state rfl rfl (by dsimp only; omega)
    | answers a =>
      cases hw'
      exact hI.frame (fun _ _ => rfl) hI.state rfl rfl (le_refl _)
    | poll | step f | killed => cases hw'
  · exact calm_of_unclean hok
  · cases f with
    | none => cases worker <;> rfl
    | some e =>
      have hclean : clean = false := by
        by_contra hne
        cases hok (by simpa using hne)
      rw [hclean]
      cases worker <;> rfl

/-- **What a stage means.** Whatever fails and wherever the worker is killed: a document is in exactly
one stage, under its name and with its content. In `incoming/` it was never sent; in `sent/` the
server accepted it, with its content; in `failed/` it was refused as often as the options ask. -/
theorem deliveries_accounted (py : Python φ) (cfg : Config) (pid : ℕ) {s : State φ}
    (h : (outbox py cfg pid).Reach (Fresh false) s) :
    ∀ e ∈ s.world.arrived,
      (∃! stage, s.world.files.get? ⟨stage, e.1⟩ = some e.2) ∧
      (s.world.files.get? ⟨.incoming, e.1⟩ ≠ none → tries s.world e.1 = []) ∧
      (s.world.files.get? ⟨.sent, e.1⟩ ≠ none →
        ∃ p ∈ s.world.posts, p.name = e.1 ∧ p.document = e.2 ∧ accepted p.answer = true) ∧
      (s.world.files.get? ⟨.failed, e.1⟩ ≠ none →
        max 1 cfg.attempts ≤ refused (tries s.world e.1)) := by
  intro e he
  have hI := books_reach h
  have hpdf := (hI.own e he).1.1
  obtain ⟨stage, hstage⟩ := hI.present e he
  obtain ⟨c, hc⟩ := Option.ne_none_iff_exists'.mp hstage
  obtain rfl := hI.content_inj (hI.content _ _ hpdf hc) he
  refine ⟨⟨stage, hc, fun stage' hc' => ?_⟩, hI.tries_incoming, fun hsent => ?_, fun hfailed => ?_⟩
  · exact hI.unique e.1 _ _ hpdf (by rw [hc']; simp) hstage
  · obtain ⟨p, hp, hacc⟩ := (hI.sent e.1 hpdf hsent).1
    obtain ⟨hmem, hname⟩ := List.mem_filter.mp hp
    have hname := of_decide_eq_true hname
    refine ⟨p, hmem, hname, ?_, hacc⟩
    exact hI.content_inj (hname ▸ (hI.posted p hmem).1) he
  · exact (hI.failed e.1 hpdf hfailed).1

/-- **Attempts.** In a run without failures and kills, the attempts for a document have at least the
delay of the options between them; one in `sent/` was accepted by the last of them and by no other;
one in `failed/` was refused each time, exactly as often as the options ask. -/
theorem attempts_spaced (py : Python φ) (cfg : Config) (pid : ℕ) {s : State φ}
    (h : (outbox py cfg pid).Reach (Fresh true) s) :
    ∀ e ∈ s.world.arrived,
      Spaced cfg (tries s.world e.1) ∧
      (s.world.files.get? ⟨.sent, e.1⟩ ≠ none → ∃ p rest, tries s.world e.1 = p :: rest ∧
        accepted p.answer = true ∧ Refused rest ∧ (rest.length : ℤ) < max 1 cfg.attempts) ∧
      (s.world.files.get? ⟨.failed, e.1⟩ ≠ none → Refused (tries s.world e.1) ∧
        ((tries s.world e.1).length : ℤ) = max 1 cfg.attempts) := by
  intro e he
  have hI := books_reach h
  have hpdf := (hI.own e he).1.1
  exact ⟨hI.spaced rfl e.1, fun hsent => (hI.sent e.1 hpdf hsent).2 rfl,
    fun hfailed => (hI.failed e.1 hpdf hfailed).2 rfl⟩

/-! ## A run -/

/-- The first attempt is refused; the second, after a minute, is accepted. -/
def sampleEvents : List (Event Empty) :=
  [.arrive samplePdf (.data [37, 80, 68, 70]), .answers (.response 503 none), .poll] ++
    List.replicate 15 (.step none) ++
    [.tick 60000000, .answers (.response 200 (some (.str "f3"))), .poll] ++
    List.replicate 18 (.step none)

instance (clean : Bool) (s : State φ) : DecidablePred (Fresh clean s)
  | .arrive name _ => inferInstanceAs (Decidable (isPdf name = true →
      ((isPdf name = true ∧ name ≠ pdfSuffix) ∧ ¬ ['.', 'r', 'e', 't', 'r', 'y'] <:+ stem name) ∧
        name ∉ s.world.arrived.map Prod.fst))
  | .step f => inferInstanceAs (Decidable (clean = true → f = none))
  | .killed => inferInstanceAs (Decidable (clean = false))
  | .tick _ | .answers _ | .poll => inferInstanceAs (Decidable True)

/-- The document is in `sent/` after two requests. -/
def isSampleEnd (s : State Empty) : Bool :=
  s.world.arrived.any (fun e => e.1 = samplePdf) &&
    (s.world.files.get? ⟨.sent, samplePdf⟩).isSome && s.world.posts.length = 2

theorem exists_sample (clean : Bool) : ∃ s, (outbox samplePy sampleConfig 7).Reach (Fresh clean) s ∧
    isSampleEnd s = true := by
  have hrun : ((outbox samplePy sampleConfig 7).runOk (fun s l => decide (Fresh clean s l)) sampleStart
      sampleEvents).any isSampleEnd = true := by
    cases clean <;> decide +kernel
  obtain ⟨s, hs, hend⟩ := System.exists_of_runOk (T := outbox samplePy sampleConfig 7)
    ⟨⟨0, .raised, rfl⟩, rfl⟩ hrun
  exact ⟨s, hs.mono fun _ _ h => of_decide_eq_true h, hend⟩

theorem deliveries_accounted_sample : ∃ (s : State Empty) (e : Text × Content Empty),
    e ∈ s.world.arrived ∧ e.1 = samplePdf ∧
      (∃! stage, s.world.files.get? ⟨stage, e.1⟩ = some e.2) ∧
      ∃ p ∈ s.world.posts, p.name = e.1 ∧ p.document = e.2 ∧ accepted p.answer = true := by
  obtain ⟨s, hs, hend⟩ := exists_sample false
  simp only [isSampleEnd, Bool.and_eq_true, List.any_eq_true, decide_eq_true_eq] at hend
  obtain ⟨⟨⟨e, he, hname⟩, hsent⟩, -⟩ := hend
  have h := deliveries_accounted samplePy sampleConfig 7 hs e he
  exact ⟨s, e, he, hname, h.1, h.2.2.1 (by rw [hname]; exact Option.isSome_iff_ne_none.mp hsent)⟩

theorem attempts_spaced_sample : ∃ (s : State Empty) (e : Text × Content Empty),
    e ∈ s.world.arrived ∧ e.1 = samplePdf ∧ s.world.posts.length = 2 ∧
      Spaced sampleConfig (tries s.world e.1) ∧
      ∃ p rest, tries s.world e.1 = p :: rest ∧ accepted p.answer = true ∧ Refused rest ∧
        (rest.length : ℤ) < max 1 sampleConfig.attempts := by
  obtain ⟨s, hs, hend⟩ := exists_sample true
  simp only [isSampleEnd, Bool.and_eq_true, List.any_eq_true, decide_eq_true_eq] at hend
  obtain ⟨⟨⟨e, he, hname⟩, hsent⟩, hlength⟩ := hend
  have h := attempts_spaced samplePy sampleConfig 7 hs e he
  exact ⟨s, e, he, hname, hlength, h.1,
    h.2.1 (by rw [hname]; exact Option.isSome_iff_ne_none.mp hsent)⟩

end HaAddons.Outbox
