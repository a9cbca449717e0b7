import HaAddons.Cups.UploadWorker
import HaAddons.Lib.Rely

/-!
# No document is lost

A ledger of the PDFs in the four stages, whatever the queue writes, whichever file operation fails and
wherever the container is killed.

* `stem_proper`, `isPdf_tagged` — what the worker's names come from.
* `Around` — what the queue, the clock and the server do between two steps of the worker.
* `Ledger` — every PDF that arrived is in one of the stages, or is known to be overwritten.
* `Fits.ledger` — an operation of the worker's kinds keeps the ledger.
* `documents_conserved` — the ledger in every run.
-/

namespace HaAddons.Outbox

open HaAddons.Lib.Py (Text strip)

variable {φ : Type}

/-! ## Names -/

/-- A name that the queue gives: `glob("*.pdf")` finds it, and it has a stem. -/
def Proper (name : Text) : Prop := isPdf name = true ∧ name ≠ pdfSuffix

theorem isPdf_iff {name : Text} : isPdf name = true ↔ ∃ x, name = x ++ pdfSuffix := by
  rw [isPdf, List.isSuffixOf_iff_suffix]
  constructor
  · rintro ⟨x, rfl⟩
    exact ⟨x, rfl⟩
  · rintro ⟨x, rfl⟩
    exact ⟨x, rfl⟩

theorem splitName_append {x ext : Text} (hx : x ≠ []) (hext : ext ≠ []) (hdot : '.' ∉ ext) :
    splitName (x ++ '.' :: ext) = (x, '.' :: ext) := by
  have htake : (x ++ '.' :: ext).reverse.takeWhile (· ≠ '.') = ext.reverse := by
    have hall : ∀ c ∈ ext.reverse, decide (c ≠ '.') = true := fun c hc =>
      decide_eq_true fun h => hdot (h ▸ List.mem_reverse.mp hc)
    rw [List.reverse_append, List.reverse_cons, List.append_assoc,
      List.takeWhile_append_of_pos hall]
    simp
  have hlen : (x ++ '.' :: ext).length - (ext.length + 1) = x.length := by simp
  simp only [splitName, htake, List.reverse_reverse, hlen, List.take_left]
  rw [if_pos ⟨by simp, hx, hext⟩]

theorem proper_iff {name : Text} : Proper name ↔ ∃ x ≠ [], name = x ++ pdfSuffix := by
  constructor
  · rintro ⟨hpdf, hne⟩
    obtain ⟨x, rfl⟩ := isPdf_iff.mp hpdf
    exact ⟨x, fun h => hne (by rw [h, List.nil_append]), rfl⟩
  · rintro ⟨x, hx, rfl⟩
    exact ⟨isPdf_iff.mpr ⟨x, rfl⟩, fun h => hx (List.append_left_eq_self.mp h)⟩

/-- The parts of a proper name. -/
theorem stem_proper {name : Text} (h : Proper name) :
    stem name ≠ [] ∧ suffix name = pdfSuffix ∧ name = stem name ++ pdfSuffix := by
  obtain ⟨x, hx, rfl⟩ := proper_iff.mp h
  have hsplit : splitName (x ++ pdfSuffix) = (x, pdfSuffix) :=
    splitName_append hx (by decide) (by decide)
  have hstem : stem (x ++ pdfSuffix) = x := congrArg Prod.fst hsplit
  rw [hstem]
  exact ⟨hx, congrArg Prod.snd hsplit, rfl⟩

/-- A name with a tag is proper again. -/
theorem proper_tagged {name t : Text} (h : Proper name) : Proper (tagged name t) := by
  obtain ⟨hne, hsuffix, -⟩ := stem_proper h
  rw [tagged, hsuffix]
  exact proper_iff.mpr ⟨stem name ++ t, by simp [hne], rfl⟩

theorem not_isPdf_of_getLast {name : Text} {c : Char} (h : name.getLast? = some c) (hc : c ≠ 'f') :
    isPdf name = false := by
  by_contra hpdf
  obtain ⟨x, rfl⟩ := isPdf_iff.mp (by simpa using hpdf)
  have hf : (x ++ pdfSuffix).getLast? = some 'f' := by simp [pdfSuffix]
  exact hc (Option.some.inj (h.symm.trans hf))

@[simp] theorem isPdf_sidecar (x : Text) : isPdf (x ++ sidecarSuffix) = false :=
  not_isPdf_of_getLast (c := 'n') (by simp [sidecarSuffix]) (by decide)

@[simp] theorem isPdf_retryState (x : Text) : isPdf (x ++ retryStateSuffix) = false :=
  not_isPdf_of_getLast (c := 'n') (by simp [retryStateSuffix]) (by decide)

@[simp] theorem isPdf_tmp (x : Text) : isPdf (x ++ tmpSuffix) = false :=
  not_isPdf_of_getLast (c := 'p') (by simp [tmpSuffix]) (by decide)

theorem isPdf_tagged_sidecar {x : Text} (hx : x ≠ []) (t : Text) :
    isPdf (tagged (x ++ sidecarSuffix) t) = false := by
  have hsplit : splitName (x ++ sidecarSuffix) = (x, sidecarSuffix) :=
    splitName_append hx (by decide) (by decide)
  simp only [tagged, stem, suffix, hsplit, isPdf_sidecar]

/-! ## Between two steps -/

/-- The queue writes to `incoming/` only, and the clock does not go back. -/
structure Around (w w' : World φ) : Prop where
  files : ∀ p, p.stage ≠ .incoming → w'.files.get? p = w.files.get? p
  stay : ∀ p, w.files.get? p ≠ none → w'.files.get? p ≠ none
  now : w.now ≤ w'.now
  posts : w'.posts = w.posts
  arrived : ∀ e ∈ w.arrived, e ∈ w'.arrived

instance : Script.Relies (Around (φ := φ)) where
  refl _ := ⟨fun _ _ => rfl, fun _ h => h, le_refl _, rfl, fun _ h => h⟩
  trans h h' := ⟨fun p hp => (h'.files p hp).trans (h.files p hp),
    fun p hp => h'.stay p (h.stay p hp), h.now.trans h'.now, h'.posts.trans h.posts,
    fun e he => h'.arrived e (h.arrived e he)⟩

/-- The step of somebody else. -/
def surroundings (w : World φ) : Event φ → Option (World φ)
  | .arrive name c => some (w.arrive name c)
  | .tick n => some { w with now := w.now + n }
  | .answers a => some { w with answer := a }
  | _ => none

theorem around_surroundings {w w' : World φ} {l : Event φ} (h : surroundings w l = some w') :
    Around w w' := by
  cases l with
  | arrive name c =>
    cases h
    refine ⟨fun p hp => ?_, fun p hp => ?_, le_refl _, rfl, fun e he => ?_⟩
    · have hne : p ≠ ⟨.incoming, name⟩ := fun h => hp (by rw [h])
      simp only [World.arrive, Dict.get?_insert, if_neg hne]
    · simp only [World.arrive, Dict.get?_insert]
      split
      · simp
      · exact hp
    · simp only [World.arrive]
      split
      · exact List.mem_cons_of_mem _ he
      · exact he
  | tick n =>
    cases h
    exact ⟨fun _ _ => rfl, fun _ h => h, by dsimp only; omega, rfl, fun _ he => he⟩
  | answers a =>
    cases h
    exact ⟨fun _ _ => rfl, fun _ h => h, le_refl _, rfl, fun _ he => he⟩
  | poll | step f | killed => cases h

/-! ## Runs -/

section Runs

variable {py : Python φ} {cfg : Config} {pid : ℕ} {may : Op → World φ → Bool} {I B : World φ → Prop}
  {ok : State φ → Event φ → Prop} {s s' : State φ}

/-- What is ahead of the worker keeps `I`, and leads to `B`. -/
def Ahead (may : Op → World φ → Bool) (I B : World φ → Prop) (s : State φ) : Prop :=
  I s.world ∧
    match s.worker with
    | none => B s.world
    | some worker => worker.Holds World.apply (fun o w => may o w = true) Around I (fun _ => B)
        (fun _ => B) s.world

/-- **Runs of the worker.** `I` holds all the way if the surroundings and every cycle keep it, where
`B` is what holds between two cycles. A worker can be killed where `B` holds all the way too. -/
theorem ahead_reach (hinit : ∀ now answer, I { files := .empty, now := now, answer := answer } ∧
      B { files := .empty, now := now, answer := answer })
    (hpoll : ∀ w, I w → B w →
      (pollOnce py cfg pid).Holds World.apply (fun o w => may o w = true) Around I (fun _ => B)
        (fun _ => B) w)
    (hothers : ∀ s l w', ok s l → I s.world → surroundings s.world l = some w' →
      I w' ∧ (B s.world → B w'))
    (hkilled : ∀ s, ok s .killed → I s.world → B s.world)
    (hstep : ∀ s f worker, ok s (.step f) → s.worker = some worker →
      Script.Permits may (s.world, worker) f = true)
    (h : (outbox py cfg pid).Reach ok s) : Ahead may I B s := by
  refine System.Reach.invariant (fun s hs => ?_) (fun s l s' hA hok hn => ?_) h
  · obtain ⟨⟨now, answer, hw⟩, hnone⟩ := hs
    rw [Ahead, hw, hnone]
    exact hinit now answer
  · obtain ⟨w, worker⟩ := s
    obtain ⟨hI, hahead⟩ := hA
    have hother : ∀ w', surroundings w l = some w' → Ahead may I B ⟨w', worker⟩ := by
      intro w' hw'
      obtain ⟨hI', hB⟩ := hothers ⟨w, worker⟩ l w' hok hI hw'
      refine ⟨hI', ?_⟩
      cases worker with
      | none => exact hB hahead
      | some script => exact hahead.among (around_surroundings hw')
    cases l with
    | arrive name c | tick n | answers a =>
      cases hn
      exact hother _ rfl
    | poll =>
      have hrefl : Around w w := Script.Relies.refl w
      cases worker with
      | none =>
        cases hn
        exact ⟨hI, hpoll w hI hahead⟩
      | some script =>
        cases script with
        | done a | raise e =>
          cases hn
          exact ⟨hI, hpoll w hI (hahead w hrefl hI)⟩
        | look k | op o s f => cases hn
    | step f =>
      cases worker with
      | none => cases hn
      | some script =>
        obtain ⟨⟨w', script'⟩, hs, hn⟩ := Option.map_eq_some_iff.mp hn
        cases hn
        exact hahead.next hI (hstep ⟨w, some script⟩ f script hok rfl) hs
    | killed =>
      cases hn
      exact ⟨hI, hkilled ⟨w, worker⟩ hok hI⟩

end Runs

/-! ## The ledger -/

section Ledger

variable {py : Python φ} {cfg : Config} {pid : ℕ} {w w' : World φ}

/-- The PDFs of all stages. -/
def documents (files : Dict Place (Content φ)) : List (Content φ) :=
  (files.entries.filter fun e => isPdf e.1.name).map Prod.snd

theorem documents_of_perm {files : Dict Place (Content φ)} {es : List (Place × Content φ)}
    (h : files.entries.Perm es) :
    (documents files).Perm ((es.filter fun e => isPdf e.1.name).map Prod.snd) :=
  (h.filter _).map _

theorem documents_insert (files : Dict Place (Content φ)) (p : Place) (c : Content φ) :
    (documents (files.insert p c)).Perm
      ((if isPdf p.name then [c] else []) ++ documents (files.erase p)) := by
  refine (documents_of_perm (files.perm_insert p c)).trans (.of_eq ?_)
  by_cases hp : isPdf p.name = true <;> simp [hp, documents]

/-- What is at a place, and the other PDFs. -/
theorem documents_erase (w : World φ) (p : Place) :
    (documents w.files).Perm ((w.losing p).map Prod.snd ++ documents (w.files.erase p)) := by
  cases hp : w.files.get? p with
  | none =>
    refine .of_eq ?_
    rw [documents, documents, Dict.erase_of_get?_none hp]
    simp [World.losing, hp]
  | some c =>
    refine (documents_of_perm (Dict.perm_erase hp)).trans (.of_eq ?_)
    by_cases hpdf : isPdf p.name = true <;> simp [World.losing, hp, hpdf, documents]

/-- The place is one that the worker or the queue may have to share: the name was in use when it came
again, or it has a tag. -/
def Shared (py : Python φ) (pid : ℕ) (w : World φ) (p : Place) : Prop :=
  match p.stage with
  | .incoming | .processing => p.name ∈ w.reused
  | .sent | .failed => ∃ name t, p.name = tagged name (tag py pid t)

/-- Every PDF that arrived is in a stage or is known to be overwritten, at a place that was shared. -/
structure Ledger (py : Python φ) (pid : ℕ) (w : World φ) : Prop where
  kept : (documents w.files ++ w.overwritten.map Prod.snd).Perm (w.arrived.map Prod.snd)
  apart : ∀ name, isPdf name = true → w.files.get? ⟨.incoming, name⟩ ≠ none →
    w.files.get? ⟨.processing, name⟩ ≠ none → name ∈ w.reused
  proper : ∀ p, w.files.get? p ≠ none → isPdf p.name = true → Proper p.name
  lost : ∀ e ∈ w.overwritten, Shared py pid w e.1

/-- The operations of the worker: PDFs are only moved, from `incoming/` to `processing/` under their
name, and from there to a place that is free or has a tag. -/
inductive Fits (py : Python φ) (pid : ℕ) (w : World φ) : Op → Prop
  | read (p : Place) : Fits py pid w (.read p)
  | post (p : Place) (url authorization title : Text) (timeout : ℤ) :
      Fits py pid w (.post p url authorization title timeout)
  | unlink (p : Place) : isPdf p.name = false → Fits py pid w (.unlink p)
  | writeState (p : Place) (n : ℤ) (t : String) : isPdf p.name = false →
      Fits py pid w (.writeState p n t)
  | side (src dst : Place) : isPdf src.name = false → isPdf dst.name = false →
      Fits py pid w (.replace src dst)
  | intake (name : Text) : Proper name →
      Fits py pid w (.replace ⟨.incoming, name⟩ ⟨.processing, name⟩)
  | settle (name : Text) (dst : Place) : Proper name → Proper dst.name →
      dst.stage = .sent ∨ dst.stage = .failed →
      (w.files.get? dst = none ∨ ∃ n t, dst.name = tagged n (tag py pid t)) →
      Fits py pid w (.replace ⟨.processing, name⟩ dst)

theorem losing_of_not_isPdf {p : Place} (h : isPdf p.name = false) : w.losing p = [] := by
  simp [World.losing, h]

/-- Other files do not count. -/
theorem documents_congr {files files' : Dict Place (Content φ)}
    (h : ∀ p, isPdf p.name = true → files'.get? p = files.get? p) :
    (documents files').Perm (documents files) := by
  have hnodup : ∀ files : Dict Place (Content φ),
      (files.entries.filter fun e => isPdf e.1.name).Nodup := fun files =>
    files.nodup_entries.filter _
  refine List.Perm.map _ ((List.perm_ext_iff_of_nodup (hnodup _) (hnodup _)).mpr fun e => ?_)
  rw [List.mem_filter, List.mem_filter, Dict.mem_entries, Dict.mem_entries]
  by_cases he : isPdf e.1.name = true
  · rw [h e.1 he]
  · simp [he]

/-- A move loses what was at its end, and nothing else. -/
theorem documents_move {src dst : Place} {c : Content φ} (hsrc : w.files.get? src = some c)
    (hne : src ≠ dst) (hpdf : isPdf src.name = isPdf dst.name) :
    (documents ((w.files.erase src).insert dst c) ++ (w.losing dst).map Prod.snd).Perm
      (documents w.files) := by
  have hsource := documents_erase w src
  have hdst := documents_erase { w with files := w.files.erase src } dst
  have hlosing : World.losing { w with files := w.files.erase src } dst = w.losing dst := by
    simp only [World.losing, Dict.get?_erase, if_neg (Ne.symm hne)]
  have hend := documents_insert (w.files.erase src) dst c
  rw [hlosing] at hdst
  have hhead : (w.losing src).map Prod.snd = if isPdf dst.name = true then [c] else [] := by
    simp only [World.losing, hsrc, hpdf]
    split <;> rfl
  rw [hhead] at hsource
  refine (hend.append_right _).trans ?_
  rw [List.append_assoc]
  exact ((List.perm_append_comm.trans hdst.symm).append_left _).trans hsource.symm

/-! ### Steps -/

theorem apply_replace {src dst : Place} (ha : World.apply (.replace src dst) w = .ok w') :
    ∃ c, w.files.get? src = some c ∧ (src = dst ∧ w' = w ∨ src ≠ dst ∧
      w' = { w with
        files := (w.files.erase src).insert dst c
        overwritten := w.losing dst ++ w.overwritten }) := by
  simp only [World.apply] at ha
  split at ha
  · cases ha
  · rename_i c hc
    refine ⟨c, hc, ?_⟩
    split at ha
    · exact .inl ⟨‹_›, (Except.ok.inj ha).symm⟩
    · exact .inr ⟨‹_›, (Except.ok.inj ha).symm⟩

theorem mem_losing {p : Place} {e : Place × Content φ} (h : e ∈ w.losing p) :
    e.1 = p ∧ w.files.get? p ≠ none := by
  simp only [World.losing] at h
  split at h
  · obtain ⟨c, hc, rfl⟩ := Option.map_eq_some_iff.mp (Option.mem_toList.mp h)
    exact ⟨rfl, by rw [hc]; simp⟩
  · cases h

/-- A PDF is moved. -/
theorem Ledger.move {src dst : Place} {c : Content φ} (hw : Ledger py pid w)
    (hc : w.files.get? src = some c) (hne : src ≠ dst) (hpdf : isPdf src.name = isPdf dst.name)
    (hdst : Proper dst.name)
    (hapart : ∀ name, isPdf name = true →
      ((w.files.erase src).insert dst c).get? ⟨.incoming, name⟩ ≠ none →
      ((w.files.erase src).insert dst c).get? ⟨.processing, name⟩ ≠ none → name ∈ w.reused)
    (hshared : w.files.get? dst ≠ none → Shared py pid w dst) :
    Ledger py pid { w with
      files := (w.files.erase src).insert dst c
      overwritten := w.losing dst ++ w.overwritten } where
  kept := by
    rw [List.map_append, ← List.append_assoc]
    exact ((documents_move hc hne hpdf).append_right _).trans hw.kept
  apart := hapart
  proper p hp := by
    intro hpdf
    simp only [Dict.get?_insert, Dict.get?_erase] at hp
    split at hp
    · rename_i heq
      rw [heq]
      exact hdst
    · split at hp
      · exact absurd rfl hp
      · exact hw.proper p hp hpdf
  lost e he := by
    rcases List.mem_append.mp he with he | he
    · obtain ⟨rfl, hsome⟩ := mem_losing he
      exact hshared hsome
    · exact hw.lost e he

/-- What leaves the PDFs alone keeps the ledger. -/
theorem Ledger.frame (hw : Ledger py pid w)
    (hfiles : ∀ p, isPdf p.name = true → w'.files.get? p = w.files.get? p)
    (harrived : w'.arrived = w.arrived) (hreused : w'.reused = w.reused)
    (hlost : w'.overwritten = w.overwritten) : Ledger py pid w' := by
  refine ⟨?_, fun name hname => ?_, fun p hp hpdf => ?_, fun e he => ?_⟩
  · rw [harrived, hlost]
    exact ((documents_congr hfiles).append_right _).trans hw.kept
  · rw [hfiles ⟨.incoming, name⟩ hname, hfiles ⟨.processing, name⟩ hname, hreused]
    exact hw.apart name hname
  · rw [hfiles p hpdf] at hp
    exact hw.proper p hp hpdf
  · rw [hlost] at he
    have h := hw.lost e he
    rwa [Shared, ← hreused] at h

/-- **An operation keeps the ledger.** -/
theorem Fits.ledger {o : Op} (ho : Fits py pid w o) (hw : Ledger py pid w)
    (ha : World.apply o w = .ok w') : Ledger py pid w' := by
  have hother : ∀ {p q : Place}, isPdf p.name = false → isPdf q.name = true → q ≠ p := by
    intro p q hp hq h
    rw [h, hp] at hq
    cases hq
  cases ho with
  | read p =>
    simp only [World.apply] at ha
    split at ha
    · cases ha
      exact hw
    · cases ha
  | post p url authorization title timeout =>
    simp only [World.apply] at ha
    split at ha
    · cases ha
    · cases ha
      exact hw.frame (fun _ _ => rfl) rfl rfl rfl
  | unlink p hp =>
    simp only [World.apply] at ha
    split at ha
    · cases ha
      refine hw.frame (fun q hq => ?_) rfl rfl rfl
      rw [Dict.get?_erase, if_neg (hother hp hq)]
    · cases ha
  | writeState p n t hp =>
    cases ha
    refine hw.frame (fun q hq => ?_) rfl rfl rfl
    rw [Dict.get?_insert, if_neg (hother hp hq)]
  | side src dst hsrc hdst =>
    obtain ⟨c, hc, ⟨-, rfl⟩ | ⟨hne, rfl⟩⟩ := apply_replace ha
    · exact hw
    · refine hw.frame (fun q hq => ?_) rfl rfl (by simp [losing_of_not_isPdf hdst])
      rw [Dict.get?_insert, if_neg (hother hdst hq), Dict.get?_erase, if_neg (hother hsrc hq)]
  | intake name hname =>
    obtain ⟨c, hc, ⟨-, rfl⟩ | ⟨hne, rfl⟩⟩ := apply_replace ha
    · exact hw
    · refine hw.move hc hne rfl hname (fun n hn hin hproc => ?_) fun hsome =>
        hw.apart name hname.1 (by rw [hc]; simp) hsome
      have hnn : n ≠ name := by
        rintro rfl
        simp [Dict.get?_insert, Dict.get?_erase] at hin
      simp only [Dict.get?_insert, Dict.get?_erase, Place.mk.injEq, hnn, and_false, if_false,
        reduceCtorEq] at hin hproc
      exact hw.apart n hn hin hproc
  | settle name dst hname hproper hstage hfree =>
    obtain ⟨c, hc, ⟨-, rfl⟩ | ⟨hne, rfl⟩⟩ := apply_replace ha
    · exact hw
    · refine hw.move hc hne (hname.1.trans hproper.1.symm) hproper (fun n hn hin hproc => ?_)
        fun hsome => ?_
      · have hin' : (⟨.incoming, n⟩ : Place) ≠ dst := by
          rintro rfl
          simp at hstage
        have hproc' : (⟨.processing, n⟩ : Place) ≠ dst := by
          rintro rfl
          simp at hstage
        simp only [Dict.get?_insert, Dict.get?_erase, if_neg hin', if_neg hproc', Place.mk.injEq,
          reduceCtorEq, false_and, if_false, true_and] at hin hproc
        split at hproc
        · exact absurd rfl hproc
        · exact hw.apart n hn hin hproc
      · have htag := hfree.resolve_left hsome
        rw [Shared]
        rcases hstage with h | h <;> rw [h] <;> exact htag

/-- A file of the queue. -/
theorem Ledger.arrive {name : Text} {c : Content φ} (hw : Ledger py pid w)
    (hname : isPdf name = true → Proper name) : Ledger py pid (w.arrive name c) := by
  cases hpdf : isPdf name with
  | false =>
    refine hw.frame (fun q hq => ?_) ?_ ?_ ?_
    · have hne : q ≠ ⟨.incoming, name⟩ := by
        rintro rfl
        rw [hpdf] at hq
        cases hq
      simp only [World.arrive, Dict.get?_insert, if_neg hne]
    · simp [World.arrive, hpdf]
    · simp [World.arrive, hpdf]
    · simp [World.arrive, World.losing, hpdf]
  | true =>
    have hreused : ∀ n ∈ w.reused, n ∈ (w.arrive name c).reused := fun n hn => by
      simp only [World.arrive]
      split
      · exact List.mem_cons_of_mem _ hn
      · exact hn
    have hused : w.files.get? ⟨.incoming, name⟩ ≠ none ∨ w.files.get? ⟨.processing, name⟩ ≠ none →
        name ∈ (w.arrive name c).reused := fun h => by
      have hcond : isPdf name = true ∧ ((w.files.get? ⟨.incoming, name⟩).isSome ∨
          (w.files.get? ⟨.processing, name⟩).isSome) := by
        simpa [hpdf, Option.isSome_iff_ne_none] using h
      simp only [World.arrive]
      rw [if_pos hcond]
      exact List.mem_cons_self
    refine ⟨?_, fun n hn hin hproc => ?_, fun p hp hpp => ?_, fun e he => ?_⟩
    · have hdocs := documents_insert w.files ⟨.incoming, name⟩ c
      have hbefore := documents_erase w ⟨.incoming, name⟩
      have harrived : (w.arrive name c).arrived = (name, c) :: w.arrived := by
        simp [World.arrive, hpdf]
      rw [if_pos hpdf] at hdocs
      rw [harrived, List.map_cons]
      refine (hdocs.append_right _).trans (List.Perm.cons c ?_)
      show List.Perm (documents (w.files.erase ⟨.incoming, name⟩) ++
        (w.losing ⟨.incoming, name⟩ ++ w.overwritten).map Prod.snd) _
      rw [List.map_append, ← List.append_assoc]
      exact ((List.perm_append_comm.trans hbefore.symm).append_right _).trans hw.kept
    · by_cases hnn : n = name
      · subst hnn
        refine hused (.inr ?_)
        simpa [World.arrive, Dict.get?_insert] using hproc
      · refine hreused n (hw.apart n hn ?_ ?_)
        · simpa [World.arrive, Dict.get?_insert, hnn] using hin
        · simpa [World.arrive, Dict.get?_insert, hnn] using hproc
    · by_cases hpn : p = ⟨.incoming, name⟩
      · rw [hpn]
        exact hname hpdf
      · refine hw.proper p ?_ hpp
        simpa only [World.arrive, Dict.get?_insert, if_neg hpn] using hp
    · rcases List.mem_append.mp he with he | he
      · obtain ⟨hp, hsome⟩ := mem_losing he
        rw [hp]
        exact hused (.inl hsome)
      · have h := hw.lost e he
        rw [Shared] at h ⊢
        split at h
        · exact hreused _ h
        · exact hreused _ h
        · exact h
        · exact h

/-! ### The worker -/

/-- The static kinds of `Fits`. -/
def FitsAll (py : Python φ) (pid : ℕ) (o : Op) : Prop := ∀ w, Fits py pid w o

/-- The script keeps the ledger, and ends with `Q`. -/
abbrev Keeps (py : Python φ) (pid : ℕ) {α : Type} (Q : α → World φ → Prop) (s : Worker φ α)
    (w : World φ) : Prop :=
  s.Holds World.apply (fun _ _ => true = true) Around (Ledger py pid) Q (fun _ _ => True) w

theorem keeps_of_only {α : Type} {s : Worker φ α} (hs : s.Only (FitsAll py pid)) :
    Keeps py pid (fun _ _ => True) s w :=
  hs.holds fun _ w _ ho ha hI => (ho w).ledger hI ha

theorem keeps_act {o : Op} (h : ∀ w', Around w w' → Ledger py pid w' → Fits py pid w' o) :
    Keeps py pid (fun _ _ => True) (act o) w :=
  Script.Holds.act (fun w' _ hw hI ha => ⟨(h w' hw hI).ledger hI ha, fun _ _ _ => trivial⟩)
    fun _ _ _ _ _ _ _ _ => trivial

theorem stem_ne_nil {name : Text} (h : Proper name) : stem name ≠ [] := (stem_proper h).1

/-- Where `unique_destination` sends a file: to its name if that is free, else to a tagged one. -/
def Destination (py : Python φ) (pid : ℕ) (stage : Stage) (name : Text) (dst : Place)
    (w : World φ) : Prop :=
  (w.files.get? ⟨stage, name⟩ = none ∧ dst = ⟨stage, name⟩) ∨
    (w.files.get? ⟨stage, name⟩ ≠ none ∧ ∃ t, dst = ⟨stage, tagged name (tag py pid t)⟩)

theorem Around.destination {stage : Stage} {name : Text} {dst : Place} (h : Around w w')
    (hstage : stage ≠ .incoming) (hd : Destination py pid stage name dst w) :
    Destination py pid stage name dst w' := by
  rw [Destination, h.files ⟨stage, name⟩ hstage]
  exact hd

section Destination

variable {may : Op → World φ → Prop} {I : World φ → Prop} {R : Unit → World φ → Prop}

theorem uniqueDestination_holds {stage : Stage} {name : Text} {given : Option Text}
    (hstage : stage ≠ .incoming) (hgiven : ∀ t ∈ given, ∃ now, t = tag py pid now) :
    (uniqueDestination py pid stage name given).Holds World.apply may Around I
      (fun dst w => Destination py pid stage name dst w) R w := by
  intro w₁ h₁ hI₁
  cases hc : w₁.files.get? ⟨stage, name⟩ with
  | none =>
    simp only [hc]
    intro w₂ h₂ hI₂
    exact .inl ⟨by rw [h₂.files _ hstage, hc], rfl⟩
  | some c =>
    cases given with
    | none =>
      simp only [hc]
      intro w₂ h₂ hI₂ w₃ h₃ hI₃
      exact .inr ⟨by rw [h₃.files _ hstage, h₂.files _ hstage, hc]; simp, _, rfl⟩
    | some t =>
      obtain ⟨now, rfl⟩ := hgiven t rfl
      simp only [hc]
      intro w₂ h₂ hI₂
      exact .inr ⟨by rw [h₂.files _ hstage, hc]; simp, now, rfl⟩

end Destination

section Static

variable {K : Op → Prop} {pdf : Place}

theorem only_readJson (hK : ∀ p, K (.read p)) (p : Place) : (readJson p : Worker φ _).Only K :=
  ⟨hK p, fun _ => trivial, fun _ => trivial⟩

theorem only_readTitle (hK : ∀ p, K (.read p)) (pdf : Place) : (readTitle py pdf).Only K := by
  have hside : (readSidecar pdf : Worker φ _).Only K := by
    refine Script.Only.bind (fun _ => trivial) fun there => ?_
    split
    · exact only_readJson hK _
    · trivial
  exact hside.bind fun _ _ => trivial

theorem only_uploadDocument (hread : ∀ p, K (.read p))
    (hpost : ∀ p url auth title timeout, K (.post p url auth title timeout)) (pdf : Place) :
    (uploadDocument py cfg pdf).Only K :=
  (only_readTitle hread pdf).bind fun _ => (Script.Only.act (hpost ..)).bind fun _ =>
    Script.Only.bind (fun _ => trivial) fun _ => trivial

theorem only_loadRetryState (hread : ∀ p, K (.read p)) (pdf : Place) :
    (loadRetryState pdf : Worker φ _).Only K := by
  refine Script.Only.bind (fun _ => trivial) fun there => ?_
  split
  · trivial
  · exact (only_readJson hread _).bind fun _ => trivial

theorem only_isDue (hread : ∀ p, K (.read p)) (pdf : Place) : (isDue py pdf).Only K := by
  refine (only_loadRetryState hread pdf).bind fun state =>
    Script.Only.bind (fun _ => trivial) fun now => ?_
  split <;> trivial

theorem only_whenThere {p : Place} {s : Worker φ Unit} (hs : s.Only K) : (whenThere p s).Only K := by
  refine Script.Only.bind (fun _ => trivial) fun there => ?_
  split
  · exact hs
  · trivial

theorem only_saveRetryState {n t : ℤ}
    (hwrite : ∀ s, K (.writeState
      ⟨(retryStatePath pdf).stage, (retryStatePath pdf).name ++ tmpSuffix⟩ n s))
    (hreplace : K (.replace ⟨(retryStatePath pdf).stage, (retryStatePath pdf).name ++ tmpSuffix⟩
      (retryStatePath pdf))) : (saveRetryState py pdf n t).Only K :=
  (Script.Only.act (hwrite _)).bind fun _ => Script.Only.act hreplace

theorem only_uniqueDestination (stage : Stage) (name : Text) (given : Option Text) :
    (uniqueDestination py pid stage name given).Only fun _ => False := by
  refine Script.Only.bind (fun _ => trivial) fun there => ?_
  split
  · trivial
  · cases given with
    | none => exact fun _ => trivial
    | some t => trivial

theorem only_collisionTag (name : Text) : (collisionTag py pid name).Only fun _ => False := by
  refine Script.Only.bind (fun _ => trivial) fun there => ?_
  split
  · exact fun _ => trivial
  · trivial

end Static

theorem uploadDocument_keeps (pdf : Place) :
    Keeps py pid (fun _ _ => True) (uploadDocument py cfg pdf) w :=
  keeps_of_only (only_uploadDocument (fun p _ => .read p) (fun _ _ _ _ _ _ => .post ..) pdf)

theorem unlink_keeps {p : Place} (hp : isPdf p.name = false) :
    Keeps py pid (fun _ _ => True) (whenThere p (act (.unlink p))) w :=
  keeps_of_only (only_whenThere (Script.Only.act fun _ => .unlink p hp))

theorem whenThere_keeps {p : Place} {s : Worker φ Unit}
    (hs : ∀ w, Ledger py pid w → Keeps py pid (fun _ _ => True) s w) :
    Keeps py pid (fun _ _ => True) (whenThere p s) w := by
  intro w₁ _ hI₁
  show Keeps py pid _ (ite _ _ _) w₁
  split
  · exact hs w₁ hI₁
  · exact fun _ _ _ => trivial

/-- A PDF goes where `unique_destination` sends it, and so does a sidecar. -/
theorem moveTo_keeps {src : Place} {stage : Stage} {given : Option Text}
    (hsrc : (Proper src.name ∧ src.stage = .processing) ∨
      ∃ x ≠ [], src.name = x ++ sidecarSuffix)
    (hstage : stage = .sent ∨ stage = .failed) (hgiven : ∀ t ∈ given, ∃ now, t = tag py pid now)
    (hw : Ledger py pid w) : Keeps py pid (fun _ _ => True) (moveTo py pid src stage given) w := by
  have hne : stage ≠ .incoming := by rcases hstage with rfl | rfl <;> simp
  refine Script.Holds.seq hw (uniqueDestination_holds hne hgiven) fun dst w₁ h₁ hd => ?_
  refine keeps_act fun w₂ h₂ _ => ?_
  have hd₂ := h₂.destination hne hd
  obtain ⟨from_, name⟩ := src
  rcases hsrc with ⟨hname, rfl⟩ | ⟨x, hx, rfl⟩
  · rcases hd₂ with ⟨hfree, rfl⟩ | ⟨-, t, rfl⟩
    · exact .settle name _ hname hname hstage (.inl hfree)
    · exact .settle name _ hname (proper_tagged hname) hstage (.inr ⟨name, t, rfl⟩)
  · refine .side _ dst (isPdf_sidecar x) ?_
    rcases hd₂ with ⟨-, rfl⟩ | ⟨-, t, rfl⟩
    · exact isPdf_sidecar x
    · exact isPdf_tagged_sidecar hx _

theorem routeSent_keeps {name : Text} (hname : Proper name) (hw : Ledger py pid w) :
    Keeps py pid (fun _ _ => True) (routeSent py pid ⟨.processing, name⟩) w := by
  refine Script.Holds.seq hw (unlink_keeps (isPdf_sidecar _)) fun _ w₁ h₁ _ => ?_
  refine Script.Holds.seq h₁ (unlink_keeps (isPdf_retryState _)) fun _ w₂ h₂ _ => ?_
  exact moveTo_keeps (.inl ⟨hname, rfl⟩) (.inl rfl) (by simp) h₂

section Tags

variable {may : Op → World φ → Prop} {I : World φ → Prop} {R : Unit → World φ → Prop}

theorem collisionTag_holds (name : Text) :
    (collisionTag py pid name).Holds World.apply may Around I
      (fun given _ => ∀ t ∈ given, ∃ now, t = tag py pid now) R w := by
  intro w₁ h₁ hI₁
  cases hc : w₁.files.get? ⟨.failed, name⟩ with
  | none =>
    simp only [hc]
    intro w₂ h₂ hI₂
    simp
  | some c =>
    simp only [hc]
    intro w₂ h₂ hI₂ w₃ h₃ hI₃
    simp

end Tags

theorem routeFailed_keeps {name : Text} (hname : Proper name) (hw : Ledger py pid w) :
    Keeps py pid (fun _ _ => True) (routeFailed py pid ⟨.processing, name⟩) w := by
  refine Script.Holds.seq hw (collisionTag_holds name) fun given w₁ h₁ hgiven => ?_
  refine Script.Holds.seq h₁ (moveTo_keeps (.inl ⟨hname, rfl⟩) (.inr rfl) hgiven h₁)
    fun _ w₂ h₂ _ => ?_
  refine Script.Holds.seq h₂ (whenThere_keeps fun w h => moveTo_keeps
    (.inr ⟨stem name, (stem_proper hname).1, rfl⟩) (.inr rfl) hgiven h) fun _ w₃ h₃ _ => ?_
  exact unlink_keeps (isPdf_retryState _)

theorem attemptAndRoute_keeps {name : Text} (hname : Proper name) (n : ℤ)
    (hw : Ledger py pid w) :
    Keeps py pid (fun _ _ => True) (attemptAndRoute py cfg pid ⟨.processing, name⟩ n) w := by
  refine Script.Holds.seq hw (uploadDocument_keeps _) fun sent w₁ h₁ _ => ?_
  split
  · exact routeSent_keeps hname h₁
  · dsimp only
    split
    · exact routeFailed_keeps hname h₁
    · refine fun _ _ _ => keeps_of_only (only_saveRetryState (fun _ _ => ?_) fun _ => ?_)
      · exact .writeState _ _ _ (isPdf_tmp _)
      · exact .side _ _ (isPdf_tmp _) (isPdf_retryState _)

theorem processNewDocument_keeps {name : Text} (hname : Proper name) (hw : Ledger py pid w) :
    Keeps py pid (fun _ _ => True) (processNewDocument py cfg pid name) w := by
  refine Script.Holds.seq hw (keeps_act fun _ _ _ => .intake name hname) fun _ w₁ h₁ _ => ?_
  refine Script.Holds.seq h₁ (keeps_of_only (only_whenThere (Script.Only.act fun _ => ?_)))
    fun _ w₂ h₂ _ => attemptAndRoute_keeps hname 0 h₂
  exact .side _ _ (isPdf_sidecar _) (isPdf_sidecar _)

theorem retryIfDue_keeps {name : Text} (hname : Proper name) (hw : Ledger py pid w) :
    Keeps py pid (fun _ _ => True) (retryIfDue py cfg pid name) w := by
  refine Script.Holds.seq hw (keeps_of_only (only_isDue (fun p _ => .read p) _))
    fun due w₁ h₁ _ => ?_
  split
  · refine Script.Holds.seq h₁ (keeps_of_only (only_loadRetryState (fun p _ => .read p) _))
      fun state w₂ h₂ _ => ?_
    split
    · exact attemptAndRoute_keeps hname _ h₂
    · exact fun _ _ _ => trivial
  · exact fun _ _ _ => trivial

theorem guarded_keeps {s : Worker φ Unit} (hw : Ledger py pid w)
    (hs : Keeps py pid (fun _ _ => True) s w) : Keeps py pid (fun _ _ => True) (guarded s) w :=
  Script.Holds.handle hw (hs.mono (fun _ _ _ h => h) fun _ _ _ _ _ _ _ => trivial)

theorem mem_pdfs {stage : Stage} {name : Text} :
    name ∈ pdfs w stage ↔ w.files.get? ⟨stage, name⟩ ≠ none ∧ isPdf name = true := by
  have hkey : w.files.get? ⟨stage, name⟩ ≠ none ↔ (⟨stage, name⟩ : Place) ∈ w.files.keys := by
    rw [Ne, Dict.get?_eq_none, not_not]
  rw [pdfs, List.mem_insertionSort, List.mem_map, hkey]
  constructor
  · rintro ⟨p, hp, rfl⟩
    obtain ⟨hmem, hcond⟩ := List.mem_filter.mp hp
    obtain ⟨rfl, hpdf⟩ := of_decide_eq_true hcond
    exact ⟨hmem, hpdf⟩
  · rintro ⟨hmem, hpdf⟩
    exact ⟨⟨stage, name⟩, List.mem_filter.mpr ⟨hmem, by simpa using hpdf⟩, rfl⟩

/-- A cycle over the documents that were found. -/
theorem loop_keeps {f : Text → Worker φ Unit} {names : List Text}
    (hf : ∀ name w, Proper name → Ledger py pid w → Keeps py pid (fun _ _ => True) (f name) w)
    (hnames : ∀ name ∈ names, Proper name) (hw : Ledger py pid w) :
    Keeps py pid (fun _ _ => True) (names.foldlM (fun _ name => guarded (f name)) ()) w := by
  have hloop : Keeps py pid (fun _ _ => ∀ name ∈ ([] : List Text), Proper name)
      (names.foldlM (fun _ name => guarded (f name)) ()) w :=
    Script.Holds.foldlM (P := fun names _ _ => ∀ name ∈ names, Proper name)
      (fun name names _ w hI hP => (guarded_keeps hI (hf name w (hP name List.mem_cons_self) hI)).mono
        (fun _ _ _ _ n hn => hP n (List.mem_cons_of_mem _ hn)) fun _ _ _ _ => trivial)
      (fun _ _ _ h _ _ => h) hw hnames
  exact hloop.mono (fun _ _ _ _ => trivial) fun _ _ _ _ => trivial

theorem pollOnce_keeps :
    Keeps py pid (fun _ _ => True) (pollOnce py cfg pid) w := by
  have hproper : ∀ w stage, Ledger py pid w → ∀ name ∈ pdfs w stage, Proper name :=
    fun _ stage hw name hname =>
      have h := mem_pdfs.mp hname
      hw.proper ⟨stage, name⟩ h.1 h.2
  refine Script.Holds.get fun w₁ _ h₁ => ?_
  refine Script.Holds.seq h₁ (loop_keeps (fun _ _ hn h => processNewDocument_keeps hn h)
    (hproper w₁ _ h₁) h₁) fun _ w₂ h₂ _ => ?_
  exact Script.Holds.get fun w₃ _ h₃ => loop_keeps (fun _ _ hn h => retryIfDue_keeps hn h)
    (hproper w₃ _ h₃) h₃

end Ledger

/-- Every PDF of the queue has a stem. -/
def Named (_ : State φ) : Event φ → Prop
  | .arrive name _ => isPdf name = true → Proper name
  | _ => True

/-- **No document is lost.** Whatever the queue writes, whichever operations fail and wherever the
worker is killed, the PDFs of the four stages and those that were overwritten are, copy by copy,
exactly those that arrived; and a PDF is overwritten only by a namesake that arrived while the name
was in use in `incoming/` or `processing/`, or at a name with a tag. -/
theorem documents_conserved (py : Python φ) (cfg : Config) (pid : ℕ) {s : State φ}
    (h : (outbox py cfg pid).Reach Named s) :
    (documents s.world.files ++ s.world.overwritten.map Prod.snd).Perm
        (s.world.arrived.map Prod.snd) ∧
      ∀ e ∈ s.world.overwritten, Shared py pid s.world e.1 := by
  have hledger : Ahead (fun _ _ => true) (Ledger py pid) (fun _ => True) s := by
    refine ahead_reach (fun now answer => ⟨⟨.refl _, ?_, ?_, ?_⟩, trivial⟩)
      (fun _ _ _ => pollOnce_keeps) (fun s l w' hok hI hw' => ⟨?_, fun _ => trivial⟩)
      (fun _ _ _ => trivial) (fun _ f worker _ _ => ?_) h
    · simp
    · simp
    · simp
    · cases l with
      | arrive name c =>
        cases hw'
        exact hI.arrive hok
      | tick n | answers a =>
        cases hw'
        exact hI.frame (fun _ _ => rfl) rfl rfl rfl
      | poll | step f | killed => cases hw'
    · cases worker <;> cases f <;> rfl
  exact ⟨hledger.1.kept, hledger.1.lost⟩

/-- The worker is killed with a document in `processing/`, and the name comes again. -/
def reuseEvents : List (Event Empty) :=
  [.arrive samplePdf (.data [1]), .poll, .step none, .step none, .killed,
    .arrive samplePdf (.data [2]), .poll, .step none, .step none]

theorem documents_conserved_reuse : ∃ s : State Empty, s.world.overwritten.length = 1 ∧
    (documents s.world.files ++ s.world.overwritten.map Prod.snd).Perm
        (s.world.arrived.map Prod.snd) ∧
      ∀ e ∈ s.world.overwritten, Shared samplePy 7 s.world e.1 := by
  have hrun : ((outbox samplePy sampleConfig 7).runOk (fun _ l =>
      match l with
      | .arrive name _ => isPdf name && name ≠ pdfSuffix
      | _ => true) sampleStart reuseEvents).any (fun s => s.world.overwritten.length = 1) = true := by
    decide +kernel
  obtain ⟨s, hs, hend⟩ := System.exists_of_runOk (T := outbox samplePy sampleConfig 7)
    ⟨⟨0, .raised, rfl⟩, rfl⟩ hrun
  have hnamed : (outbox samplePy sampleConfig 7).Reach Named s := by
    refine hs.mono fun _ l h => ?_
    cases l with
    | arrive name c =>
      rw [Bool.and_eq_true, decide_eq_true_eq] at h
      exact fun _ => h
    | _ => trivial
  exact ⟨s, of_decide_eq_true hend, documents_conserved samplePy sampleConfig 7 hnamed⟩

end HaAddons.Outbox
