import HaAddons.Auth.RotateFailure

/-!
# Concurrent rotations

`Rotate` holds no lock between its steps, so two calls may rename the files in one order and publish
in the other (`crossed_rotations`). Then memory holds one token and the disk another, and the next
restart changes which one is accepted.

An observer notes which call renamed the token file last, which the grace file, and which published
last.

* `rotations_agree_iff` — once all calls have returned, memory and disk agree and one of the
  returned tokens is current, exactly when the last word on all three was one call's, or that of
  calls that wrote the same.
-/

namespace HaAddons.Auth

/-- The calls whose rename of the token file, rename of the grace file and publication came last. -/
structure LastCalls where
  token : Option ℕ := none
  grace : Option ℕ := none
  publish : Option ℕ := none
  deriving DecidableEq, Repr

def LastCalls.see (c : State) : Move Unit RotateAct → LastCalls → LastCalls
  | .move i .step, w =>
    match c.threads[i]?.map Rotation.pc with
    | some (.doing .rename) => { w with token := some i }
    | some (.doing .graceRename) => { w with grace := some i }
    | some (.doing .publish) => { w with publish := some i }
    | _ => w
  | _, w => w

/-- The runs of the pool, observed. -/
def watched : System (State × LastCalls) (Move Unit RotateAct) :=
  pool.system.observe {} LastCalls.see

/-- A restart loads what is in memory, the expiry to the second. -/
def Store.Consistent (s : Store) : Prop := newFileTokenStore s.dir = .ok s.mem.toSecond

/-- Memory and disk agree, and a token some call returned is the current one in both. -/
def Settled (c : State) : Prop :=
  c.shared.Consistent ∧ ∃ t ∈ c.threads,
    c.shared.mem.hash = some (tokenHash t.result.newPlaintext) ∧
      ∃ m, newFileTokenStore c.shared.dir = .ok m ∧
        m.hash = some (tokenHash t.result.newPlaintext)

/-- The last to publish is also the last to rename the token file, or drew a token with the same
hash; it is also the last to rename the grace file, or that call read the same previous hash and
took the clock in the same second; and there was a token when it began. -/
def OneLastWord (c : State) (w : LastCalls) : Prop :=
  ∃ i j k T G P, w.token = some i ∧ w.grace = some j ∧ w.publish = some k ∧
    c.threads[i]? = some T ∧ c.threads[j]? = some G ∧ c.threads[k]? = some P ∧
      (i = k ∨ tokenHash T.newPlaintext = tokenHash P.newPlaintext) ∧
        (j = k ∨ G.prevHash = P.prevHash ∧ G.expiresAt / second = P.expiresAt / second) ∧
          P.prevHash ≠ []

/-! ## What the observer knows -/

/-- The files and memory hold what the last calls wrote. -/
structure Recorded (c : State) (w : LastCalls) : Prop where
  token : ∀ i, w.token = some i → ∃ t, c.threads[i]? = some t ∧ t.pc.renamed = true ∧
    c.shared.dir.token = some (tokenHash t.newPlaintext)
  grace : ∀ i, w.grace = some i → ∃ t, c.threads[i]? = some t ∧ t.pc.graceRenamed = true ∧
    c.shared.dir.grace = some (.lines t.prevHash (t.expiresAt / second))
  publish : ∀ i, w.publish = some i → ∃ t, c.threads[i]? = some t ∧ t.pc = .returned ∧
    c.shared.mem = ⟨some (tokenHash t.newPlaintext), some ⟨t.prevHash, t.expiresAt⟩⟩
  renamed : ∀ t ∈ c.threads, t.pc.renamed = true → w.token ≠ none
  graceRenamed : ∀ t ∈ c.threads, t.pc.graceRenamed = true → w.grace ≠ none
  returned : ∀ t ∈ c.threads, t.pc = .returned → w.publish ≠ none

section Steps

variable {c : State} {w : LastCalls} {i : ℕ} {a : RotateAct} {t t' : Rotation} {s' : Store}

/-- The thread at a position after a step of thread `i`. -/
theorem getElem?_moved (ht : c.threads[i]? = some t) (j : ℕ) :
    (c.threads.set i t')[j]? = if j = i then some t' else c.threads[j]? := by
  obtain ⟨hi, -⟩ := List.getElem?_eq_some_iff.mp ht
  by_cases hj : j = i
  · subst hj
    simp [hi]
  · rw [if_neg hj, List.getElem?_set_ne (Ne.symm hj)]

theorem getElem?_self_moved (ht : c.threads[i]? = some t) :
    (c.threads.set i t')[i]? = some t' := by
  rw [getElem?_moved ht, if_pos rfl]

/-- A fact about one thread survives a step that keeps it of the moving thread. -/
theorem exists_moved {F F' : Rotation → Prop} (ht : c.threads[i]? = some t)
    (hF : F t → F' t') (hF' : ∀ u, F u → F' u) {j : ℕ} (h : ∃ u, c.threads[j]? = some u ∧ F u) :
    ∃ u, (c.threads.set i t')[j]? = some u ∧ F' u := by
  obtain ⟨u, hu, h⟩ := h
  rw [getElem?_moved ht]
  by_cases hj : j = i
  · subst hj
    obtain rfl : t = u := Option.some.inj (ht.symm.trans hu)
    exact ⟨t', if_pos rfl, hF h⟩
  · exact ⟨u, by rw [if_neg hj, hu], hF' u h⟩

theorem forall_moved {F : Rotation → Prop} (ht : F t') (h : ∀ u ∈ c.threads, F u) :
    ∀ u ∈ c.threads.set i t', F u := by
  intro u hu
  rcases List.mem_or_eq_of_mem_set hu with hu | rfl
  · exact h u hu
  · exact ht

theorem LastCalls.see_quiet (ht : c.threads[i]? = some t)
    (h : t.step c.shared a = some (s', t')) (hq : t.Quiet t') : LastCalls.see c (.move i a) w = w := by
  cases a with
  | step =>
    simp only [see, ht, Option.map_some]
    split
    · rename_i hpc
      have hpc := Option.some.inj hpc
      have hsame := hq.renamed
      rw [Rotation.step_next h hpc, hpc] at hsame
      cases hsame
    · rename_i hpc
      have hpc := Option.some.inj hpc
      have hsame := hq.graceRenamed
      rw [Rotation.step_next h hpc, hpc] at hsame
      cases hsame
    · rename_i hpc
      exact absurd (Rotation.step_next h (Option.some.inj hpc)) hq.pc
    · rfl
  | _ => rfl

/-- A step at one of the three writes is no failure. -/
theorem act_of_write {k : RotateStep} (h : t.step c.shared a = some (s', t'))
    (hpc : t.pc = .doing k) (hk : k = .rename ∨ k = .graceRename ∨ k = .publish)
    (ht' : t'.pc = k.next) : a = .step := by
  obtain ⟨pc, prevHash, newPlaintext, expiresAt⟩ := t
  obtain rfl : pc = .doing k := hpc
  cases a with
  | step => rfl
  | fail err =>
    obtain ⟨wrap, -, h⟩ := Option.map_eq_some_iff.mp h
    cases h
    rcases hk with rfl | rfl | rfl <;> cases ht'
  | random | now => rcases hk with rfl | rfl | rfl <;> cases h

theorem Recorded.move (hr : Recorded c w) (ht : c.threads[i]? = some t)
    (h : t.step c.shared a = some (s', t')) :
    Recorded ⟨s', c.threads.set i t'⟩ (LastCalls.see c (.move i a) w) := by
  have hmem := List.mem_of_getElem? ht
  rcases Rotation.step_cases h with ⟨rfl, hq⟩ | ⟨hpc, rfl, rfl⟩ | ⟨hpc, rfl, rfl⟩ | ⟨hpc, rfl, rfl⟩
  · rw [LastCalls.see_quiet ht h hq]
    exact {
      token := fun j hj => exists_moved ht (fun hd =>
        ⟨by rw [hq.renamed, hd.1], by rw [hq.newPlaintext hd.1]; exact hd.2⟩) (fun u hu => hu)
          (hr.token j hj)
      grace := fun j hj => exists_moved ht (fun hd => ⟨by rw [hq.graceRenamed, hd.1], by
        rw [(hq.entry hd.1).1, (hq.entry hd.1).2]; exact hd.2⟩) (fun u hu => hu) (hr.grace j hj)
      publish := fun j hj => exists_moved ht (fun hd =>
        absurd hd.1 (Rotation.not_returned h)) (fun u hu => hu) (hr.publish j hj)
      renamed := forall_moved (fun hp => hr.renamed t hmem (by rw [← hq.renamed, hp])) hr.renamed
      graceRenamed := forall_moved
        (fun hp => hr.graceRenamed t hmem (by rw [← hq.graceRenamed, hp])) hr.graceRenamed
      returned := forall_moved (fun hp => absurd hp hq.pc) hr.returned }
  · obtain rfl := act_of_write h hpc (.inl rfl) rfl
    have hsee : LastCalls.see c (.move i .step) w = { w with token := some i } := by
      simp only [LastCalls.see, ht, Option.map_some, hpc]
    rw [hsee]
    exact {
      token := fun j hj => by
        obtain rfl : i = j := Option.some.inj hj
        exact ⟨_, getElem?_self_moved ht, rfl, rfl⟩
      grace := fun j hj => exists_moved ht
        (fun hd => by simp [hpc, RotatePc.graceRenamed] at hd) (fun u hu => hu) (hr.grace j hj)
      publish := fun j hj => exists_moved ht (fun hd => by simp [hpc] at hd)
        (fun u hu => hu) (hr.publish j hj)
      renamed := fun _ _ _ => by simp
      graceRenamed := forall_moved (fun hp => by simp [RotatePc.graceRenamed] at hp)
        hr.graceRenamed
      returned := forall_moved (fun hp => by simp at hp) hr.returned }
  · obtain rfl := act_of_write h hpc (.inr (.inl rfl)) rfl
    have hsee : LastCalls.see c (.move i .step) w = { w with grace := some i } := by
      simp only [LastCalls.see, ht, Option.map_some, hpc]
    rw [hsee]
    exact {
      token := fun j hj => exists_moved ht (fun hd => ⟨rfl, hd.2⟩) (fun u hu => hu)
        (hr.token j hj)
      grace := fun j hj => by
        obtain rfl : i = j := Option.some.inj hj
        exact ⟨_, getElem?_self_moved ht, rfl, rfl⟩
      publish := fun j hj => exists_moved ht (fun hd => by simp [hpc] at hd)
        (fun u hu => hu) (hr.publish j hj)
      renamed := forall_moved (fun _ => hr.renamed t hmem (by rw [hpc]; rfl)) hr.renamed
      graceRenamed := fun _ _ _ => by simp
      returned := forall_moved (fun hp => by simp at hp) hr.returned }
  · obtain rfl := act_of_write h hpc (.inr (.inr rfl)) rfl
    have hsee : LastCalls.see c (.move i .step) w = { w with publish := some i } := by
      simp only [LastCalls.see, ht, Option.map_some, hpc]
    rw [hsee]
    exact {
      token := fun j hj => exists_moved ht (fun hd => ⟨rfl, hd.2⟩) (fun u hu => hu)
        (hr.token j hj)
      grace := fun j hj => exists_moved ht (fun hd => ⟨rfl, hd.2⟩) (fun u hu => hu)
        (hr.grace j hj)
      publish := fun j hj => by
        obtain rfl : i = j := Option.some.inj hj
        exact ⟨_, getElem?_self_moved ht, rfl, rfl⟩
      renamed := forall_moved (fun _ => hr.renamed t hmem (by rw [hpc]; rfl)) hr.renamed
      graceRenamed := forall_moved (fun _ => hr.graceRenamed t hmem (by rw [hpc]; rfl))
        hr.graceRenamed
      returned := fun _ _ _ => by simp }

theorem Recorded.call (hr : Recorded c w) :
    Recorded { c with threads := c.threads ++ [({} : Rotation)] } w := by
  have hkeep : ∀ {F : Rotation → Prop} {j : ℕ}, (∃ u, c.threads[j]? = some u ∧ F u) →
      ∃ u, (c.threads ++ [({} : Rotation)])[j]? = some u ∧ F u := by
    rintro F j ⟨u, hu, hF⟩
    obtain ⟨hj, -⟩ := List.getElem?_eq_some_iff.mp hu
    exact ⟨u, by rw [List.getElem?_append_left hj, hu], hF⟩
  have hnew : ∀ {F : Rotation → Prop}, F ({} : Rotation) → (∀ u ∈ c.threads, F u) →
      ∀ u ∈ c.threads ++ [({} : Rotation)], F u := by
    intro F h0 h u hu
    rcases List.mem_append.mp hu with hu | hu
    · exact h u hu
    · rw [List.mem_singleton.mp hu]
      exact h0
  exact {
    token := fun j hj => hkeep (hr.token j hj)
    grace := fun j hj => hkeep (hr.grace j hj)
    publish := fun j hj => hkeep (hr.publish j hj)
    renamed := hnew (fun h => by cases h) hr.renamed
    graceRenamed := hnew (fun h => by cases h) hr.graceRenamed
    returned := hnew (fun h => by cases h) hr.returned }

end Steps

/-! ## Runs -/

theorem recorded {v : State × LastCalls} (h : watched.Reachable v) : Recorded v.1 v.2 := by
  refine h.invariant (I := fun v => Recorded v.1 v.2) ?_ ?_
  · rintro ⟨c, w⟩ ⟨⟨-, hn⟩, rfl⟩
    simp only at hn
    constructor <;> simp [hn]
  · rintro ⟨c, w⟩ a ⟨c', w'⟩ hr - hn
    obtain ⟨hc, rfl⟩ := System.observe_next hn
    cases a with
    | call k =>
      rw [show c' = _ from Pool.next_call hc]
      exact hr.call
    | move i a =>
      obtain ⟨t, s', t', ht, hs, hc'⟩ := Pool.next_move hc
      rw [show c' = _ from hc']
      exact hr.move ht hs

/-- **Concurrent rotations.** Once all calls of a run have returned, memory and disk agree and a
returned token is current in both exactly when one call, or calls that wrote the same, had the last
word on the token file, the grace file and memory. -/
theorem rotations_agree_iff {c : State} {w : LastCalls} (h : watched.Reachable (c, w))
    (hcalls : c.threads ≠ []) (hdone : ∀ t ∈ c.threads, t.pc = .returned) :
    Settled c ↔ OneLastWord c w := by
  obtain ⟨u, hu⟩ := List.exists_mem_of_ne_nil _ hcalls
  have hr := recorded h
  have hud := hdone u hu
  obtain ⟨i, hi⟩ := Option.ne_none_iff_exists'.mp (hr.renamed u hu (by rw [hud]; rfl))
  obtain ⟨j, hj⟩ := Option.ne_none_iff_exists'.mp (hr.graceRenamed u hu (by rw [hud]; rfl))
  obtain ⟨k, hk⟩ := Option.ne_none_iff_exists'.mp (hr.returned u hu hud)
  obtain ⟨T, hT, -, htoken⟩ := hr.token i hi
  obtain ⟨G, hG, -, hgrace⟩ := hr.grace j hj
  obtain ⟨P, hP, -, hmem⟩ := hr.publish k hk
  have hdir : c.shared.dir = ⟨some (tokenHash T.newPlaintext),
      some (.lines G.prevHash (G.expiresAt / second))⟩ := by
    rw [← htoken, ← hgrace]
  simp only at hi hj hk hT hG hP hmem
  constructor
  · rintro ⟨hcons, -⟩
    refine ⟨i, j, k, T, G, P, hi, hj, hk, hT, hG, hP, ?_⟩
    rw [Store.Consistent, hdir, hmem] at hcons
    rcases load_rotated T.newPlaintext G.prevHash (G.expiresAt / second) with
      ⟨-, err, hl⟩ | ⟨hne, hl⟩
    · rw [hl] at hcons
      cases hcons
    · rw [hl] at hcons
      simp only [Mem.toSecond, Option.map_some, Except.ok.injEq, Mem.mk.injEq, Option.some.injEq,
        GraceEntry.mk.injEq] at hcons
      obtain ⟨hhash, hprev, hexp⟩ := hcons
      refine ⟨.inr hhash, .inr ⟨hprev, ?_⟩, hprev ▸ hne⟩
      exact Int.eq_of_mul_eq_mul_right (by decide) hexp
  · rintro ⟨i', j', k', T', G', P', hi', hj', hk', hT', hG', hP', hword⟩
    obtain rfl : i = i' := Option.some.inj (hi.symm.trans hi')
    obtain rfl : j = j' := Option.some.inj (hj.symm.trans hj')
    obtain rfl : k = k' := Option.some.inj (hk.symm.trans hk')
    obtain rfl : T = T' := Option.some.inj (hT.symm.trans hT')
    obtain rfl : G = G' := Option.some.inj (hG.symm.trans hG')
    obtain rfl : P = P' := Option.some.inj (hP.symm.trans hP')
    obtain ⟨htok, hgr, hne⟩ := hword
    have hhash : tokenHash T.newPlaintext = tokenHash P.newPlaintext := by
      rcases htok with rfl | h
      · rw [Option.some.inj (hT.symm.trans hP)]
      · exact h
    have hentry : G.prevHash = P.prevHash ∧ G.expiresAt / second = P.expiresAt / second := by
      rcases hgr with rfl | h
      · rw [Option.some.inj (hG.symm.trans hP)]
        exact ⟨rfl, rfl⟩
      · exact h
    rw [hhash, hentry.1, hentry.2] at hdir
    have hload : newFileTokenStore c.shared.dir = .ok c.shared.mem.toSecond := by
      rw [hdir, hmem]
      exact ((load_rotated P.newPlaintext P.prevHash _).resolve_left fun h => hne h.1).2
    refine ⟨hload, P, List.mem_of_getElem? hP, by rw [hmem]; rfl, _, hload, ?_⟩
    rw [hmem]
    rfl

/-! ## Concrete runs -/

/-- The first call writes both files, the second runs from start to end, and the first publishes. -/
def crossing : List (Move Unit RotateAct) :=
  [.call (), .call ()] ++ (upToPublish (sampleRaw 2) 0).map (.move 0) ++
    (wholeCall (sampleRaw 3) 0).map (.move 1) ++ [.move 0 .step]

theorem rotations_differ : tokenHash (sampleToken 2) ≠ tokenHash (sampleToken 3) := by
  decide +kernel

/-- Memory holds the first call's token and the disk the second's. -/
theorem crossed_rotations :
    ¬∀ c : State, pool.system.Reachable c → c.threads ≠ [] →
      (∀ t ∈ c.threads, t.pc = .returned) → Settled c := by
  intro hall
  have hrun : pool.system.run ⟨sampleStore, []⟩ crossing = some
      ⟨⟨⟨some (tokenHash (sampleToken 2)), some ⟨tokenHash (sampleToken 1), graceWindow⟩⟩,
        ⟨some (tokenHash (sampleToken 3)), some (.lines (tokenHash (sampleToken 1)) 86400)⟩⟩,
        [⟨.returned, tokenHash (sampleToken 1), sampleToken 2, graceWindow⟩,
          ⟨.returned, tokenHash (sampleToken 1), sampleToken 3, graceWindow⟩]⟩ := rfl
  obtain ⟨hcons, -⟩ := hall _ (System.reachable_of_run sampleStore_init hrun) (by simp) (by simp)
  rw [Store.Consistent] at hcons
  rcases load_rotated (sampleToken 3) (tokenHash (sampleToken 1)) 86400 with ⟨-, err, hl⟩ | ⟨-, hl⟩
  · rw [hl] at hcons
    cases hcons
  · rw [hl] at hcons
    exact rotations_differ (Option.some.inj (congrArg Mem.hash (Except.ok.inj hcons))).symm

/-- A call that runs alone has the last word on everything. -/
theorem rotations_agree_iff_alone :
    ∃ c w, watched.run (⟨sampleStore, []⟩, {})
        (.call () :: (wholeCall (sampleRaw 2) 0).map (.move 0)) = some (c, w) ∧ Settled c := by
  have hrun : watched.run (⟨sampleStore, []⟩, {})
      (.call () :: (wholeCall (sampleRaw 2) 0).map (.move 0)) = some
        (⟨⟨⟨some (tokenHash (sampleToken 2)), some ⟨tokenHash (sampleToken 1), graceWindow⟩⟩,
          ⟨some (tokenHash (sampleToken 2)), some (.lines (tokenHash (sampleToken 1)) 86400)⟩⟩,
          [⟨.returned, tokenHash (sampleToken 1), sampleToken 2, graceWindow⟩]⟩,
          ⟨some 0, some 0, some 0⟩) := rfl
  refine ⟨_, _, hrun, (rotations_agree_iff (System.reachable_of_run ⟨sampleStore_init, rfl⟩ hrun)
    (by simp) (by simp)).mpr ?_⟩
  refine ⟨0, 0, 0, _, _, _, rfl, rfl, rfl, rfl, rfl, rfl, .inl rfl, .inl rfl, ?_⟩
  exact List.ne_nil_of_length_pos (by rw [length_tokenHash]; decide)

end HaAddons.Auth
