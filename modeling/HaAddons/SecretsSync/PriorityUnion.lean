import HaAddons.SecretsSync.Merge

/-!
# Merge as a priority union

Which names overlap, who keeps them, and when `merge` refuses.

* `merge_union` — under `priority` each name has the value of its first contribution and `shadowed`
  lists the overlaps in order. Under `error` a name in two contributions is refused and all others
  are united. A file path that is not safe is refused under both.
-/

namespace HaAddons.SecretsSync

/-- What `merge` is given: the providers in order, each with its snapshot. -/
abbrev Contributions := List (String × Snapshot)

/-- Each file path passes `safeRelpath`. -/
def SafePaths (cs : Contributions) : Prop :=
  ∀ c ∈ cs, ∀ path ∈ c.2.files.keys, safeRelpath path ≠ none

/-- The first provider that has the name. -/
def winnerOf {ν : Type} (get : Snapshot → Dict String ν) (cs : Contributions) (k : String) :
    Option String :=
  (cs.find? fun c => (get c.2).keys.contains k).map Prod.fst

/-- The names of a contribution that an earlier one has too. -/
def shadowsOf {ν : Type} (get : Snapshot → Dict String ν) (earlier : Contributions)
    (c : String × Snapshot) : List Shadow :=
  (get c.2).keys.filterMap fun k => (winnerOf get earlier k).map fun winner => (k, winner, c.1)

/-- All overlaps, in the order of the contributions. -/
def overlaps : Contributions → Contributions → List Shadow
  | _, [] => []
  | earlier, c :: cs =>
    shadowsOf Snapshot.secrets earlier c ++ shadowsOf Snapshot.files earlier c ++
      overlaps (earlier ++ [c]) cs

/-- The two contributions share no key and no file. -/
def Apart (c c' : String × Snapshot) : Prop :=
  (∀ k ∈ c.2.secrets.keys, k ∉ c'.2.secrets.keys) ∧ ∀ k ∈ c.2.files.keys, k ∉ c'.2.files.keys

/-- The result is the union in which the first contribution wins. -/
def Merged.Unites (m : Merged) (cs : Contributions) : Prop :=
  ∀ k, m.secrets.get? k = firstValue Snapshot.secrets cs k ∧
    m.files.get? k = firstValue Snapshot.files cs k

/-! ## Winners -/

section Winners

variable {ν : Type} {get : Snapshot → Dict String ν} {cs : Contributions} {k : String}

theorem winnerOf_append (c : String × Snapshot) :
    winnerOf get (cs ++ [c]) k =
      (winnerOf get cs k).or (if k ∈ (get c.2).keys then some c.1 else none) := by
  simp only [winnerOf, List.find?_append, List.find?_cons, List.find?_nil]
  cases cs.find? fun c => (get c.2).keys.contains k with
  | some w => simp
  | none =>
    by_cases hk : k ∈ (get c.2).keys
    · simp [hk]
    · simp [hk]

theorem winnerOf_eq_none : winnerOf get cs k = none ↔ ∀ c ∈ cs, k ∉ (get c.2).keys := by
  simp [winnerOf]

end Winners

/-! ## The entries of one contribution -/

section Entries

variable {ν : Type} {what provider : String} {s : Sources ν × List Shadow} {d : Dict String ν}

/-- A provider is known for the name, or the entries have it. -/
def Knows (provider : String) (src src' : Dict String String) (ks : List String) : Prop :=
  ∀ k, src'.get? k = (src.get? k).or (if k ∈ ks then some provider else none)

theorem foldlM_priority {es : List (String × ν)} (hnodup : (es.map Prod.fst).Nodup) :
    ∃ t, es.foldlM (addEntry .priority what provider) s = .ok (t, s.2 ++
        (es.map Prod.fst).filterMap fun k =>
          (s.1.src.get? k).map fun winner => (k, winner, provider)) ∧
      Knows provider s.1.src t.src (es.map Prod.fst) := by
  induction es generalizing s with
  | nil => exact ⟨s.1, by simp [pure, Except.pure], fun k => by simp⟩
  | cons e es ih =>
    rw [List.map_cons, List.nodup_cons] at hnodup
    rw [List.foldlM_cons]
    cases hsrc : s.1.src.get? e.1 with
    | some winner =>
      obtain ⟨t, ht, hknows⟩ := @ih (s.1, s.2 ++ [(e.1, winner, provider)]) hnodup.2
      have hstep : addEntry .priority what provider s e =
          .ok (s.1, s.2 ++ [(e.1, winner, provider)]) := by
        simp [addEntry, hsrc]
      refine ⟨t, ?_, fun k => ?_⟩
      · rw [hstep]
        simpa [bind, Except.bind, hsrc] using ht
      · rw [hknows k]
        by_cases hk : k = e.1
        · simp [hk, hsrc]
        · simp only [List.map_cons, List.mem_cons, hk, false_or]
    | none =>
      obtain ⟨t, ht, hknows⟩ :=
        @ih (⟨s.1.vals.insert e.1 e.2, s.1.src.insert e.1 provider⟩, s.2) hnodup.2
      have hstep : addEntry .priority what provider s e =
          .ok (⟨s.1.vals.insert e.1 e.2, s.1.src.insert e.1 provider⟩, s.2) := by
        simp [addEntry, hsrc]
      refine ⟨t, ?_, fun k => ?_⟩
      · rw [hstep]
        simp only [bind, Except.bind]
        rw [ht, List.map_cons, List.filterMap_cons_none (by simp [hsrc])]
        congr 3
        apply List.filterMap_congr
        intro k hk
        have hne : k ≠ e.1 := fun he => hnodup.1 (he ▸ hk)
        rw [Dict.get?_insert, if_neg hne]
      · rw [hknows k, Dict.get?_insert]
        by_cases hk : k = e.1
        · simp [hk, hsrc]
        · simp only [List.map_cons, List.mem_cons, hk, false_or, if_false]

/-- Under `priority` nothing is refused, and the known names of `d` are reported. -/
theorem addEntries_priority :
    ∃ t, addEntries .priority what provider s d = .ok (t, s.2 ++
        d.keys.filterMap fun k => (s.1.src.get? k).map fun winner => (k, winner, provider)) ∧
      Knows provider s.1.src t.src d.keys :=
  foldlM_priority d.nodup

theorem foldlM_error_fresh {es : List (String × ν)} (hnodup : (es.map Prod.fst).Nodup)
    (hfresh : ∀ k ∈ es.map Prod.fst, s.1.src.get? k = none) :
    es.foldlM (addEntry .error what provider) s =
      es.foldlM (addEntry .priority what provider) s := by
  induction es generalizing s with
  | nil => rfl
  | cons e es ih =>
    rw [List.map_cons, List.nodup_cons] at hnodup
    have hsrc : s.1.src.get? e.1 = none := hfresh e.1 (by simp)
    have hstep : ∀ policy, addEntry policy what provider s e =
        .ok (⟨s.1.vals.insert e.1 e.2, s.1.src.insert e.1 provider⟩, s.2) := by
      intro policy
      simp [addEntry, hsrc]
    rw [List.foldlM_cons, List.foldlM_cons, hstep, hstep]
    simp only [bind, Except.bind]
    apply ih hnodup.2
    intro k hk
    have hne : k ≠ e.1 := fun he => hnodup.1 (he ▸ hk)
    rw [Dict.get?_insert, if_neg hne]
    exact hfresh k (by simp [hk])

/-- Without a known name the policies agree. -/
theorem addEntries_fresh (hfresh : ∀ k ∈ d.keys, s.1.src.get? k = none) :
    addEntries .error what provider s d = addEntries .priority what provider s d :=
  foldlM_error_fresh d.nodup hfresh

theorem foldlM_error_known {es : List (String × ν)} {k w : String} (hk : k ∈ es.map Prod.fst)
    (hw : s.1.src.get? k = some w) :
    ∃ e, es.foldlM (addEntry .error what provider) s = .error e ∧ e.code = "key_collision" := by
  induction es generalizing s w with
  | nil => simp at hk
  | cons e es ih =>
    rw [List.foldlM_cons]
    cases hsrc : s.1.src.get? e.1 with
    | some winner =>
      have hstep : addEntry .error what provider s e = .error ⟨"key_collision",
          what ++ " '" ++ e.1 ++ "' provided by " ++ winner ++ " and " ++ provider⟩ := by
        simp [addEntry, hsrc]
      rw [hstep]
      exact ⟨_, rfl, rfl⟩
    | none =>
      have hne : k ≠ e.1 := fun he => by simp [← he, hw] at hsrc
      have hstep : addEntry .error what provider s e =
          .ok (⟨s.1.vals.insert e.1 e.2, s.1.src.insert e.1 provider⟩, s.2) := by
        simp [addEntry, hsrc]
      rw [hstep]
      refine @ih (⟨s.1.vals.insert e.1 e.2, s.1.src.insert e.1 provider⟩, s.2) w ?_ ?_
      · simpa [hne] using hk
      · simpa [Dict.get?_insert, hne] using hw

/-- A name that is known is refused under `error`. -/
theorem addEntries_known {k w : String} (hk : k ∈ d.keys) (hw : s.1.src.get? k = some w) :
    ∃ e, addEntries .error what provider s d = .error e ∧ e.code = "key_collision" :=
  foldlM_error_known hk hw

end Entries

/-! ## One contribution -/

section One

variable {earlier : Contributions} {s : MergeState} {c : String × Snapshot}

/-- The known providers are the winners among the contributions so far. -/
structure MergeState.Has (s : MergeState) (earlier : Contributions) : Prop where
  secrets : ∀ k, s.secrets.src.get? k = winnerOf Snapshot.secrets earlier k
  files : ∀ k, s.files.src.get? k = winnerOf Snapshot.files earlier k

/-- `mergeOne` on safe paths is the secrets, then the files. -/
theorem mergeOne_safe {policy : CollisionPolicy} (hsafe : SafePaths [c]) :
    mergeOne policy s c = (do
      let r ← addEntries policy "key" c.1 (s.secrets, s.shadowed) c.2.secrets
      let t ← addEntries policy "file" c.1 (s.files, r.2) c.2.files
      return ⟨r.1, t.1, t.2⟩) := by
  have hpaths : (c.2.files.keys.any fun path => (safeRelpath path).isNone) = false := by
    rw [List.any_eq_false]
    intro path hpath
    simpa using hsafe c (by simp) path hpath
  simp only [mergeOne, hpaths]
  rfl

theorem mergeOne_unsafe {policy : CollisionPolicy} (hsafe : ¬ SafePaths [c]) :
    ∃ e, mergeOne policy s c = .error e ∧ e.code = "unsafe_path" := by
  have hpaths : (c.2.files.keys.any fun path => (safeRelpath path).isNone) = true := by
    simpa [SafePaths] using hsafe
  simp only [mergeOne, hpaths]
  exact ⟨_, rfl, rfl⟩

theorem mergeOne_priority (hsafe : SafePaths [c]) (hs : s.Has earlier) :
    ∃ s', mergeOne .priority s c = .ok s' ∧ s'.Has (earlier ++ [c]) ∧
      s'.shadowed = s.shadowed ++ (shadowsOf Snapshot.secrets earlier c ++
        shadowsOf Snapshot.files earlier c) := by
  obtain ⟨t₁, h₁, hknows₁⟩ :=
    @addEntries_priority _ "key" c.1 (s.secrets, s.shadowed) c.2.secrets
  obtain ⟨t₂, h₂, hknows₂⟩ := @addEntries_priority _ "file" c.1
    (s.files, s.shadowed ++ shadowsOf Snapshot.secrets earlier c) c.2.files
  have hreport₁ : (c.2.secrets.keys.filterMap fun k =>
      (s.secrets.src.get? k).map fun winner => (k, winner, c.1)) =
      shadowsOf Snapshot.secrets earlier c := by
    simp only [shadowsOf, hs.secrets]
  have hreport₂ : (c.2.files.keys.filterMap fun k =>
      (s.files.src.get? k).map fun winner => (k, winner, c.1)) =
      shadowsOf Snapshot.files earlier c := by
    simp only [shadowsOf, hs.files]
  simp only [hreport₁] at h₁
  simp only [hreport₂] at h₂
  refine ⟨⟨t₁, t₂, _⟩, ?_, ⟨fun k => ?_, fun k => ?_⟩, List.append_assoc _ _ _⟩
  · rw [mergeOne_safe hsafe]
    simp only [bind, Except.bind, pure, Except.pure, h₁, h₂]
  · rw [winnerOf_append, ← hs.secrets, hknows₁ k]
  · rw [winnerOf_append, ← hs.files, hknows₂ k]

/-- The contribution shares nothing with those so far, and the policies agree. -/
theorem mergeOne_apart (hsafe : SafePaths [c]) (hs : s.Has earlier)
    (hapart : ∀ c' ∈ earlier, Apart c' c) :
    mergeOne .error s c = mergeOne .priority s c := by
  have hsecrets : ∀ k ∈ c.2.secrets.keys, s.secrets.src.get? k = none := by
    intro k hk
    rw [hs.secrets, winnerOf_eq_none]
    exact fun c' hc' hk' => (hapart c' hc').1 k hk' hk
  have hfiles : ∀ k ∈ c.2.files.keys, s.files.src.get? k = none := by
    intro k hk
    rw [hs.files, winnerOf_eq_none]
    exact fun c' hc' hk' => (hapart c' hc').2 k hk' hk
  have h₁ : addEntries .error "key" c.1 (s.secrets, s.shadowed) c.2.secrets =
      addEntries .priority "key" c.1 (s.secrets, s.shadowed) c.2.secrets :=
    addEntries_fresh hsecrets
  have h₂ : ∀ shadowed, addEntries .error "file" c.1 (s.files, shadowed) c.2.files =
      addEntries .priority "file" c.1 (s.files, shadowed) c.2.files :=
    fun shadowed => addEntries_fresh hfiles
  rw [mergeOne_safe hsafe, mergeOne_safe hsafe]
  simp only [h₁, h₂]

/-- A name of an earlier contribution is refused under `error`. -/
theorem mergeOne_clash (hsafe : SafePaths [c]) (hs : s.Has earlier)
    (hclash : ¬ ∀ c' ∈ earlier, Apart c' c) :
    ∃ e, mergeOne .error s c = .error e ∧ e.code = "key_collision" := by
  rw [mergeOne_safe hsafe]
  by_cases hsecrets : ∀ k ∈ c.2.secrets.keys, s.secrets.src.get? k = none
  · have hfiles : ∃ k ∈ c.2.files.keys, ∃ w, s.files.src.get? k = some w := by
      by_contra hnone
      refine hclash fun c' hc' => ⟨fun k hk hk' => ?_, fun k hk hk' => ?_⟩
      · have hwinner := hsecrets k hk'
        rw [hs.secrets, winnerOf_eq_none] at hwinner
        exact hwinner c' hc' hk
      · have hwinner : s.files.src.get? k = none := by
          by_contra hw
          exact hnone ⟨k, hk', Option.ne_none_iff_exists'.mp hw⟩
        rw [hs.files, winnerOf_eq_none] at hwinner
        exact hwinner c' hc' hk
    obtain ⟨k, hk, w, hw⟩ := hfiles
    obtain ⟨t, ht, -⟩ :=
      @addEntries_priority _ "key" c.1 (s.secrets, s.shadowed) c.2.secrets
    rw [← addEntries_fresh hsecrets] at ht
    obtain ⟨e, he, hcode⟩ := @addEntries_known _ "file" c.1 (s.files, _) c.2.files k w hk hw
    refine ⟨e, ?_, hcode⟩
    rw [ht]
    simp only [bind, Except.bind]
    rw [he]
  · push Not at hsecrets
    obtain ⟨k, hk, hw⟩ := hsecrets
    obtain ⟨w, hw⟩ := Option.ne_none_iff_exists'.mp hw
    obtain ⟨e, he, hcode⟩ :=
      @addEntries_known _ "key" c.1 (s.secrets, s.shadowed) c.2.secrets k w hk hw
    refine ⟨e, ?_, hcode⟩
    rw [he]
    rfl

end One

/-! ## All contributions -/

section All

variable {earlier cs : Contributions} {s : MergeState}

theorem foldlM_unsafe {policy : CollisionPolicy} (hsafe : ¬ SafePaths cs) :
    ∃ e, cs.foldlM (mergeOne policy) s = .error e := by
  induction cs generalizing s with
  | nil => exact absurd (fun c hc => by simp at hc) hsafe
  | cons c cs ih =>
    rw [List.foldlM_cons]
    by_cases hc : SafePaths [c]
    · have hcs : ¬ SafePaths cs := by
        intro hcs
        apply hsafe
        intro c' hc'
        cases List.mem_cons.mp hc' with
        | inl he => exact he ▸ hc c (by simp)
        | inr hm => exact hcs c' hm
      cases hone : mergeOne policy s c with
      | error e => exact ⟨e, rfl⟩
      | ok s' => exact ih hcs
    · have hone : ∃ e, mergeOne policy s c = .error e ∧ e.code = "unsafe_path" :=
        mergeOne_unsafe hc
      obtain ⟨e, he, -⟩ := hone
      exact ⟨e, by rw [he]; rfl⟩

theorem foldlM_mergeOne_priority (hsafe : SafePaths cs) (hs : s.Has earlier) :
    ∃ s', cs.foldlM (mergeOne .priority) s = .ok s' ∧
      s'.shadowed = s.shadowed ++ overlaps earlier cs := by
  induction cs generalizing s earlier with
  | nil => exact ⟨s, rfl, by simp [overlaps]⟩
  | cons c cs ih =>
    have hc : SafePaths [c] := fun c' hc' => hsafe c' (by simp_all)
    have hcs : SafePaths cs := fun c' hc' => hsafe c' (List.mem_cons_of_mem c hc')
    obtain ⟨s₁, hone, hs₁, hshadowed₁⟩ := mergeOne_priority hc hs
    obtain ⟨s', hrest, hshadowed⟩ := ih hcs hs₁
    refine ⟨s', ?_, ?_⟩
    · rw [List.foldlM_cons, hone]
      exact hrest
    · rw [hshadowed, hshadowed₁, overlaps, List.append_assoc]

theorem foldlM_mergeOne_apart (hsafe : SafePaths cs) (hs : s.Has earlier)
    (hearlier : ∀ c ∈ cs, ∀ c' ∈ earlier, Apart c' c) (hapart : cs.Pairwise Apart) :
    cs.foldlM (mergeOne .error) s = cs.foldlM (mergeOne .priority) s := by
  induction cs generalizing s earlier with
  | nil => rfl
  | cons c cs ih =>
    have hc : SafePaths [c] := fun c' hc' => hsafe c' (by simp_all)
    have hcs : SafePaths cs := fun c' hc' => hsafe c' (List.mem_cons_of_mem c hc')
    rw [List.pairwise_cons] at hapart
    obtain ⟨s₁, hone, hs₁, -⟩ := mergeOne_priority hc hs
    rw [List.foldlM_cons, List.foldlM_cons, mergeOne_apart hc hs (hearlier c (by simp)), hone]
    apply ih hcs hs₁ ?_ hapart.2
    intro d hd c' hc'
    cases List.mem_append.mp hc' with
    | inl hm => exact hearlier d (List.mem_cons_of_mem c hd) c' hm
    | inr he => exact List.mem_singleton.mp he ▸ hapart.1 d hd

theorem foldlM_mergeOne_clash (hsafe : SafePaths cs) (hs : s.Has earlier)
    (hclash : ¬ ((∀ c ∈ cs, ∀ c' ∈ earlier, Apart c' c) ∧ cs.Pairwise Apart)) :
    ∃ e, cs.foldlM (mergeOne .error) s = .error e ∧ e.code = "key_collision" := by
  induction cs generalizing s earlier with
  | nil => exact absurd ⟨fun c hc => by simp at hc, List.Pairwise.nil⟩ hclash
  | cons c cs ih =>
    have hc : SafePaths [c] := fun c' hc' => hsafe c' (by simp_all)
    have hcs : SafePaths cs := fun c' hc' => hsafe c' (List.mem_cons_of_mem c hc')
    rw [List.foldlM_cons]
    by_cases hone : ∀ c' ∈ earlier, Apart c' c
    · obtain ⟨s₁, hs₁, hhas₁, -⟩ := mergeOne_priority hc hs
      rw [mergeOne_apart hc hs hone, hs₁]
      refine ih hcs hhas₁ ?_
      rintro ⟨hearlier, hapart⟩
      refine hclash ⟨fun d hd c' hc' => ?_, List.pairwise_cons.mpr ⟨fun d hd => ?_, hapart⟩⟩
      · cases List.mem_cons.mp hd with
        | inl he => exact he ▸ hone c' hc'
        | inr hm => exact hearlier d hm c' (List.mem_append_left [c] hc')
      · exact hearlier d hd c (by simp)
    · obtain ⟨e, he, hcode⟩ := mergeOne_clash hc hs hone
      exact ⟨e, by rw [he]; rfl, hcode⟩

/-- Contributions that share no name have no overlaps. -/
theorem overlaps_eq_nil (hearlier : ∀ c ∈ cs, ∀ c' ∈ earlier, Apart c' c)
    (hapart : cs.Pairwise Apart) : overlaps earlier cs = [] := by
  induction cs generalizing earlier with
  | nil => rfl
  | cons c cs ih =>
    rw [List.pairwise_cons] at hapart
    have hsecrets : shadowsOf Snapshot.secrets earlier c = [] := by
      rw [shadowsOf, List.filterMap_eq_nil_iff]
      intro k hk
      rw [Option.map_eq_none_iff, winnerOf_eq_none]
      exact fun c' hc' hk' => (hearlier c (by simp) c' hc').1 k hk' hk
    have hfiles : shadowsOf Snapshot.files earlier c = [] := by
      rw [shadowsOf, List.filterMap_eq_nil_iff]
      intro k hk
      rw [Option.map_eq_none_iff, winnerOf_eq_none]
      exact fun c' hc' hk' => (hearlier c (by simp) c' hc').2 k hk' hk
    rw [overlaps, hsecrets, hfiles, ih ?_ hapart.2]
    · rfl
    · intro d hd c' hc'
      cases List.mem_append.mp hc' with
      | inl hm => exact hearlier d (List.mem_cons_of_mem c hd) c' hm
      | inr he => exact List.mem_singleton.mp he ▸ hapart.1 d hd

theorem empty_has : MergeState.empty.Has [] :=
  ⟨fun _ => rfl, fun _ => rfl⟩

theorem merge_of_foldlM {policy : CollisionPolicy}
    (h : cs.foldlM (mergeOne policy) .empty = .ok s) :
    merge cs policy = .ok ⟨s.secrets.vals, s.files.vals, s.shadowed⟩ := by
  rw [merge, h]
  rfl

theorem merge_of_error {policy : CollisionPolicy} {e : MergeError}
    (h : cs.foldlM (mergeOne policy) .empty = .error e) : merge cs policy = .error e := by
  rw [merge, h]
  rfl

end All

/-- **Priority union.** With safe paths, `priority` unites the contributions and reports the
overlaps, and `error` unites those that share no name and refuses all others. A path that is not
safe is always refused. -/
theorem merge_union (cs : Contributions) :
    (SafePaths cs → ∃ m, merge cs .priority = .ok m ∧ m.Unites cs ∧
        m.shadowed = overlaps [] cs) ∧
      (SafePaths cs → cs.Pairwise Apart → ∃ m, merge cs .error = .ok m ∧ m.Unites cs ∧
        m.shadowed = []) ∧
      (SafePaths cs → ¬ cs.Pairwise Apart →
        ∃ e, merge cs .error = .error e ∧ e.code = "key_collision") ∧
      (¬ SafePaths cs → ∀ policy, ∃ e, merge cs policy = .error e) := by
  refine ⟨fun hsafe => ?_, fun hsafe hapart => ?_, fun hsafe hclash => ?_, fun hsafe policy => ?_⟩
  · obtain ⟨s, hs, hshadowed⟩ := foldlM_mergeOne_priority hsafe empty_has
    have hm := merge_of_foldlM hs
    exact ⟨_, hm, fun k => merge_get? hm k, hshadowed⟩
  · have hearlier : ∀ c ∈ cs, ∀ c' ∈ ([] : Contributions), Apart c' c := by simp
    obtain ⟨s, hs, hshadowed⟩ := foldlM_mergeOne_priority hsafe empty_has
    have hm := merge_of_foldlM ((foldlM_mergeOne_apart hsafe empty_has hearlier hapart).trans hs)
    refine ⟨_, hm, fun k => merge_get? hm k, ?_⟩
    rw [overlaps_eq_nil hearlier hapart] at hshadowed
    exact hshadowed
  · obtain ⟨e, he, hcode⟩ := foldlM_mergeOne_clash hsafe empty_has fun h => hclash h.2
    exact ⟨e, merge_of_error he, hcode⟩
  · have hfold : ∃ e, cs.foldlM (mergeOne policy) .empty = .error e := foldlM_unsafe hsafe
    obtain ⟨e, he⟩ := hfold
    exact ⟨e, merge_of_error he⟩

/-- A single contribution overlaps with nothing, and its unsafe path is refused under
`priority`. -/
theorem merge_union_dotdot :
    ∃ cs : Contributions, cs.Pairwise Apart ∧ ∀ m, merge cs .priority ≠ .ok m := by
  refine ⟨[("vault", ⟨.empty, .ofList [("../x", [])]⟩)], List.pairwise_singleton _ _, ?_⟩
  have herr : merge [("vault", ⟨.empty, .ofList [("../x", [])]⟩)] .priority =
      .error ⟨"unsafe_path", "provider vault returned an unsafe file path"⟩ := by
    decide +kernel
  intro m hm
  rw [herr] at hm
  cases hm

end HaAddons.SecretsSync
