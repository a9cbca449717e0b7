import HaAddons.SecretsSync.ShrinkGuard

/-!
# One map of provider files after another

`write_files` creates the files of the new map before it removes those of the old one, and a path
that turns from a file into a directory, or back, meets what is still there.

* `target_ends` — the walk to a path reaches it, or something is in the way.
* `follows_iff` — where nothing else fails, the new map takes the place of the old one exactly when
  nothing is in the way of its paths.
-/

namespace HaAddons.SecretsSync

/-! ## What is in the way -/

/-- A path cannot be walked to: it is a directory itself, or the way to it leads through something
else. -/
def Blocked (t : Tree) (p : Path) : Prop :=
  t.get? p = some .dir ∨ ∃ q, q ≠ [] ∧ q <+: p ∧
    (t.get? q = some .link ∨ t.get? q = some .other ∨ q ≠ p ∧ ∃ x, t.get? q = some (.file x))

/-- The way to a free path leads through directories. -/
theorem dir_of_free {t : Tree} {p q : Path} (h : t.Free p) (hq : q ≠ []) (hpre : q <+: p)
    (hne : q ≠ p) : t.get? q = some .dir := by
  obtain ⟨r, rfl⟩ := hpre
  have hr : r ≠ [] := by
    rintro rfl
    exact hne (List.append_nil q).symm
  obtain ⟨hp, hdir, -⟩ := h
  rw [List.dropLast_append_of_ne_nil hr] at hdir
  cases hlast : r.dropLast with
  | nil =>
    rw [hlast, List.append_nil] at hdir
    exact hdir.resolve_left hq
  | cons s rest =>
    rw [hlast] at hdir
    have hget : t.get? (q ++ s :: rest) = some .dir := hdir.resolve_left (by simp)
    exact (Tree.dir_of_prefix hget).resolve_left hq

/-- The disk differs in directories on the way to a path only. -/
structure Paves (p : Path) (d d' : Disk) : Prop where
  grows : d.Grows d'
  only : ∀ q n, d'.tree.get? q = some n →
    d.tree.get? q = some n ∨ n = .dir ∧ q <+: p ∧ q ≠ p

theorem Paves.refl (p : Path) (d : Disk) : Paves p d d := ⟨.refl d, fun _ _ h => .inl h⟩

theorem Paves.trans {p : Path} {d d' d'' : Disk} (h : Paves p d d') (h' : Paves p d' d'') :
    Paves p d d'' := by
  refine ⟨h.grows.trans h'.grows, fun q n hq => ?_⟩
  rcases h'.only q n hq with hq | hq
  · exact h.only q n hq
  · exact .inr hq

/-- Files stay where they were. -/
theorem Paves.file {p q : Path} {d d' : Disk} (h : Paves p d d') {x : Bytes} :
    d'.tree.get? q = some (.file x) ↔ d.tree.get? q = some (.file x) := by
  refine ⟨fun hq => ?_, fun hq => h.grows.get? hq⟩
  rcases h.only q _ hq with hq | ⟨hdir, -⟩
  · exact hq
  · cases hdir

/-- The walk to a path where nothing fails by itself. -/
theorem target_ends (create : Bool) {parts : List String} (hne : parts ≠ []) {d : Disk}
    {cur : Path} (hdir : d.tree.IsDir cur) :
    (target create cur parts).Ends Disk.apply (fun _ _ _ => False)
      (fun r d' => Paves (cur ++ parts) d d' ∧ (create = false → d' = d) ∧
        (r = some (cur ++ parts) ∧ d'.tree.Free (cur ++ parts) ∧
            d'.tree.get? (cur ++ parts) = d.tree.get? (cur ++ parts) ∧
            (d.tree.get? (cur ++ parts) = none ∨
              ∃ x, d.tree.get? (cur ++ parts) = some (.file x)) ∨
          create = false ∧ r = none ∧ d.tree.get? (cur ++ parts) = none))
      (fun e d' => (∃ message, e = .unsafePath message) ∧ (create = false → d' = d) ∧
        Blocked d.tree (cur ++ parts)) d := by
  induction parts generalizing d cur with
  | nil => exact absurd rfl hne
  | cons part rest ih =>
    have hfull : cur ++ part :: rest = (cur ++ [part]) ++ rest := by simp
    have hpre : cur ++ [part] <+: cur ++ part :: rest := by
      rw [hfull]
      exact List.prefix_append _ _
    have hraise : ∀ {message : String}, Blocked d.tree (cur ++ part :: rest) →
        (Script.raise (.unsafePath message) : IoM (Option Path)).Ends Disk.apply
          (fun _ _ _ => False) (fun _ _ => False)
          (fun e d' => (∃ message, e = .unsafePath message) ∧ (create = false → d' = d) ∧
            Blocked d.tree (cur ++ part :: rest)) d :=
      fun h => ⟨⟨_, rfl⟩, fun _ => rfl, h⟩
    refine Script.Ends.bind (act_idle rfl (Script.Ends.get ?_) fun _ h => h.elim)
    cases hg : d.tree.get? (cur ++ [part]) with
    | none =>
      have hnone : d.tree.get? (cur ++ part :: rest) = none := by
        by_contra hn
        obtain ⟨n, hn⟩ := Option.ne_none_iff_exists'.mp hn
        rw [hfull] at hn
        cases rest with
        | nil => simp [hg] at hn
        | cons r rest =>
          rcases Tree.dir_of_prefix hn with hnil | hdir
          · simp at hnil
          · simp [hg] at hdir
      by_cases hrest : rest = []
      · subst hrest
        simp only [if_true]
        have hfree : d.tree.Free (cur ++ [part]) :=
          ⟨by simp, by simpa using hdir, by rw [hg]; simp⟩
        exact ⟨.refl _ d, fun _ => rfl, .inl ⟨rfl, hfree, rfl, .inl hg⟩⟩
      · simp only [hrest, if_false]
        cases create with
        | false => exact ⟨.refl _ d, fun _ => rfl, .inr ⟨rfl, rfl, hnone⟩⟩
        | true =>
          have hfree : d.tree.Free (cur ++ [part]) :=
            ⟨by simp, by simpa using hdir, by rw [hg]; simp⟩
          have hmk : Disk.apply (.mkdir (cur ++ [part])) d =
              .ok { d with tree := d.tree.put (cur ++ [part]) .dir hfree } := by
            show d.mkdir (cur ++ [part]) = _
            rw [Disk.mkdir, dif_pos ⟨hfree, hg⟩]
          refine Script.Ends.bind (Script.Ends.act (fun d' hd => ?_) fun cls h => ?_)
          · obtain ⟨hgrow, -, hget⟩ := Disk.mkdir_spec hd
            have hlast : cur ++ part :: rest ≠ cur ++ [part] := by simpa using hrest
            have hsame : d'.tree.get? (cur ++ part :: rest) = d.tree.get? (cur ++ part :: rest) := by
              rw [hget, if_neg hlast]
            have hpave : Paves (cur ++ part :: rest) d d' := by
              refine ⟨hgrow, fun q n hq => ?_⟩
              rw [hget] at hq
              split_ifs at hq with hqp
              · exact .inr ⟨(Option.some.inj hq).symm, hqp ▸ hpre, hqp ▸ hlast.symm⟩
              · exact .inl hq
            have hdir' : d'.tree.IsDir (cur ++ [part]) := .inr (by rw [hget, if_pos rfl])
            have ih := ih hrest hdir'
            rw [← hfull, hsame] at ih
            refine ih.mono (fun r d'' ⟨hp, _, hr⟩ => ⟨hpave.trans hp, nofun, ?_⟩)
              fun e d'' ⟨he, _, hb⟩ => ⟨he, nofun, ?_⟩
            · exact hr
            · rcases hb with hb | ⟨q, hqne, hq, hb⟩
              · exact .inl (hsame ▸ hb)
              · refine .inr ⟨q, hqne, hq, ?_⟩
                rw [hget] at hb
                split_ifs at hb with hqp
                · rcases hb with hb | hb | ⟨-, x, hb⟩ <;> cases hb
                · exact hb
          · rcases h with h | h
            · exact h.elim
            · rw [hmk] at h
              cases h
    | some n =>
      cases n with
      | link =>
        exact (hraise (.inr ⟨_, by simp, hpre, .inl hg⟩)).mono (fun _ _ h => h.elim) fun _ _ h => h
      | other =>
        have hb : Blocked d.tree (cur ++ part :: rest) := .inr ⟨_, by simp, hpre, .inr (.inl hg)⟩
        by_cases hrest : rest = []
        · simp only [hrest, if_true] at hraise hb ⊢
          exact (hraise hb).mono (fun _ _ h => h.elim) fun _ _ h => h
        · simp only [hrest, if_false]
          exact (hraise hb).mono (fun _ _ h => h.elim) fun _ _ h => h
      | file x =>
        by_cases hrest : rest = []
        · subst hrest
          simp only [if_true]
          have hfree : d.tree.Free (cur ++ [part]) :=
            ⟨by simp, by simpa using hdir, by rw [hg]; simp⟩
          exact ⟨.refl _ d, fun _ => rfl, .inl ⟨rfl, hfree, rfl, .inr ⟨x, hg⟩⟩⟩
        · have hb : Blocked d.tree (cur ++ part :: rest) :=
            .inr ⟨_, by simp, hpre, .inr (.inr ⟨by simpa using Ne.symm hrest, x, hg⟩)⟩
          simp only [hrest, if_false]
          exact (hraise hb).mono (fun _ _ h => h.elim) fun _ _ h => h
      | dir =>
        by_cases hrest : rest = []
        · subst hrest
          simp only [if_true]
          exact (hraise (.inl hg)).mono (fun _ _ h => h.elim) fun _ _ h => h
        · simp only [hrest, if_false]
          rw [hfull]
          exact ih hrest (.inr hg)

/-- A path that was walked to was not blocked. -/
theorem not_blocked_of_paves {p : Path} {d d' : Disk} (hpave : Paves p d d')
    (hfree : d'.tree.Free p)
    (hp : d.tree.get? p = none ∨ ∃ x, d.tree.get? p = some (.file x)) : ¬ Blocked d.tree p := by
  rintro (hdir | ⟨q, hq, hpre, hb⟩)
  · rcases hp with hp | ⟨x, hp⟩ <;> simp [hp] at hdir
  · by_cases hqp : q = p
    · subst hqp
      rcases hp with hp | ⟨x, hp⟩ <;> simp [hp] at hb
    · have hdir := dir_of_free hfree hq hpre hqp
      rcases hb with hb | hb | ⟨-, x, hb⟩
      · rw [hpave.grows.get? hb] at hdir
        cases hdir
      · rw [hpave.grows.get? hb] at hdir
        cases hdir
      · rw [hpave.grows.get? hb] at hdir
        cases hdir

/-! ## One file -/

/-- The path holds the bytes, and the rest differs in directories on the way to it only. -/
structure Puts (p : Path) (data : Bytes) (d d' : Disk) : Prop where
  manifest : d'.manifest = d.manifest
  there : d'.tree.get? p = some (.file data)
  keeps : ∀ q n, q ≠ p → d.tree.get? q = some n → d'.tree.get? q = some n
  only : ∀ q n, q ≠ p → d'.tree.get? q = some n →
    d.tree.get? q = some n ∨ n = .dir ∧ q <+: p

theorem Paves.puts {p : Path} {data : Bytes} {d d' : Disk} (h : Paves p d d')
    (hget : d'.tree.get? p = some (.file data)) : Puts p data d d' := by
  refine ⟨?_, hget, fun q n _ hq => h.grows.get? hq, fun q n _ hq => ?_⟩
  · obtain ⟨t, rfl, -⟩ := h.grows
    rfl
  · exact (h.only q n hq).imp_right fun ⟨hdir, hpre, _⟩ => ⟨hdir, hpre⟩

theorem Paves.replace {p : Path} {data : Bytes} {d d' d'' : Disk} (h : Paves p d d')
    (hd : d'.replace (.file p data) = .ok d'') : Puts p data d d'' := by
  have hmanifest : d'.manifest = d.manifest := by
    obtain ⟨t, rfl, -⟩ := h.grows
    rfl
  obtain ⟨t, rfl, ht⟩ := Disk.replace_file_spec hd
  refine ⟨hmanifest, by simp [ht], fun q n hqp hq => ?_, fun q n hqp hq => ?_⟩
  · show t.get? q = some n
    rw [ht, if_neg hqp]
    exact h.grows.get? hq
  · have hq : t.get? q = some n := hq
    rw [ht, if_neg hqp] at hq
    exact (h.only q n hq).imp_right fun ⟨hdir, hpre, _⟩ => ⟨hdir, hpre⟩

/-- Where a file is, nothing is in the way. -/
theorem Blocked.no_file {t : Tree} {p : Path} (h : Blocked t p) (x : Bytes) :
    t.get? p ≠ some (.file x) := by
  intro hx
  rcases h with hdir | ⟨q, hq, ⟨r, rfl⟩, hb⟩
  · simp [hx] at hdir
  · cases r with
    | nil =>
      rw [List.append_nil] at hx
      simp [hx] at hb
    | cons s rest =>
      have hdir : t.get? q = some .dir := (Tree.dir_of_prefix hx).resolve_left hq
      simp [hdir] at hb

/-- What is in the way of another path stays there. -/
theorem Puts.blocked {p q : Path} {data : Bytes} {d d' : Disk} (h : Puts p data d d')
    (hp : ¬ Blocked d.tree p) (hb : Blocked d.tree q) : Blocked d'.tree q := by
  rcases hb with hdir | ⟨r, hr, hpre, hb⟩
  · have hqp : q ≠ p := by
      rintro rfl
      exact hp (.inl hdir)
    exact .inl (h.keeps q _ hqp hdir)
  · refine .inr ⟨r, hr, hpre, ?_⟩
    by_cases hrp : r = p
    · subst hrp
      rcases hb with hb | hb | ⟨hne, -⟩
      · exact absurd (.inr ⟨r, hr, List.prefix_rfl, .inl hb⟩) hp
      · exact absurd (.inr ⟨r, hr, List.prefix_rfl, .inr (.inl hb)⟩) hp
      · exact .inr (.inr ⟨hne, data, h.there⟩)
    · rcases hb with hb | hb | ⟨hne, x, hb⟩
      · exact .inl (h.keeps r _ hrp hb)
      · exact .inr (.inl (h.keeps r _ hrp hb))
      · exact .inr (.inr ⟨hne, x, h.keeps r _ hrp hb⟩)

theorem Paves.blocked {p q : Path} {d d' : Disk} (h : Paves p d d') (hb : Blocked d.tree q) :
    Blocked d'.tree q := by
  rcases hb with hdir | ⟨r, hr, hpre, hb⟩
  · exact .inl (h.grows.get? hdir)
  · refine .inr ⟨r, hr, hpre, ?_⟩
    rcases hb with hb | hb | ⟨hne, x, hb⟩
    · exact .inl (h.grows.get? hb)
    · exact .inr (.inl (h.grows.get? hb))
    · exact .inr (.inr ⟨hne, x, h.grows.get? hb⟩)

/-- A file is in the way of nothing but what is below it. -/
theorem Puts.not_blocked {p q : Path} {data : Bytes} {d d' : Disk} (h : Puts p data d d')
    (hqp : ¬ q <+: p) (hpq : ¬ p <+: q) (hq : ¬ Blocked d.tree q) : ¬ Blocked d'.tree q := by
  have hne : q ≠ p := by
    rintro rfl
    exact hqp List.prefix_rfl
  rintro (hdir | ⟨r, hr, hpre, hb⟩)
  · rcases h.only q _ hne hdir with hdir | ⟨-, hpre⟩
    · exact hq (.inl hdir)
    · exact hqp hpre
  · have hrp : r ≠ p := by
      rintro rfl
      exact hpq hpre
    have hold : ∀ n, n ≠ .dir → d'.tree.get? r = some n → d.tree.get? r = some n :=
      fun n hn hr => (h.only r n hrp hr).resolve_right fun h => hn h.1
    refine hq (.inr ⟨r, hr, hpre, ?_⟩)
    rcases hb with hb | hb | ⟨hne, x, hb⟩
    · exact .inl (hold _ (by simp) hb)
    · exact .inr (.inl (hold _ (by simp) hb))
    · exact .inr (.inr ⟨hne, x, hold _ (by simp) hb⟩)

theorem readTarget_ends {rel : String} {p : Path} {d : Disk} {Q : Option Bytes → Disk → Prop}
    {R : Exc → Disk → Prop} (hnone : d.tree.get? p = none → Q none d)
    (hsome : ∀ x, d.tree.get? p = some (.file x) → Q (some x) d)
    (hp : d.tree.get? p = none ∨ ∃ x, d.tree.get? p = some (.file x)) :
    (readTarget rel p).Ends Disk.apply (fun _ _ _ => False) Q R d := by
  refine Script.Ends.get ?_
  rcases hp with hp | ⟨x, hp⟩
  · rw [hp]
    exact hnone hp
  · rw [hp]
    refine Script.Ends.bind (Script.Ends.handle ?_)
    exact act_idle rfl (hsome x hp) fun _ h => h.elim

/-- **One file of the map.** Where nothing fails by itself it is put there or skipped, or something
is in the way. -/
theorem writeOne_ends (sha : Bytes → String) (m : Manifest) (s : FilesResult × Manifest)
    {rel : String} {p : Path} (data : Bytes) (hp : safeRelpath rel = some p) {d : Disk} :
    (writeOne sha m s (rel, data)).Ends Disk.apply (fun _ _ _ => False)
      (fun r d' => ¬ Blocked d.tree p ∧
        (r.2 = s.2.insert rel (sha data) ∧ Puts p data d d' ∨
          rel ∉ m.keys ∧ (∃ x, d.tree.get? p = some (.file x)) ∧ Paves p d d'))
      (fun _ _ => Blocked d.tree p) d := by
  have hwalk : (targetOf true rel).Ends Disk.apply (fun _ _ _ => False)
      (fun r d' => r = some p ∧ Paves p d d' ∧ d'.tree.Free p ∧
        d'.tree.get? p = d.tree.get? p ∧
        (d.tree.get? p = none ∨ ∃ x, d.tree.get? p = some (.file x)))
      (fun _ _ => Blocked d.tree p) d := by
    simp only [targetOf, hp]
    have hroot : d.tree.IsDir [] := .inl rfl
    refine (target_ends true (safeRelpath_ne_nil hp) hroot).mono ?_ fun e d' h => h.2.2
    rintro r d' ⟨hpave, -, hr⟩
    obtain ⟨rfl, hfree, hsame, hthere⟩ := hr.resolve_right (by simp)
    exact ⟨rfl, hpave, hfree, hsame, hthere⟩
  refine Script.Ends.bind (hwalk.mono ?_ fun _ _ h => h)
  rintro _ d' ⟨rfl, hpave, hfree, hsame, hthere⟩
  have hclear : ¬ Blocked d.tree p := not_blocked_of_paves hpave hfree hthere
  generalize hQ : (fun (r : FilesResult × Manifest) (d' : Disk) => ¬ Blocked d.tree p ∧
    (r.2 = s.2.insert rel (sha data) ∧ Puts p data d d' ∨
      rel ∉ m.keys ∧ (∃ x, d.tree.get? p = some (.file x)) ∧ Paves p d d')) = Q
  have hput : ∀ {result d''}, Puts p data d d'' → Q (result, s.2.insert rel (sha data)) d'' := by
    rw [← hQ]
    exact fun h => ⟨hclear, .inl ⟨rfl, h⟩⟩
  have hwrite : (do
      atomicWrite (.file p data)
      pure ({ s.1 with written := s.1.written ++ [rel] }, s.2.insert rel (sha data)) :
        IoM (FilesResult × Manifest)).Ends Disk.apply (fun _ _ _ => False) Q
      (fun _ _ => Blocked d.tree p) d' := by
    refine Script.Ends.bind (Script.Ends.bind (act_idle rfl ?_ fun _ h => h.elim))
    refine Script.Ends.bind (Script.Ends.act (fun d'' hd => ?_) fun cls h => ?_)
    · exact act_idle rfl (hput (hpave.replace hd)) fun _ h => h.elim
    · rcases h with h | h
      · exact h.elim
      · simp [Disk.apply, Disk.replace, hfree] at h
  rw [← hsame] at hthere
  refine Script.Ends.bind (readTarget_ends (fun _ => ?_) (fun x hx => ?_) hthere)
  · simpa using hwrite
  · by_cases hxd : x = data
    · subst hxd
      simp only [ne_eq, not_true_eq_false, false_and, and_false, if_false]
      exact Script.Ends.bind (act_idle rfl (hput (hpave.puts hx)) fun _ h => h.elim)
    · by_cases hrel : rel ∈ m.keys
      · simpa [hxd, hrel] using hwrite
      · simp only [ne_eq, reduceCtorEq, not_false_eq_true, Option.some.injEq, hxd, hrel, and_self,
          if_true]
        rw [← hQ]
        exact ⟨hclear, .inr ⟨hrel, ⟨x, hsame.symm.trans hx⟩, hpave⟩⟩

/-- The empty parents go, and no file. -/
theorem rmParents_ends (parts : List String) {d : Disk} :
    (rmParents parts).Ends Disk.apply (fun _ _ _ => False)
      (fun _ d' => d'.manifest = d.manifest ∧
        ∀ q x, d'.tree.get? q = some (.file x) ↔ d.tree.get? q = some (.file x))
      (fun _ _ => False) d := by
  induction parts generalizing d with
  | nil => exact ⟨rfl, fun _ _ => Iff.rfl⟩
  | cons part rest ih =>
    refine ⟨fun d' hd => ?_, fun _ _ => ⟨rfl, fun _ _ => Iff.rfl⟩⟩
    simp only [Disk.apply, Disk.rmdir] at hd
    split_ifs at hd with h
    cases hd
    refine ih.mono (fun _ d'' hd => ⟨hd.1, fun q x => (hd.2 q x).trans ?_⟩) fun _ _ h => h
    show (d.tree.remove _ h.2).get? q = _ ↔ _
    rw [Tree.get?_remove]
    split_ifs with hq
    · rw [hq, h.1]
      simp
    · exact Iff.rfl

/-- **One file of the old manifest.** Where nothing fails by itself, it is gone, and no other file
is. -/
theorem removeOne_ends (result : FilesResult) (rel : String) {d : Disk} :
    (removeOne result rel).Ends Disk.apply (fun _ _ _ => False)
      (fun _ d' => d'.manifest = d.manifest ∧
        ∀ q x, d'.tree.get? q = some (.file x) ↔
          d.tree.get? q = some (.file x) ∧ safeRelpath rel ≠ some q)
      (fun _ _ => False) d := by
  cases hp : safeRelpath rel with
  | none =>
    simp only [removeOne, targetOf, hp]
    exact ⟨rfl, by simp⟩
  | some p =>
    have hsame : (∀ x, d.tree.get? p ≠ some (.file x)) → ∀ q x,
        d.tree.get? q = some (.file x) ↔ d.tree.get? q = some (.file x) ∧ some p ≠ some q := by
      refine fun hno q x => ⟨fun hq => ⟨hq, ?_⟩, And.left⟩
      rintro ⟨⟩
      exact hno x hq
    have hroot : d.tree.IsDir [] := .inl rfl
    have hwalk := target_ends false (safeRelpath_ne_nil hp) hroot
    have htarget : targetOf false rel = target false [] p := by simp only [targetOf, hp]
    simp only [List.nil_append] at hwalk
    unfold removeOne
    rw [htarget]
    refine Script.Ends.bind (Script.Ends.handle (hwalk.mono ?_ ?_))
    · rintro r d' ⟨-, hd, hr⟩
      obtain rfl := hd trivial
      rcases hr with ⟨rfl, -, -, hr⟩ | ⟨-, rfl, hnone⟩
      · refine Script.Ends.get ?_
        rcases hr with hnone | ⟨x, hx⟩
        · simp only [hnone, if_true]
          exact ⟨rfl, hsame (by simp [hnone])⟩
        · simp only [hx, reduceCtorEq, if_false]
          have hne : p ≠ [] := safeRelpath_ne_nil hp
          refine Script.Ends.bind (Script.Ends.act (fun d₁ hd => ?_) fun cls h => ?_)
          · obtain ⟨t, rfl, ht⟩ := Disk.unlink_spec hd
            refine Script.Ends.bind ((rmParents_ends _).mono ?_ fun _ _ h => h)
            rintro _ d'' ⟨hm, hfile⟩
            refine ⟨hm, fun q y => (hfile q y).trans ?_⟩
            show t.get? q = _ ↔ _
            rw [ht]
            by_cases hqp : q = p
            · simp [hqp]
            · simp [hqp, Ne.symm hqp]
          · rcases h with h | h
            · exact h
            · simp [Disk.apply, Disk.unlink, hne, hx] at h
      · exact ⟨rfl, hsame (by simp [hnone])⟩
    · rintro e d' ⟨⟨message, rfl⟩, hd, hb⟩
      obtain rfl := hd trivial
      exact ⟨rfl, hsame hb.no_file⟩

theorem saveManifest_ends (old new : Manifest) {d : Disk}
    (hold : d.manifest.getD .empty = old) :
    (saveManifest old new).Ends Disk.apply (fun _ _ _ => False)
      (fun _ d' => d'.tree = d.tree ∧
        ∀ rel, (d'.manifest.getD .empty).get? rel = new.get? rel)
      (fun _ _ => False) d := by
  unfold saveManifest
  split_ifs with hsame
  · refine ⟨rfl, fun rel => ?_⟩
    rw [hold]
    exact (Dict.same_iff.mp hsame rel).symm
  · refine orWriteFailed_ends (Script.Ends.bind (act_idle rfl ?_ fun _ h => h))
    refine Script.Ends.bind (act_idle rfl ?_ fun _ h => h)
    refine Script.Ends.bind (Script.Ends.act (fun d' hd => ?_) fun _ h => ?_)
    · cases hd
      exact act_idle rfl ⟨rfl, fun _ => rfl⟩ fun _ h => h
    · rcases h with h | h
      · exact h
      · cases h

/-! ## The whole call -/

/-- The tree holds nothing but directories and the files that the manifest lists. -/
structure Managed (d : Disk) : Prop where
  listed : ∀ p x, d.tree.get? p = some (.file x) →
    ∃ rel, safeRelpath rel = some p ∧ rel ∈ (d.manifest.getD .empty).keys
  plain : ∀ p, d.tree.get? p ≠ some .link ∧ d.tree.get? p ≠ some .other

/-- A map of safe paths, none of which leads through another. -/
structure Placeable (files : Dict String Bytes) : Prop where
  safe : ∀ rel ∈ files.keys, ∃ p, safeRelpath rel = some p
  apart : ∀ rel ∈ files.keys, ∀ rel' ∈ files.keys, ∀ p p', safeRelpath rel = some p →
    safeRelpath rel' = some p' → p <+: p' → p = p'

/-- The call succeeds, and the tree and the manifest hold the files of the map and no others. -/
def Follows (sha : Bytes → String) (files : Dict String Bytes) (d : Disk) : Prop :=
  ∃ r d', (writeFiles sha files).eval Disk.apply d [] = (.ok r, d') ∧
    (∀ p x, d'.tree.get? p = some (.file x) ↔
      ∃ rel, safeRelpath rel = some p ∧ files.get? rel = some x) ∧
    ∀ rel, (d'.manifest.getD .empty).get? rel = (files.get? rel).map sha

/-- No path of the map is a directory or leads through a file. -/
def Fits (files : Dict String Bytes) (t : Tree) : Prop :=
  ∀ rel ∈ files.keys, ∀ p, safeRelpath rel = some p →
    t.get? p ≠ some .dir ∧ ∀ q, q ≠ [] → q <+: p → q ≠ p → ∀ x, t.get? q ≠ some (.file x)

/-- In such a tree, that is all that can be in the way. -/
theorem fits_iff {files : Dict String Bytes} {d : Disk} (hd : Managed d) :
    Fits files d.tree ↔
      ∀ rel ∈ files.keys, ∀ p, safeRelpath rel = some p → ¬ Blocked d.tree p := by
  refine forall₄_congr fun rel _ p _ => ⟨fun h => ?_, fun h => ⟨fun hdir => h (.inl hdir), ?_⟩⟩
  · rintro (hdir | ⟨q, hq, hpre, hb⟩)
    · exact h.1 hdir
    · rcases hb with hb | hb | ⟨hne, x, hb⟩
      · exact (hd.plain q).1 hb
      · exact (hd.plain q).2 hb
      · exact h.2 q hq hpre hne x hb
  · exact fun q hq hpre hne x hx => h (.inr ⟨q, hq, hpre, .inr (.inr ⟨hne, x, hx⟩)⟩)

/-- While the entries in `todo` are still to be written, on the way from `b` to the new map. -/
structure Laying (sha : Bytes → String) (b : Disk) (files : Dict String Bytes)
    (todo : List (String × Bytes)) (s : FilesResult × Manifest) (d : Disk) : Prop where
  manifest : d.manifest = b.manifest
  nodup : (todo.map Prod.fst).Nodup
  sub : ∀ e ∈ todo, e ∈ files.entries
  clear : ∀ e ∈ todo, ∀ p, safeRelpath e.1 = some p → ¬ Blocked d.tree p
  file : ∀ p x, d.tree.get? p = some (.file x) ↔
    (∃ rel, safeRelpath rel = some p ∧ files.get? rel = some x ∧ rel ∉ todo.map Prod.fst) ∨
      b.tree.get? p = some (.file x) ∧
        ∀ rel ∈ files.keys, safeRelpath rel = some p → rel ∈ todo.map Prod.fst
  digests : ∀ rel, s.2.get? rel =
    if rel ∈ todo.map Prod.fst then none else (files.get? rel).map sha

/-- While the files in `todo` are still to be removed. -/
structure Clearing (b : Disk) (files : Dict String Bytes) (todo : List String)
    (_ : FilesResult) (d : Disk) : Prop where
  manifest : d.manifest = b.manifest
  sub : ∀ rel ∈ todo, rel ∉ files.keys
  nodup : todo.Nodup
  file : ∀ p x, d.tree.get? p = some (.file x) ↔
    (∃ rel, safeRelpath rel = some p ∧ files.get? rel = some x) ∨
      ∃ rel ∈ todo, safeRelpath rel = some p ∧ b.tree.get? p = some (.file x)

section Follows

variable {sha : Bytes → String} {files : Dict String Bytes} {b d d' : Disk}
  {todo : List (String × Bytes)} {s : FilesResult × Manifest} {rel : String} {data : Bytes}
  {p : Path}

theorem Laying.start (hb : Managed b) (hfits : Fits files b.tree) :
    Laying sha b files (toWrite files) ({}, .empty) b := by
  have hall : ∀ rel, rel ∈ (toWrite files).map Prod.fst ↔ rel ∈ files.keys := by
    intro rel
    rw [Dict.keys]
    exact ((List.perm_insertionSort _ files.entries).map Prod.fst).mem_iff
  refine ⟨rfl, toWrite_nodup files, fun e he => mem_toWrite.mp he, fun e he => ?_, fun p x => ?_,
    fun rel => ?_⟩
  · exact (fits_iff hb).mp hfits e.1 ((hall e.1).mp (List.mem_map_of_mem he))
  · refine ⟨fun h => .inr ⟨h, fun rel hrel _ => (hall rel).mpr hrel⟩, ?_⟩
    rintro (⟨rel, -, hget, hrel⟩ | ⟨h, -⟩)
    · exact absurd ((hall rel).mpr (Dict.mem_keys.mpr ⟨x, hget⟩)) hrel
    · exact h
  · split_ifs with h
    · rfl
    · rw [hall] at h
      rw [Dict.get?_eq_none.mpr h]
      rfl

/-- What is still there of the old map is listed. -/
theorem Laying.listed {x : Bytes} (h : Laying sha b files ((rel, data) :: todo) s d)
    (hb : Managed b) (hp : safeRelpath rel = some p) (hx : d.tree.get? p = some (.file x)) :
    rel ∈ (b.manifest.getD .empty).keys := by
  rcases (h.file p x).mp hx with ⟨rel', hrel', -, hnot⟩ | ⟨hold, -⟩
  · obtain rfl := safeRelpath_inj hrel' hp
    simp at hnot
  · obtain ⟨rel', hrel', hmem⟩ := hb.listed p x hold
    obtain rfl := safeRelpath_inj hrel' hp
    exact hmem

/-- A file of the map is there now. -/
theorem Laying.next (hfiles : Placeable files) (h : Laying sha b files ((rel, data) :: todo) s d)
    (hp : safeRelpath rel = some p) (hput : Puts p data d d') {result : FilesResult} :
    Laying sha b files todo (result, s.2.insert rel (sha data)) d' := by
  obtain ⟨hnot, hnodup⟩ := List.nodup_cons.mp h.nodup
  have hentry : files.get? rel = some data := Dict.mem_entries.mp (h.sub (rel, data) (by simp))
  have hkey : rel ∈ files.keys := Dict.mem_keys.mpr ⟨data, hentry⟩
  refine ⟨hput.manifest.trans h.manifest, hnodup, fun e he => h.sub e (by simp [he]),
    fun e he q hq => ?_, fun q x => ?_, fun r => ?_⟩
  · have hin : e.1 ∈ todo.map Prod.fst := List.mem_map_of_mem he
    have hne : e.1 ≠ rel := fun heq => hnot (show rel ∈ _ from heq ▸ hin)
    have hmem : e.1 ∈ files.keys :=
      Dict.mem_keys.mpr ⟨e.2, Dict.mem_entries.mp (h.sub e (by simp [he]))⟩
    have hqp : q ≠ p := by
      rintro rfl
      exact hne (safeRelpath_inj hq hp)
    refine hput.not_blocked (fun hpre => ?_) (fun hpre => ?_) (h.clear e (by simp [he]) q hq)
    · exact hqp (hfiles.apart e.1 hmem rel hkey q p hq hp hpre)
    · exact hqp (hfiles.apart rel hkey e.1 hmem p q hp hq hpre).symm
  · by_cases hqp : q = p
    · subst hqp
      rw [hput.there]
      refine ⟨fun hx => .inl ⟨rel, hp, ?_, hnot⟩, ?_⟩
      · obtain rfl : data = x := by simpa using hx
        exact hentry
      · rintro (⟨r, hr, hget, -⟩ | ⟨-, hall⟩)
        · obtain rfl := safeRelpath_inj hr hp
          simpa [hentry] using hget
        · exact absurd (hall rel hkey hp) hnot
    · have hne : ∀ {r}, safeRelpath r = some q → r ≠ rel := by
        rintro r hr rfl
        exact hqp (by simpa [hp] using hr.symm)
      have hsame : d'.tree.get? q = some (.file x) ↔ d.tree.get? q = some (.file x) :=
        ⟨fun hx => (hput.only q _ hqp hx).resolve_right (by simp), hput.keeps q _ hqp⟩
      rw [hsame, h.file]
      refine or_congr (exists_congr fun r => ?_) (and_congr_right fun _ => ?_)
      · refine and_congr_right fun hr => and_congr_right fun _ => ?_
        simp [hne hr]
      · refine forall₃_congr fun r _ hr => ?_
        simp [hne hr]
  · show (s.2.insert rel (sha data)).get? r = _
    rw [Dict.get?_insert, h.digests r]
    by_cases hr : r = rel
    · subst hr
      rw [if_pos rfl, if_neg hnot, hentry]
      rfl
    · have hmem : r ∈ ((rel, data) :: todo).map Prod.fst ↔ r ∈ todo.map Prod.fst := by simp [hr]
      rw [if_neg hr]
      simp only [hmem]

/-- After the first loop, the second can begin. -/
theorem Laying.clearing (hb : Managed b) (h : Laying sha b files [] s d) :
    Clearing b files (toRemove (b.manifest.getD .empty) files) s.1 d := by
  refine ⟨h.manifest, fun rel hr => (mem_toRemove.mp hr).2, toRemove_nodup _ _, fun p x => ?_⟩
  rw [h.file]
  refine or_congr (exists_congr fun rel => by simp) ⟨?_, ?_⟩
  · rintro ⟨hx, hall⟩
    obtain ⟨rel, hrel, hmem⟩ := hb.listed p x hx
    exact ⟨rel, mem_toRemove.mpr ⟨hmem, fun hk => by simpa using hall rel hk hrel⟩, hrel, hx⟩
  · rintro ⟨rel, hmem, hrel, hx⟩
    refine ⟨hx, fun rel' hk hrel' => ?_⟩
    obtain rfl := safeRelpath_inj hrel hrel'
    exact absurd hk (mem_toRemove.mp hmem).2

theorem Clearing.next {todo : List String} {r r' : FilesResult}
    (h : Clearing b files (rel :: todo) r d) (hm : d'.manifest = d.manifest)
    (hfile : ∀ q x, d'.tree.get? q = some (.file x) ↔
      d.tree.get? q = some (.file x) ∧ safeRelpath rel ≠ some q) :
    Clearing b files todo r' d' := by
  obtain ⟨hnot, hnodup⟩ := List.nodup_cons.mp h.nodup
  refine ⟨hm.trans h.manifest, fun rel hr => h.sub rel (by simp [hr]), hnodup, fun q x => ?_⟩
  rw [hfile, h.file]
  constructor
  · rintro ⟨hnew | ⟨rel', hmem, hrel', hx⟩, hne⟩
    · exact .inl hnew
    · rcases List.mem_cons.mp hmem with rfl | hmem
      · exact absurd hrel' hne
      · exact .inr ⟨rel', hmem, hrel', hx⟩
  · rintro (⟨rel', hrel', hx⟩ | ⟨rel', hmem, hrel', hx⟩)
    · refine ⟨.inl ⟨rel', hrel', hx⟩, fun hrel => ?_⟩
      obtain rfl := safeRelpath_inj hrel hrel'
      exact h.sub rel (by simp) (Dict.mem_keys.mpr ⟨x, hx⟩)
    · refine ⟨.inr ⟨rel', by simp [hmem], hrel', hx⟩, fun hrel => ?_⟩
      obtain rfl := safeRelpath_inj hrel hrel'
      exact hnot hmem

/-- **Nothing in the way.** Then the call succeeds, and the new map has taken the old one's place. -/
theorem writeFiles_follows (sha : Bytes → String) (hb : Managed b) (hfiles : Placeable files)
    (hfits : Fits files b.tree) :
    (writeFiles sha files).Ends Disk.apply (fun _ _ _ => False)
      (fun _ d' => (∀ p x, d'.tree.get? p = some (.file x) ↔
          ∃ rel, safeRelpath rel = some p ∧ files.get? rel = some x) ∧
        ∀ rel, (d'.manifest.getD .empty).get? rel = (files.get? rel).map sha)
      (fun _ _ => False) b := by
  refine ⟨fun b' hb' => ?_, fun cls h => ?_⟩
  swap
  · rcases h with h | h
    · exact h.elim
    · cases h
  obtain rfl : b = b' := by simpa [Disk.apply] using hb'
  refine Script.Ends.get (Script.Ends.bind (act_idle rfl ?_ fun _ h => h))
  refine Script.Ends.bind (orWriteFailed_ends (Script.Ends.bind ?_))
  refine (Script.Ends.foldlM (I := Laying sha b files) (fun e todo s d h => ?_)
    (.start hb hfits)).mono (fun s d h => ?_) fun _ _ h => h
  · obtain ⟨rel, data⟩ := e
    have hkey : rel ∈ files.keys :=
      Dict.mem_keys.mpr ⟨data, Dict.mem_entries.mp (h.sub (rel, data) (by simp))⟩
    obtain ⟨p, hp⟩ := hfiles.safe rel hkey
    refine (writeOne_ends sha _ s data hp).mono (fun r d' hr => ?_) fun _ _ hblocked => ?_
    · obtain ⟨-, ⟨hr, hput⟩ | ⟨hrel, ⟨x, hx⟩, -⟩⟩ := hr
      · have hnext : Laying sha b files todo (r.1, s.2.insert rel (sha data)) d' :=
          h.next hfiles hp hput
        rw [← hr] at hnext
        exact hnext
      · exact absurd (h.listed hb hp hx) hrel
    · exact h.clear (rel, data) (by simp) p hp hblocked
  · refine Script.Ends.bind ((Script.Ends.foldlM (I := Clearing b files)
      (fun rel todo r d h => ?_) (h.clearing hb)).mono (fun r d' hd => ?_) fun _ _ h => h)
    · exact (removeOne_ends r rel).mono (fun r' d' h' => h.next h'.1 h'.2) fun _ _ h => h
    · have hold : d'.manifest.getD .empty = b.manifest.getD .empty := by rw [hd.manifest]
      refine Script.Ends.bind ((saveManifest_ends _ _ hold).mono (fun _ d'' h'' => ?_)
        fun _ _ h => h)
      refine ⟨fun p x => ?_, fun rel => ?_⟩
      · rw [h''.1, hd.file]
        simp
      · rw [h''.2, h.digests]
        simp

/-- **Something in the way.** It stays there, and the call raises. -/
theorem writeFiles_blocked (sha : Bytes → String) (hrel : rel ∈ files.keys)
    (hp : safeRelpath rel = some p) (hblocked : Blocked b.tree p) :
    (writeFiles sha files).Ends Disk.apply (fun _ _ _ => False) (fun _ _ => False)
      (fun _ _ => True) b := by
  obtain ⟨data, hdata⟩ := Dict.mem_keys.mp hrel
  have hmem : (rel, data) ∈ toWrite files := mem_toWrite.mpr (Dict.mem_entries.mpr hdata)
  refine ⟨fun b' hb' => ?_, fun cls h => ?_⟩
  swap
  · rcases h with h | h
    · exact h.elim
    · cases h
  obtain rfl : b = b' := by simpa [Disk.apply] using hb'
  refine Script.Ends.get (Script.Ends.bind (act_idle rfl ?_ fun _ _ => trivial))
  refine Script.Ends.bind (orWriteFailed_ends (Script.Ends.bind ?_))
  refine (Script.Ends.foldlM (I := fun todo _ d => (rel, data) ∈ todo ∧ Blocked d.tree p)
    (R := fun _ _ => True) (fun e todo s d h => ?_) ⟨hmem, hblocked⟩).mono
    (fun s d h => by simp at h) fun _ _ h => h
  obtain ⟨hmem, hblocked⟩ := h
  obtain ⟨rel', data'⟩ := e
  cases hq : safeRelpath rel' with
  | none =>
    simp only [writeOne, targetOf, hq]
    trivial
  | some q =>
    refine (writeOne_ends sha _ s data' hq).mono (fun r d' hr => ?_) fun _ _ _ => trivial
    obtain ⟨hclear, hr⟩ := hr
    refine ⟨(List.mem_cons.mp hmem).resolve_left ?_, ?_⟩
    · rintro ⟨⟩
      obtain rfl : p = q := by simpa [hp] using hq
      exact hclear hblocked
    · rcases hr with ⟨-, hput⟩ | ⟨-, -, hpave⟩
      · exact hput.blocked hclear hblocked
      · exact hpave.blocked hblocked

/-- **The next map.** It takes the place of the old one exactly when none of its paths is a directory
in the tree or leads through a file there. -/
theorem follows_iff (hb : Managed b) (hfiles : Placeable files) :
    Follows sha files b ↔ Fits files b.tree := by
  constructor
  · rintro ⟨r, d', heval, -⟩
    rw [fits_iff hb]
    intro rel hrel p hp hblocked
    have hends := (writeFiles_blocked sha hrel hp hblocked).eval_nil
    rw [heval] at hends
    exact hends
  · intro hfits
    have hends := (writeFiles_follows sha hb hfiles hfits).eval_nil
    cases heval : (writeFiles sha files).eval Disk.apply b [] with
    | mk r d' =>
      simp only [heval] at hends
      cases r with
      | error e => exact hends.elim
      | ok r => exact ⟨r, d', heval, hends⟩

end Follows

/-! ## A file and a map -/

/-- The engine has written `a`, and nothing else is there. -/
def fileA : Disk where
  tree := Tree.empty.put ["a"] (.file [1]) (by decide)
  manifest := some (Dict.empty.insert "a" "")

def belowA : Dict String Bytes := Dict.empty.insert "a/b" [2]

def besideA : Dict String Bytes := Dict.empty.insert "b" [2]

theorem fileA_get? (p : Path) :
    fileA.tree.get? p = if p = ["a"] then some (.file [1]) else none :=
  Tree.get?_put .empty (.file [1]) (by decide) p

theorem fileA_managed : Managed fileA := by
  refine ⟨fun p x h => ?_, fun p => ?_⟩
  · rw [fileA_get?] at h
    split_ifs at h with hp
    subst hp
    exact ⟨"a", by decide, by decide⟩
  · rw [fileA_get?]
    split_ifs <;> simp

theorem belowA_safe : safeRelpath "a/b" = some ["a", "b"] := by decide

theorem besideA_safe : safeRelpath "b" = some ["b"] := by decide

theorem mem_keys_single {rel r : String} {data : Bytes} :
    r ∈ (Dict.empty.insert rel data).keys ↔ r = rel :=
  Dict.mem_keys_insert.trans (or_iff_left List.not_mem_nil)

theorem placeable_single {rel : String} {p : Path} {data : Bytes} (hp : safeRelpath rel = some p) :
    Placeable (Dict.empty.insert rel data) := by
  refine ⟨fun r hr => ?_, fun r hr r' hr' q q' hq hq' _ => ?_⟩
  · rw [mem_keys_single.mp hr]
    exact ⟨p, hp⟩
  · rw [mem_keys_single.mp hr] at hq
    rw [mem_keys_single.mp hr', hq] at hq'
    exact Option.some.inj hq'

/-- Another path takes its place. -/
theorem follows_beside : Follows (fun _ => "") besideA fileA := by
  refine (follows_iff fileA_managed (placeable_single besideA_safe)).mpr fun rel hrel p hp => ?_
  obtain rfl : rel = "b" := mem_keys_single.mp hrel
  obtain rfl : ["b"] = p := Option.some.inj (besideA_safe.symm.trans hp)
  simp only [fileA_get?]
  refine ⟨by decide, fun q hq hpre hne x => ?_⟩
  rcases List.prefix_cons_iff.mp hpre with rfl | ⟨t, rfl, ht⟩
  · exact absurd rfl hq
  · simp

/-- **A file that becomes a directory.** The old one is in the way of the new one. -/
theorem unfollowed_below :
    ¬ ∀ (sha : Bytes → String) (files : Dict String Bytes) (d : Disk), Managed d →
      Placeable files → Follows sha files d := by
  intro hall
  obtain ⟨r, d', heval, -⟩ := hall (fun _ => "") belowA fileA fileA_managed
    (placeable_single belowA_safe)
  have herror : ((writeFiles (fun _ => "") belowA).eval Disk.apply fileA []).1.toOption = none := by
    decide
  rw [heval] at herror
  cases herror

end HaAddons.SecretsSync
