import Mathlib.Data.List.Nodup
import Mathlib.Data.List.Perm.Basic

/-!
# Dictionaries

An association list without duplicate keys, in insertion order. Assigning to a key that is present
keeps its place, as in Python; for a Go map the order is one of those its iteration may take.

`get?` decides everything: `get?_insert` and `get?_erase` say what an update does to it, and
`mem_entries` ties it to the list.
-/

namespace HaAddons

/-- Entries in insertion order, each key once. -/
structure Dict (κ ν : Type*) where
  entries : List (κ × ν)
  nodup : (entries.map Prod.fst).Nodup

namespace Dict

variable {κ ν : Type*}

instance [DecidableEq κ] [DecidableEq ν] : DecidableEq (Dict κ ν) := fun a b =>
  decidable_of_iff (a.entries = b.entries) (by cases a; cases b; simp)

def empty : Dict κ ν := ⟨[], List.nodup_nil⟩

/-- The keys, in insertion order. -/
def keys (d : Dict κ ν) : List κ := d.entries.map Prod.fst

variable [DecidableEq κ]

def get? (d : Dict κ ν) (k : κ) : Option ν := (d.entries.find? (·.1 = k)).map Prod.snd

/-- `d[k] = v`. -/
def insert (d : Dict κ ν) (k : κ) (v : ν) : Dict κ ν :=
  if h : k ∈ d.keys then
    { entries := d.entries.map fun e => if e.1 = k then (k, v) else e
      nodup := by
        have hfst : (Prod.fst ∘ fun e : κ × ν => if e.1 = k then (k, v) else e) = Prod.fst := by
          funext e
          by_cases he : e.1 = k <;> simp [he]
        rw [List.map_map, hfst]
        exact d.nodup }
  else
    { entries := d.entries ++ [(k, v)]
      nodup := by
        rw [List.map_append, List.nodup_append]
        refine ⟨d.nodup, by simp, ?_⟩
        rintro a ha b hb rfl
        obtain rfl : a = k := by simpa using hb
        exact h ha }

/-- The entries of a list, later ones last. -/
def ofList (es : List (κ × ν)) : Dict κ ν := es.foldl (fun d e => d.insert e.1 e.2) .empty

/-- `d.pop(k, None)`. -/
def erase (d : Dict κ ν) (k : κ) : Dict κ ν where
  entries := d.entries.filter (·.1 ≠ k)
  nodup := d.nodup.sublist ((List.filter_sublist).map Prod.fst)

/-- The entries whose key satisfies `p`. -/
def filter (d : Dict κ ν) (p : κ → Bool) : Dict κ ν where
  entries := d.entries.filter fun e => p e.1
  nodup := d.nodup.sublist ((List.filter_sublist).map Prod.fst)

/-- The entries that `f` keeps, with their new values. -/
def filterMap {ν' : Type*} (d : Dict κ ν) (f : κ → ν → Option ν') : Dict κ ν' where
  entries := d.entries.filterMap fun e => (f e.1 e.2).map fun v => (e.1, v)
  nodup := by
    have hkeys : d.entries.Pairwise fun a b => a.1 ≠ b.1 := List.pairwise_map.mp d.nodup
    refine List.pairwise_map.mpr (hkeys.filterMap _ fun a b hab x hx y hy => ?_)
    obtain ⟨_, -, rfl⟩ := Option.map_eq_some_iff.mp hx
    obtain ⟨_, -, rfl⟩ := Option.map_eq_some_iff.mp hy
    exact hab

/-- The values under `f`. -/
def map {ν' : Type*} (d : Dict κ ν) (f : ν → ν') : Dict κ ν' where
  entries := d.entries.map fun e => (e.1, f e.2)
  nodup := by
    rw [List.map_map]
    exact d.nodup

/-- The entries of `d`, then those of `d'` under other keys. -/
def orElse (d d' : Dict κ ν) : Dict κ ν where
  entries := d.entries ++ d'.entries.filter fun e => e.1 ∉ d.keys
  nodup := by
    rw [List.map_append, List.nodup_append]
    refine ⟨d.nodup, d'.nodup.sublist (List.filter_sublist.map Prod.fst), ?_⟩
    rintro k hk k' hk' rfl
    obtain ⟨e, he, rfl⟩ := List.mem_map.mp hk'
    exact of_decide_eq_true (List.mem_filter.mp he).2 hk

/-- `{**d, **d'}` -/
def update (d d' : Dict κ ν) : Dict κ ν := d'.entries.foldl (fun d e => d.insert e.1 e.2) d

/-- The two have the same entries, in whatever order. -/
def same [DecidableEq ν] (d d' : Dict κ ν) : Bool :=
  d.entries.all (fun e => d'.get? e.1 = some e.2) && d'.entries.all fun e => d.get? e.1 = some e.2

/-! ## Reading -/

@[simp] theorem get?_empty (k : κ) : (empty : Dict κ ν).get? k = none := rfl

theorem mem_entries {d : Dict κ ν} {k : κ} {v : ν} : (k, v) ∈ d.entries ↔ d.get? k = some v := by
  obtain ⟨es, hes⟩ := d
  simp only [get?]
  induction es with
  | nil => simp
  | cons e es ih =>
    simp only [List.map_cons, List.nodup_cons] at hes
    have ih := ih hes.2
    by_cases he : e.1 = k
    · subst he
      simp only [List.mem_cons, List.find?_cons, decide_true, Option.map_some, Option.some.injEq]
      constructor
      · rintro (h | h)
        · rw [← h]
        · exact absurd (List.mem_map_of_mem (f := Prod.fst) h) hes.1
      · rintro rfl
        exact .inl rfl
    · have hne : (k, v) ≠ e := by
        rintro rfl
        exact he rfl
      simp only [List.mem_cons, hne, false_or, List.find?_cons, he, decide_false]
      exact ih

theorem mem_keys {d : Dict κ ν} {k : κ} : k ∈ d.keys ↔ ∃ v, d.get? k = some v := by
  simp only [keys, List.mem_map, Prod.exists, exists_and_right, exists_eq_right, mem_entries]

theorem get?_eq_none {d : Dict κ ν} {k : κ} : d.get? k = none ↔ k ∉ d.keys := by
  rw [mem_keys, Option.eq_none_iff_forall_ne_some]
  simp

/-! ## Writing -/

theorem get?_insert (d : Dict κ ν) (k k' : κ) (v : ν) :
    (d.insert k v).get? k' = if k' = k then some v else d.get? k' := by
  apply Option.ext
  intro x
  rw [← mem_entries]
  by_cases hk : k ∈ d.keys
  · by_cases h : k' = k
    · subst h
      obtain ⟨v₀, hv₀⟩ := mem_keys.mp hk
      simp only [insert, hk, dif_pos, List.mem_map, if_true, Option.some.injEq]
      constructor
      · rintro ⟨e, -, he⟩
        by_cases hek : e.1 = k'
        · simp only [hek, if_true, Prod.mk.injEq, true_and] at he
          exact he
        · simp only [hek, if_false] at he
          exact absurd (congrArg Prod.fst he) hek
      · rintro rfl
        exact ⟨(k', v₀), mem_entries.mpr hv₀, by simp⟩
    · simp only [insert, hk, dif_pos, List.mem_map, h, if_false]
      rw [← mem_entries]
      constructor
      · rintro ⟨e, hmem, he⟩
        by_cases hek : e.1 = k
        · simp only [hek, if_true, Prod.mk.injEq] at he
          exact absurd he.1.symm h
        · simp only [hek, if_false] at he
          exact he ▸ hmem
      · intro hmem
        exact ⟨(k', x), hmem, by simp [h]⟩
  · by_cases h : k' = k
    · subst h
      simp only [insert, hk, dif_neg, not_false_eq_true, List.mem_append, List.mem_singleton,
        Prod.mk.injEq, true_and, if_true, Option.some.injEq]
      constructor
      · rintro (hmem | rfl)
        · exact absurd (mem_keys.mpr ⟨x, mem_entries.mp hmem⟩) hk
        · rfl
      · rintro rfl
        exact .inr rfl
    · simp only [insert, hk, dif_neg, not_false_eq_true, List.mem_append, List.mem_singleton,
        Prod.mk.injEq, h, false_and, or_false, if_false, mem_entries]

theorem mem_keys_insert {d : Dict κ ν} {k k' : κ} {v : ν} :
    k' ∈ (d.insert k v).keys ↔ k' = k ∨ k' ∈ d.keys := by
  rw [mem_keys, mem_keys]
  simp only [get?_insert]
  by_cases h : k' = k <;> simp [h]

theorem entries_insert {d : Dict κ ν} {k : κ} (h : k ∉ d.keys) (v : ν) :
    (d.insert k v).entries = d.entries ++ [(k, v)] := by
  simp [insert, h]

/-- Entries with different keys stay as they are. -/
theorem entries_ofList {es : List (κ × ν)} (h : (es.map Prod.fst).Nodup) :
    (ofList es).entries = es := by
  have hall : ∀ d : Dict κ ν, (d.keys ++ es.map Prod.fst).Nodup →
      (es.foldl (fun d e => d.insert e.1 e.2) d).entries = d.entries ++ es := by
    intro d hd
    induction es generalizing d with
    | nil => simp
    | cons e es ih =>
      have hnot : e.1 ∉ d.keys := fun hmem =>
        (List.nodup_append.mp hd).2.2 e.1 hmem e.1 (by simp) rfl
      have hentries := entries_insert hnot e.2
      have hkeys : (d.insert e.1 e.2).keys = d.keys ++ [e.1] := by
        rw [keys, hentries, List.map_append]
        rfl
      rw [List.foldl_cons, ih (List.nodup_cons.mp h).2 _ (by simpa [hkeys] using hd), hentries]
      simp
  simpa [ofList, empty] using hall .empty (by simpa [keys, empty] using h)

theorem mem_of_get?_ofList {es : List (κ × ν)} {k : κ} {v : ν} (h : (ofList es).get? k = some v) :
    (k, v) ∈ es := by
  have hall : ∀ d : Dict κ ν, (es.foldl (fun d e => d.insert e.1 e.2) d).get? k = some v →
      (k, v) ∈ es ∨ d.get? k = some v := by
    clear h
    induction es with
    | nil => exact fun d h => .inr h
    | cons e es ih =>
      intro d h
      cases ih (d.insert e.1 e.2) h with
      | inl h => exact .inl (List.mem_cons_of_mem e h)
      | inr h =>
        rw [get?_insert] at h
        split_ifs at h with hk
        · obtain rfl := Option.some.inj h
          exact .inl (hk ▸ List.mem_cons_self)
        · exact .inr h
  exact (hall .empty h).resolve_right (by simp)

theorem get?_filter (d : Dict κ ν) (p : κ → Bool) (k : κ) :
    (d.filter p).get? k = if p k then d.get? k else none := by
  apply Option.ext
  intro x
  rw [← mem_entries]
  by_cases hp : p k = true
  · simp [filter, hp, mem_entries]
  · simp [filter, hp]

theorem get?_erase (d : Dict κ ν) (k k' : κ) :
    (d.erase k).get? k' = if k' = k then none else d.get? k' := by
  have h : d.erase k = d.filter fun x => x ≠ k := rfl
  rw [h, get?_filter]
  by_cases hk : k' = k <;> simp [hk]

theorem get?_map {ν' : Type*} (d : Dict κ ν) (f : ν → ν') (k : κ) :
    (d.map f).get? k = (d.get? k).map f := by
  show (((d.entries.map fun e => (e.1, f e.2)).find? (·.1 = k)).map Prod.snd) = _
  rw [List.find?_map, Option.map_map, get?, Option.map_map]
  rfl

theorem get?_orElse (d d' : Dict κ ν) (k : κ) :
    (d.orElse d').get? k = (d.get? k).or (d'.get? k) := by
  apply Option.ext
  intro v
  rw [← mem_entries, orElse, List.mem_append, List.mem_filter, mem_entries, mem_entries,
    decide_eq_true_eq, ← get?_eq_none]
  cases d.get? k <;> simp

theorem get?_update (d d' : Dict κ ν) (k : κ) :
    (d.update d').get? k = (d'.get? k).or (d.get? k) := by
  obtain ⟨es, hes⟩ := d'
  show (es.foldl (fun d e => d.insert e.1 e.2) d).get? k = _
  induction es generalizing d with
  | nil => rfl
  | cons e es ih =>
    simp only [List.map_cons, List.nodup_cons] at hes
    rw [List.foldl_cons, ih (d.insert e.1 e.2) hes.2, get?_insert]
    by_cases he : e.1 = k
    · subst he
      have hnone : get? ⟨es, hes.2⟩ e.1 = none := get?_eq_none.mpr hes.1
      have hhead : get? ⟨e :: es, List.nodup_cons.mpr hes⟩ e.1 = some e.2 := by simp [get?]
      rw [hnone, if_pos rfl, hhead]
      rfl
    · simp [get?, he, Ne.symm he]

omit [DecidableEq κ] in
theorem nodup_entries (d : Dict κ ν) : d.entries.Nodup := d.nodup.of_map _

/-- An entry and the others. -/
theorem perm_erase {d : Dict κ ν} {k : κ} {v : ν} (h : d.get? k = some v) :
    d.entries.Perm ((k, v) :: (d.erase k).entries) := by
  refine (List.perm_ext_iff_of_nodup d.nodup_entries ?_).mpr fun e => ?_
  · refine List.nodup_cons.mpr ⟨fun hmem => ?_, (d.erase k).nodup_entries⟩
    rw [mem_entries, get?_erase, if_pos rfl] at hmem
    cases hmem
  · obtain ⟨k', v'⟩ := e
    rw [List.mem_cons, mem_entries, mem_entries, get?_erase]
    by_cases hk : k' = k
    · simp [hk, h, eq_comm]
    · simp [hk]

/-- What is written, and the entries of other keys. -/
theorem perm_insert (d : Dict κ ν) (k : κ) (v : ν) :
    (d.insert k v).entries.Perm ((k, v) :: (d.erase k).entries) := by
  have h := perm_erase (d := d.insert k v) (k := k) (v := v) (by rw [get?_insert, if_pos rfl])
  refine h.trans (List.Perm.cons _ ?_)
  refine (List.perm_ext_iff_of_nodup (nodup_entries _) (nodup_entries _)).mpr fun e => ?_
  rw [mem_entries, mem_entries, get?_erase, get?_erase, get?_insert]
  by_cases hk : e.1 = k <;> simp [hk]

theorem erase_of_get?_none {d : Dict κ ν} {k : κ} (h : d.get? k = none) :
    (d.erase k).entries = d.entries := by
  refine List.filter_eq_self.mpr fun e he => ?_
  have hne : e.1 ≠ k := fun hk => get?_eq_none.mp h (hk ▸ List.mem_map_of_mem he)
  simpa using hne

theorem same_iff [DecidableEq ν] {d d' : Dict κ ν} :
    d.same d' = true ↔ ∀ k, d.get? k = d'.get? k := by
  simp only [same, Bool.and_eq_true, List.all_eq_true, decide_eq_true_eq, Prod.forall,
    mem_entries]
  constructor
  · rintro ⟨h, h'⟩ k
    exact Option.ext fun v => ⟨h k v, h' k v⟩
  · intro h
    exact ⟨fun k v hv => (h k).symm.trans hv, fun k v hv => (h k).trans hv⟩

theorem length_of_same [DecidableEq ν] {d d' : Dict κ ν} (h : d.same d' = true) :
    d.entries.length = d'.entries.length := by
  have hkeys : d.keys.Perm d'.keys := by
    refine (List.perm_ext_iff_of_nodup d.nodup d'.nodup).mpr fun k => ?_
    show k ∈ d.keys ↔ k ∈ d'.keys
    rw [mem_keys, mem_keys, same_iff.mp h k]
  simpa [keys] using hkeys.length_eq

end Dict

end HaAddons
