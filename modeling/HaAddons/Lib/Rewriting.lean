import HaAddons.Lib.Matching
import HaAddons.Lib.PyText

/-!
# Replacing the versions of a text

`re.sub` for patterns of one shape: a key, white space, a lead, a version, and a tail. The key
stands anywhere or, if the pattern is anchored, with only white space before it on its line.

A `Reader` looks at no more than the text before the next `stop`. Patterns made of readers replace
their versions without disturbing one another: what a rewriting leaves is read as before, except
for the versions.

* `match?_rewriteFrom` — what is rewritten further on makes and breaks no match.
* `rewriteFrom_rewriteFrom_iff` — a second rewriting changes nothing exactly when no new version
  runs on into what follows it.
* `version_finditerFrom` — the versions of a rewritten text.
* `rewriteFrom_comm`, `rest_finditerFrom` — patterns with different keys do not meet.
-/

namespace HaAddons.Lib.Rewriting

open Py

/-! ## Readers -/

/-- The text is empty or begins with `stop`. -/
def AtStop (stop : Char) (y : Text) : Prop := ∀ c ∈ y.head?, c = stop

/-- Takes something off the head of a text, and looks no further than the next `stop`. -/
structure Reader (stop : Char) where
  read : Text → Option (Text × Text)
  sound : ∀ {s a r}, read s = some (a, r) → a ++ r = s
  upTo : ∀ {x y}, stop ∉ x → AtStop stop y →
    read (x ++ y) = (read x).map fun r => (r.1, r.2 ++ y)

namespace Reader

variable {stop : Char} {x y t : Text}

theorem isPrefix_upTo (ht : stop ∉ t) (hy : AtStop stop y) : t <+: x ++ y ↔ t <+: x := by
  constructor
  · intro h
    cases y with
    | nil => simpa using h
    | cons c y =>
      obtain rfl := hy c rfl
      exact prefix_of_sep ht h
  · intro h
    exact h.trans (List.prefix_append x y)

theorem while_upTo {p : Char → Bool} (hp : p stop = false) (hy : AtStop stop y) :
    (x ++ y).takeWhile p = x.takeWhile p ∧ (x ++ y).dropWhile p = x.dropWhile p ++ y := by
  induction x with
  | nil =>
    cases y with
    | nil => exact ⟨rfl, rfl⟩
    | cons c y =>
      obtain rfl := hy c rfl
      simp [hp]
  | cons c x ih =>
    by_cases hc : p c = true
    · simp [hc, ih]
    · simp [hc]

/-- A literal. -/
def lit (t : Text) (ht : stop ∉ t) : Reader stop where
  read s := if t <+: s then some (t, s.drop t.length) else none
  sound := by
    intro s a r h
    split_ifs at h with hp
    obtain ⟨u, rfl⟩ := hp
    cases h
    simp
  upTo := by
    intro x y hx hy
    simp only [isPrefix_upTo ht hy]
    split_ifs with hp
    · rw [List.drop_append_of_le_length hp.length_le]
      rfl
    · rfl

/-- One character or more of a kind. -/
def run (p : Char → Bool) (hp : p stop = false) : Reader stop where
  read s := if s.takeWhile p = [] then none else some (s.takeWhile p, s.dropWhile p)
  sound := by
    intro s a r h
    split_ifs at h
    cases h
    exact List.takeWhile_append_dropWhile
  upTo := by
    intro x y hx hy
    obtain ⟨htake, hdrop⟩ := while_upTo (x := x) hp hy
    rw [htake, hdrop]
    split_ifs <;> rfl

/-- One character of a kind. -/
def char (p : Char → Bool) (hp : p stop = false) : Reader stop where
  read s := s.head?.bind fun c => if p c then some ([c], s.tail) else none
  sound := by
    intro s a r h
    cases s with
    | nil => cases h
    | cons c s =>
      simp only [List.head?_cons, Option.bind_some, List.tail_cons] at h
      split_ifs at h
      cases h
      rfl
  upTo := by
    intro x y hx hy
    cases x with
    | nil =>
      cases y with
      | nil => rfl
      | cons c y =>
        obtain rfl := hy c rfl
        simp [hp]
    | cons c x =>
      by_cases hc : p c = true <;> simp [hc]

/-- One after the other. -/
def seq (r r' : Reader stop) : Reader stop where
  read s := (r.read s).bind fun a => (r'.read a.2).map fun b => (a.1 ++ b.1, b.2)
  sound := by
    intro s a t h
    obtain ⟨u, hu, h⟩ := Option.bind_eq_some_iff.mp h
    obtain ⟨v, hv, h⟩ := Option.map_eq_some_iff.mp h
    cases h
    rw [List.append_assoc, r'.sound hv, r.sound hu]
  upTo := by
    intro x y hx hy
    rw [r.upTo hx hy]
    cases h : r.read x with
    | none => rfl
    | some a =>
      have hrest : stop ∉ a.2 := fun hm => hx (r.sound h ▸ List.mem_append_right a.1 hm)
      simp only [Option.map_some, Option.bind_some, r'.upTo hrest hy, Option.map_map]
      rfl

/-- The first that takes something. -/
def alt (r r' : Reader stop) : Reader stop where
  read s := (r.read s).or (r'.read s)
  sound := by
    intro s a t h
    cases Option.or_eq_some_iff.mp h with
    | inl h => exact r.sound h
    | inr h => exact r'.sound h.2
  upTo := by
    intro x y hx hy
    rw [r.upTo hx hy, r'.upTo hx hy]
    cases r.read x <;> rfl

/-- Nothing. -/
def skip : Reader stop where
  read s := some ([], s)
  sound := by
    intro s a r h
    cases h
    rfl
  upTo _ _ := rfl

/-! ### Reading again -/

/-- What was taken is taken again in front of the texts that are `ok`. -/
def Again (r : Reader stop) (ok : Text → Prop) : Prop :=
  ∀ ⦃s a t⦄, r.read s = some (a, t) → ∀ u, ok u → r.read (a ++ u) = some (a, u)

/-- What is taken consists of such characters. -/
def Within (r : Reader stop) (P : Char → Prop) : Prop :=
  ∀ ⦃s a t⦄, r.read s = some (a, t) → ∀ c ∈ a, P c

section Again

variable {r r' : Reader stop} {ok ok' : Text → Prop} {P : Char → Prop} {p : Char → Bool}
  {hp : p stop = false} {ht : stop ∉ t}

theorem again_lit : (lit t ht).Again fun _ => True := by
  intro s a u h v _
  simp only [lit] at h
  split_ifs at h
  cases h
  simp [lit]

theorem again_run : (run p hp).Again fun u => ∀ c ∈ u.head?, p c = false := by
  intro s a t h u hu
  simp only [run] at h
  split_ifs at h with hne
  cases h
  have hall : ∀ c ∈ s.takeWhile p, p c = true := fun c hc => List.mem_takeWhile_imp hc
  have hhead : u.takeWhile p = [] ∧ u.dropWhile p = u := by
    cases u with
    | nil => exact ⟨rfl, rfl⟩
    | cons c u => simp [hu c rfl]
  simp only [run]
  rw [List.takeWhile_append_of_pos hall, List.dropWhile_append_of_pos hall, hhead.1, hhead.2,
    List.append_nil, if_neg hne]

theorem Again.seq (h : r.Again ok) (h' : r'.Again ok')
    (hok : ∀ {s a t}, r'.read s = some (a, t) → ∀ u, ok' u → ok (a ++ u)) :
    (r.seq r').Again ok' := by
  intro s a t ha u hu
  obtain ⟨b, hb, ha⟩ := Option.bind_eq_some_iff.mp ha
  obtain ⟨c, hc, ha⟩ := Option.map_eq_some_iff.mp ha
  cases ha
  simp only [Reader.seq]
  rw [List.append_assoc, h hb (c.1 ++ u) (hok hc u hu), Option.bind_some, h' hc u hu]
  rfl

theorem Again.alt (h : r.Again ok) (h' : r'.Again ok) (hok : ∀ {s a t}, r.read s = none →
    r'.read s = some (a, t) → ∀ u, ok u → r.read (a ++ u) = none) : (r.alt r').Again ok := by
  intro s a t ha u hu
  simp only [Reader.alt] at ha ⊢
  cases Option.or_eq_some_iff.mp ha with
  | inl ha => rw [h ha u hu, Option.some_or]
  | inr ha => rw [hok ha.1 ha.2 u hu, Option.none_or, h' ha.2 u hu]

theorem within_lit (h : ∀ c ∈ t, P c) : (lit t ht).Within P := by
  intro s a u ha
  simp only [lit] at ha
  split_ifs at ha
  cases ha
  exact h

theorem within_run (h : ∀ c, p c = true → P c) : (run p hp).Within P := by
  intro s a u ha
  simp only [run] at ha
  split_ifs at ha
  cases ha
  exact fun c hc => h c (List.mem_takeWhile_imp hc)

theorem Within.seq (h : r.Within P) (h' : r'.Within P) : (r.seq r').Within P := by
  intro s a u ha
  obtain ⟨b, hb, ha⟩ := Option.bind_eq_some_iff.mp ha
  obtain ⟨c, hc, ha⟩ := Option.map_eq_some_iff.mp ha
  cases ha
  intro d hd
  cases List.mem_append.mp hd with
  | inl hd => exact h hb d hd
  | inr hd => exact h' hc d hd

theorem Within.alt (h : r.Within P) (h' : r'.Within P) : (r.alt r').Within P := by
  intro s a u ha
  cases Option.or_eq_some_iff.mp ha with
  | inl ha => exact h ha
  | inr ha => exact h' ha.2

end Again

end Reader

/-! ## Patterns -/

/-- `^\s*` if anchored, then the key `head :: key`, `\s*`, the lead, the version, and the tail. Only
the version is replaced. -/
structure Pattern where
  head : Char
  key : Text
  anchored : Bool
  stop : Char
  lead : Reader stop
  version : Reader stop
  tail : Reader stop
  boundary : stop = if anchored then '\n' else head
  key_upTo : stop ∉ key
  head_solid : isSpace head = false
  lead_head : ∀ t, lead.read (head :: t) = none
  lead_ne_nil : ∀ {s l r}, lead.read s = some (l, r) → l ≠ []
  lead_exact : ∀ {s l r}, lead.read s = some (l, r) → ∀ u, lead.read (l ++ u) = some (l, u)

/-- A match: up to its version, the version, and what is behind it. -/
structure Found where
  front : Text
  version : Text
  rest : Text

namespace Pattern

variable (p : Pattern)

/-- The lead and the version at the head of a text. -/
def value (t : Text) : Option Found :=
  (p.lead.read t).bind fun l => (p.version.read l.2).bind fun v =>
    (p.tail.read v.2).map fun _ => ⟨l.1, v.1, v.2⟩

/-- The match at the head of a text, whose key may stand there if it is `fresh`. -/
def match? (fresh : Bool) : Text → Option Found
  | [] => none
  | c :: s =>
    if fresh = true ∧ c = p.head then
      ((Reader.lit p.key p.key_upTo).read s).bind fun k =>
        (p.value (k.2.dropWhile isSpace)).map fun f =>
          { f with front := c :: k.1 ++ k.2.takeWhile isSpace ++ f.front }
    else none

/-- Whether a key may stand behind `c`. -/
def next (fresh : Bool) (c : Char) : Bool := !p.anchored || c = '\n' || (fresh && isSpace c)

/-- All matches, where the first `skip` characters belong to the match before. -/
def finditerFrom : ℕ → Bool → Text → List Found
  | _, _, [] => []
  | skip + 1, _, _ :: s => finditerFrom skip (!p.anchored) s
  | 0, fresh, c :: s =>
    match p.match? fresh (c :: s) with
    | some f => f :: finditerFrom (s.length - f.rest.length) (!p.anchored) s
    | none => finditerFrom 0 (p.next fresh c) s

/-- `re.finditer` -/
def finditer (s : Text) : List Found := p.finditerFrom 0 true s

/-- `re.sub`, where the first `skip` characters belong to the match before. Nothing behind a version
and before the next match is a key, so the tail is copied like all other text. -/
def rewriteFrom (new : Text) : ℕ → Bool → Text → Text
  | _, _, [] => []
  | skip + 1, _, _ :: s => rewriteFrom new skip (!p.anchored) s
  | 0, fresh, c :: s =>
    match p.match? fresh (c :: s) with
    | some f => f.front ++ new ++ rewriteFrom new (s.length - f.rest.length) (!p.anchored) s
    | none => c :: rewriteFrom new 0 (p.next fresh c) s

/-- `re.sub` of the versions. -/
def rewrite (new s : Text) : Text := p.rewriteFrom new 0 true s

section Scanning

variable {p : Pattern} {new s t x y : Text} {fresh : Bool} {c : Char} {f : Found}

theorem value_sound (h : p.value t = some f) : f.front ++ f.version ++ f.rest = t := by
  obtain ⟨l, hl, h⟩ := Option.bind_eq_some_iff.mp h
  obtain ⟨v, hv, h⟩ := Option.bind_eq_some_iff.mp h
  obtain ⟨_, -, rfl⟩ := Option.map_eq_some_iff.mp h
  rw [List.append_assoc, p.version.sound hv, p.lead.sound hl]

theorem match?_sound (h : p.match? fresh s = some f) :
    f.front ≠ [] ∧ f.front ++ f.version ++ f.rest = s := by
  cases s with
  | nil => cases h
  | cons c s =>
    rw [match?] at h
    split_ifs at h
    obtain ⟨k, hk, h⟩ := Option.bind_eq_some_iff.mp h
    obtain ⟨g, hg, rfl⟩ := Option.map_eq_some_iff.mp h
    refine ⟨by simp, ?_⟩
    have hvalue := value_sound hg
    have hkey := (Reader.lit p.key p.key_upTo).sound hk
    simp only [List.append_assoc, List.cons_append] at hvalue ⊢
    rw [hvalue, List.takeWhile_append_dropWhile, hkey]

theorem rewriteFrom_skip (k : ℕ) :
    p.rewriteFrom new k (!p.anchored) s = p.rewriteFrom new 0 (!p.anchored) (s.drop k) := by
  induction s generalizing k with
  | nil => cases k <;> rfl
  | cons c s ih =>
    cases k with
    | zero => rfl
    | succ k => exact ih k

theorem finditerFrom_skip (k : ℕ) :
    p.finditerFrom k (!p.anchored) s = p.finditerFrom 0 (!p.anchored) (s.drop k) := by
  induction s generalizing k with
  | nil => cases k <;> rfl
  | cons c s ih =>
    cases k with
    | zero => rfl
    | succ k => exact ih k

theorem drop_of_match? (h : p.match? fresh (c :: s) = some f) :
    s.drop (s.length - f.rest.length) = f.rest := by
  obtain ⟨hne, heq⟩ := match?_sound h
  obtain ⟨d, front, hfront⟩ := List.exists_cons_of_ne_nil hne
  rw [hfront, List.cons_append, List.cons_append] at heq
  have hsuffix : f.rest <:+ s := ⟨front ++ f.version, (List.cons.inj heq).2⟩
  exact (List.suffix_iff_eq_drop.mp hsuffix).symm

theorem rewriteFrom_some (h : p.match? fresh s = some f) :
    p.rewriteFrom new 0 fresh s =
      f.front ++ new ++ p.rewriteFrom new 0 (!p.anchored) f.rest := by
  cases s with
  | nil => cases h
  | cons c s =>
    rw [rewriteFrom, h]
    show f.front ++ new ++ p.rewriteFrom new (s.length - f.rest.length) _ s = _
    rw [rewriteFrom_skip (s.length - f.rest.length), drop_of_match? h]

theorem rewriteFrom_none (h : p.match? fresh (c :: s) = none) :
    p.rewriteFrom new 0 fresh (c :: s) = c :: p.rewriteFrom new 0 (p.next fresh c) s := by
  rw [rewriteFrom, h]

theorem finditerFrom_some (h : p.match? fresh s = some f) :
    p.finditerFrom 0 fresh s = f :: p.finditerFrom 0 (!p.anchored) f.rest := by
  cases s with
  | nil => cases h
  | cons c s =>
    rw [finditerFrom, h]
    show f :: p.finditerFrom (s.length - f.rest.length) _ s = _
    rw [finditerFrom_skip (s.length - f.rest.length), drop_of_match? h]

theorem finditerFrom_none (h : p.match? fresh (c :: s) = none) :
    p.finditerFrom 0 fresh (c :: s) = p.finditerFrom 0 (p.next fresh c) s := by
  rw [finditerFrom, h]

/-- **Induction along a scan**: a character that is no match, or a match and all that is shorter. -/
theorem scan_induction (p : Pattern) {P : Bool → Text → Prop} (nil : ∀ fresh, P fresh [])
    (copy : ∀ fresh c s, p.match? fresh (c :: s) = none → P (p.next fresh c) s → P fresh (c :: s))
    (found : ∀ fresh s f, p.match? fresh s = some f →
      (∀ t : Text, t.length ≤ f.rest.length → P (!p.anchored) t) → P fresh s)
    (fresh : Bool) (s : Text) : P fresh s := by
  induction hlen : s.length using Nat.strong_induction_on generalizing fresh s with
  | _ len ih =>
    cases s with
    | nil => exact nil fresh
    | cons c s =>
      cases h : p.match? fresh (c :: s) with
      | none => exact copy fresh c s h (ih s.length (by simp [← hlen]) _ s rfl)
      | some f =>
        refine found fresh _ f h fun t ht => ih t.length ?_ _ t rfl
        obtain ⟨hne, heq⟩ := match?_sound h
        have hlength := congrArg List.length heq
        have hfront := List.length_pos_of_ne_nil hne
        simp only [List.length_append] at hlength
        omega

/-- A text without a match stays. -/
theorem rewriteFrom_of_nil (fresh : Bool) (s : Text) (h : p.finditerFrom 0 fresh s = []) :
    p.rewriteFrom new 0 fresh s = s := by
  induction fresh, s using scan_induction p with
  | nil fresh => rfl
  | copy fresh c s hm ih =>
    rw [finditerFrom_none hm] at h
    rw [rewriteFrom_none hm, ih h]
  | found fresh s f hm ih =>
    rw [finditerFrom_some hm] at h
    cases h

/-! ### What a rewriting leaves -/

theorem match?_of_ne (h : c ≠ p.head) : p.match? fresh (c :: s) = none := by
  rw [match?, if_neg fun hc => h hc.2]

theorem head?_rewriteFrom : (p.rewriteFrom new 0 fresh s).head? = s.head? := by
  cases s with
  | nil => rfl
  | cons c s =>
    cases h : p.match? fresh (c :: s) with
    | none => rw [rewriteFrom_none h]; rfl
    | some f =>
      obtain ⟨hne, heq⟩ := match?_sound h
      obtain ⟨d, front, hfront⟩ := List.exists_cons_of_ne_nil hne
      rw [rewriteFrom_some h, ← heq, hfront]
      rfl

theorem atStop_rewriteFrom {stop : Char} (hy : AtStop stop y) :
    AtStop stop (p.rewriteFrom new 0 fresh y) := by
  unfold AtStop
  rw [head?_rewriteFrom]
  exact hy

theorem next_calm (hc : c ≠ p.stop) : p.next (!p.anchored) c = !p.anchored := by
  have hb := p.boundary
  cases ha : p.anchored with
  | false => simp [next, ha]
  | true =>
    rw [ha, if_pos rfl] at hb
    simp [next, ha, hb ▸ hc]

theorem match?_calm (hc : c ≠ p.stop) : p.match? (!p.anchored) (c :: s) = none := by
  have hb := p.boundary
  rw [match?, if_neg]
  cases ha : p.anchored with
  | false =>
    rw [ha, if_neg (by decide)] at hb
    simp [← hb, hc]
  | true => simp

/-- Up to the next stop, all is copied. -/
theorem rewriteFrom_append (hx : p.stop ∉ x) : p.rewriteFrom new 0 (!p.anchored) (x ++ y) =
    x ++ p.rewriteFrom new 0 (!p.anchored) y := by
  induction x with
  | nil => rfl
  | cons c x ih =>
    have hc : c ≠ p.stop := fun h => hx (h ▸ List.mem_cons_self)
    rw [List.cons_append, rewriteFrom_none (match?_calm hc), next_calm hc,
      ih fun h => hx (List.mem_cons_of_mem c h), List.cons_append]

theorem finditerFrom_append (hx : p.stop ∉ x) : p.finditerFrom 0 (!p.anchored) (x ++ y) =
    p.finditerFrom 0 (!p.anchored) y := by
  induction x with
  | nil => rfl
  | cons c x ih =>
    have hc : c ≠ p.stop := fun h => hx (h ▸ List.mem_cons_self)
    rw [List.cons_append, finditerFrom_none (match?_calm hc), next_calm hc,
      ih fun h => hx (List.mem_cons_of_mem c h)]

/-- White space is copied. -/
theorem rewriteFrom_space (hx : ∀ c ∈ x, isSpace c = true) : p.rewriteFrom new 0 fresh (x ++ t) =
    x ++ p.rewriteFrom new 0 (x.foldl p.next fresh) t := by
  induction x generalizing fresh with
  | nil => rfl
  | cons c x ih =>
    have hc : c ≠ p.head := by
      rintro rfl
      have hspace := hx p.head List.mem_cons_self
      rw [p.head_solid] at hspace
      cases hspace
    rw [List.cons_append, rewriteFrom_none (match?_of_ne hc),
      ih fun d hd => hx d (List.mem_cons_of_mem c hd), List.cons_append, List.foldl_cons]

/-- A text up to its next stop. -/
theorem exists_stop (stop : Char) (s : Text) : ∃ x y, s = x ++ y ∧ stop ∉ x ∧ AtStop stop y := by
  refine ⟨s.takeWhile (· ≠ stop), s.dropWhile (· ≠ stop),
    List.takeWhile_append_dropWhile.symm, ?_, ?_⟩
  · intro h
    have := List.mem_takeWhile_imp h
    simp at this
  · intro c hc
    have hnot := List.head?_dropWhile_not (· ≠ stop) s
    rw [Option.mem_def.mp hc] at hnot
    simpa using hnot

/-- What a reader takes off a rewritten text. -/
theorem read_rewriteFrom (r : Reader p.stop) : r.read (p.rewriteFrom new 0 (!p.anchored) s) =
    (r.read s).map fun a => (a.1, p.rewriteFrom new 0 (!p.anchored) a.2) := by
  obtain ⟨x, y, rfl, hx, hy⟩ := exists_stop p.stop s
  rw [rewriteFrom_append hx, r.upTo hx hy, r.upTo hx (atStop_rewriteFrom hy)]
  cases h : r.read x with
  | none => rfl
  | some a =>
    have hrest : p.stop ∉ a.2 := fun hm => hx (r.sound h ▸ List.mem_append_right a.1 hm)
    simp only [Option.map_some, rewriteFrom_append hrest]

theorem value_upTo (hx : p.stop ∉ x) (hy : AtStop p.stop y) :
    p.value (x ++ y) = (p.value x).map fun f => { f with rest := f.rest ++ y } := by
  unfold value
  rw [p.lead.upTo hx hy]
  cases hl : p.lead.read x with
  | none => rfl
  | some l =>
    have hlead : p.stop ∉ l.2 := fun hm => hx (p.lead.sound hl ▸ List.mem_append_right l.1 hm)
    simp only [Option.map_some, Option.bind_some]
    rw [p.version.upTo hlead hy]
    cases hv : p.version.read l.2 with
    | none => rfl
    | some v =>
      have hversion : p.stop ∉ v.2 := fun hm =>
        hlead (p.version.sound hv ▸ List.mem_append_right v.1 hm)
      simp only [Option.map_some, Option.bind_some]
      rw [p.tail.upTo hversion hy]
      cases p.tail.read v.2 <;> rfl

/-- A version is found behind white space, whether or not what follows is rewritten. -/
theorem value_rewriteFrom (ht : ∀ c ∈ t.head?, isSpace c = false) :
    p.value (p.rewriteFrom new 0 fresh t) =
      (p.value t).map fun f => { f with rest := p.rewriteFrom new 0 (!p.anchored) f.rest } := by
  cases t with
  | nil =>
    show p.value [] = (p.value []).map _
    cases h : p.value [] with
    | none => rfl
    | some f =>
      have hnil := value_sound h
      simp only [List.append_eq_nil_iff] at hnil
      obtain ⟨front, version, rest⟩ := f
      obtain rfl : rest = [] := hnil.2
      rfl
  | cons c s =>
    have hsolid : isSpace c = false := ht c rfl
    by_cases hc : c = p.head
    · have hnone : ∀ u, p.value (p.head :: u) = none := fun u => by
        rw [value, p.lead_head]
        rfl
      obtain ⟨u, hu⟩ : ∃ u, p.rewriteFrom new 0 fresh (c :: s) = c :: u := by
        have hhead := @head?_rewriteFrom p new (c :: s) fresh
        exact List.head?_eq_some_iff.mp hhead
      rw [hu, hc, hnone, hnone]
      rfl
    · have hb := p.boundary
      have hstop : c ≠ p.stop := by
        rw [hb]
        split_ifs
        · rintro rfl
          cases hsolid
        · exact hc
      have hnext : p.next fresh c = !p.anchored := by
        have hnewline : c ≠ '\n' := by
          rintro rfl
          cases hsolid
        simp [next, hsolid, hnewline]
      obtain ⟨x, y, rfl, hx, hy⟩ := exists_stop p.stop s
      have hcx : p.stop ∉ c :: x := by simp [hx, Ne.symm hstop]
      rw [rewriteFrom_none (match?_of_ne hc), hnext, rewriteFrom_append hx, ← List.cons_append,
        ← List.cons_append, value_upTo hcx (atStop_rewriteFrom hy), value_upTo hcx hy]
      cases h : p.value (c :: x) with
      | none => rfl
      | some f =>
        have hrest : p.stop ∉ f.rest := fun hm =>
          hcx (value_sound h ▸ List.mem_append_right _ hm)
        simp only [Option.map_some, rewriteFrom_append hrest]

theorem takeWhile_rewriteFrom {t : Text} (fresh' : Bool)
    (hx : ∀ c ∈ x, isSpace c = true) (ht : ∀ c ∈ t.head?, isSpace c = false) :
    (x ++ p.rewriteFrom new 0 fresh' t).takeWhile isSpace = x ∧
      (x ++ p.rewriteFrom new 0 fresh' t).dropWhile isSpace = p.rewriteFrom new 0 fresh' t := by
  have hhead : (p.rewriteFrom new 0 fresh' t).takeWhile isSpace = [] ∧
      (p.rewriteFrom new 0 fresh' t).dropWhile isSpace = p.rewriteFrom new 0 fresh' t := by
    have heq := @head?_rewriteFrom p new t fresh'
    cases h : p.rewriteFrom new 0 fresh' t with
    | nil => exact ⟨rfl, rfl⟩
    | cons c u =>
      rw [h] at heq
      have hc : isSpace c = false := ht c heq.symm
      simp [hc]
  rw [List.takeWhile_append_of_pos hx, List.dropWhile_append_of_pos hx, hhead.1, hhead.2]
  exact ⟨List.append_nil x, rfl⟩

/-- **Keys see the same**: a match behind which all is rewritten. -/
theorem match?_rewriteFrom : p.match? fresh (c :: p.rewriteFrom new 0 (!p.anchored) s) =
    (p.match? fresh (c :: s)).map fun f =>
      { f with rest := p.rewriteFrom new 0 (!p.anchored) f.rest } := by
  rw [match?, match?]
  split_ifs with hc
  · rw [read_rewriteFrom]
    cases (Reader.lit p.key p.key_upTo).read s with
    | none => rfl
    | some k =>
      have hsplit : k.2.takeWhile isSpace ++ k.2.dropWhile isSpace = k.2 :=
        List.takeWhile_append_dropWhile
      have hspace : ∀ c ∈ k.2.takeWhile isSpace, isSpace c = true := fun c hc =>
        List.mem_takeWhile_imp hc
      have hsolid : ∀ c ∈ (k.2.dropWhile isSpace).head?, isSpace c = false := by
        intro c hc
        have hnot := List.head?_dropWhile_not isSpace k.2
        rw [Option.mem_def.mp hc] at hnot
        simpa using hnot
      have hrewrite : p.rewriteFrom new 0 (!p.anchored) k.2 = k.2.takeWhile isSpace ++
          p.rewriteFrom new 0 ((k.2.takeWhile isSpace).foldl p.next (!p.anchored))
            (k.2.dropWhile isSpace) := by
        rw [← rewriteFrom_space hspace, hsplit]
      obtain ⟨htake, hdrop⟩ := @takeWhile_rewriteFrom p new (k.2.takeWhile isSpace)
        (k.2.dropWhile isSpace) ((k.2.takeWhile isSpace).foldl p.next (!p.anchored)) hspace hsolid
      simp only [Option.map_some, Option.bind_some]
      rw [hrewrite, htake, hdrop, value_rewriteFrom hsolid, Option.map_map, Option.map_map]
      rfl
  · rfl

/-- What is no match is no match when the text behind it is rewritten. -/
theorem match?_rewriteFrom_none (h : p.match? fresh (c :: s) = none) :
    p.match? fresh (c :: p.rewriteFrom new 0 (p.next fresh c) s) = none := by
  by_cases hc : c = p.head
  · have hnewline : p.head ≠ '\n' := by
      intro he
      have hsolid := p.head_solid
      rw [he] at hsolid
      cases hsolid
    have hnext : p.next fresh c = !p.anchored := by
      simp [next, hc, hnewline, p.head_solid]
    rw [hnext, match?_rewriteFrom, h]
    rfl
  · exact match?_of_ne hc

/-! ### Another version in place -/

/-- The match of a text, with something else in place of its version. -/
theorem match?_replace (h : p.match? fresh s = some f) (u : Text) :
    p.match? fresh (f.front ++ u) = (p.version.read u).bind fun v =>
      (p.tail.read v.2).map fun _ => ⟨f.front, v.1, v.2⟩ := by
  cases s with
  | nil => cases h
  | cons c s =>
    rw [match?] at h
    split_ifs at h with hc
    obtain ⟨k, hk, h⟩ := Option.bind_eq_some_iff.mp h
    obtain ⟨g, hg, rfl⟩ := Option.map_eq_some_iff.mp h
    obtain ⟨l, hl, hg⟩ := Option.bind_eq_some_iff.mp hg
    obtain ⟨v, -, hg⟩ := Option.bind_eq_some_iff.mp hg
    obtain ⟨_, -, rfl⟩ := Option.map_eq_some_iff.mp hg
    have hkey : k.1 = p.key := by
      rw [Reader.lit] at hk
      simp only at hk
      split_ifs at hk
      cases hk
      rfl
    have hread : (Reader.lit p.key p.key_upTo).read
        (p.key ++ (k.2.takeWhile isSpace ++ (l.1 ++ u))) =
        some (p.key, k.2.takeWhile isSpace ++ (l.1 ++ u)) := by
      simp [Reader.lit]
    have hspace : ∀ c ∈ k.2.takeWhile isSpace, isSpace c = true := fun c hc =>
      List.mem_takeWhile_imp hc
    have hsolid : (l.1 ++ u).takeWhile isSpace = [] ∧ (l.1 ++ u).dropWhile isSpace = l.1 ++ u := by
      obtain ⟨d, w, hd⟩ := List.exists_cons_of_ne_nil (p.lead_ne_nil hl)
      have hsound := p.lead.sound hl
      have hnot := List.head?_dropWhile_not isSpace k.2
      rw [← hsound, hd] at hnot
      have hspace : isSpace d = false := by simpa using hnot
      rw [hd]
      simp [hspace]
    have hvalue : p.value (l.1 ++ u) = (p.version.read u).bind fun v =>
        (p.tail.read v.2).map fun _ => ⟨l.1, v.1, v.2⟩ := by
      rw [value, p.lead_exact hl u]
      rfl
    have hsplit : (c :: k.1 ++ k.2.takeWhile isSpace ++ l.1) ++ u =
        c :: (p.key ++ (k.2.takeWhile isSpace ++ (l.1 ++ u))) := by
      simp [hkey]
    show p.match? fresh ((c :: k.1 ++ k.2.takeWhile isSpace ++ l.1) ++ u) = _
    rw [hsplit, match?, if_pos hc, hread, Option.bind_some]
    rw [List.takeWhile_append_of_pos hspace, List.dropWhile_append_of_pos hspace, hsolid.1,
      hsolid.2, hvalue, List.append_nil, hkey]
    cases p.version.read u with
    | none => rfl
    | some v =>
      simp only [Option.bind_some]
      cases p.tail.read v.2 <;> rfl

/-- The version found is read again. -/
theorem version_of_match? (h : p.match? fresh s = some f) :
    p.version.read (f.version ++ f.rest) = some (f.version, f.rest) ∧
      (p.tail.read f.rest).isSome := by
  have hsame := match?_replace h (f.version ++ f.rest)
  rw [← List.append_assoc, (match?_sound h).2, h] at hsame
  obtain ⟨v, hv, hsame⟩ := Option.bind_eq_some_iff.mp hsame.symm
  obtain ⟨t, ht, hsame⟩ := Option.map_eq_some_iff.mp hsame
  have hfst : v.1 = f.version := congrArg Found.version hsame
  have hsnd : v.2 = f.rest := congrArg Found.rest hsame
  rw [hsnd] at ht
  rw [hv, ht]
  exact ⟨congrArg some (Prod.ext hfst hsnd), rfl⟩

/-- A new version that the pattern reads again, in place of any other. What follows the old one may
begin with something that then belongs to the version, `extra`. -/
structure Fits (p : Pattern) (new : Text) where
  extra : Text → Text
  upTo : p.stop ∉ new
  reread : ∀ {v r}, p.version.read (v ++ r) = some (v, r) → (p.tail.read r).isSome →
    ∃ r', r = extra r ++ r' ∧ p.version.read (new ++ r) = some (new ++ extra r, r') ∧
      (p.tail.read r').isSome

/-- The match of a rewritten text. -/
theorem match?_fits (fits : p.Fits new) (h : p.match? fresh s = some f) :
    ∃ r, f.rest = fits.extra f.rest ++ r ∧ p.stop ∉ fits.extra f.rest ∧
      p.match? fresh (p.rewriteFrom new 0 fresh s) =
        some ⟨f.front, new ++ fits.extra f.rest, p.rewriteFrom new 0 (!p.anchored) r⟩ := by
  obtain ⟨hversion, htail⟩ := version_of_match? h
  obtain ⟨r, hrest, hread, htail'⟩ := fits.reread hversion htail
  obtain ⟨x, y, hxy, hx, hy⟩ := exists_stop p.stop f.rest
  have hnew : p.stop ∉ new ++ x := by simp [fits.upTo, hx]
  rw [hxy, ← List.append_assoc, p.version.upTo hnew hy] at hread
  obtain ⟨a, ha, heq⟩ := Option.map_eq_some_iff.mp hread
  obtain ⟨hfst, hsnd⟩ := Prod.mk.inj heq
  have hsound := p.version.sound ha
  have hstop : p.stop ∉ a.1 ∧ p.stop ∉ a.2 := by
    rw [← hsound, List.mem_append, not_or] at hnew
    exact hnew
  have hrewrite : p.version.read (new ++ p.rewriteFrom new 0 (!p.anchored) f.rest) =
      some (new ++ fits.extra f.rest, p.rewriteFrom new 0 (!p.anchored) r) := by
    rw [hxy, rewriteFrom_append hx, ← List.append_assoc, p.version.upTo
      (by simp [fits.upTo, hx]) (atStop_rewriteFrom hy), ha, ← hsnd, rewriteFrom_append hstop.2,
      ← hfst]
    rfl
  refine ⟨r, hrest, ?_, ?_⟩
  · rw [hxy]
    intro hm
    exact hstop.1 (hfst ▸ List.mem_append_right new hm)
  · obtain ⟨t, ht⟩ := Option.isSome_iff_exists.mp htail'
    rw [rewriteFrom_some h, List.append_assoc, match?_replace h, hrewrite]
    simp only [Option.bind_some]
    rw [read_rewriteFrom, ht]
    rfl

/-! ### Rewriting twice -/

theorem rewriteFrom_extra (fits : p.Fits new) (h : p.match? fresh s = some f) :
    ∃ r, f.rest = fits.extra f.rest ++ r ∧
    p.rewriteFrom new 0 fresh s = f.front ++ new ++ fits.extra f.rest ++
      p.rewriteFrom new 0 (!p.anchored) r ∧
    p.rewriteFrom new 0 fresh (p.rewriteFrom new 0 fresh s) = f.front ++ new ++
      p.rewriteFrom new 0 (!p.anchored) (p.rewriteFrom new 0 (!p.anchored) r) := by
  obtain ⟨r, hrest, hstop, hmatch⟩ := match?_fits fits h
  refine ⟨r, hrest, ?_, rewriteFrom_some hmatch⟩
  rw [rewriteFrom_some h]
  conv_lhs => rw [hrest, rewriteFrom_append hstop]
  simp

/-- A second rewriting takes out what runs on into a new version. -/
theorem length_rewriteFrom_le (fits : p.Fits new) (fresh : Bool) (s : Text) :
    (p.rewriteFrom new 0 fresh (p.rewriteFrom new 0 fresh s)).length ≤
      (p.rewriteFrom new 0 fresh s).length := by
  induction fresh, s using scan_induction p with
  | nil fresh => rfl
  | copy fresh c s h ih =>
    rw [rewriteFrom_none h, rewriteFrom_none (match?_rewriteFrom_none h)]
    simpa using ih
  | found fresh s f h ih =>
    obtain ⟨r, hrest, hone, htwo⟩ := rewriteFrom_extra fits h
    have hlength : r.length ≤ f.rest.length := by
      rw [hrest, List.length_append]
      omega
    have := ih r hlength
    rw [htwo, hone]
    simp only [List.length_append] at this ⊢
    omega

/-- **A second rewriting changes nothing** exactly when nothing runs on into a new version. -/
theorem rewriteFrom_rewriteFrom_iff (fits : p.Fits new) (fresh : Bool) (s : Text) :
    p.rewriteFrom new 0 fresh (p.rewriteFrom new 0 fresh s) = p.rewriteFrom new 0 fresh s ↔
      ∀ f ∈ p.finditerFrom 0 fresh s, fits.extra f.rest = [] := by
  induction fresh, s using scan_induction p with
  | nil fresh => simp [rewriteFrom, finditerFrom]
  | copy fresh c s h ih =>
    rw [rewriteFrom_none h, rewriteFrom_none (match?_rewriteFrom_none h), finditerFrom_none h,
      List.cons_inj_right]
    exact ih
  | found fresh s f h ih =>
    obtain ⟨r, hrest, hone, htwo⟩ := rewriteFrom_extra fits h
    rw [finditerFrom_some h, List.forall_mem_cons]
    by_cases hextra : fits.extra f.rest = []
    · rw [hextra, List.nil_append] at hrest
      have hr := ih r (by rw [hrest])
      rw [htwo, hone, hextra, List.append_nil, List.append_cancel_left_eq, hr, hrest]
      simp
    · have hlength : r.length ≤ f.rest.length := by
        rw [hrest, List.length_append]
        omega
      have hle := length_rewriteFrom_le fits (!p.anchored) r
      have hpos := List.length_pos_of_ne_nil hextra
      constructor
      · intro heq
        rw [htwo, hone] at heq
        have := congrArg List.length heq
        simp only [List.length_append] at this
        omega
      · intro hall
        exact absurd hall.1 hextra

/-- The versions of a rewritten text. -/
theorem version_finditerFrom (fits : p.Fits new) (fresh : Bool) (s : Text) :
    (p.finditerFrom 0 fresh (p.rewriteFrom new 0 fresh s)).map Found.version =
      (p.finditerFrom 0 fresh s).map fun f => new ++ fits.extra f.rest := by
  induction fresh, s using scan_induction p with
  | nil fresh => rfl
  | copy fresh c s h ih =>
    rw [rewriteFrom_none h, finditerFrom_none (match?_rewriteFrom_none h), finditerFrom_none h]
    exact ih
  | found fresh s f h ih =>
    obtain ⟨r, hrest, hstop, hmatch⟩ := match?_fits fits h
    have hlength : r.length ≤ f.rest.length := by
      rw [hrest, List.length_append]
      omega
    have hsame : p.finditerFrom 0 (!p.anchored) f.rest = p.finditerFrom 0 (!p.anchored) r := by
      conv_lhs => rw [hrest, finditerFrom_append hstop]
    rw [finditerFrom_some hmatch, finditerFrom_some h, List.map_cons, List.map_cons, ih r hlength,
      hsame]

/-! ### Two patterns -/

/-- No text begins with both keys, which stand anywhere. -/
structure Apart (p q : Pattern) : Prop where
  left : p.anchored = false
  right : q.anchored = false
  head : p.head = q.head
  keys : ∀ s, p.key <+: s → ¬ q.key <+: s

theorem Apart.symm {q : Pattern} (h : p.Apart q) : q.Apart p where
  left := h.right
  right := h.left
  head := h.head.symm
  keys s hq hp := h.keys s hp hq

theorem stop_eq_head (ha : p.anchored = false) : p.stop = p.head := by
  rw [p.boundary, ha]
  rfl

theorem key_of_match? (h : p.match? fresh (c :: s) = some f) :
    p.key <+: s ∧ ∃ u, f.front = c :: p.key ++ u := by
  rw [match?] at h
  split_ifs at h
  obtain ⟨k, hk, h⟩ := Option.bind_eq_some_iff.mp h
  obtain ⟨g, hg, rfl⟩ := Option.map_eq_some_iff.mp h
  rw [Reader.lit] at hk
  simp only at hk
  split_ifs at hk with hkey
  cases hk
  exact ⟨hkey, _, by rw [List.append_assoc]⟩

theorem match?_upTo (ha : p.anchored = false) (hx : p.stop ∉ x) (hy : AtStop p.stop y) :
    p.match? fresh (c :: (x ++ y)) =
      (p.match? fresh (c :: x)).map fun f => { f with rest := f.rest ++ y } := by
  have hsolid : isSpace p.stop = false := by rw [stop_eq_head ha, p.head_solid]
  rw [match?, match?]
  split_ifs
  · rw [(Reader.lit p.key p.key_upTo).upTo hx hy]
    cases hk : (Reader.lit p.key p.key_upTo).read x with
    | none => rfl
    | some k =>
      have hkey : p.stop ∉ k.2 := fun hm =>
        hx ((Reader.lit p.key p.key_upTo).sound hk ▸ List.mem_append_right k.1 hm)
      have hvalue : p.stop ∉ k.2.dropWhile isSpace := fun hm =>
        hkey ((List.dropWhile_sublist _).subset hm)
      obtain ⟨htake, hdrop⟩ := Reader.while_upTo (x := k.2) hsolid hy
      simp only [Option.map_some, Option.bind_some]
      rw [htake, hdrop, value_upTo hvalue hy, Option.map_map, Option.map_map]
      rfl
  · rfl

theorem stop_of_match? (hx : p.stop ∉ x) (h : p.match? fresh (c :: x) = some f) :
    p.stop ∉ f.rest := by
  obtain ⟨hne, heq⟩ := match?_sound h
  obtain ⟨d, u, hu⟩ := List.exists_cons_of_ne_nil hne
  rw [hu, List.cons_append, List.cons_append] at heq
  intro hm
  exact hx ((List.cons.inj heq).2 ▸ List.mem_append_right _ hm)

theorem rewriteFrom_calm (hx : p.stop ∉ x) : p.rewriteFrom new 0 (!p.anchored) x = x := by
  have happend := @rewriteFrom_append p new x [] hx
  rw [List.append_nil] at happend
  rw [happend, rewriteFrom, List.append_nil]

/-- A text up to the next stop is rewritten on its own. -/
theorem rewriteFrom_upTo (ha : p.anchored = false) (hx : p.stop ∉ x) (hy : AtStop p.stop y) :
    p.rewriteFrom new 0 true (c :: (x ++ y)) =
      p.rewriteFrom new 0 true (c :: x) ++ p.rewriteFrom new 0 true y := by
  have hcalm : (!p.anchored) = true := by rw [ha]; rfl
  have hnext : p.next true c = !p.anchored := by simp [next, ha]
  have hmatch : p.match? true (c :: (x ++ y)) = _ := match?_upTo ha hx hy
  cases h : p.match? true (c :: x) with
  | none =>
    rw [h] at hmatch
    rw [rewriteFrom_none hmatch, rewriteFrom_none h, hnext, rewriteFrom_append hx,
      rewriteFrom_calm hx, hcalm, List.cons_append]
  | some f =>
    rw [h] at hmatch
    have hrest := stop_of_match? hx h
    rw [rewriteFrom_some hmatch, rewriteFrom_some h, rewriteFrom_append hrest,
      rewriteFrom_calm hrest, hcalm]
    simp

theorem finditerFrom_upTo (ha : p.anchored = false) (hx : p.stop ∉ x) (hy : AtStop p.stop y)
    {β : Type} {g : Text → β} (hg : ∀ r, p.stop ∉ r → g (r ++ y) = g r) :
    (p.finditerFrom 0 true (c :: (x ++ y))).map (fun f => g f.rest) =
      (p.match? true (c :: x)).toList.map (fun f => g f.rest) ++
        (p.finditerFrom 0 true y).map fun f => g f.rest := by
  have hcalm : (!p.anchored) = true := by rw [ha]; rfl
  have hnext : p.next true c = !p.anchored := by simp [next, ha]
  have hmatch : p.match? true (c :: (x ++ y)) = _ := match?_upTo ha hx hy
  cases h : p.match? true (c :: x) with
  | none =>
    rw [h] at hmatch
    rw [finditerFrom_none hmatch, hnext, finditerFrom_append hx, hcalm]
    rfl
  | some f =>
    rw [h] at hmatch
    have hrest := stop_of_match? hx h
    rw [finditerFrom_some hmatch, finditerFrom_append hrest, hcalm]
    simp [hg f.rest hrest]

theorem match?_of_not_prefix (h : ¬ p.key <+: s) : p.match? fresh (c :: s) = none := by
  cases hm : p.match? fresh (c :: s) with
  | none => rfl
  | some f => exact absurd (key_of_match? hm).1 h

theorem rewriteFrom_of_not_prefix (ha : p.anchored = false) (hx : p.stop ∉ x)
    (h : ¬ p.key <+: x) : p.rewriteFrom new 0 true (c :: x) = c :: x := by
  have hnext : p.next true c = !p.anchored := by simp [next, ha]
  rw [rewriteFrom_none ( match?_of_not_prefix h), hnext, rewriteFrom_calm hx]

/-- A text up to the next stop, rewritten: as it was, or still with the key. -/
theorem rewriteFrom_segment (ha : p.anchored = false) (hnew : p.stop ∉ new) (hx : p.stop ∉ x) :
    ∃ u, p.stop ∉ u ∧ p.rewriteFrom new 0 true (c :: x) = c :: u ∧
      (u = x ∨ p.key <+: x ∧ p.key <+: u) := by
  cases h : p.match? true (c :: x) with
  | none =>
    have hnext : p.next true c = !p.anchored := by simp [next, ha]
    exact ⟨x, hx, by rw [rewriteFrom_none h, hnext, rewriteFrom_calm hx], .inl rfl⟩
  | some f =>
    obtain ⟨hkey, v, hfront⟩ := key_of_match? h
    have hrest := stop_of_match? hx h
    have hv : p.stop ∉ v := by
      have heq := (match?_sound h).2
      rw [hfront, List.append_assoc, List.append_assoc, List.cons_append] at heq
      intro hm
      apply hx
      rw [← (List.cons.inj heq).2]
      exact List.mem_append_right _ (List.mem_append_left _ hm)
    refine ⟨p.key ++ (v ++ new ++ f.rest), ?_, ?_, .inr ⟨hkey, List.prefix_append _ _⟩⟩
    · simp [p.key_upTo, hv, hnew, hrest]
    · rw [rewriteFrom_some h, rewriteFrom_calm hrest, hfront]
      simp

/-- Up to the next stop, one of two patterns leaves the text alone. -/
theorem Apart.segment {q : Pattern} {new' : Text} (hpq : p.Apart q) (hnew : p.stop ∉ new)
    (hnew' : q.stop ∉ new') (hx : p.stop ∉ x) : ∃ u w, p.stop ∉ u ∧ p.stop ∉ w ∧
      q.rewriteFrom new' 0 true (c :: x) = c :: u ∧ p.rewriteFrom new 0 true (c :: x) = c :: w ∧
      p.rewriteFrom new 0 true (c :: u) = q.rewriteFrom new' 0 true (c :: w) ∧
      p.match? true (c :: u) = p.match? true (c :: x) := by
  have hstop : q.stop = p.stop := by
    rw [stop_eq_head hpq.left, stop_eq_head hpq.right, hpq.head]
  obtain ⟨u, hu, hq, hkeyq⟩ := rewriteFrom_segment (c := c) hpq.right hnew' (hstop ▸ hx)
  obtain ⟨w, hw, hp, hkeyp⟩ := rewriteFrom_segment (c := c) hpq.left hnew hx
  refine ⟨u, w, hstop ▸ hu, hw, hq, hp, ?_, ?_⟩
  · cases hkeyq with
    | inl h =>
      rw [h, hp]
      cases hkeyp with
      | inl h' => rw [h', hq, h]
      | inr h' => rw [ rewriteFrom_of_not_prefix hpq.right (hstop ▸ hw) (hpq.keys w h'.2)]
    | inr h =>
      have hnot : ∀ {s}, q.key <+: s → ¬ p.key <+: s := fun hs => hpq.symm.keys _ hs
      rw [ rewriteFrom_of_not_prefix hpq.left (hstop ▸ hu) (hnot h.2)]
      cases hkeyp with
      | inl h' => rw [h', hq]
      | inr h' => exact absurd h'.1 (hnot h.1)
  · cases hkeyq with
    | inl h => rw [h]
    | inr h =>
      rw [ match?_of_not_prefix (hpq.symm.keys u h.2), match?_of_not_prefix (hpq.symm.keys x h.1)]

/-- An induction over the stops of a text. -/
theorem stop_induction (stop : Char) {P : Text → Prop} (nil : P [])
    (cons : ∀ c x y, stop ∉ x → AtStop stop y → P y → P (c :: (x ++ y))) (s : Text) : P s := by
  induction hlen : s.length using Nat.strong_induction_on generalizing s with
  | _ len ih =>
    cases s with
    | nil => exact nil
    | cons c s =>
      obtain ⟨x, y, rfl, hx, hy⟩ := exists_stop stop s
      refine cons c x y hx hy (ih y.length ?_ y rfl)
      rw [← hlen, List.length_cons, List.length_append]
      omega

/-- **Two patterns** rewrite in either order. -/
theorem rewriteFrom_comm {q : Pattern} {new' : Text} (hpq : p.Apart q) (hnew : p.stop ∉ new)
    (hnew' : q.stop ∉ new') (s : Text) :
    p.rewriteFrom new 0 true (q.rewriteFrom new' 0 true s) =
      q.rewriteFrom new' 0 true (p.rewriteFrom new 0 true s) := by
  have hstop : q.stop = p.stop := by
    rw [stop_eq_head hpq.left, stop_eq_head hpq.right, hpq.head]
  induction s using stop_induction p.stop with
  | nil => rfl
  | cons c x y hx hy ih =>
    obtain ⟨u, w, hu, hw, hq, hp, hcomm, -⟩ := hpq.segment (c := c) hnew hnew' hx
    rw [rewriteFrom_upTo hpq.right (hstop ▸ hx) (hstop ▸ hy), rewriteFrom_upTo hpq.left hx hy, hq,
      hp, List.cons_append, List.cons_append,
      rewriteFrom_upTo hpq.left hu (atStop_rewriteFrom hy),
      rewriteFrom_upTo hpq.right (hstop ▸ hw) (atStop_rewriteFrom (hstop ▸ hy)), hcomm, ih]

/-- The matches of one pattern when the other has rewritten. -/
theorem rest_finditerFrom {q : Pattern} {new' : Text} (hpq : p.Apart q) (hnew' : q.stop ∉ new')
    {β : Type} {g : Text → β} (hg : ∀ r y, p.stop ∉ r → AtStop p.stop y → g (r ++ y) = g r)
    (s : Text) : (p.finditerFrom 0 true (q.rewriteFrom new' 0 true s)).map (fun f => g f.rest) =
      (p.finditerFrom 0 true s).map fun f => g f.rest := by
  have hstop : q.stop = p.stop := by
    rw [stop_eq_head hpq.left, stop_eq_head hpq.right, hpq.head]
  induction s using stop_induction p.stop with
  | nil => rfl
  | cons c x y hx hy ih =>
    obtain ⟨u, w, hu, hw, hq, hp, -, hmatch⟩ :=
      @Apart.segment p [] x c q new' hpq List.not_mem_nil hnew' hx
    have hy' : AtStop p.stop (q.rewriteFrom new' 0 true y) := atStop_rewriteFrom hy
    rw [rewriteFrom_upTo hpq.right (hstop ▸ hx) (hstop ▸ hy), hq, List.cons_append,
      finditerFrom_upTo hpq.left hu hy' fun r hr => hg r _ hr hy',
      finditerFrom_upTo hpq.left hx hy fun r hr => hg r _ hr hy, hmatch, ih]

end Scanning

end Pattern

end HaAddons.Lib.Rewriting
