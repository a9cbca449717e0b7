import HaAddons.MarkdownRenderer.NginxConf

/-!
# Reading nginx.conf

nginx reads the text of `renderNginx` as it was meant when names end without a newline and a path,
with the slash that is added to it, is read as one parameter.

* `parse_renderNginx` — the directives that are read.
-/

namespace HaAddons.Markdown

open HaAddons.Lib.Nginx

/-- A name and a path that nginx reads as they are. -/
structure Namespace.Plain (ns : Namespace) : Prop where
  name : '\n' ∉ ns.name
  path : Literal (ns.path ++ ['/'])
  fits : bytes ns.path + 1 < confBuffer

/-! ## The pieces of a namespace -/

def newline : Item := .blank '\n'

def space : Item := .blank ' '

def word (w : String) : Item := .word w.toList ' '

def indented (n : ℕ) (items : List Item) : List Item :=
  newline :: List.replicate n space ++ items

/-- The last lines of a location. -/
def noStoreItems : List Item :=
  indented 6 [word "add_header", word "Cache-Control", .quoted "no-store".toList ' ',
    .last "always".toList] ++ indented 4 [.closes]

def redirectItems (ns : Namespace) : List Item :=
  newline :: indented 4 [word "location", word "=", .word ('/' :: ns.name) ' ', .opens, space,
    word "return", word "301", .last ('/' :: ns.name ++ ['/']), space, .closes]

def staticItems (ns : Namespace) : List Item :=
  indented 4 [word "location", .word ('/' :: ns.name ++ "/_static/".toList) ' ', .opens] ++
    indented 6 [word "alias", .last (assetsDir ++ ['/'])] ++ noStoreItems

def docsItems (ns : Namespace) : List Item :=
  indented 4 [word "location", .word ('/' :: ns.name ++ ['/']) ' ', .opens] ++
    indented 6 [word "alias", .last (ns.path ++ ['/'])] ++
    indented 6 [word "try_files", word "$uri", .last ("@docsify_".toList ++ ns.name)] ++
    noStoreItems

def fallbackItems (ns : Namespace) : List Item :=
  indented 4 [word "location", .word ("@docsify_".toList ++ ns.name) ' ', .opens] ++
    indented 6 [word "root", .last (docrootsDir ++ '/' :: ns.name)] ++
    indented 6 [word "try_files", word "/index.html", .last "=404".toList] ++ noStoreItems

/-- The pieces of a namespace's block. -/
def namespaceItems (ns : Namespace) : List Item :=
  redirectItems ns ++ staticItems ns ++ docsItems ns ++ fallbackItems ns

section Items

variable {ns : Namespace}

theorem text_noStoreItems :
    noStoreItems.flatMap Item.text = [noStoreLine, "    \x7d".toList].flatMap ('\n' :: ·) := by
  show _ = ["      add_header Cache-Control \"no-store\" always;".toList,
    "    \x7d".toList].flatMap ('\n' :: ·)
  simp [noStoreItems, indented, newline, space, word, Item.text, List.replicate]

theorem text_redirectItems (ns : Namespace) :
    (redirectItems ns).flatMap Item.text = (redirectLines ns).flatMap ('\n' :: ·) := by
  simp [redirectItems, redirectLines, indented, newline, space, word, Item.text, List.replicate]

theorem text_staticItems (ns : Namespace) :
    (staticItems ns).flatMap Item.text = (staticLines ns).flatMap ('\n' :: ·) := by
  rw [staticItems, List.flatMap_append, text_noStoreItems]
  simp [staticLines, indented, newline, space, word, Item.text, List.replicate]

theorem text_docsItems (ns : Namespace) :
    (docsItems ns).flatMap Item.text = (docsLines ns).flatMap ('\n' :: ·) := by
  rw [docsItems, List.flatMap_append, text_noStoreItems]
  simp [docsLines, indented, newline, space, word, Item.text, List.replicate]

theorem text_fallbackItems (ns : Namespace) :
    (fallbackItems ns).flatMap Item.text = (fallbackLines ns).flatMap ('\n' :: ·) := by
  rw [fallbackItems, List.flatMap_append, text_noStoreItems]
  simp [fallbackLines, indented, newline, space, word, Item.text, List.replicate]

theorem newline_intercalate {ls : List Text} (h : ls ≠ []) :
    '\n' :: ['\n'].intercalate ls = ls.flatMap ('\n' :: ·) := by
  induction ls with
  | nil => exact absurd rfl h
  | cons l ls ih =>
    cases ls with
    | nil => simp [List.intercalate]
    | cons k ls => rw [List.flatMap_cons, ← ih (by simp), List.intercalate_cons_cons]; simp

theorem text_namespaceItems (ns : Namespace) :
    (namespaceItems ns).flatMap Item.text = '\n' :: namespaceBlock ns := by
  rw [namespaceBlock, newline_intercalate (by simp [redirectLines]), namespaceItems]
  simp only [List.flatMap_append, text_redirectItems, text_staticItems, text_docsItems,
    text_fallbackItems]

theorem read_append {items items' : List Item} {out out' out'' : List Event}
    (h : items.foldlM Item.read ⟨[], out⟩ = some ⟨[], out'⟩)
    (h' : items'.foldlM Item.read ⟨[], out'⟩ = some ⟨[], out''⟩) :
    (items ++ items').foldlM Item.read ⟨[], out⟩ = some ⟨[], out''⟩ := by
  rw [List.foldlM_append, h]
  exact h'

theorem read_redirectItems (ns : Namespace) (out : List Event) :
    (redirectItems ns).foldlM Item.read ⟨[], out⟩ =
      some ⟨[], out ++ (redirectLocation ns).events⟩ :=
  read_of_nil rfl out

theorem read_staticItems (ns : Namespace) (out : List Event) :
    (staticItems ns).foldlM Item.read ⟨[], out⟩ =
      some ⟨[], out ++ (staticLocation ns).events⟩ :=
  read_of_nil rfl out

theorem read_docsItems (ns : Namespace) (out : List Event) :
    (docsItems ns).foldlM Item.read ⟨[], out⟩ = some ⟨[], out ++ (docsLocation ns).events⟩ :=
  read_of_nil rfl out

theorem read_fallbackItems (ns : Namespace) (out : List Event) :
    (fallbackItems ns).foldlM Item.read ⟨[], out⟩ =
      some ⟨[], out ++ (fallbackLocation ns).events⟩ :=
  read_of_nil rfl out

theorem read_namespaceItems (ns : Namespace) (out : List Event) :
    (namespaceItems ns).foldlM Item.read ⟨[], out⟩ =
      some ⟨[], out ++ eventsOf (namespaceLocations ns)⟩ := by
  have h := read_append (read_append (read_append (read_redirectItems ns out)
    (read_staticItems ns _)) (read_docsItems ns _)) (read_fallbackItems ns _)
  rw [namespaceItems, h]
  simp [namespaceLocations, eventsOf]

/-! ## The pieces fit -/

theorem isLabel_facts {name : Text} (h : isLabel name = true) :
    (∀ c ∈ name, isNameChar c = true) ∧ name.length ≤ 63 := by
  cases name with
  | nil => cases h
  | cons c s =>
    simp only [isLabel, Bool.and_eq_true, List.all_eq_true, decide_eq_true_eq] at h
    obtain ⟨⟨hc, hs⟩, hlen⟩ := h
    refine ⟨?_, by rw [List.length_cons]; omega⟩
    intro d hd
    rcases List.mem_cons.mp hd with rfl | hd
    · rw [isNameChar, hc, Bool.true_or]
    · exact hs d hd

/-- A name without a newline is matched as a whole. -/
theorem isLabel_of_validNameRe {name : Text} (h : validNameRe name = true) (hn : '\n' ∉ name) :
    isLabel name = true := by
  rw [validNameRe, Bool.or_eq_true, Bool.and_eq_true, decide_eq_true_eq] at h
  rcases h with h | ⟨hlast, -⟩
  · exact h
  · exact absurd (List.mem_of_getLast? hlast) hn

theorem isPlain_of_isNameChar {c : Char} (h : isNameChar c = true) : isPlain c = true := by
  have hne : ∀ d, isNameChar d = false → c ≠ d := by
    intro d hd hc
    rw [hc, hd] at h
    cases h
  rw [isPlain_iff]
  simp [isEnd, isBlank, hne '\\' (by decide), hne ' ' (by decide), hne '\t' (by decide),
    hne '\r' (by decide), hne '\n' (by decide), hne ';' (by decide), hne '\x7b' (by decide)]

theorem utf8Size_of_isNameChar {c : Char} (h : isNameChar c = true) : c.utf8Size = 1 := by
  have hle : c.val ≤ 127 := by
    delta isNameChar isNameStart Char.isLower Char.isDigit at h
    simp only [Bool.or_eq_true, decide_eq_true_eq, Bool.and_eq_true] at h
    rcases h with (⟨-, h⟩ | ⟨-, h⟩) | rfl
    · exact UInt32.le_trans h (by decide)
    · exact UInt32.le_trans h (by decide)
    · decide
  exact if_pos hle

theorem bytes_of_utf8Size {t : Text} (h : ∀ c ∈ t, c.utf8Size = 1) : bytes t = t.length := by
  induction t with
  | nil => rfl
  | cons c t ih =>
    rw [bytes, h c List.mem_cons_self, ih fun d hd => h d (List.mem_cons_of_mem _ hd),
      List.length_cons, Nat.add_comm]

/-- A name that stands between plain characters. -/
theorem literal_around {name p q : Text} (h : isLabel name = true)
    (hp : p.head?.any startsBare = true ∧ p.all isPlain = true) (hq : q.all isPlain = true)
    (hlen : bytes p + bytes q < 4000) :
    Literal (p ++ (name ++ q)) ∧ bytes (p ++ (name ++ q)) + 1 < confBuffer := by
  obtain ⟨hchars, hlength⟩ := isLabel_facts h
  have hbytes : bytes name = name.length :=
    bytes_of_utf8Size fun c hc => utf8Size_of_isNameChar (hchars c hc)
  have hplain : ∀ c ∈ p ++ (name ++ q), isPlain c = true := by
    intro c hc
    rcases List.mem_append.mp hc with hc | hc
    · exact List.all_eq_true.mp hp.2 c hc
    · rcases List.mem_append.mp hc with hc | hc
      · exact isPlain_of_isNameChar (hchars c hc)
      · exact List.all_eq_true.mp hq c hc
  refine ⟨⟨?_, isBare_of_plain hplain⟩, ?_⟩
  · cases p with
    | nil => exact absurd hp.1 (by simp)
    | cons c p => exact hp.1
  · rw [bytes_append, bytes_append, hbytes]
    unfold confBuffer
    omega

theorem fits_cons {i : Item} {items : List Item} (hi : i.Fits) (h : ∀ j ∈ items, j.Fits) :
    ∀ j ∈ i :: items, j.Fits :=
  List.forall_mem_cons.mpr ⟨hi, h⟩

theorem fits_append {items items' : List Item} (h : ∀ j ∈ items, j.Fits)
    (h' : ∀ j ∈ items', j.Fits) : ∀ j ∈ items ++ items', j.Fits :=
  List.forall_mem_append.mpr ⟨h, h'⟩

theorem fits_indented (n : ℕ) {items : List Item} (h : ∀ j ∈ items, j.Fits) :
    ∀ j ∈ indented n items, j.Fits := by
  refine fits_append (fits_cons rfl ?_) h
  intro j hj
  rw [List.eq_of_mem_replicate hj]
  rfl

theorem fits_nil : ∀ j ∈ ([] : List Item), j.Fits := by simp

/-- The fixed words fit. -/
theorem fits_fixed : (∀ j ∈ noStoreItems, j.Fits) ∧
    ((word "location").Fits ∧ (word "=").Fits ∧ (word "return").Fits ∧ (word "301").Fits) ∧
    ((word "alias").Fits ∧ (Item.last (assetsDir ++ ['/'])).Fits) ∧
    ((word "try_files").Fits ∧ (word "$uri").Fits) ∧
    ((word "root").Fits ∧ (word "/index.html").Fits ∧ (Item.last "=404".toList).Fits) := by
  decide +kernel

theorem fits_noStoreItems : ∀ j ∈ noStoreItems, j.Fits := fits_fixed.1

theorem fits_location : (word "location").Fits := fits_fixed.2.1.1

/-- What stands around a name is plain and short. -/
theorem plain_around : (("/_static/".toList).all isPlain = true ∧
      bytes ['/'] + bytes "/_static/".toList < 4000) ∧
    ((("@docsify_".toList).head?.any startsBare = true ∧ ("@docsify_".toList).all isPlain = true) ∧
      bytes "@docsify_".toList + bytes [] < 4000) ∧
    ((docrootsDir ++ ['/']).head?.any startsBare = true ∧
        (docrootsDir ++ ['/']).all isPlain = true) ∧
      bytes (docrootsDir ++ ['/']) + bytes [] < 4000 := by
  show (("/_static/".toList).all isPlain = true ∧ bytes ['/'] + bytes "/_static/".toList < 4000) ∧
    ((("@docsify_".toList).head?.any startsBare = true ∧ ("@docsify_".toList).all isPlain = true) ∧
      bytes "@docsify_".toList + bytes [] < 4000) ∧
    (("/tmp/docroots".toList ++ ['/']).head?.any startsBare = true ∧
        ("/tmp/docroots".toList ++ ['/']).all isPlain = true) ∧
      bytes ("/tmp/docroots".toList ++ ['/']) + bytes [] < 4000
  simp only [String.reduceToList]
  decide

theorem fits_redirectItems (h : isLabel ns.name = true) : ∀ j ∈ redirectItems ns, j.Fits := by
  have hname := literal_around h (p := ['/']) (q := []) (by decide) (by decide) (by decide)
  have htarget := literal_around h (p := ['/']) (q := ['/']) (by decide) (by decide) (by decide)
  rw [List.append_nil] at hname
  have hfixed := fits_fixed.2.1.2
  exact fits_cons rfl (fits_indented 4 (fits_cons fits_location (fits_cons hfixed.1
    (fits_cons ⟨hname.1, hname.2, rfl⟩ (fits_cons trivial (fits_cons rfl (fits_cons hfixed.2.1
      (fits_cons hfixed.2.2 (fits_cons ⟨htarget.1, Nat.lt_of_succ_lt htarget.2⟩
        (fits_cons rfl (fits_cons trivial fits_nil)))))))))))

theorem fits_staticItems (h : isLabel ns.name = true) : ∀ j ∈ staticItems ns, j.Fits := by
  have hname := literal_around h (p := ['/']) (q := "/_static/".toList) (by decide)
    plain_around.1.1 plain_around.1.2
  have hfixed := fits_fixed.2.2.1
  exact fits_append (fits_append (fits_indented 4 (fits_cons fits_location
    (fits_cons ⟨hname.1, hname.2, rfl⟩ (fits_cons trivial fits_nil))))
    (fits_indented 6 (fits_cons hfixed.1 (fits_cons hfixed.2 fits_nil)))) fits_noStoreItems

theorem fits_docsItems (h : isLabel ns.name = true) (hns : ns.Plain) :
    ∀ j ∈ docsItems ns, j.Fits := by
  have hname := literal_around h (p := ['/']) (q := ['/']) (by decide) (by decide) (by decide)
  have hfallback := literal_around h (p := "@docsify_".toList) (q := [])
    plain_around.2.1.1 (by decide) plain_around.2.1.2
  rw [List.append_nil] at hfallback
  obtain ⟨-, -, ⟨halias, -⟩, ⟨htry, huri⟩, -⟩ := fits_fixed
  have hpath : (Item.last (ns.path ++ ['/'])).Fits := by
    refine ⟨hns.path, ?_⟩
    rw [bytes_append]
    exact hns.fits
  exact fits_append (fits_append (fits_append (fits_indented 4 (fits_cons fits_location
    (fits_cons ⟨hname.1, hname.2, rfl⟩ (fits_cons trivial fits_nil))))
    (fits_indented 6 (fits_cons halias (fits_cons hpath fits_nil))))
    (fits_indented 6 (fits_cons htry (fits_cons huri
      (fits_cons ⟨hfallback.1, Nat.lt_of_succ_lt hfallback.2⟩ fits_nil))))) fits_noStoreItems

theorem fits_fallbackItems (h : isLabel ns.name = true) : ∀ j ∈ fallbackItems ns, j.Fits := by
  have hname := literal_around h (p := "@docsify_".toList) (q := []) plain_around.2.1.1
    (by decide) plain_around.2.1.2
  have hroot := literal_around h (p := docrootsDir ++ ['/']) (q := []) plain_around.2.2.1
    (by decide) plain_around.2.2.2
  rw [List.append_nil] at hname hroot
  rw [List.append_assoc, List.singleton_append] at hroot
  obtain ⟨-, -, -, ⟨htry, -⟩, hfile, hindex, hnone⟩ := fits_fixed
  exact fits_append (fits_append (fits_append (fits_indented 4 (fits_cons fits_location
    (fits_cons ⟨hname.1, hname.2, rfl⟩ (fits_cons trivial fits_nil))))
    (fits_indented 6 (fits_cons hfile
      (fits_cons ⟨hroot.1, Nat.lt_of_succ_lt hroot.2⟩ fits_nil))))
    (fits_indented 6 (fits_cons htry (fits_cons hindex
      (fits_cons hnone fits_nil))))) fits_noStoreItems

theorem fits_namespaceItems (h : isLabel ns.name = true) (hns : ns.Plain) :
    ∀ j ∈ namespaceItems ns, j.Fits :=
  fits_append (fits_append (fits_append (fits_redirectItems h) (fits_staticItems h))
    (fits_docsItems h hns)) (fits_fallbackItems h)

end Items

/-! ## The whole file -/

/-- The pieces behind the fixed part. -/
def items (namespaces : List Namespace) : List Item :=
  (if namespaces = [] then [newline] else namespaces.flatMap namespaceItems) ++
    [newline, space, space, .closes, newline, .closes, newline]

section File

variable {namespaces : List Namespace}

theorem text_items (namespaces : List Namespace) :
    (items namespaces).flatMap Item.text =
      '\n' :: renderNamespaceBlocks namespaces ++ "\n  \x7d\n\x7d\n".toList := by
  have htail : [newline, space, space, .closes, newline, .closes, newline].flatMap Item.text =
      "\n  \x7d\n\x7d\n".toList := by
    simp [newline, space, Item.text]
  rw [items, List.flatMap_append, htail]
  congr 1
  by_cases h : namespaces = []
  · rw [if_pos h, h]
    rfl
  · rw [if_neg h, renderNamespaceBlocks, newline_intercalate (by simpa using h),
      List.flatMap_assoc, List.flatMap_map]
    simp only [text_namespaceItems]

theorem read_blocks (namespaces : List Namespace) (out : List Event) :
    (namespaces.flatMap namespaceItems).foldlM Item.read ⟨[], out⟩ =
      some ⟨[], out ++ eventsOf (namespaces.flatMap namespaceLocations)⟩ := by
  induction namespaces generalizing out with
  | nil => simp [eventsOf]
  | cons ns namespaces ih =>
    rw [List.flatMap_cons, read_append (read_namespaceItems ns out) (ih _), List.flatMap_cons,
      eventsOf_append, List.append_assoc]

theorem read_items (namespaces : List Namespace) :
    (items namespaces).foldlM Item.read ⟨[], headEvents⟩ =
      some ⟨[], eventsOf (nginxDirectives namespaces)⟩ := by
  have hblocks : (if namespaces = [] then [newline] else namespaces.flatMap namespaceItems).foldlM
      Item.read ⟨[], headEvents⟩ =
        some ⟨[], headEvents ++ eventsOf (namespaces.flatMap namespaceLocations)⟩ := by
    split_ifs with h
    · rw [h]
      simp [newline, Item.read, eventsOf]
    · exact read_blocks namespaces headEvents
  have htail : [newline, space, space, .closes, newline, .closes, newline].foldlM Item.read
      ⟨[], []⟩ = some ⟨[], [.close, .close]⟩ := rfl
  rw [items, read_append hblocks (read_of_nil htail _)]
  simp [headEvents, nginxDirectives, serverDirectives, eventsOf, eventsOf_append,
    Directive.events]

theorem fits_items (h : Accepted namespaces) (hplain : ∀ ns ∈ namespaces, ns.Plain) :
    ∀ j ∈ items namespaces, j.Fits := by
  refine fits_append ?_ (by decide)
  split_ifs
  · exact fits_cons rfl fits_nil
  · intro j hj
    obtain ⟨ns, hns, hj⟩ := List.mem_flatMap.mp hj
    exact fits_namespaceItems (isLabel_of_validNameRe (h.valid ns hns) (hplain ns hns).name)
      (hplain ns hns) j hj

/-- **The file** says what it is meant to say. -/
theorem parse_renderNginx (h : Accepted namespaces) (hplain : ∀ ns ∈ namespaces, ns.Plain) :
    parse (renderNginx namespaces) = some (nginxDirectives namespaces) := by
  obtain ⟨s, hrun, hs⟩ := run_head
  obtain ⟨s', hrun', hs'⟩ := run_items hs (fits_items h hplain) (read_items namespaces)
  refine parse_of_run (s := s') ?_ hs'
  rw [renderNginx, List.append_assoc, ← text_items, run_append, hrun, Option.bind_some, hrun']

end File

end HaAddons.Markdown
