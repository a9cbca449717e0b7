import HaAddons.Bridge.Handlers

/-!
# Options that are written and read back

The options handler passes any JSON object on to the Supervisor; the payloads of the Supervisor are
decoded into a `map[string]string`.

* `reads_back_iff` — options are reported as they were set exactly where all their values are
  strings; in a list in the format of V1 the text `"apps"` must not occur either.
* `number_not_read_back` — one number in the options of one add-on.
-/

namespace HaAddons.Bridge

open Supervisor Handlers

/-! ## What the Supervisor reports -/

/-- An add-on as the Supervisor reports it. Its other fields can be read. -/
structure Reported where
  pre : List (String × Json)
  options : Dict String Json
  post : List (String × Json)
  other : ∀ e ∈ pre ++ post, Json.matchField AddOnInfo.fields e.1 ≠ some "options"
  base : AddOnInfo
  readable : AddOnInfo.decode {} (.obj (pre ++ post)) = .ok base

def Reported.doc (a : Reported) : Json :=
  .obj (a.pre ++ ("options", .obj a.options.entries) :: a.post)

/-- `{"result": "ok", "data": …}` -/
def envelope (data : Json) : Json := .obj [("result", .str "ok"), ("data", data)]

def listDoc (field : String) (as : List Reported) : Json :=
  envelope (.obj [(field, .arr (as.map Reported.doc))])

/-- All values are strings. -/
def Textual (options : Dict String Json) : Prop := ∀ e ∈ options.entries, ∃ s, e.2 = .str s

/-- The options that were read are the ones that are set. -/
def SameContent (read : Option (Dict String String)) (options : Dict String Json) : Prop :=
  ∀ k, ((read.getD .empty).get? k).map Json.str = options.get? k

theorem SameContent.textual {read : Option (Dict String String)} {options : Dict String Json}
    (h : SameContent read options) : Textual options := by
  intro e he
  have hget := (h e.1).trans (Dict.mem_entries.mp he)
  obtain ⟨s, -, hs⟩ := Option.map_eq_some_iff.mp hget
  exact ⟨s, hs.symm⟩

/-! ## Decoding -/

/-- A field that is not the options is decoded without them. -/
theorem set_options (a : AddOnInfo) (o : Option (Dict String String)) {field : String} (v : Json)
    (h : field ≠ "options") :
    AddOnInfo.set { a with options := o } field v =
      (AddOnInfo.set a field v).map fun a => { a with options := o } := by
  unfold AddOnInfo.set
  split
  case h_6 => exact absurd rfl h
  case h_14 => rfl
  all_goals first
    | (generalize Json.string _ v = d; cases d <;> rfl)
    | (generalize Json.boolean _ v = d; cases d <;> rfl)
    | (generalize Json.slice _ _ _ _ v = d; cases d <;> rfl)

/-- One step of the decoder. -/
def setEntry (a : AddOnInfo) (e : String × Json) : Except String AddOnInfo :=
  match Json.matchField AddOnInfo.fields e.1 with
  | some name => AddOnInfo.set a name e.2
  | none => .ok a

theorem decode_obj (a : AddOnInfo) (fields : List (String × Json)) :
    AddOnInfo.decode a (.obj fields) = fields.foldlM setEntry a := rfl

theorem foldlM_setEntry {fields : List (String × Json)}
    (h : ∀ e ∈ fields, Json.matchField AddOnInfo.fields e.1 ≠ some "options") (a : AddOnInfo)
    (o : Option (Dict String String)) :
    fields.foldlM setEntry { a with options := o } =
      (fields.foldlM setEntry a).map fun a => { a with options := o } := by
  induction fields generalizing a with
  | nil => rfl
  | cons e fields ih =>
    obtain ⟨he, hfields⟩ := List.forall_mem_cons.mp h
    have hstep : setEntry { a with options := o } e =
        (setEntry a e).map fun a => { a with options := o } := by
      unfold setEntry
      cases hname : Json.matchField AddOnInfo.fields e.1 with
      | none => rfl
      | some name => exact set_options a o e.2 fun hopt => he (hopt ▸ hname)
    rw [List.foldlM_cons, List.foldlM_cons, hstep]
    cases setEntry a e with
    | error err => rfl
    | ok a' => exact ih hfields a'

/-- Entries with string values are decoded one after the other. -/
theorem foldlM_texts {entries : List (String × Json)} (h : ∀ e ∈ entries, ∃ s, e.2 = Json.str s)
    (hnodup : (entries.map Prod.fst).Nodup) (acc : Dict String String)
    (hnew : ∀ e ∈ entries, e.1 ∉ acc.keys) :
    ∃ d, entries.foldlM (fun d e => (Json.string "" e.2).map (Dict.insert d e.1)) acc =
        (Except.ok d : Except String (Dict String String)) ∧
      ∀ k, (d.get? k).map Json.str =
        ((entries.find? (·.1 = k)).map Prod.snd).or ((acc.get? k).map Json.str) := by
  induction entries generalizing acc with
  | nil => exact ⟨acc, rfl, fun k => rfl⟩
  | cons e entries ih =>
    obtain ⟨⟨s, hs⟩, hentries⟩ := List.forall_mem_cons.mp h
    obtain ⟨henotin, hnodup⟩ := List.nodup_cons.mp hnodup
    obtain ⟨henew, hnew⟩ := List.forall_mem_cons.mp hnew
    have hnew' : ∀ e' ∈ entries, e'.1 ∉ (acc.insert e.1 s).keys := by
      intro e' he' hmem
      rcases Dict.mem_keys_insert.mp hmem with heq | hmem
      · exact henotin (heq ▸ List.mem_map_of_mem he')
      · exact hnew e' he' hmem
    obtain ⟨d, hd, hget⟩ := ih hentries hnodup (acc.insert e.1 s) hnew'
    refine ⟨d, ?_, fun k => ?_⟩
    · rw [List.foldlM_cons, hs]
      exact hd
    · rw [hget k, Dict.get?_insert, List.find?_cons]
      by_cases hk : e.1 = k
      · subst hk
        have hnone : entries.find? (·.1 = e.1) = none := by
          refine List.find?_eq_none.mpr fun e' he' heq => ?_
          exact henotin (of_decide_eq_true heq ▸ List.mem_map_of_mem he')
        rw [hnone]
        simp [hs]
      · simp [hk, Ne.symm hk]

theorem stringMap_textual {options : Dict String Json} (h : Textual options) :
    ∃ d, Json.stringMap "string" "" Json.string none (.obj options.entries) = .ok (some d) ∧
      SameContent (some d) options := by
  obtain ⟨d, hd, hget⟩ := foldlM_texts h options.nodup .empty fun _ _ hmem =>
    absurd hmem List.not_mem_nil
  refine ⟨d, ?_, fun k => ?_⟩
  · exact congrArg (Except.map some) hd
  · rw [Option.getD_some, hget k, Dict.get?_empty, Option.map_none, Option.or_none]
    rfl

theorem matchField_options : Json.matchField AddOnInfo.fields "options" = some "options" := by
  decide

/-- An add-on with textual options is read, and its options are the ones that are set. -/
theorem Reported.decode_textual (a : Reported) (h : Textual a.options) :
    ∃ info, AddOnInfo.decode {} a.doc = .ok info ∧ SameContent info.options a.options := by
  obtain ⟨hpre, hpost⟩ := List.forall_mem_append.mp a.other
  obtain ⟨d, hd, hsame⟩ := stringMap_textual h
  have hreadable := a.readable
  rw [decode_obj, List.foldlM_append] at hreadable
  cases hmid : a.pre.foldlM setEntry {} with
  | error err =>
    rw [hmid] at hreadable
    cases hreadable
  | ok mid =>
    rw [hmid] at hreadable
    have hbase : a.post.foldlM setEntry mid = .ok a.base := hreadable
    have hnone : mid.options = none := by
      have := foldlM_setEntry hpre {} none
      rw [show ({ ({} : AddOnInfo) with options := none } : AddOnInfo) = {} from rfl, hmid] at this
      exact congrArg AddOnInfo.options (Except.ok.inj this)
    have hstep : setEntry mid ("options", .obj a.options.entries) =
        .ok { mid with options := some d } := by
      unfold setEntry
      rw [matchField_options]
      show (Json.stringMap "string" "" Json.string mid.options _).bind _ = _
      rw [hnone, hd]
      rfl
    refine ⟨{ a.base with options := some d }, ?_, hsame⟩
    rw [Reported.doc, decode_obj, List.foldlM_append, hmid]
    show (setEntry mid _).bind (a.post.foldlM setEntry) = _
    rw [hstep]
    show a.post.foldlM setEntry { mid with options := some d } = _
    rw [foldlM_setEntry hpost mid (some d), hbase]
    rfl

/-! ## The two payloads -/

/-- What the client makes of an add-on that it could decode. -/
theorem normalize_options (i : AddOnInfo) : (Client.normalize i).options = i.options := by
  unfold Client.normalize
  split_ifs <;> rfl

theorem decode_envelope {α : Type} (decode : Json.Decoder α) (cur : α) (data : Json) :
    dataOf decode cur (envelope data) = decode cur data := by
  have hresult : Json.matchField ["data"] "result" = none := by decide
  have hdata : Json.matchField ["data"] "data" = some "data" := by decide
  simp only [dataOf, envelope, Json.struct, List.foldlM_cons, List.foldlM_nil, hresult, hdata]
  cases h : decode cur data <;> simp [h, bind, Except.bind, pure, Except.pure]

theorem decode_list {field other : String} (h : Json.matchField [field] field = some field)
    (hother : Json.matchField [other] field = none) (as : List Reported) :
    listOf field none (listDoc field as) =
        ((as.map Reported.doc).mapM (AddOnInfo.decode {})).map some ∧
      listOf other none (listDoc field as) = .ok none := by
  simp only [listOf, listDoc, decode_envelope, Json.struct, List.foldlM_cons, List.foldlM_nil, h,
    hother, Json.slice]
  refine ⟨?_, rfl⟩
  cases (as.map Reported.doc).mapM (AddOnInfo.decode {}) <;> rfl

theorem mapM_decode {as : List Reported} (h : ∀ a ∈ as, Textual a.options) :
    ∃ items, (as.map Reported.doc).mapM (AddOnInfo.decode {}) = .ok items ∧
      List.Forall₂ (fun a i => SameContent i.options a.options) as items := by
  induction as with
  | nil => exact ⟨[], rfl, .nil⟩
  | cons a as ih =>
    obtain ⟨ha, has⟩ := List.forall_mem_cons.mp h
    obtain ⟨info, hinfo, hsame⟩ := a.decode_textual ha
    obtain ⟨items, hitems, hall⟩ := ih has
    refine ⟨info :: items, ?_, .cons hsame hall⟩
    rw [List.map_cons, List.mapM_cons, hinfo, hitems]
    rfl

/-! ## A Supervisor that reports the options -/

def InfoBody (codec : Codec) (a : Reported) (body : Bytes) : Prop :=
  codec.decode body = .ok (envelope a.doc)

def AppsBody (codec : Codec) (as : List Reported) (body : Bytes) : Prop :=
  codec.unmarshal body = .ok (listDoc "apps" as) ∧ Client.containsField body "\"apps\"" = true

def AddonsBody (codec : Codec) (as : List Reported) (body : Bytes) : Prop :=
  codec.unmarshal body = .ok (listDoc "addons" as)

/-- A path answers with such a body, or with another status than 200. -/
def Serves (c : Client) (path : String) (P : Bytes → Prop) : Prop :=
  (∃ body, c.exec ⟨"GET", path, none⟩ = answer 200 body ∧ P body) ∨
    ∃ status body, status ≠ 200 ∧ c.exec ⟨"GET", path, none⟩ = answer status body

def Found (c : Client) (path : String) : Prop :=
  ∃ body, c.exec ⟨"GET", path, none⟩ = answer 200 body

/-- The payloads of V2, of V1 or of both show the add-ons. The others have textual options. -/
structure Reports (c : Client) (slug : String) (as : List Reported) (a : Reported) : Prop where
  mem : a ∈ as
  others : ∀ b ∈ as, b = a ∨ Textual b.options
  info2 : Serves c ("/apps/" ++ slug ++ "/info") (InfoBody c.codec a)
  info1 : Serves c ("/addons/" ++ slug ++ "/info") (InfoBody c.codec a)
  info : Found c ("/apps/" ++ slug ++ "/info") ∨ Found c ("/addons/" ++ slug ++ "/info")
  list2 : Serves c "/apps" (AppsBody c.codec as)
  list1 : Serves c "/addons" (AddonsBody c.codec as)
  list : Found c "/apps" ∨ Found c "/addons"

/-- A list in the format of V1 does not have the text `"apps"`. -/
def ListTold (c : Client) : Prop :=
  ¬ Found c "/apps" → ∀ body, c.exec ⟨"GET", "/addons", none⟩ = answer 200 body →
    Client.containsField body "\"apps\"" = false

section Client

variable {c : Client} {slug : String} {as : List Reported} {a : Reported}

theorem Reports.textual (h : Reports c slug as a) (ha : Textual a.options) :
    ∀ b ∈ as, Textual b.options := by
  intro b hb
  rcases h.others b hb with rfl | hb
  · exact ha
  · exact hb

theorem infoOf_textual {codec : Codec} {body : Bytes} (hbody : InfoBody codec a body)
    (ha : Textual a.options) :
    ∃ info, Client.infoOf codec body = .ok info ∧ SameContent info.options a.options := by
  obtain ⟨info, hinfo, hsame⟩ := a.decode_textual ha
  refine ⟨Client.normalize info, ?_, by rwa [normalize_options]⟩
  have hdoc : (codec.decode body).bind (dataOf AddOnInfo.decode {}) = .ok info := by
    rw [hbody]
    exact (decode_envelope AddOnInfo.decode {} a.doc).trans hinfo
  rw [Client.infoOf, hdoc]
  rfl

theorem not_found {path : String} {status : ℕ} {body : Bytes} (hstatus : status ≠ 200)
    (h : c.exec ⟨"GET", path, none⟩ = answer status body) : ¬ Found c path := by
  rintro ⟨body', hfound⟩
  have := h.symm.trans hfound
  simp only [answer, Outcome.response.injEq, Response.mk.injEq] at this
  exact hstatus this.1

/-- The info is read from the path that is found first. -/
theorem getAddonInfo_textual (h : Reports c slug as a) (ha : Textual a.options) :
    ∃ info, c.getAddonInfo slug = .ok info ∧ SameContent info.options a.options := by
  have hread : ∀ {path body}, c.exec ⟨"GET", path, none⟩ = answer 200 body →
      InfoBody c.codec a body → ∃ info, c.getAddonInfoFromPath path = .ok info ∧
        SameContent info.options a.options := by
    intro path body hexec hbody
    obtain ⟨info, hinfo, hsame⟩ := infoOf_textual hbody ha
    exact ⟨info, (Client.getAddonInfoFromPath_ok hexec info).mpr hinfo, hsame⟩
  rcases h.info2 with ⟨body, hexec, hbody⟩ | ⟨status, body, hstatus, hexec⟩
  · obtain ⟨info, hinfo, hsame⟩ := hread hexec hbody
    exact ⟨info, by rw [Client.getAddonInfo, hinfo], hsame⟩
  · have herror := Client.getAddonInfoFromPath_status hstatus hexec
    rcases h.info1 with ⟨body₁, hexec₁, hbody₁⟩ | ⟨status₁, body₁, hstatus₁, hexec₁⟩
    · obtain ⟨info, hinfo, hsame⟩ := hread hexec₁ hbody₁
      exact ⟨info, by rw [Client.getAddonInfo, herror]; exact by rw [hinfo], hsame⟩
    · rcases h.info with hfound | hfound
      · exact absurd hfound (not_found hstatus hexec)
      · exact absurd hfound (not_found hstatus₁ hexec₁)

theorem forall₂_normalize {items : List AddOnInfo}
    (h : List.Forall₂ (fun a i => SameContent i.options a.options) as items) :
    List.Forall₂ (fun a i => SameContent i.options a.options) as (items.map Client.normalize) := by
  rw [List.forall₂_map_right_iff]
  exact h.imp fun a i hi => by rwa [normalize_options]

/-- What the client makes of a list where all options are textual. -/
theorem listItems_textual (has : ∀ b ∈ as, Textual b.options) :
    ∃ items, List.Forall₂ (fun a i => SameContent i.options a.options) as items ∧
      (∀ body, AppsBody c.codec as body → c.listItems body = .ok (some items)) ∧
      ∀ body, AddonsBody c.codec as body → c.listItems body =
        .ok (if Client.containsField body "\"apps\"" then none else some items) := by
  obtain ⟨items, hitems, hall⟩ := mapM_decode has
  refine ⟨items, hall, fun body hbody => ?_, fun body hbody => ?_⟩
  · obtain ⟨hdoc, happs⟩ := hbody
    have hread := (@decode_list "apps" "addons" (by decide) (by decide) as).1
    simp only [Client.listItems, hdoc, Except.bind, hread, hitems, Except.map, happs, if_true]
  · have hread := @decode_list "addons" "apps" (by decide) (by decide) as
    rw [hitems] at hread
    simp only [Client.listItems, show c.codec.unmarshal body = _ from hbody, Except.bind, hread.1,
      hread.2, Except.map]
    split <;> rfl

theorem listAddons_textual (h : Reports c slug as a) (ha : Textual a.options) :
    (∃ items, c.listAddons = .ok (some items) ∧
      List.Forall₂ (fun a i => SameContent i.options a.options) as items) ↔ ListTold c := by
  obtain ⟨items, hall, happs, haddons⟩ := @listItems_textual c as (h.textual ha)
  have hitems := forall₂_normalize hall
  have hne : as ≠ [] := List.ne_nil_of_mem h.mem
  rcases h.list2 with ⟨body, hexec, hbody⟩ | ⟨status, body, hstatus, hexec⟩
  · have hlist := Client.listAddonsFromPath_ok hexec (happs body hbody)
    refine iff_of_true ⟨_, by rw [Client.listAddons, hlist]; rfl, hitems⟩ fun hnot => ?_
    exact absurd ⟨body, hexec⟩ hnot
  · have herror := Client.listAddonsFromPath_status hstatus hexec
    have hnot := not_found hstatus hexec
    rcases h.list1 with ⟨body₁, hexec₁, hbody₁⟩ | ⟨status₁, body₁, hstatus₁, hexec₁⟩
    · have hlist := Client.listAddonsFromPath_ok hexec₁ (haddons body₁ hbody₁)
      have hresult : c.listAddons = .ok (Client.normalizeStarted
          (if Client.containsField body₁ "\"apps\"" then none else some items)) := by
        rw [Client.listAddons, herror]
        simp only [hlist]
      rw [hresult]
      constructor
      · rintro ⟨items', heq, -⟩ - body' hexec'
        have hsame := hexec₁.symm.trans hexec'
        simp only [answer, Outcome.response.injEq, Response.mk.injEq, Body.mk.injEq, and_true,
          true_and] at hsame
        subst hsame
        by_cases hcontains : Client.containsField body₁ "\"apps\"" = true
        · rw [if_pos hcontains] at heq
          cases heq
        · simpa using hcontains
      · intro htold
        rw [htold hnot body₁ hexec₁]
        exact ⟨_, rfl, hitems⟩
    · rcases h.list with hfound | hfound
      · exact absurd hfound hnot
      · exact absurd hfound (not_found hstatus₁ hexec₁)

end Client

/-! ## The handler -/

/-- The request passes the guard, the nonce and the lock. -/
structure Admitted (q : Handlers.Config) (r : HttpRequest) (slug : Bytes)
    (answers : ∀ i, Answer i) : Prop where
  named : slug ≠ []
  notCritical : slug ∉ q.criticalAddons
  header : r.forceDestroy ≠ ""
  nonce : answers (.validate r.forceDestroy (q.fingerprint r.actor) r.requestID) = .ok ()
  lock : answers (.tryAcquire slug) = .ok ()

/-- The Supervisor finds the options of the request valid and applies them. -/
structure Applied (q : Handlers.Config) (r : HttpRequest) (slug : Bytes) (answers : ∀ i, Answer i)
    (opts : Dict String Json) : Prop where
  decoded : decodeOptions q.codec r.body = .ok (.obj opts.entries)
  validated : ∃ diag,
    (validateOptionsCall q.codec slug (.obj opts.entries)).eval answers = .ok diag ∧
      diag.valid = true
  applied : (optionsCall q.codec slug (.obj opts.entries)).eval answers = .ok ()

/-- A path of the Supervisor answers with the info of the add-on, or with another status. -/
def Told (codec : Codec) (answers : ∀ i, Answer i) (a : Reported) (path : Bytes) : Prop :=
  ∃ u r, URL.parse path = .ok u ∧
    answers (.supervisor ⟨"GET", u.escapedPath, u.rawQuery, none⟩) = .ok r ∧
      (r.1 = 200 → InfoBody codec a r.2)

def Answered (answers : ∀ i, Answer i) (path : Bytes) : Prop :=
  ∃ u body, URL.parse path = .ok u ∧
    answers (.supervisor ⟨"GET", u.escapedPath, u.rawQuery, none⟩) = .ok (200, body)

/-- After the change the info shows the options. -/
structure Refetched (q : Handlers.Config) (slug : Bytes) (answers : ∀ i, Answer i) (a : Reported) :
    Prop where
  v2 : Told q.codec answers a (appsPath slug "info")
  v1 : Told q.codec answers a (addonsPath slug "info")
  found : Answered answers (appsPath slug "info") ∨ Answered answers (addonsPath slug "info")

section Handler

variable {q : Handlers.Config} {r : HttpRequest} {slug : Bytes} {answers : ∀ i, Answer i}
  {a : Reported} {codec : Codec}

theorem eval_infoFromPath {path : Bytes} (h : Told codec answers a path) (ha : Textual a.options) :
    (∃ info, (getAddonInfoFromPath codec path).eval answers = .ok info ∧
      SameContent info.options a.options) ∨
    ¬ Answered answers path ∧ ∃ e, (getAddonInfoFromPath codec path).eval answers = .error e := by
  obtain ⟨u, ⟨status, body⟩, hparse, hanswer, hbody⟩ := h
  have hsend : (send "GET" path none).eval answers = .ok (status, body) := by
    rw [send, hparse]
    show (answers (.supervisor ⟨"GET", u.escapedPath, u.rawQuery, none⟩)).mapError _ = _
    rw [hanswer]
    rfl
  simp only [getAddonInfoFromPath, Dialogue.bind_eq, Dialogue.eval_bind, hsend]
  by_cases hstatus : status = 200
  · left
    obtain ⟨info, hinfo, hsame⟩ := infoOf_textual (hbody hstatus) ha
    rw [if_neg (not_not.mpr hstatus)]
    unfold Client.infoOf at hinfo
    cases hdoc : (codec.decode body).bind (dataOf AddOnInfo.decode {}) with
    | error err =>
      rw [hdoc] at hinfo
      cases hinfo
    | ok info' =>
      rw [hdoc] at hinfo
      obtain rfl := Except.ok.inj hinfo
      exact ⟨_, rfl, hsame⟩
  · right
    refine ⟨?_, ?_⟩
    · rintro ⟨u', body', hparse', hanswer'⟩
      obtain rfl := Except.ok.inj (hparse.symm.trans hparse')
      have := Except.ok.inj (hanswer.symm.trans hanswer')
      exact hstatus (congrArg Prod.fst this)
    · rw [if_pos hstatus]
      exact ⟨_, rfl⟩

theorem eval_info (hre : Refetched q slug answers a) (ha : Textual a.options) :
    ∃ info, (getAddonInfo q.codec slug).eval answers = .ok info ∧
      SameContent info.options a.options := by
  simp only [getAddonInfo, Dialogue.bind_eq, Dialogue.eval_bind]
  rcases eval_infoFromPath hre.v2 ha with ⟨info, hinfo, hsame⟩ | ⟨hnot, e, herror⟩
  · rw [hinfo]
    exact ⟨info, rfl, hsame⟩
  · rw [herror]
    rcases eval_infoFromPath hre.v1 ha with ⟨info, hinfo, hsame⟩ | ⟨hnot₁, -⟩
    · simp only [Dialogue.eval_bind, hinfo]
      exact ⟨info, rfl, hsame⟩
    · exact absurd hre.found (not_or.mpr ⟨hnot, hnot₁⟩)

/-- **No error after the change.** -/
theorem options_textual (hin : Admitted q r slug answers)
    (happ : Applied q r slug answers a.options) (hre : Refetched q slug answers a) (ha : Textual a.options) :
    ∃ info, (options q r slug).eval answers = ⟨200, .info info⟩ ∧
      SameContent info.options a.options := by
  obtain ⟨info, hinfo, hsame⟩ := eval_info hre ha
  obtain ⟨diag, hdiag, hvalid⟩ := happ.validated
  refine ⟨info, ?_, hsame⟩
  unfold options guarded
  rw [if_neg hin.named, if_neg hin.notCritical, if_neg hin.header]
  rw [Dialogue.eval_ask, hin.nonce]
  dsimp only
  rw [Dialogue.eval_ask, hin.lock]
  dsimp only
  rw [Dialogue.eval_bind, happ.decoded]
  dsimp only [Dialogue.bind_eq, Dialogue.eval_ask, Dialogue.eval_done]
  rw [Dialogue.eval_bind, hdiag]
  dsimp only
  rw [if_neg (by rw [hvalid]; decide), Dialogue.eval_bind, happ.applied]
  dsimp only
  rw [Dialogue.eval_bind, hinfo]
  rfl

end Handler

/-- What is written is read back: by the info, by the list and by the handler that wrote it. -/
structure ReadsBack (c : Client) (slug : String) (as : List Reported) (a : Reported) : Prop where
  info : ∃ info, c.getAddonInfo slug = .ok info ∧ SameContent info.options a.options
  list : ∃ items, c.listAddons = .ok (some items) ∧
    List.Forall₂ (fun a i => SameContent i.options a.options) as items
  handler : ∀ (q : Handlers.Config) (r : HttpRequest) (slug : Bytes) (answers : ∀ i, Answer i),
    q.codec = c.codec → Admitted q r slug answers → Applied q r slug answers a.options →
      Refetched q slug answers a → ∃ info, (options q r slug).eval answers = ⟨200, .info info⟩ ∧
        SameContent info.options a.options

/-- **Where options are read back.** -/
theorem reads_back_iff {c : Client} {slug : String} {as : List Reported} {a : Reported}
    (h : Reports c slug as a) : ReadsBack c slug as a ↔ Textual a.options ∧ ListTold c := by
  constructor
  · intro hback
    obtain ⟨info, -, hsame⟩ := hback.info
    have ha := hsame.textual
    exact ⟨ha, (listAddons_textual h ha).mp hback.list⟩
  · rintro ⟨ha, htold⟩
    exact ⟨getAddonInfo_textual h ha, (listAddons_textual h ha).mpr htold,
      fun q r slug answers _ hin happ hre => options_textual hin happ hre ha⟩

/-! ## A port -/

/-- The add-on `core_ssh` with one option. -/
def sshWith (value : Json) : Reported where
  pre := [("slug", .str "core_ssh")]
  options := Dict.empty.insert "port" value
  post := [("boot", .str "auto")]
  other := by decide
  base := { slug := "core_ssh", boot := "auto" }
  readable := by rfl

/-- A Supervisor of V2 with this add-on only. The text of the port is `text` in its payloads. -/
def sshSupervisor (text : String) (value : Json) : Client :=
  let data := "\x7b\"slug\":\"core_ssh\",\"options\":\x7b\"port\":" ++ text ++
    "\x7d,\"boot\":\"auto\"\x7d"
  let info := utf8 ("\x7b\"result\":\"ok\",\"data\":" ++ data ++ "\x7d")
  let list := utf8 "\x7b\"result\":\"ok\",\"data\":\x7b\"apps\":[" ++ utf8 (data ++ "]\x7d\x7d")
  { exec := fun req =>
      if req = ⟨"GET", "/apps/core_ssh/info", none⟩ then answer 200 info
      else if req = ⟨"GET", "/apps", none⟩ then answer 200 list
      else answer 404 []
    codec :=
      { unmarshal := fun body =>
          if body = list then .ok (listDoc "apps" [sshWith value]) else .error "invalid character"
        decode := fun body =>
          if body = info then .ok (envelope (sshWith value).doc) else .error "invalid character"
        marshal := fun _ => .error "unsupported value" } }

theorem reports_sshSupervisor (text : String) (value : Json) :
    Reports (sshSupervisor text value) "core_ssh" [sshWith value] (sshWith value) := by
  have happs : (sshSupervisor text value).exec ⟨"GET", "/addons", none⟩ = answer 404 [] := rfl
  have hinfo : (sshSupervisor text value).exec ⟨"GET", "/addons/core_ssh/info", none⟩ =
      answer 404 [] := rfl
  refine ⟨List.mem_singleton.mpr rfl, fun b hb => .inl (List.mem_singleton.mp hb), ?_, ?_, ?_, ?_,
    ?_, ?_⟩
  · exact .inl ⟨_, rfl, if_pos rfl⟩
  · exact .inr ⟨404, [], by decide, hinfo⟩
  · exact .inl ⟨_, rfl⟩
  · refine .inl ⟨_, rfl, if_pos rfl, decide_eq_true ?_⟩
    have hkey : "\"apps\"".toUTF8.data.toList <:+:
        utf8 "\x7b\"result\":\"ok\",\"data\":\x7b\"apps\":[" := by decide
    exact hkey.trans (List.prefix_append _ _).isInfix
  · exact .inr ⟨404, [], by decide, happs⟩
  · exact .inl ⟨_, rfl⟩

/-- A port that is given as a string. -/
theorem reads_back_text :
    ReadsBack (sshSupervisor "\"8123\"" (.str "8123")) "core_ssh" [sshWith (.str "8123")]
        (sshWith (.str "8123")) ↔
      Textual (sshWith (.str "8123")).options ∧ ListTold (sshSupervisor "\"8123\"" (.str "8123")) :=
  reads_back_iff (reports_sshSupervisor "\"8123\"" (.str "8123"))

/-- A port that is given as a number. -/
theorem number_not_read_back : ¬ ∀ (c : Client) (slug : String) (as : List Reported) (a : Reported),
    Reports c slug as a → ReadsBack c slug as a := by
  intro h
  obtain ⟨info, -, hsame⟩ := (h _ _ _ _ (reports_sshSupervisor "8123" (.num "8123"))).info
  obtain ⟨s, hs⟩ := hsame.textual ("port", .num "8123") List.mem_cons_self
  cases hs

end HaAddons.Bridge
