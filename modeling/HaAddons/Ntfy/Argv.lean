import HaAddons.Lib.Tokens
import HaAddons.Ntfy.RejectedRequests

/-!
# What callers put on the command line

User names, topics, labels, durations and tokens of callers become elements of ntfy's argv. Two
layers check them with anchored patterns, in which `$` also stands before a newline at the end.

* `argv_exact` — every call of the command line that a service or a method of the adapter makes
  carries the caller's values, and these are of their class exactly if none ends with a newline.
* `guard_lets_newline` — a user name with a newline behind it is passed on.
-/

namespace HaAddons.Ntfy

/-! ## Elements -/

/-- What a value stands for. -/
inductive Kind where
  | userName
  | topic
  | label
  | duration
  | token

/-- The characters of the class. -/
def Kind.allows : Kind → Char → Bool
  | userName, c => isAsciiLetter c || isAsciiDigit c || c ∈ ['-', '_', '.', '+', '@']
  | topic, c => isAsciiLetter c || isAsciiDigit c || c ∈ ['-', '_', '*']
  | label, c => 0x20 ≤ c.toNat
  | duration, c => isAsciiDigit c || c ∈ ['s', 'm', 'h', 'd']
  | token, c => isAsciiDigit c || ('a' ≤ c && c ≤ 'z') || c = '_'

/-- An element of argv: a word of the adapter, or a value of a caller behind a flag. Without a flag
the element is positional. -/
inductive Arg where
  | word (text : String)
  | value (kind : Kind) (flag text : String)

namespace Arg

/-- The value of the caller in the element. -/
def value? : Arg → Option String
  | word _ => none
  | value _ _ t => some t

/-- The value is of its class, and a positional element does not start with `-`. -/
def Guarded : Arg → Prop
  | word _ => True
  | value kind flag t =>
    (∀ c ∈ t.toList, kind.allows c = true) ∧ (flag = "" → t.toList.head? ≠ some '-')

end Arg

/-- The arguments with which a call runs ntfy. -/
def ApiOp.argv : ApiOp → List Arg
  | .account (.userAdd name _ role) =>
    [.word "user", .word "add", .word ("--role=" ++ role.text), .value .userName "" name]
  | .account (.changePass name _) =>
    [.word "user", .word "change-pass", .value .userName "" name]
  | .account (.userDelete name) => [.word "user", .word "del", .value .userName "" name]
  | .account (.changeRole name role) =>
    [.word "user", .word "change-role", .value .userName "" name, .word role.text]
  | .account (.accessSet user topic permission) =>
    [.word "access", .value .userName "" user, .value .topic "" topic, .word permission.text]
  | .account (.resetRules user) =>
    [.word "access", .word "--reset"] ++ user.toList.map (.value .userName "")
  | .accessReset user topic =>
    [.word "access", .word "--reset", .value .userName "" user, .value .topic "" topic]
  | .tokenAdd user label expires =>
    [.word "token", .word "add"] ++ (if label = "" then [] else [.value .label "--label=" label]) ++
      expires.toList.map (.value .duration "--expires=") ++ [.value .userName "" user]
  | .tokenRemove user token =>
    [.word "token", .word "remove", .value .userName "" user, .value .token "" token]
  | _ => []

/-! ## Calls -/

/-- `access_reset` -/
def accessResetCall : Option String → Option String → ApiAction Unit
  | none, some _ => .raise (.value "topic requires a user")
  | user, none => lift (NtfyCli.accessReset user)
  | some user, some topic => accessReset user topic

/-- The methods of the adapter, and the services on top of them. -/
inductive CliCall where
  | userAdd (name password : String) (role : Role)
  | userChangePass (name password : String)
  | userDelete (name : String)
  | userChangeRole (name : String) (role : Role)
  | accessSet (user topic : String) (permission : Permission)
  | accessReset (user topic : Option String)
  | tokenAdd (user : String) (label expires : Option String)
  | tokenRemove (user token : String)
  | createUser (name password role : String)
  | setRule (user topic permission : String)
  | removeRule (user topic : String)
  | createToken (user : String) (label expires : Option String)

namespace CliCall

/-- What the call does. -/
def script (d : Ntfyd) (options : Options) : CliCall → ApiAction Unit
  | userAdd name password role => lift (NtfyCli.userAdd name password role)
  | userChangePass name password => lift (NtfyCli.userChangePass name password)
  | userDelete name => lift (NtfyCli.userDelete name)
  | userChangeRole name role => lift (NtfyCli.userChangeRole name role)
  | accessSet user topic permission => lift (NtfyCli.accessSet user topic permission)
  | accessReset user topic => accessResetCall user topic
  | tokenAdd user label expires => Ntfy.tokenAdd user (nonEmpty label) (nonEmpty expires)
  | tokenRemove user token => Ntfy.tokenRemove user token
  | createUser name password role => do
    let _ ← lift (Ntfy.createUser options name password role)
  | setRule user topic permission => do
    let _ ← lift (Ntfy.setRule user topic permission)
  | removeRule user topic => Ntfy.removeRule user topic
  | createToken user label expires => do
    let _ ← Ntfy.createToken d user label expires

/-- The values of the caller that go to the command line. -/
def values : CliCall → List String
  | userAdd name _ _ | userChangePass name _ | userDelete name | userChangeRole name _
  | createUser name _ _ => [name]
  | accessSet user topic _ | setRule user topic _ | removeRule user topic => [user, topic]
  | accessReset user topic => user.toList ++ topic.toList
  | tokenAdd user label expires | createToken user label expires =>
    (nonEmpty label).toList ++ (nonEmpty expires).toList ++ [user]
  | tokenRemove user token => [user, token]

end CliCall

/-- The value ends with a newline. -/
def Broken (text : String) : Prop := text.toList.getLast? = some '\n'

/-- The operation carries the values of the call, and they are of their class exactly if none ends
with a newline. -/
def Exact (c : CliCall) (o : ApiOp) : Prop :=
  o.isCli = true → o.argv.filterMap Arg.value? = c.values ∧
    ((∀ a ∈ o.argv, a.Guarded) ↔ ∀ v ∈ c.values, ¬ Broken v)

/-! ## Patterns -/

theorem head?_unbroken {s : List Char} (h : unbroken s ≠ []) : s.head? = (unbroken s).head? := by
  by_cases hs : s.getLast? = some '\n'
  · rw [unbroken, if_pos hs] at h ⊢
    obtain ⟨init, rfl⟩ := List.getLast?_eq_some_iff.mp hs
    rw [List.dropLast_concat] at h ⊢
    exact List.head?_append_of_ne_nil _ h
  · rw [unbroken_of_ne hs]

/-- The value is of its class, but for a newline at its end. -/
def Arg.Accepted : Arg → Prop
  | word _ => True
  | value kind flag t =>
    (∀ c ∈ unbroken t.toList, kind.allows c = true) ∧
      (flag = "" → unbroken t.toList ≠ [] ∧ (unbroken t.toList).head? ≠ some '-')

theorem allows_newline (kind : Kind) : kind.allows '\n' = false := by
  cases kind <;> decide

/-- An accepted value is guarded exactly if it does not end with a newline. -/
theorem Arg.Accepted.guarded_iff {kind : Kind} {flag t : String}
    (h : (Arg.value kind flag t).Accepted) : (Arg.value kind flag t).Guarded ↔ ¬ Broken t := by
  obtain ⟨hclass, hhead⟩ := h
  constructor
  · rintro ⟨hall, -⟩ hbroken
    have hnl := hall '\n' (List.mem_of_getLast? hbroken)
    rw [allows_newline] at hnl
    cases hnl
  · intro hwhole
    refine ⟨?_, fun hflag => ?_⟩
    · rw [unbroken_of_ne hwhole] at hclass
      exact hclass
    · rw [head?_unbroken (hhead hflag).1]
      exact (hhead hflag).2

theorem nameRe_eq_true {first rest : Char → Bool} {s : String} (h : nameRe first rest s = true) :
    ∃ c cs, unbroken s.toList = c :: cs ∧ first c = true ∧ ∀ x ∈ cs, rest x = true := by
  unfold nameRe at h
  dsimp only at h
  split at h
  · cases h
  · rename_i c cs hs
    simp only [Bool.and_eq_true, List.all_eq_true] at h
    exact ⟨c, cs, hs, h.1.1, h.1.2⟩

/-- A positional value that a pattern of names accepts. -/
theorem accepted_of_nameRe {kind : Kind} {first rest : Char → Bool} {s : String}
    (h : nameRe first rest s = true) (hfirst : ∀ c, first c = true → kind.allows c = true)
    (hrest : ∀ c, rest c = true → kind.allows c = true) (hdash : first '-' = false) :
    (Arg.value kind "" s).Accepted := by
  obtain ⟨c, cs, hs, hc, hcs⟩ := nameRe_eq_true h
  show (∀ x ∈ unbroken s.toList, _) ∧ (_ → unbroken s.toList ≠ [] ∧ _)
  rw [hs]
  refine ⟨fun x hx => ?_, fun _ => ⟨List.cons_ne_nil _ _, fun hhead => ?_⟩⟩
  · rcases List.mem_cons.mp hx with rfl | hx
    · exact hfirst x hc
    · exact hrest x (hcs x hx)
  · cases hhead
    rw [hdash] at hc
    cases hc

theorem accepted_userName {s : String} (h : usernameRe s = true) :
    (Arg.value .userName "" s).Accepted := by
  refine accepted_of_nameRe h (fun c hc => ?_) (fun _ hc => hc) (by decide)
  rw [Bool.or_eq_true, decide_eq_true_eq] at hc
  rcases hc with hc | rfl
  · simp [Kind.allows, hc]
  · rfl

theorem accepted_topic {s : String} (h : topicPatternRe s = true) :
    (Arg.value .topic "" s).Accepted := by
  refine accepted_of_nameRe h (fun c hc => ?_) (fun _ hc => hc) (by decide)
  simp only [Bool.or_eq_true, decide_eq_true_eq, List.mem_cons, List.not_mem_nil, or_false] at hc
  rcases hc with hc | rfl | rfl
  · simp [Kind.allows, hc]
  · rfl
  · rfl

theorem accepted_label {s : String} (h : labelRe s = true) :
    (Arg.value .label "--label=" s).Accepted := by
  change ((unbroken s.toList).all _ && _) = true at h
  rw [Bool.and_eq_true, List.all_eq_true] at h
  exact ⟨h.1, fun hflag => absurd hflag (by decide)⟩

theorem accepted_duration {s : String} (h : durationRe s = true) :
    (Arg.value .duration "--expires=" s).Accepted := by
  refine ⟨fun c hc => ?_, fun hflag => absurd hflag (by decide)⟩
  unfold durationRe at h
  dsimp only at h
  rw [← List.mem_reverse] at hc
  split at h
  · cases h
  · rename_i u digits hs
    change (unbroken s.toList).reverse = u :: digits at hs
    rw [hs] at hc
    simp only [Bool.and_eq_true, List.all_eq_true] at h
    rcases List.mem_cons.mp hc with rfl | hc
    · exact Bool.or_eq_true_iff.mpr (.inr h.1.1)
    · exact Bool.or_eq_true_iff.mpr (.inl (h.2 c hc))

theorem accepted_token {s : String} (h : tokenRe s = true) :
    (Arg.value .token "" s).Accepted := by
  change ("tk_".toList.isPrefixOf (unbroken s.toList) && (unbroken s.toList).length = 32 &&
    ((unbroken s.toList).drop 3).all _) = true at h
  simp only [Bool.and_eq_true, List.all_eq_true, List.isPrefixOf_iff_prefix] at h
  obtain ⟨⟨⟨rest, hrest⟩, -⟩, hall⟩ := h
  show (∀ x ∈ unbroken s.toList, _) ∧ (_ → unbroken s.toList ≠ [] ∧ _)
  rw [← hrest] at hall ⊢
  refine ⟨fun c hc => ?_, fun _ => ⟨by simp, by simp⟩⟩
  rcases List.mem_append.mp hc with hc | hc
  · exact forall_mem_of_all (p := fun c => Kind.allows .token c = true) (by decide) c hc
  · have hd := hall c hc
    simp only [Kind.allows, Bool.or_eq_true] at hd ⊢
    exact .inl hd

/-! ## What the calls pass on -/

/-- The operation passes on the values, each of them accepted. -/
def Carries (values : List String) (o : ApiOp) : Prop :=
  o.isCli = true → o.argv.filterMap Arg.value? = values ∧ ∀ a ∈ o.argv, a.Accepted

/-- Accepted arguments are guarded exactly if no value among them ends with a newline. -/
theorem guarded_iff {args : List Arg} (h : ∀ a ∈ args, a.Accepted) :
    (∀ a ∈ args, a.Guarded) ↔ ∀ v ∈ args.filterMap Arg.value?, ¬ Broken v := by
  simp only [List.mem_filterMap]
  constructor
  · rintro hall v ⟨a, ha, hv⟩
    cases a with
    | word t => cases hv
    | value kind flag t =>
      cases hv
      exact (h _ ha).guarded_iff.mp (hall _ ha)
  · intro hall a ha
    cases a with
    | word t => trivial
    | value kind flag t => exact (h _ ha).guarded_iff.mpr (hall t ⟨_, ha, rfl⟩)

theorem Carries.exact {c : CliCall} {o : ApiOp} (h : Carries c.values o) : Exact c o := by
  intro ho
  obtain ⟨hvalues, haccepted⟩ := h ho
  exact ⟨hvalues, hvalues ▸ guarded_iff haccepted⟩

section Calls

variable {α : Type} {K : ApiOp → Prop} {values : List String} {name user topic : String}

theorem lift_bind {β : Type} (s : Action α) (f : α → Action β) :
    lift (s.bind f) = (lift s).bind fun a => lift (f a) :=
  Script.embed_bind _ _ s f

theorem act_only {o : Op} (h : K (.account o)) : (lift (act o)).Only K := Script.Only.act h

theorem apiAct_only {o : ApiOp} (h : K o) : (apiAct o).Only K := Script.Only.act h

/-- What reads only is of any kind. -/
theorem reads_only {s : Action α} (h : s.Only fun _ => False) : (lift s).Only K :=
  Script.Only.embed (s := s) (h.mono fun _ hfalse => hfalse.elim)

/-- What comes after the adapter's check of a name. -/
theorem checkUser_only {everyone : Bool} {f : Unit → ApiAction α}
    (h : usernameRe name = true → (f ()).Only K) :
    ((lift (NtfyCli.checkUser name everyone)).bind f).Only K := by
  unfold NtfyCli.checkUser
  by_cases hname : usernameRe name = true
  · rw [hname, Bool.or_true, if_pos rfl]
    exact h hname
  · split_ifs with hc
    · -- the name of the anonymous user is a user name as well
      rw [Bool.or_eq_true, Bool.and_eq_true, decide_eq_true_eq] at hc
      rcases hc with ⟨-, rfl⟩ | hc
      · exact absurd (by decide) hname
      · exact absurd hc hname
    · trivial

theorem checkTopic_only {f : Unit → ApiAction α} (h : topicPatternRe topic = true → (f ()).Only K) :
    ((lift (NtfyCli.checkTopic topic)).bind f).Only K := by
  unfold NtfyCli.checkTopic
  split_ifs with hc
  · trivial
  · rw [not_or] at hc
    exact h (by simpa using hc.2)

/-- An operation that carries one name. -/
theorem carries_name {o : ApiOp} (h : usernameRe name = true)
    (hvalues : o.argv.filterMap Arg.value? = [name])
    (hargs : ∀ a ∈ o.argv, a = .value .userName "" name ∨ ∃ t, a = .word t) : Carries [name] o := by
  refine fun _ => ⟨hvalues, fun a ha => ?_⟩
  rcases hargs a ha with rfl | ⟨t, rfl⟩
  · exact accepted_userName h
  · trivial

theorem withPassword_only {password : String} {o : Op}
    (h : usernameRe name = true → K (.account o)) :
    (lift (do NtfyCli.checkUser name false; NtfyCli.checkPassword password; act o)).Only K := by
  show (lift (Script.bind _ fun _ => Script.bind _ fun _ => _)).Only K
  rw [lift_bind]
  refine checkUser_only fun hname => ?_
  rw [lift_bind]
  refine Script.Only.bind (reads_only ?_) fun _ => act_only (h hname)
  unfold NtfyCli.checkPassword
  split_ifs <;> trivial

theorem userAdd_carries (password : String) (role : Role) :
    (lift (NtfyCli.userAdd name password role)).Only (Carries [name]) :=
  withPassword_only fun h => carries_name h rfl (by simp [ApiOp.argv])

theorem userChangePass_carries (password : String) :
    (lift (NtfyCli.userChangePass name password)).Only (Carries [name]) :=
  withPassword_only fun h => carries_name h rfl (by simp [ApiOp.argv])

theorem userDelete_carries : (lift (NtfyCli.userDelete name)).Only (Carries [name]) := by
  show (lift (Script.bind _ fun _ => _)).Only _
  rw [lift_bind]
  exact checkUser_only fun h => act_only (carries_name h rfl (by simp [ApiOp.argv]))

theorem userChangeRole_carries (role : Role) :
    (lift (NtfyCli.userChangeRole name role)).Only (Carries [name]) := by
  show (lift (Script.bind _ fun _ => _)).Only _
  rw [lift_bind]
  exact checkUser_only fun h => act_only (carries_name h rfl (by simp [ApiOp.argv]))

theorem accessSet_carries (permission : Permission) :
    (lift (NtfyCli.accessSet user topic permission)).Only (Carries [user, topic]) := by
  show (lift (Script.bind _ fun _ => Script.bind _ fun _ => _)).Only _
  rw [lift_bind]
  refine checkUser_only fun hu => ?_
  rw [lift_bind]
  refine checkTopic_only fun ht => act_only fun _ => ⟨rfl, ?_⟩
  simp only [ApiOp.argv, List.forall_mem_cons]
  exact ⟨trivial, accepted_userName hu, accepted_topic ht, trivial, nofun⟩

theorem accessReset_carries (user topic : String) :
    (accessReset user topic).Only (Carries [user, topic]) := by
  refine checkUser_only fun hu => checkTopic_only fun ht => apiAct_only fun _ => ⟨rfl, ?_⟩
  simp only [ApiOp.argv, List.forall_mem_cons]
  exact ⟨trivial, trivial, accepted_userName hu, accepted_topic ht, nofun⟩

theorem accessResetCall_carries (user topic : Option String) :
    (accessResetCall user topic).Only (Carries (user.toList ++ topic.toList)) := by
  match user, topic with
  | none, some t => trivial
  | some u, some t => exact accessReset_carries u t
  | none, none => exact act_only fun _ => ⟨rfl, by simp [ApiOp.argv, Arg.Accepted]⟩
  | some u, none =>
    show (lift (Script.bind _ fun _ => _)).Only _
    rw [lift_bind]
    exact checkUser_only fun h => act_only (carries_name h rfl (by simp [ApiOp.argv]))

theorem tokenAdd_carries (user : String) (label expires : Option String) :
    (tokenAdd user (nonEmpty label) (nonEmpty expires)).Only
      (Carries ((nonEmpty label).toList ++ (nonEmpty expires).toList ++ [user])) := by
  refine checkUser_only fun hu => ?_
  split_ifs with hl hx
  · trivial
  · trivial
  · have hlabel : (if (nonEmpty label).getD "" = "" then [] else
        [Arg.value .label "--label=" ((nonEmpty label).getD "")]) =
          (nonEmpty label).toList.map (.value .label "--label=") := by
      cases hn : nonEmpty label with
      | none => rfl
      | some l =>
        have hne := (Option.filter_eq_some_iff.mp hn).2
        rw [Option.getD_some, if_neg (by simpa using hne)]
        rfl
    refine apiAct_only fun _ => ?_
    simp only [ApiOp.argv, hlabel]
    refine ⟨?_, fun a ha => ?_⟩
    · cases nonEmpty label <;> cases nonEmpty expires <;> rfl
    · simp only [List.mem_append, List.mem_map, Option.mem_toList, List.mem_cons,
        List.not_mem_nil, or_false] at ha
      rcases ha with (((rfl | rfl) | ⟨l, hmem, rfl⟩) | ⟨x, hmem, rfl⟩) | rfl
      · trivial
      · trivial
      · rw [hmem] at hl
        exact accepted_label (by simpa using hl)
      · rw [hmem] at hx
        exact accepted_duration (by simpa using hx)
      · exact accepted_userName hu

theorem tokenRemove_carries (user token : String) :
    (tokenRemove user token).Only (Carries [user, token]) := by
  refine checkUser_only fun hu => ?_
  split_ifs with ht
  · refine apiAct_only fun _ => ⟨rfl, ?_⟩
    simp only [ApiOp.argv, List.forall_mem_cons]
    exact ⟨trivial, trivial, accepted_userName hu, accepted_token ht, nofun⟩
  · trivial

/-- An operation that is no call of the command line. -/
theorem carries_own {o : ApiOp} (h : o.isCli = false) : Carries values o := fun ho => by
  rw [h] at ho
  cases ho

/-! ## Services -/

theorem createUser_carries (options : Options) (name password role : String) :
    (lift (createUser options name password role)).Only (Carries [name]) := by
  have hname : (lift (checkNewName name)).Only (Carries [name]) := by
    unfold checkNewName
    split_ifs <;> trivial
  show (lift (Script.bind _ fun _ => Script.bind _ fun _ => Script.bind _ fun r =>
    Script.bind _ fun _ => Script.bind _ fun _ => _)).Only _
  rw [lift_bind]
  refine Script.Only.bind (reads_only ensureSupported_only) fun _ => ?_
  rw [lift_bind]
  refine Script.Only.bind hname fun _ => ?_
  rw [lift_bind]
  refine Script.Only.bind (reads_only (checkRole_only role)) fun r => ?_
  rw [lift_bind]
  refine Script.Only.bind (reads_only (checkPassword_only password)) fun _ w => ?_
  show Script.Only _ (Script.embed _ _ (if _ then _ else Script.bind _ fun _ => Script.bind _ _))
  split_ifs
  · trivial
  · show (lift (Script.bind _ _)).Only _
    rw [lift_bind]
    refine Script.Only.bind (userAdd_carries password r) fun _ => ?_
    rw [lift_bind]
    exact Script.Only.bind (act_only (carries_own rfl)) fun _ => reads_only (getUser_only _ _)

theorem setRule_carries (user topic permission : String) :
    (lift (setRule user topic permission)).Only (Carries [user, topic]) := by
  show (lift (Script.bind _ fun _ => _)).Only _
  rw [lift_bind]
  refine Script.Only.bind (reads_only ensureSupported_only) fun _ => ?_
  cases permission? permission with
  | none => trivial
  | some p =>
    show (lift (Script.bind _ fun _ => Script.bind _ fun _ => Script.bind _ fun _ =>
      Script.bind _ fun _ => _)).Only _
    rw [lift_bind]
    refine Script.Only.bind (reads_only (checkApiTopic_only topic)) fun _ => ?_
    rw [lift_bind]
    refine Script.Only.bind (reads_only (requireRuleUser_only user)) fun _ => ?_
    rw [lift_bind]
    refine Script.Only.bind (fun _ => trivial) fun origin => ?_
    rw [lift_bind]
    refine Script.Only.bind (accessSet_carries p) fun _ => ?_
    refine fun w => ?_
    show (lift ((Script.done (w.world.rule? user topic)).bind _)).Only _
    simp only [Script.bind]
    cases w.world.rule? user topic with
    | none => trivial
    | some stored =>
      show (lift (Script.bind _ _)).Only _
      rw [lift_bind]
      exact Script.Only.bind (act_only (carries_own rfl)) fun _ _ => trivial

theorem removeRule_carries (user topic : String) :
    (removeRule user topic).Only (Carries [user, topic]) := by
  refine Script.Only.bind (reads_only ensureSupported_only) fun _ => ?_
  refine Script.Only.bind (reads_only (checkApiTopic_only topic)) fun _ w => ?_
  show Script.Only _ (if _ then _ else _)
  split_ifs
  · exact Script.Only.bind (accessReset_carries user topic) fun _ => act_only (carries_own rfl)
  · trivial

theorem orBadRequest_only {K : ApiOp → Prop} {s : ApiAction α} (h : s.Only K) :
    (orBadRequest s).Only K := by
  refine Script.Only.handle h fun e => ?_
  cases e <;> trivial

theorem createToken_carries (d : Ntfyd) (user : String) (label expires : Option String) :
    (createToken d user label expires).Only
      (Carries ((nonEmpty label).toList ++ (nonEmpty expires).toList ++ [user])) := by
  refine Script.Only.bind (reads_only ensureSupported_only) fun _ => ?_
  refine Script.Only.bind (reads_only (requireTokenUser_only user)) fun _ => ?_
  show Script.Only _ (if _ then _ else _)
  split_ifs
  · trivial
  · trivial
  · refine Script.Only.bind (orBadRequest_only (tokenAdd_carries user label expires)) fun _ => ?_
    refine Script.Only.bind (apiAct_only (carries_own rfl)) fun _ w => ?_
    simp only [Script.bind]
    split
    · trivial
    · refine Script.Only.bind (fun _ => trivial) fun origins => Script.Only.bind ?_ fun _ => trivial
      exact (tokenMeta_reads _ _).mono fun _ hfalse => hfalse.elim

end Calls

/-- **What reaches the command line.** Every call of the command line carries the values of the
caller, and its arguments are guarded exactly if no such value ends with a newline. -/
theorem argv_exact (d : Ntfyd) (options : Options) (c : CliCall) :
    (c.script d options).Only (Exact c) := by
  refine Script.Only.mono (K := Carries c.values) ?_ fun _ => Carries.exact
  cases c with
  | userAdd name password role => exact userAdd_carries password role
  | userChangePass name password => exact userChangePass_carries password
  | userDelete name => exact userDelete_carries
  | userChangeRole name role => exact userChangeRole_carries role
  | accessSet user topic permission => exact accessSet_carries permission
  | accessReset user topic => exact accessResetCall_carries user topic
  | tokenAdd user label expires => exact tokenAdd_carries user label expires
  | tokenRemove user token => exact tokenRemove_carries user token
  | createUser name password role =>
    exact Script.Only.bind (createUser_carries options name password role) fun _ => trivial
  | setRule user topic permission =>
    exact Script.Only.bind (setRule_carries user topic permission) fun _ => trivial
  | removeRule user topic => exact removeRule_carries user topic
  | createToken user label expires =>
    exact Script.Only.bind (createToken_carries d user label expires) fun _ => trivial

/-- A world with an empty database. -/
def emptyApi : ApiWorld := ⟨some ⟨[], .empty, []⟩, .empty⟩

/-- **The guard has a gap.** A user is created whose name ends with a newline. -/
theorem guard_lets_newline :
    ¬ ∀ (d : Ntfyd) (options : Options) (c : CliCall),
      (c.script d options).Only fun o => ∀ a ∈ o.argv, a.Guarded := by
  intro h
  have hall := h ⟨id, "tk_", 0, 0⟩ {} (.createUser "bob\n" "secret" "user")
  have hcall := (hall emptyApi emptyApi).1 (.value .userName "" "bob\n") (by simp [ApiOp.argv])
  exact absurd (hcall.1 '\n' (by decide)) (by decide)

end HaAddons.Ntfy
