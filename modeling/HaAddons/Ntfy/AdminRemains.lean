import HaAddons.Lib.Service
import HaAddons.Ntfy.RoleChange

/-!
# An admin always remains

Users are deleted and demoted only where they are not protected, which is decided on the users at hand
in each call: the admin of the options is protected, and so is the last admin.

* `admin_remains` — in every state of every sequence of calls that create and delete users and change
  passwords and roles, whatever fails and whichever answers are lost, there is an admin, and the admin
  of the options is still there and an admin if it was one at first.

A call takes an admin away only when there is another one (`exists_other_admin`), and all that it does
besides is `Harmless`.
-/

namespace HaAddons.Ntfy

/-! ## Runs -/

/-- The calls of the API about users. -/
inductive AccountCall where
  | create (name password role : String)
  | delete (name confirm : String)
  | changeRole (name role : String)
  | changePassword (name password : String)

def AccountCall.script (options : Options) : AccountCall → Action Unit
  | .create name password role => do
    let _ ← createUser options name password role
  | .delete name confirm => deleteUser options name confirm
  | .changeRole name role => do
    let _ ← Ntfy.changeRole options name role
  | .changePassword name password => Ntfy.changePassword name password

/-- Calls one after the other, from `w`. Every operation may fail, before its effect or after it. -/
def accountService (options : Options) (w : World) :
    System (World × Option (Script (Option Op) Failure World Failure Unit))
      (ServiceLabel AccountCall Failure) :=
  service apply (AccountCall.script options) fun w' => w' = w

/-- The user is there, and an admin. -/
def World.HasAdmin (w : World) (name : String) : Prop :=
  ∃ a ∈ w.accounts, a.name = name ∧ a.role = .admin

/-! ## What is kept -/

/-- Names are unique, there is an admin, and the admin of the options is one if it is to be. -/
structure Staffed (options : Options) (own : Prop) (w : World) : Prop where
  nodup : (w.accounts.map fun a => a.name).Nodup
  admin : ∃ name, w.HasAdmin name
  own : own → w.HasAdmin options.adminUser

/-- The operation takes no admin away and adds no user. -/
def Op.Harmless : Op → Prop
  | .userAdd .. | .userDelete _ => False
  | .changeRole _ role => role = .admin
  | _ => True

section Staffed

variable {options : Options} {own : Prop} {w w' : World} {a b : Account} {name : String}

theorem eq_of_name (h : Staffed options own w) (ha : a ∈ w.accounts) (hb : b ∈ w.accounts)
    (hname : a.name = b.name) : a = b :=
  List.inj_on_of_nodup_map h.nodup ha hb hname

/-- The names stay, and so do the admins. -/
theorem Staffed.of_admins (h : Staffed options own w)
    (hnodup : (w'.accounts.map fun a => a.name).Nodup)
    (hadmins : ∀ n, w.HasAdmin n → w'.HasAdmin n) : Staffed options own w' := by
  obtain ⟨n, hn⟩ := h.admin
  exact ⟨hnodup, ⟨n, hadmins n hn⟩, fun ho => hadmins _ (h.own ho)⟩

theorem map_name_updateAccount {f : Account → Account} (hf : ∀ b : Account, (f b).name = b.name)
    (accounts : List Account) :
    (updateAccount name f accounts).map (fun a => a.name) = accounts.map fun a => a.name := by
  rw [updateAccount, List.map_map]
  refine List.map_congr_left fun b _ => ?_
  show (if b.name = name then f b else b).name = b.name
  split_ifs
  · exact hf b
  · rfl

/-- An update that makes nobody less than an admin. -/
theorem Staffed.update {f : Account → Account} (h : Staffed options own w)
    (hf : ∀ b : Account, (f b).name = b.name) (hrole : ∀ b : Account, b.role = .admin →
      (f b).role = .admin) (hw : w'.accounts = updateAccount name f w.accounts) :
    Staffed options own w' := by
  refine h.of_admins (by rw [hw, map_name_updateAccount hf]; exact h.nodup) fun n hn => ?_
  obtain ⟨a, ha, hname, hadmin⟩ := hn
  refine ⟨if a.name = name then f a else a, ?_, ?_, ?_⟩
  · rw [hw]
    exact List.mem_map_of_mem ha
  · split_ifs
    · rw [hf, hname]
    · exact hname
  · split_ifs
    · exact hrole a hadmin
    · exact hadmin

theorem Staffed.harmless {o : Op} (ho : o.Harmless) (h : Staffed options own w)
    (ha : apply o w = .ok w') : Staffed options own w' := by
  obtain rfl := Except.ok.inj ha
  cases o with
  | userAdd n p r | userDelete n => exact ho.elim
  | changePass n p =>
    refine Staffed.update (f := fun a => { a with password := p }) h (fun _ => rfl) ?_ rfl
    exact fun _ hb => hb
  | changeRole n r =>
    obtain rfl : r = .admin := ho
    refine Staffed.update (f := fun a => { a with role := .admin }) h (fun _ => rfl) ?_ rfl
    exact fun _ _ => rfl
  | accessSet | resetRules | backup | setUser | dropUser | setAcl | dropAcl | stashAcl | popAclStash
  | clearAll =>
    exact ⟨h.nodup, h.admin, h.own⟩

/-- **The last admin is protected.** Beside an unprotected user there is another admin. -/
theorem exists_other_admin (h : Staffed options own w) (ha : a ∈ w.accounts)
    (hp : protection options w.accounts a = none) :
    (∃ n, n ≠ a.name ∧ w.HasAdmin n) ∧ options.adminUser ≠ a.name := by
  simp only [protection] at hp
  split_ifs at hp with hanon hoptions hlast
  refine ⟨?_, fun hname => hoptions hname.symm⟩
  by_contra hnone
  have hall : ∀ n, w.HasAdmin n → n = a.name := by
    intro n hn
    by_contra hne
    exact hnone ⟨n, hne, hn⟩
  obtain ⟨n, b, hb, hbn, hadmin⟩ := h.admin
  obtain rfl : b = a := eq_of_name h hb ha (hbn.trans (hall n ⟨b, hb, hbn, hadmin⟩))
  refine hlast ⟨hadmin, ?_⟩
  let admins := (w.accounts.filter (·.role = .admin)).map (·.name)
  have hnodup : admins.Nodup := h.nodup.sublist (List.filter_sublist.map _)
  have hmem : b.name ∈ admins :=
    List.mem_map_of_mem (List.mem_filter.mpr ⟨hb, by simpa using hadmin⟩)
  have hsame : ∀ x ∈ admins, x = b.name := by
    intro x hx
    obtain ⟨c, hc, rfl⟩ := List.mem_map.mp hx
    obtain ⟨hc, hrole⟩ := List.mem_filter.mp hc
    exact hall c.name ⟨c, hc, rfl, by simpa using hrole⟩
  show admins = [b.name]
  cases hadmins : admins with
  | nil => simp [hadmins] at hmem
  | cons x xs =>
    rw [hadmins] at hnodup hsame
    obtain rfl : x = b.name := hsame x (by simp)
    cases xs with
    | nil => rfl
    | cons y ys =>
      have hy : y = b.name := hsame y (by simp)
      simp [hy] at hnodup

/-- **Deleting an unprotected user.** -/
theorem Staffed.userDelete (h : Staffed options own w) (ha : a ∈ w.accounts)
    (hp : protection options w.accounts a = none) :
    Staffed options own (effect w (.userDelete a.name)) := by
  obtain ⟨⟨n, hne, hn⟩, hoptions⟩ := exists_other_admin h ha hp
  have hkeep : ∀ n, n ≠ a.name → w.HasAdmin n → (effect w (.userDelete a.name)).HasAdmin n := by
    rintro n hne ⟨b, hb, hbn, hadmin⟩
    exact ⟨b, List.mem_filter.mpr ⟨hb, by simpa [hbn] using hne⟩, hbn, hadmin⟩
  exact ⟨h.nodup.sublist (List.filter_sublist.map _), ⟨n, hkeep n hne hn⟩,
    fun ho => hkeep _ hoptions (h.own ho)⟩

/-- **Demoting an unprotected user.** -/
theorem Staffed.changeRole (h : Staffed options own w) (ha : a ∈ w.accounts)
    (hp : protection options w.accounts a = none) (role : Role) :
    Staffed options own (effect w (.changeRole a.name role)) := by
  obtain ⟨⟨n, hne, hn⟩, hoptions⟩ := exists_other_admin h ha hp
  have hkeep : ∀ n, n ≠ a.name → w.HasAdmin n →
      (effect w (.changeRole a.name role)).HasAdmin n := by
    rintro n hne ⟨b, hb, hbn, hadmin⟩
    refine ⟨b, ?_, hbn, hadmin⟩
    rw [World.accounts_changeRole]
    have hsame : (if b.name = a.name then { b with role := role } else b) = b := by
      rw [if_neg (by rw [hbn]; exact hne)]
    exact hsame ▸ List.mem_map_of_mem (f := fun c : Account =>
      if c.name = a.name then { c with role := role } else c) hb
  refine ⟨?_, ⟨n, hkeep n hne hn⟩, fun ho => hkeep _ hoptions (h.own ho)⟩
  rw [World.accounts_changeRole,
    map_name_updateAccount (f := fun a => { a with role := role }) fun _ => rfl]
  exact h.nodup

/-- **Adding a new user.** -/
theorem Staffed.userAdd (h : Staffed options own w)
    (hnew : name ∉ w.accounts.map fun a => a.name) (password : String) (role : Role) :
    Staffed options own (effect w (.userAdd name password role)) := by
  have haccounts : (effect w (.userAdd name password role)).accounts =
      w.accounts ++ [⟨⟨name, role, none, false⟩, password⟩] := rfl
  refine h.of_admins ?_ fun n hn => ?_
  · rw [haccounts, List.map_append, List.nodup_append]
    refine ⟨h.nodup, by simp, fun x hx y hy => ?_⟩
    obtain rfl : y = name := by simpa using hy
    rintro rfl
    exact hnew hx
  · obtain ⟨b, hb, hbn⟩ := hn
    exact ⟨b, by rw [haccounts]; exact List.mem_append_left _ hb, hbn⟩

end Staffed

/-! ## The parts of a call that are harmless -/

section Harmless

variable {K : Op → Prop}

theorem act_harmless {o : Op} (ho : o.Harmless) : (act o).Only Op.Harmless := Script.Only.act ho

theorem checked_harmless {name : String} {everyone : Bool} {s : Action Unit}
    (hs : s.Only Op.Harmless) :
    ((NtfyCli.checkUser name everyone).bind fun _ => s).Only Op.Harmless := by
  unfold NtfyCli.checkUser
  split_ifs
  · exact hs
  · trivial

theorem ensureSupported_only : ensureSupported.Only K := by
  intro w
  show Script.Only _ (if _ then _ else _)
  split_ifs <;> trivial

theorem requireRealUser_only (name : String) : (requireRealUser name).Only K := by
  unfold requireRealUser
  split_ifs
  · trivial
  · intro w
    show Script.Only _ (if _ then _ else _)
    split_ifs <;> trivial

theorem getUser_eq (options : Options) (name : String) : getUser options name = Script.look fun w =>
    ((buildUsers options w).find? fun u => u.name = name).elim
      (fail (.api ⟨"not_found", "user not found"⟩)) .done := by
  refine congrArg Script.look (funext fun w => ?_)
  dsimp only [Script.bind]
  cases (buildUsers options w).find? fun u => u.name = name <;> rfl

theorem getUser_only (options : Options) (name : String) :
    (getUser options name).Only K := by
  rw [getUser_eq]
  intro w
  show Script.Only _ (Option.elim _ _ _)
  cases (buildUsers options w).find? fun u => u.name = name <;> trivial

theorem checkPassword_only (password : String) : (checkPassword password).Only K := by
  unfold checkPassword
  split_ifs <;> trivial

theorem changePassword_harmless (name password : String) :
    (changePassword name password).Only Op.Harmless := by
  refine ensureSupported_only.bind fun _ => (requireRealUser_only name).bind fun _ =>
    (checkPassword_only password).bind fun _ => checked_harmless ?_
  unfold NtfyCli.checkPassword
  show Script.Only _ (Script.bind (if _ then _ else _) _)
  split_ifs
  · trivial
  · exact act_harmless trivial

theorem dropRules_harmless (name : String) (rows : List (String × Permission)) :
    (dropRules name rows).Only Op.Harmless := by
  induction rows with
  | nil => trivial
  | cons row rest ih => exact Script.Only.bind (act_harmless trivial) fun _ => ih

theorem stashRules_harmless (name : String) (rows : List (String × Permission)) :
    (stashRules name rows).Only Op.Harmless := by
  intro w
  show Script.Only _ ((act (.stashAcl name _)).bind fun _ => dropRules name rows)
  exact (act_harmless (o := .stashAcl name _) trivial).bind fun _ => dropRules_harmless name rows

theorem promote_harmless (options : Options) (name : String) :
    (promote options name).Only Op.Harmless := by
  have hpromoted : (NtfyCli.userChangeRole name .admin).Only Op.Harmless :=
    checked_harmless (act_harmless rfl)
  have hend : ∀ n : ℕ, ((getUser options name).bind fun user =>
      (.done (user, n) : Action (User × ℕ))).Only Op.Harmless := fun n =>
    (getUser_only options name).bind fun _ => trivial
  intro w
  show Script.Only _ (if snapshotAcl w name = [] then _ else _)
  split_ifs
  · exact hpromoted.bind fun _ => hend _
  · exact Script.Only.bind (act_harmless trivial) fun _ => hpromoted.bind fun _ =>
      (stashRules_harmless name _).bind fun _ => hend _

theorem restoreRules_harmless (name : String) (rules : List StashedRule) :
    (restoreRules name rules).Only Op.Harmless := by
  induction rules with
  | nil => trivial
  | cons rule rest ih =>
    have hset : (NtfyCli.accessSet name rule.topic rule.permission).Only Op.Harmless := by
      refine checked_harmless ?_
      unfold NtfyCli.checkTopic
      show Script.Only _ (Script.bind (if _ then _ else _) _)
      split_ifs
      · trivial
      · exact act_harmless trivial
    have hback : ∀ e, (do act (.stashAcl name (rule :: rest)); fail e : Action Unit).Only
        Op.Harmless := fun e => Script.Only.bind (act_harmless trivial) fun _ => trivial
    exact Script.Only.bind (hset.handle hback) fun _ =>
      Script.Only.bind (act_harmless trivial) fun _ => ih

end Harmless

/-! ## Calls -/

section Calls

variable {options : Options} {own : Prop} {w : World} {α β : Type}

/-- The script keeps the invariant, whatever fails and whichever answers are lost. -/
def KeepsStaff (options : Options) (own : Prop) (s : Action α) (w : World) : Prop :=
  s.Survives apply (fun _ => Staffed options own) (fun _ => Staffed options own) w

theorem KeepsStaff.harmless {s : Action α} (hs : s.Only Op.Harmless) (h : Staffed options own w) :
    KeepsStaff options own s w :=
  hs.survives (fun _ _ _ ho ha h => h.harmless ho ha) h

/-- After a harmless part, the rest has to keep the invariant wherever it holds. -/
theorem KeepsStaff.after {s : Action α} {f : α → Action β} (hs : s.Only Op.Harmless)
    (h : Staffed options own w)
    (hf : ∀ a w, Staffed options own w → KeepsStaff options own (f a) w) :
    KeepsStaff options own (s.bind f) w :=
  Script.Survives.bind ((KeepsStaff.harmless hs h).mono (fun a w h => hf a w h) fun _ _ h => h)

/-- An operation that keeps the invariant here, before a harmless rest. -/
theorem act_survives {o : Op} {f : Unit → Action β} (h : Staffed options own w)
    (ho : Staffed options own (effect w o)) (hf : (f ()).Only Op.Harmless) :
    (act o).Survives apply (fun a w => KeepsStaff options own (f a) w)
      (fun _ => Staffed options own) w := by
  refine Script.Survives.act (fun w' hw => ?_) fun _ => h
  obtain rfl := Except.ok.inj hw
  exact ⟨KeepsStaff.harmless hf ho, fun _ => ho⟩

/-- A method of the adapter whose operation keeps the invariant here, before a harmless rest. -/
theorem KeepsStaff.method {name : String} {o : Op} {f : Unit → Action β}
    (h : Staffed options own w) (ho : Staffed options own (effect w o))
    (hf : (f ()).Only Op.Harmless) :
    KeepsStaff options own (((NtfyCli.checkUser name false).bind fun _ => act o).bind f) w := by
  refine Script.Survives.bind (Script.Survives.bind ?_)
  unfold NtfyCli.checkUser
  split_ifs
  · exact act_survives h ho hf
  · exact h

theorem KeepsStaff.getUser {name : String} {f : User → Action β} (h : Staffed options own w)
    (hf : ∀ a ∈ w.accounts, a.name = name →
      KeepsStaff options own (f (buildUser options w a)) w) :
    KeepsStaff options own ((getUser options name).bind f) w := by
  refine Script.Survives.bind ?_
  rw [getUser_eq]
  show Script.Survives _ _ _ (Option.elim _ _ _) w
  cases hfind : (buildUsers options w).find? fun u => u.name = name with
  | none => exact h
  | some user =>
    obtain ⟨a, ha, hname, rfl⟩ := exists_of_find?_buildUsers hfind
    exact hf a ha hname

/-- Only two roles can be asked for. -/
theorem KeepsStaff.checkRole {role : String} {f : Role → Action β} (h : Staffed options own w)
    (hf : ∀ r, r = .user ∨ r = .admin → KeepsStaff options own (f r) w) :
    KeepsStaff options own ((checkRole role).bind f) w := by
  unfold Ntfy.checkRole
  split_ifs
  · exact hf .user (.inl rfl)
  · exact hf .admin (.inr rfl)
  · exact h

theorem createUser_keeps (name password role : String) (h : Staffed options own w) :
    KeepsStaff options own (createUser options name password role) w := by
  refine .after ensureSupported_only h fun _ w h => ?_
  show KeepsStaff options own ((checkNewName name).bind fun _ => _) w
  unfold checkNewName
  split_ifs with hname
  · exact h
  have hstar : name ≠ "*" := fun hs => hname (.inr (.inl hs))
  refine .checkRole h fun r _ => ?_
  refine .after (checkPassword_only password) h fun _ w h => ?_
  show KeepsStaff options own (if hasUser w name then _ else _) w
  split_ifs with hhas
  · exact h
  · have hnew : name ∉ w.accounts.map fun a => a.name := by
      intro hmem
      obtain ⟨a, ha, hn⟩ := List.mem_map.mp hmem
      refine hhas (List.any_eq_true.mpr ⟨a, ha, ?_⟩)
      simpa [dbUserToApi, hstar] using hn
    have hdone : ((act (.setUser name .gui)).bind fun _ => Ntfy.getUser options name).Only
        Op.Harmless :=
      Script.Only.bind (act_harmless trivial) fun _ => getUser_only options name
    have hadded := h.userAdd hnew password r
    refine Script.Survives.bind (Script.Survives.bind ?_)
    unfold NtfyCli.checkUser
    split_ifs
    · refine Script.Survives.bind ?_
      unfold NtfyCli.checkPassword
      split_ifs
      · exact h
      · exact act_survives h hadded hdone
    · exact h

theorem deleteUser_keeps (name confirm : String) (h : Staffed options own w) :
    KeepsStaff options own (deleteUser options name confirm) w := by
  refine .after ensureSupported_only h fun _ w h => ?_
  refine .after (requireRealUser_only name) h fun _ w h => ?_
  refine .getUser h fun a ha hname => ?_
  subst hname
  split
  · exact h
  · rename_i hp
    split_ifs
    · exact h
    · have hrest : ((act (.dropUser a.name)).Only Op.Harmless) := act_harmless trivial
      refine Script.Survives.bind (Script.Survives.act (fun w' hw => ?_) fun _ => h)
      obtain rfl : w = w' := Except.ok.inj hw
      exact ⟨KeepsStaff.method h (h.userDelete ha hp) hrest, fun _ => h⟩

theorem demote_keeps {a : Account} (h : Staffed options own w) (ha : a ∈ w.accounts)
    (hp : protection options w.accounts a = none) :
    KeepsStaff options own (demote options a.name) w := by
  have hend : ((Ntfy.getUser options a.name).bind fun user =>
      (.done (user, 0) : Action (User × ℕ))).Only Op.Harmless :=
    (getUser_only options a.name).bind fun _ => trivial
  refine .method h (h.changeRole ha hp .user) fun w => ?_
  show Script.Only _ ((act (.popAclStash a.name)).bind fun _ =>
    (restoreRules a.name (w.origins.stash a.name)).bind fun _ => _)
  exact (act_harmless (o := .popAclStash a.name) trivial).bind fun _ =>
    (restoreRules_harmless a.name _).bind fun _ => hend

theorem changeRole_keeps (name role : String) (h : Staffed options own w) :
    KeepsStaff options own (Ntfy.changeRole options name role) w := by
  refine .after ensureSupported_only h fun _ w h => ?_
  refine .checkRole h fun r hr => ?_
  refine .after (requireRealUser_only name) h fun _ w h => ?_
  refine .getUser h fun a ha hname => ?_
  subst hname
  split_ifs
  · exact h
  · split
    · exact h
    · exact .harmless (promote_harmless options a.name) h
    · rename_i hadmin _ hprotected
      obtain rfl : _ = Role.user := hr.resolve_right hadmin
      exact demote_keeps h ha (Option.eq_none_iff_forall_ne_some.mpr fun reason =>
        hprotected reason rfl)

/-- **Step lemma.** Every call keeps the invariant, however it ends. -/
theorem AccountCall.script_keeps (c : AccountCall) (h : Staffed options own w) :
    KeepsStaff options own (c.script options) w := by
  cases c with
  | create name password role =>
    exact Script.Survives.bind ((createUser_keeps name password role h).mono (fun _ _ h => h)
      fun _ _ h => h)
  | delete name confirm => exact deleteUser_keeps name confirm h
  | changeRole name role =>
    exact Script.Survives.bind ((changeRole_keeps name role h).mono (fun _ _ h => h)
      fun _ _ h => h)
  | changePassword name password => exact .harmless (changePassword_harmless name password) h

end Calls

/-! ## All runs -/

/-- **An admin always remains.** ntfy's table has one row a name. -/
theorem admin_remains {options : Options} {w₀ : World}
    {s : World × Option (Script (Option Op) Failure World Failure Unit)}
    (hnodup : (w₀.accounts.map fun a => a.name).Nodup) (hadmin : ∃ name, w₀.HasAdmin name)
    (h : (accountService options w₀).Reachable s) :
    (∃ name, s.1.HasAdmin name) ∧
      (w₀.HasAdmin options.adminUser → s.1.HasAdmin options.adminUser) := by
  have : Nonempty Failure := ⟨.other ""⟩
  have hkept : Staffed options (w₀.HasAdmin options.adminUser) s.1 := by
    refine service_invariant (fun w hw => ?_) (fun c w hw => c.script_keeps hw) h
    obtain rfl := hw
    exact ⟨hnodup, hadmin, id⟩
  exact ⟨hkept.admin, hkept.own⟩

/-- A promotion whose answer is lost, and the deletion of the user. -/
theorem admin_remains_delete : ∃ s, (accountService {} sampleWorld).Reachable s ∧
    s.1.accounts.map (fun a => a.name) = ["admin"] ∧ (∃ name, s.1.HasAdmin name) ∧
      (sampleWorld.HasAdmin "admin" → s.1.HasAdmin "admin") := by
  have hnames : ((accountService {} sampleWorld).run (sampleWorld, none)
      (.call (.changeRole "alice" "admin") :: List.replicate 7 (.step none) ++
        [.step (some (.cli "timeout" "ntfy did not answer")), .ret,
          .call (.delete "alice" "alice")] ++ List.replicate 9 (.step none))).any
      (fun s => s.1.accounts.map (fun a => a.name) = ["admin"]) = true := by
    decide +kernel
  have hinit : (accountService {} sampleWorld).init (sampleWorld, none) := ⟨rfl, rfl⟩
  obtain ⟨s, hs, hname⟩ := System.exists_of_runOk hinit hnames
  have hadmin : ∃ name, sampleWorld.HasAdmin name :=
    ⟨"admin", _, List.mem_cons_self, rfl, rfl⟩
  exact ⟨s, hs.reachable, of_decide_eq_true hname,
    admin_remains (by decide) hadmin hs.reachable⟩

end HaAddons.Ntfy
