import SecLsmManager.Action.Action

/-!
# Authorisation of plugs

`check_plug_installable` asks the permission manager once for each plug and keeps the first
error. `action_install` makes no other call unless there is no error.
-/

namespace SecLsmManager

variable {σ : Type*}

/-- The permission that a plug requires, by the answer of the permission manager. -/
def requiredPermission (impid : CStr) (sts : Int) : CStr :=
  exportPermission impid (if sts ≠ 0 then scopePublic else scopePartner)

/-- The plug is granted by the answer `sts`: the query did not fail and the context holds, up to
case, the export permission of the scope that the answer tells. -/
def Granted (context : Context) (plug : Plug) (sts : Int) : Prop :=
  0 ≤ sts ∧ contextHasPermission context (requiredPermission plug.impid sts) = true

/-- The error of a plug that is not granted. -/
def denial (sts : Int) : Int := if sts < 0 then sts else -EPERM

/-- The name of the permission fits in its buffer. -/
theorem plugPermission_valid {impid : CStr} (h : ValidId impid) (sts : Int) :
    plugPermission impid sts = requiredPermission impid sts := by
  have hscope : (if sts ≠ 0 then scopePublic else scopePartner).length ≤ scopePartner.length := by
    split <;> decide
  have hid := h.le_max
  refine CStr.snprintf_of_lt ?_
  simp only [exportPermission, CStr.length_append]
  have h1 : (CStr.lit "urn:redpesk:permission:").length = 23 := by decide
  have h2 : (CStr.lit ":").length = 1 := by decide
  have h3 : (CStr.lit ":export:plug").length = 12 := by decide
  have h4 : permissionSize = SEC_LSM_MANAGER_MAX_SIZE_ID + 49 := by decide
  have h5 : scopePartner.length = 7 := by decide
  omega

theorem plugStatus_cases (context : Context) {plug : Plug} (h : ValidId plug.impid)
    (sts : Int) :
    (Granted context plug sts ∧ plugStatus context plug sts = 1) ∨
      (¬ Granted context plug sts ∧ plugStatus context plug sts = denial sts) := by
  unfold plugStatus Granted denial
  rw [plugPermission_valid h]
  by_cases hs : sts < 0
  · exact .inr ⟨fun hg => absurd hg.1 (Int.not_le.2 hs), by rw [if_pos hs, if_pos hs]⟩
  · rw [if_neg hs, if_neg hs]
    have hs : 0 ≤ sts := Int.not_lt.1 hs
    by_cases hp : contextHasPermission context (requiredPermission plug.impid sts) = true
    · exact .inl ⟨⟨hs, hp⟩, if_pos hp⟩
    · exact .inr ⟨fun hg => hp hg.2, if_neg hp⟩

theorem denial_neg (sts : Int) : denial sts < 0 := by
  unfold denial
  split
  · assumption
  · decide

/-- The error that `check_plug_installable` keeps, from the plugs with their answers. -/
def firstError (context : Context) : List (Plug × Int) → Int → Int
  | [], rc => rc
  | (plug, sts) :: l, rc =>
    let sts := plugStatus context plug sts
    firstError context l (if sts < 0 ∧ rc = 0 then sts else rc)

theorem firstError_of_ne (context : Context) {rc : Int} (h : rc ≠ 0) (l : List (Plug × Int)) :
    firstError context l rc = rc := by
  induction l with
  | nil => rfl
  | cons x l ih =>
    rw [firstError]
    simp only [h, and_false, if_false]
    exact ih

/-- The error that is kept is the one of the first plug that is not granted. -/
theorem firstError_spec {context : Context} : ∀ {l : List (Plug × Int)},
    (∀ x ∈ l, ValidId x.1.impid) →
      ((∀ x ∈ l, Granted context x.1 x.2) ∧ firstError context l 0 = 0) ∨
      ∃ pre plug sts post, l = pre ++ (plug, sts) :: post ∧
        (∀ x ∈ pre, Granted context x.1 x.2) ∧ ¬ Granted context plug sts ∧
        firstError context l 0 = denial sts
  | [], _ => .inl ⟨fun _ h => absurd h List.not_mem_nil, rfl⟩
  | (plug, sts) :: l, hv => by
    rw [firstError]
    rcases plugStatus_cases context (hv _ List.mem_cons_self) sts with
      ⟨hg, heq⟩ | ⟨hg, heq⟩
    · simp only [heq]
      rcases firstError_spec fun x hx => hv x (List.mem_cons_of_mem _ hx) with
        ⟨h1, h2⟩ | ⟨pre, plug', sts', post, rfl, h1, h2, h3⟩
      · exact .inl ⟨List.forall_mem_cons.2 ⟨hg, h1⟩, h2⟩
      · exact .inr ⟨(plug, sts) :: pre, plug', sts', post, rfl,
          List.forall_mem_cons.2 ⟨hg, h1⟩, h2, h3⟩
    · have hneg := denial_neg sts
      refine .inr ⟨[], plug, sts, l, rfl, fun _ h => absurd h List.not_mem_nil, hg, ?_⟩
      simp only [heq, hneg, and_self, if_true]
      exact firstError_of_ne context (Int.ne_of_lt hneg) l

/-- The queries for plugs, with their answers. -/
def plugQueries (mac : Mac σ) (plugs : List Plug) (answers : List Int) : List Call :=
  plugs.zipWith (fun plug sts => .checkPermission (mac.getLabel plug.impid) permPublicPlug sts)
    answers

/-- The loop of `check_plug_installable` makes one query for each plug. -/
theorem checkPlugLoop_recorded (permgr : PermMgr σ) (mac : Mac σ) (context : Context)
    (plugs : List Plug) (rc : Int) (s : σ × List Call) :
    ∃ answers s', answers.length = plugs.length ∧
      checkPlugLoop permgr.recorded mac.recorded context plugs rc s =
        (firstError context (plugs.zip answers) rc,
          (s', s.2 ++ plugQueries mac plugs answers)) := by
  induction plugs generalizing rc s with
  | nil => exact ⟨[], s.1, rfl, by simp [checkPlugLoop, firstError, plugQueries]⟩
  | cons plug plugs ih =>
    let r := permgr.checkPermission (mac.getLabel plug.impid) permPublicPlug s.1
    obtain ⟨answers, s', h1, h2⟩ := ih
      (if plugStatus context plug r.1 < 0 ∧ rc = 0 then plugStatus context plug r.1 else rc)
      (r.2, s.2 ++ [.checkPermission (mac.getLabel plug.impid) permPublicPlug r.1])
    refine ⟨r.1 :: answers, s', by rw [List.length_cons, h1, List.length_cons], ?_⟩
    refine h2.trans ?_
    simp [firstError, plugQueries]

/-- `action_install` past its checks only adds calls, and adds none when it stops there. -/
theorem actionInstall_calls (permgr : PermMgr σ) (mac : Mac σ) (context : Context) (s : σ)
    (hc : checkContext context = 0) {rc : Int} {s' : σ} {calls : List Call}
    (h : checkPlugInstallable permgr.recorded mac.recorded context (s, []) = (rc, (s', calls))) :
    (rc < 0 → actionInstall permgr.recorded mac.recorded context (s, []) = (rc, (s', calls))) ∧
      ∃ effects, (actionInstall permgr.recorded mac.recorded context (s, [])).2.2 =
        calls ++ effects := by
  have hc0 : ¬ (0 : Int) < 0 := by decide
  constructor
  · intro hrc
    simp only [actionInstall, hc, h, if_neg hc0, if_pos hrc]
  · simp only [actionInstall, hc, h, if_neg hc0]
    split
    · exact ⟨[], (List.append_nil _).symm⟩
    by_cases hid : context.id 0 = 0
    · simp only [hid, ne_eq, not_true_eq_false, if_false, false_and, Mac.recorded]
      split <;> exact ⟨_, rfl⟩
    · simp only [hid, ne_eq, not_false_eq_true, if_true, true_and, Mac.recorded,
        PermMgr.recorded]
      split
      · exact ⟨_, rfl⟩
      split
      · exact ⟨_, by rw [List.append_assoc, List.append_assoc]⟩
      · exact ⟨_, List.append_assoc _ _ _⟩

/-- **Authorisation of plugs.** With a context that is not in error and has an id if it needs one,
`action_install` makes the query of each plug of the list; it makes no other call, and returns the
error of the first plug that is not granted, unless all are. The name of the required permission
is never truncated. -/
theorem action_install_authorised (permgr : PermMgr σ) (mac : Mac σ) (s : σ) (mem : Nat → UInt8)
    (ops : List ContextOp) (he : ((contextCreate mem).run ops).errorFlag = false)
    (hid : ((contextCreate mem).run ops).needId = true → ((contextCreate mem).run ops).id 0 ≠ 0) :
    let context := (contextCreate mem).run ops
    let result := actionInstall permgr.recorded mac.recorded context (s, [])
    (∃ answers effects, answers.length = context.plugset.length ∧
      result.2.2 = plugQueries mac context.plugset answers ++ effects ∧
      ((∀ x ∈ context.plugset.zip answers, Granted context x.1 x.2) ∨
        effects = [] ∧ ∃ pre plug sts post,
          context.plugset.zip answers = pre ++ (plug, sts) :: post ∧
          (∀ x ∈ pre, Granted context x.1 x.2) ∧ ¬ Granted context plug sts ∧
          result.1 = denial sts)) ∧
    ∀ impid, ValidId impid → ∀ sts, plugPermission impid sts = requiredPermission impid sts := by
  intro context result
  refine ⟨?_, fun impid h sts => plugPermission_valid h sts⟩
  have hinv : context.Inv := (Context.Inv.of_empty _ _).run ops
  have hc : checkContext context = 0 := checkContext_zero he hid
  obtain ⟨answers, s', hlen, hloop⟩ :=
    checkPlugLoop_recorded permgr mac context context.plugset 0 (s, [])
  rw [List.nil_append] at hloop
  obtain ⟨hstop, effects, heff⟩ := actionInstall_calls permgr mac context s hc hloop
  have hv : ∀ x ∈ context.plugset.zip answers, ValidId x.1.impid := fun x hx =>
    (hinv.plugs_valid x.1 (List.of_mem_zip hx).1).2.2
  rcases firstError_spec hv with ⟨h, -⟩ | ⟨pre, plug, sts, post, h1, h2, h3, h4⟩
  · exact ⟨answers, effects, hlen, heff, .inl h⟩
  · have hr := hstop (h4 ▸ denial_neg sts)
    refine ⟨answers, [], hlen, ?_, .inr ⟨rfl, pre, plug, sts, post, h1, h2, h3, ?_⟩⟩
    · rw [List.append_nil]
      exact congrArg (·.2.2) hr
    · exact (congrArg Prod.fst hr).trans h4

/-- Answers for a system of directories where no allocation fails. -/
def Answers.directories : Answers := ⟨fun _ _ => .mode false true false, fun _ => true⟩

/-- Operations that set a plug for `imp` and the permission of its partners. -/
def plugOps : List ContextOp :=
  [.setId (.lit "app"),
    .addPermission .directories (.lit "URN:redpesk:permission:imp:partner:export:plug"),
    .addPlug .directories (.lit "/exp") (.lit "imp") (.lit "/imp")]

/-- A plug that is granted by the answer 0, and the calls that follow its query. -/
theorem action_install_authorised_partner :
    ∃ answers effects, answers.length = ((contextCreate fun _ => 0).run plugOps).plugset.length ∧
      (actionInstall PermMgr.idle.recorded Mac.idle.recorded
          ((contextCreate fun _ => 0).run plugOps) ((), [])).2.2 =
        plugQueries Mac.idle ((contextCreate fun _ => 0).run plugOps).plugset answers ++ effects ∧
      ((∀ x ∈ ((contextCreate fun _ => 0).run plugOps).plugset.zip answers,
        Granted ((contextCreate fun _ => 0).run plugOps) x.1 x.2) ∨ effects = []) := by
  obtain ⟨answers, effects, h1, h2, h3⟩ := (action_install_authorised .idle .idle ()
    (fun _ => 0) plugOps (by decide +kernel) (fun _ => by decide +kernel)).1
  exact ⟨answers, effects, h1, h2, h3.imp_right And.left⟩

end SecLsmManager
