import SecLsmManager.Context.Invariant

/-!
# Installation and removal

The functions of `action/action.c`, over an interface to the permission manager (`perm_mgr_itf_t`)
and one to the security module (`mac-interface.h`), both acting on a state `σ` of the system. For
statements about the calls that are made, `recorded` gives interfaces that also record each call
with its answer.
-/

namespace SecLsmManager

variable {σ : Type*}

/-- `perm_mgr_itf_t`. -/
structure PermMgr (σ : Type*) where
  addPermissions : (label : CStr) → (permissionSet : List CStr) → (dropBefore : Bool) →
    σ → Int × σ
  dropPermissions : (label : CStr) → σ → Int × σ
  checkPermission : (label : CStr) → (permission : CStr) → σ → Int × σ

/-- The functions of `mac-interface.h`. -/
structure Mac (σ : Type*) where
  install : Context → σ → Int × σ
  uninstall : Context → σ → Int × σ
  getLabel : (appid : CStr) → CStr

def permPublicPlug : CStr := .lit "urn:redpesk:permission::public:plugs"
def permExportTemplate : CStr := .lit "urn:redpesk:permission:%s:%s:export:plug"
def scopePublic : CStr := .lit "public"
def scopePartner : CStr := .lit "partner"

/-- The template of exported permissions with its two strings set. -/
def exportPermission (impid scope : CStr) : CStr :=
  .lit "urn:redpesk:permission:" ++ impid ++ .lit ":" ++ scope ++ .lit ":export:plug"

/-- The size of the buffer `permission` of `check_plug_installable`. -/
def permissionSize : Nat :=
  SEC_LSM_MANAGER_MAX_SIZE_ID + (permExportTemplate.length + 1) + (scopePartner.length + 1)

/-- The permission that `check_plug_installable` builds from the answer `sts`. -/
def plugPermission (impid : CStr) (sts : Int) : CStr :=
  let scope := if sts ≠ 0 then scopePublic else scopePartner
  .snprintf permissionSize (exportPermission impid scope)

/-- The status of a plug, from the answer `sts` of the permission manager. -/
def plugStatus (context : Context) (plug : Plug) (sts : Int) : Int :=
  if sts < 0 then sts
  else if contextHasPermission context (plugPermission plug.impid sts) then 1 else -EPERM

/-- The loop of `check_plug_installable`, with its `rc`. -/
def checkPlugLoop (permgr : PermMgr σ) (mac : Mac σ) (context : Context) :
    List Plug → Int → σ → Int × σ
  | [], rc, s => (rc, s)
  | plug :: plugs, rc, s =>
    let label := mac.getLabel plug.impid
    let (sts, s) := permgr.checkPermission label permPublicPlug s
    let sts := plugStatus context plug sts
    checkPlugLoop permgr mac context plugs (if sts < 0 ∧ rc = 0 then sts else rc) s

def checkPlugInstallable (permgr : PermMgr σ) (mac : Mac σ) (context : Context) (s : σ) :
    Int × σ :=
  checkPlugLoop permgr mac context context.plugset 0 s

/-- `check_context`: the label is computed by the callers here. -/
def checkContext (context : Context) : Int :=
  if context.errorFlag then -ENOTRECOVERABLE
  else
    let hasId := context.id 0 ≠ 0
    if ¬ hasId ∧ context.needId then -EINVAL else 0

def actionInstall (permgr : PermMgr σ) (mac : Mac σ) (context : Context) (s : σ) : Int × σ :=
  let hasId := context.id 0 ≠ 0
  let label := mac.getLabel context.idString
  let rc := checkContext context
  if rc < 0 then (rc, s)
  else
    let (rc, s) := checkPlugInstallable permgr mac context s
    if rc < 0 then (rc, s)
    else
      let (rc, s) :=
        if hasId then permgr.addPermissions label context.permissionSet true s else (rc, s)
      if hasId ∧ rc < 0 then (rc, s)
      else
        let (rc, s) := mac.install context s
        if rc < 0 then
          if hasId then (rc, (permgr.dropPermissions label s).2) else (rc, s)
        else (0, s)

def actionUninstall (permgr : PermMgr σ) (mac : Mac σ) (context : Context) (s : σ) : Int × σ :=
  let hasId := context.id 0 ≠ 0
  let label := mac.getLabel context.idString
  let rc := checkContext context
  if rc < 0 then (rc, s)
  else
    let (rc, s) := if hasId then permgr.dropPermissions label s else (rc, s)
    if hasId ∧ rc < 0 then (rc, s)
    else
      let (rc, s) := mac.uninstall context s
      if rc < 0 then (rc, s) else (0, s)

/-! ## Recorded calls -/

/-- A call to the permission manager or to the security module, with its answer. -/
inductive Call
  | addPermissions (label : CStr) (permissionSet : List CStr) (dropBefore : Bool) (rc : Int)
  | dropPermissions (label : CStr) (rc : Int)
  | checkPermission (label permission : CStr) (rc : Int)
  | macInstall (rc : Int)
  | macUninstall (rc : Int)
  deriving DecidableEq

/-- The permission manager with its calls recorded. -/
def PermMgr.recorded (permgr : PermMgr σ) : PermMgr (σ × List Call) where
  addPermissions label permissionSet dropBefore s :=
    let r := permgr.addPermissions label permissionSet dropBefore s.1
    (r.1, r.2, s.2 ++ [.addPermissions label permissionSet dropBefore r.1])
  dropPermissions label s :=
    let r := permgr.dropPermissions label s.1
    (r.1, r.2, s.2 ++ [.dropPermissions label r.1])
  checkPermission label permission s :=
    let r := permgr.checkPermission label permission s.1
    (r.1, r.2, s.2 ++ [.checkPermission label permission r.1])

/-- The security module with its calls recorded. -/
def Mac.recorded (mac : Mac σ) : Mac (σ × List Call) where
  install context s :=
    let r := mac.install context s.1
    (r.1, r.2, s.2 ++ [.macInstall r.1])
  uninstall context s :=
    let r := mac.uninstall context s.1
    (r.1, r.2, s.2 ++ [.macUninstall r.1])
  getLabel := mac.getLabel

/-! ## The guards -/

/-- A request is refused for a context in error, and for one that needs an id and has none. -/
theorem checkContext_neg {context : Context} :
    checkContext context < 0 ↔
      context.errorFlag = true ∨ context.id 0 = 0 ∧ context.needId = true := by
  have h1 : -ENOTRECOVERABLE < 0 := by decide
  have h2 : -EINVAL < 0 := by decide
  have h3 : ¬ (0 : Int) < 0 := by decide
  unfold checkContext
  by_cases he : context.errorFlag = true
  · rw [if_pos he]
    exact iff_of_true h1 (.inl he)
  · rw [if_neg he]
    by_cases hn : context.id 0 = 0 ∧ context.needId = true
    · rw [if_pos ⟨Classical.not_not.2 hn.1, hn.2⟩]
      exact iff_of_true h2 (.inr hn)
    · rw [if_neg fun hc => hn ⟨Classical.not_not.1 hc.1, hc.2⟩]
      exact iff_of_false h3 (by simp only [he, hn, Bool.false_eq_true, or_self, not_false_eq_true])

/-- Any other context is accepted. -/
theorem checkContext_zero {context : Context} (he : context.errorFlag = false)
    (hid : context.needId = true → context.id 0 ≠ 0) : checkContext context = 0 := by
  have hn : ¬ (¬ context.id 0 ≠ 0 ∧ context.needId = true) := fun h => h.1 (hid h.2)
  rw [checkContext, if_neg (by simp [he])]
  exact if_neg hn

/-- An installation that is refused calls nothing. -/
theorem actionInstall_of_checkContext (permgr : PermMgr σ) (mac : Mac σ) {context : Context}
    (h : checkContext context < 0) (s : σ) :
    actionInstall permgr mac context s = (checkContext context, s) := by
  simp only [actionInstall, if_pos h]

/-- Nor does a removal. -/
theorem actionUninstall_of_checkContext (permgr : PermMgr σ) (mac : Mac σ) {context : Context}
    (h : checkContext context < 0) (s : σ) :
    actionUninstall permgr mac context s = (checkContext context, s) := by
  simp only [actionUninstall, if_pos h]

/-- What an installation that succeeds has called. -/
theorem actionInstall_done {permgr : PermMgr σ} {mac : Mac σ} {context : Context} {s : σ}
    (hstate : (checkPlugInstallable permgr mac context s).2 = s)
    (h : (actionInstall permgr mac context s).1 = 0) :
    checkContext context = 0 ∧ ∃ s₁,
      (context.id 0 ≠ 0 → (permgr.addPermissions (mac.getLabel context.idString)
          context.permissionSet true s).1 ≥ 0 ∧
        (permgr.addPermissions (mac.getLabel context.idString) context.permissionSet true s).2 =
          s₁) ∧
      (¬ context.id 0 ≠ 0 → s₁ = s) ∧ (mac.install context s₁).1 ≥ 0 ∧
      (actionInstall permgr mac context s).2 = (mac.install context s₁).2 := by
  obtain ⟨rc, hrc⟩ : ∃ rc, checkPlugInstallable permgr mac context s = (rc, s) :=
    ⟨_, Prod.ext rfl hstate⟩
  simp only [actionInstall, hrc] at h ⊢
  split at h
  · rename_i hneg
    exact absurd h (Int.ne_of_lt hneg)
  rename_i hcheck
  rw [if_neg hcheck]
  split at h
  · rename_i hneg
    exact absurd h (Int.ne_of_lt hneg)
  rename_i hplugs
  rw [if_neg hplugs]
  have hzero : checkContext context = 0 := by
    rw [checkContext_neg, not_or, not_and, Bool.not_eq_true] at hcheck
    exact checkContext_zero hcheck.1 fun hn h0 => hcheck.2 h0 hn
  refine ⟨hzero, ?_⟩
  by_cases hid : context.id 0 ≠ 0
  · simp only [if_pos hid] at h ⊢
    split at h
    · rename_i hneg
      exact absurd h (Int.ne_of_lt hneg.2)
    rename_i hfails
    have hadd : ¬ (permgr.addPermissions (mac.getLabel context.idString) context.permissionSet true
        s).1 < 0 := fun hneg => hfails ⟨hid, hneg⟩
    rw [if_neg hfails]
    split at h
    · rename_i hneg
      exact absurd h (Int.ne_of_lt hneg)
    rename_i hmac
    rw [if_neg hmac]
    exact ⟨_, fun _ => ⟨Int.not_lt.1 hadd, rfl⟩, fun h => absurd hid h, Int.not_lt.1 hmac, rfl⟩
  · simp only [hid, false_and, if_false] at h ⊢
    split at h
    · rename_i hneg
      exact absurd h (Int.ne_of_lt hneg)
    rename_i hmac
    rw [if_neg hmac]
    exact ⟨s, fun h => absurd h id, fun _ => rfl, Int.not_lt.1 hmac, rfl⟩

/-- A context with nothing but default paths. -/
def Context.OnlyDefaults (context : Context) : Prop :=
  context.permissionSet = [] ∧ context.plugset = [] ∧
    ∀ p ∈ context.pathSet, p.pathType = .typeDefault

/-- A context that needs no id has default paths only. -/
theorem Context.Inv.onlyDefaults {context : Context} (h : context.Inv)
    (hn : context.needId = false) : context.OnlyDefaults := by
  have hno : ¬ context.needId = true := by simp [hn]
  rw [h.needId, not_or, not_or, not_exists] at hno
  refine ⟨Classical.not_not.1 hno.1, Classical.not_not.1 hno.2.1, fun p hp => ?_⟩
  by_contra hne
  exact hno.2.2 p ⟨hp, hne⟩

/-- **The representation of the context.** After any operations, the invariant holds, an operation
that fails changes nothing, and installation and removal without an id go past their checks (with
a code that is not negative, or with a call) only with nothing but default paths. -/
theorem context_representation (mem : Nat → UInt8) (ops : List ContextOp) :
    let context := (contextCreate mem).run ops
    context.Inv ∧
    (∀ op, (context.step op).1 < 0 → (context.step op).2 = context) ∧
    ∀ (permgr : PermMgr σ) (mac : Mac σ) (s : σ), context.id 0 = 0 →
      ((actionInstall permgr.recorded mac.recorded context (s, [])).1 ≥ 0 ∨
        (actionInstall permgr.recorded mac.recorded context (s, [])).2.2 ≠ [] ∨
        (actionUninstall permgr.recorded mac.recorded context (s, [])).1 ≥ 0 ∨
        (actionUninstall permgr.recorded mac.recorded context (s, [])).2.2 ≠ []) →
      context.OnlyDefaults := by
  intro context
  have hinv : context.Inv := (Context.Inv.of_empty _ _).run ops
  refine ⟨hinv, fun op => Context.step_fails, fun permgr mac s h0 hp => hinv.onlyDefaults ?_⟩
  by_contra hn
  rw [Bool.not_eq_false] at hn
  have hc : checkContext context < 0 := checkContext_neg.2 (.inr ⟨h0, hn⟩)
  rw [actionInstall_of_checkContext _ _ hc, actionUninstall_of_checkContext _ _ hc] at hp
  simp only [ne_eq, not_true_eq_false, false_or, or_false, or_self] at hp
  exact absurd hc (Int.not_lt.2 hp)

/-- Interfaces that always succeed and do nothing. -/
def PermMgr.idle : PermMgr Unit :=
  ⟨fun _ _ _ s => (0, s), fun _ s => (0, s), fun _ _ s => (0, s)⟩

def Mac.idle : Mac Unit := ⟨fun _ s => (0, s), fun _ s => (0, s), id⟩

/-- Answers for a system of plain files where no allocation fails. -/
def Answers.plain : Answers := ⟨fun _ _ => .mode false false false, fun _ => true⟩

/-- A default path without an id, and an id that is refused. -/
theorem context_representation_default :
    ((contextCreate fun _ => 1).run
      [.addPath .plain (.lit "/a//b/") (.lit "default")]).OnlyDefaults ∧
    (((contextCreate fun _ => 1).run []).step (.setId (.lit "x"))).2 = contextCreate fun _ => 1 :=
  ⟨(context_representation (fun _ => 1) [.addPath .plain (.lit "/a//b/") (.lit "default")]).2.2
      .idle .idle () (by decide +kernel) (.inl (by decide +kernel)),
    (@context_representation Unit (fun _ => 1) []).2.1 (.setId (.lit "x")) (by decide)⟩

end SecLsmManager
