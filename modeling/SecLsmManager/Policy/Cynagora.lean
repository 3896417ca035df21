import SecLsmManager.Action.Action
import SecLsmManager.Policy.System

/-!
# The permission manager of cynagora

The functions of `perm-cynagora/cynagora-interface.c`. The database is a map from keys to values;
the modifications between `cynagora_enter` and `cynagora_leave` are made on a draft, which is
committed or dropped as a whole.
-/

namespace SecLsmManager

variable {κ : Type*}

def CYNAGORA_SELECT_ALL : CStr := .lit "#"
def CYNAGORA_INSERT_ALL : CStr := .lit "*"
def CYNAGORA_AUTHORIZED : CStr := .lit "yes"

/-- The failures of the calls of a modification; those of `cynagora_set` by the rank of the
permission. -/
structure CynagoraFaults where
  create : Fault
  enter : Fault
  drop : Fault
  set : Nat → Fault
  leave : Fault

/-- No call fails. -/
def CynagoraFaults.none : CynagoraFaults := ⟨.none, .none, .none, fun _ => .none, .none⟩

/-- A field of a key is selected. -/
def selects (selector field : CStr) : Bool := selector = CYNAGORA_SELECT_ALL || selector = field

/-- `cynagora_drop`: the items that match the selector. -/
def cynagoraDrop (selector : PolicyKey) (policies : PolicyKey → Option CStr) :
    PolicyKey → Option CStr :=
  fun key =>
    if selects selector.client key.client ∧ selects selector.session key.session ∧
        selects selector.user key.user ∧ selects selector.permission key.permission then none
    else policies key

/-- `cynagora_set`: a rule is created or changed. -/
def cynagoraSet (key : PolicyKey) (value : CStr) (policies : PolicyKey → Option CStr) :
    PolicyKey → Option CStr := Function.update policies key (some value)

/-- The code of a call. -/
def faultCode (fault : Fault) : Int :=
  match fault with
  | some e => -e.val
  | none => 0

/-- The loop of `cynagora_set_policies` on the permissions, from the rank `i` on, with its `rc`. -/
def setPoliciesLoop (faults : CynagoraFaults) (label : CStr) :
    Nat → List CStr → Int → (PolicyKey → Option CStr) → Int × (PolicyKey → Option CStr)
  | _, [], rc, draft => (rc, draft)
  | i, permission :: permissions, rc, draft =>
    if rc ≥ 0 then
      let key := ⟨label, CYNAGORA_INSERT_ALL, CYNAGORA_INSERT_ALL, permission⟩
      let rc := faultCode (faults.set i)
      let draft := if rc < 0 then draft else cynagoraSet key CYNAGORA_AUTHORIZED draft
      setPoliciesLoop faults label (i + 1) permissions rc draft
    else (rc, draft)

/-- The end of `cynagora_set_policies`: the draft is committed when `rc` is 0. -/
def leavePolicies (fault : Fault) (rc : Int) (draft : PolicyKey → Option CStr) (s : System κ) :
    Int × System κ :=
  let rc2 := faultCode fault
  let s := if rc = 0 ∧ rc2 ≥ 0 then { s with policies := draft } else s
  (if rc2 < 0 ∧ rc = 0 then rc2 else rc, s)

/-- `permissionSet` is `[]` for `NULL`. -/
def cynagoraSetPolicies (faults : CynagoraFaults) (label : CStr) (permissionSet : List CStr)
    (dropBefore : Bool) (s : System κ) : Int × System κ :=
  let rc := faultCode faults.create
  if rc < 0 then (rc, s)
  else
    let rc := faultCode faults.enter
    if rc < 0 then (rc, s)
    else
      let rc := if dropBefore then faultCode faults.drop else rc
      let draft :=
        if dropBefore ∧ rc ≥ 0 then
          cynagoraDrop ⟨label, CYNAGORA_SELECT_ALL, CYNAGORA_SELECT_ALL, CYNAGORA_SELECT_ALL⟩
            s.policies
        else s.policies
      let (rc, draft) := setPoliciesLoop faults label 0 permissionSet rc draft
      leavePolicies faults.leave rc draft s

def cynagoraDropPolicies (faults : CynagoraFaults) (label : CStr) (s : System κ) :
    Int × System κ := cynagoraSetPolicies faults label [] true s

/-- `check` is `cynagora_check`. -/
def cynagoraCheckPermission (create : Fault)
    (check : PolicyKey → (PolicyKey → Option CStr) → Int) (label permission : CStr)
    (s : System κ) : Int × System κ :=
  let rc := faultCode create
  if rc < 0 then (rc, s) else (check ⟨label, .lit "-", .lit "-", permission⟩ s.policies, s)

/-- `cynagora_itf`, with the failures of each of its functions. -/
def cynagoraItf (create : Fault) (check : PolicyKey → (PolicyKey → Option CStr) → Int)
    (add drop : CynagoraFaults) : PermMgr (System κ) where
  addPermissions label permissionSet dropBefore s :=
    cynagoraSetPolicies add label permissionSet dropBefore s
  dropPermissions label s := cynagoraDropPolicies drop label s
  checkPermission label permission s := cynagoraCheckPermission create check label permission s

/-! ## What the functions change -/

/-- A check changes nothing. -/
theorem cynagoraCheckPermission_state (create : Fault)
    (check : PolicyKey → (PolicyKey → Option CStr) → Int) (label permission : CStr)
    (s : System κ) : (cynagoraCheckPermission create check label permission s).2 = s := by
  rw [cynagoraCheckPermission]
  split <;> rfl

/-- The keys of an application. -/
def clientKeys (label : CStr) : Set PolicyKey := {key | key.client = label}

theorem faultCode_nonpos (fault : Fault) : faultCode fault ≤ 0 := by
  cases fault with
  | none => exact Int.le_refl 0
  | some e =>
    have hpos := e.pos
    simp only [faultCode]
    omega

/-- The label is not the selector of all. -/
theorem cynagoraDrop_overwrites {label : CStr} (hlabel : label ≠ CYNAGORA_SELECT_ALL)
    (policies : PolicyKey → Option CStr) :
    Lib.Overwrites (clientKeys label) (fun _ => none) policies (cynagoraDrop
      ⟨label, CYNAGORA_SELECT_ALL, CYNAGORA_SELECT_ALL, CYNAGORA_SELECT_ALL⟩ policies) where
  set := by
    intro key hkey
    have hclient : key.client = label := hkey
    simp [cynagoraDrop, selects, hclient]
  frame := by
    intro key hkey
    have hclient : ¬ label = key.client := fun h => hkey h.symm
    simp [cynagoraDrop, selects, hclient, hlabel]

theorem setPoliciesLoop_nonpos (faults : CynagoraFaults) (label : CStr) :
    ∀ (i : Nat) (permissions : List CStr) (rc : Int) (draft : PolicyKey → Option CStr), rc ≤ 0 →
      (setPoliciesLoop faults label i permissions rc draft).1 ≤ 0
  | _, [], _, _, hrc => hrc
  | i, permission :: permissions, rc, draft, hrc => by
    rw [setPoliciesLoop]
    split
    · exact setPoliciesLoop_nonpos faults label (i + 1) permissions _ _ (faultCode_nonpos _)
    · exact hrc

theorem leavePolicies_spec (fault : Fault) {rc : Int} (hrc : rc ≤ 0)
    (draft : PolicyKey → Option CStr) (s : System κ) :
    ((leavePolicies fault rc draft s).1 < 0 ∧ (leavePolicies fault rc draft s).2 = s) ∨
      (rc = 0 ∧ leavePolicies fault rc draft s = (0, { s with policies := draft })) := by
  have hle := faultCode_nonpos fault
  by_cases hzero : rc = 0
  · subst hzero
    obtain hleave | hleave := Int.lt_or_eq_of_le hle
    · have hno : ¬ faultCode fault ≥ 0 := by omega
      simp only [leavePolicies, hleave, hno, and_self, and_false, if_true, if_false]
      exact .inl trivial
    · simp [leavePolicies, hleave]
  · simp only [leavePolicies, hzero, false_and, and_false, if_false]
    exact .inl ⟨by omega, trivial⟩

/-- The policies once those of `label` are the permissions. -/
def installedPolicies (label : CStr) (permissionSet : List CStr)
    (policies : PolicyKey → Option CStr) : PolicyKey → Option CStr :=
  fun key =>
    if key.client = label then
      if key.session = CYNAGORA_INSERT_ALL ∧ key.user = CYNAGORA_INSERT_ALL ∧
          key.permission ∈ permissionSet then some CYNAGORA_AUTHORIZED
      else none
    else policies key

/-- What a modification makes of the policies: the permissions are granted to `label`, and the other
keys that it selects are dropped. -/
def grantedPolicies (label : CStr) (permissionSet : List CStr)
    (policies : PolicyKey → Option CStr) : PolicyKey → Option CStr :=
  fun key =>
    if key.client = label ∧ key.session = CYNAGORA_INSERT_ALL ∧ key.user = CYNAGORA_INSERT_ALL ∧
        key.permission ∈ permissionSet then
      some CYNAGORA_AUTHORIZED
    else if selects label key.client then none else policies key

theorem installedPolicies_idem (label : CStr) (permissionSet : List CStr)
    (policies : PolicyKey → Option CStr) :
    installedPolicies label permissionSet (installedPolicies label permissionSet policies) =
      installedPolicies label permissionSet policies := by
  funext key
  unfold installedPolicies
  split <;> rfl

/-- The loop on the permissions, when it goes to its end. -/
theorem setPoliciesLoop_done (faults : CynagoraFaults) (label : CStr) :
    ∀ (i : Nat) (permissions : List CStr) (rc : Int) (draft : PolicyKey → Option CStr), rc ≤ 0 →
      (setPoliciesLoop faults label i permissions rc draft).1 = 0 →
      rc = 0 ∧ (setPoliciesLoop faults label i permissions rc draft).2 = fun key =>
        if key.client = label ∧ key.session = CYNAGORA_INSERT_ALL ∧
            key.user = CYNAGORA_INSERT_ALL ∧ key.permission ∈ permissions then
          some CYNAGORA_AUTHORIZED
        else draft key
  | _, [], rc, draft, _, h => by
    refine ⟨h, funext fun key => ?_⟩
    simp [setPoliciesLoop]
  | i, permission :: permissions, rc, draft, hrc, h => by
    rw [setPoliciesLoop] at h ⊢
    split at h
    · rename_i hpos
      rw [if_pos hpos]
      obtain ⟨hset, hrest⟩ := setPoliciesLoop_done faults label (i + 1) permissions
        (faultCode (faults.set i)) _ (faultCode_nonpos _) h
      refine ⟨by omega, ?_⟩
      rw [hrest, hset, if_neg (Int.lt_irrefl 0)]
      funext key
      obtain ⟨client, session, user, p⟩ := key
      by_cases hkey : (⟨client, session, user, p⟩ : PolicyKey) =
          ⟨label, CYNAGORA_INSERT_ALL, CYNAGORA_INSERT_ALL, permission⟩
      · cases hkey
        simp [cynagoraSet]
      · have hne : ¬ (client = label ∧ session = CYNAGORA_INSERT_ALL ∧
            user = CYNAGORA_INSERT_ALL ∧ p = permission) := by
          rintro ⟨rfl, rfl, rfl, rfl⟩
          exact hkey rfl
        simp only [cynagoraSet, Function.update_of_ne hkey, List.mem_cons]
        refine if_congr ?_ rfl rfl
        grind
    · rename_i hneg
      exact absurd h (by omega)

/-- The keys that a drop selects by their client. -/
theorem cynagoraDrop_client (label : CStr) (policies : PolicyKey → Option CStr) :
    cynagoraDrop ⟨label, CYNAGORA_SELECT_ALL, CYNAGORA_SELECT_ALL, CYNAGORA_SELECT_ALL⟩ policies =
      fun key => if selects label key.client then none else policies key := by
  funext key
  simp [cynagoraDrop, selects]

/-- **A modification is a transaction**: it fails and changes nothing, or it grants the permissions
and drops the other keys that the label selects. -/
theorem cynagoraSetPolicies_cases (faults : CynagoraFaults) (label : CStr)
    (permissionSet : List CStr) (s : System κ) :
    ((cynagoraSetPolicies faults label permissionSet true s).1 < 0 ∧
        (cynagoraSetPolicies faults label permissionSet true s).2 = s) ∨
      cynagoraSetPolicies faults label permissionSet true s =
        (0, { s with policies := grantedPolicies label permissionSet s.policies }) := by
  simp only [cynagoraSetPolicies]
  split
  · rename_i h
    exact .inl ⟨h, rfl⟩
  split
  · rename_i h
    exact .inl ⟨h, rfl⟩
  simp only [if_true, true_and, cynagoraDrop_client]
  have hdrop := faultCode_nonpos faults.drop
  generalize hdraft : (if faultCode faults.drop ≥ 0 then fun key =>
    if selects label key.client then none else s.policies key else s.policies) = draft
  have hrc :=
    setPoliciesLoop_nonpos faults label 0 permissionSet (faultCode faults.drop) draft hdrop
  obtain hfails | ⟨hzero, hdone⟩ := leavePolicies_spec faults.leave hrc
    (setPoliciesLoop faults label 0 permissionSet (faultCode faults.drop) draft).2 s
  · exact .inl hfails
  · obtain ⟨hdropped, hpolicies⟩ := setPoliciesLoop_done faults label 0 permissionSet
      (faultCode faults.drop) draft hdrop hzero
    rw [hdone, hpolicies, ← hdraft, if_pos hdropped.ge]
    exact .inr rfl

/-- A label that is not the selector of all selects its own keys. -/
theorem grantedPolicies_eq {label : CStr} (hlabel : label ≠ CYNAGORA_SELECT_ALL)
    (permissionSet : List CStr) (policies : PolicyKey → Option CStr) :
    grantedPolicies label permissionSet policies =
      installedPolicies label permissionSet policies := by
  funext key
  by_cases hkey : key.client = label
  · simp [grantedPolicies, installedPolicies, selects, hkey]
  · have hclient : ¬ label = key.client := fun h => hkey h.symm
    simp [grantedPolicies, installedPolicies, selects, hkey, hclient, hlabel]

/-- A modification changes keys of the label only. -/
theorem cynagoraSetPolicies_spec (faults : CynagoraFaults) {label : CStr}
    (hlabel : label ≠ CYNAGORA_SELECT_ALL) (permissionSet : List CStr) (s : System κ) :
    ((cynagoraSetPolicies faults label permissionSet true s).1 < 0 ∧
        (cynagoraSetPolicies faults label permissionSet true s).2 = s) ∨
      ((cynagoraSetPolicies faults label permissionSet true s).1 = 0 ∧
        ∃ p, (cynagoraSetPolicies faults label permissionSet true s).2 =
            { s with policies := p } ∧
          Set.EqOn p s.policies ((clientKeys label)ᶜ : Set PolicyKey)) := by
  obtain hfails | hdone := cynagoraSetPolicies_cases faults label permissionSet s
  · exact .inl hfails
  · rw [hdone, grantedPolicies_eq hlabel]
    exact .inr ⟨rfl, _, rfl, fun key hkey => if_neg hkey⟩

/-- **A modification that succeeds** leaves the permissions, and no other key, to the label. -/
theorem cynagoraSetPolicies_done (faults : CynagoraFaults) {label : CStr}
    (hlabel : label ≠ CYNAGORA_SELECT_ALL) (permissionSet : List CStr) (s : System κ)
    (h : (cynagoraSetPolicies faults label permissionSet true s).1 = 0) :
    (cynagoraSetPolicies faults label permissionSet true s).2 =
      { s with policies := installedPolicies label permissionSet s.policies } := by
  obtain ⟨hneg, -⟩ | hdone := cynagoraSetPolicies_cases faults label permissionSet s
  · exact absurd h (Int.ne_of_lt hneg)
  · rw [hdone, grantedPolicies_eq hlabel]

/-- **Dropping the policies of a label** fails and changes nothing, or leaves none of them. -/
theorem cynagoraDropPolicies_spec (faults : CynagoraFaults) {label : CStr}
    (hlabel : label ≠ CYNAGORA_SELECT_ALL) (s : System κ) :
    ((cynagoraDropPolicies faults label s).1 < 0 ∧ (cynagoraDropPolicies faults label s).2 = s) ∨
      ((cynagoraDropPolicies faults label s).1 = 0 ∧
        ∃ p, (cynagoraDropPolicies faults label s).2 = { s with policies := p } ∧
          Lib.Overwrites (clientKeys label) (fun _ => none) s.policies p) := by
  simp only [cynagoraDropPolicies, cynagoraSetPolicies, setPoliciesLoop]
  split
  · rename_i h
    exact .inl ⟨h, rfl⟩
  split
  · rename_i h
    exact .inl ⟨h, rfl⟩
  simp only [if_true, true_and]
  obtain hfails | ⟨hzero, hdone⟩ := leavePolicies_spec faults.leave (faultCode_nonpos faults.drop)
    (if faultCode faults.drop ≥ 0 then cynagoraDrop ⟨label, CYNAGORA_SELECT_ALL,
      CYNAGORA_SELECT_ALL, CYNAGORA_SELECT_ALL⟩ s.policies else s.policies) s
  · exact .inl hfails
  · rw [hdone, if_pos (Int.le_of_eq hzero.symm)]
    exact .inr ⟨rfl, _, rfl, cynagoraDrop_overwrites hlabel s.policies⟩

/-- Without a failure the policies are dropped. -/
theorem cynagoraDropPolicies_none {label : CStr} (hlabel : label ≠ CYNAGORA_SELECT_ALL)
    (s : System κ) :
    ∃ p, cynagoraDropPolicies .none label s = (0, { s with policies := p }) ∧
      Lib.Overwrites (clientKeys label) (fun _ => none) s.policies p := by
  refine ⟨_, ?_, cynagoraDrop_overwrites hlabel s.policies⟩
  simp [cynagoraDropPolicies, cynagoraSetPolicies, setPoliciesLoop, leavePolicies, faultCode,
    CynagoraFaults.none]

/-- Without a failure the permissions are set. -/
theorem cynagoraSetPolicies_none {label : CStr} (hlabel : label ≠ CYNAGORA_SELECT_ALL)
    (permissionSet : List CStr) (s : System κ) :
    cynagoraSetPolicies .none label permissionSet true s =
      (0, { s with policies := installedPolicies label permissionSet s.policies }) := by
  have hloop : ∀ i permissions draft,
      (setPoliciesLoop .none label i permissions 0 draft).1 = 0 := by
    intro i permissions
    induction permissions generalizing i with
    | nil => exact fun _ => rfl
    | cons permission permissions ih => exact fun _ => ih (i + 1) _
  have hzero : (cynagoraSetPolicies .none label permissionSet true s).1 = 0 := by
    have hcode := hloop 0 permissionSet (cynagoraDrop
      ⟨label, CYNAGORA_SELECT_ALL, CYNAGORA_SELECT_ALL, CYNAGORA_SELECT_ALL⟩ s.policies)
    simp only [CynagoraFaults.none] at hcode
    simp [cynagoraSetPolicies, leavePolicies, faultCode, CynagoraFaults.none, hcode]
  exact Prod.ext hzero (cynagoraSetPolicies_done .none hlabel permissionSet s hzero)

end SecLsmManager
