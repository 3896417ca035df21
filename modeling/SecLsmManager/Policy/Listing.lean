import Mathlib.Data.List.Pairwise
import SecLsmManager.Context.Invariant
import SecLsmManager.Policy.Cynagora

/-!
# Reading the policies back

`cynagora_get_policies` collects the permissions of a label in a set of permissions, from what
`cynagora_get` lists in an order of its own. After any modifications, whichever fail, it gives the
permissions of the last one that succeeded on the label (`cynagora_reads_back`), but for those that
find no memory: the code of `permission_set_add` is not looked at.
-/

namespace SecLsmManager

variable {κ : Type*}

/-! ## The function -/

/-- `list`, on the items that `cynagora_get` gives, from the rank `i` on. The code of
`permission_set_add` is not looked at. -/
def listLoop (answers : Nat → Answers) : Nat → List PolicyKey → List CStr → List CStr
  | _, [], permissionSet => permissionSet
  | i, key :: items, permissionSet =>
    listLoop answers (i + 1) items (permissionSetAdd (answers i) permissionSet key.permission).2

/-- `cynagora_get_policies`: `get` is the failure of `cynagora_get`, after it gave the items. -/
def cynagoraGetPolicies (create get : Fault) (answers : Nat → Answers) (items : List PolicyKey) :
    Int × List CStr :=
  let rc := faultCode create
  if rc < 0 then (rc, [])
  else
    let permissionSet := listLoop answers 0 items []
    let rc := faultCode get
    if rc < 0 then (rc, permissionSet) else (0, permissionSet)

/-- `cynagora_get` gives the items that match the selector, in some order. -/
def Lists (selector : PolicyKey) (policies : PolicyKey → Option CStr) (items : List PolicyKey) :
    Prop :=
  ∀ key, key ∈ items ↔ (selects selector.client key.client ∧
    selects selector.session key.session ∧ selects selector.user key.user ∧
    selects selector.permission key.permission) ∧ (policies key).isSome

/-- A label that is not the selector of all selects itself. -/
theorem selects_iff {label client : CStr} (hlabel : label ≠ CYNAGORA_SELECT_ALL) :
    selects label client = true ↔ client = label := by
  rw [selects, Bool.or_eq_true, decide_eq_true_iff, decide_eq_true_iff, or_iff_right hlabel]
  exact eq_comm

/-- What `cynagora_get_policies` asks for. -/
def allOf (label : CStr) : PolicyKey :=
  ⟨label, CYNAGORA_SELECT_ALL, CYNAGORA_SELECT_ALL, CYNAGORA_SELECT_ALL⟩

/-! ## Sets of permissions -/

/-- A permission that `permission_set_add` does not refuse. -/
def ValidPermission (p : CStr) : Prop :=
  SEC_LSM_MANAGER_MIN_SIZE_PERMISSION ≤ p.length ∧ p.length ≤ SEC_LSM_MANAGER_MAX_SIZE_PERMISSION

instance (p : CStr) : Decidable (ValidPermission p) := inferInstanceAs (Decidable (_ ∧ _))

/-- The set of permissions of a context in order. -/
structure PermissionSet (permissionSet : List CStr) : Prop where
  distinct : permissionSet.Pairwise fun a b => eqCase a b = false
  valid : ∀ p ∈ permissionSet, ValidPermission p

theorem PermissionSet.nodup {permissionSet : List CStr} (h : PermissionSet permissionSet) :
    permissionSet.Nodup := by
  refine h.distinct.imp fun {a b} hab => ?_
  rintro rfl
  simp [eqCase] at hab

/-- Two permissions of a set that only differ by their case are the same. -/
theorem PermissionSet.eq {permissionSet : List CStr} (h : PermissionSet permissionSet)
    {p q : CStr} (hp : p ∈ permissionSet) (hq : q ∈ permissionSet) (heq : eqCase p q = true) :
    p = q := by
  refine of_not_not fun hne => ?_
  have hsymm : Std.Symm fun a b : CStr => eqCase a b = false :=
    ⟨fun a b hab => (eqCase_comm b a).trans hab⟩
  have hdistinct : eqCase p q = false := h.distinct.forall hp hq hne
  exact Bool.false_ne_true (hdistinct.symm.trans heq)

theorem permissionSetHas_iff {permissionSet : List CStr} {p : CStr} :
    permissionSetHas permissionSet p = true ↔ ∃ q ∈ permissionSet, eqCase p q = true := by
  rw [permissionSetHas, List.any_eq_true]

theorem PermissionSet.append {permissionSet : List CStr} (h : PermissionSet permissionSet)
    {p : CStr} (hhas : permissionSetHas permissionSet p = false) (hvalid : ValidPermission p) :
    PermissionSet (permissionSet ++ [p]) where
  distinct := by
    refine List.pairwise_append.2 ⟨h.distinct, List.pairwise_singleton _ _, fun q hq r hr => ?_⟩
    obtain rfl := List.mem_singleton.1 hr
    rw [eqCase_comm]
    exact Bool.eq_false_iff.2 fun heq =>
      Bool.false_ne_true (hhas.symm.trans (permissionSetHas_iff.2 ⟨q, hq, heq⟩))
  valid := by
    rw [List.forall_mem_append, List.forall_mem_singleton]
    exact ⟨h.valid, hvalid⟩

/-! ## The items -/

/-- What an item does to the set: nothing, when the permission is there or is refused, or it is
added. -/
theorem permissionSetAdd_item (answers : Answers) {permissionSet : List CStr}
    (h : PermissionSet permissionSet) (p : CStr) :
    let permissionSet' := (permissionSetAdd answers permissionSet p).2
    PermissionSet permissionSet' ∧ (permissionSet' = permissionSet ∨
      permissionSet' = permissionSet ++ [p]) := by
  cases hhas : permissionSetHas permissionSet p with
  | true =>
    have hsame : permissionSetAdd answers permissionSet p = (0, permissionSet) := if_pos hhas
    simp only [hsame]
    exact ⟨h, .inl trivial⟩
  | false =>
    rcases permissionSetAdd_spec answers permissionSet hhas with ⟨rc, -, heq⟩ | ⟨hmin, hmax, heq⟩
    · simp only [heq]
      exact ⟨h, .inl trivial⟩
    · simp only [heq]
      exact ⟨h.append hhas ⟨hmin, hmax⟩, .inr trivial⟩

/-- The permission of an item that finds memory is in the set after it. -/
theorem permissionSetAdd_has {answers : Answers} (hmem : ∀ k, answers.alloc k = true)
    (permissionSet : List CStr) {p : CStr} (hvalid : ValidPermission p) :
    permissionSetHas (permissionSetAdd answers permissionSet p).2 p = true := by
  obtain ⟨hmin, hmax⟩ := hvalid
  rw [permissionSetAdd]
  split
  · assumption
  · simp only [not_lt.2 hmin, not_lt.2 hmax, hmem, or_self, not_true_eq_false, and_false, if_false]
    exact permissionSetHas_iff.2 ⟨p, List.mem_append_right _ (List.mem_singleton_self p),
      by simp [eqCase]⟩

/-- The permissions of the items. -/
theorem listLoop_spec (answers : Nat → Answers) (i : Nat) (items : List PolicyKey)
    {permissionSet : List CStr} (h : PermissionSet permissionSet) :
    let listed := listLoop answers i items permissionSet
    PermissionSet listed ∧ (∀ p ∈ permissionSet, p ∈ listed) ∧
      ∀ p ∈ listed, p ∈ permissionSet ∨ ∃ key ∈ items, key.permission = p := by
  induction items generalizing i permissionSet with
  | nil => exact ⟨h, fun _ hp => hp, fun _ hp => .inl hp⟩
  | cons key items ih =>
    obtain ⟨hadd, hcases⟩ := permissionSetAdd_item (answers i) h key.permission
    obtain ⟨hset, hkept, hlisted⟩ := ih (i + 1) hadd
    refine ⟨hset, fun p hp => hkept p ?_, fun p hp => ?_⟩
    · rcases hcases with hsame | hnew
      · rwa [hsame]
      · rw [hnew]
        exact List.mem_append_left _ hp
    rcases hlisted p hp with hmem | ⟨key', hkey', heq⟩
    · rcases hcases with hsame | hnew
      · exact .inl (hsame ▸ hmem)
      · rw [hnew, List.mem_append, List.mem_singleton] at hmem
        exact hmem.imp_right fun heq => ⟨key, List.mem_cons_self, heq.symm⟩
    · exact .inr ⟨key', List.mem_cons_of_mem _ hkey', heq⟩

/-- No permission of an item that finds memory is missing. -/
theorem listLoop_has {answers : Nat → Answers} {items : List PolicyKey} {i n : Nat}
    {permissionSet : List CStr} {key : PolicyKey} (h : PermissionSet permissionSet)
    (hkey : items[n]? = some key) (hmem : ∀ k, (answers (i + n)).alloc k = true)
    (hvalid : ValidPermission key.permission) :
    permissionSetHas (listLoop answers i items permissionSet) key.permission = true := by
  induction items generalizing i n permissionSet with
  | nil => cases hkey
  | cons key' items ih =>
    obtain ⟨hadd, -⟩ := permissionSetAdd_item (answers i) h key'.permission
    cases n with
    | zero =>
      obtain rfl : key' = key := Option.some.inj hkey
      have hhas := permissionSetAdd_has hmem permissionSet hvalid
      obtain ⟨q, hq, heq⟩ := permissionSetHas_iff.1 hhas
      obtain ⟨-, hkept, -⟩ := listLoop_spec answers (i + 1) items hadd
      exact permissionSetHas_iff.2 ⟨q, hkept q hq, heq⟩
    | succ n =>
      refine ih hadd hkey fun k => ?_
      rw [Nat.add_right_comm]
      exact hmem k

/-! ## Modifications -/

/-- A call that replaces the policies of a label; dropping them is replacing them by none. -/
structure Modification where
  faults : CynagoraFaults
  label : CStr
  permissions : List CStr

def Modification.run (m : Modification) (s : System κ) : Int × System κ :=
  cynagoraSetPolicies m.faults m.label m.permissions true s

/-- The system after some modifications. -/
def modified (ms : List Modification) (s : System κ) : System κ :=
  ms.foldl (fun s m => (m.run s).2) s

/-- The permissions of the last modification that succeeds on the label; one of the selector of all
drops those of every other label. -/
def lastGranted (label : CStr) : List Modification → System κ → Option (List CStr)
  | [], _ => none
  | m :: ms, s =>
    (lastGranted label ms (m.run s).2).or
      (if selects m.label label ∧ (m.run s).1 = 0 then
        some (if m.label = label then m.permissions else [])
      else none)

/-- What a label has the permission `p` by: the last modification that succeeded on it, or else what
there was at the start. -/
def LabelHas (label : CStr) (ms : List Modification) (s : System κ) (p : CStr) : Prop :=
  match lastGranted label ms s with
  | some permissions => p ∈ permissions
  | none => ∃ key : PolicyKey, key.client = label ∧ (s.policies key).isSome ∧ key.permission = p

/-- What a modification makes of the policies of a label. -/
theorem Modification.run_policies (m : Modification) (s : System κ) {label : CStr}
    {key : PolicyKey} (hkey : key.client = label) :
    (m.run s).2.policies key =
      if selects m.label label ∧ (m.run s).1 = 0 then
        installedPolicies label (if m.label = label then m.permissions else []) s.policies key
      else s.policies key := by
  rcases cynagoraSetPolicies_cases m.faults m.label m.permissions s with ⟨hneg, hsame⟩ | hdone
  · rw [if_neg fun h => hneg.ne h.2, Modification.run, hsame]
  · rw [Modification.run, hdone]
    simp only [and_true, grantedPolicies, installedPolicies, hkey, if_true]
    rcases eq_or_ne m.label label with rfl | hother
    · simp [selects]
    · simp [hother, Ne.symm hother]

/-- **The policies of a label after some modifications** are those of the last one that succeeded
on it, or those of the start. -/
theorem modified_policies {label : CStr} (ms : List Modification) (s : System κ)
    {key : PolicyKey} (hkey : key.client = label) :
    (modified ms s).policies key = match lastGranted label ms s with
      | none => s.policies key
      | some permissions => installedPolicies label permissions s.policies key := by
  induction ms generalizing s with
  | nil => rfl
  | cons m ms ih =>
    rw [modified, List.foldl_cons, ← modified, ih, lastGranted]
    cases hlast : lastGranted label ms (m.run s).2 with
    | some permissions =>
      simp only [Option.some_or, installedPolicies, if_pos hkey]
    | none =>
      simp only [Option.none_or, m.run_policies s hkey]
      split <;> rfl

/-- The items of a label have the permissions that are granted to it. -/
theorem Lists.granted {label : CStr} (hlabel : label ≠ CYNAGORA_SELECT_ALL)
    {ms : List Modification} {s : System κ} {items : List PolicyKey}
    (h : Lists (allOf label) (modified ms s).policies items) (p : CStr) :
    (∃ key ∈ items, key.permission = p) ↔ LabelHas label ms s p := by
  have hitem : ∀ key, key ∈ items ↔ key.client = label ∧
      ((modified ms s).policies key).isSome := by
    intro key
    have hall : ∀ field, selects CYNAGORA_SELECT_ALL field = true := fun field => by simp [selects]
    rw [h key]
    simp only [allOf, selects_iff hlabel, hall, and_true]
  rw [LabelHas]
  cases hlast : lastGranted label ms s with
  | none =>
    refine exists_congr fun key => ?_
    rw [hitem, and_assoc]
    refine and_congr_right fun hkey => ?_
    rw [modified_policies ms s hkey, hlast]
  | some permissions =>
    have hpolicies : ∀ key : PolicyKey, key.client = label → (modified ms s).policies key =
        installedPolicies label permissions s.policies key := by
      intro key hkey
      rw [modified_policies ms s hkey, hlast]
    constructor
    · rintro ⟨key, hkey, rfl⟩
      obtain ⟨hclient, hsome⟩ := (hitem key).1 hkey
      rw [hpolicies key hclient, installedPolicies, if_pos hclient] at hsome
      split at hsome
      · rename_i hgranted
        exact hgranted.2.2
      · cases hsome
    · intro hp
      refine ⟨⟨label, CYNAGORA_INSERT_ALL, CYNAGORA_INSERT_ALL, p⟩, (hitem _).2 ⟨rfl, ?_⟩, rfl⟩
      rw [hpolicies _ rfl, installedPolicies, if_pos rfl, if_pos ⟨rfl, rfl, hp⟩]
      rfl

/-! ## Main result -/

/-- **What was granted is read back.** After any modifications, whichever calls of them fail, and
in whatever order cynagora lists its items: `cynagora_get_policies` of a label that is not the
selector of all succeeds when its calls to cynagora do. It gives distinct permissions that are
granted to the label, by the last modification that succeeded on it or else at the start, and all
those that are valid, but for one that found no memory. So what was granted from the set of a
context is this set again, in some order. -/
theorem cynagora_reads_back {label : CStr} (hlabel : label ≠ CYNAGORA_SELECT_ALL)
    (ms : List Modification) (s : System κ) (create get : Fault) (answers : Nat → Answers)
    {items : List PolicyKey} (hitems : Lists (allOf label) (modified ms s).policies items) :
    let r := cynagoraGetPolicies create get answers items
    (r.1 = 0 ↔ create = none ∧ get = none) ∧ (r.1 = 0 →
      PermissionSet r.2 ∧ (∀ p ∈ r.2, LabelHas label ms s p) ∧
      (∀ p, LabelHas label ms s p → ValidPermission p → permissionSetHas r.2 p = true ∨
        ∃ n key, items[n]? = some key ∧ key.permission = p ∧
          ∃ k, (answers n).alloc k = false) ∧
      ∀ permissions, lastGranted label ms s = some permissions → PermissionSet permissions →
        (∀ n k, (answers n).alloc k = true) → r.2.Perm permissions) := by
  intro r
  have hcode : ∀ fault : Fault, ¬ faultCode fault < 0 ↔ fault = none := by
    intro fault
    cases fault with
    | none => simp [faultCode]
    | some e => simp [faultCode, e.pos]
  have hr : r = cynagoraGetPolicies create get answers items := rfl
  rw [cynagoraGetPolicies] at hr
  dsimp only at hr
  split at hr
  · rename_i hcreate
    have hne : create ≠ none := fun h => (hcode create).2 h hcreate
    rw [hr]
    exact ⟨iff_of_false hcreate.ne fun h => hne h.1, fun h => absurd h hcreate.ne⟩
  rename_i hcreate
  split at hr
  · rename_i hget
    have hne : get ≠ none := fun h => (hcode get).2 h hget
    rw [hr]
    exact ⟨iff_of_false hget.ne fun h => hne h.2, fun h => absurd h hget.ne⟩
  rename_i hget
  have hempty : PermissionSet [] := ⟨.nil, List.forall_mem_nil _⟩
  obtain ⟨hset, -, hlisted⟩ := listLoop_spec answers 0 items hempty
  have hgranted := hitems.granted hlabel
  have hsound : ∀ p ∈ r.2, LabelHas label ms s p := by
    intro p hp
    rw [hr] at hp
    exact (hgranted p).1 ((hlisted p hp).resolve_left List.not_mem_nil)
  have hcomplete : ∀ p, LabelHas label ms s p → ValidPermission p →
      permissionSetHas r.2 p = true ∨ ∃ n key, items[n]? = some key ∧ key.permission = p ∧
        ∃ k, (answers n).alloc k = false := by
    intro p hp hvalid
    obtain ⟨key, hkey, rfl⟩ := (hgranted p).2 hp
    obtain ⟨n, hn⟩ := List.mem_iff_getElem?.1 hkey
    by_cases hmem : ∀ k, (answers n).alloc k = true
    · left
      rw [hr]
      exact listLoop_has hempty hn (by rwa [Nat.zero_add]) hvalid
    · obtain ⟨k, hk⟩ := not_forall.1 hmem
      exact .inr ⟨n, key, hn, rfl, k, Bool.eq_false_iff.2 hk⟩
  have hset' : PermissionSet r.2 := hr ▸ hset
  refine ⟨iff_of_true (by rw [hr]) ⟨(hcode _).1 hcreate, (hcode _).1 hget⟩, fun _ =>
    ⟨hset', hsound, hcomplete, fun permissions hlast hpermissions hmem => ?_⟩⟩
  have hiff : ∀ p, LabelHas label ms s p ↔ p ∈ permissions := by
    intro p
    rw [LabelHas, hlast]
  refine (List.perm_ext_iff_of_nodup hset'.nodup hpermissions.nodup).2 fun p => ?_
  refine ⟨fun hp => (hiff p).1 (hsound p hp), fun hp => ?_⟩
  obtain hhas | ⟨n, key, -, -, k, hk⟩ := hcomplete p ((hiff p).2 hp) (hpermissions.valid p hp)
  · obtain ⟨q, hq, heq⟩ := permissionSetHas_iff.1 hhas
    rwa [hpermissions.eq hp ((hiff q).1 (hsound q hq)) heq]
  · rw [hmem n k] at hk
    cases hk

/-- A permission is granted, and the modification after it is not committed. -/
def grantedOnce : List Modification :=
  [⟨.none, .lit "App:ab", [.lit "camera"]⟩,
    ⟨{ CynagoraFaults.none with leave := some ⟨1, Int.one_pos⟩ }, .lit "App:ab", [.lit "gps"]⟩]

def noPolicies : System Unit := ⟨fun _ => none, fun _ => none, (), fun _ => none, fun _ => none⟩

/-- What `cynagora_get` lists of it. -/
theorem lists_grantedOnce : Lists (allOf (.lit "App:ab")) (modified grantedOnce noPolicies).policies
    [⟨.lit "App:ab", .lit "*", .lit "*", .lit "camera"⟩] := by
  have hlast : lastGranted (.lit "App:ab") grantedOnce noPolicies = some [.lit "camera"] := by
    decide +kernel
  intro key
  rw [List.mem_singleton]
  constructor
  · rintro rfl
    decide +kernel
  · rintro ⟨⟨hselects, -⟩, hsome⟩
    have hkey : key.client = .lit "App:ab" := (selects_iff (by decide)).1 hselects
    rw [modified_policies grantedOnce noPolicies hkey, hlast] at hsome
    simp only [installedPolicies, if_pos hkey] at hsome
    split at hsome
    · rename_i hgranted
      obtain ⟨hsession, huser, hpermission⟩ := hgranted
      rw [List.mem_singleton] at hpermission
      obtain ⟨client, session, user, permission⟩ := key
      subst hkey hsession huser hpermission
      rfl
    · cases hsome

/-- The permission is read back. -/
theorem cynagora_reads_back_granted :
    let r := cynagoraGetPolicies none none (fun _ => ⟨fun _ _ => .mode false false false,
      fun _ => true⟩) [⟨.lit "App:ab", .lit "*", .lit "*", .lit "camera"⟩]
    r.1 = 0 ∧ r.2.Perm [.lit "camera"] := by
  intro r
  have hset : PermissionSet [.lit "camera"] :=
    ⟨List.pairwise_singleton _ _, List.forall_mem_singleton.2 (by decide)⟩
  obtain ⟨hcode, hread⟩ := cynagora_reads_back (by decide) grantedOnce noPolicies none none
    (fun _ => ⟨fun _ _ => .mode false false false, fun _ => true⟩) lists_grantedOnce
  have hzero : r.1 = 0 := hcode.2 ⟨rfl, rfl⟩
  exact ⟨hzero, (hread hzero).2.2.2 _ (by decide +kernel) hset fun _ _ => rfl⟩

end SecLsmManager
