import SecLsmManager.Lib.Transaction
import SecLsmManager.Policy.Cynagora

/-!
# The calls to cynagora

`cynagora_set_policies` again, with the calls that it makes and the code of each. What the calls
make of the database is what the permission manager does (`sessionSetPolicies_refines`), and they
are one transaction (`cynagora_set_policies_transaction`).
-/

namespace SecLsmManager

variable {κ : Type*}

/-- The modifications of the database. -/
inductive PolicyOp
  | drop (selector : PolicyKey)
  | set (key : PolicyKey) (value : CStr)
  deriving DecidableEq

def PolicyOp.apply : PolicyOp → (PolicyKey → Option CStr) → PolicyKey → Option CStr
  | .drop selector => cynagoraDrop selector
  | .set key value => cynagoraSet key value

abbrev CynagoraLog := List (Lib.Answered PolicyOp)

/-- A call is made. -/
def answer (fault : Fault) (call : Lib.Call PolicyOp) (calls : CynagoraLog) : Int × CynagoraLog :=
  (faultCode fault, calls ++ [(call, faultCode fault)])

/-- `get`: the client is created once; `handler` tells whether it is there. -/
def cynagoraGet (handler : Bool) (faults : CynagoraFaults) (calls : CynagoraLog) :
    Int × CynagoraLog :=
  if handler then (0, calls) else answer faults.create .connect calls

/-- The loop of `cynagora_set_policies`, from the rank `i` on, with its `rc`. -/
def sessionSetLoop (faults : CynagoraFaults) (label : CStr) :
    Nat → List CStr → Int → CynagoraLog → Int × CynagoraLog
  | _, [], rc, calls => (rc, calls)
  | i, permission :: permissions, rc, calls =>
    if rc ≥ 0 then
      let key := ⟨label, CYNAGORA_INSERT_ALL, CYNAGORA_INSERT_ALL, permission⟩
      let (rc, calls) := answer (faults.set i) (.modify (.set key CYNAGORA_AUTHORIZED)) calls
      sessionSetLoop faults label (i + 1) permissions rc calls
    else (rc, calls)

/-- `cynagora_set_policies`; `permissionSet` is `none` for `NULL`. -/
def sessionSetPolicies (handler : Bool) (faults : CynagoraFaults) (label : CStr)
    (permissionSet : Option (List CStr)) (dropBefore : Bool) : Int × CynagoraLog :=
  let (rc, calls) := cynagoraGet handler faults []
  if rc < 0 then (rc, calls)
  else
    let (rc, calls) := answer faults.enter .enter calls
    if rc < 0 then (rc, calls)
    else
      let (rc, calls) :=
        if dropBefore then
          let selector := ⟨label, CYNAGORA_SELECT_ALL, CYNAGORA_SELECT_ALL, CYNAGORA_SELECT_ALL⟩
          answer faults.drop (.modify (.drop selector)) calls
        else (rc, calls)
      let (rc, calls) :=
        match permissionSet with
        | none => (rc, calls)
        | some permissions => sessionSetLoop faults label 0 permissions rc calls
      let (rc2, calls) := answer faults.leave (.leave (rc = 0)) calls
      (if rc2 < 0 ∧ rc = 0 then rc2 else rc, calls)

/-! ## The loop -/

/-- What a part of `cynagora_set_policies` does inside of the transaction: from `rc` to `rc'`, the
modifications `log` take the draft from `draft` to `draft'`. -/
structure Drafts (rc rc' : Int) (draft draft' : PolicyKey → Option CStr) (log : CynagoraLog) :
    Prop where
  modifies : Lib.Modifies log
  nonpos : rc' ≤ 0
  succeeds : rc' = 0 ↔ rc = 0 ∧ ∀ call ∈ log, call.2 = 0
  run : ∀ policies, Lib.Store.run PolicyOp.apply ⟨policies, some draft⟩ log =
    ⟨policies, some draft'⟩

/-- No call changes no draft. -/
theorem Drafts.refl {rc : Int} (hrc : rc ≤ 0) (draft : PolicyKey → Option CStr) :
    Drafts rc rc draft draft [] :=
  ⟨.nil, hrc, ⟨fun h => ⟨h, fun _ hc => by cases hc⟩, fun h => h.1⟩, fun _ => rfl⟩

/-- One modification more, of the code `code`. -/
theorem Drafts.cons (op : PolicyOp) {rc' code : Int} {draft draft' : PolicyKey → Option CStr}
    {log : CynagoraLog}
    (h : Drafts code rc' (if code < 0 then draft else op.apply draft) draft' log) :
    Drafts 0 rc' draft draft' ((.modify op, code) :: log) where
  modifies := h.modifies.cons op code
  nonpos := h.nonpos
  succeeds := by
    rw [h.succeeds, List.forall_mem_cons]
    exact (and_iff_right rfl).symm
  run := by
    intro policies
    rw [Lib.Store.run_cons, ← h.run policies, Lib.Store.call]
    split <;> rfl

/-- Two parts of a session draft one after the other. -/
theorem Drafts.trans {rc rc' rc'' : Int} {draft draft' draft'' : PolicyKey → Option CStr}
    {log log' : CynagoraLog} (h : Drafts rc rc' draft draft' log)
    (h' : Drafts rc' rc'' draft' draft'' log') : Drafts rc rc'' draft draft'' (log ++ log') where
  modifies := List.forall_mem_append.2 ⟨h.modifies, h'.modifies⟩
  nonpos := h'.nonpos
  succeeds := by
    rw [h'.succeeds, h.succeeds, List.forall_mem_append, and_assoc]
  run := by
    intro policies
    rw [Lib.Store.run_append, h.run, h'.run]

/-- The loop on the permissions drafts its policies, with the calls that it makes. -/
theorem sessionSetLoop_drafts (faults : CynagoraFaults) (label : CStr) :
    ∀ (i : Nat) (permissions : List CStr) {rc : Int} (_ : rc ≤ 0) (calls : CynagoraLog)
      (draft : PolicyKey → Option CStr), ∃ log,
      sessionSetLoop faults label i permissions rc calls =
        ((setPoliciesLoop faults label i permissions rc draft).1, calls ++ log) ∧
      Drafts rc (setPoliciesLoop faults label i permissions rc draft).1 draft
        (setPoliciesLoop faults label i permissions rc draft).2 log
  | _, [], rc, hrc, calls, draft =>
    ⟨[], by rw [List.append_nil]; rfl, Drafts.refl hrc draft⟩
  | i, permission :: permissions, rc, hrc, calls, draft => by
    simp only [sessionSetLoop, setPoliciesLoop]
    split
    · rename_i hpos
      obtain rfl : rc = 0 := Int.le_antisymm hrc hpos
      generalize hkey : (⟨label, CYNAGORA_INSERT_ALL, CYNAGORA_INSERT_ALL, permission⟩ :
        PolicyKey) = key
      obtain ⟨log, hcalls, hdrafts⟩ := sessionSetLoop_drafts faults label (i + 1) permissions
        (faultCode_nonpos (faults.set i))
        (answer (faults.set i) (.modify (.set key CYNAGORA_AUTHORIZED)) calls).2
        (if faultCode (faults.set i) < 0 then draft else cynagoraSet key CYNAGORA_AUTHORIZED draft)
      refine ⟨_ :: log, ?_, hdrafts.cons (.set key CYNAGORA_AUTHORIZED)⟩
      rw [List.append_cons]
      exact hcalls
    · exact ⟨[], by rw [List.append_nil], Drafts.refl hrc draft⟩

/-- The loop does not create the client. -/
theorem setPoliciesLoop_create (faults : CynagoraFaults) (create : Fault) (label : CStr)
    (permissions : List CStr) : ∀ (i : Nat) (rc : Int) (draft : PolicyKey → Option CStr),
      setPoliciesLoop { faults with create := create } label i permissions rc draft =
        setPoliciesLoop faults label i permissions rc draft := by
  induction permissions with
  | nil => exact fun _ _ _ => rfl
  | cons permission permissions ih =>
    intro i rc draft
    simp only [setPoliciesLoop, ih]

/-! ## The transaction -/

/-- The calls before the transaction, that succeed. -/
def Connects (calls : CynagoraLog) : Prop := ∀ call ∈ calls, call = (.connect, 0)

/-- A connection does not touch the database. -/
theorem Connects.run {calls : CynagoraLog} (h : Connects calls)
    (store : Lib.Store (PolicyKey → Option CStr)) :
    store.run PolicyOp.apply calls = store := by
  induction calls with
  | nil => rfl
  | cons call calls ih =>
    obtain ⟨rfl, hcalls⟩ := List.forall_mem_cons.1 h
    exact ih hcalls

/-- It opens no transaction. -/
theorem Connects.balanced {calls rest : CynagoraLog} (h : Connects calls)
    (hrest : Lib.Balanced false rest) : Lib.Balanced false (calls ++ rest) := by
  induction calls with
  | nil => exact hrest
  | cons call calls ih =>
    obtain ⟨rfl, hcalls⟩ := List.forall_mem_cons.1 h
    exact ih hcalls

/-- No call of it has failed. -/
theorem Connects.codes {calls : CynagoraLog} (h : Connects calls) : ∀ call ∈ calls, call.2 = 0 :=
  fun call hcall => by rw [h call hcall]

/-- What `cynagora_set_policies` does: its code, the calls and what they make of the database. -/
structure Transacts (rc : Int) (calls : CynagoraLog)
    (policies policies' : PolicyKey → Option CStr) : Prop where
  balanced : Lib.Balanced false calls
  succeeds : rc = 0 ↔ ∀ call ∈ calls, call.2 = 0
  run : (Lib.Store.run PolicyOp.apply ⟨policies, none⟩ calls).current = policies'

/-- The end of a transaction. -/
theorem Drafts.leave {before : CynagoraLog} (hbefore : Connects before) {rc : Int} {s : System κ}
    {draft : PolicyKey → Option CStr} {log : CynagoraLog} (h : Drafts 0 rc s.policies draft log)
    (fault : Fault) :
    Transacts (leavePolicies fault rc draft s).1
      (before ++ [(.enter, 0)] ++ log ++ [(.leave (rc = 0), faultCode fault)]) s.policies
      (leavePolicies fault rc draft s).2.policies := by
  have hcode := faultCode_nonpos fault
  have hrc := h.nonpos
  refine ⟨?_, ?_, ?_⟩
  · rw [List.append_assoc, List.append_assoc]
    exact hbefore.balanced ⟨rfl, h.modifies.balanced ⟨rfl, rfl⟩⟩
  · have hlog : rc = 0 ↔ ∀ call ∈ log, call.2 = 0 := h.succeeds.trans (and_iff_right rfl)
    have hcalls : (∀ call ∈ before ++ [(.enter, 0)] ++ log ++
        [(Lib.Call.leave (decide (rc = 0)), faultCode fault)], call.2 = 0) ↔
        rc = 0 ∧ faultCode fault = 0 := by
      simp only [List.forall_mem_append, List.forall_mem_singleton, and_true, ← hlog]
      exact and_congr_left' (and_iff_right hbefore.codes)
    rw [hcalls]
    simp only [leavePolicies]
    split <;> omega
  · rw [Lib.Store.run_append, Lib.Store.run_append, Lib.Store.run_append, hbefore.run]
    have henter : Lib.Store.run PolicyOp.apply ⟨s.policies, none⟩ [(.enter, 0)] =
        ⟨s.policies, some s.policies⟩ := rfl
    rw [henter, h.run]
    simp only [Lib.Store.run_cons, Lib.Store.run_nil, Lib.Store.call, leavePolicies,
      decide_eq_true_eq, Option.getD_some, not_lt, ge_iff_le]
    split <;> rfl

/-- `get` makes one call at most. -/
theorem cynagoraGet_spec (handler : Bool) (faults : CynagoraFaults) :
    let code := faultCode (if handler then none else faults.create)
    (cynagoraGet handler faults []).1 = code ∧
      (code = 0 → Connects (cynagoraGet handler faults []).2) ∧
      (code < 0 → (cynagoraGet handler faults []).2 = [(.connect, code)]) := by
  cases handler with
  | true =>
    refine ⟨rfl, fun _ => ?_, fun h => absurd h (Int.lt_irrefl 0)⟩
    intro call hcall
    cases hcall
  | false =>
    refine ⟨rfl, fun hcode => ?_, fun _ => rfl⟩
    rintro call hcall
    cases List.mem_singleton.1 hcall
    exact congrArg (Prod.mk _) hcode

/-- A call that fails before the transaction. -/
theorem Transacts.fails {before : CynagoraLog} (hbefore : Connects before) {code : Int}
    (hcode : code < 0) {call : Lib.Call PolicyOp} (hcall : call = .connect ∨ call = .enter)
    (policies : PolicyKey → Option CStr) :
    Transacts code (before ++ [(call, code)]) policies policies := by
  have hnot : ¬ 0 ≤ code := Int.not_le.2 hcode
  refine ⟨?_, ?_, ?_⟩
  · refine hbefore.balanced ?_
    cases hcall with
    | inl h => subst h; exact rfl
    | inr h => subst h; exact ⟨rfl, decide_eq_false hnot⟩
  · refine iff_of_false (Int.ne_of_lt hcode) fun h => ?_
    exact Int.ne_of_lt hcode (h _ (List.mem_append_right _ (List.mem_singleton_self _)))
  · rw [Lib.Store.run_append, hbefore.run]
    cases hcall with
    | inl h => subst h; rfl
    | inr h =>
      subst h
      simp only [Lib.Store.run_cons, Lib.Store.run_nil, Lib.Store.call, if_pos hcode]

/-- The drop of `cynagora_set_policies`. -/
theorem dropBefore_drafts (faults : CynagoraFaults) (selector : PolicyKey) (dropBefore : Bool)
    (calls : CynagoraLog) (draft : PolicyKey → Option CStr) :
    let rc := if dropBefore then faultCode faults.drop else 0
    ∃ log, (if dropBefore then answer faults.drop (.modify (.drop selector)) calls
        else (0, calls)) = (rc, calls ++ log) ∧
      Drafts 0 rc draft
        (if dropBefore ∧ rc ≥ 0 then cynagoraDrop selector draft else draft) log := by
  cases dropBefore with
  | false =>
    refine ⟨[], by rw [List.append_nil]; rfl, ?_⟩
    simp only [Bool.false_eq_true, false_and, if_false]
    exact Drafts.refl (le_refl 0) draft
  | true =>
    refine ⟨[_], rfl, ?_⟩
    simp only [if_true, true_and]
    refine Drafts.cons (.drop selector) ?_
    have hsame : (if faultCode faults.drop < 0 then draft else
        PolicyOp.apply (.drop selector) draft) =
        if faultCode faults.drop ≥ 0 then cynagoraDrop selector draft else draft := by
      split <;> split
      · omega
      · rfl
      · rfl
      · omega
    rw [hsame]
    exact Drafts.refl (faultCode_nonpos _) _

/-- **The calls to cynagora** make of the database what the permission manager does. -/
theorem sessionSetPolicies_refines (handler : Bool) (faults : CynagoraFaults) (label : CStr)
    (permissionSet : Option (List CStr)) (dropBefore : Bool) (s : System κ) :
    let created := { faults with create := if handler then none else faults.create }
    let r := sessionSetPolicies handler faults label permissionSet dropBefore
    let set := cynagoraSetPolicies created label (permissionSet.getD []) dropBefore s
    r.1 = set.1 ∧ Transacts r.1 r.2 s.policies set.2.policies := by
  intro created r set
  obtain ⟨hget, hconnects, hfails⟩ := cynagoraGet_spec handler faults
  have hcode := faultCode_nonpos (if handler then none else faults.create)
  simp only [r, set, created, sessionSetPolicies, cynagoraSetPolicies]
  generalize faultCode (if handler then none else faults.create) = code
    at hget hconnects hfails hcode ⊢
  generalize cynagoraGet handler faults [] = got at hget hconnects hfails ⊢
  obtain ⟨rc, before⟩ := got
  obtain rfl : rc = code := hget
  by_cases hneg : rc < 0
  · obtain rfl := hfails hneg
    simp only [if_pos hneg]
    have hnil : Connects [] := fun _ h => by cases h
    exact ⟨trivial, Transacts.fails hnil hneg (.inl rfl) _⟩
  have hbefore := hconnects (Int.le_antisymm hcode (Int.not_lt.1 hneg))
  simp only [if_neg hneg]
  by_cases henter : faultCode faults.enter < 0
  · have hanswer : (answer faults.enter .enter before).1 < 0 := henter
    simp only [if_pos henter, if_pos hanswer]
    exact ⟨rfl, Transacts.fails hbefore henter (.inr rfl) _⟩
  have hentered : faultCode faults.enter = 0 :=
    Int.le_antisymm (faultCode_nonpos _) (Int.not_lt.1 henter)
  have hanswer : answer faults.enter .enter before = (0, before ++ [(.enter, 0)]) := by
    rw [answer, hentered]
  obtain ⟨log, hdrop, hdropped⟩ := dropBefore_drafts faults
    ⟨label, CYNAGORA_SELECT_ALL, CYNAGORA_SELECT_ALL, CYNAGORA_SELECT_ALL⟩ dropBefore
    (before ++ [(.enter, 0)]) s.policies
  simp only [hanswer, hentered, Int.lt_irrefl, if_false, hdrop]
  have hset : ∀ rc calls, (match permissionSet with
      | none => (rc, calls)
      | some permissions => sessionSetLoop faults label 0 permissions rc calls) =
      sessionSetLoop faults label 0 (permissionSet.getD []) rc calls := by
    intro rc calls
    cases permissionSet <;> rfl
  rw [hset]
  obtain ⟨log', hloop, hlooped⟩ := sessionSetLoop_drafts faults label 0 (permissionSet.getD [])
    hdropped.nonpos (before ++ [(.enter, 0)] ++ log) _
  have hleave := (hdropped.trans hlooped).leave hbefore faults.leave
  rw [hloop, setPoliciesLoop_create faults (if handler then none else faults.create)]
  rw [← List.append_assoc] at hleave
  generalize setPoliciesLoop faults label 0 (permissionSet.getD []) _ _ = looped at hleave ⊢
  obtain ⟨rc', draft'⟩ := looped
  exact ⟨rfl, hleave⟩

/-- The rules of `label` are one rule `yes` for each permission, and those of the other labels are
as they were. The label `#` selects all the labels. -/
structure GrantsOnly (label : CStr) (permissions : List CStr)
    (policies policies' : PolicyKey → Option CStr) : Prop where
  own : ∀ key, key.client = label → policies' key =
    if key.session = CYNAGORA_INSERT_ALL ∧ key.user = CYNAGORA_INSERT_ALL ∧
      key.permission ∈ permissions then some CYNAGORA_AUTHORIZED else none
  others : ∀ key, key.client ≠ label → policies' key =
    if label = CYNAGORA_SELECT_ALL then none else policies key

/-- The policies of a label are those of its permissions. -/
theorem grantedPolicies_grants (label : CStr) (permissions : List CStr)
    (policies : PolicyKey → Option CStr) :
    GrantsOnly label permissions policies (grantedPolicies label permissions policies) where
  own := by
    intro key hkey
    simp [grantedPolicies, selects, hkey]
  others := by
    intro key hkey
    have hclient : ¬ label = key.client := fun h => hkey h.symm
    simp [grantedPolicies, selects, hkey, hclient]

/-- **A permission transaction.** The code is 0 exactly when all the calls succeed, the label has
then the permissions and no other rule, a failure leaves the database as it was, and a transaction
that is entered is left once. -/
theorem cynagora_set_policies_transaction (handler : Bool) (faults : CynagoraFaults) (label : CStr)
    (permissionSet : Option (List CStr)) (policies : PolicyKey → Option CStr) :
    let r := sessionSetPolicies handler faults label permissionSet true
    let policies' := (Lib.Store.run PolicyOp.apply ⟨policies, none⟩ r.2).current
    (r.1 = 0 ↔ ∀ call ∈ r.2, call.2 = 0) ∧
      (r.1 = 0 → GrantsOnly label (permissionSet.getD []) policies policies') ∧
      (r.1 < 0 → policies' = policies) ∧
      Lib.Balanced false r.2 := by
  intro r policies'
  let s : System Unit := ⟨policies, fun _ => none, (), fun _ => none, fun _ => none⟩
  obtain ⟨hcode, htransacts⟩ := sessionSetPolicies_refines handler faults label permissionSet true s
  have hpolicies : policies' = _ := htransacts.run
  refine ⟨htransacts.succeeds, fun hzero => ?_, fun hneg => ?_, htransacts.balanced⟩
  · obtain ⟨hneg, -⟩ | hdone := cynagoraSetPolicies_cases
      { faults with create := if handler then none else faults.create } label
      (permissionSet.getD []) s
    · exact absurd (hcode.symm.trans hzero) (Int.ne_of_lt hneg)
    · rw [hpolicies, hdone]
      exact grantedPolicies_grants label _ policies
  · obtain ⟨-, hsame⟩ | hdone := cynagoraSetPolicies_cases
      { faults with create := if handler then none else faults.create } label
      (permissionSet.getD []) s
    · rw [hpolicies, hsame]
    · have hzero : r.1 = 0 := hcode.trans (congrArg Prod.fst hdone)
      exact absurd hzero (Int.ne_of_lt hneg)

/-- The label `#` drops the rules of the others. -/
theorem cynagora_set_policies_selects_all :
    let key : PolicyKey := ⟨.lit "App:ab", .lit "*", .lit "*", .lit "perm"⟩
    let policies := Function.update (fun _ => none) key (some (.lit "yes"))
    let r := sessionSetPolicies false .none (.lit "#") none true
    r.1 = 0 ∧ key.client ≠ .lit "#" ∧ policies key = some (.lit "yes") ∧
      (Lib.Store.run PolicyOp.apply ⟨policies, none⟩ r.2).current key = none := by
  decide +kernel

end SecLsmManager
