import SecLsmManager.Policy.Footprint
import SecLsmManager.Server.Effects

/-!
# Who changed what

Over any run of the server with Smack and cynagora, what has changed was changed in a turn of this
run, when a client took a request on a context that has it for its own (`server_changes_authored`),
and the policies of an application are those of the start or one whole grant
(`server_permissions_whole`).
-/

namespace SecLsmManager

variable {κ ρ : Type*} {n : Nat}

/-- **What the requests do with Smack and cynagora**, whichever calls fail. -/
theorem Touches.abides (env : SmackEnv κ ρ) (create : Fault)
    (check : PolicyKey → (PolicyKey → Option CStr) → Int) (add drop : CynagoraFaults)
    (faults revert : Faults) :
    Abides (cynagoraItf create check add drop) (smackMac env faults revert) (Touches env) where
  refl context s := .refl env context s
  trans context _ _ _ h h' := h.trans h'
  check context s label permission := by
    rw [cynagoraItf, cynagoraCheckPermission_state]
    exact .refl env context s
  add context s hid := .setPolicies env add hid (.inl rfl) s
  drop context s hid := .setPolicies env drop hid (.inr rfl) s
  install context s := smackInstall_touches env faults revert context s
  uninstall context s := smackUninstall_touches env faults context s

/-- Two turns that install `ab` with the permission `camera`. -/
def installing : List (Waited × TurnAnswers 1) :=
  visit (CStr.lit "sec-lsm-manager 1\nid ab\npermission camera\ninstall\n").bytes [60]

section
variable (env : SmackEnv κ ρ) (failures : Failures) (shutofftime : Int) (fd : Nat) (s : System κ)
  (log : Bool) (turns : List (Waited × TurnAnswers n))

/-- What a run of the server changes, a request changed. -/
theorem Server.smack_changes {δ : Type*} (f : System κ → δ) :
    let start : Server (System κ × Nat) n := Server.create fd (s, 0) log
    let s' := (start.run failures.permgr (failures.mac env) shutofftime turns).system.1
    f s' ≠ f s →
      start.Authored failures.permgr (failures.mac env) shutofftime turns fun context t t' =>
        Touches env context t.1 t'.1 ∧ f t'.1 ≠ f t.1 ∧ f t'.1 = f s' := by
  intro start s' hne
  have hchanges := Server.run_changes (Q := fun _ => True)
    (failures.abides env (Touches.abides env)) (fun _ _ _ _ _ => trivial)
    (fun state => f state.1) (Server.Live.create fd (s, 0) log)
    (Server.create_held fd trivial log) hne
  exact hchanges.mono fun _ _ _ h => h.2

/-- **Every change has an author.** Over any run, with any clients in any order and calls that fail
in any way: a rule file, a link or an attribute that is not as at the start was made what it is in
a turn of the run, by the request that a client took on a context that has it for its own. -/
theorem server_changes_authored :
    let start : Server (System κ × Nat) n := Server.create fd (s, 0) log
    let s' := (start.run failures.permgr (failures.mac env) shutofftime turns).system.1
    let authored := start.Authored failures.permgr (failures.mac env) shutofftime turns
    (∀ path, s'.ruleFiles path ≠ s.ruleFiles path → authored fun context t t' =>
      path ∈ ownRuleFile env context ∧ t'.1.ruleFiles path ≠ t.1.ruleFiles path ∧
        t'.1.ruleFiles path = s'.ruleFiles path) ∧
    (∀ path, s'.links path ≠ s.links path → authored fun context t t' =>
      path ∈ ownLinks context ∧ t'.1.links path ≠ t.1.links path ∧
        t'.1.links path = s'.links path) ∧
    ∀ cell, s'.attrs cell ≠ s.attrs cell → authored fun context t t' =>
      cell ∈ pathsCells context.pathSet ∧ t'.1.attrs cell ≠ t.1.attrs cell ∧
        t'.1.attrs cell = s'.attrs cell := by
  intro start s' authored
  refine ⟨fun path hne => ?_, fun path hne => ?_, fun cell hne => ?_⟩
  · refine (Server.smack_changes env failures shutofftime fd s log turns (·.ruleFiles path)
      hne).mono ?_
    rintro context t t' ⟨htouches, hchange, hlast⟩
    exact ⟨of_not_not fun hother => hchange (htouches.ruleFiles hother), hchange, hlast⟩
  · refine (Server.smack_changes env failures shutofftime fd s log turns (·.links path)
      hne).mono ?_
    rintro context t t' ⟨htouches, hchange, hlast⟩
    exact ⟨of_not_not fun hother => hchange (htouches.links hother), hchange, hlast⟩
  · refine (Server.smack_changes env failures shutofftime fd s log turns (·.attrs cell)
      hne).mono ?_
    rintro context t t' ⟨htouches, hchange, hlast⟩
    exact ⟨of_not_not fun hother => hchange (htouches.attrs hother), hchange, hlast⟩

/-- The rule file of `ab` was not there at the start. -/
theorem server_changes_authored_installed :
    let start : Server (System (List (List UInt8)) × Nat) 1 :=
      Server.create 3 (System.blank, 0) false
    start.Authored Failures.none.permgr (Failures.none.mac SmackEnv.plain) (-1) installing
      fun context t t' =>
        let path := CStr.lit "/etc/smack/accesses.d/ab.smack"
        path ∈ ownRuleFile SmackEnv.plain context ∧
          t'.1.ruleFiles path ≠ t.1.ruleFiles path ∧
          t'.1.ruleFiles path = (start.run Failures.none.permgr
            (Failures.none.mac SmackEnv.plain) (-1) installing).system.1.ruleFiles path :=
  (server_changes_authored SmackEnv.plain .none (-1) 3 System.blank false installing).1 _
    (by decide +kernel)

end

end SecLsmManager
