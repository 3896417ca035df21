import SecLsmManager.Policy.Rules
import SecLsmManager.Server.Effects

/-!
# What the server can do to the system

For Smack and cynagora with failures that come in any way from call to call, the system stays
confined over any run of the server, in any interleaving of any clients, and every context keeps
its invariant.
-/

namespace SecLsmManager

variable {σ κ ρ : Type*} {n : Nat}

/-- The calls of Smack and cynagora keep the system confined, whatever fails. -/
theorem Confined.abides (env : SmackEnv κ ρ) (s₀ : System κ) (create : Fault)
    (check : PolicyKey → (PolicyKey → Option CStr) → Int) (add drop : CynagoraFaults)
    (faults revert : Faults) :
    Abides (cynagoraItf create check add drop) (smackMac env faults revert)
      fun context s s' => context.Held → Confined env s₀ s → Confined env s₀ s' where
  refl _ _ _ h := h
  trans _ _ _ _ h h' hheld := h' hheld ∘ h hheld
  check _ s label permission _ h := by
    rw [cynagoraItf, cynagoraCheckPermission_state]
    exact h
  add context s _ _ h := h.cynagoraSetPolicies _ (smackGetLabel_appLabel context.idString) _
  drop context s _ _ h := h.cynagoraSetPolicies _ (smackGetLabel_appLabel context.idString) []
  install context s hheld h := h.smackInstall _ _ hheld
  uninstall context s hheld h := h.smackUninstall _ hheld

/-! ## Main result -/

/-- **The server is confined.** Over any run, with any clients in any order and calls that fail in
any way: the labels, links, rule files and policies of the system are those of the start, but for
what is allowed, and the context of each client keeps its invariant. -/
theorem server_confined (env : SmackEnv κ ρ) (failures : Failures) (shutofftime : Int) (fd : Nat)
    (s : System κ) (log : Bool) {server : Server (System κ × Nat) n}
    (h : (Server.create fd (s, 0) log).Turns failures.permgr (failures.mac env) shutofftime
      server) :
    Confined env s server.system.1 ∧ ∀ idx client, (server.clients idx).client = some client →
      client.context.Held := by
  obtain ⟨turns, rfl⟩ := h.exists_run
  have hserves := Server.Serves.turns failures.permgr (failures.mac env)
    (Server.Live.create fd (s, 0) log) shutofftime turns
  obtain ⟨hvisits, hsystem⟩ := service_keeps (Q := fun state => Confined env s state.1)
    (failures.abides env (Confined.abides env s)) hserves.run
    (Server.create_held fd (.refl env s) log)
  exact ⟨hsystem, fun idx client hclient =>
    hvisits idx client.split.1 (Server.shared_session hclient)⟩

/-- The errno of the example. -/
theorem eacces_pos : 0 < EACCES := by decide

/-- The labels of files cannot be set from the fourth call on. -/
def Failures.late : Failures where
  create _ := .none
  check _ _ _ := 0
  add _ := .none
  drop _ := .none
  faults k :=
    bif Nat.blt k 3 then .none
    else { Faults.none with xattr := fun _ _ => some ⟨EACCES, eacces_pos⟩ }
  revert _ := .none

/-- An installation on a connection. -/
theorem server_confined_install :
    let server := Server.visited Failures.late.permgr (Failures.late.mac SmackEnv.plain)
      (System.blank, 0) (CStr.lit "sec-lsm-manager 1\nid ab\npath /a public\ninstall\n").bytes [60]
    Confined SmackEnv.plain System.blank server.system.1 ∧
      ∀ idx client, (server.clients idx).client = some client → client.context.Held :=
  server_confined SmackEnv.plain .late (-1) 3 System.blank false (Server.turns_visited ..)

end SecLsmManager
