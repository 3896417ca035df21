import SecLsmManager.Policy.Labels
import SecLsmManager.Policy.SelinuxFootprint
import SecLsmManager.Server.Effects

/-!
# Who changed what with SELinux

The server with SELinux and any permission manager, which has a state of its own. Over any run,
what has changed of the files, of the policy and of the labels was changed in a turn of this run,
when a client took a request on a context that has it for its own (`selinux_server_authored`).
-/

namespace SecLsmManager

variable {π σ : Type*} {n : Nat}

/-! ## Two states, side by side -/

/-- A permission manager beside the state of a security module. -/
def PermMgr.beside (permgr : PermMgr π) : PermMgr (π × σ) where
  addPermissions label permissionSet dropBefore s :=
    let r := permgr.addPermissions label permissionSet dropBefore s.1
    (r.1, r.2, s.2)
  dropPermissions label s :=
    let r := permgr.dropPermissions label s.1
    (r.1, r.2, s.2)
  checkPermission label permission s :=
    let r := permgr.checkPermission label permission s.1
    (r.1, r.2, s.2)

def Mac.beside (mac : Mac σ) : Mac (π × σ) where
  install context s :=
    let r := mac.install context s.2
    (r.1, s.1, r.2)
  uninstall context s :=
    let r := mac.uninstall context s.2
    (r.1, s.1, r.2)
  getLabel := mac.getLabel

/-- The state of the security module is that of its own calls. -/
theorem Abides.beside {mac : Mac σ} {R : Context → σ → σ → Prop} (permgr : PermMgr π)
    (hrefl : ∀ context s, R context s s)
    (htrans : ∀ context {s s' s''}, R context s s' → R context s' s'' → R context s s'')
    (hinstall : ∀ context s, R context s (mac.install context s).2)
    (huninstall : ∀ context s, R context s (mac.uninstall context s).2) :
    Abides permgr.beside mac.beside fun context (s s' : π × σ) => R context s.2 s'.2 where
  refl context s := hrefl context s.2
  trans context _ _ _ := htrans context
  check context s _ _ := hrefl context s.2
  add context s _ := hrefl context s.2
  drop context s _ := hrefl context s.2
  install context s := hinstall context s.2
  uninstall context s := huninstall context s.2

/-! ## SELinux -/

/-- The security module of `mac-interface.h`. -/
def selinuxMac (env : SelinuxEnv) (answers : Context → SelinuxAnswers)
    (removal : Context → SelinuxRemoval) (mem : Nat → UInt8) : Mac SelinuxSystem where
  install context s := selinuxInstall env (answers context) context s
  uninstall context s := selinuxUninstall env (removal context) context s
  getLabel := selinuxGetLabel mem

/-- What the calls answer, from call to call, and the memory that `selinux_get_label` finds. -/
structure SelinuxCalls where
  answers : Nat → Context → SelinuxAnswers
  removal : Nat → Context → SelinuxRemoval
  mem : Nat → UInt8

def SelinuxCalls.mac (calls : SelinuxCalls) (env : SelinuxEnv) : Mac (π × SelinuxSystem × Nat) :=
  (Mac.script (selinuxGetLabel calls.mem) fun k =>
    selinuxMac env (calls.answers k) (calls.removal k) calls.mem).beside

/-- The script compiles the te file of the context, in every call. -/
def SelinuxCalls.Compile (calls : SelinuxCalls) (env : SelinuxEnv) : Prop :=
  ∀ k context, (calls.answers k context).Compiles env context

/-- The calls of SELinux touch only what the context names, where the compiler writes modules of
their ids. -/
theorem SelinuxTouches.abides {env : SelinuxEnv} {calls : SelinuxCalls}
    (hcompile : calls.Compile env) (permgr : PermMgr π) :
    Abides permgr.beside (calls.mac env) fun context s s' =>
      SelinuxTouches env context s.2.1 s'.2.1 := by
  refine .beside (R := fun context (s s' : SelinuxSystem × Nat) =>
    SelinuxTouches env context s.1 s'.1) permgr (fun context s => .refl env context s.1)
    (fun _ _ _ _ h h' => h.trans h') (fun context s => ?_) (fun context s => ?_)
  · exact selinuxInstall_touches (hcompile s.2 context) s.1
  · exact selinuxUninstall_touches (calls.removal s.2 context) s.1

/-! ## Main result -/

section
variable (env : SelinuxEnv) {calls : SelinuxCalls} (permgr : PermMgr π) (shutofftime : Int)
  (fd : Nat) (p : π) {s : SelinuxSystem} (log : Bool) (turns : List (Waited × TurnAnswers n))

/-- What a run of the server changes, a request changed. -/
theorem Server.selinux_changes {δ : Type*} (f : SelinuxSystem → δ)
    (hcompile : calls.Compile env) (hdeclared : s.Declared env) :
    let start : Server (π × SelinuxSystem × Nat) n := Server.create fd (p, s, 0) log
    let s' := (start.run permgr.beside (calls.mac env) shutofftime turns).system.2.1
    f s' ≠ f s →
      start.Authored permgr.beside (calls.mac env) shutofftime turns fun context t t' =>
        t.2.1.Declared env ∧ SelinuxTouches env context t.2.1 t'.2.1 ∧
          f t'.2.1 ≠ f t.2.1 ∧ f t'.2.1 = f s' :=
  Server.run_changes (Q := fun state => state.2.1.Declared env)
    (SelinuxTouches.abides hcompile permgr) (fun _ _ _ htouches => htouches.declared)
    (fun state => f state.2.1) (Server.Live.create fd (p, s, 0) log)
    (Server.create_held (Q := fun state : π × SelinuxSystem × Nat => state.2.1.Declared env) fd
      hdeclared log)

/-- **Every change has an author.** Over any run, with any clients in any order, any permission
manager and any answers to the calls, what is not as at the start was made what it is in a turn of
the run, by the request that a client took on a context that has it for its own: a file is one of
the module of the context, a module that came into the policy or went out of it has its id, and a
label is one that the context gives to one of its paths. -/
theorem selinux_server_authored (hcompile : calls.Compile env) (hdeclared : s.Declared env) :
    let start : Server (π × SelinuxSystem × Nat) n := Server.create fd (p, s, 0) log
    let s' := (start.run permgr.beside (calls.mac env) shutofftime turns).system.2.1
    let authored := start.Authored permgr.beside (calls.mac env) shutofftime turns
    (∀ file, s'.files file ≠ s.files file → authored fun context t t' =>
      file ∈ ownModuleFiles env context ∧ t'.2.1.files file ≠ t.2.1.files file ∧
        t'.2.1.files file = s'.files file) ∧
    (∀ name, ¬ (name ∈ s'.modules ↔ name ∈ s.modules) → authored fun context t t' =>
      context.idString = name ∧ ¬ (name ∈ t'.2.1.modules ↔ name ∈ t.2.1.modules) ∧
        (name ∈ t'.2.1.modules ↔ name ∈ s'.modules)) ∧
    ∀ path, s'.labels path ≠ s.labels path → authored fun context t t' =>
      t'.2.1.labels path ≠ t.2.1.labels path ∧
        ∃ label ∈ ownPathLabels context path, t'.2.1.labels path = some label ∧
          s'.labels path = some label := by
  intro start s' authored
  refine ⟨fun file hne => ?_, fun name hne => ?_, fun path hne => ?_⟩
  · refine (Server.selinux_changes env permgr shutofftime fd p log turns (·.files file) hcompile
      hdeclared hne).mono ?_
    rintro context t t' ⟨-, htouches, hchange, hlast⟩
    exact ⟨of_not_not fun hother => hchange (htouches.files hother), hchange, hlast⟩
  · have hne' : (name ∈ s'.modules) ≠ (name ∈ s.modules) := fun heq => hne (iff_of_eq heq)
    refine (Server.selinux_changes env permgr shutofftime fd p log turns (name ∈ ·.modules)
      hcompile hdeclared hne').mono ?_
    rintro context t t' ⟨hdeclared', htouches, hchange, hlast⟩
    refine ⟨?_, fun hiff => hchange (propext hiff), iff_of_eq hlast⟩
    exact of_not_not fun hother =>
      hchange (propext (htouches.modules hdeclared' name (Ne.symm hother)))
  · refine (Server.selinux_changes env permgr shutofftime fd p log turns (·.labels path) hcompile
      hdeclared hne).mono ?_
    rintro context t t' ⟨-, htouches, hchange, hlast⟩
    obtain ⟨label, hlabel, hset⟩ := (htouches.labels path).resolve_left hchange
    exact ⟨hchange, label, hlabel, hset, hlast.symm.trans hset⟩

end

/-- No call fails, and the pp file that the script leaves is the id. -/
def SelinuxCalls.plain : SelinuxCalls where
  answers _ context := .all context.idString.bytes
  removal _ context :=
    ⟨.all context.idString.bytes, .all context.idString.bytes, none, 0, .ok 0,
      .all context.idString.bytes⟩
  mem _ := 0

/-- The compiler of the example does. -/
theorem SelinuxCalls.plain_compile : SelinuxCalls.plain.Compile ⟨.lit "/r", .ofBytes⟩ := by
  intro k context pp hpp
  obtain rfl : context.idString.bytes = pp := Option.some.inj hpp
  exact CStr.ofBytes_bytes _

/-- In an empty system every pp file declares the module of its id. -/
theorem SelinuxSystem.blank_declared (env : SelinuxEnv) : SelinuxSystem.blank.Declared env :=
  fun _ _ hnone => (Option.some_ne_none _ hnone.symm).elim

/-- The module of `ab` was not in the policy at the start. -/
theorem selinux_server_authored_installed :
    let env : SelinuxEnv := ⟨.lit "/r", .ofBytes⟩
    let start : Server (Unit × SelinuxSystem × Nat) 1 := Server.create 3 ((), .blank, 0) false
    let turns := visit (CStr.lit "sec-lsm-manager 1\nid ab\npath /a conf\ninstall\n").bytes [60]
    let s' := (start.run (PermMgr.beside .idle) (SelinuxCalls.plain.mac env) (-1)
      turns).system.2.1
    start.Authored (PermMgr.beside .idle) (SelinuxCalls.plain.mac env) (-1) turns
      fun context t t' =>
        context.idString = .lit "ab" ∧
          ¬ (.lit "ab" ∈ t'.2.1.modules ↔ .lit "ab" ∈ t.2.1.modules) ∧
          (.lit "ab" ∈ t'.2.1.modules ↔ .lit "ab" ∈ s'.modules) :=
  (selinux_server_authored ⟨.lit "/r", .ofBytes⟩ .idle (-1) 3 () false
    (visit (CStr.lit "sec-lsm-manager 1\nid ab\npath /a conf\ninstall\n").bytes [60])
    SelinuxCalls.plain_compile (SelinuxSystem.blank_declared _)).2.1 (.lit "ab")
    (by decide +kernel)

end SecLsmManager
