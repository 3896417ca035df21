import SecLsmManager.Policy.Confined
import SecLsmManager.Server.Service

/-!
# What the requests make of the system

What the calls to the permission manager and to the security module can make of the system for a
context, each request makes of it (`Abides.reply`). So a property that these calls keep is kept over
any run (`service_keeps`), and what a run of the server changes was changed in a turn of this run,
when a client took a request on its context (`Server.run_changes`).
-/

namespace SecLsmManager

variable {σ δ κ ρ : Type*} {n : Nat}

/-- What the calls make of the system for a context abides by `R`. -/
structure Abides (permgr : PermMgr σ) (mac : Mac σ) (R : Context → σ → σ → Prop) : Prop where
  refl : ∀ context s, R context s s
  trans : ∀ context {s s' s''}, R context s s' → R context s' s'' → R context s s''
  check : ∀ context s label permission, R context s (permgr.checkPermission label permission s).2
  add : ∀ context s, context.id 0 ≠ 0 → R context s
    (permgr.addPermissions (mac.getLabel context.idString) context.permissionSet true s).2
  drop : ∀ context s, context.id 0 ≠ 0 →
    R context s (permgr.dropPermissions (mac.getLabel context.idString) s).2
  install : ∀ context s, R context s (mac.install context s).2
  uninstall : ∀ context s, R context s (mac.uninstall context s).2

section
variable {permgr : PermMgr σ} {mac : Mac σ} {R : Context → σ → σ → Prop}

/-- The checks of the plugs of a context. -/
theorem Abides.checkPlugLoop (h : Abides permgr mac R) (context : Context) (plugs : List Plug)
    (rc : Int) (s : σ) : R context s (checkPlugLoop permgr mac context plugs rc s).2 := by
  induction plugs generalizing rc s with
  | nil => exact h.refl _ _
  | cons plug plugs ih => exact h.trans _ (h.check _ _ _ _) (ih _ _)

/-- Installing, with the permissions dropped again when the module fails. -/
theorem Abides.actionInstall (h : Abides permgr mac R) (context : Context) (s : σ) :
    R context s (actionInstall permgr mac context s).2 := by
  rw [SecLsmManager.actionInstall]
  dsimp only
  split
  · exact h.refl _ _
  have hplugs : R context s (checkPlugInstallable permgr mac context s).2 :=
    h.checkPlugLoop context context.plugset 0 s
  generalize checkPlugInstallable permgr mac context s = r at hplugs ⊢
  split
  · exact hplugs
  have hadd : R context s (if context.id 0 ≠ 0 then
      permgr.addPermissions (mac.getLabel context.idString) context.permissionSet true r.2
    else (r.1, r.2)).2 := by
    split
    · rename_i hid
      exact h.trans _ hplugs (h.add _ _ hid)
    · exact hplugs
  generalize (if context.id 0 ≠ 0 then
      permgr.addPermissions (mac.getLabel context.idString) context.permissionSet true r.2
    else (r.1, r.2)) = r' at hadd ⊢
  split
  · exact hadd
  have hmac := h.trans _ hadd (h.install context r'.2)
  split
  · split
    · rename_i hid
      exact h.trans _ hmac (h.drop _ _ hid)
    · exact hmac
  · exact hmac

/-- Uninstalling drops the permissions, then asks the module. -/
theorem Abides.actionUninstall (h : Abides permgr mac R) (context : Context) (s : σ) :
    R context s (actionUninstall permgr mac context s).2 := by
  rw [SecLsmManager.actionUninstall]
  dsimp only
  split
  · exact h.refl _ _
  have hdrop : R context s (if context.id 0 ≠ 0 then
      permgr.dropPermissions (mac.getLabel context.idString) s
    else (checkContext context, s)).2 := by
    split
    · rename_i hid
      exact h.drop _ _ hid
    · exact h.refl _ _
  generalize (if context.id 0 ≠ 0 then
      permgr.dropPermissions (mac.getLabel context.idString) s
    else (checkContext context, s)) = r at hdrop ⊢
  split
  · exact hdrop
  have hmac := h.trans _ hdrop (h.uninstall context r.2)
  split <;> exact hmac

/-- What the calls keep, for the requests of contexts in order. -/
theorem Abides.keeps {Q : σ → Prop} (h : Abides permgr mac R)
    (hkeeps : ∀ context s s', R context s s' → Q s → Q s') :
    Abides permgr mac fun context s s' => context.Held → Q s → Q s' where
  refl _ _ _ hs := hs
  trans _ _ _ _ hfirst hsecond hheld hs := hsecond hheld (hfirst hheld hs)
  check context s label permission _ := hkeeps _ _ _ (h.check context s label permission)
  add context s hid _ := hkeeps _ _ _ (h.add context s hid)
  drop context s hid _ := hkeeps _ _ _ (h.drop context s hid)
  install context s _ := hkeeps _ _ _ (h.install context s)
  uninstall context s _ := hkeeps _ _ _ (h.uninstall context s)

/-- What a reply makes of the system. -/
theorem Abides.reply (h : Abides permgr mac R) (m : Manager σ) (shows : Bool)
    (args : List CStr) : R m.context m.system (m.reply permgr mac shows args).2.system := by
  have hsame : R m.context m.system m.system := h.refl _ _
  have hconclude : ∀ (m : Manager σ) rc texts, (m.conclude rc texts).2.system = m.system := by
    intro m rc texts
    rw [Manager.conclude]
    split <;> rfl
  rw [Manager.reply]
  split
  · exact hsame
  split
  · rename_i query _
    cases query with
    | hello | log | clear => exact hsame
    | display =>
      simp only [Manager.serve, Manager.display]
      split <;> exact hsame
    | install =>
      simp only [Manager.serve, hconclude]
      exact h.actionInstall _ _
    | uninstall =>
      simp only [Manager.serve, hconclude]
      exact h.actionUninstall _ _
    | id | path | permission | plug =>
      simp only [Manager.serve, hconclude]
      exact hsame
  · exact hsame

end

/-! ## Failures from call to call -/

/-- A permission manager whose calls go on a script, with the rank of the next one. -/
def PermMgr.script (permgr : Nat → PermMgr σ) : PermMgr (σ × Nat) where
  addPermissions label permissionSet dropBefore s :=
    let r := (permgr s.2).addPermissions label permissionSet dropBefore s.1
    (r.1, r.2, s.2 + 1)
  dropPermissions label s :=
    let r := (permgr s.2).dropPermissions label s.1
    (r.1, r.2, s.2 + 1)
  checkPermission label permission s :=
    let r := (permgr s.2).checkPermission label permission s.1
    (r.1, r.2, s.2 + 1)

def Mac.script (getLabel : CStr → CStr) (mac : Nat → Mac σ) : Mac (σ × Nat) where
  install context s :=
    let r := (mac s.2).install context s.1
    (r.1, r.2, s.2 + 1)
  uninstall context s :=
    let r := (mac s.2).uninstall context s.1
    (r.1, r.2, s.2 + 1)
  getLabel := getLabel

/-- cynagora and Smack, with the failures of each call. -/
structure Failures where
  create : Nat → Fault
  check : Nat → PolicyKey → (PolicyKey → Option CStr) → Int
  add : Nat → CynagoraFaults
  drop : Nat → CynagoraFaults
  faults : Nat → Faults
  revert : Nat → Faults

def Failures.permgr (failures : Failures) : PermMgr (System κ × Nat) :=
  .script fun k => cynagoraItf (failures.create k) (failures.check k) (failures.add k)
    (failures.drop k)

def Failures.mac (failures : Failures) (env : SmackEnv κ ρ) : Mac (System κ × Nat) :=
  .script smackGetLabel fun k => smackMac env (failures.faults k) (failures.revert k)

/-- No call fails, and every check of a permission is positive. -/
def Failures.none : Failures where
  create _ := .none
  check _ _ _ := 1
  add _ := .none
  drop _ := .none
  faults _ := .none
  revert _ := .none

/-- What every set of answers abides by, the calls with answers that differ from call to call do. -/
theorem Abides.script {permgr : Nat → PermMgr σ} {mac : Nat → Mac σ} {getLabel : CStr → CStr}
    {R : Context → σ → σ → Prop} (hlabel : ∀ k, (mac k).getLabel = getLabel)
    (h : ∀ k, Abides (permgr k) (mac k) R) :
    Abides (.script permgr) (.script getLabel mac) fun context s s' => R context s.1 s'.1 where
  refl context s := (h 0).refl context s.1
  trans context _ _ _ := (h 0).trans context
  check context s label permission := (h s.2).check context s.1 label permission
  add context s hid := by
    have hadd := (h s.2).add context s.1 hid
    rwa [hlabel] at hadd
  drop context s hid := by
    have hdrop := (h s.2).drop context s.1 hid
    rwa [hlabel] at hdrop
  install context s := (h s.2).install context s.1
  uninstall context s := (h s.2).uninstall context s.1

/-- What Smack and cynagora abide by for all failures, they do for a script of failures. -/
theorem Failures.abides {R : Context → System κ → System κ → Prop} (failures : Failures)
    (env : SmackEnv κ ρ) (h : ∀ create check add drop faults revert,
      Abides (cynagoraItf create check add drop) (smackMac env faults revert) R) :
    Abides failures.permgr (failures.mac env) fun context s s' => R context s.1 s'.1 :=
  .script (fun _ => rfl) fun _ => h _ _ _ _ _ _

/-! ## What a context keeps -/

/-- The context of a new client is in order. -/
theorem contextCreate_held (mem : Nat → UInt8) : (contextCreate mem).Held :=
  ⟨.of_empty _ _, Context.run_idChars mem []⟩

/-- A context in order stays so when it accepts an operation. -/
theorem Context.Held.accepts {context context' : Context} {op : ContextOp} (h : context.Held)
    (ha : context.Accepts op context') : context'.Held := by
  refine ⟨h.inv.accepts ha, ?_⟩
  cases ha with
  | setId _ _ hid => exact h.chars.copied hid
  | clear => exact h.chars.cleared
  | _ => exact h.chars

/-- It stays so for any operation: one that is not accepted leaves it as it was. -/
theorem Context.Held.step {context : Context} (h : context.Held) (op : ContextOp) :
    (context.step op).2.Held :=
  Context.run_of_accepts (P := Context.Held) Context.Held.accepts h [op]

/-- What a reply makes of the context. -/
theorem Manager.reply_held (permgr : PermMgr σ) (mac : Mac σ) {m : Manager σ}
    (hheld : m.context.Held) (shows : Bool) (args : List CStr) :
    (m.reply permgr mac shows args).2.context.Held := by
  have hraise : ∀ {context : Context}, context.Held → (contextRaiseError context).Held :=
    fun h => h.step .raiseError
  have hconclude : ∀ {m : Manager σ}, m.context.Held → ∀ rc texts,
      (m.conclude rc texts).2.context.Held := by
    intro m hheld rc texts
    rw [Manager.conclude]
    split
    · exact hheld
    · exact hraise hheld
  rw [Manager.reply]
  split
  · exact hheld
  split
  · rename_i query _
    cases query with
    | hello | log => exact hheld
    | clear => exact hheld.step .clear
    | display =>
      simp only [Manager.serve, Manager.display]
      split
      · exact hheld
      · exact hraise hheld
    | install | uninstall =>
      refine hconclude ?_ _ _
      exact hheld
    | id id => exact hconclude (hheld.step (.setId id)) _ _
    | path path type => exact hconclude (hheld.step (.addPath (m.answers 0) path type)) _ _
    | permission permission =>
      exact hconclude (hheld.step (.addPermission (m.answers 0) permission)) _ _
    | plug expdir impid impdir =>
      exact hconclude (hheld.step (.addPlug (m.answers 0) expdir impid impdir)) _ _
  · exact hraise hheld

/-! ## Runs of the service -/

section
variable {permgr : PermMgr σ} {mac : Mac σ} {R : Context → σ → σ → Prop}

/-- What a session does keeps its context in order. -/
theorem Visit.Acts.held {p q : Visit × (σ × Bool)} (h : Visit.Acts permgr mac p q)
    (hheld : p.1.context.Held) : q.1.context.Held := by
  cases h with
  | skips => exact hheld
  | takes m shows rest => exact Manager.reply_held permgr mac hheld shows _

/-- What a session makes of the system abides by `R` for its context. -/
theorem Visit.Acts.abides (habides : Abides permgr mac R) {p q : Visit × (σ × Bool)}
    (h : Visit.Acts permgr mac p q) : R p.1.context p.2.1 q.2.1 := by
  cases h with
  | skips => exact habides.refl _ _
  | takes m shows rest => exact habides.reply m shows _

/-- The contexts of all sessions are in order, and the system has `Q`. -/
abbrev SessionsHeld (Q : σ → Prop) (s : Lib.Shared (Fin n) Visit (σ × Bool)) : Prop :=
  s.Each (fun visit => visit.context.Held) fun state => Q state.1

/-- A new server has no session. -/
theorem Server.create_held {Q : σ → Prop} (fd : Nat) {system : σ} (hsystem : Q system)
    (log : Bool) : SessionsHeld Q (Server.create fd system log : Server σ n).shared :=
  ⟨fun _ _ hvisit => (by cases hvisit), hsystem⟩

/-- What the acts of a session keep. -/
theorem Visit.Acts.keeps {Q : σ → Prop}
    (habides : Abides permgr mac fun context s s' => context.Held → Q s → Q s')
    {p q : Visit × (σ × Bool)} (h : Relation.ReflTransGen (Visit.Acts permgr mac) p q)
    (hp : p.1.context.Held ∧ Q p.2.1) : q.1.context.Held ∧ Q q.2.1 := by
  induction h with
  | refl => exact hp
  | tail _ hact ih => exact ⟨hact.held ih.1, hact.abides habides ih.1 ih.2⟩

/-- **What every request keeps, every run keeps**, and every context stays in order. -/
theorem service_keeps {Q : σ → Prop}
    (habides : Abides permgr mac fun context s s' => context.Held → Q s → Q s')
    {s s' : Lib.Shared (Fin n) Visit (σ × Bool)} {seen : List (Happening n)}
    (h : ServiceRun permgr mac s seen s') (hs : SessionsHeld Q s) : SessionsHeld Q s' := by
  have hhears : ∀ (visit : Visit) bytes, visit.context.Held →
      (visit.hears bytes).context.Held := fun _ _ hheld => hheld
  refine h.invariant ?_ hhears ?_ hs
  · rintro visit ⟨mem, rfl⟩
    exact contextCreate_held mem
  · intro visit state visit' state' hheld hs hacts
    exact ⟨hacts.held hheld, hacts.abides habides hheld hs⟩

end

/-! ## The system in a turn -/

namespace Server

variable {server : Server σ n}

/-- To stop does not touch the system. -/
theorem stop_system (server : Server σ n) (status : Int) :
    (server.stop status).system = server.system := by
  rw [stop]
  split <;> rfl

/-- Nor does the disconnection of a client. -/
theorem clientDisconnect_system (server : Server σ n) (idx : Fin n) :
    (server.clientDisconnect idx).system = server.system := by
  rw [clientDisconnect]
  split
  · rfl
  split <;> rfl

/-- Nor does it to drop one. -/
theorem drop_system (server : Server σ n) (ok : Bool) (idx : Fin n) :
    (server.drop ok idx).system = server.system :=
  clientDisconnect_system { server with poll := (pollitemDel ok _ server.poll).2 } idx

/-- Nor to disarm the listening socket. -/
theorem disarm_system (server : Server σ n) (env : TurnAnswers n) :
    (server.disarm env).system = server.system := by
  rw [disarm]
  dsimp only
  split
  · exact stop_system _ _
  · rfl

/-- Nor to accept a client. -/
theorem addClient_system (server : Server σ n) (env : TurnAnswers n) (idx : Fin n) (fd : Nat) :
    (server.addClient env idx fd).2.system = server.system := by
  rw [addClient]
  split
  · rfl
  dsimp only
  split
  · exact clientDisconnect_system _ idx
  · rfl

/-- Nor does any event on the listening socket. -/
theorem onServerEvent_system (server : Server σ n) (env : TurnAnswers n) (hup input : Bool) :
    (server.onServerEvent env hup input).system = server.system := by
  rw [onServerEvent]
  split
  · exact stop_system _ _
  split
  · rfl
  split
  · exact disarm_system _ _
  split
  · rfl
  have hadd := server.addClient_system env
  dsimp only
  split
  · exact hadd _ _
  split
  · exact hadd _ _
  · exact (disarm_system _ _).trans (hadd _ _)

/-- Nor does the sweep of the slots. -/
theorem sweep_system (server : Server σ n) (env : TurnAnswers n) (trig : Int) :
    (server.sweep env trig).1.system = server.system := by
  suffices hloop : ∀ (idxs : List (Fin n)) (r : Server σ n × Nat),
      (idxs.foldl (sweepClient env trig) r).1.system = r.1.system from hloop _ _
  intro idxs
  induction idxs with
  | nil => exact fun r => rfl
  | cons idx idxs ih =>
    intro r
    rw [List.foldl_cons, ih, sweepClient]
    dsimp only
    split
    · rfl
    have hgone : (if (r.1.clients idx).lasttime ≤ trig then r.1.clientDisconnect idx
        else r.1).system = r.1.system := by
      split
      · exact clientDisconnect_system _ _
      · rfl
    generalize (if (r.1.clients idx).lasttime ≤ trig then r.1.clientDisconnect idx
      else r.1) = swept at hgone ⊢
    split
    · exact hgone
    · exact (drop_system _ _ _).trans hgone

/-- What follows the wait in a turn does not touch the system. -/
theorem turn_system (permgr : PermMgr σ) (mac : Mac σ) (shutofftime : Int) (waited : Waited)
    (env : TurnAnswers n) (server : Server σ n) :
    (server.turn permgr mac shutofftime waited env).system =
      (server.waitDispatch permgr mac env waited).2.system := by
  rw [turn]
  generalize server.waitDispatch permgr mac env waited = r
  dsimp only
  split
  · exact stop_system _ _
  have hsweep := r.2.sweep_system env (if shutofftime < 0 then 0 else env.later - shutofftime)
  generalize r.2.sweep env (if shutofftime < 0 then 0 else env.later - shutofftime) = r'
    at hsweep ⊢
  split
  · exact (stop_system _ _).trans hsweep
  split
  · split
    · exact (stop_system _ _).trans hsweep
    · exact hsweep
  · exact hsweep

/-- The event of the turn is one of the client `idx`, which is attended. -/
structure Attends (server : Server σ n) (waited : Waited) (idx : Fin n) (client : Client σ) :
    Prop where
  event : ∃ fd input arms, waited = .event fd false input ∧
    server.poll fd = some ⟨arms, .client idx⟩
  client : (server.clients idx).client = some client

/-- **The system changes only by what a client does** that is attended in the turn. -/
theorem turn_changes (permgr : PermMgr σ) (mac : Mac σ) (shutofftime : Int) (waited : Waited)
    (env : TurnAnswers n) (server : Server σ n) :
    (server.turn permgr mac shutofftime waited env).system = server.system ∨
      ∃ idx client, server.Attends waited idx client ∧
        (server.turn permgr mac shutofftime waited env).system =
          (clientProcessInput permgr mac env.cuts (server.attended env client)).2.system := by
  rw [turn_system]
  cases waited with
  | timeout | interrupted | failed => exact .inl rfl
  | event fd hup input =>
    rw [waitDispatch]
    cases hpoll : server.poll fd with
    | none => exact .inl rfl
    | some registration =>
      obtain ⟨arms, item⟩ := registration
      cases item with
      | server => exact .inl (server.onServerEvent_system env hup input)
      | client idx =>
        simp only
        rw [onClientEvent]
        dsimp only
        cases hclient : (server.clients idx).client with
        | none => exact .inl rfl
        | some client =>
          cases hup with
          | true => exact .inl (server.drop_system env.delete idx)
          | false =>
            simp only [Bool.false_eq_true, if_false]
            rw [← attended]
            refine .inr ⟨idx, client, ⟨⟨fd, input, arms, rfl, hpoll⟩, hclient⟩, ?_⟩
            split
            · rfl
            · exact drop_system _ _ _

end Server

/-! ## Authors -/

/-- In the turn of the event `waited` a client takes a request, as `asker`: it came to be so in
this turn, and the turn goes on from what it is after the request. -/
def Server.Takes (permgr : PermMgr σ) (mac : Mac σ) (server : Server σ n) (waited : Waited)
    (env : TurnAnswers n) (asker : Client σ) : Prop :=
  ∃ idx client, server.Attends waited idx client ∧ asker.invalid = false ∧
    (server.attended env client).Moves permgr mac asker ∧
    (asker.take permgr mac).Moves permgr mac
      (clientProcessInput permgr mac env.cuts (server.attended env client)).2

/-- In one of the turns, a client takes a request for which `p` holds of its context, which is in
order, and of the system before and after the request. -/
def Server.Authored (permgr : PermMgr σ) (mac : Mac σ) (shutofftime : Int)
    (turns : List (Waited × TurnAnswers n)) (server : Server σ n)
    (p : Context → σ → σ → Prop) : Prop :=
  ∃ before turn after asker, turns = before ++ turn :: after ∧
    (server.run permgr mac shutofftime before).Takes permgr mac turn.1 turn.2 asker ∧
    asker.context.Held ∧ p asker.context asker.system (asker.take permgr mac).system

section
variable {permgr : PermMgr σ} {mac : Mac σ} {R : Context → σ → σ → Prop} {shutofftime : Int}
  {turns : List (Waited × TurnAnswers n)} {server : Server σ n}

/-- What was authored with `p` was authored with anything that follows from `p`. -/
theorem Server.Authored.mono {p q : Context → σ → σ → Prop}
    (h : server.Authored permgr mac shutofftime turns p)
    (hpq : ∀ context t t', p context t t' → q context t t') :
    server.Authored permgr mac shutofftime turns q := by
  obtain ⟨before, turn, after, asker, hturns, htakes, hheld, hp⟩ := h
  exact ⟨before, turn, after, asker, hturns, htakes, hheld, hpq _ _ _ hp⟩

/-- What a client makes of the system when it takes a request. -/
theorem Abides.take (habides : Abides permgr mac R) {c : Client σ} (hlive : c.Live)
    (hvalid : c.invalid = false) : R c.context c.system (c.take permgr mac).system := by
  obtain ⟨q, b, hidle, hpend⟩ := hlive
  obtain ⟨-, -, -, -, -, -, hview, -⟩ | ⟨-, line, -, shows, -, -, -, -, -, -, -, -, -, hview, -⟩ :=
    Client.take_manages permgr mac hidle hpend hvalid
  · have hsame : (c.take permgr mac).system = c.system := congrArg Manager.system hview
    rw [hsame]
    exact habides.refl _ _
  · have hreply : (c.take permgr mac).system =
        (c.view.reply permgr mac shows (report line)).2.system := congrArg Manager.system hview
    rw [hreply]
    exact habides.reply c.view shows _

/-- **What a run changes, a request of the run changed**: the last change is made when a client of
the server takes a request, and it is one that the requests make for its context, in a state that
has what they keep. -/
theorem Server.run_changes {Q : σ → Prop} (habides : Abides permgr mac R)
    (hkeeps : ∀ context t t', R context t t' → Q t → Q t') (f : σ → δ) (hlive : server.Live)
    (hs : SessionsHeld Q server.shared)
    (hne : f (server.run permgr mac shutofftime turns).system ≠ f server.system) :
    server.Authored permgr mac shutofftime turns fun context t t' =>
      Q t ∧ R context t t' ∧ f t' ≠ f t ∧
        f t' = f (server.run permgr mac shutofftime turns).system := by
  obtain ⟨before, turn, after, hturns, hchange, hlast⟩ :=
    Lib.exists_last_change_foldl _ (fun server => f server.system) server hne
  have hbefore := Server.Serves.turns permgr mac hlive shutofftime before
  have hheld := service_keeps (habides.keeps hkeeps) hbefore.run hs
  have hlive' := hbefore.live
  refine ⟨before, turn, after, ?_⟩
  rw [← Server.run] at hchange hlast
  generalize server.run permgr mac shutofftime before = server₁ at hchange hlast hheld hlive' ⊢
  obtain hsame | ⟨idx, client, hattends, hsystem⟩ :=
    server₁.turn_changes permgr mac shutofftime turn.1 turn.2
  · exact absurd (congrArg f hsame) hchange
  have hattended : (server₁.attended turn.2 client).Live := hlive' idx client hattends.client
  have hmoves := clientProcessInput_moves permgr mac turn.2.cuts
    (server₁.attended turn.2 client)
  -- the last change in the turn
  rw [hsystem] at hchange hlast
  obtain ⟨asker, next, hasks, hmove, hrest, hchange', hlast'⟩ :=
    Lib.exists_last_change (fun c : Client σ => f c.system) hmoves hchange
  obtain ⟨hasker, hacts⟩ := hattended.moves hasks
  cases hmove with
  | read cut =>
    refine absurd (congrArg f ?_) hchange'
    cases cut <;> rfl
  | take hvalid =>
    have hstart : client.context.Held ∧ Q server₁.system :=
      ⟨hheld.1 idx client.split.1 (Server.shared_session hattends.client), hheld.2⟩
    obtain ⟨hheld', hq⟩ := Visit.Acts.keeps (habides.keeps hkeeps) hacts hstart
    exact ⟨asker, hturns, ⟨idx, client, hattends, hvalid, hasks, hrest⟩, hheld', hq,
      habides.take hasker hvalid, hchange', hlast'.trans hlast⟩

end

end SecLsmManager
