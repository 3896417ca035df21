import SecLsmManager.Client.Requests
import SecLsmManager.Context.Admission

/-!
# Sessions

A session is the sequence of the requests that `onrequest` handles. The error flag of the context
locks it: a request under the flag leaves the context and the system alone
(`Client.Locked.onrequest`), and so does a session without a clear. The calls to the permission
manager and to the security module are recorded in the system.
-/

namespace SecLsmManager

variable {σ : Type*} {permgr : PermMgr σ} {mac : Mac σ}

/-- The client after the requests, each given by its fields. -/
def Client.session (permgr : PermMgr σ) (mac : Mac σ) (client : Client σ)
    (requests : List (List CStr)) : Client σ :=
  requests.foldl (onrequest permgr mac) client

/-! ## The records of a request -/

/-- A record keyed `error`. -/
def IsError (fields : List CStr) : Prop := fields.head? = some wordError

/-- From `c` to `c'` records are emitted, and if there is an error among them the flag is up. -/
structure Flags (c c' : Client σ) (q q' : List UInt8) (rs : List (List CStr)) : Prop where
  puts : Puts c c' q q' rs
  nonempty : [] ∉ rs
  flag : (∃ fields ∈ rs, IsError fields) → c'.context.errorFlag = true

/-- The end of a reply is a record. -/
theorem IsEnd.ne_nil {flag : Bool} {fields : List CStr} (h : IsEnd flag fields) : fields ≠ [] := by
  cases h with
  | done arg => exact List.cons_ne_nil _ _
  | error hf ht => exact List.cons_ne_nil _ _

/-- An error is only reported with the flag raised. -/
theorem IsEnd.flag {flag : Bool} {fields : List CStr} (h : IsEnd flag fields)
    (he : IsError fields) : flag = true := by
  cases h with
  | done arg => exact absurd (Option.some.inj he) wordDone_ne_wordError
  | error hf ht => exact hf

/-- A reply keyed `error` raises the flag. -/
theorem Replied.flags {c c' : Client σ} {query : Query} {q q' : List UInt8}
    {strings ends : List (List CStr)} (h : Replied c c' query q q' strings ends) :
    Flags c c' q q' (strings ++ ends) := by
  have hends : ∀ fields ∈ ends, IsEnd c'.context.errorFlag fields := by
    intro fields hf
    obtain rfl | ⟨last, rfl, hk⟩ := h.kind
    · cases hf
    · rwa [List.mem_singleton.1 hf]
  refine ⟨h.puts, fun hnil => ?_, ?_⟩
  · obtain hs | he := List.mem_append.1 hnil
    · cases h.keyed _ hs
    · exact (hends _ he).ne_nil rfl
  · rintro ⟨fields, hf, he⟩
    obtain hs | hm := List.mem_append.1 hf
    · have hkey := (h.keyed _ hs).symm.trans he
      exact absurd (Option.some.inj hkey) wordString_ne_wordError
    · exact (hends _ hm).flag he

/-- **What a request emits.** -/
theorem onrequest_flags (permgr : PermMgr σ) (mac : Mac σ) {c : Client σ} {q : List UInt8}
    (h : OutIdle c.prot q) (args : List CStr) :
    ∃ q' rs, Flags c (onrequest permgr mac c args) q q' rs := by
  cases args with
  | nil => exact ⟨q, [], .refl h, List.not_mem_nil, fun ⟨_, hf, _⟩ => absurd hf List.not_mem_nil⟩
  | cons key args =>
    obtain ⟨query, -, hserve⟩ | ⟨-, version, hinvalid⟩ :=
      onrequest_cases permgr mac c (List.cons_ne_nil key args)
    · obtain ⟨q', strings, ends, hr⟩ := serve_replied permgr mac (c := c.started) h query
      rw [hserve]
      have hf := hr.flags
      exact ⟨q', _, ⟨hf.puts.idle, hf.puts.stream, hf.puts.same, hf.puts.accepting⟩, hf.nonempty,
        hf.flag⟩
    · obtain ⟨q', ends, hp, hends, -, hcore⟩ := invalidProtocol_spec (c := { c with version }) h
      rw [hinvalid]
      refine ⟨q', ends, ⟨hp.idle, hp.stream, hp.same, hp.accepting⟩, fun hnil => ?_, fun _ => ?_⟩
      · obtain rfl | rfl := hends
        · cases List.mem_singleton.1 hnil
        · cases hnil
      · rw [hcore.context]
        rfl

/-- A session emits records and keeps the channel as it is. -/
theorem session_puts (permgr : PermMgr σ) (mac : Mac σ) {c : Client σ} {q : List UInt8}
    (h : OutIdle c.prot q) (requests : List (List CStr)) :
    ∃ q' rs, Puts c (c.session permgr mac requests) q q' rs := by
  induction requests generalizing c q with
  | nil => exact ⟨q, [], .refl h⟩
  | cons args requests ih =>
    obtain ⟨q₁, rs₁, hf⟩ := onrequest_flags permgr mac h args
    obtain ⟨q₂, rs₂, hp⟩ := ih hf.puts.idle
    exact ⟨q₂, rs₁ ++ rs₂, hf.puts.trans hp⟩

/-! ## The lock -/

/-- The requests that act on the context or on the system. -/
def Query.IsOperation : Query → Prop
  | .install | .uninstall | .id _ | .path _ _ | .permission _ | .plug _ _ _ => True
  | _ => False

/-- No operation is a clear. -/
theorem Query.IsOperation.not_clear {q : Query} (h : q.IsOperation) : q.fields ≠ [wordClear] := by
  cases q with
  | install => decide
  | uninstall => decide
  | id _ => exact fun h => by cases h
  | path _ _ => exact fun h => by cases h
  | permission _ => exact fun h => by cases h
  | plug _ _ _ => exact fun h => by cases h
  | hello _ _ => cases h
  | clear => cases h
  | display => cases h
  | log _ => cases h

/-- The text of the errors under the lock. -/
def notRecoverableError : List CStr := [wordError, .lit "not-recoverable"]

/-- Under the flag, the context refuses each operation. -/
theorem Context.refuses {context : Context} (h : context.errorFlag = true) :
    (∀ id, contextSetId context id = (-ENOTRECOVERABLE, context)) ∧
    (∀ answers path type, contextAddPath answers context path type = (-ENOTRECOVERABLE, context)) ∧
    (∀ answers perm, contextAddPermission answers context perm = (-ENOTRECOVERABLE, context)) ∧
    (∀ answers expdir impid impdir,
      contextAddPlug answers context expdir impid impdir = (-ENOTRECOVERABLE, context)) ∧
    checkContext context = -ENOTRECOVERABLE := by
  refine ⟨fun id => ?_, fun a p t => ?_, fun a p => ?_, fun a e i d => ?_, ?_⟩
  · rw [contextSetId, if_pos h]
  · rw [contextAddPath, if_pos h]
  · rw [contextAddPermission, if_pos h]
  · rw [contextAddPlug, if_pos h]
  · rw [checkContext, if_pos h]

/-- The status of a refused operation. -/
theorem sendStatus_notRecoverable (c : Client σ) {texts : ErrorTexts}
    (h : texts.head? = some notRecoverable) :
    sendStatus c (-ENOTRECOVERABLE) texts = sendError c (.lit "not-recoverable") := by
  obtain ⟨rest, rfl⟩ := List.head?_eq_some_iff.1 h
  rw [sendStatus, if_neg (Int.not_le.2 notRecoverable_neg)]
  congr 1

/-- **A refused operation** replies the error and takes its answers, nothing else. -/
theorem serve_refused (permgr : PermMgr σ) (mac : Mac σ) {c : Client σ}
    (h : c.context.errorFlag = true) {query : Query} (hq : query.IsOperation) :
    ∃ answers, c.serve permgr mac query =
      sendError { c with answers } (.lit "not-recoverable") := by
  obtain ⟨hid, hpath, hperm, hplug, hcheck⟩ := Context.refuses h
  have hneg : checkContext c.context < 0 := hcheck ▸ notRecoverable_neg
  cases query with
  | install =>
    refine ⟨c.answers, ?_⟩
    simp only [Client.serve, onInstall, actionInstall_of_checkContext _ _ hneg, hcheck]
    exact sendStatus_notRecoverable c rfl
  | uninstall =>
    refine ⟨c.answers, ?_⟩
    simp only [Client.serve, onUninstall, actionUninstall_of_checkContext _ _ hneg, hcheck]
    exact sendStatus_notRecoverable c rfl
  | id appid =>
    refine ⟨c.answers, ?_⟩
    simp only [Client.serve, onId, hid]
    exact sendStatus_notRecoverable c rfl
  | path p type =>
    refine ⟨fun n => c.answers (n + 1), ?_⟩
    simp only [Client.serve, onPath, Client.nextAnswers, hpath]
    exact sendStatus_notRecoverable _ rfl
  | permission perm =>
    refine ⟨fun n => c.answers (n + 1), ?_⟩
    simp only [Client.serve, onPermission, Client.nextAnswers, hperm]
    exact sendStatus_notRecoverable _ rfl
  | plug expdir impid impdir =>
    refine ⟨fun n => c.answers (n + 1), ?_⟩
    simp only [Client.serve, onPlug, Client.nextAnswers, hplug]
    exact sendStatus_notRecoverable _ rfl
  | hello _ _ => cases hq
  | clear => cases hq
  | display => cases hq
  | log _ => cases hq

/-- `c'` has the context and the system of `c`, whose error flag is up. -/
structure Client.Locked (c c' : Client σ) : Prop where
  flag : c.context.errorFlag = true
  context : c'.context = c.context
  system : c'.system = c.system

/-- A flag that is raised stays. -/
theorem contextRaiseError_of_flag {context : Context} (h : context.errorFlag = true) :
    contextRaiseError context = context := by
  rw [contextRaiseError, ← h]

/-- A client that is locked over two steps. -/
theorem Client.Locked.trans {c c' c'' : Client σ} (h : c.Locked c') (h' : c'.Locked c'') :
    c.Locked c'' :=
  ⟨h.flag, h'.context.trans h.context, h'.system.trans h.system⟩

/-- To report an error leaves it locked. -/
theorem Client.Locked.sendError {c : Client σ} {q : List UInt8} (h : OutIdle c.prot q)
    (hf : c.context.errorFlag = true) (text : CStr) : c.Locked (sendError c text) := by
  obtain ⟨-, -, -, hcore, -⟩ := sendError_spec h text
  refine ⟨hf, ?_, hcore.system⟩
  rw [hcore.context]
  exact contextRaiseError_of_flag hf

/-- So does an acknowledgement. -/
theorem Client.Locked.sendDone {c : Client σ} {q : List UInt8} (h : OutIdle c.prot q)
    (hf : c.context.errorFlag = true) (arg : Option CStr) : c.Locked (sendDone c arg) := by
  obtain ⟨-, -, -, hcore, -⟩ := sendDone_spec h arg
  exact ⟨hf, hcore.context, hcore.system⟩

/-- A query other than clear leaves the context and the system alone under the flag. -/
theorem Client.Locked.serve (permgr : PermMgr σ) (mac : Mac σ) {c : Client σ} {q : List UInt8}
    (h : OutIdle c.prot q) (hf : c.context.errorFlag = true) {query : Query} (hq : query ≠ .clear) :
    c.Locked (c.serve permgr mac query) := by
  have refused : query.IsOperation → c.Locked (c.serve permgr mac query) := by
    intro hop
    obtain ⟨answers, heq⟩ := serve_refused permgr mac hf hop
    obtain ⟨-, hcontext, hsystem⟩ :=
      Client.Locked.sendError (c := { c with answers }) h hf (.lit "not-recoverable")
    rw [heq]
    exact ⟨hf, hcontext, hsystem⟩
  cases query with
  | hello versions hv => exact .sendDone h hf _
  | clear => exact absurd rfl hq
  | display =>
    obtain ⟨q₁, rs, hv⟩ := sendDisplay_spec h
    have hp := hv.puts
    have hcore := hv.core
    have hf₁ : (sendDisplay c).2.context.errorFlag = true := hcore.context ▸ hf
    have hdisplay : c.Locked (sendDisplay c).2 := ⟨hf, hcore.context, hcore.system⟩
    refine hdisplay.trans ?_
    simp only [Client.serve, onDisplay]
    split
    · exact .sendDone hp.idle hf₁ _
    · exact .sendError hp.idle hf₁ _
  | log setlog =>
    obtain ⟨-, hcontext, hsystem⟩ :=
      Client.Locked.sendDone h hf
        (some (if (onLog c (setlog.map onOff)).serverLog then wordOn else wordOff))
    exact ⟨hf, hcontext, hsystem⟩
  | install => exact refused trivial
  | uninstall => exact refused trivial
  | id _ => exact refused trivial
  | path _ _ => exact refused trivial
  | permission _ => exact refused trivial
  | plug _ _ _ => exact refused trivial

/-- **A request under the flag.** -/
theorem Client.Locked.onrequest (permgr : PermMgr σ) (mac : Mac σ) {c : Client σ}
    {q : List UInt8} (h : OutIdle c.prot q) (hf : c.context.errorFlag = true) {args : List CStr}
    (hargs : args ≠ [wordClear]) :
    c.Locked (onrequest permgr mac c args) := by
  cases args with
  | nil => exact ⟨hf, rfl, rfl⟩
  | cons key args =>
    obtain ⟨query, hq, hserve⟩ | ⟨-, version, hinvalid⟩ :=
      onrequest_cases permgr mac c (List.cons_ne_nil key args)
    · have hclear : query ≠ .clear := by
        rintro rfl
        exact hargs hq.fields
      obtain ⟨-, hcontext, hsystem⟩ :=
        Client.Locked.serve permgr mac (c := c.started) h hf hclear
      rw [hserve]
      exact ⟨hf, hcontext, hsystem⟩
    · obtain ⟨-, hcontext, hsystem⟩ :=
        Client.Locked.sendError (c := { c with version }) h hf (.lit "protocol")
      rw [hinvalid]
      exact ⟨hf, hcontext, hsystem⟩

/-- **A session under the flag**, as long as no clear comes. -/
theorem Client.Locked.session {c : Client σ} {q : List UInt8} (h : OutIdle c.prot q)
    (hf : c.context.errorFlag = true) {requests : List (List CStr)}
    (hno : [wordClear] ∉ requests) : c.Locked (c.session permgr mac requests) := by
  induction requests generalizing c q with
  | nil => exact ⟨hf, rfl, rfl⟩
  | cons args requests ih =>
    obtain ⟨hargs, hrest⟩ := not_or.1 (List.mem_cons.not.1 hno)
    obtain ⟨q', rs, hp⟩ := onrequest_flags permgr mac h args
    have hstep := Client.Locked.onrequest permgr mac h hf (Ne.symm hargs)
    exact hstep.trans (ih hp.puts.idle (hstep.context ▸ hf) hrest)

/-! ## Main result -/

/-- The line `clear` is served as such, greeted or not. -/
theorem onrequest_clear (c : Client σ) :
    onrequest permgr mac c [wordClear] = onClear c.started :=
  onrequest_query (q := .clear) ⟨by decide, rfl, fun h => absurd h id⟩

/-- A clear takes the flag down. -/
theorem onrequest_clear_flag {c : Client σ} {q : List UInt8} (h : OutIdle c.prot q) :
    (onrequest permgr mac c [wordClear]).context.errorFlag = false := by
  obtain ⟨-, -, -, hcore, -⟩ := sendDone_spec
    (c := { c.started with context := contextClear c.started.context }) h none
  rw [onrequest_clear, onClear, hcore.context]
  rfl

/-- The reply to an operation under the flag. -/
theorem onrequest_refused (permgr : PermMgr σ) (mac : Mac σ) {c : Client σ} {q : List UInt8}
    (h : OutIdle c.prot q) (hf : c.context.errorFlag = true) {args : List CStr} {query : Query}
    (hr : Receives c args query) (hq : query.IsOperation) :
    ∃ rs, Emits c (onrequest permgr mac c args) rs ∧ (rs = [notRecoverableError] ∨ rs = []) ∧
      (c.Accepting → rs = [notRecoverableError]) := by
  have hfits : Fits notRecoverableError := by decide +kernel
  obtain ⟨answers, heq⟩ := serve_refused permgr mac (c := c.started) hf hq
  obtain ⟨q', rs, hp, -, hrs, hacc⟩ :=
    sendError_spec (c := { c.started with answers }) h (.lit "not-recoverable")
  rw [onrequest_query hr, heq]
  exact ⟨rs, hp.emits h, hrs, fun ha => (hacc ha).2 hfits⟩

/-- **The error flag is a lock.** In every session: a request that emits a record keyed `error`
leaves the flag up. Once it is up, and as long as no clear comes, the context stays as it is and no
call is made; an operation is then answered by the error not-recoverable, if the channel accepts,
and by nothing else. A clear takes the flag down. -/
theorem error_flag_locks (permgr : PermMgr σ) (mac : Mac σ) (mem : ProtMem)
    (idmem : Nat → UInt8) (system : σ) (serverLog : Bool) (answers : Nat → Answers)
    (writes : List OutAnswer) (input : List UInt8) (before : List (List CStr)) :
    let c := (clientCreate mem idmem (system, []) serverLog answers writes input).session
      permgr.recorded mac.recorded before
    (∀ args rs, [] ∉ rs → Emits c (c.session permgr.recorded mac.recorded [args]) rs →
      (∃ fields ∈ rs, IsError fields) →
      (c.session permgr.recorded mac.recorded [args]).context.errorFlag = true) ∧
    (c.context.errorFlag = true → ∀ after, [wordClear] ∉ after →
      let d := c.session permgr.recorded mac.recorded after
      d.context = c.context ∧ d.system = c.system ∧
      ∀ args query, Receives d args query → query.IsOperation →
        let e := d.session permgr.recorded mac.recorded [args]
        e.context = c.context ∧ e.system = c.system ∧
        ∃ rs, Emits d e rs ∧ (rs = [notRecoverableError] ∨ rs = []) ∧
          ((∀ answer ∈ writes, answer.Accepts) → rs = [notRecoverableError])) ∧
    (c.session permgr.recorded mac.recorded [[wordClear]]).context.errorFlag = false := by
  intro c
  have h₀ : OutIdle (protReset mem) [] := outIdle_protReset mem
  obtain ⟨q, rs₀, hp⟩ := session_puts permgr.recorded mac.recorded
    (c := clientCreate mem idmem (system, []) serverLog answers writes input) h₀ before
  have hc : OutIdle c.prot q := hp.idle
  refine ⟨fun args rs hrs hemits herror => ?_, fun hflag after hafter => ?_, ?_⟩
  · obtain ⟨q', rs', hf⟩ := onrequest_flags permgr.recorded mac.recorded hc args
    have heq : rs = rs' := hemits.unique (hf.puts.emits hc) hrs hf.nonempty
    exact hf.flag (heq ▸ herror)
  · intro d
    have hlock : c.Locked d := .session hc hflag hafter
    obtain ⟨q', rs', hp'⟩ := session_puts permgr.recorded mac.recorded hc after
    have hd : d.context.errorFlag = true := hlock.context ▸ hflag
    refine ⟨hlock.context, hlock.system, fun args query hr hq => ?_⟩
    intro e
    have hargs : args ≠ [wordClear] := by
      rintro rfl
      exact hq.not_clear hr.fields.symm
    have hstep : d.Locked e := .onrequest permgr.recorded mac.recorded hp'.idle hd hargs
    obtain ⟨rs, he, hrs, hacc⟩ :=
      onrequest_refused permgr.recorded mac.recorded hp'.idle hd hr hq
    exact ⟨hstep.context.trans hlock.context, hstep.system.trans hlock.system, rs, he, hrs,
      fun ha => hacc (hp'.accepting (hp.accepting ha))⟩
  · exact onrequest_clear_flag hc

/-- A client that has nothing to read and a channel that accepts all. -/
def Client.fresh : Client (Unit × List Call) :=
  clientCreate ⟨fun _ => 0, fun _ => 0, fun _ => 0⟩ (fun _ => 0) ((), []) false
    (fun _ => .plain) [] []

/-- An id that is too short, and an installation after a display. -/
theorem error_flag_locks_install :
    let c := Client.fresh.session PermMgr.idle.recorded Mac.idle.recorded [[wordId, .lit "x"]]
    let d := c.session PermMgr.idle.recorded Mac.idle.recorded [[wordDisplay]]
    c.context.errorFlag = true ∧
    Emits d (d.session PermMgr.idle.recorded Mac.idle.recorded [[wordInstall]])
      [notRecoverableError] := by
  have lock := error_flag_locks .idle .idle ⟨fun _ => 0, fun _ => 0, fun _ => 0⟩ (fun _ => 0) ()
    false (fun _ => .plain) [] [] [[wordId, .lit "x"]]
  have hemits : Emits Client.fresh (Client.fresh.session PermMgr.idle.recorded Mac.idle.recorded
      [[wordId, .lit "x"]]) [[wordError, .lit "invalid"]] := by
    unfold Emits
    decide +kernel
  have hflag := (error_flag_locks .idle .idle ⟨fun _ => 0, fun _ => 0, fun _ => 0⟩ (fun _ => 0) ()
    false (fun _ => .plain) [] [] []).1 [wordId, .lit "x"] _ (by decide) hemits
    ⟨_, List.mem_singleton_self _, rfl⟩
  refine ⟨hflag, ?_⟩
  obtain ⟨-, -, rs, h1, -, h2⟩ := (lock.2.1 hflag [[wordDisplay]] (by decide)).2.2 [wordInstall]
    .install ⟨by decide, rfl, fun h => absurd h id⟩ trivial
  exact h2 (fun _ h => absurd h List.not_mem_nil) ▸ h1

end SecLsmManager
