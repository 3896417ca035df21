import SecLsmManager.Client.Session

/-!
# What the requests do to the context

The queries that set properties are the operations of the context, and their replies are the
status of these (`serve_operation`). A session runs operations on its context, with texts that
passed `is_utf8` and the answers it was given (`session_operates`).
-/

namespace SecLsmManager

variable {σ : Type*}

/-! ## Statuses -/

/-- The plain acknowledgement fits in a record. -/
theorem done_fits : Fits [wordDone] := by decide +kernel

/-- Success is answered done, if the channel accepts. -/
theorem sendStatus_done {c : Client σ} {q : List UInt8} (h : OutIdle c.prot q) (ha : c.Accepting)
    {rc : Int} (hrc : rc ≥ 0) (texts : ErrorTexts) :
    (∃ q', Puts c (sendStatus c rc texts) q q' [[wordDone]]) ∧
      c.SameCore (sendStatus c rc texts) := by
  obtain ⟨q', rs, hputs, hcore, -, hacc⟩ := sendDone_spec h none
  have hrs := (hacc ha).2 done_fits
  rw [sendStatus, if_pos hrc]
  exact ⟨⟨q', hrs ▸ hputs⟩, hcore⟩

/-- A status leaves the client as it is, but for the output and for the error flag. -/
theorem sendStatus_core {c : Client σ} {q : List UInt8} (h : OutIdle c.prot q) (rc : Int)
    (texts : ErrorTexts) :
    { c with context := if rc ≥ 0 then c.context else contextRaiseError c.context }.SameCore
      (sendStatus c rc texts) := by
  cases lt_or_ge rc 0 with
  | inl hrc =>
    obtain ⟨-, -, -, hcore, -⟩ := sendError_spec h (errtxt texts rc)
    rwa [sendStatus, if_neg (Int.not_le.2 hrc), if_neg (Int.not_le.2 hrc)]
  | inr hrc =>
    obtain ⟨-, -, -, hcore, -⟩ := sendDone_spec h none
    rwa [sendStatus, if_pos hrc, if_pos hrc]

/-! ## Operations -/

/-- The operation of the context that a query is. -/
def Query.operation (answers : Answers) : Query → Option ContextOp
  | .clear => some .clear
  | .id appid => some (.setId appid)
  | .path p type => some (.addPath answers p type)
  | .permission perm => some (.addPermission answers perm)
  | .plug expdir impid impdir => some (.addPlug answers expdir impid impdir)
  | .hello _ _ | .display | .install | .uninstall | .log _ => none

section
variable (permgr : PermMgr σ) (mac : Mac σ)

/-- **A query that is an operation** replies the status of the operation. -/
theorem serve_operation {c : Client σ} {query : Query} {op : ContextOp}
    (hop : query.operation (c.answers 0) = some op) :
    ∃ answers texts, (∀ n, ∃ m, answers n = c.answers m) ∧ c.serve permgr mac query =
      sendStatus { c with context := (c.context.step op).2, answers } (c.context.step op).1
        texts := by
  have next : ∀ n, ∃ m, c.answers (n + 1) = c.answers m := fun n => ⟨n + 1, rfl⟩
  cases query with
  | clear =>
    cases hop
    exact ⟨c.answers, [], fun n => ⟨n, rfl⟩, rfl⟩
  | id appid =>
    cases hop
    exact ⟨c.answers, idTexts, fun n => ⟨n, rfl⟩, rfl⟩
  | path p type =>
    cases hop
    exact ⟨fun n => c.answers (n + 1), pathTexts, next, rfl⟩
  | permission perm =>
    cases hop
    exact ⟨fun n => c.answers (n + 1), permissionTexts, next, rfl⟩
  | plug expdir impid impdir =>
    cases hop
    exact ⟨fun n => c.answers (n + 1), plugTexts, next, rfl⟩
  | _ => cases hop

/-- An operation that succeeds is answered done, if the channel accepts. -/
theorem serve_done {c : Client σ} {q : List UInt8} (h : OutIdle c.prot q) (ha : c.Accepting)
    {query : Query} {op : ContextOp} (hop : query.operation (c.answers 0) = some op)
    (hrc : (c.context.step op).1 ≥ 0) :
    (∃ q', Puts c (c.serve permgr mac query) q q' [[wordDone]]) ∧
      (c.serve permgr mac query).context = (c.context.step op).2 ∧
      ∀ n, ∃ m, (c.serve permgr mac query).answers n = c.answers m := by
  obtain ⟨answers, texts, hfrom, heq⟩ := serve_operation permgr mac hop
  obtain ⟨⟨q', hputs⟩, hcore⟩ := sendStatus_done
    (c := { c with context := (c.context.step op).2, answers }) h ha hrc texts
  rw [heq]
  exact ⟨⟨q', hputs.idle, hputs.stream, hputs.same, hputs.accepting⟩, hcore.context,
    fun n => hcore.answers ▸ hfrom n⟩

/-! ## Sessions -/

/-- An operation of a session: it raises the error flag, or it is a query whose texts passed
`is_utf8`, with some of the given answers. -/
inductive ContextOp.Served (answers : Nat → Answers) : ContextOp → Prop
  | raiseError : Served answers .raiseError
  | query {query : Query} {n : Nat} {op : ContextOp} : checkUtf8 query.fields = true →
      query.operation (answers n) = some op → Served answers op

/-- An operation served from some answers is served from more. -/
theorem ContextOp.Served.mono {answers answers' : Nat → Answers} {op : ContextOp}
    (h : op.Served answers') (hfrom : ∀ n, ∃ m, answers' n = answers m) : op.Served answers := by
  cases h with
  | raiseError => exact .raiseError
  | @query _ n _ hu hop =>
    obtain ⟨m, hm⟩ := hfrom n
    exact .query hu (hm ▸ hop)

/-- The client `c'` has the context of `c` after operations of a session. -/
structure Client.Operates (c c' : Client σ) (ops : List ContextOp) : Prop where
  context : c'.context = c.context.run ops
  served : ∀ op ∈ ops, op.Served c.answers
  answers : ∀ n, ∃ m, c'.answers n = c.answers m

/-- The operations of two parts of a session, one after the other. -/
theorem Client.Operates.trans {c c' c'' : Client σ} {ops ops' : List ContextOp}
    (h : c.Operates c' ops) (h' : c'.Operates c'' ops') : c.Operates c'' (ops ++ ops') where
  context := by
    rw [h'.context, h.context]
    exact List.foldl_append.symm
  served := fun op hop => by
    obtain hop | hop := List.mem_append.1 hop
    · exact h.served op hop
    · exact (h'.served op hop).mono h.answers
  answers := fun n => by
    obtain ⟨m, hm⟩ := h'.answers n
    obtain ⟨k, hk⟩ := h.answers m
    exact ⟨k, hm.trans hk⟩

/-- What keeps the core operates nothing. -/
theorem Client.SameCore.operates {c c' : Client σ} (h : c.SameCore c') : c.Operates c' [] :=
  ⟨h.context, nofun, fun n => ⟨n, congrFun h.answers n⟩⟩

/-- What reports an error raises the flag. -/
theorem Client.SameCore.raises {c c' : Client σ}
    (h : { c with context := contextRaiseError c.context }.SameCore c') :
    c.Operates c' [.raiseError] := by
  refine ⟨h.context, fun op hop => ?_, fun n => ⟨n, congrFun h.answers n⟩⟩
  rw [List.mem_singleton.1 hop]
  exact .raiseError

/-- A status raises the error flag or not. -/
theorem sendStatus_operates {c : Client σ} {q : List UInt8} (h : OutIdle c.prot q) (rc : Int)
    (texts : ErrorTexts) : ∃ ops, c.Operates (sendStatus c rc texts) ops := by
  have hcore := sendStatus_core h rc texts
  split at hcore
  · exact ⟨_, hcore.operates⟩
  · exact ⟨_, hcore.raises⟩

/-- A query that is served is some operations of its context. -/
theorem serve_operates {c : Client σ} {q : List UInt8} (h : OutIdle c.prot q) {query : Query}
    (hu : checkUtf8 query.fields = true) :
    ∃ ops, c.Operates (c.serve permgr mac query) ops := by
  -- the queries that are operations
  have operation : ∀ op, query.operation (c.answers 0) = some op →
      ∃ ops, c.Operates (c.serve permgr mac query) ops := by
    intro op hop
    obtain ⟨answers, texts, hfrom, heq⟩ := serve_operation permgr mac hop
    obtain ⟨ops, hops⟩ := sendStatus_operates
      (c := { c with context := (c.context.step op).2, answers }) h (c.context.step op).1 texts
    refine ⟨op :: ops, ?_⟩
    rw [heq]
    have hstep : c.Operates { c with context := (c.context.step op).2, answers } [op] :=
      ⟨rfl, fun _ hm => List.mem_singleton.1 hm ▸ .query hu hop, hfrom⟩
    exact hstep.trans hops
  cases query with
  | hello versions hv =>
    obtain ⟨-, -, -, hcore, -⟩ := sendDone_spec h (some PROTOCOL_VERSION_1_STRING)
    exact ⟨_, hcore.operates⟩
  | display =>
    obtain ⟨q₁, rs, hv⟩ := sendDisplay_spec h
    have hend := sendStatus_operates hv.puts.idle (sendDisplay c).1 []
    obtain ⟨ops, hops⟩ := hend
    exact ⟨_, hv.core.operates.trans hops⟩
  | install =>
    obtain ⟨ops, hops⟩ := sendStatus_operates
      (c := { c with system := (actionInstall permgr mac c.context c.system).2 }) h
      (actionInstall permgr mac c.context c.system).1 installTexts
    exact ⟨ops, hops.context, hops.served, hops.answers⟩
  | uninstall =>
    obtain ⟨ops, hops⟩ := sendStatus_operates
      (c := { c with system := (actionUninstall permgr mac c.context c.system).2 }) h
      (actionUninstall permgr mac c.context c.system).1 uninstallTexts
    exact ⟨ops, hops.context, hops.served, hops.answers⟩
  | log setlog =>
    obtain ⟨-, -, -, hcore, -⟩ := sendDone_spec h
      (some (if (onLog c (setlog.map onOff)).serverLog then wordOn else wordOff))
    have hops := hcore.operates
    exact ⟨_, hops.context, hops.served, hops.answers⟩
  | clear => exact operation _ rfl
  | id _ => exact operation _ rfl
  | path _ _ => exact operation _ rfl
  | permission _ => exact operation _ rfl
  | plug _ _ _ => exact operation _ rfl

/-- So is any line. -/
theorem onrequest_operates {c : Client σ} {q : List UInt8} (h : OutIdle c.prot q)
    (args : List CStr) : ∃ ops, c.Operates (onrequest permgr mac c args) ops := by
  cases args with
  | nil => exact ⟨_, (Client.SameCore.refl c).operates⟩
  | cons key args =>
    obtain ⟨query, hr, hserve⟩ | ⟨-, version, hinvalid⟩ :=
      onrequest_cases permgr mac c (List.cons_ne_nil key args)
    · obtain ⟨ops, hops⟩ := serve_operates permgr mac (c := c.started) h (hr.fields ▸ hr.utf8)
      exact ⟨ops, hserve ▸ ⟨hops.context, hops.served, hops.answers⟩⟩
    · obtain ⟨-, -, -, -, -, hcore⟩ := invalidProtocol_spec (c := { c with version }) h
      rw [hinvalid]
      refine ⟨[.raiseError], hcore.context, fun op hop => ?_,
        fun n => ⟨n, congrFun hcore.answers n⟩⟩
      rw [List.mem_singleton.1 hop]
      exact .raiseError

/-- **A session runs operations on its context.** -/
theorem session_operates {c : Client σ} {q : List UInt8} (h : OutIdle c.prot q)
    (requests : List (List CStr)) : ∃ ops, c.Operates (c.session permgr mac requests) ops := by
  induction requests generalizing c q with
  | nil => exact ⟨_, (Client.SameCore.refl c).operates⟩
  | cons args requests ih =>
    obtain ⟨q₁, rs, hflags⟩ := onrequest_flags permgr mac h args
    obtain ⟨ops, hops⟩ := onrequest_operates permgr mac h args
    obtain ⟨ops', hops'⟩ := ih hflags.puts.idle
    exact ⟨_, hops.trans hops'⟩

end

end SecLsmManager
