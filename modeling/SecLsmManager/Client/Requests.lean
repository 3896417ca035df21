import SecLsmManager.Client.Replies

/-!
# The queries and their replies

The lines that `onrequest` serves are the field lists of a `Query`; every other one is a violation
of the protocol (`onrequest_cases`). A query is replied by strings, for a display only, and then
by one end of reply (`serve_replied`).
-/

namespace SecLsmManager

variable {σ : Type*} {permgr : PermMgr σ} {mac : Mac σ}

/-! ## Queries -/

/-- The queries of the protocol. -/
inductive Query
  | hello (versions : List CStr) (h : PROTOCOL_VERSION_1_STRING ∈ versions)
  | clear
  | display
  | install
  | uninstall
  | log (setlog : Option Bool)
  | id (appid : CStr)
  | path (p type : CStr)
  | permission (perm : CStr)
  | plug (expdir impid impdir : CStr)

/-- The word of a switch. -/
def onOff (on : Bool) : CStr := if on then wordOn else wordOff

/-- The line of a query. -/
def Query.fields : Query → List CStr
  | .hello versions _ => wordSecLsmManager :: versions
  | .clear => [wordClear]
  | .display => [wordDisplay]
  | .install => [wordInstall]
  | .uninstall => [wordUninstall]
  | .log none => [wordLog]
  | .log (some on) => [wordLog, onOff on]
  | .id appid => [wordId, appid]
  | .path p type => [wordPath, p, type]
  | .permission perm => [wordPermission, perm]
  | .plug expdir impid impdir => [wordPlug, expdir, impid, impdir]

/-- A greeting. -/
def Query.IsHello : Query → Prop
  | .hello _ _ => True
  | _ => False

/-- The processing of a query. -/
def Client.serve (permgr : PermMgr σ) (mac : Mac σ) (client : Client σ) : Query → Client σ
  | .hello _ _ => sendDone client (some PROTOCOL_VERSION_1_STRING)
  | .clear => onClear client
  | .display => onDisplay client
  | .install => onInstall permgr mac client
  | .uninstall => onUninstall permgr mac client
  | .log setlog => onLog client (setlog.map onOff)
  | .id id => onId client id
  | .path path type => onPath client path type
  | .permission permission => onPermission client permission
  | .plug expdir impid impdir => onPlug client expdir impid impdir

/-- A client whose version is set. -/
def Client.started (client : Client σ) : Client σ :=
  { client with version := if client.version = 0 then DEFAULT_PROTOCOL_VERSION else client.version }

/-- A client that has started has a version. -/
theorem Client.started_version (client : Client σ) : client.started.version ≠ 0 := by
  simp only [Client.started, DEFAULT_PROTOCOL_VERSION, PROTOCOL_VERSION_1]
  split <;> omega

/-- A line is received as the query `q`. -/
structure Receives (client : Client σ) (args : List CStr) (q : Query) : Prop where
  utf8 : checkUtf8 args = true
  fields : args = q.fields
  first : q.IsHello → client.version = 0

/-! ## The dispatch -/

/-- The loop of `ckarg` compares two strings from where it starts. -/
theorem ckargLoop_iff (a b : List UInt8) : ckargLoop a b = true ↔ a = b := by
  induction a generalizing b with
  | nil => simp [ckargLoop, eq_comm]
  | cons x a ih =>
    cases b with
    | nil => simp [ckargLoop]
    | cons y b =>
      rw [ckargLoop]
      by_cases h : x = y
      · simp [h, ih]
      · simp [h]

/-- From the first character it compares them whole. -/
theorem ckarg_zero (arg value : CStr) : ckarg arg value 0 = true ↔ arg = value := by
  rw [ckarg, List.drop_zero, List.drop_zero, ckargLoop_iff, CStr.ext_iff]

/-- Behind the first character, once it is known to agree. -/
theorem ckarg_one {arg value : CStr} {c : UInt8} (ha : arg.bytes.head? = some c)
    (hv : value.bytes.head? = some c) (h : ckarg arg value 1 = true) : arg = value := by
  rw [ckarg, ckargLoop_iff] at h
  obtain ⟨a, ha'⟩ := List.head?_eq_some_iff.1 ha
  obtain ⟨v, hv'⟩ := List.head?_eq_some_iff.1 hv
  rw [ha', hv', List.drop_succ_cons, List.drop_succ_cons, List.drop_zero, List.drop_zero] at h
  exact CStr.ext (by rw [ha', hv', h])

/-- The switch on the first character finds the query that the fields are. -/
theorem requestSwitch_query (client : Client σ) (q : Query) (hq : ¬ q.IsHello) {key : CStr}
    {args : List CStr} (h : key :: args = q.fields) :
    requestSwitch permgr mac client key args = client.serve permgr mac q := by
  cases q with
  | hello versions hv => exact absurd trivial hq
  | log setlog =>
    cases setlog with
    | none =>
      cases h
      rfl
    | some on =>
      cases on <;> cases h <;> rfl
  | _ =>
    cases h
    rfl

/-- The key of a query that is no greeting is no greeting. -/
theorem Query.fields_key {q : Query} (hq : ¬ q.IsHello) :
    ∃ key args, q.fields = key :: args ∧ key ≠ wordSecLsmManager := by
  cases q with
  | hello versions hv => exact absurd trivial hq
  | clear => exact ⟨_, _, rfl, by decide⟩
  | display => exact ⟨_, _, rfl, by decide⟩
  | install => exact ⟨_, _, rfl, by decide⟩
  | uninstall => exact ⟨_, _, rfl, by decide⟩
  | log setlog =>
    have hkey : wordLog ≠ wordSecLsmManager := by decide
    cases setlog with
    | none => exact ⟨_, _, rfl, hkey⟩
    | some on => exact ⟨_, _, rfl, hkey⟩
  | id _ => exact ⟨_, _, rfl, by decide⟩
  | path _ _ => exact ⟨_, _, rfl, by decide⟩
  | permission _ => exact ⟨_, _, rfl, by decide⟩
  | plug _ _ _ => exact ⟨_, _, rfl, by decide⟩

/-- **A query is served.** -/
theorem onrequest_query {client : Client σ} {args : List CStr} {q : Query}
    (h : Receives client args q) :
    onrequest permgr mac client args = client.started.serve permgr mac q := by
  obtain ⟨hu, rfl, hfirst⟩ := h
  by_cases hq : q.IsHello
  · cases q with
    | hello versions hv =>
      have h0 := hfirst trivial
      have hsome : ((versions.reverse.find? fun arg =>
          ckarg arg PROTOCOL_VERSION_1_STRING 0).isSome) = true := by
        rw [List.find?_isSome]
        exact ⟨_, List.mem_reverse.2 hv, (ckarg_zero _ _).2 rfl⟩
      obtain ⟨arg, harg⟩ := Option.isSome_iff_exists.1 hsome
      have heq : arg = PROTOCOL_VERSION_1_STRING := by
        have hck := List.find?_some harg
        rwa [ckarg_zero] at hck
      rw [Query.fields] at hu ⊢
      rw [onrequest, if_neg (not_not.2 hu), if_pos ⟨h0, (ckarg_zero _ _).2 rfl⟩]
      simp only [harg, heq, Client.serve, Client.started, h0, if_true, DEFAULT_PROTOCOL_VERSION]
    | _ => cases hq
  · obtain ⟨key, args, hf, hkey⟩ := q.fields_key hq
    rw [hf] at hu ⊢
    rw [onrequest, if_neg (not_not.2 hu), if_neg fun hh => hkey ((ckarg_zero _ _).1 hh.2)]
    exact requestSwitch_query _ q hq hf.symm

/-- A line that is no query ends in the default of the switch. -/
theorem requestSwitch_other (client : Client σ) {key : CStr} {args : List CStr}
    (h : ∀ q : Query, ¬ q.IsHello → key :: args ≠ q.fields) :
    requestSwitch permgr mac client key args = invalidProtocol client := by
  unfold requestSwitch
  split
  · rename_i hk
    split
    · rename_i hck
      exact absurd (by rw [ckarg_one hk rfl hck]; rfl) (h .clear id)
    · rfl
  · rename_i hk
    split
    · rename_i hck
      exact absurd (by rw [ckarg_one hk rfl hck]; rfl) (h .display id)
    · rfl
  · rename_i hk
    split
    · rename_i i hck
      exact absurd (by rw [ckarg_one hk rfl hck]; rfl) (h (.id i) id)
    split
    · have hck := ‹ckarg key wordInstall 1 = true›
      exact absurd (by rw [ckarg_one hk rfl hck]; rfl) (h .install id)
    · rfl
  · rename_i hk
    split
    · rename_i hck
      exact absurd (by rw [ckarg_one hk rfl hck]; rfl) (h (.log none) id)
    · rename_i arg hck
      rw [if_pos]
      refine ⟨fun ho => ?_, fun ho => ?_⟩
      · rw [ckarg_zero] at ho
        exact h (.log (some true)) id (by rw [ckarg_one hk rfl hck, ho]; rfl)
      · rw [ckarg_zero] at ho
        exact h (.log (some false)) id (by rw [ckarg_one hk rfl hck, ho]; rfl)
    · rfl
  · rename_i hk
    split
    · rename_i path type hck
      exact absurd (by rw [ckarg_one hk rfl hck]; rfl) (h (.path path type) id)
    split
    · rename_i permission _ _
      have hck := ‹ckarg key wordPermission 1 = true›
      exact absurd (by rw [ckarg_one hk rfl hck]; rfl) (h (.permission permission) id)
    split
    · rename_i expdir impid impdir _ _ _
      have hck := ‹ckarg key wordPlug 1 = true›
      exact absurd (by rw [ckarg_one hk rfl hck]; rfl) (h (.plug expdir impid impdir) id)
    · rfl
  · rename_i hk
    split
    · rename_i hck
      exact absurd (by rw [ckarg_one hk rfl hck]; rfl) (h .uninstall id)
    · rfl
  · rfl

/-- **What `onrequest` does with a line.** It serves the query that the line is, or the line is no
query and violates the protocol. -/
theorem onrequest_cases (permgr : PermMgr σ) (mac : Mac σ) (client : Client σ) {args : List CStr}
    (hargs : args ≠ []) :
    (∃ q, Receives client args q ∧
        onrequest permgr mac client args = client.started.serve permgr mac q) ∨
      ((∀ q, ¬ Receives client args q) ∧ ∃ version,
        onrequest permgr mac client args = invalidProtocol { client with version }) := by
  by_cases hex : ∃ q, Receives client args q
  · obtain ⟨q, hq⟩ := hex
    exact .inl ⟨q, hq, onrequest_query hq⟩
  have hnone : ∀ q, ¬ Receives client args q := not_exists.1 hex
  refine .inr ⟨hnone, ?_⟩
  cases args with
  | nil => exact absurd rfl hargs
  | cons key args =>
    rw [onrequest]
    split
    · exact ⟨client.version, rfl⟩
    rename_i hu
    have hu := Classical.not_not.1 hu
    split
    · rename_i hh
      obtain ⟨h0, hk⟩ := hh
      rw [ckarg_zero] at hk
      subst hk
      split
      · exact ⟨client.version, rfl⟩
      · rename_i arg hsome
        have harg : arg = PROTOCOL_VERSION_1_STRING := by
          have hck := List.find?_some hsome
          rwa [ckarg_zero] at hck
        have hmem := List.mem_reverse.1 (List.mem_of_find?_eq_some hsome)
        exact absurd ⟨hu, rfl, fun _ => h0⟩ (hnone (.hello args (harg ▸ hmem)))
    · exact ⟨_, requestSwitch_other _ fun q hq hf => hnone q ⟨hu, hf, fun h => absurd h hq⟩⟩

/-! ## Replies -/

/-- The record that reports a violation of the protocol. -/
def protocolError : List CStr := [wordError, .lit "protocol"]

/-- The two ends of a reply differ. -/
theorem wordDone_ne_wordError : wordDone ≠ wordError := by decide

/-- A string of a display is no error. -/
theorem wordString_ne_wordError : wordString ≠ wordError := by decide

/-- The end of the reply to a query, when the error flag is `flag`. -/
inductive IsEnd (flag : Bool) : List CStr → Prop
  | done (arg : Option CStr) : IsEnd flag (wordDone :: arg.toList)
  | error {text : CStr} : flag = true → text ≠ .lit "protocol" → IsEnd flag [wordError, text]

/-- The parts of a client that the processing of a query leaves alone. -/
def Client.SameLink (c c' : Client σ) : Prop :=
  c'.invalid = c.invalid ∧ c'.connected = c.connected ∧ c'.input = c.input ∧
    c'.version = c.version

/-- A client with the same core has the same link. -/
theorem Client.SameCore.sameLink {c c' : Client σ} (h : c.SameCore c') : c.SameLink c' :=
  ⟨h.invalid, h.connected, h.input, h.version⟩

/-- From `c` to `c'` the end of a reply is put, if the channel accepts. -/
structure Ended (c c' : Client σ) (q q' : List UInt8) (ends : List (List CStr)) : Prop where
  puts : Puts c c' q q' ends
  kind : ends = [] ∨ ∃ last, ends = [last] ∧ IsEnd c'.context.errorFlag last
  accepting : c.Accepting → q' = [] ∧ ends ≠ []
  link : c.SameLink c'

/-- An acknowledgement is an end. -/
theorem sendDone_ended {c : Client σ} {q : List UInt8} (h : OutIdle c.prot q) {arg : Option CStr}
    (hfit : Fits (wordDone :: arg.toList)) : ∃ q' ends, Ended c (sendDone c arg) q q' ends := by
  obtain ⟨q', rs, h1, h2, h3, h4⟩ := sendDone_spec h arg
  refine ⟨q', rs, h1, ?_, fun ha => ⟨(h4 ha).1, ?_⟩, h2.sameLink⟩
  · rcases h3 with rfl | rfl
    · exact .inr ⟨_, rfl, .done arg⟩
    · exact .inl rfl
  · rw [(h4 ha).2 hfit]
    exact List.cons_ne_nil _ _

/-- So is an error that is not the one of a violation. -/
theorem sendError_ended {c : Client σ} {q : List UInt8} (h : OutIdle c.prot q) {text : CStr}
    (hfit : Fits [wordError, text]) (htext : text ≠ .lit "protocol") :
    ∃ q' ends, Ended c (sendError c text) q q' ends := by
  obtain ⟨q', rs, h1, h2, h3, h4⟩ := sendError_spec h text
  refine ⟨q', rs, h1, ?_, fun ha => ⟨(h4 ha).1, ?_⟩, h2.sameLink⟩
  · rcases h3 with rfl | rfl
    · exact .inr ⟨_, rfl, .error (congrArg Context.errorFlag h2.context) htext⟩
    · exact .inl rfl
  · rw [(h4 ha).2 hfit]
    exact List.cons_ne_nil _ _

/-- The texts of a request fit in a record and are not the one of a violation. -/
def ErrorTexts.Good (texts : ErrorTexts) : Prop :=
  ∀ e ∈ texts, Fits [wordError, e.2] ∧ e.2 ≠ .lit "protocol"

/-- The text for codes that a table does not have is good. -/
theorem goodInternal : Fits [wordError, .lit "internal"] ∧ CStr.lit "internal" ≠ .lit "protocol" :=
  by decide +kernel

/-- The text for any code is one of the table, or that one. -/
theorem errtxt_good {texts : ErrorTexts} (h : texts.Good) (rc : Int) :
    Fits [wordError, errtxt texts rc] ∧ errtxt texts rc ≠ .lit "protocol" := by
  unfold errtxt
  cases hf : texts.find? fun e => e.1 = -rc with
  | none => exact goodInternal
  | some e => exact h e (List.mem_of_find?_eq_some hf)

/-- The texts of `plug` are good. -/
theorem plugTexts_good : plugTexts.Good := by
  unfold ErrorTexts.Good
  decide +kernel

/-- The other tables are parts of the largest one, but for `forbidden`. -/
theorem texts_good : idTexts.Good ∧ installTexts.Good ∧ pathTexts.Good ∧ permissionTexts.Good ∧
    uninstallTexts.Good := by
  unfold ErrorTexts.Good
  decide +kernel

/-- The reply to a status is an end, if its texts are good. -/
theorem sendStatus_ended {c : Client σ} {q : List UInt8} (h : OutIdle c.prot q) (rc : Int)
    {texts : ErrorTexts} (ht : texts.Good) :
    ∃ q' ends, Ended c (sendStatus c rc texts) q q' ends := by
  have hdone : Fits (wordDone :: (none : Option CStr).toList) := by decide +kernel
  unfold sendStatus
  split
  · exact sendDone_ended h hdone
  · obtain ⟨h1, h2⟩ := errtxt_good ht rc
    exact sendError_ended h h1 h2

/-- A reply does not depend on what the client held before it but the output. -/
theorem Ended.from {c c₀ c' : Client σ} {q q' : List UInt8} {ends : List (List CStr)}
    (h : Ended c₀ c' q q' ends) (hp : c₀.prot = c.prot) (hs : c₀.sent = c.sent)
    (hw : c₀.writes = c.writes) (hl : c.SameLink c₀) : Ended c c' q q' ends where
  puts := ⟨h.puts.idle, hs ▸ h.puts.stream, hp ▸ h.puts.same,
    fun ha => h.puts.accepting fun a hm => ha a (hw ▸ hm)⟩
  kind := h.kind
  accepting := fun ha => h.accepting fun a hm => ha a (hw ▸ hm)
  link := ⟨h.link.1.trans hl.1, h.link.2.1.trans hl.2.1, h.link.2.2.1.trans hl.2.2.1,
    h.link.2.2.2.trans hl.2.2.2⟩

/-- The status of an operation that changed nothing of the output. -/
theorem sendStatus_from {c : Client σ} {q : List UInt8} (h : OutIdle c.prot q) (c₀ : Client σ)
    (hp : c₀.prot = c.prot) (hs : c₀.sent = c.sent) (hw : c₀.writes = c.writes)
    (hl : c.SameLink c₀) (rc : Int) {texts : ErrorTexts} (ht : texts.Good) :
    ∃ q' ends, Ended c (sendStatus c₀ rc texts) q q' ends := by
  obtain ⟨q', ends, he⟩ := sendStatus_ended (hp ▸ h) rc ht
  exact ⟨q', ends, he.from hp hs hw hl⟩

/-- The reply to a query: strings, for a display only, and then the end. -/
structure Replied (c c' : Client σ) (query : Query) (q q' : List UInt8)
    (strings ends : List (List CStr)) : Prop where
  puts : Puts c c' q q' (strings ++ ends)
  keyed : ∀ fields ∈ strings, IsString fields
  display : strings ≠ [] → query = .display
  kind : ends = [] ∨ ∃ last, ends = [last] ∧ IsEnd c'.context.errorFlag last
  accepting : c.Accepting → q' = [] ∧ ends ≠ []
  link : c.SameLink c'

/-- An end without strings is the reply to any query. -/
theorem Ended.replied {c c' : Client σ} {q q' : List UInt8} {ends : List (List CStr)}
    (h : Ended c c' q q' ends) (query : Query) : Replied c c' query q q' [] ends where
  puts := h.puts
  keyed := fun _ hf => absurd hf List.not_mem_nil
  display := fun hne => absurd rfl hne
  kind := h.kind
  accepting := h.accepting
  link := h.link

/-- The reply to `display`: strings, cut where a record cannot be put, and the end. -/
theorem onDisplay_replied {c : Client σ} {q : List UInt8} (h : OutIdle c.prot q) :
    ∃ q' strings ends, Replied c (onDisplay c) .display q q' strings ends := by
  obtain ⟨q₁, strings, hv⟩ := sendDisplay_spec h
  have h1 := hv.puts
  have h3 : ∀ fields ∈ strings, IsString fields :=
    fun f hf => (shownRecords_strings c.context f (hv.isPrefix.subset hf)).1
  have hend : ∃ q' ends, Ended (sendDisplay c).2 (onDisplay c) q₁ q' ends := by
    simp only [onDisplay]
    split
    · exact sendDone_ended h1.idle (by decide +kernel)
    · exact sendError_ended h1.idle goodInternal.1 goodInternal.2
  obtain ⟨q', ends, g1⟩ := hend
  have hl := hv.core.sameLink
  exact ⟨q', strings, ends, h1.trans g1.puts, h3, fun _ => rfl, g1.kind,
    fun ha => g1.accepting (h1.accepting ha), ⟨g1.link.1.trans hl.1, g1.link.2.1.trans hl.2.1,
      g1.link.2.2.1.trans hl.2.2.1, g1.link.2.2.2.trans hl.2.2.2⟩⟩

/-- **The reply to a query.** -/
theorem serve_replied (permgr : PermMgr σ) (mac : Mac σ) {c : Client σ} {q : List UInt8}
    (h : OutIdle c.prot q) (query : Query) :
    ∃ q' strings ends, Replied c (c.serve permgr mac query) query q q' strings ends := by
  obtain ⟨hid, hinstall, hpath, hperm, huninstall⟩ := texts_good
  -- but for a display, the query only changes what the reply does not depend on
  have doneFits : Fits (wordDone :: (none : Option CStr).toList) := by decide +kernel
  have single : (∃ q' ends, Ended c (c.serve permgr mac query) q q' ends) →
      ∃ q' strings ends, Replied c (c.serve permgr mac query) query q q' strings ends :=
    fun ⟨q', ends, he⟩ => ⟨q', [], ends, he.replied query⟩
  cases query with
  | hello versions hv => exact single (sendDone_ended h (by decide +kernel))
  | clear =>
    obtain ⟨q', ends, he⟩ := sendDone_ended
      (c := { c with context := contextClear c.context }) h doneFits
    exact single ⟨q', ends, he.from rfl rfl rfl ⟨rfl, rfl, rfl, rfl⟩⟩
  | display => exact onDisplay_replied h
  | install =>
    exact single (sendStatus_from h { c with system := (actionInstall permgr mac c.context
      c.system).2 } rfl rfl rfl ⟨rfl, rfl, rfl, rfl⟩ _ hinstall)
  | uninstall =>
    exact single (sendStatus_from h { c with system := (actionUninstall permgr mac c.context
      c.system).2 } rfl rfl rfl ⟨rfl, rfl, rfl, rfl⟩ _ huninstall)
  | log setlog =>
    have hfit : ∀ on : Bool, Fits (wordDone :: (some (if on then wordOn else wordOff)).toList) := by
      decide +kernel
    obtain ⟨q', ends, he⟩ := sendDone_ended h (hfit (onLog c (setlog.map onOff)).serverLog)
    exact single ⟨q', ends, ⟨he.puts.idle, he.puts.stream, he.puts.same, he.puts.accepting⟩,
      he.kind, he.accepting, he.link⟩
  | id appid =>
    exact single (sendStatus_from h { c with context := (contextSetId c.context appid).2 }
      rfl rfl rfl ⟨rfl, rfl, rfl, rfl⟩ _ hid)
  | path p type =>
    exact single (sendStatus_from h { c.nextAnswers.2 with context :=
      (contextAddPath (c.answers 0) c.context p type).2 } rfl rfl rfl ⟨rfl, rfl, rfl, rfl⟩ _ hpath)
  | permission perm =>
    exact single (sendStatus_from h { c.nextAnswers.2 with context :=
      (contextAddPermission (c.answers 0) c.context perm).2 } rfl rfl rfl ⟨rfl, rfl, rfl, rfl⟩ _
      hperm)
  | plug expdir impid impdir =>
    exact single (sendStatus_from h { c.nextAnswers.2 with context :=
      (contextAddPlug (c.answers 0) c.context expdir impid impdir).2 } rfl rfl rfl
      ⟨rfl, rfl, rfl, rfl⟩ _ plugTexts_good)

/-- The record of a violation fits. -/
theorem protocolError_fits : Fits protocolError := by decide +kernel

/-- **The reply to a violation of the protocol.** -/
theorem invalidProtocol_spec {c : Client σ} {q : List UInt8} (h : OutIdle c.prot q) :
    ∃ q' ends, Puts c (invalidProtocol c) q q' ends ∧ (ends = [protocolError] ∨ ends = []) ∧
      (c.Accepting → q' = [] ∧ ends = [protocolError]) ∧
      { c with context := contextRaiseError c.context, invalid := true }.SameCore
        (invalidProtocol c) := by
  obtain ⟨q', rs, h1, h2, h3, h4⟩ := sendError_spec h (.lit "protocol")
  exact ⟨q', rs, ⟨h1.idle, h1.stream, h1.same, h1.accepting⟩, h3,
    fun ha => ⟨(h4 ha).1, (h4 ha).2 protocolError_fits⟩, h2.context, h2.version, rfl, h2.connected,
    h2.serverLog, h2.system, h2.answers, h2.input⟩

end SecLsmManager
