import SecLsmManager.Client.Display

/-!
# The manager without its channel

What the server is for: a machine that gets one request after the other and gives the records of
its reply. It has no buffer, no file descriptor and no bytes, and it reads its requests with the
grammar of the protocol (`Query.parse`). `onrequest_manages` says that `onrequest` is a step of
this machine in every state of the channel, and puts the reply of the machine when the channel
accepts.
-/

namespace SecLsmManager

variable {σ : Type*}

/-! ## The grammar of the requests -/

/-- The query of a key that is no greeting, with its arguments. -/
def Query.ofKey (key : CStr) : List CStr → Option Query
  | [] =>
    if key = wordClear then some .clear
    else if key = wordDisplay then some .display
    else if key = wordInstall then some .install
    else if key = wordUninstall then some .uninstall
    else if key = wordLog then some (.log none)
    else none
  | [arg] =>
    if key = wordId then some (.id arg)
    else if key = wordPermission then some (.permission arg)
    else if key = wordLog ∧ arg = wordOn then some (.log (some true))
    else if key = wordLog ∧ arg = wordOff then some (.log (some false))
    else none
  | [arg, arg'] => if key = wordPath then some (.path arg arg') else none
  | [arg, arg', arg''] => if key = wordPlug then some (.plug arg arg' arg'') else none
  | _ => none

/-- The query of a line, which is the first one or not. -/
def Query.parse (first : Bool) : List CStr → Option Query
  | [] => none
  | key :: args =>
    if ¬ checkUtf8 (key :: args) then none
    else if first ∧ key = wordSecLsmManager then
      if h : PROTOCOL_VERSION_1_STRING ∈ args then some (.hello args h) else none
    else Query.ofKey key args

/-- A query that is recognised by its key is the one that is written so, and no greeting. -/
theorem Query.ofKey_fields {key : CStr} {args : List CStr} {query : Query}
    (h : Query.ofKey key args = some query) : key :: args = query.fields ∧ ¬ query.IsHello := by
  unfold Query.ofKey at h
  split at h
  · split_ifs at h <;> cases h <;> subst_vars <;> exact ⟨rfl, fun hq => hq⟩
  · split_ifs at h with h₁ h₂ h₃ h₄
    · cases h
      exact ⟨by rw [h₁]; rfl, fun hq => hq⟩
    · cases h
      exact ⟨by rw [h₂]; rfl, fun hq => hq⟩
    · cases h
      exact ⟨by rw [h₃.1, h₃.2]; rfl, fun hq => hq⟩
    · cases h
      exact ⟨by rw [h₄.1, h₄.2]; rfl, fun hq => hq⟩
  · split_ifs at h with h₁
    cases h
    exact ⟨by rw [h₁]; rfl, fun hq => hq⟩
  · split_ifs at h with h₁
    cases h
    exact ⟨by rw [h₁]; rfl, fun hq => hq⟩
  · cases h

/-- The fields of a query that is no greeting are recognised as this query. -/
theorem Query.ofKey_of_fields {query : Query} (hq : ¬ query.IsHello) {key : CStr}
    {args : List CStr} (h : key :: args = query.fields) :
    Query.ofKey key args = some query := by
  cases query with
  | hello versions hv => exact absurd trivial hq
  | log setlog =>
    cases setlog with
    | none =>
      cases h
      rfl
    | some on => cases on <;> cases h <;> rfl
  | _ =>
    cases h
    rfl

/-- **Parsing is the inverse of writing.** A line is parsed as the one query whose fields it has;
only a first line is a greeting. -/
theorem Query.parse_iff {first : Bool} {args : List CStr} {query : Query} :
    Query.parse first args = some query ↔
      checkUtf8 args = true ∧ args = query.fields ∧ (query.IsHello → first = true) := by
  cases args with
  | nil =>
    refine iff_of_false nofun fun ⟨_, hf, _⟩ => ?_
    cases query with
    | log setlog => cases setlog <;> cases hf
    | _ => cases hf
  | cons key args =>
    rw [Query.parse]
    constructor
    · intro h
      split at h
      · cases h
      rename_i hu
      refine ⟨not_not.1 hu, ?_⟩
      split at h
      · rename_i hh
        obtain ⟨hfirst, rfl⟩ := hh
        split at h
        · cases h
          exact ⟨rfl, fun _ => hfirst⟩
        · cases h
      · obtain ⟨hf, hq⟩ := Query.ofKey_fields h
        exact ⟨hf, fun hh => absurd hh hq⟩
    · rintro ⟨hu, hf, hfirst⟩
      rw [if_neg (not_not.2 hu)]
      rcases Classical.em query.IsHello with hq | hq
      · cases query with
        | hello versions hv =>
          cases hf
          rw [if_pos ⟨hfirst trivial, rfl⟩, dif_pos hv]
        | _ => cases hq
      · obtain ⟨key', args', hkey, hne⟩ := query.fields_key hq
        rw [← hf] at hkey
        obtain ⟨rfl, rfl⟩ := List.cons.inj hkey
        rw [if_neg fun hh => hne hh.2]
        exact Query.ofKey_of_fields hq hf

/-! ## The machine -/

/-- Where the session of a client stands: no line was received, a query was served, a line
violated the protocol. -/
inductive Standing
  | fresh | greeted | ended
  deriving DecidableEq

/-- What a session acts on. -/
structure Manager (σ : Type*) where
  standing : Standing
  context : Context
  log : Bool
  system : σ
  /-- the answers to the next requests that need some -/
  answers : Nat → Answers

namespace Manager

/-- The end of an operation with the code `rc`. -/
def conclude (m : Manager σ) (rc : Int) (texts : ErrorTexts) : List (List CStr) × Manager σ :=
  if rc ≥ 0 then ([[wordDone]], m)
  else ([[wordError, errtxt texts rc]], { m with context := contextRaiseError m.context })

/-- Whether a display can show everything. -/
def Shows (m : Manager σ) : Prop := ∀ fields ∈ shownRecords m.context, Fits fields

instance (m : Manager σ) : Decidable m.Shows :=
  List.decidableBAll (fun fields => Fits fields) (shownRecords m.context)

/-- What a display gives, and whether it goes to its end. -/
def display (shows : Bool) (m : Manager σ) : List (List CStr) × Manager σ :=
  if shows then (shownRecords m.context ++ [[wordDone]], m)
  else ((shownRecords m.context).takeWhile (fun fields => Fits fields) ++ [internalError],
    { m with context := contextRaiseError m.context })

/-- The answers of the next request. -/
def later (m : Manager σ) : Nat → Answers := fun n => m.answers (n + 1)

section
variable (permgr : PermMgr σ) (mac : Mac σ)

/-- What a query does, with the records of its reply. -/
def serve (shows : Bool) (m : Manager σ) : Query → List (List CStr) × Manager σ
  | .hello _ _ => ([[wordDone, PROTOCOL_VERSION_1_STRING]], m)
  | .clear => ([[wordDone]], { m with context := contextClear m.context })
  | .display => m.display shows
  | .install =>
    let (rc, system) := actionInstall permgr mac m.context m.system
    { m with system }.conclude rc installTexts
  | .uninstall =>
    let (rc, system) := actionUninstall permgr mac m.context m.system
    { m with system }.conclude rc uninstallTexts
  | .log setlog =>
    let log := setlog.getD m.log
    ([[wordDone, onOff log]], { m with log })
  | .id id =>
    let (rc, context) := contextSetId m.context id
    { m with context }.conclude rc idTexts
  | .path path type =>
    let (rc, context) := contextAddPath (m.answers 0) m.context path type
    { m with context, answers := m.later }.conclude rc pathTexts
  | .permission permission =>
    let (rc, context) := contextAddPermission (m.answers 0) m.context permission
    { m with context, answers := m.later }.conclude rc permissionTexts
  | .plug expdir impid impdir =>
    let (rc, context) := contextAddPlug (m.answers 0) m.context expdir impid impdir
    { m with context, answers := m.later }.conclude rc plugTexts

/-- What a line does, with the records of its reply; nothing after a violation of the protocol. -/
def reply (shows : Bool) (m : Manager σ) (args : List CStr) : List (List CStr) × Manager σ :=
  if m.standing = .ended then ([], m)
  else
    match Query.parse (m.standing = .fresh) args with
    | some query => { m with standing := .greeted }.serve permgr mac shows query
    | none =>
      ([protocolError], { m with standing := .ended, context := contextRaiseError m.context })

/-- The reply when nothing but the size of a record prevents a display. -/
def answer (m : Manager σ) (args : List CStr) : List (List CStr) × Manager σ :=
  m.reply permgr mac (decide m.Shows) args

/-- The replies to lines, one after the other. -/
def run : List (List CStr) → Manager σ → List (List (List CStr)) × Manager σ
  | [], m => ([], m)
  | args :: lines, m =>
    let (records, m) := m.answer permgr mac args
    let (replies, m) := run lines m
    (records :: replies, m)

/-- One more line is answered from what the lines before left. -/
theorem run_concat (lines : List (List CStr)) (args : List CStr) (m : Manager σ) :
    run permgr mac (lines ++ [args]) m =
      ((run permgr mac lines m).1 ++ [((run permgr mac lines m).2.answer permgr mac args).1],
        ((run permgr mac lines m).2.answer permgr mac args).2) := by
  induction lines generalizing m with
  | nil => rfl
  | cons line lines ih =>
    simp only [List.cons_append, run, ih]

end

/-- A success is acknowledged. -/
theorem conclude_nonneg (m : Manager σ) {rc : Int} (h : rc ≥ 0) (texts : ErrorTexts) :
    m.conclude rc texts = ([[wordDone]], m) := if_pos h

/-- A failure is reported with its text, and raises the error flag. -/
theorem conclude_neg (m : Manager σ) {rc : Int} (h : rc < 0) (texts : ErrorTexts) :
    m.conclude rc texts =
      ([[wordError, errtxt texts rc]], { m with context := contextRaiseError m.context }) :=
  if_neg (not_le.2 h)

/-- Once a line violated the protocol, nothing happens. -/
theorem reply_ended (permgr : PermMgr σ) (mac : Mac σ) {m : Manager σ}
    (h : m.standing = .ended) (shows : Bool) (args : List CStr) :
    m.reply permgr mac shows args = ([], m) := if_pos h

end Manager

/-! ## The view of a client -/

/-- The machine that a client of the server is. -/
def Client.view (c : Client σ) : Manager σ where
  standing := if c.invalid then .ended else if c.version = 0 then .fresh else .greeted
  context := c.context
  log := c.serverLog
  system := c.system
  answers := c.answers

/-- Clients that differ in their buffers only are one machine. -/
theorem Client.SameCore.view {c c' : Client σ} (h : c.SameCore c') : c'.view = c.view := by
  simp only [Client.view, h.context, h.version, h.invalid, h.serverLog, h.system, h.answers]

/-- The first line of a client is the one that comes while it has no version. -/
theorem Client.view_fresh {c : Client σ} (h : c.invalid = false) :
    c.view.standing = .fresh ↔ c.version = 0 := by
  simp only [Client.view, h, Bool.false_eq_true, if_false]
  split
  · exact iff_of_true rfl ‹_›
  · exact iff_of_false nofun ‹_›

/-- A client is ended once it is invalid. -/
theorem Client.view_ended (c : Client σ) : c.view.standing = .ended ↔ c.invalid = true := by
  simp only [Client.view]
  split
  · exact iff_of_true rfl ‹_›
  · split
    · exact iff_of_false nofun ‹_›
    · exact iff_of_false nofun ‹_›

/-- A client that has a version is greeted. -/
theorem Client.started_view {c : Client σ} (h : c.invalid = false) :
    c.started.view = { c.view with standing := .greeted } := by
  have hversion := c.started_version
  have hinvalid : c.started.invalid = false := h
  simp only [Client.view, hinvalid, Bool.false_eq_true, if_false, if_neg hversion]
  rfl

/-! ## The steps of a client are steps of the machine -/

/-- From `c` to `c'` the machine makes the step `r`; its reply is put if the channel accepts. -/
structure Manages (c c' : Client σ) (q : List UInt8) (r : List (List CStr) × Manager σ) :
    Prop where
  view : c'.view = r.2
  puts : c.Accepting → Puts c c' q [] r.1

/-- The acknowledgement, where its argument fits in a record. -/
theorem sendDone_manages {c : Client σ} {q : List UInt8} (h : OutIdle c.prot q) (arg : Option CStr)
    (hfit : Fits (wordDone :: arg.toList)) :
    Manages c (sendDone c arg) q ([wordDone :: arg.toList], c.view) := by
  obtain ⟨q', rs, hputs, hcore, -, hacc⟩ := sendDone_spec h arg
  refine ⟨hcore.view, fun ha => ?_⟩
  obtain ⟨rfl, hrs⟩ := hacc ha
  exact hrs hfit ▸ hputs

/-- The error reply, where its text fits, with the error flag. -/
theorem sendError_manages {c : Client σ} {q : List UInt8} (h : OutIdle c.prot q) {text : CStr}
    (hfit : Fits [wordError, text]) :
    Manages c (sendError c text) q
      ([[wordError, text]], { c.view with context := contextRaiseError c.context }) := by
  obtain ⟨q', rs, hputs, hcore, -, hacc⟩ := sendError_spec h text
  refine ⟨hcore.view, fun ha => ?_⟩
  obtain ⟨rfl, hrs⟩ := hacc ha
  exact hrs hfit ▸ hputs

/-- A status, of a client that differs from `c` in nothing of the output. -/
theorem sendStatus_manages {c : Client σ} {q : List UInt8} (h : OutIdle c.prot q) (c₀ : Client σ)
    (hprot : c₀.prot = c.prot) (hsent : c₀.sent = c.sent) (hwrites : c₀.writes = c.writes)
    (rc : Int) {texts : ErrorTexts} (ht : texts.Good) :
    Manages c (sendStatus c₀ rc texts) q (c₀.view.conclude rc texts) := by
  have hfrom : ∀ {c' : Client σ} {r : List (List CStr) × Manager σ}, Manages c₀ c' q r →
      Manages c c' q r := by
    rintro c' r ⟨hview, hputs⟩
    refine ⟨hview, fun ha => ?_⟩
    have hp := hputs fun a hm => ha a (hwrites ▸ hm)
    exact ⟨hp.idle, hsent ▸ hp.stream, hprot ▸ hp.same, fun _ => hp.accepting fun a hm =>
      ha a (hwrites ▸ hm)⟩
  rw [sendStatus]
  split
  · rename_i hrc
    rw [Manager.conclude_nonneg _ hrc]
    exact hfrom (sendDone_manages (hprot ▸ h) none done_fits)
  · rename_i hrc
    rw [Manager.conclude_neg _ (not_le.1 hrc)]
    exact hfrom (sendError_manages (hprot ▸ h) (errtxt_good ht rc).1)

/-- The visit puts the records before the first one that does not fit. -/
theorem visitLoop_takeWhile {l : List (List CStr)}
    (hl : ∀ fields ∈ l, fields ≠ [] ∧ fields.length ≤ MAX_PUTX_ITEMS) {c : Client σ}
    {q : List UInt8} (h : OutIdle c.prot q) (ha : c.Accepting) :
    ∃ q', Puts c (visitLoop l c).2 q q' (l.takeWhile fun fields => Fits fields) ∧
      ((visitLoop l c).1 ≥ 0 ↔ ∀ fields ∈ l, Fits fields) := by
  induction l generalizing c q with
  | nil => exact ⟨q, .refl h, iff_of_true (le_refl 0) (List.forall_mem_nil _)⟩
  | cons fields l ih =>
    obtain ⟨hf, hl⟩ := List.forall_mem_cons.1 hl
    obtain ⟨-, ⟨q₁, hput, hrc, hfit⟩ | ⟨q₁, hput, hrc, hno⟩⟩ := putx_spec h hf.1 hf.2
    · obtain ⟨q₂, hputs, hcode⟩ := ih hl hput.idle (hput.accepting ha)
      have htake : (fields :: l).takeWhile (fun fields => Fits fields) =
          fields :: l.takeWhile fun fields => Fits fields :=
        List.takeWhile_cons_of_pos (by simpa using hfit)
      simp only [visitLoop, hrc, if_true, htake, List.forall_mem_cons, hfit, true_and]
      exact ⟨q₂, hput.trans hputs, hcode⟩
    · have hfit := hno ha
      have htake : (fields :: l).takeWhile (fun fields => Fits fields) = [] :=
        List.takeWhile_cons_of_neg (by simpa using hfit)
      simp only [visitLoop, if_neg (Int.ne_of_lt hrc), htake, List.forall_mem_cons, hfit,
        false_and, iff_false, not_le]
      exact ⟨q₁, hput, hrc⟩

/-- **A display**, with whether it goes to its end. -/
theorem onDisplay_manages {c : Client σ} {q : List UInt8} (h : OutIdle c.prot q) :
    ∃ shows, (c.Accepting → shows = decide c.view.Shows) ∧
      Manages c (onDisplay c) q (c.view.display shows) := by
  have hl : ∀ fields ∈ shownRecords c.context, fields ≠ [] ∧ fields.length ≤ MAX_PUTX_ITEMS :=
    fun fields hf => (shownRecords_strings c.context fields hf).2
  obtain ⟨q₁, rs, hv⟩ := sendDisplay_spec h
  -- on a channel that accepts, the code and the records are known
  have hvisit : c.Accepting → ((sendDisplay c).1 ≥ 0 ↔ c.view.Shows) ∧
      ∃ q', Puts c (sendDisplay c).2 q q'
        ((shownRecords c.context).takeWhile fun fields => Fits fields) := by
    intro ha
    obtain ⟨q', hputs, hcode⟩ := visitLoop_takeWhile hl h ha
    rw [← sendDisplay_eq h] at hputs hcode
    exact ⟨hcode, q', hputs⟩
  refine ⟨decide ((sendDisplay c).1 ≥ 0), fun ha => decide_eq_decide.2 (hvisit ha).1, ?_⟩
  simp only [onDisplay]
  split
  · rename_i hrc
    rw [Manager.display, if_pos (decide_eq_true hrc)]
    have hend := sendDone_manages hv.puts.idle none done_fits
    refine ⟨hend.view.trans hv.core.view, fun ha => ?_⟩
    obtain ⟨rfl, -⟩ := hv.whole (Int.le_antisymm hv.code hrc)
    exact hv.puts.trans (hend.puts (hv.puts.accepting ha))
  · rename_i hrc
    rw [Manager.display, if_neg (by simpa using hrc)]
    have hend := sendError_manages hv.puts.idle goodInternal.1
    refine ⟨?_, fun ha => ?_⟩
    · rw [hend.view, hv.core.view, hv.core.context]
      rfl
    · obtain ⟨-, q', hputs⟩ := hvisit ha
      exact hputs.trans ((sendError_manages hputs.idle goodInternal.1).puts (hputs.accepting ha))

/-- The state of the log fits in a record. -/
theorem onOff_fits (on : Bool) : Fits [wordDone, onOff on] := by
  cases on <;> decide +kernel

/-- **A query that is served** is a step of the machine. -/
theorem serve_manages (permgr : PermMgr σ) (mac : Mac σ) {c : Client σ} {q : List UInt8}
    (h : OutIdle c.prot q) (query : Query) :
    ∃ shows, (c.Accepting → shows = decide c.view.Shows) ∧
      Manages c (c.serve permgr mac query) q (c.view.serve permgr mac shows query) := by
  obtain ⟨hid, hinstall, hpath, hperm, huninstall⟩ := texts_good
  have steps : ∀ {c' : Client σ} {r : List (List CStr) × Manager σ}, Manages c c' q r →
      ∃ shows, (c.Accepting → shows = decide c.view.Shows) ∧ Manages c c' q r :=
    fun hm => ⟨_, fun _ => rfl, hm⟩
  cases query with
  | hello versions hv => exact steps (sendDone_manages h _ (by decide +kernel))
  | clear =>
    have hm := sendDone_manages (c := { c with context := contextClear c.context }) h none done_fits
    exact steps ⟨hm.view, fun ha => ⟨(hm.puts ha).idle, (hm.puts ha).stream, (hm.puts ha).same,
      (hm.puts ha).accepting⟩⟩
  | display => exact onDisplay_manages h
  | install =>
    have hm := sendStatus_manages h { c with system :=
      (actionInstall permgr mac c.context c.system).2 } rfl rfl rfl
      (actionInstall permgr mac c.context c.system).1 hinstall
    exact steps hm
  | uninstall =>
    have hm := sendStatus_manages h { c with system :=
      (actionUninstall permgr mac c.context c.system).2 } rfl rfl rfl
      (actionUninstall permgr mac c.context c.system).1 huninstall
    exact steps hm
  | log setlog =>
    have hlog : (onLog c (setlog.map onOff)).serverLog = setlog.getD c.serverLog := by
      cases setlog with
      | none => rfl
      | some on =>
        cases on with
        | false => exact Bool.eq_false_iff.2 fun ho => absurd ((ckarg_zero _ _).1 ho) (by decide)
        | true => exact (ckarg_zero _ _).2 rfl
    have hm := sendDone_manages h (some (onOff (setlog.getD c.serverLog)))
      (onOff_fits (setlog.getD c.serverLog))
    have hserve : c.serve permgr mac (.log setlog) =
        { sendDone c (some (onOff (setlog.getD c.serverLog))) with
          serverLog := setlog.getD c.serverLog } := by
      rw [← hlog]
      rfl
    rw [hserve]
    refine steps ⟨?_, fun ha => ?_⟩
    · have hview := hm.view
      simp only [Client.view, Manager.mk.injEq] at hview
      obtain ⟨h₁, h₂, -, h₃, h₄⟩ := hview
      simp only [Client.view, h₁, h₂, h₃, h₄]
    · exact ⟨(hm.puts ha).idle, (hm.puts ha).stream, (hm.puts ha).same, (hm.puts ha).accepting⟩
  | id appid =>
    have hm := sendStatus_manages h { c with context := (contextSetId c.context appid).2 }
      rfl rfl rfl (contextSetId c.context appid).1 hid
    exact steps hm
  | path p type =>
    have hm := sendStatus_manages h { c.nextAnswers.2 with context :=
      (contextAddPath (c.answers 0) c.context p type).2 } rfl rfl rfl
      (contextAddPath (c.answers 0) c.context p type).1 hpath
    exact steps hm
  | permission perm =>
    have hm := sendStatus_manages h { c.nextAnswers.2 with context :=
      (contextAddPermission (c.answers 0) c.context perm).2 } rfl rfl rfl
      (contextAddPermission (c.answers 0) c.context perm).1 hperm
    exact steps hm
  | plug expdir impid impdir =>
    have hm := sendStatus_manages h { c.nextAnswers.2 with context :=
      (contextAddPlug (c.answers 0) c.context expdir impid impdir).2 } rfl rfl rfl
      (contextAddPlug (c.answers 0) c.context expdir impid impdir).1 plugTexts_good
    exact steps hm

/-- **`onrequest` is a step of the machine**, and puts its reply if the channel accepts. -/
theorem onrequest_manages (permgr : PermMgr σ) (mac : Mac σ) {c : Client σ} {q : List UInt8}
    (h : OutIdle c.prot q) (hvalid : c.invalid = false) {args : List CStr} (hne : args ≠ []) :
    ∃ shows, (c.Accepting → shows = decide c.view.Shows) ∧
      Manages c (onrequest permgr mac c args) q (c.view.reply permgr mac shows args) := by
  have hlive : ¬ c.view.standing = .ended := by
    rw [c.view_ended, hvalid]
    exact Bool.false_ne_true
  have hfirst : decide (c.view.standing = .fresh) = decide (c.version = 0) :=
    decide_eq_decide.2 (Client.view_fresh hvalid)
  simp only [Manager.reply, if_neg hlive, hfirst]
  obtain ⟨query, hr, hserve⟩ | ⟨hnone, version, hinvalid⟩ := onrequest_cases permgr mac c hne
  · have hparse : Query.parse (decide (c.version = 0)) args = some query :=
      Query.parse_iff.2 ⟨hr.utf8, hr.fields, fun hq => decide_eq_true (hr.first hq)⟩
    obtain ⟨shows, hshows, hm⟩ := serve_manages permgr mac (c := c.started) h query
    rw [hparse, hserve]
    rw [Client.started_view hvalid] at hm
    exact ⟨shows, hshows, hm.view, fun ha => ⟨(hm.puts ha).idle, (hm.puts ha).stream,
      (hm.puts ha).same, (hm.puts ha).accepting⟩⟩
  · have hparse : Query.parse (decide (c.version = 0)) args = none := by
      refine Option.eq_none_iff_forall_ne_some.2 fun query hq => ?_
      obtain ⟨hu, hf, hfirst⟩ := Query.parse_iff.1 hq
      exact hnone query ⟨hu, hf, fun hh => of_decide_eq_true (hfirst hh)⟩
    obtain ⟨q', ends, hputs, -, hacc, hcore⟩ := invalidProtocol_spec (c := { c with version }) h
    rw [hparse, hinvalid]
    refine ⟨_, fun _ => rfl, ?_, fun ha => ?_⟩
    · rw [hcore.view]
      rfl
    · obtain ⟨rfl, rfl⟩ := hacc ha
      exact ⟨hputs.idle, hputs.stream, hputs.same, hputs.accepting⟩

end SecLsmManager
