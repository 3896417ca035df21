import SecLsmManager.Client.Display
import SecLsmManager.Client.Language
import SecLsmManager.Protocol.Transport

/-!
# The reply to one request

On a channel that accepts, the bytes that the server writes for a record that it takes are those of
a reply: strings of a display, each with a value at least, and one end. All of its records can be
received.
-/

namespace SecLsmManager

variable {σ : Type*} {permgr : PermMgr σ} {mac : Mac σ}

/-- A record that fits and that a receiver reports as it is. -/
def Carried (fields : List CStr) : Prop := Fits fields ∧ ∃ r : Record, r.fields = fields

/-- A string of a display, with its value. -/
structure Shown (fields : List CStr) : Prop where
  carried : Carried fields
  key : IsString fields
  long : 2 < fields.length

/-- The end of a reply. -/
structure Ending (fields : List CStr) : Prop where
  carried : Carried fields
  key : fields.head? = some wordDone ∨ fields.head? = some wordError

/-- From `c` to `c'`, with nothing left in the buffer, the reply to the fields `args` is put. -/
structure Gives (c c' : Client σ) (args : List CStr) (strings : List (List CStr))
    (last : List CStr) : Prop where
  puts : Puts c c' [] [] (strings ++ [last])
  shown : ∀ fields ∈ strings, Shown fields
  display : strings ≠ [] → args = [wordDisplay]
  last : Ending last

/-! ## Records that are carried -/

/-- A record with a key, not too many fields and room in the buffer is carried. -/
theorem Carried.keyed {key : CStr} {args : List CStr} (hfit : Fits (key :: args))
    (hlen : args.length < PROT_MAX_FIELDS) (hkey : key ≠ .empty) : Carried (key :: args) :=
  ⟨hfit, ⟨key :: args, List.cons_ne_nil _ _, hlen, fun h => hkey (List.cons.inj h).1⟩, rfl⟩

/-- The acknowledgement is carried. -/
theorem done_ending (arg : Option CStr) (hfit : Fits (wordDone :: arg.toList)) :
    Ending (wordDone :: arg.toList) where
  carried := by
    refine .keyed hfit ?_ (by decide)
    cases arg with
    | none => exact (by decide : 0 < PROT_MAX_FIELDS)
    | some text => exact (by decide : 1 < PROT_MAX_FIELDS)
  key := .inl rfl

/-- So is the error reply. -/
theorem error_ending {text : CStr} (hfit : Fits [wordError, text]) : Ending [wordError, text] where
  carried := .keyed hfit (by decide : 1 < PROT_MAX_FIELDS) (by decide)
  key := .inr rfl

/-- The records of a display have a value. -/
theorem contextVisit_long (context : Context) : ∀ fields ∈ contextVisit context,
    2 < fields.length := by
  intro fields hf
  simp only [contextVisit, List.mem_append, List.mem_map] at hf
  rcases hf with ((hf | ⟨p, -, rfl⟩) | ⟨p, -, rfl⟩) | ⟨p, -, rfl⟩
  · split at hf
    · rw [List.mem_singleton.1 hf]
      simp
    · exact absurd hf List.not_mem_nil
  · simp
  · simp
  · simp

/-- So is every string of a display that fits. -/
theorem shownRecords_shown {context : Context} {fields : List CStr}
    (hf : fields ∈ shownRecords context) (hfit : Fits fields) : Shown fields := by
  obtain ⟨hkey, hne, hmax⟩ := shownRecords_strings context fields hf
  have hlong : 2 < fields.length := by
    obtain hf | hf := List.mem_append.1 hf
    · split at hf
      · rw [List.mem_singleton.1 hf]
        exact (by decide : 2 < errorOn.length)
      · exact absurd hf List.not_mem_nil
    · exact contextVisit_long context fields hf
  obtain ⟨args, rfl⟩ := List.head?_eq_some_iff.1 hkey
  refine ⟨.keyed hfit ?_ (by decide), hkey, hlong⟩
  have hle : MAX_PUTX_ITEMS < PROT_MAX_FIELDS := by decide
  rw [List.length_cons] at hmax
  omega

/-! ## The replies -/

/-- The visit puts only records that fit. -/
theorem visitLoop_fits {l : List (List CStr)} (hl : ∀ fields ∈ l, fields ≠ [] ∧
      fields.length ≤ MAX_PUTX_ITEMS) {c : Client σ} {q : List UInt8} (h : OutIdle c.prot q) :
    ∃ q' rs, Puts c (visitLoop l c).2 q q' rs ∧ rs <+: l ∧ ∀ fields ∈ rs, Fits fields := by
  induction l generalizing c q with
  | nil => exact ⟨q, [], .refl h, List.prefix_refl _, fun _ hf => absurd hf List.not_mem_nil⟩
  | cons fields l ih =>
    obtain ⟨hf, hl⟩ := List.forall_mem_cons.1 hl
    obtain ⟨-, ⟨q₁, h1, hrc, hfit⟩ | ⟨q₁, h1, hrc, -⟩⟩ := putx_spec h hf.1 hf.2
    · obtain ⟨q₂, rs, hputs, hbegin, hall⟩ := ih hl h1.idle
      simp only [visitLoop, hrc, if_true]
      exact ⟨q₂, fields :: rs, h1.trans hputs, List.cons_prefix_cons.2 ⟨rfl, hbegin⟩,
        List.forall_mem_cons.2 ⟨hfit, hall⟩⟩
    · simp only [visitLoop, if_neg (Int.ne_of_lt hrc)]
      exact ⟨q₁, [], h1, List.nil_prefix, fun _ hf => absurd hf List.not_mem_nil⟩

/-- The reply to `display`, when all writes are accepted. -/
theorem onDisplay_given {c : Client σ} (h : OutIdle c.prot []) (ha : c.Accepting) :
    ∃ strings last, Gives c (onDisplay c) [wordDisplay] strings last := by
  have hl : ∀ fields ∈ shownRecords c.context, fields ≠ [] ∧ fields.length ≤ MAX_PUTX_ITEMS :=
    fun fields hf => (shownRecords_strings c.context fields hf).2
  obtain ⟨q, strings, hputs, hbegin, hfit⟩ := visitLoop_fits hl h
  rw [← sendDisplay_eq h] at hputs
  have hshown : ∀ fields ∈ strings, Shown fields :=
    fun fields hf => shownRecords_shown (hbegin.subset hf) (hfit fields hf)
  simp only [onDisplay]
  split
  · obtain ⟨q', rs, hend, -, -, hacc⟩ := sendDone_spec hputs.idle none
    obtain ⟨rfl, hrs⟩ := hacc (hputs.accepting ha)
    obtain rfl := hrs done_fits
    exact ⟨strings, [wordDone], hputs.trans hend, hshown, fun _ => rfl,
      done_ending none done_fits⟩
  · obtain ⟨q', rs, hend, -, -, hacc⟩ := sendError_spec hputs.idle (.lit "internal")
    obtain ⟨rfl, hrs⟩ := hacc (hputs.accepting ha)
    obtain rfl := hrs goodInternal.1
    exact ⟨strings, internalError, hputs.trans hend, hshown, fun _ => rfl,
      error_ending goodInternal.1⟩

/-- A client that differs in nothing that a reply is made of. -/
theorem gives_from {c c₀ c' : Client σ} {args last : List CStr}
    (h : Puts c₀ c' [] [] [last]) (hlast : Ending last) (hp : c₀.prot = c.prot)
    (hs : c₀.sent = c.sent) (hw : c₀.writes = c.writes) :
    ∃ strings last, Gives c c' args strings last :=
  ⟨[], last, ⟨h.idle, hs ▸ h.stream, hp ▸ h.same, fun ha => h.accepting fun a hm => ha a (hw ▸ hm)⟩,
    fun _ hf => absurd hf List.not_mem_nil, fun hne => absurd rfl hne, hlast⟩

/-- The acknowledgement alone. -/
theorem sendDone_given {c : Client σ} (h : OutIdle c.prot []) (ha : c.Accepting)
    {arg : Option CStr} (hfit : Fits (wordDone :: arg.toList)) :
    Puts c (sendDone c arg) [] [] [wordDone :: arg.toList] := by
  obtain ⟨q', rs, hputs, -, -, hacc⟩ := sendDone_spec h arg
  obtain ⟨rfl, hrs⟩ := hacc ha
  obtain rfl := hrs hfit
  exact hputs

/-- The reply to a status alone. -/
theorem sendStatus_given {c : Client σ} (h : OutIdle c.prot []) (ha : c.Accepting) (rc : Int)
    {texts : ErrorTexts} (ht : texts.Good) :
    ∃ last, Puts c (sendStatus c rc texts) [] [] [last] ∧ Ending last := by
  rw [sendStatus]
  split
  · exact ⟨_, sendDone_given h ha done_fits, done_ending none done_fits⟩
  · obtain ⟨q', rs, hputs, -, -, hacc⟩ := sendError_spec h (errtxt texts rc)
    obtain ⟨rfl, hrs⟩ := hacc ha
    have hfit := (errtxt_good ht rc).1
    obtain rfl := hrs hfit
    exact ⟨_, hputs, error_ending hfit⟩

/-- **The reply to a query**, on a channel that accepts. -/
theorem serve_given (permgr : PermMgr σ) (mac : Mac σ) {c : Client σ} (h : OutIdle c.prot [])
    (ha : c.Accepting) (query : Query) :
    ∃ strings last, Gives c (c.serve permgr mac query) query.fields strings last := by
  obtain ⟨hid, hinstall, hpath, hperm, huninstall⟩ := texts_good
  have hstatus : ∀ (c₀ : Client σ) (rc : Int) {texts : ErrorTexts}, texts.Good →
      c₀.prot = c.prot → c₀.sent = c.sent → c₀.writes = c.writes →
      ∃ strings last, Gives c (sendStatus c₀ rc texts) query.fields strings last := by
    intro c₀ rc texts ht hp hs hw
    obtain ⟨last, hputs, hlast⟩ := sendStatus_given (c := c₀) (hp ▸ h)
      (fun a hm => ha a (hw ▸ hm)) rc ht
    exact gives_from hputs hlast hp hs hw
  have hdone : ∀ (c₀ : Client σ) (arg : Option CStr), Fits (wordDone :: arg.toList) →
      c₀.prot = c.prot → c₀.sent = c.sent → c₀.writes = c.writes →
      ∃ strings last, Gives c (sendDone c₀ arg) query.fields strings last := by
    intro c₀ arg hfit hp hs hw
    have hputs := sendDone_given (c := c₀) (hp ▸ h) (fun a hm => ha a (hw ▸ hm)) hfit
    exact gives_from hputs (done_ending arg hfit) hp hs hw
  cases query with
  | hello versions hv => exact hdone c _ (by decide +kernel) rfl rfl rfl
  | clear => exact hdone { c with context := contextClear c.context } none done_fits rfl rfl rfl
  | display => exact onDisplay_given h ha
  | install => exact hstatus { c with system := _ } _ hinstall rfl rfl rfl
  | uninstall => exact hstatus { c with system := _ } _ huninstall rfl rfl rfl
  | log setlog =>
    have hfit : ∀ on : Bool, Fits (wordDone :: (some (if on then wordOn else wordOff)).toList) := by
      decide +kernel
    obtain ⟨strings, last, hg⟩ :=
      hdone c _ (hfit (onLog c (setlog.map onOff)).serverLog) rfl rfl rfl
    exact ⟨strings, last, ⟨hg.puts.idle, hg.puts.stream, hg.puts.same, hg.puts.accepting⟩,
      hg.shown, hg.display, hg.last⟩
  | id appid => exact hstatus { c with context := _ } _ hid rfl rfl rfl
  | path p type => exact hstatus { c.nextAnswers.2 with context := _ } _ hpath rfl rfl rfl
  | permission perm => exact hstatus { c.nextAnswers.2 with context := _ } _ hperm rfl rfl rfl
  | plug expdir impid impdir =>
    exact hstatus { c.nextAnswers.2 with context := _ } _ plugTexts_good rfl rfl rfl

/-- **The reply to a request**, which may be a violation of the protocol. -/
theorem onrequest_given (permgr : PermMgr σ) (mac : Mac σ) {c : Client σ} (h : OutIdle c.prot [])
    (ha : c.Accepting) {args : List CStr} (hne : args ≠ []) :
    ∃ strings last, Gives c (onrequest permgr mac c args) args strings last := by
  obtain ⟨query, hr, hserve⟩ | ⟨-, version, hinvalid⟩ := onrequest_cases permgr mac c hne
  · obtain ⟨strings, last, hg⟩ := serve_given permgr mac (c := c.started) h ha query
    rw [hserve, hr.fields]
    exact ⟨strings, last, ⟨hg.puts.idle, hg.puts.stream, hg.puts.same, hg.puts.accepting⟩,
      hg.shown, hg.display, hg.last⟩
  · obtain ⟨q', ends, hputs, -, hacc, -⟩ := invalidProtocol_spec (c := { c with version }) h
    obtain ⟨rfl, rfl⟩ := hacc ha
    rw [hinvalid]
    exact gives_from hputs (error_ending protocolError_fits) rfl rfl rfl

end SecLsmManager
