import SecLsmManager.Client.Display

/-!
# After an installation

What a session shows and does after an installation or an uninstallation. The context is left as
it is by both outcomes: after done the session goes on like one that was cleared only when there
was nothing to clear (`continues_cleared`), after error a display lists the properties.
-/

namespace SecLsmManager

variable {σ : Type*}

section
variable (permgr : PermMgr σ) (mac : Mac σ)

/-! ## Actions -/

/-- The result of the query that acts on the system. -/
def Query.action (context : Context) (s : σ) : Query → Option (Int × σ)
  | .install => some (actionInstall permgr mac context s)
  | .uninstall => some (actionUninstall permgr mac context s)
  | _ => none

/-- **A query that acts** replies the status of the action, which is no success under the error
flag. -/
theorem serve_action {c : Client σ} {query : Query} {r : Int × σ}
    (h : query.action permgr mac c.context c.system = some r) :
    (c.context.errorFlag = true → r.1 < 0) ∧ ∃ texts,
      c.serve permgr mac query = sendStatus { c with system := r.2 } r.1 texts := by
  have flagged : c.context.errorFlag = true → checkContext c.context < 0 :=
    fun he => checkContext_neg.2 (.inl he)
  cases query with
  | install =>
    cases h
    refine ⟨fun he => ?_, installTexts, rfl⟩
    rw [actionInstall_of_checkContext permgr mac (flagged he)]
    exact flagged he
  | uninstall =>
    cases h
    refine ⟨fun he => ?_, uninstallTexts, rfl⟩
    rw [actionUninstall_of_checkContext permgr mac (flagged he)]
    exact flagged he
  | _ => cases h

/-- A reply of one record at most is the record that was emitted. -/
theorem Emits.single {c c' : Client σ} {rs : List (List CStr)} {last last' : List CStr}
    (h : Emits c c' rs) (hrs : rs = [last] ∨ rs = []) (h' : Emits c c' [last'])
    (hne : last ≠ []) (hne' : last' ≠ []) : last = last' := by
  have hnil : [] ∉ rs := by
    obtain rfl | rfl := hrs
    · simpa using hne.symm
    · exact List.not_mem_nil
  have hsame := h.unique h' hnil (by simpa using hne'.symm)
  obtain rfl | rfl := hrs
  · exact List.singleton_inj.1 hsame
  · cases hsame

/-- The status of an action and what it leaves of the context. -/
theorem serve_action_status {c : Client σ} {q : List UInt8} (h : OutIdle c.prot q) {query : Query}
    {r : Int × σ} (hr : query.action permgr mac c.context c.system = some r) :
    let c' := c.serve permgr mac query
    (Emits c c' [[wordDone]] → c'.context = c.context ∧ c.context.errorFlag = false) ∧
    ∀ text, Emits c c' [[wordError, text]] → c'.context = contextRaiseError c.context := by
  intro c'
  obtain ⟨hflag, texts, heq⟩ := serve_action permgr mac hr
  have hc' : c' = sendStatus { c with system := r.2 } r.1 texts := heq
  have hcore := sendStatus_core (c := { c with system := r.2 }) h r.1 texts
  rw [← hc'] at hcore
  cases lt_or_ge r.1 0 with
  | inl hrc =>
    obtain ⟨q', rs, hputs, -, hrs, -⟩ := sendError_spec (c := { c with system := r.2 }) h
      (errtxt texts r.1)
    rw [sendStatus, if_neg (Int.not_le.2 hrc)] at hc'
    rw [← hc'] at hputs
    have hemits : Emits c c' rs := hputs.emits h
    rw [if_neg (Int.not_le.2 hrc)] at hcore
    refine ⟨fun hdone => ?_, fun text _ => hcore.context⟩
    have hsame := hemits.single hrs hdone (by simp) (by simp)
    exact absurd (List.cons.inj hsame).1.symm wordDone_ne_wordError
  | inr hrc =>
    obtain ⟨q', rs, hputs, -, hrs, -⟩ := sendDone_spec (c := { c with system := r.2 }) h none
    rw [sendStatus, if_pos hrc] at hc'
    rw [← hc'] at hputs
    have hemits : Emits c c' rs := hputs.emits h
    rw [if_pos hrc] at hcore
    refine ⟨fun _ => ⟨hcore.context, ?_⟩, fun text herror => ?_⟩
    · cases he : c.context.errorFlag with
      | false => rfl
      | true => exact absurd hrc (Int.not_le.2 (hflag he))
    · have hsame := hemits.single hrs herror (by simp) (by simp)
      exact absurd (List.cons.inj hsame).1 wordDone_ne_wordError

/-! ## Continuations -/

/-- Whatever comes next, the replies and the effects on the system are those of `c'`. -/
def Client.Continues (c c' : Client σ) : Prop :=
  ∀ (answers : Nat → Answers) (writes : List OutAnswer) (after : List (List CStr)),
    let d := { c with answers, writes }.session permgr mac after
    let d' := { c' with answers, writes }.session permgr mac after
    d.stream = d'.stream ∧ d.system = d'.system

/-- A context that shows nothing is clear. -/
theorem contextClear_of_visit {context : Context} (hinv : context.Inv)
    (hflag : context.errorFlag = false) (h : contextVisit context = []) :
    contextClear context = context := by
  obtain ⟨id, permissionSet, pathSet, plugset, needId, errorFlag⟩ := context
  simp only [contextVisit, List.append_eq_nil_iff, List.map_eq_nil_iff] at h
  obtain ⟨⟨⟨hid, rfl⟩, rfl⟩, rfl⟩ := h
  have hid : id 0 = 0 := by
    by_contra hne
    rw [if_pos hne] at hid
    cases hid
  have hneed : needId = false := by
    have hiff := hinv.needId
    simpa using hiff
  simp only at hflag
  rw [hneed, hflag, contextClear, ← hid, Function.update_eq_self]

/-- **A session goes on like a cleared one exactly when it has nothing to show.** -/
theorem continues_cleared {c : Client σ} {q : List UInt8} (h : OutIdle c.prot q)
    (hinv : c.context.Inv) (hflag : c.context.errorFlag = false) :
    c.Continues permgr mac { c with context := contextClear c.context } ↔
      contextVisit c.context = [] := by
  constructor
  · intro hcont
    obtain ⟨hstream, -⟩ := hcont c.answers [] [[wordDisplay]]
    let d : Client σ := { c with writes := [] }
    let d' : Client σ := { c with context := contextClear c.context, writes := [] }
    have hsame : (onDisplay d.started).stream = (onDisplay d'.started).stream := by
      rw [← onrequest_display permgr mac d, ← onrequest_display permgr mac d']
      exact hstream
    have hacc : ∀ answer ∈ ([] : List OutAnswer), answer.Accepts :=
      fun _ hm => absurd hm List.not_mem_nil
    obtain ⟨⟨q', hputs⟩, -⟩ := onDisplay_shows (c := d'.started) h hacc
      (by simp [d', Client.started, contextVisit, contextClear])
    have hclear : shownRecords (contextClear c.context) = [] := by
      simp [shownRecords, contextVisit, contextClear, contextHasError]
    have hemits : Emits d'.started (onDisplay d'.started) [[wordDone]] := by
      have := hputs.emits h
      rwa [show d'.started.context = contextClear c.context from rfl, hclear] at this
    have hdone := (@onDisplay_emits _ d.started _ h hacc [] List.not_mem_nil).1
      (hsame.trans hemits)
    exact (List.append_eq_nil_iff.1 hdone.1.symm).2
  · intro hvisit answers writes after
    rw [contextClear_of_visit hinv hflag hvisit]
    exact ⟨rfl, rfl⟩

/-- **After an installation or an uninstallation** that a session asks for. If it is answered done,
the session goes on like one whose context has just been cleared exactly when there was no
property to clear. If it is answered error, a following display lists exactly the properties that
were set, when the record of each of them fits. -/
theorem success_starts_afresh (mem : ProtMem) (idmem : Nat → UInt8) (system : σ)
    (serverLog : Bool) (answers : Nat → Answers) (writes : List OutAnswer) (input : List UInt8)
    (before : List (List CStr)) {request : List CStr}
    (hrequest : request = [wordInstall] ∨ request = [wordUninstall]) :
    let c := (clientCreate mem idmem system serverLog answers writes input).session permgr mac
      before
    let c' := c.session permgr mac [request]
    (Emits c c' [[wordDone]] →
      (c'.Continues permgr mac { c' with context := contextClear c'.context } ↔
        contextVisit c.context = [])) ∧
    ∀ text, Emits c c' [[wordError, text]] → ∀ answers writes, (∀ a ∈ writes, a.Accepts) →
      let d := { c' with answers, writes }
      (Emits d (d.session permgr mac [[wordDisplay]])
          (errorOn :: contextVisit c.context ++ [[wordDone]]) ↔
        ∀ fields ∈ contextVisit c.context, Fits fields) := by
  intro c c'
  have h₀ := outIdle_protReset mem
  obtain ⟨q, rs, hp⟩ := session_puts permgr mac
    (c := clientCreate mem idmem system serverLog answers writes input) h₀ before
  obtain ⟨ops, hops⟩ := session_operates permgr mac
    (c := clientCreate mem idmem system serverLog answers writes input) h₀ before
  have hinv : c.context.Inv := hops.context ▸ (Context.Inv.of_empty _ _).run ops
  obtain ⟨query, hreceived, r, hr⟩ : ∃ query, Receives c request query ∧
      ∃ r, query.action permgr mac c.started.context c.started.system = some r := by
    obtain rfl | rfl := hrequest
    · exact ⟨.install, ⟨by decide, rfl, fun h => absurd h id⟩, _, rfl⟩
    · exact ⟨.uninstall, ⟨by decide, rfl, fun h => absurd h id⟩, _, rfl⟩
  obtain ⟨hdone, herror⟩ := serve_action_status permgr mac (c := c.started) hp.idle hr
  rw [← onrequest_query hreceived] at hdone herror
  obtain ⟨q', rs', hflags⟩ := onrequest_flags permgr mac (c := c) hp.idle request
  have hidle : OutIdle c'.prot q' := hflags.puts.idle
  constructor
  · intro hemits
    obtain ⟨hcontext, hflag⟩ := hdone hemits
    have hcontext : c'.context = c.context := hcontext
    rw [continues_cleared permgr mac hidle (hcontext ▸ hinv) (hcontext ▸ hflag), hcontext]
  · intro text hemits answers' writes' hacc d
    have hcontext : c'.context = contextRaiseError c.context := herror text hemits
    have hshown : shownRecords d.context = errorOn :: contextVisit c.context := by
      rw [show d.context = contextRaiseError c.context from hcontext]
      rfl
    have hvisit : contextVisit d.context = contextVisit c.context := by
      rw [show d.context = contextRaiseError c.context from hcontext]
      rfl
    have hd : d.session permgr mac [[wordDisplay]] = onDisplay d.started :=
      onrequest_display permgr mac d
    have hne : [] ∉ shownRecords d.started.context :=
      fun hm => (shownRecords_strings _ _ hm).2.1 rfl
    rw [hd, ← hshown, ← hvisit]
    exact (onDisplay_emits (c := d.started) hidle hacc hne).trans (and_iff_right rfl)

end

/-- Without a property, an installation leaves nothing to clear. -/
theorem success_starts_afresh_empty :
    let c' := Client.fresh.session PermMgr.idle.recorded Mac.idle.recorded [[wordInstall]]
    c'.Continues PermMgr.idle.recorded Mac.idle.recorded
      { c' with context := contextClear c'.context } := by
  intro c'
  have hemits : Emits Client.fresh c' [[wordDone]] := by
    unfold Emits
    decide +kernel
  have hall := success_starts_afresh PermMgr.idle.recorded Mac.idle.recorded
    ⟨fun _ => 0, fun _ => 0, fun _ => 0⟩ (fun _ => 0) ((), []) false (fun _ => .plain) [] [] []
    (.inl rfl)
  exact (hall.1 hemits).2 (by decide +kernel)

/-- The id is still there after the installation, and the next one is made under it. -/
theorem success_keeps_context :
    let c := Client.fresh.session PermMgr.idle.recorded Mac.idle.recorded [[wordId, .lit "ab"]]
    let c' := c.session PermMgr.idle.recorded Mac.idle.recorded [[wordInstall]]
    Emits c c' [[wordDone]] ∧ ¬ c'.Continues PermMgr.idle.recorded Mac.idle.recorded
      { c' with context := contextClear c'.context } := by
  intro c c'
  refine ⟨by unfold Emits; decide +kernel, fun hcont => ?_⟩
  have hstream := (hcont c'.answers [] [[wordDisplay]]).1
  exact absurd hstream (by decide +kernel)

end SecLsmManager
