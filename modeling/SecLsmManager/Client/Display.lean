import SecLsmManager.Client.Operations

/-!
# What a display shows

On a channel that accepts, a display ends with done exactly when each of its records fits in the
buffer (`onDisplay_shows`, `onDisplay_fails`). The record of a property is longer than the request
that sets it, so that a property can be accepted and not be shown.
-/

namespace SecLsmManager

variable {σ : Type*}

/-! ## Displays on a channel that accepts -/

def internalError : List CStr := [wordError, .lit "internal"]

theorem shownRecords_fit {context : Context} :
    (∀ fields ∈ shownRecords context, Fits fields) ↔
      ∀ fields ∈ contextVisit context, Fits fields := by
  have hon : Fits errorOn := by decide +kernel
  constructor
  · exact fun h fields hf => h fields (List.mem_append_right _ hf)
  · intro h fields hf
    obtain hf | hf := List.mem_append.1 hf
    · split at hf
      · exact List.mem_singleton.1 hf ▸ hon
      · cases hf
    · exact h fields hf

/-- **A display whose records all fit** emits them all, and done. -/
theorem onDisplay_shows {c : Client σ} {q : List UInt8} (h : OutIdle c.prot q) (ha : c.Accepting)
    (hfit : ∀ fields ∈ contextVisit c.context, Fits fields) :
    (∃ q', Puts c (onDisplay c) q q' (shownRecords c.context ++ [[wordDone]])) ∧
      c.SameCore (onDisplay c) := by
  obtain ⟨q₁, rs, hv⟩ := sendDisplay_spec h
  have hrc := hv.fits ha (shownRecords_fit.2 hfit)
  obtain ⟨rfl, -⟩ := hv.whole hrc
  obtain ⟨q₂, ends, hputs, hcore, -, hacc⟩ := sendDone_spec hv.puts.idle none
  have hends := (hacc (hv.puts.accepting ha)).2 done_fits
  subst hends
  simp only [onDisplay, hrc, ge_iff_le, Int.le_refl, if_true]
  exact ⟨⟨q₂, hv.puts.trans hputs⟩, hv.core.trans hcore⟩

/-- **A display with a record that does not fit** emits the records before it and the error
internal. -/
theorem onDisplay_fails {c : Client σ} {q : List UInt8} (h : OutIdle c.prot q) (ha : c.Accepting)
    (hfit : ¬ ∀ fields ∈ contextVisit c.context, Fits fields) :
    (∃ q' rs, rs <+: shownRecords c.context ∧
        Puts c (onDisplay c) q q' (rs ++ [internalError])) ∧
      { c with context := contextRaiseError c.context }.SameCore (onDisplay c) := by
  obtain ⟨q₁, rs, hv⟩ := sendDisplay_spec h
  have hrc : ¬ (sendDisplay c).1 ≥ 0 := by
    intro h0
    have heq : (sendDisplay c).1 = 0 := Int.le_antisymm hv.code h0
    exact hfit (shownRecords_fit.1 (hv.whole heq).2)
  obtain ⟨q₂, ends, hputs, hcore, -, hacc⟩ := sendError_spec hv.puts.idle (.lit "internal")
  have hends := (hacc (hv.puts.accepting ha)).2 goodInternal.1
  subst hends
  have hcore' : { c with context := contextRaiseError c.context }.SameCore
      { (sendDisplay c).2 with context := contextRaiseError (sendDisplay c).2.context } :=
    ⟨congrArg contextRaiseError hv.core.context, hv.core.version, hv.core.invalid,
      hv.core.connected, hv.core.serverLog, hv.core.system, hv.core.answers, hv.core.input⟩
  simp only [onDisplay, if_neg hrc]
  exact ⟨⟨q₂, rs, hv.isPrefix, hv.puts.trans hputs⟩, hcore'.trans hcore⟩

/-- The records of a display do not end one another. -/
theorem shownRecords_ne_nil {context : Context} {rs : List (List CStr)}
    (h : rs <+: shownRecords context) {last : List CStr} (hlast : last ≠ []) :
    [] ∉ rs ++ [last] := by
  intro hm
  obtain hm | hm := List.mem_append.1 hm
  · exact (shownRecords_strings context _ (h.subset hm)).2.1 rfl
  · exact hlast (List.mem_singleton.1 hm).symm

/-- **A display that ends with done** emits the shown records, and they all fit. -/
theorem onDisplay_emits {c : Client σ} {q : List UInt8} (h : OutIdle c.prot q) (ha : c.Accepting)
    {rs : List (List CStr)} (hrs : [] ∉ rs) :
    Emits c (onDisplay c) (rs ++ [[wordDone]]) ↔
      rs = shownRecords c.context ∧ ∀ fields ∈ contextVisit c.context, Fits fields := by
  have hne : [] ∉ rs ++ [[wordDone]] := by simpa using hrs
  rcases Classical.em (∀ fields ∈ contextVisit c.context, Fits fields) with hfit | hfit
  · obtain ⟨⟨q', hputs⟩, -⟩ := onDisplay_shows h ha hfit
    refine ⟨fun hemits => ⟨?_, hfit⟩, fun hall => hall.1 ▸ hputs.emits h⟩
    have hsame := hemits.unique (hputs.emits h) hne
      (shownRecords_ne_nil (List.prefix_refl _) (by simp))
    exact List.append_cancel_right hsame
  · refine ⟨fun hemits => ?_, fun hall => absurd hall.2 hfit⟩
    obtain ⟨⟨q', rs', hrs', hputs⟩, -⟩ := onDisplay_fails h ha hfit
    have hsame := hemits.unique (hputs.emits h) hne
      (shownRecords_ne_nil hrs' (by simp [internalError]))
    have hlast := congrArg List.getLast? hsame
    simp only [List.getLast?_concat, Option.some.injEq] at hlast
    exact absurd hlast (by decide)

/-! ## Main result -/

section
variable (permgr : PermMgr σ) (mac : Mac σ)

theorem onrequest_display (c : Client σ) :
    onrequest permgr mac c [wordDisplay] = onDisplay c.started :=
  onrequest_query (q := .display) ⟨by decide, rfl, fun h => absurd h id⟩

/-- A property that is accepted but whose record does not fit cannot be shown. -/
theorem accepted_not_shown {c : Client σ} {q : List UInt8} (h : OutIdle c.prot q)
    (ha : c.Accepting) {args : List CStr} {query : Query} {op : ContextOp}
    (hr : Receives c args query) (hop : query.operation (c.answers 0) = some op)
    (hrc : (c.context.step op).1 ≥ 0) (hflag : (c.context.step op).2.errorFlag = false)
    (hno : ¬ ∀ fields ∈ contextVisit (c.context.step op).2, Fits fields) :
    let c' := c.session permgr mac [args]
    let d := c'.session permgr mac [[wordDisplay]]
    Emits c c' [[wordDone]] ∧ d.context ≠ c'.context := by
  intro c' d
  obtain ⟨⟨q', hputs⟩, hcontext, -⟩ := serve_done permgr mac (c := c.started) h ha hop hrc
  have hc' : c' = c.started.serve permgr mac query := onrequest_query hr
  rw [← hc'] at hputs hcontext
  have hd : d = onDisplay c'.started := onrequest_display permgr mac c'
  have hwide : ¬ ∀ fields ∈ contextVisit c'.started.context, Fits fields := by
    rw [show c'.started.context = (c.context.step op).2 from hcontext]
    exact hno
  obtain ⟨-, hfails⟩ := onDisplay_fails (c := c'.started) hputs.idle (hputs.accepting ha) hwide
  refine ⟨hputs.emits h, fun hsame => ?_⟩
  have hraised : d.context = contextRaiseError c'.context := hd ▸ hfails.context
  have hdown : c'.context.errorFlag = false := by
    rw [hcontext]
    exact hflag
  rw [← hsame, hraised] at hdown
  cases hdown

/-- **A display is the list of the properties exactly when each record fits.** In every session,
on a channel that accepts: if the records of the properties all fit, a display emits them and done
and leaves the context as it is. If one does not fit, a display ends with the error internal and
raises the error flag. -/
theorem display_shows_properties (mem : ProtMem) (idmem : Nat → UInt8) (system : σ)
    (serverLog : Bool) (answers : Nat → Answers) (writes : List OutAnswer) (input : List UInt8)
    (hacc : ∀ answer ∈ writes, answer.Accepts) (before : List (List CStr)) :
    let c := (clientCreate mem idmem system serverLog answers writes input).session permgr mac
      before
    let d := c.session permgr mac [[wordDisplay]]
    (Emits c d (shownRecords c.context ++ [[wordDone]]) ∧ d.context = c.context ↔
      ∀ fields ∈ contextVisit c.context, Fits fields) ∧
    ((∃ fields ∈ contextVisit c.context, ¬ Fits fields) →
      (∃ rs, Emits c d (rs ++ [internalError])) ∧ d.context.errorFlag = true) := by
  intro c d
  obtain ⟨q, rs₀, hp⟩ := session_puts permgr mac
    (c := clientCreate mem idmem system serverLog answers writes input) (outIdle_protReset mem)
    before
  have hc : OutIdle c.started.prot q := hp.idle
  have ha : c.started.Accepting := hp.accepting hacc
  have hd : d = onDisplay c.started := onrequest_display permgr mac c
  have hne : [] ∉ shownRecords c.started.context :=
    fun hm => (shownRecords_strings _ _ hm).2.1 rfl
  constructor
  · rw [hd]
    constructor
    · rintro ⟨hemits, -⟩
      exact ((onDisplay_emits hc ha hne).1 hemits).2
    · intro hfit
      have hcore := (onDisplay_shows hc ha hfit).2
      exact ⟨(onDisplay_emits hc ha hne).2 ⟨rfl, hfit⟩, hcore.context⟩
  · rintro ⟨fields, hf, hno⟩
    obtain ⟨⟨q', rs, -, hputs⟩, hcore⟩ := onDisplay_fails hc ha fun h => hno (h fields hf)
    exact ⟨⟨rs, hd ▸ hputs.emits hc⟩, hd ▸ congrArg Context.errorFlag hcore.context⟩

end

/-- An id, on a channel that accepts all. -/
theorem display_shows_properties_id :
    let c := Client.fresh.session PermMgr.idle.recorded Mac.idle.recorded [[wordId, .lit "ab"]]
    Emits c (c.session PermMgr.idle.recorded Mac.idle.recorded [[wordDisplay]])
      (shownRecords c.context ++ [[wordDone]]) := by
  intro c
  have hall := display_shows_properties PermMgr.idle.recorded Mac.idle.recorded
    ⟨fun _ => 0, fun _ => 0, fun _ => 0⟩ (fun _ => 0) ((), []) false (fun _ => .plain) [] [] nofun
    [[wordId, .lit "ab"]]
  exact (hall.1.2 (by decide +kernel)).1

/-- A permission of the largest size, most of it to be escaped. -/
def widePermission : CStr :=
  ⟨List.replicate 960 32 ++ List.replicate 64 97, by decide +kernel⟩

/-- The request that sets it fits in the buffer and is answered done, its display is not. -/
theorem display_loses_permission :
    let c := Client.fresh.session PermMgr.idle.recorded Mac.idle.recorded
      [[wordPermission, widePermission]]
    let d := c.session PermMgr.idle.recorded Mac.idle.recorded [[wordDisplay]]
    Fits [wordPermission, widePermission] ∧ Emits Client.fresh c [[wordDone]] ∧
      ¬ (Emits c d (shownRecords c.context ++ [[wordDone]]) ∧ d.context = c.context) := by
  intro c d
  have hshown := accepted_not_shown PermMgr.idle.recorded Mac.idle.recorded (c := Client.fresh)
    (outIdle_protReset _) nofun
    (⟨by decide +kernel, rfl, fun h => absurd h id⟩ : Receives Client.fresh
      [wordPermission, widePermission] (.permission widePermission))
    rfl (by decide +kernel) (by decide +kernel) (by decide +kernel)
  exact ⟨by decide +kernel, hshown.1, fun hd => hshown.2 hd.2⟩

end SecLsmManager
