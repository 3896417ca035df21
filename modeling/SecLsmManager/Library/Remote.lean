import SecLsmManager.Client.Refinement
import SecLsmManager.Library.Completion

/-!
# A call of the library is a call of the manager

For a program, a handle and its session are the manager itself: the calls that have returned, in
any run of the two over their channels, have the successes and the strings that they would have if
they were made one after the other on the machine, and the session holds the state of the machine.
-/

namespace SecLsmManager

variable {σ : Type*} {permgr : PermMgr σ} {mac : Mac σ}

/-! ## Calls on the machine -/

namespace Manager

section
variable (permgr : PermMgr σ) (mac : Mac σ)

/-- What a call gives when it is made on the machine: whether it succeeds, and the strings that its
callback gets. A call whose request is too long is not made. -/
def call (m : Manager σ) (call : ApiCall) : (Bool × List (List CStr)) × Manager σ :=
  if Fits call.fields then
    let (records, m) := m.answer permgr mac call.fields
    ((records.getLast?.bind List.head? = some wordDone, records.dropLast.map List.tail), m)
  else ((false, []), m)

/-- Calls, one after the other. -/
def calls : List ApiCall → Manager σ → List (Bool × List (List CStr)) × Manager σ
  | [], m => ([], m)
  | c :: cs, m =>
    let (outcome, m) := m.call permgr mac c
    let (outcomes, m) := calls cs m
    (outcome :: outcomes, m)

end

/-- No reply has an empty record. -/
theorem conclude_ne_nil (m : Manager σ) (rc : Int) (texts : ErrorTexts) :
    [] ∉ (m.conclude rc texts).1 := by
  rw [conclude]
  split <;> simp

/-- No record of a reply is empty. -/
theorem serve_ne_nil (m : Manager σ) (shows : Bool) (query : Query) :
    [] ∉ (m.serve permgr mac shows query).1 := by
  have hshown : [] ∉ shownRecords m.context :=
    fun hm => (shownRecords_strings m.context _ hm).2.1 rfl
  cases query with
  | hello versions hv => simp [serve]
  | clear => simp [serve]
  | log setlog => simp [serve]
  | display =>
    rw [serve, display]
    split
    · simp [hshown]
    · intro hm
      obtain hm | hm := List.mem_append.1 hm
      · exact hshown ((List.takeWhile_prefix _).subset hm)
      · exact absurd (List.mem_singleton.1 hm) (by simp [internalError])
  | _ => exact conclude_ne_nil _ _ _

/-- So none is skipped by the library. -/
theorem reply_ne_nil (m : Manager σ) (shows : Bool) (args : List CStr) :
    [] ∉ (m.reply permgr mac shows args).1 := by
  rw [reply]
  split
  · exact List.not_mem_nil
  split
  · exact serve_ne_nil _ _ _
  · simp [protocolError]

end Manager

/-! ## The requests that the server has taken -/

/-- The server is the machine `m` after the requests that it has taken, and it has written the
replies of the machine. -/
structure Joint.Tracks (permgr : PermMgr σ) (mac : Mac σ) (m : Manager σ) (j : Joint σ) :
    Prop where
  view : j.server.view = (m.run permgr mac (j.answered.map Prod.fst)).2
  replies : j.answered.map Prod.snd =
    (m.run permgr mac (j.answered.map Prod.fst)).1.map fun records => records.flatMap encode

/-- Only a request that is taken matters. -/
theorem Joint.Tracks.congr {m : Manager σ} {j j' : Joint σ} (h : j.Tracks permgr mac m)
    (hview : j'.server.view = j.server.view) (hanswered : j'.answered = j.answered) :
    j'.Tracks permgr mac m := by
  refine ⟨?_, ?_⟩
  · rw [hview, hanswered]
    exact h.view
  · rw [hanswered]
    exact h.replies

/-- The server of a joint is between two records. -/
theorem Joint.Sound.rests {j : Joint σ} (h : j.Sound) : ∃ b, j.server.Rests b := by
  cases h.phase with
  | quiet _ _ _ _ hrests => exact ⟨_, hrests⟩
  | asks _ _ _ _ _ _ _ hrests => exact ⟨_, hrests⟩
  | answers _ _ _ _ _ _ _ _ _ _ hrests => exact ⟨_, hrests⟩

/-- A turn of the server answers one more request as the machine does. -/
theorem Joint.Tracks.take {m : Manager σ} {j : Joint σ} (h : j.Tracks permgr mac m)
    (hsound : j.Sound) (hvalid : j.server.invalid = false) :
    (j.take permgr mac).Tracks permgr mac m := by
  obtain ⟨b, hrests⟩ := hsound.rests
  obtain ⟨-, b', -, -, -, -, hview, -, -, -, hneg⟩ |
      ⟨-, line, b', shows, q', -, -, -, -, -, -, hpos, hargs, hview, hacc⟩ :=
    Client.take_manages permgr mac hrests.idle hrests.pending hvalid
  · refine h.congr hview ?_
    simp only [Joint.take, if_neg (not_lt.2 hneg.le)]
  · obtain ⟨-, -, rfl, hsent⟩ := hacc hrests.accepting rfl
    have hanswered : (j.take permgr mac).answered = j.answered ++
        [(report line, (j.server.view.answer permgr mac (report line)).1.flatMap encode)] := by
      simp only [Joint.take, if_pos hpos, hargs, hsent, List.drop_left]
      rfl
    have hserver : (j.take permgr mac).server.view =
        (j.server.view.answer permgr mac (report line)).2 := hview
    refine ⟨?_, ?_⟩
    · rw [hserver, hanswered, List.map_append, List.map_singleton, Manager.run_concat, h.view]
    · rw [hanswered, List.map_append, List.map_append, List.map_singleton, List.map_singleton,
        Manager.run_concat, List.map_append, List.map_singleton, h.replies, h.view]

/-- A step keeps the server in step with the machine. -/
theorem Joint.Tracks.step {m : Manager σ} {j j' : Joint σ} (h : j.Tracks permgr mac m)
    (hsound : j.Sound) (hstep : Joint.Step permgr mac j j') : j'.Tracks permgr mac m := by
  cases hstep with
  | start call opening _ _ => exact h.congr rfl rfl
  | flush _ _ => exact h.congr rfl rfl
  | next _ => exact h.congr rfl rfl
  | read cut _ _ => exact h.congr rfl rfl
  | take hvalid => exact h.take hsound hvalid
  | receive n _ _ _ => exact h.congr rfl rfl

/-- So does any run of the joint. -/
theorem Joint.Tracks.steps {m : Manager σ} {j j' : Joint σ} (h : j.Tracks permgr mac m)
    (hsound : j.Sound) (hrun : Relation.ReflTransGen (Joint.Step permgr mac) j j') :
    j'.Tracks permgr mac m := by
  induction hrun with
  | refl => exact h
  | tail hrun hstep ih => exact ih.step (hsound.run hrun) hstep

/-! ## The calls that have returned -/

/-- What the program sees of a call: whether it succeeded, and the strings of its callback. -/
def outcome (e : Trace × Int) : Bool × List (List CStr) := (0 ≤ e.2, e.1.shown)

/-- The outcome of a call, from the reply that the machine gives. -/
theorem outcome_of_reply {e : Trace × Int} {records : List (List CStr)} (hne : [] ∉ records)
    (hread : e.1.read = records.flatMap encode) {strings : List (List CStr)} {last : List CStr}
    (h : Exchange e.1 e.2 strings last) :
    outcome e = (decide (records.getLast?.bind List.head? = some wordDone),
      records.dropLast.map List.tail) := by
  have hlast : last ≠ [] := by
    rintro rfl
    rcases h.ending with h | h <;> cases h
  have hstrings : [] ∉ strings ++ [last] := by
    intro hm
    obtain hm | hm := List.mem_append.1 hm
    · cases h.keyed _ hm
    · exact hlast (List.mem_singleton.1 hm).symm
  obtain rfl := flatMap_encode_injective hne hstrings (hread.symm.trans h.read)
  rw [outcome, h.shown, List.getLast?_concat, List.dropLast_concat]
  exact Prod.ext (decide_eq_decide.2 h.code) rfl

/-- The calls that have returned had the outcomes of the machine, if their requests had its
replies. -/
theorem calls_of_exchanges (permgr : PermMgr σ) (mac : Mac σ) {returned : List (Trace × Int)}
    (hreturned : ∀ e ∈ returned, Returned e) {m : Manager σ}
    (hreplies : (exchanges returned).map Prod.snd =
      (m.run permgr mac ((exchanges returned).map Prod.fst)).1.map
        fun records => records.flatMap encode) :
    m.calls permgr mac (returned.map fun e => e.1.call) =
      (returned.map outcome, (m.run permgr mac ((exchanges returned).map Prod.fst)).2) := by
  induction returned generalizing m with
  | nil => rfl
  | cons e returned ih =>
    obtain ⟨he, hreturned⟩ := List.forall_mem_cons.1 hreturned
    rcases Decidable.em (Fits e.1.call.fields) with hfit | hlong
    · rw [Returned, if_pos hfit] at he
      obtain ⟨strings, last, he⟩ := he
      have hexchanges : exchanges (e :: returned) =
          (e.1.call.fields, e.1.read) :: exchanges returned := by
        simp [exchanges, hfit]
      rw [hexchanges] at hreplies ⊢
      simp only [List.map_cons, Manager.run, List.cons.injEq] at hreplies ⊢
      have hcall : m.call permgr mac e.1.call =
          (outcome e, (m.answer permgr mac e.1.call.fields).2) := by
        rw [Manager.call, if_pos hfit]
        exact Prod.ext (outcome_of_reply (Manager.reply_ne_nil m _ _) hreplies.1 he).symm rfl
      simp only [Manager.calls, hcall, ih hreturned hreplies.2]
    · rw [Returned, if_neg hlong] at he
      obtain ⟨hcode, -, -, hshown⟩ := he
      have hexchanges : exchanges (e :: returned) = exchanges returned := by
        simp [exchanges, hlong]
      rw [hexchanges] at hreplies ⊢
      have houtcome : outcome e = (false, []) := by
        rw [outcome, hcode, hshown]
        rfl
      simp only [List.map_cons, Manager.calls, Manager.call, if_neg hlong, ih hreturned hreplies,
        houtcome]

/-- Between two calls, the library and its session are the machine after the calls. -/
theorem Joint.Connected.calls {j₀ j : Joint σ} (h : j₀.Connected)
    (hrun : Relation.ReflTransGen (Joint.Step permgr mac) j₀ j) (hidle : j.library.doing = .idle) :
    j₀.server.view.calls permgr mac (j.library.returned.map fun e => e.1.call) =
      (j.library.returned.map outcome, j.server.view) := by
  have hsound := h.sound.run hrun
  have htracks : j.Tracks permgr mac j₀.server.view := by
    refine Joint.Tracks.steps ⟨?_, ?_⟩ h.sound hrun
    · rw [h.answered]
      rfl
    · rw [h.answered]
      rfl
  have hanswered : j.answered = exchanges j.library.returned := by
    cases hsound.phase with
    | quiet _ _ _ _ _ _ hans => exact hans
    | asks _ hdoing =>
      rw [hidle] at hdoing
      cases hdoing
    | answers _ hdoing =>
      rw [hidle] at hdoing
      cases hdoing
  have hreplies := htracks.replies
  rw [htracks.view]
  rw [hanswered] at hreplies ⊢
  exact calls_of_exchanges permgr mac hsound.returned hreplies

/-! ## Main result -/

/-- **The library refines the manager.** In every run of a connected handle and its session,
whatever the order of their turns and the cuts of the bytes, and whenever no call is under way: the
successes and the strings of the calls that have returned, and the state of the session, are those
of the machine on which the calls are made one after the other. -/
theorem library_refines_manager (permgr : PermMgr σ) (mac : Mac σ) {j₀ j : Joint σ}
    (h : j₀.Connected) (hrun : Relation.ReflTransGen (Joint.Step permgr mac) j₀ j)
    (hidle : j.library.doing = .idle) :
    (j.library.returned.map outcome, j.server.view) =
      j₀.server.view.calls permgr mac (j.library.returned.map fun e => e.1.call) :=
  (h.calls hrun hidle).symm

/-- A display after the greeting succeeds and shows nothing. -/
theorem library_refines_manager_display :
    let j₀ := (Joint.greet PermMgr.idle.recorded Mac.idle.recorded
      ⟨fun _ => 0, fun _ => 0, fun _ => 0⟩ Client.fresh).2
    ∃ j, Relation.ReflTransGen (Joint.Step PermMgr.idle.recorded Mac.idle.recorded) j₀ j ∧
      j.library.returned.map outcome = [(true, [])] := by
  intro j₀
  have hconnected : j₀.Connected := (Joint.greet_connected PermMgr.idle.recorded
    Mac.idle.recorded _ _ _ _ _ _ (List.forall_mem_nil _)).2
  have hvalid : j₀.server.invalid = false := by decide +kernel
  obtain ⟨⟨put, hruns⟩, hret⟩ :=
    hconnected.sound.starts .display (0, j₀.library.handle) hconnected.idle
  have hstart := hconnected.sound.start .display (0, j₀.library.handle) hconnected.idle hvalid
  have hends : ∃ j', Relation.ReflTransGen (Joint.Step PermMgr.idle.recorded Mac.idle.recorded)
      (j₀.start .display (0, j₀.library.handle)) j' ∧
      Joint.Ends .display (j₀.start .display (0, j₀.library.handle)) j' :=
    hstart.completes hruns
  obtain ⟨j, hsteps, hidle, trace, rc, hcall, hlast⟩ := hends
  have hrun : Relation.ReflTransGen (Joint.Step PermMgr.idle.recorded Mac.idle.recorded) j₀ j :=
    .head (.start .display _ hconnected.idle hvalid) hsteps
  have hcalls := library_refines_manager PermMgr.idle.recorded Mac.idle.recorded hconnected hrun
    hidle
  rw [hret, hconnected.returned, List.nil_append] at hlast
  have hmap : (j.library.returned.map fun e => e.1.call) = [ApiCall.display] := by
    rw [hlast, List.map_singleton, hcall]
  rw [hmap] at hcalls
  refine ⟨j, hrun, (congrArg Prod.fst hcalls).trans ?_⟩
  decide +kernel

end SecLsmManager
