import SecLsmManager.Library.Greeting
import Mathlib.Data.Prod.Lex

/-!
# Every call can return

In every state of a call some step brings it nearer to its return: `Joint.rank` decreases, first
when the server takes the request, then with the bytes and the turns that are left.
-/

namespace SecLsmManager

open Lib

variable {σ : Type*} {permgr : PermMgr σ} {mac : Mac σ}

/-! ## What is left to do -/

/-- The count of the bytes that are buffered behind the record that is held. -/
def unread (p : Prot) : Nat :=
  if p.fields.count < 0 then p.inbuf.count else p.inbuf.count - p.inbuf.pos

theorem Buffered.unread {p : Prot} {b : List UInt8} (h : Buffered p b) :
    unread p = b.length := by
  rcases h with h | ⟨line, -, h⟩
  · rw [SecLsmManager.unread, if_pos h.waiting, h.length]
  · have hcount : ¬ p.fields.count < 0 := by
      rw [h.count]
      exact not_lt.2 (Int.natCast_nonneg _)
    rw [SecLsmManager.unread, if_neg hcount, ← h.bytes, cells_length]

/-- The turns of a stage without bytes to move. -/
def Stage.turns : Stage → Nat
  | .flush _ => 2
  | .next => 1
  | .read => 0

/-- The turns of what is being done. -/
def Doing.turns : Doing → Nat
  | .idle => 0
  | .runs _ stage => stage.turns

/-- The bytes to move, by the turns that they take, and the other turns. -/
def Joint.left (j : Joint σ) : Nat :=
  4 * j.library.handle.prot.wrokcnt + 2 * j.server.input.length + 4 * j.down.length +
    2 * unread j.library.handle.prot + j.library.doing.turns

/-- Whether the request is still to be taken, and what is left to do. -/
def Joint.rank (j : Joint σ) : ℕ ×ₗ ℕ :=
  toLex (if (exchanges j.library.returned).length < j.answered.length then 0 else 1, j.left)

/-- The call of `j` has returned. -/
def Joint.Ends (call : ApiCall) (j j' : Joint σ) : Prop :=
  j'.library.doing = .idle ∧ ∃ trace rc, trace.call = call ∧
    j'.library.returned = j.library.returned ++ [(trace, rc)]

/-- The call of `j` goes on, nearer to its return. -/
structure Joint.Nearer (call : ApiCall) (j j' : Joint σ) : Prop where
  runs : ∃ trace stage, j'.library.doing = .runs trace stage ∧ trace.call = call
  returned : j'.library.returned = j.library.returned
  rank : j'.rank < j.rank

theorem Joint.rank_lt {j j' : Joint σ} (hret : j'.library.returned = j.library.returned)
    (hans : j'.answered = j.answered) (hleft : j'.left < j.left) : j'.rank < j.rank := by
  rw [Joint.rank, Joint.rank, hret, hans, Prod.Lex.toLex_lt_toLex]
  exact Or.inr ⟨rfl, hleft⟩

/-- The request is taken. -/
theorem Joint.rank_lt_taken {j j' : Joint σ} (hret : j'.library.returned = j.library.returned)
    (hans : j.answered = exchanges j.library.returned)
    (htaken : j.answered.length < j'.answered.length) : j'.rank < j.rank := by
  have hbefore : ¬ (exchanges j.library.returned).length < j.answered.length := by
    rw [hans]
    exact lt_irrefl _
  have hafter : (exchanges j'.library.returned).length < j'.answered.length := by
    rw [hret, ← hans]
    exact htaken
  rw [Joint.rank, Joint.rank, if_neg hbefore, if_pos hafter, Prod.Lex.toLex_lt_toLex]
  exact Or.inl zero_lt_one

/-! ## The turns of a call -/

/-- In `flushw`, the library writes all that it has. -/
theorem Joint.Sound.flush_nearer {j : Joint σ} (h : j.Sound) {trace : Trace} {put : Bool}
    (hrun : j.library.doing = .runs trace (.flush put)) :
    ∃ j', Joint.Step permgr mac j j' ∧ (j.Ends trace.call j' ∨ j.Nearer trace.call j') := by
  have haccepts : ∀ n, (⟨.written n, none⟩ : OutAnswer).Accepts := fun n => Or.inl ⟨n, rfl⟩
  cases h.phase with
  | quiet hdoing hout =>
    rcases hdoing with hd | ⟨call, hlong, hd⟩
    · rw [hrun] at hd
      cases hd
    · rw [hrun] at hd
      cases hd
      obtain ⟨p, -, -, hflush⟩ := Library.flush_refused hout hlong ⟨.written 0, none⟩
      refine ⟨_, .flush hrun (haccepts 0), Or.inl ?_⟩
      rw [Joint.flush, hflush]
      exact ⟨rfl, _, _, rfl, rfl⟩
  | @asks call stage wrote q b _ hdoing hstage _ hout =>
    rw [hrun] at hdoing
    cases hdoing
    obtain ⟨rfl, hbuf⟩ := hstage
    rcases eq_or_ne q [] with rfl | hne
    · refine ⟨_, .flush hrun (haccepts 0), Or.inr ?_⟩
      rw [Joint.flush, Library.flush_nothing hout]
      refine ⟨⟨_, .next, rfl, rfl⟩, rfl, Joint.rank_lt rfl rfl ?_⟩
      simp [Joint.left, Library.flushed, hrun, Doing.turns, Stage.turns]
    · obtain ⟨p, hout', hsame, hflush⟩ := Library.flush_written hout hne
        ⟨call, [], wrote, []⟩ true q.length none
      refine ⟨_, .flush hrun (haccepts q.length), Or.inr ?_⟩
      rw [Joint.flush, hflush]
      refine ⟨⟨_, .flush true, rfl, rfl⟩, rfl, Joint.rank_lt rfl rfl ?_⟩
      have hpos := List.length_pos_of_ne_nil hne
      have hleft := hout.committed
      have hleft' := hout'.committed
      have hunread := hbuf.unread
      have hunread' := (hbuf.congr hsame).unread
      simp only [List.drop_length, List.length_nil] at hleft' hunread hunread'
      simp only [Joint.left, hrun, hleft, hleft', hunread, hunread', List.take_length,
        List.length_append, Doing.turns]
      omega
  | answers _ hdoing hstage hout =>
    rw [hrun] at hdoing
    cases hdoing
    obtain ⟨rfl, -⟩ := hstage
    refine ⟨_, .flush hrun (haccepts 0), Or.inr ?_⟩
    rw [Joint.flush, Library.flush_nothing hout]
    refine ⟨⟨_, .next, rfl, rfl⟩, rfl, Joint.rank_lt rfl rfl ?_⟩
    simp [Joint.left, Library.flushed, hrun, Doing.turns, Stage.turns]

/-- At the head of the loop of `wait_reply`, a record is taken or the call has to read. -/
theorem Joint.Sound.next_nearer {j : Joint σ} (h : j.Sound) {trace : Trace}
    (hrun : j.library.doing = .runs trace .next) :
    ∃ j', Joint.Step permgr mac j j' ∧ (j.Ends trace.call j' ∨ j.Nearer trace.call j') := by
  refine ⟨_, .next hrun, ?_⟩
  cases h.phase with
  | quiet hdoing =>
    rcases hdoing with hd | ⟨call, -, hd⟩
    · rw [hrun] at hd
      cases hd
    · rw [hrun] at hd
      cases hd
  | @asks call stage wrote q b hfit hdoing hstage hq hout =>
    rw [hrun] at hdoing
    cases hdoing
    have hbuf : Buffered j.library.handle.prot [] := hstage
    obtain rfl : q = [] := by
      by_contra hne
      cases hq hne
    obtain ⟨hpend, hsame⟩ := hbuf.next
    obtain ⟨p, hsame', hget, hp⟩ := protGet_nil hpend (hout.congr hsame).no_empty
    refine Or.inr ⟨⟨_, .read, by rw [Joint.next, Library.next_waits _ hget], rfl⟩, ?_, ?_⟩
    · rw [Joint.next, Library.next_waits _ hget]
    · rw [Joint.next, Library.next_waits _ hget]
      refine Joint.rank_lt rfl rfl ?_
      have hcommitted : p.wrokcnt = j.library.handle.prot.wrokcnt := (hsame.trans hsame').2.2.1
      have hunread := hbuf.unread
      have hunread' := Buffered.unread (Or.inl hp)
      simp [Joint.left, hrun, hcommitted, hunread, hunread', Doing.turns, Stage.turns]
  | @answers call stage read b shown strings last hfit hdoing hstage hout hshown hdisplay hlast _
      hread hbytes =>
    rw [hrun] at hdoing
    cases hdoing
    have hbuf : Buffered j.library.handle.prot b := hstage
    have hunread := hbuf.unread
    cases strings with
    | nil =>
      obtain ⟨hfitr, r, rfl⟩ := hlast.carried
      have hrecord : b ++ j.down = encode r.fields ++ [] := by simpa using hbytes
      obtain ⟨p, hsame, ⟨b', -, -, -, hpos, hnext⟩ | ⟨hp, -, -, hnext⟩⟩ :=
        Library.next_record r hfitr hstage hout hrecord
          ⟨call, shown.map List.tail, encode call.fields, read⟩
      · obtain ⟨code, hafter, -⟩ := aftersend_ending call hlast hpos
        rw [Joint.next, hnext]
        simp only [Library.replied, hafter]
        exact Or.inl ⟨rfl, _, _, rfl, rfl⟩
      · rw [Joint.next, hnext]
        refine Or.inr ⟨⟨_, .read, rfl, rfl⟩, rfl, Joint.rank_lt rfl rfl ?_⟩
        have hunread' := Buffered.unread (Or.inl hp)
        simp [Joint.left, hrun, hsame.2.2.1, hunread, hunread', Doing.turns, Stage.turns]
    | cons fields strings =>
      have hf : Shown fields := hshown fields (List.mem_append_right _ List.mem_cons_self)
      obtain rfl : call = .display := hdisplay (by simp)
      obtain ⟨hfitr, r, rfl⟩ := hf.carried
      have hrecord : b ++ j.down = encode r.fields ++ (strings ++ [last]).flatMap encode := by
        simpa using hbytes
      obtain ⟨p, hsame, ⟨b', -, hless, hbuf', -, hnext⟩ | ⟨hp, -, -, hnext⟩⟩ :=
        Library.next_record r hfitr hstage hout hrecord
          ⟨.display, shown.map List.tail, encode ApiCall.display.fields, read⟩
      · rw [Joint.next, hnext]
        simp only [Library.replied, aftersend_shown hf]
        refine Or.inr ⟨⟨_, .next, rfl, rfl⟩, rfl, Joint.rank_lt rfl rfl ?_⟩
        have hunread' := hbuf'.unread
        simp only [Joint.left, hrun, hsame.2.2.1, hunread, hunread', Doing.turns]
        omega
      · rw [Joint.next, hnext]
        refine Or.inr ⟨⟨_, .read, rfl, rfl⟩, rfl, Joint.rank_lt rfl rfl ?_⟩
        have hunread' := Buffered.unread (Or.inl hp)
        simp [Joint.left, hrun, hsame.2.2.1, hunread, hunread', Doing.turns, Stage.turns]

/-- Before `prot_read`, there are bytes to read or the server has the request to read or to take. -/
theorem Joint.Sound.read_nearer {j : Joint σ} (h : j.Sound) {trace : Trace}
    (hrun : j.library.doing = .runs trace .read) :
    ∃ j', Joint.Step permgr mac j j' ∧ j.Nearer trace.call j' := by
  cases h.phase with
  | quiet hdoing =>
    rcases hdoing with hd | ⟨call, -, hd⟩
    · rw [hrun] at hd
      cases hd
    · rw [hrun] at hd
      cases hd
  | @asks call stage wrote q b hfit hdoing hstage hq hout hwrote hdown hrests hvalid hline hans =>
    rw [hrun] at hdoing
    cases hdoing
    obtain rfl : q = [] := by
      by_contra hne
      cases hq hne
    rw [List.append_nil] at hline
    obtain ⟨-, ⟨strings, last, -, -, -, -, -, -, hpos, -⟩ | ⟨-, -, -, hagain, hroom, hrest⟩⟩ :=
      hrests.take_request permgr mac call.record hfit hline
    · refine ⟨_, .take hvalid, ⟨_, .read, hrun, rfl⟩, rfl, Joint.rank_lt_taken rfl hans ?_⟩
      simp [Joint.take, hpos]
    · obtain ⟨x, hx, -, hnil⟩ := hrests.read j.server.input.length
      refine ⟨_, .receive j.server.input.length hvalid hagain hrest, ⟨_, .read, hrun, rfl⟩, rfl,
        Joint.rank_lt rfl rfl ?_⟩
      have hne : x ≠ [] := fun he => hrest (hnil hroom he)
      have hpos := List.length_pos_of_ne_nil hne
      have hlen := congrArg List.length hx
      rw [List.length_append] at hlen
      simp only [Joint.left, Joint.receive]
      omega
  | @answers call stage read b shown strings last _ hdoing hstage _ _ _ _ hsome =>
    rw [hrun] at hdoing
    cases hdoing
    obtain ⟨p, x, hne, hx, hp, hsame, hread⟩ := Library.read_data hstage.1 hstage.2
      ⟨call, shown.map List.tail, encode call.fields, read⟩ (hsome rfl) j.down.length
    refine ⟨_, .read (some j.down.length) hrun (fun _ => hsome rfl), ?_⟩
    rw [Joint.read, hread]
    refine ⟨⟨_, .next, rfl, rfl⟩, rfl, Joint.rank_lt rfl rfl ?_⟩
    have hpos := List.length_pos_of_ne_nil hne
    have hlen := congrArg List.length hx
    have hunread := Buffered.unread (Or.inl hstage.1)
    have hunread' := Buffered.unread (Or.inl hp)
    rw [List.length_append] at hlen hunread'
    simp only [Joint.left, hrun, hsame.2.2.1, hunread, hunread', Doing.turns, Stage.turns]
    omega

/-- In every state of a call some step makes it return or brings it nearer to its return. -/
theorem Joint.Sound.progress (permgr : PermMgr σ) (mac : Mac σ) {j : Joint σ} (h : j.Sound)
    {trace : Trace} {stage : Stage} (hrun : j.library.doing = .runs trace stage) :
    ∃ j', Joint.Step permgr mac j j' ∧ (j.Ends trace.call j' ∨ j.Nearer trace.call j') := by
  cases stage with
  | flush put => exact h.flush_nearer hrun
  | next => exact h.next_nearer hrun
  | read =>
    obtain ⟨j', hstep, hnearer⟩ := h.read_nearer hrun
    exact ⟨j', hstep, Or.inr hnearer⟩

/-- **A call can return**, from every state that it comes to. -/
theorem Joint.Sound.completes {j : Joint σ} (h : j.Sound) {trace : Trace} {stage : Stage}
    (hrun : j.library.doing = .runs trace stage) :
    ∃ j', Relation.ReflTransGen (Joint.Step permgr mac) j j' ∧ j.Ends trace.call j' := by
  induction hrank : j.rank using WellFoundedLT.induction generalizing j trace stage with
  | ind rank ih =>
    subst hrank
    obtain ⟨j', hstep, hends | hnearer⟩ := Joint.Sound.progress permgr mac h hrun
    · exact ⟨j', .single hstep, hends⟩
    · obtain ⟨trace', stage', hrun', hcall⟩ := hnearer.runs
      obtain ⟨j'', hsteps, hidle, trace'', rc, hcall'', hret⟩ :=
        ih j'.rank hnearer.rank (h.step hstep) hrun' rfl
      refine ⟨j'', .head hstep hsteps, hidle, trace'', rc, hcall''.trans hcall, ?_⟩
      rw [hret, hnearer.returned]

/-- A call that begins between two calls goes on to `flushw`. -/
theorem Joint.Sound.starts {j : Joint σ} (h : j.Sound) (call : ApiCall) (opening : Int × Handle)
    (hidle : j.library.doing = .idle) :
    (∃ put, (j.start call opening).library.doing = .runs ⟨call, [], [], []⟩ (.flush put)) ∧
      (j.start call opening).library.returned = j.library.returned := by
  have hfree : ¬ j.library.handle.synclock = true := fun hl => h.lock.1 hl hidle
  have hstart := j.library.start_eq h.state hfree call opening
  cases h.phase with
  | asks _ hdoing =>
    rw [hidle] at hdoing
    cases hdoing
  | answers _ hdoing =>
    rw [hidle] at hdoing
    cases hdoing
  | quiet _ hout =>
    obtain ⟨p, -, ⟨-, -, hsend⟩ | ⟨-, -, hsend⟩⟩ := Library.send_spec
      { j.library with handle := { j.library.handle with synclock := true } } hout
      ⟨call, [], [], []⟩ false
    · rw [Joint.start, hstart, hsend]
      exact ⟨⟨true, rfl⟩, rfl⟩
    · rw [Joint.start, hstart, hsend]
      exact ⟨⟨false, rfl⟩, rfl⟩

/-! ## Main result -/

/-- Nothing is on its way, and nothing is buffered behind the last record of the last reply. -/
structure Joint.Clear (j : Joint σ) : Prop where
  down : j.down = []
  buffered : Buffered j.library.handle.prot []
  output : OutIdle j.library.handle.prot []
  server : j.server.Rests []
  input : j.server.input = []

/-- **The library stays in step with the server.** In every run from a handle that is connected:
every call that has returned has read the reply to its own request and no more, the replies are
what the server has written for the requests, in their order, nothing is left between two calls,
and a call that begins or is under way can return. -/
theorem library_in_step (permgr : PermMgr σ) (mac : Mac σ) {j₀ j : Joint σ} (h : j₀.Connected)
    (hrun : Relation.ReflTransGen (Joint.Step permgr mac) j₀ j) :
    (∀ e ∈ j.library.returned, Returned e) ∧
    (∃ taken, j.answered = exchanges j.library.returned ++ taken ∧ taken.length ≤ 1) ∧
    (j.library.doing = .idle → j.answered = exchanges j.library.returned ∧ j.Clear) ∧
    (∀ call opening, j.library.doing = .idle → j.server.invalid = false →
      ∃ j', Relation.ReflTransGen (Joint.Step permgr mac) (j.start call opening) j' ∧
        j.Ends call j') ∧
    ∀ trace stage, j.library.doing = .runs trace stage →
      ∃ j', Relation.ReflTransGen (Joint.Step permgr mac) j j' ∧ j.Ends trace.call j' := by
  have hsound := h.sound.run hrun
  refine ⟨hsound.returned, ?_, ?_, ?_, fun trace stage hruns => hsound.completes hruns⟩
  · cases hsound.phase with
    | quiet _ _ _ _ _ _ hans => exact ⟨[], by rw [hans, List.append_nil], Nat.zero_le 1⟩
    | asks _ _ _ _ _ _ _ _ _ _ hans => exact ⟨[], by rw [hans, List.append_nil], Nat.zero_le 1⟩
    | answers _ _ _ _ _ _ _ _ _ _ _ _ hans => exact ⟨_, hans, le_refl 1⟩
  · intro hidle
    cases hsound.phase with
    | quiet _ hout hbuf hdown hrests hinput hans => exact ⟨hans, hdown, hbuf, hout, hrests, hinput⟩
    | asks _ hdoing =>
      rw [hidle] at hdoing
      cases hdoing
    | answers _ hdoing =>
      rw [hidle] at hdoing
      cases hdoing
  · intro call opening hidle hvalid
    obtain ⟨⟨put, hruns⟩, hret⟩ := hsound.starts call opening hidle
    obtain ⟨j', hsteps, hends, trace, rc, hcall, hret'⟩ :=
      (hsound.start call opening hidle hvalid).completes hruns
    exact ⟨j', hsteps, hends, trace, rc, hcall, hret'.trans (by rw [hret])⟩

/-- A display after the greeting returns. -/
theorem library_in_step_display :
    let j₀ := (Joint.greet PermMgr.idle.recorded Mac.idle.recorded
      ⟨fun _ => 0, fun _ => 0, fun _ => 0⟩ Client.fresh).2
    ∃ j, Relation.ReflTransGen (Joint.Step PermMgr.idle.recorded Mac.idle.recorded) j₀ j ∧
      j.Clear ∧ ∃ trace rc, trace.call = .display ∧ j.library.returned = [(trace, rc)] ∧
        Returned (trace, rc) := by
  intro j₀
  have hconnected : j₀.Connected := (Joint.greet_connected PermMgr.idle.recorded
    Mac.idle.recorded _ _ _ _ _ _ (List.forall_mem_nil _)).2
  have hvalid : j₀.server.invalid = false := by decide +kernel
  obtain ⟨j, hsteps, hidle, trace, rc, hcall, hret⟩ :=
    (library_in_step PermMgr.idle.recorded Mac.idle.recorded hconnected .refl).2.2.2.1 .display
      (0, j₀.library.handle) hconnected.idle hvalid
  have hrun : Relation.ReflTransGen (Joint.Step PermMgr.idle.recorded Mac.idle.recorded) j₀ j :=
    .head (.start .display _ hconnected.idle hvalid) hsteps
  obtain ⟨hall, -, hclear, -⟩ :=
    library_in_step PermMgr.idle.recorded Mac.idle.recorded hconnected hrun
  rw [hconnected.returned, List.nil_append] at hret
  refine ⟨j, hrun, (hclear hidle).2, trace, rc, hcall, hret, ?_⟩
  exact hall _ (hret ▸ List.mem_singleton_self _)

end SecLsmManager
