import SecLsmManager.Library.Joint

/-!
# The library and the server stay in step

`Joint.Sound` is the invariant of the steps of a handle and its session: between two calls nothing
is under way, in a call either the request is on its way to the server (`asks`) or its reply is on
its way back (`answers`).
-/

namespace SecLsmManager

open Lib

variable {σ : Type*} {permgr : PermMgr σ} {mac : Mac σ}

/-! ## Requests -/

/-- The record of a call. -/
def ApiCall.record (call : ApiCall) : Record where
  fields := call.fields
  ne_nil := by
    cases call with
    | log on off =>
      rw [fields]
      split <;> exact List.cons_ne_nil _ _
    | _ => exact List.cons_ne_nil _ _
  le_max := by
    cases call with
    | log on off =>
      rw [fields]
      split <;> simp [PROT_MAX_FIELDS]
    | _ => simp [fields, PROT_MAX_FIELDS]
  ne_empty := by
    intro h
    cases call with
    | log on off =>
      rw [fields] at h
      split at h
      · cases (List.cons.inj h).2
      · exact absurd (List.cons.inj h).1 (by decide)
    | clear => exact absurd (List.cons.inj h).1 (by decide)
    | install => exact absurd (List.cons.inj h).1 (by decide)
    | uninstall => exact absurd (List.cons.inj h).1 (by decide)
    | display => exact absurd (List.cons.inj h).1 (by decide)
    | _ => cases (List.cons.inj h).2

theorem ApiCall.display_of_fields {call : ApiCall} (h : call.fields = [wordDisplay]) :
    call = .display := by
  cases call with
  | display => rfl
  | log on off =>
    rw [fields] at h
    split at h
    · cases (List.cons.inj h).2
    · exact absurd (List.cons.inj h).1 (by decide)
  | clear => exact absurd (List.cons.inj h).1 (by decide)
  | install => exact absurd (List.cons.inj h).1 (by decide)
  | uninstall => exact absurd (List.cons.inj h).1 (by decide)
  | _ => cases (List.cons.inj h).2

/-! ## Replies -/

/-- The callback of a display gets its strings. -/
theorem aftersend_shown {fields : List CStr} (h : Shown fields) :
    ApiCall.display.aftersend fields fields.length = none := by
  have hlong : (fields.length : Int) > 2 := by
    have hlt := h.long
    omega
  rw [ApiCall.aftersend, waitDisplayReplies, if_pos ⟨hlong, h.key⟩]

theorem rawWaitDoneOrError_ending {fields : List CStr} (h : Ending fields) {rc : Int}
    (hrc : rc > 0) :
    fields.head? = some wordDone ∧ rawWaitDoneOrError fields rc = rc ∨
      fields.head? ≠ some wordDone ∧ rawWaitDoneOrError fields rc < 0 := by
  rw [rawWaitDoneOrError, if_pos hrc]
  rcases h.key with hdone | herror
  · exact Or.inl ⟨hdone, if_pos hdone⟩
  · have hne : fields.head? ≠ some wordDone := by
      rw [herror]
      exact fun heq => wordDone_ne_wordError (Option.some.inj heq).symm
    refine Or.inr ⟨hne, ?_⟩
    rw [if_neg hne, if_pos herror]
    decide

/-- The end of a reply makes its call return, with success when it is done. -/
theorem aftersend_ending (call : ApiCall) {fields : List CStr} (h : Ending fields) {rc : Int}
    (hrc : rc > 0) :
    ∃ code, call.aftersend fields rc = some code ∧
      (0 ≤ code ↔ fields.head? = some wordDone) := by
  have hraw := rawWaitDoneOrError_ending h hrc
  have hwait : 0 ≤ waitDoneOrError fields rc ↔ fields.head? = some wordDone := by
    rw [waitDoneOrError]
    rcases hraw with ⟨hdone, heq⟩ | ⟨hne, hneg⟩
    · simp [hdone, heq, not_lt.2 hrc.le]
    · simp [hne, hneg]
  cases call with
  | log on off =>
    refine ⟨_, rfl, ?_⟩
    rw [waitLogReply]
    rcases hraw with ⟨hdone, heq⟩ | ⟨hne, hneg⟩
    · simp only [heq, if_pos hrc, hdone, iff_true]
      split
      · exact zero_le_one
      · exact le_refl 0
    · simp only [if_neg (not_lt.2 hneg.le), hne, iff_false, not_le]
      exact hneg
  | display =>
    have hstring : fields.head? ≠ some wordString := by
      rcases h.key with hdone | herror
      · rw [hdone]
        decide
      · rw [herror]
        decide
    rw [ApiCall.aftersend, waitDisplayReplies, if_neg (fun hs => hstring hs.2)]
    rcases h.key with hdone | herror
    · have hne : ¬ (rc > 0 ∧ fields.head? = some wordError) := by
        rw [hdone]
        exact fun hs => wordDone_ne_wordError (Option.some.inj hs.2)
      rw [if_neg hne]
      exact ⟨rc, rfl, iff_of_true hrc.le hdone⟩
    · rw [if_pos ⟨hrc, herror⟩]
      refine ⟨-1, rfl, iff_of_false (by decide) ?_⟩
      rw [herror]
      exact fun heq => wordDone_ne_wordError (Option.some.inj heq).symm
  | _ => exact ⟨_, rfl, hwait⟩

/-! ## The invariant -/

/-- The request and the reply of a call that has returned: the reply is made of strings, for a
display, and of one end; the strings went to the callback, and the end decides of the code. -/
structure Exchange (trace : Trace) (rc : Int) (strings : List (List CStr)) (last : List CStr) :
    Prop where
  wrote : trace.wrote = encode trace.call.fields
  read : trace.read = (strings ++ [last]).flatMap encode
  keyed : ∀ fields ∈ strings, IsString fields
  display : strings ≠ [] → trace.call = .display
  ending : last.head? = some wordDone ∨ last.head? = some wordError
  code : 0 ≤ rc ↔ last.head? = some wordDone
  shown : trace.shown = strings.map List.tail

/-- A call that has returned: its request did not fit and nothing was written or read, or it had
its exchange with the server. -/
def Returned (e : Trace × Int) : Prop :=
  if Fits e.1.call.fields then ∃ strings last, Exchange e.1 e.2 strings last
  else e.2 = -ECANCELED ∧ e.1.wrote = [] ∧ e.1.read = [] ∧ e.1.shown = []

/-- The requests that fitted, with what was read for each. -/
def exchanges (returned : List (Trace × Int)) : List (List CStr × List UInt8) :=
  (returned.filter fun e => Fits e.1.call.fields).map fun e => (e.1.call.fields, e.1.read)

theorem exchanges_concat (returned : List (Trace × Int)) (e : Trace × Int) :
    exchanges (returned ++ [e]) = exchanges returned ++
      if Fits e.1.call.fields then [(e.1.call.fields, e.1.read)] else [] := by
  rw [exchanges, List.filter_append, List.map_append, exchanges]
  split
  · rename_i hfit
    simp [hfit]
  · rename_i hfit
    simp [hfit]

/-- What the library has buffered of the reply, in the stage of a call that has sent its request. -/
def StageAt (p : Prot) (b : List UInt8) : Stage → Prop
  | .flush put => put = true ∧ Buffered p b
  | .next => Buffered p b
  | .read => Pending p b ∧ b.length < PROT_MAX_BUFFER_LENGTH

theorem StageAt.buffered {p : Prot} {b : List UInt8} {stage : Stage} (h : StageAt p b stage) :
    Buffered p b := by
  cases stage with
  | flush put => exact h.2
  | next => exact h
  | read => exact Or.inl h.1

/-- The states between the steps. -/
inductive Joint.Phase (j : Joint σ) : Prop
  /-- nothing is on its way: no call is running, or one whose request does not fit -/
  | quiet : (j.library.doing = .idle ∨ ∃ call : ApiCall, ¬ Fits call.fields ∧
        j.library.doing = .runs ⟨call, [], [], []⟩ (.flush false)) →
      OutIdle j.library.handle.prot [] → Buffered j.library.handle.prot [] → j.down = [] →
      j.server.Rests [] → j.server.input = [] →
      j.answered = exchanges j.library.returned → Phase j
  /-- the request is on its way: written, in the channel and read by the server -/
  | asks {call : ApiCall} {stage : Stage} {wrote q b : List UInt8} : Fits call.fields →
      j.library.doing = .runs ⟨call, [], wrote, []⟩ stage →
      StageAt j.library.handle.prot [] stage → (q ≠ [] → stage = .flush true) →
      OutIdle j.library.handle.prot q → wrote ++ q = encode call.fields → j.down = [] →
      j.server.Rests b → j.server.invalid = false →
      b ++ (j.server.input ++ q) = encode call.fields →
      j.answered = exchanges j.library.returned → Phase j
  /-- the reply is on its way: given to the callback, buffered and in the channel -/
  | answers {call : ApiCall} {stage : Stage} {read b : List UInt8}
      {shown strings : List (List CStr)} {last : List CStr} : Fits call.fields →
      j.library.doing = .runs ⟨call, shown.map List.tail, encode call.fields, read⟩ stage →
      StageAt j.library.handle.prot b stage → OutIdle j.library.handle.prot [] →
      (∀ fields ∈ shown ++ strings, Shown fields) → (shown ++ strings ≠ [] → call = .display) →
      Ending last → (stage = .read → j.down ≠ []) →
      read ++ j.down = (shown ++ strings ++ [last]).flatMap encode →
      b ++ j.down = (strings ++ [last]).flatMap encode →
      j.server.Rests [] → j.server.input = [] →
      j.answered = exchanges j.library.returned ++
        [(call.fields, (shown ++ strings ++ [last]).flatMap encode)] → Phase j

/-- The invariant of the steps. -/
structure Joint.Sound (j : Joint σ) : Prop where
  state : j.library.handle.state = .connected
  lock : j.library.handle.synclock = true ↔ j.library.doing ≠ .idle
  returned : ∀ e ∈ j.library.returned, Returned e
  phase : j.Phase

/-! ## The steps of the library -/

/-- A trial of `send_fields` puts the record if it fits. -/
theorem Library.send_spec (lib : Library) (h : OutIdle lib.handle.prot []) (trace : Trace)
    (trial : Bool) :
    ∃ p, SameInput lib.handle.prot p ∧
      ((Fits trace.call.fields ∧ OutIdle p (encode trace.call.fields) ∧
          lib.send trace trial =
            { lib with
              handle := { lib.handle with prot := p }
              doing := .runs trace (.flush true) }) ∨
        (¬ Fits trace.call.fields ∧ OutIdle p [] ∧
          lib.send trace trial =
            if trial then
              Library.returns { lib with handle := { lib.handle with prot := p } } trace
                (-ECANCELED)
            else
              { lib with
                handle := { lib.handle with prot := p }
                doing := .runs trace (.flush false) })) := by
  have hne : trace.call.fields ≠ [] := trace.call.record.ne_nil
  have hcancel : -ECANCELED ≠ 0 := by decide
  obtain ⟨hfit, p, hput, hidle, hsame⟩ | ⟨hlong, p, hput, hidle, hsame⟩ := sendTrial_spec h hne
  · refine ⟨p, hsame, Or.inl ⟨hfit, hidle, ?_⟩⟩
    simp only [send, hput, if_true]
  · refine ⟨p, hsame, Or.inr ⟨hlong, hidle, ?_⟩⟩
    simp only [send, hput, if_neg hcancel]

/-- A call begins with its first trial. -/
theorem Library.start_eq (lib : Library) (hstate : lib.handle.state = .connected)
    (hfree : ¬ lib.handle.synclock = true) (call : ApiCall) (opening : Int × Handle) :
    lib.start call opening true =
      Library.send { lib with handle := { lib.handle with synclock := true } } ⟨call, [], [], []⟩
        false := by
  have hopen : ensureOpened opening true { lib.handle with synclock := true } =
      (0, { lib.handle with synclock := true }) := by
    simp only [ensureOpened, hstate, if_true]
  simp only [start, if_neg hfree, hopen, ge_iff_le, le_refl, if_true]

/-- A call begins. -/
theorem Joint.Sound.start {j : Joint σ} (h : j.Sound) (call : ApiCall)
    (opening : Int × Handle) (hidle : j.library.doing = .idle) (hvalid : j.server.invalid = false) :
    (j.start call opening).Sound := by
  obtain ⟨hstate, hlock, hret, hphase⟩ := h
  have hfree : ¬ j.library.handle.synclock = true := fun hl => hlock.1 hl hidle
  cases hphase with
  | asks _ hdoing =>
    rw [hidle] at hdoing
    cases hdoing
  | answers _ hdoing =>
    rw [hidle] at hdoing
    cases hdoing
  | quiet _ hout hbuf hdown hrests hinput hans =>
    have hstart := j.library.start_eq hstate hfree call opening
    obtain ⟨p, hsame, ⟨hfit, hidle', hsend⟩ | ⟨hlong, hidle', hsend⟩⟩ := Library.send_spec
      { j.library with handle := { j.library.handle with synclock := true } } hout
      ⟨call, [], [], []⟩ false
    · rw [hsend] at hstart
      rw [Joint.start, hstart]
      refine ⟨hstate, iff_of_true rfl (fun hd => by cases hd), hret, ?_⟩
      exact .asks hfit rfl ⟨rfl, hbuf.congr hsame⟩ (fun _ => rfl) hidle' rfl hdown hrests hvalid
        (by rw [hinput]; rfl) hans
    · rw [hsend] at hstart
      rw [Joint.start, hstart]
      refine ⟨hstate, iff_of_true rfl (fun hd => by cases hd), hret, ?_⟩
      exact .quiet (Or.inr ⟨call, hlong, rfl⟩) hidle' (hbuf.congr hsame) hdown hrests hinput hans

theorem Library.flush_nothing {lib : Library} (h : OutIdle lib.handle.prot []) (trace : Trace)
    (put : Bool) (answer : OutAnswer) :
    lib.flush trace put answer = (lib.flushed trace put 0, []) := by
  have hno : ¬ protShouldWrite lib.handle.prot = true := fun hs => h.shouldWrite.1 hs rfl
  rw [flush, if_neg hno]

/-- A turn of `flushw` that writes. -/
theorem Library.flush_written {lib : Library} {q : List UInt8} (h : OutIdle lib.handle.prot q)
    (hq : q ≠ []) (trace : Trace) (put : Bool) (n : Nat) (poll : Option Errno) :
    ∃ p, OutIdle p (q.drop n) ∧ SameInput lib.handle.prot p ∧
      lib.flush trace put ⟨.written n, poll⟩ =
        ({ lib with
            handle := { lib.handle with prot := p }
            doing := .runs { trace with wrote := trace.wrote ++ q.take n } (.flush put) },
          q.take n) := by
  obtain ⟨p, hwrite, hout, hsame, hfields⟩ := protWrite_spec h.toOutState n hq
  have hagain : ¬ ((min n q.length : Nat) : Int) = -EAGAIN := by
    have hpos : (0 : Int) < EAGAIN := by decide
    omega
  have hnonneg : ¬ ((min n q.length : Nat) : Int) < 0 := by omega
  refine ⟨p, { hout with
    no_fields := hfields.trans h.no_fields
    no_empty := hsame.2.2.trans h.no_empty }, hsame, ?_⟩
  rw [flush, if_pos (h.shouldWrite.2 hq)]
  simp only [hwrite, if_neg hagain, if_neg hnonneg]

/-- A turn of `flushw` that has to wait. -/
theorem Library.flush_again {lib : Library} {q : List UInt8} (h : OutIdle lib.handle.prot q)
    (hq : q ≠ []) (trace : Trace) (put : Bool) {e : Errno} (he : e.val = EAGAIN) :
    lib.flush trace put ⟨.error e, none⟩ =
      ({ lib with doing := .runs trace (.flush put) }, []) := by
  have hsome : ¬ (lib.handle.prot.wrokcnt = 0 ∨ lib.handle.prot.outbuf.count = 0) := by
    have hpos := List.length_pos_of_ne_nil hq
    have hcommitted := h.committed
    have hcount := h.count_eq
    omega
  rw [flush, if_pos (h.shouldWrite.2 hq)]
  simp only [protWrite_error, if_neg hsome, he, if_true, Option.elim_none, lt_irrefl, if_false,
    List.append_nil]

/-- A call whose request does not fit returns after its second trial. -/
theorem Library.flush_refused {lib : Library} (h : OutIdle lib.handle.prot []) {call : ApiCall}
    (hlong : ¬ Fits call.fields) (answer : OutAnswer) :
    ∃ p, OutIdle p [] ∧ SameInput lib.handle.prot p ∧
      lib.flush ⟨call, [], [], []⟩ false answer =
        (Library.returns { lib with handle := { lib.handle with prot := p } } ⟨call, [], [], []⟩
          (-ECANCELED), []) := by
  obtain ⟨p, hsame, ⟨hfit, -⟩ | ⟨-, hidle, hsend⟩⟩ := lib.send_spec h ⟨call, [], [], []⟩ true
  · exact absurd hfit hlong
  · refine ⟨p, hidle, hsame, ?_⟩
    rw [Library.flush_nothing h]
    simp only [Library.flushed, Bool.false_eq_true, if_false, if_true, hsend]

/-- A turn of `flushw`. -/
theorem Joint.Sound.flush {j : Joint σ} (h : j.Sound) {trace : Trace} {put : Bool}
    {answer : OutAnswer} (hrun : j.library.doing = .runs trace (.flush put))
    (ha : answer.Accepts) : (j.flush trace put answer).Sound := by
  obtain ⟨hstate, hlock, hret, hphase⟩ := h
  have hlocked : j.library.handle.synclock = true :=
    hlock.2 fun hd => by rw [hrun] at hd; cases hd
  cases hphase with
  | quiet hdoing hout hbuf hdown hrests hinput hans =>
    rcases hdoing with hd | ⟨call, hlong, hd⟩
    · rw [hrun] at hd
      cases hd
    · rw [hrun] at hd
      cases hd
      obtain ⟨p, hidle', hsame, hflush⟩ := Library.flush_refused hout hlong answer
      simp only [Joint.flush, hflush, List.append_nil]
      refine ⟨hstate, iff_of_false Bool.false_ne_true (fun hd => hd rfl), ?_, ?_⟩
      · intro e he
        obtain he | he := List.mem_append.1 he
        · exact hret e he
        · rw [List.mem_singleton.1 he, Returned, if_neg hlong]
          exact ⟨rfl, rfl, rfl, rfl⟩
      · refine .quiet (Or.inl rfl) hidle' (hbuf.congr hsame) hdown hrests hinput ?_
        rw [hans]
        simp only [Library.returns, exchanges_concat, if_neg hlong, List.append_nil]
  | @asks call stage wrote q b hfit hdoing hstage hq hout hwrote hdown hrests hvalid hline hans =>
    rw [hrun] at hdoing
    cases hdoing
    obtain ⟨rfl, hbuf⟩ := hstage
    rcases eq_or_ne q [] with rfl | hne
    · rw [Joint.flush, Library.flush_nothing hout]
      simp only [Library.flushed, if_true, ge_iff_le, le_refl, List.append_nil]
      refine ⟨hstate, iff_of_true hlocked (fun hd => by cases hd), hret, ?_⟩
      exact .asks hfit rfl hbuf (fun hq => absurd rfl hq) hout hwrote hdown hrests hvalid hline
        hans
    · obtain ⟨write, poll⟩ := answer
      rcases ha with ⟨n, hn⟩ | ⟨e, he, hval, hpoll⟩
      · obtain rfl : write = .written n := hn
        obtain ⟨p, hout', hsame, hflush⟩ := Library.flush_written hout hne
          ⟨call, [], wrote, []⟩ true n poll
        rw [Joint.flush, hflush]
        refine ⟨hstate, iff_of_true hlocked (fun hd => by cases hd), hret, ?_⟩
        refine .asks hfit rfl ⟨rfl, hbuf.congr hsame⟩ (fun _ => rfl) hout' ?_ hdown
          ⟨hrests.pending, hrests.idle, hrests.accepting⟩ hvalid ?_ hans
        · rw [List.append_assoc, List.take_append_drop]
          exact hwrote
        · simp only [List.append_assoc, List.take_append_drop]
          exact hline
      · obtain rfl : write = .error e := he
        obtain rfl : poll = none := hpoll
        rw [Joint.flush, Library.flush_again hout hne _ true hval]
        simp only [List.append_nil]
        refine ⟨hstate, iff_of_true hlocked (fun hd => by cases hd), hret, ?_⟩
        exact .asks hfit rfl ⟨rfl, hbuf⟩ (fun _ => rfl) hout hwrote hdown hrests hvalid hline hans
  | answers hfit hdoing hstage hout hshown hdisplay hlast _ hread hbytes hrests hinput hans =>
    rw [hrun] at hdoing
    cases hdoing
    obtain ⟨rfl, hbuf⟩ := hstage
    rw [Joint.flush, Library.flush_nothing hout]
    simp only [Library.flushed, if_true, ge_iff_le, le_refl, List.append_nil]
    refine ⟨hstate, iff_of_true hlocked (fun hd => by cases hd), hret, ?_⟩
    exact .answers hfit rfl hbuf hout hshown hdisplay hlast (fun hs => by cases hs) hread hbytes
      hrests hinput hans

/-- A turn of `wait_reply` that has to read. -/
theorem Library.next_waits {lib : Library} {p : Prot} (trace : Trace)
    (hget : protGet (protNext lib.handle.prot) = (-EAGAIN, p)) :
    lib.next trace =
      { lib with handle := { lib.handle with prot := p }, doing := .runs trace .read } := by
  have hpos : ¬ -EAGAIN > 0 := by decide
  have hsize : -EAGAIN ≠ -EMSGSIZE := by decide
  have hneg : -EAGAIN < 0 := by decide
  simp only [next, hget, if_neg hpos, if_neg hsize, if_pos hneg]

/-- A turn of `wait_reply` on the beginning of a record and what follows it: it gets the record, or
has to read. -/
theorem Library.next_record {lib : Library} {b rest more : List UInt8} (r : Record)
    (hfit : Fits r.fields) (h : Buffered lib.handle.prot b) (hout : OutIdle lib.handle.prot [])
    (heq : b ++ rest = encode r.fields ++ more) (trace : Trace) :
    ∃ p, SameOutput lib.handle.prot p ∧
      ((∃ b', b' ++ rest = more ∧ b'.length < b.length ∧ Buffered p b' ∧
          (r.fields.length : Int) > 0 ∧
          lib.next trace =
            Library.replied
              { lib with handle := { lib.handle with prot := p, reply := r.fields } } trace
              r.fields.length) ∨
        (Pending p b ∧ b.length < PROT_MAX_BUFFER_LENGTH ∧ rest ≠ [] ∧
          lib.next trace =
            { lib with handle := { lib.handle with prot := p }, doing := .runs trace .read })) := by
  obtain ⟨hpend, hsame⟩ := h.next
  have hempty := (hout.congr hsame).no_empty
  obtain ⟨p, hsame', ⟨line, b', hline, hreport, hrest, hget, hhold⟩ | ⟨hget, hp, hroom, hsome⟩⟩ :=
    protGet_record r hfit hpend hempty heq
  · have hlen : r.fields.length = (reported line).length := by
      rw [← hreport, report, List.length_map]
    have hpos : ((reported line).length : Int) > 0 := Int.natCast_pos.2 (reported_length_pos hline)
    refine ⟨p, hsame.trans hsame', Or.inl ⟨b', hrest, ?_, Or.inr ⟨line, hline, hhold⟩, ?_, ?_⟩⟩
    · have hbytes := congrArg List.length heq
      have hend : 0 < (encode r.fields).length := by simp [encode, Marks.encodeRecord]
      rw [← hrest] at hbytes
      simp only [List.length_append] at hbytes
      omega
    · rw [hlen]
      exact hpos
    · rw [hlen]
      simp only [next, hget, if_pos hpos, hhold.args, hreport]
  · exact ⟨p, hsame.trans hsame', Or.inr ⟨hp, hroom, hsome, Library.next_waits trace hget⟩⟩

/-- A turn of `wait_reply`. -/
theorem Joint.Sound.next {j : Joint σ} (h : j.Sound) {trace : Trace}
    (hrun : j.library.doing = .runs trace .next) : (j.next trace).Sound := by
  obtain ⟨hstate, hlock, hret, hphase⟩ := h
  have hlocked : j.library.handle.synclock = true :=
    hlock.2 fun hd => by rw [hrun] at hd; cases hd
  cases hphase with
  | quiet hdoing =>
    rcases hdoing with hd | ⟨call, -, hd⟩
    · rw [hrun] at hd
      cases hd
    · rw [hrun] at hd
      cases hd
  | @asks call stage wrote q b hfit hdoing hstage hq hout hwrote hdown hrests hvalid hline hans =>
    rw [hrun] at hdoing
    cases hdoing
    obtain rfl : q = [] := by
      by_contra hne
      cases hq hne
    obtain ⟨hpend, hsame⟩ := Buffered.next hstage
    have hempty := (hout.congr hsame).no_empty
    obtain ⟨p, hsame', hget, hp⟩ := protGet_nil hpend hempty
    rw [Joint.next, Library.next_waits _ hget]
    refine ⟨hstate, iff_of_true hlocked (fun hd => by cases hd), hret, ?_⟩
    exact .asks hfit rfl ⟨hp, by decide⟩ (fun hq => absurd rfl hq)
      (hout.congr (hsame.trans hsame')) hwrote hdown hrests hvalid hline hans
  | @answers call stage read b shown strings last hfit hdoing hstage hout hshown hdisplay hlast _
      hread hbytes hrests hinput hans =>
    rw [hrun] at hdoing
    cases hdoing
    cases strings with
    | nil =>
      obtain ⟨hfitr, r, rfl⟩ := hlast.carried
      have hrecord : b ++ j.down = encode r.fields ++ [] := by simpa using hbytes
      obtain ⟨p, hsame, ⟨b', hrest, -, hbuf, hpos, hnext⟩ | ⟨hp, hroom, hsome, hnext⟩⟩ :=
        Library.next_record r hfitr hstage hout hrecord
          ⟨call, shown.map List.tail, encode call.fields, read⟩
      · obtain ⟨rfl, hdown⟩ := List.append_eq_nil_iff.1 hrest
        obtain ⟨code, hafter, hcode⟩ := aftersend_ending call hlast hpos
        rw [Joint.next, hnext]
        simp only [Library.replied, hafter]
        rw [hdown, List.append_nil] at hread
        have hexchange : Exchange ⟨call, shown.map List.tail, encode call.fields, read⟩ code shown
            r.fields := by
          refine ⟨rfl, by simpa using hread, fun fields hf => ?_, fun hne => ?_, hlast.key, hcode,
            rfl⟩
          · exact (hshown fields (List.mem_append_left _ hf)).key
          · exact hdisplay (by simpa using hne)
        refine ⟨hstate, iff_of_false Bool.false_ne_true (fun hd => hd rfl), ?_, ?_⟩
        · intro e he
          obtain he | he := List.mem_append.1 he
          · exact hret e he
          · rw [List.mem_singleton.1 he, Returned, if_pos hfit]
            exact ⟨shown, r.fields, hexchange⟩
        · refine .quiet (Or.inl rfl) (hout.congr hsame) hbuf hdown hrests hinput ?_
          rw [hans]
          simp only [Library.returns, exchanges_concat, if_pos hfit, ← hread]
      · rw [Joint.next, hnext]
        refine ⟨hstate, iff_of_true hlocked (fun hd => by cases hd), hret, ?_⟩
        exact .answers hfit rfl ⟨hp, hroom⟩ (hout.congr hsame) hshown hdisplay hlast
          (fun _ => hsome) hread hbytes hrests hinput hans
    | cons fields strings =>
      have hf : Shown fields := hshown fields (List.mem_append_right _ List.mem_cons_self)
      obtain rfl : call = .display := hdisplay (by simp)
      obtain ⟨hfitr, r, rfl⟩ := hf.carried
      have hrecord : b ++ j.down = encode r.fields ++ (strings ++ [last]).flatMap encode := by
        simpa using hbytes
      obtain ⟨p, hsame, ⟨b', hrest, -, hbuf, hpos, hnext⟩ | ⟨hp, hroom, hsome, hnext⟩⟩ :=
        Library.next_record r hfitr hstage hout hrecord
          ⟨.display, shown.map List.tail, encode ApiCall.display.fields, read⟩
      · rw [Joint.next, hnext]
        simp only [Library.replied, aftersend_shown hf]
        refine ⟨hstate, iff_of_true hlocked (fun hd => by cases hd), hret, ?_⟩
        have hmove : shown ++ r.fields :: strings = shown ++ [r.fields] ++ strings := by simp
        rw [hmove] at hshown hread hans
        have hdoing : Doing.runs ⟨.display, shown.map List.tail ++ [r.fields.tail],
            encode ApiCall.display.fields, read⟩ .next = Doing.runs ⟨.display,
            (shown ++ [r.fields]).map List.tail, encode ApiCall.display.fields, read⟩ .next := by
          rw [List.map_append]
          rfl
        exact .answers hfit hdoing hbuf (hout.congr hsame) hshown (fun _ => rfl) hlast
          (fun hs => by cases hs) hread hrest hrests hinput hans
      · rw [Joint.next, hnext]
        refine ⟨hstate, iff_of_true hlocked (fun hd => by cases hd), hret, ?_⟩
        exact .answers hfit rfl ⟨hp, hroom⟩ (hout.congr hsame) hshown hdisplay hlast
          (fun _ => hsome) hread hbytes hrests hinput hans

/-- A read that has to wait. -/
theorem Library.read_waits {lib : Library} {b : List UInt8} (h : Pending lib.handle.prot b)
    (hroom : b.length < PROT_MAX_BUFFER_LENGTH) (trace : Trace) :
    lib.read trace ⟨.error EAGAIN_ERRNO, none⟩ =
      ({ lib with doing := .runs trace .read }, 0) := by
  have hcount : ¬ lib.handle.prot.inbuf.count = PROT_MAX_BUFFER_LENGTH := by
    have hlen := h.length
    omega
  have hagain : EAGAIN_ERRNO.val = EAGAIN := rfl
  have hpos : ¬ -EAGAIN > 0 := by decide
  have hzero : -EAGAIN ≠ 0 := by decide
  simp only [read, protRead, inbufRead, if_neg hcount, hagain, if_neg hpos, if_neg hzero, if_true,
    Option.elim_none, lt_irrefl, if_false, List.append_nil]

/-- A read of some bytes of a channel that has some. -/
theorem Library.read_data {lib : Library} {b : List UInt8} (h : Pending lib.handle.prot b)
    (hroom : b.length < PROT_MAX_BUFFER_LENGTH) (trace : Trace) {channel : List UInt8}
    (hchannel : channel ≠ []) (n : Nat) :
    ∃ p x, x ≠ [] ∧ x ++ channel.drop x.length = channel ∧ Pending p (b ++ x) ∧
      SameOutput lib.handle.prot p ∧
      lib.read trace ⟨.data (channel.take (n + 1)), none⟩ =
        ({ lib with
            handle := { lib.handle with prot := p }
            doing := .runs { trace with read := trace.read ++ x } .next }, x.length) := by
  obtain ⟨x, hx, hp, -, hcode⟩ := h.readInput channel n
  obtain ⟨hrc, hend⟩ := hcode hroom
  have hne : x ≠ [] := fun hnil => hchannel (hend hnil)
  have hpos : (x.length : Int) > 0 := Int.natCast_pos.2 (List.length_pos_of_ne_nil hne)
  rw [hrc, Int.toNat_natCast] at hx
  have hle : x.length ≤ n + 1 := by
    have hcount : ¬ lib.handle.prot.inbuf.count = PROT_MAX_BUFFER_LENGTH := by
      have hlen := h.length
      omega
    rw [protRead_data, if_neg hcount, Int.natCast_inj] at hrc
    rw [← hrc]
    exact (List.length_take_le' _ _).trans (List.length_take_le _ _)
  have htake : (channel.take (n + 1)).take x.length = x := by
    rw [List.take_take, Nat.min_eq_left hle]
    calc
      channel.take x.length = (x ++ channel.drop x.length).take x.length := by rw [hx]
      _ = x := List.take_left
  refine ⟨_, x, hne, hx, hp, protRead_sameOutput _ _, ?_⟩
  simp only [read, hrc, Int.toNat_natCast, if_pos hpos, htake]

/-- A turn of `wait_reply` on its read. -/
theorem Joint.Sound.read {j : Joint σ} (h : j.Sound) {trace : Trace} (cut : Option Nat)
    (hrun : j.library.doing = .runs trace .read) (hcut : cut ≠ none → j.down ≠ []) :
    (j.read trace cut).Sound := by
  obtain ⟨hstate, hlock, hret, hphase⟩ := h
  have hlocked : j.library.handle.synclock = true :=
    hlock.2 fun hd => by rw [hrun] at hd; cases hd
  cases hphase with
  | quiet hdoing =>
    rcases hdoing with hd | ⟨call, -, hd⟩
    · rw [hrun] at hd
      cases hd
    · rw [hrun] at hd
      cases hd
  | asks hfit hdoing hstage hq hout hwrote hdown hrests hvalid hline hans =>
    rw [hrun] at hdoing
    cases hdoing
    cases cut with
    | some n => exact absurd hdown (hcut (Option.some_ne_none n))
    | none =>
      rw [Joint.read, Library.read_waits hstage.1 hstage.2]
      refine ⟨hstate, iff_of_true hlocked (fun hd => by cases hd), hret, ?_⟩
      exact .asks hfit rfl hstage hq hout hwrote hdown hrests hvalid hline hans
  | @answers call stage read b shown strings last hfit hdoing hstage hout hshown hdisplay hlast
      hsome hread hbytes hrests hinput hans =>
    rw [hrun] at hdoing
    cases hdoing
    cases cut with
    | none =>
      rw [Joint.read, Library.read_waits hstage.1 hstage.2]
      refine ⟨hstate, iff_of_true hlocked (fun hd => by cases hd), hret, ?_⟩
      exact .answers hfit rfl hstage hout hshown hdisplay hlast hsome hread hbytes hrests hinput
        hans
    | some n =>
      obtain ⟨p, x, -, hx, hp, hsame, hcall⟩ := Library.read_data hstage.1 hstage.2
        ⟨call, shown.map List.tail, encode call.fields, read⟩ (hcut (Option.some_ne_none n)) n
      rw [Joint.read, hcall]
      refine ⟨hstate, iff_of_true hlocked (fun hd => by cases hd), hret, ?_⟩
      refine .answers hfit rfl (Or.inl hp) (hout.congr hsame) hshown hdisplay hlast
        (fun hs => by cases hs) ?_ ?_ hrests hinput hans
      · rw [List.append_assoc, hx]
        exact hread
      · rw [List.append_assoc, hx]
        exact hbytes

/-! ## The steps of the server -/

/-- A turn on the pending requests. -/
theorem Joint.Sound.take {j : Joint σ} (h : j.Sound) : (j.take permgr mac).Sound := by
  obtain ⟨hstate, hlock, hret, hphase⟩ := h
  -- nothing is taken where nothing is buffered
  have hnothing : j.server.Rests [] → j.server.input = [] →
      (j.take permgr mac).library = j.library ∧ (j.take permgr mac).down = j.down ∧
        (j.take permgr mac).answered = j.answered ∧ (j.take permgr mac).server.Rests [] ∧
        (j.take permgr mac).server.input = [] := by
    intro hrests hinput
    obtain ⟨hrests', hinput', hsent, hneg⟩ := hrests.take_nil permgr mac
    have hpos : ¬ (protGet j.server.prot).1 > 0 := not_lt.2 hneg.le
    simp only [Joint.take, hsent, List.drop_length, List.append_nil, if_neg hpos]
    exact ⟨trivial, trivial, trivial, hrests', hinput'.trans hinput⟩
  cases hphase with
  | quiet hdoing hout hbuf hdown hrests hinput hans =>
    obtain ⟨hlib, hd, ha, hr, hi⟩ := hnothing hrests hinput
    refine ⟨hlib ▸ hstate, hlib ▸ hlock, hlib ▸ hret, ?_⟩
    exact .quiet (hlib ▸ hdoing) (hlib ▸ hout) (hlib ▸ hbuf) (hd.trans hdown) hr hi
      (ha.trans (hlib ▸ hans))
  | answers hfit hdoing hstage hout hshown hdisplay hlast hsome hread hbytes hrests hinput hans =>
    obtain ⟨hlib, hd, ha, hr, hi⟩ := hnothing hrests hinput
    refine ⟨hlib ▸ hstate, hlib ▸ hlock, hlib ▸ hret, ?_⟩
    exact .answers hfit (hlib ▸ hdoing) (hlib ▸ hstage) (hlib ▸ hout) hshown hdisplay hlast
      (hd ▸ hsome) (hd ▸ hread) (hd ▸ hbytes) hr hi (ha.trans (hlib ▸ hans))
  | @asks call stage wrote q b hfit hdoing hstage hq hout hwrote hdown hrests hvalid hline hans =>
    obtain ⟨hinput, ⟨strings, last, hrest, hrests', hsent, hshown, hdisplay, hlast, hpos, hargs⟩ |
      ⟨hrests', hsent, hsame, hagain, -⟩⟩ := hrests.take_request permgr mac call.record hfit hline
    · obtain ⟨hnil, rfl⟩ := List.append_eq_nil_iff.1 hrest
      rw [List.append_nil] at hwrote
      subst hwrote
      simp only [Joint.take, hsent, List.drop_left, if_pos hpos, hargs]
      refine ⟨hstate, hlock, hret, ?_⟩
      have hdoing' : j.library.doing =
          .runs ⟨call, List.map List.tail [], encode call.fields, []⟩ stage := hdoing
      have hdisplay' : [] ++ strings ≠ [] → call = .display :=
        fun hne => ApiCall.display_of_fields (hdisplay hne)
      refine .answers hfit hdoing' hstage hout hshown hdisplay' hlast (fun _ => ?_) ?_ ?_ hrests'
        (hinput.trans hnil) ?_
      · have hne : encode last ≠ [] := by simp [encode, Marks.encodeRecord]
        simp [hne]
      · rw [hdown]
        rfl
      · rw [hdown]
        rfl
      · rw [hans]
        rfl
    · have hpos : ¬ (protGet j.server.prot).1 > 0 := by
        rw [hagain]
        decide
      simp only [Joint.take, hsent, List.drop_length, List.append_nil, if_neg hpos]
      refine ⟨hstate, hlock, hret, ?_⟩
      refine .asks hfit hdoing hstage hq hout hwrote hdown hrests' (hsame.trans hvalid) ?_ hans
      simp only [hinput]
      exact hline

/-- A read of the server. -/
theorem Joint.Sound.receive {j : Joint σ} (h : j.Sound) (n : Nat) (hsome : j.server.input ≠ []) :
    (j.receive n).Sound := by
  obtain ⟨hstate, hlock, hret, hphase⟩ := h
  cases hphase with
  | quiet _ _ _ _ _ hinput => exact absurd hinput hsome
  | answers _ _ _ _ _ _ _ _ _ _ _ hinput => exact absurd hinput hsome
  | asks hfit hdoing hstage hq hout hwrote hdown hrests hvalid hline hans =>
    obtain ⟨x, hx, hrests', -⟩ := hrests.read n
    refine ⟨hstate, hlock, hret, ?_⟩
    refine .asks hfit hdoing hstage hq hout hwrote hdown hrests' hvalid ?_ hans
    rw [List.append_assoc, ← List.append_assoc x]
    simp only [Joint.receive, hx]
    exact hline

/-! ## Main result -/

/-- A step keeps the invariant. -/
theorem Joint.Sound.step {j j' : Joint σ} (h : j.Sound) (hstep : Joint.Step permgr mac j j') :
    j'.Sound := by
  cases hstep with
  | start call opening hidle hvalid => exact h.start call opening hidle hvalid
  | flush hrun ha => exact h.flush hrun ha
  | next hrun => exact h.next hrun
  | read cut hrun hcut => exact h.read cut hrun hcut
  | take _ => exact h.take
  | receive n _ _ hsome => exact h.receive n hsome

/-- A run keeps the invariant. -/
theorem Joint.Sound.run {j j' : Joint σ} (h : j.Sound)
    (hrun : Relation.ReflTransGen (Joint.Step permgr mac) j j') : j'.Sound := by
  induction hrun with
  | refl => exact h
  | tail _ hstep ih => exact ih.step hstep

end SecLsmManager
