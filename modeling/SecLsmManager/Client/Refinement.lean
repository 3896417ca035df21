import SecLsmManager.Client.Language
import SecLsmManager.Client.Manager
import Mathlib.Logic.Relation

/-!
# A connection refines the manager

The turns of `client_process_input` are moves: a turn of the loop on the pending requests, or a
read. Each move keeps a client in step with the machine that was given the records it has taken
(`Managed`), so that whatever the reads and the events are, what a connection has written and what
its session holds are what the machine gives for the records of the bytes that were read
(`connection_refines_manager`), and no record is taken that has no reply (`one_reply_per_query`).
-/

namespace SecLsmManager

open Lib

variable {σ : Type*} {permgr : PermMgr σ} {mac : Mac σ}

/-! ## Moves -/

/-- What `client_process_input` does between two tests. -/
inductive Client.Move (permgr : PermMgr σ) (mac : Mac σ) : Client σ → Client σ → Prop
  | take {c : Client σ} : c.invalid = false → Move permgr mac c (c.take permgr mac)
  | read {c : Client σ} (cut : Option Nat) : Move permgr mac c (c.read cut).2

/-- Some moves. -/
abbrev Client.Moves (permgr : PermMgr σ) (mac : Mac σ) : Client σ → Client σ → Prop :=
  Relation.ReflTransGen (Client.Move permgr mac)

theorem processPending_moves (permgr : PermMgr σ) (mac : Mac σ) (n : Nat) (c : Client σ) :
    c.Moves permgr mac (processPending permgr mac n c).2 := by
  induction n generalizing c with
  | zero => exact .refl
  | succ n ih =>
    rw [processPending]
    split
    · exact .refl
    · rename_i hvalid
      have htake : c.Move permgr mac (c.take permgr mac) :=
        .take (Bool.eq_false_iff.2 hvalid)
      dsimp only
      split
      · rename_i hneg
        simp only [Client.take, if_pos hneg] at htake
        exact .single htake
      · rename_i hpos
        simp only [Client.take, if_neg hpos] at htake
        exact .head htake (ih _)

/-- **`client_process_input` makes moves.** -/
theorem clientProcessInput_moves (permgr : PermMgr σ) (mac : Mac σ) (cuts : List Nat)
    (c : Client σ) : c.Moves permgr mac (clientProcessInput permgr mac cuts c).2 := by
  induction cuts generalizing c with
  | nil =>
    have hpending := processPending_moves permgr mac (c.prot.inbuf.count + 1) c
    rw [clientProcessInput]
    dsimp only
    split
    · exact hpending
    split
    · exact hpending
    split
    · exact hpending
    · exact hpending.tail (.read none)
  | cons n cuts ih =>
    have hpending := processPending_moves permgr mac (c.prot.inbuf.count + 1) c
    rw [clientProcessInput]
    dsimp only
    split
    · exact hpending
    split
    · exact hpending
    split
    · exact hpending
    · split
      · exact hpending.tail (.read (some n))
      · exact (hpending.tail (.read (some n))).trans (ih _)

theorem onClientEvent_moves (permgr : PermMgr σ) (mac : Mac σ) (c : Connection σ)
    (event : Event) : c.client.Moves permgr mac (onClientEvent permgr mac c event).client := by
  rw [onClientEvent]
  split
  · exact .refl
  split
  · exact .refl
  · exact clientProcessInput_moves permgr mac event.cuts c.client

theorem events_moves (permgr : PermMgr σ) (mac : Mac σ) (c : Connection σ)
    (events : List Event) :
    c.client.Moves permgr mac (events.foldl (onClientEvent permgr mac) c).client := by
  induction events generalizing c with
  | nil => exact .refl
  | cons event events ih => exact (onClientEvent_moves permgr mac c event).trans (ih _)

/-! ## A turn and the machine -/

/-- A turn of the loop takes no record, or makes the machine take one. -/
theorem Client.take_manages (permgr : PermMgr σ) (mac : Mac σ) {c : Client σ} {q b : List UInt8}
    (hidle : OutIdle c.prot q) (hpend : Pending c.prot b) (hvalid : c.invalid = false) :
    (∃ k b', b = List.replicate k PROT_RECORD_SEPARATOR ++ b' ∧ protMarks.NoEnd b' ∧
        Pending (c.take permgr mac).prot b' ∧ OutIdle (c.take permgr mac).prot q ∧
        (c.take permgr mac).view = c.view ∧ (c.take permgr mac).input = c.input ∧
        (c.take permgr mac).sent = c.sent ∧ (c.take permgr mac).writes = c.writes ∧
        (protGet c.prot).1 < 0) ∨
      ∃ k line b' shows q', b = List.replicate k PROT_RECORD_SEPARATOR ++
          (line ++ PROT_RECORD_SEPARATOR :: b') ∧ line ≠ [] ∧ protMarks.Body line ∧
        Pending (c.take permgr mac).prot b' ∧ OutIdle (c.take permgr mac).prot q' ∧
        (c.take permgr mac).input = c.input ∧ (protGet c.prot).1 > 0 ∧
        protArgs (protGet c.prot).2 = report line ∧
        (c.take permgr mac).view = (c.view.reply permgr mac shows (report line)).2 ∧
        (c.Accepting → q = [] → (c.take permgr mac).Accepting ∧ q' = [] ∧
          shows = decide c.view.Shows ∧ (c.take permgr mac).sent = c.sent ++
            (c.view.reply permgr mac shows (report line)).1.flatMap encode) := by
  obtain ⟨k, p, hout, ⟨line, b', hb, hline, hbody, hget, hhold⟩ | ⟨b', hb, hno, hget, hp⟩⟩ :=
    protGet_spec hpend hidle.no_empty
  · have hne := report_ne_nil hline
    have hidle' : OutIdle ({ c with prot := p } : Client σ).prot q := hidle.congr hout
    obtain ⟨shows, hshows, hm⟩ :=
      onrequest_manages permgr mac (c := { c with prot := p }) hidle' hvalid hne
    obtain ⟨q', rs, hflags⟩ := onrequest_flags permgr mac (c := { c with prot := p }) hidle'
      (report line)
    have hnext := (hhold.congr hflags.puts.same).next
    have hinput := onrequest_input permgr mac (c := { c with prot := p }) hidle' hne
    have hpos : (protGet c.prot).1 > 0 := by
      rw [hget]
      exact Int.natCast_pos.2 (reported_length_pos hline)
    have hargs : protArgs (protGet c.prot).2 = report line := by
      rw [hget]
      exact hhold.args
    rw [Client.take_record hline hget hhold]
    refine .inr ⟨k, line, b', shows, q', hb, hline, hbody, hnext.1,
      hflags.puts.idle.congr hnext.2, hinput, hpos, hargs, hm.view, fun ha hq => ?_⟩
    subst hq
    have hputs := hm.puts ha
    have hq' : q' = [] := List.append_cancel_right
      (hflags.puts.idle.pending.symm.trans hputs.idle.pending)
    have hstream := hputs.stream
    rw [List.append_nil, List.append_nil] at hstream
    exact ⟨hputs.accepting ha, hq', hshows ha, hstream⟩
  · have hneg : (protGet c.prot).1 < 0 := by
      rw [hget]
      exact waitCode_neg b'
    rw [Client.take_none hget (waitCode_neg b')]
    exact .inl ⟨k, b', hb, hno, hp, hidle.congr hout, rfl, rfl, rfl, rfl, hneg⟩

/-- The client `c` has read `R`, of which `b` is buffered, and taken the records from it: it is the
machine `m` after the records, and it has written the replies of the machine. -/
structure Managed (permgr : PermMgr σ) (mac : Mac σ) (m : Manager σ) (c : Client σ)
    (R b : List UInt8) (records : List (List CStr)) : Prop where
  pending : Pending c.prot b
  received : Received R records b
  idle : OutIdle c.prot []
  accepting : c.Accepting
  sent : c.sent = (m.run permgr mac records).1.flatten.flatMap encode
  view : c.view = (m.run permgr mac records).2

theorem Managed.take {m : Manager σ} {c : Client σ} {R b : List UInt8}
    {records : List (List CStr)} (h : Managed permgr mac m c R b records)
    (hvalid : c.invalid = false) : (c.take permgr mac).input = c.input ∧
      ∃ b' records', Managed permgr mac m (c.take permgr mac) R b' records' := by
  obtain ⟨k, b', rfl, -, hp, hidle, hview, hinput, hsent, hwrites, -⟩ |
      ⟨k, line, b', shows, q', rfl, hline, hbody, hp, hidle, hinput, -, -, hview, hacc⟩ :=
    Client.take_manages permgr mac h.idle h.pending hvalid
  · exact ⟨hinput, b', records, hp, h.received.skip, hidle,
      fun a hm => h.accepting a (hwrites ▸ hm), hsent.trans h.sent, hview.trans h.view⟩
  · obtain ⟨ha, rfl, rfl, hsent⟩ := hacc h.accepting rfl
    have hr := h.received.skip.line hbody
    rw [show reports [line] = [report line] by simp [reports, hline]] at hr
    refine ⟨hinput, b', records ++ [report line], hp, hr, hidle, ha, ?_, ?_⟩
    · rw [hsent, h.sent, h.view, Manager.run_concat, List.flatten_append, List.flatMap_append,
        List.flatten_singleton]
      rfl
    · rw [hview, h.view, Manager.run_concat]
      rfl

theorem Managed.read {m : Manager σ} {c : Client σ} {R b : List UInt8}
    {records : List (List CStr)} (h : Managed permgr mac m c R b records) (cut : Option Nat) :
    ∃ x, x ++ (c.read cut).2.input = c.input ∧
      Managed permgr mac m (c.read cut).2 (R ++ x) (b ++ x) records := by
  cases cut with
  | none =>
    have heq : (c.read none).2 = c := by simp only [Client.read, protRead_error]
    refine ⟨[], by rw [heq]; rfl, ?_⟩
    rw [heq, List.append_nil, List.append_nil]
    exact h
  | some n =>
    obtain ⟨x, hx, hp, -, -⟩ := h.pending.readInput c.input n
    have hout := protRead_sameOutput c.prot (.data (c.input.take (n + 1)))
    exact ⟨x, hx, hp, h.received.append x, h.idle.congr hout, h.accepting, h.sent, h.view⟩

/-- **Moves keep a client in step with the machine.** -/
theorem Managed.moves {m : Manager σ} {c c' : Client σ} {R b bs : List UInt8}
    {records : List (List CStr)} (h : Managed permgr mac m c R b records)
    (hbs : R ++ c.input = bs) (hmoves : c.Moves permgr mac c') :
    ∃ R' b' records', R' ++ c'.input = bs ∧ Managed permgr mac m c' R' b' records' := by
  induction hmoves with
  | refl => exact ⟨R, b, records, hbs, h⟩
  | tail _ hmove ih =>
    obtain ⟨R', b', records', hbs', h'⟩ := ih
    cases hmove with
    | take hvalid =>
      obtain ⟨hinput, b'', records'', h''⟩ := h'.take hvalid
      exact ⟨R', b'', records'', by rw [hinput, hbs'], h''⟩
    | read cut =>
      obtain ⟨x, hx, h''⟩ := h'.read cut
      exact ⟨R' ++ x, b' ++ x, records', by rw [List.append_assoc, hx, hbs'], h''⟩

/-! ## Main results -/

/-- The machine does nothing more once a line violated the protocol. -/
theorem Manager.run_ended (permgr : PermMgr σ) (mac : Mac σ) {m : Manager σ}
    (h : m.standing = .ended) (lines : List (List CStr)) :
    (m.run permgr mac lines).1.flatten = [] ∧ (m.run permgr mac lines).2 = m := by
  induction lines with
  | nil => exact ⟨rfl, rfl⟩
  | cons args lines ih =>
    simp only [run, answer, reply_ended permgr mac h, List.flatten_cons, List.nil_append]
    exact ih

theorem Manager.run_append (permgr : PermMgr σ) (mac : Mac σ) (m : Manager σ)
    (lines lines' : List (List CStr)) : m.run permgr mac (lines ++ lines') =
      ((m.run permgr mac lines).1 ++ ((m.run permgr mac lines).2.run permgr mac lines').1,
        ((m.run permgr mac lines).2.run permgr mac lines').2) := by
  induction lines generalizing m with
  | nil => rfl
  | cons args lines ih => simp only [List.cons_append, run, ih]

/-- Two accounts of what a client has taken are the same. -/
theorem Received.unique {R b : List UInt8} {out out' : List (List CStr)} (h : Received R out b)
    (h' : Received R out' b) : out = out' := by
  obtain ⟨done, rfl, -, rfl⟩ := h
  obtain ⟨done', heq, -, rfl⟩ := h'
  rw [List.append_cancel_right heq]

/-- The events keep a client that was just created in step with the machine. -/
theorem Managed.events (permgr : PermMgr σ) (mac : Mac σ) (mem : ProtMem) (idmem : Nat → UInt8)
    (system : σ) (serverLog : Bool) (answers : Nat → Answers) {writes : List OutAnswer}
    (hacc : ∀ answer ∈ writes, answer.Accepts) (bs : List UInt8) (events : List Event) :
    let client := clientCreate mem idmem system serverLog answers writes bs
    let c := (events.foldl (onClientEvent permgr mac) ⟨client, false, []⟩).client
    ∃ R b records, R ++ c.input = bs ∧ Managed permgr mac client.view c R b records := by
  intro client c
  have hinit : Managed permgr mac client.view client [] [] [] :=
    ⟨pending_protReset mem, .nil, outIdle_protReset mem, hacc, rfl, rfl⟩
  have hread : [] ++ client.input = bs := rfl
  exact hinit.moves hread (events_moves permgr mac ⟨client, false, []⟩ events)

/-- The records of the machine are those of the conversation. -/
theorem Managed.same {m : Manager σ} {c : Client σ} {bs R R' b b' : List UInt8}
    {records records' : List (List CStr)} {replies : List (List (List CStr))} {ended : Bool}
    (h : Managed permgr mac m c R b records) (hbs : R ++ c.input = bs)
    (htalk : Talk c bs R' b' records' replies ended) : R' = R ∧ b' = b ∧ records' = records := by
  obtain rfl := List.append_cancel_right (htalk.stream.trans hbs.symm)
  obtain rfl : b' = b := htalk.pending.bytes.symm.trans h.pending.bytes
  exact ⟨rfl, rfl, htalk.received.unique h.received⟩

/-- **A connection refines the manager.** Over any stream, any reads and events, and a channel that
accepts: what a connection has written and what its session holds are the replies and the state of
the machine for the records of the bytes that were read, up to the first violation of the
protocol. -/
theorem connection_refines_manager (permgr : PermMgr σ) (mac : Mac σ) (mem : ProtMem)
    (idmem : Nat → UInt8) (system : σ) (serverLog : Bool) (answers : Nat → Answers)
    (writes : List OutAnswer) (hacc : ∀ answer ∈ writes, answer.Accepts) (bs : List UInt8)
    (events : List Event) :
    let client := clientCreate mem idmem system serverLog answers writes bs
    let c := (events.foldl (onClientEvent permgr mac) ⟨client, false, []⟩).client
    ∃ R, R ++ c.input = bs ∧
      let r := client.view.run permgr mac (reports (protMarks.lines R))
      c.sent = r.1.flatten.flatMap encode ∧ c.view = r.2 := by
  intro client c
  obtain ⟨R, b, records, hbs, hm⟩ :=
    Managed.events permgr mac mem idmem system serverLog answers hacc bs events
  refine ⟨R, hbs, ?_⟩
  -- what was read is taken to its last record, unless the session has ended
  have hstate : Connection.State (events.foldl (onClientEvent permgr mac) ⟨client, false, []⟩) bs :=
    (Connection.State.init mem idmem system serverLog answers hacc bs).run events
  cases hstate with
  | @violated R' b' records' replies htalk =>
    obtain ⟨rfl, rfl, rfl⟩ := hm.same hbs htalk
    obtain ⟨more, hmore⟩ := hm.received.out_isPrefix
    have hended : (client.view.run permgr mac records').2.standing = .ended := by
      rw [← hm.view]
      exact (Client.view_ended _).2 htalk.invalid
    obtain ⟨hnone, hstay⟩ := Manager.run_ended permgr mac hended more
    rw [← hmore, Manager.run_append]
    refine ⟨?_, ?_⟩
    · rw [List.flatten_append, hnone, List.append_nil]
      exact hm.sent
    · exact hm.view.trans hstay.symm
  | waits htalk =>
    obtain ⟨rfl, rfl, rfl⟩ := hm.same hbs htalk
    exact ⟨hm.sent, hm.view⟩

/-- A clear and a log, cut in the middle of the first. -/
theorem connection_refines_manager_clear :
    let client := clientCreate ⟨fun _ => 0, fun _ => 0, fun _ => 0⟩ (fun _ => 0) () true
      (fun _ => .plain) [⟨.error EAGAIN_ERRNO, none⟩] (CStr.lit "clear\nlog\n").bytes
    let c := ([⟨false, [2]⟩, ⟨false, [30]⟩].foldl (onClientEvent PermMgr.idle Mac.idle)
      ⟨client, false, []⟩).client
    ∃ R, R ++ c.input = (CStr.lit "clear\nlog\n").bytes ∧
      let r := client.view.run PermMgr.idle Mac.idle (reports (protMarks.lines R))
      c.sent = r.1.flatten.flatMap encode ∧ c.view = r.2 :=
  connection_refines_manager .idle .idle ⟨fun _ => 0, fun _ => 0, fun _ => 0⟩ (fun _ => 0) () true
    (fun _ => .plain) _
    (fun _ ha => List.mem_singleton.1 ha ▸ .inr ⟨_, rfl, rfl, rfl⟩)
    (CStr.lit "clear\nlog\n").bytes [⟨false, [2]⟩, ⟨false, [30]⟩]

/-- **One reply per query.** Over any stream, any reads and events, and a channel that accepts, the
server has emitted the replies of a conversation on the first records of the grammar: all those that
it has read, unless one violated the protocol. The violation is replied by its error, makes
`client_process_input` return `-EPROTO` and destroys the client, to which no event matters any more.
At the end of the stream, or on `-EMSGSIZE`, which destroys the client too, the records of the
conversation are all those of the grammar. What the session holds, the system included, is what the
machine makes of the records of the conversation: no other record was interpreted. -/
theorem one_reply_per_query (permgr : PermMgr σ) (mac : Mac σ) (mem : ProtMem)
    (idmem : Nat → UInt8) (system : σ) (serverLog : Bool) (answers : Nat → Answers)
    (writes : List OutAnswer) (hacc : ∀ answer ∈ writes, answer.Accepts) (bs : List UInt8)
    (events : List Event) :
    let client := clientCreate mem idmem system serverLog answers writes bs
    let c := events.foldl (onClientEvent permgr mac) ⟨client, false, []⟩
    let grammar := protMarks.linesWithin PROT_MAX_BUFFER_LENGTH [] bs
    ∃ R records replies ended,
      R ++ c.client.input = bs ∧
      Conversation records replies ended ∧
      c.client.sent = replies.flatten.flatMap encode ∧ c.client.prot.outbuf.pending = [] ∧
      c.client.view = (client.view.run permgr mac records).2 ∧
      records <+: reports grammar.1 ∧ records <+: reports (protMarks.lines R) ∧
      (ended = false → records = reports (protMarks.lines R)) ∧
      (ended = true ↔ c.codes.getLast? = some (-EPROTO)) ∧
      (ended = true → c.destroyed = true) ∧
      (c.destroyed = true → ∀ more : List Event, more.foldl (onClientEvent permgr mac) c = c) ∧
      (c.codes.getLast? = some (-EMSGSIZE) →
        ended = false ∧ records = reports grammar.1 ∧ grammar.2 = true ∧ c.destroyed = true) ∧
      (ended = false → c.client.input = [] → records = reports grammar.1) := by
  intro client c grammar
  obtain ⟨R₀, b₀, records₀, hbs, hm⟩ :=
    Managed.events permgr mac mem idmem system serverLog answers hacc bs events
  have hstate : c.State bs :=
    (Connection.State.init mem idmem system serverLog answers hacc bs).run events
  have hgrammar : ∀ {R b records replies ended}, Talk c.client bs R b records replies ended →
      records <+: reports grammar.1 := by
    intro R b records replies ended htalk
    have hlines := reports_mono (htalk.grammar.isPrefix _ c.client.input)
    rw [htalk.stream] at hlines
    exact htalk.received.out_isPrefix.trans hlines
  cases hstate with
  | @violated R b records replies htalk hdestroyed hcode =>
    obtain ⟨rfl, rfl, rfl⟩ := hm.same hbs htalk
    refine ⟨R, records, replies, true, htalk.stream, htalk.conversation, htalk.sent,
      htalk.idle.pending, hm.view, hgrammar htalk, htalk.received.out_isPrefix, nofun,
      iff_of_true rfl hcode, fun _ => hdestroyed, Connection.run_destroyed, fun hlast => ?_,
      nofun⟩
    rw [hcode] at hlast
    exact absurd (Option.some.inj hlast) (by decide)
  | @waits R replies htalk hcode hfull =>
    obtain ⟨rfl, rfl, rfl⟩ := hm.same hbs htalk
    refine ⟨R, _, replies, false, htalk.stream, htalk.conversation, htalk.sent, htalk.idle.pending,
      hm.view, hgrammar htalk, List.prefix_refl _, fun _ => rfl,
      iff_of_false Bool.false_ne_true hcode, nofun, Connection.run_destroyed, fun hlast => ?_,
      fun _ hinput => ?_⟩
    · obtain ⟨hlen, hdestroyed⟩ := hfull hlast
      have hg : grammar = (protMarks.lines R, true) := by
        have := htalk.grammar.full _ (Nat.le_of_eq hlen.symm) c.client.input
        rwa [htalk.stream] at this
      exact ⟨rfl, by rw [hg], by rw [hg], hdestroyed⟩
    · have hg : grammar.1 = protMarks.lines R := by
        have hstream := htalk.stream
        rw [hinput, List.append_nil] at hstream
        rw [show grammar = _ from congrArg _ hstream.symm, htalk.grammar.whole]
      rw [hg]

/-- A display, a line that is no query and a clear, cut in the middle, and a channel that makes the
server wait once: the second line ends the conversation. -/
theorem one_reply_per_query_violation :
    ∃ records replies, Conversation records replies true ∧
      ([⟨false, [10, 30]⟩, ⟨false, []⟩].foldl (onClientEvent PermMgr.idle Mac.idle)
        ⟨clientCreate ⟨fun _ => 0, fun _ => 0, fun _ => 0⟩ (fun _ => 0) () false (fun _ => .plain)
          [⟨.error EAGAIN_ERRNO, none⟩] (CStr.lit "display\n\nbogus\nclear\n").bytes, false,
          []⟩).client.sent = replies.flatten.flatMap encode ∧
      records <+: [[wordDisplay], [.lit "bogus"], [wordClear]] := by
  have hacc : ∀ answer ∈ [(⟨.error EAGAIN_ERRNO, none⟩ : OutAnswer)], answer.Accepts := by
    intro answer ha
    rw [List.mem_singleton.1 ha]
    exact .inr ⟨_, rfl, rfl, rfl⟩
  have hgrammar : reports (protMarks.linesWithin PROT_MAX_BUFFER_LENGTH []
      (CStr.lit "display\n\nbogus\nclear\n").bytes).1 =
      [[wordDisplay], [.lit "bogus"], [wordClear]] := by decide +kernel
  obtain ⟨R, records, replies, ended, -, h1, h2, -, -, h3, -, -, h4, -⟩ :=
    one_reply_per_query .idle .idle ⟨fun _ => 0, fun _ => 0, fun _ => 0⟩ (fun _ => 0) () false
      (fun _ => .plain) _ hacc (CStr.lit "display\n\nbogus\nclear\n").bytes
      [⟨false, [10, 30]⟩, ⟨false, []⟩]
  have hended : ended = true := h4.2 (by decide +kernel)
  rw [hgrammar] at h3
  exact ⟨records, replies, hended ▸ h1, h2, h3⟩

end SecLsmManager
